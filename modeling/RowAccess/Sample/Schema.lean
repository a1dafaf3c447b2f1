import RowAccess.Schema
/-!
# A sample schema

A small publishing world with every kind of relationship: references, collections, associations,
self-references and a key of two columns. Some columns go by another name in their table than in
rules, and one is computed.
-/

namespace RowAccess.Sample

/-- The models of the sample schema. -/
inductive Entity where
  | organization
  | user
  | post
  | tag
  | comment
  | document
  | article
  | ticket
  | order
  | line
  | event
  | metric
deriving DecidableEq, Repr

/-- All models, in the order they are listed in. -/
def entities : List Entity :=
  [.organization, .user, .post, .tag, .comment, .document, .article, .ticket, .order, .line,
    .event, .metric]

/-! ## Enumerations -/

/-- Whether a post is current. -/
def postStatus : Enumeration :=
  ⟨"PostStatus", false, [("active", .number 1), ("archived", .number 2)]⟩

/-- What a document's owner pays for. -/
def tier : Enumeration :=
  ⟨"Tier", false, [("free", .number 1), ("pro", .number 2), ("enterprise", .number 3)]⟩

/-- The kinds of articles; a missive is a letter. -/
def kind : Enumeration :=
  ⟨"Kind", false,
    [("note", .number 0), ("memo", .number 7), ("letter", .number (-3)), ("missive", .number (-3))]⟩

/-- Colours, which are mere labels. -/
def color : Enumeration :=
  ⟨"Color", false, [("red", .label "r"), ("green", .label "g"), ("active", .label "a")]⟩

/-- Levels, which are texts. -/
def level : Enumeration := ⟨"Level", false, [("low", .text "low"), ("high", .text "HIGH")]⟩

/-- Permissions, which combine. -/
def perm : Enumeration :=
  ⟨"Perm", true, [("READ", .number 1), ("WRITE", .number 2), ("RW", .number 3)]⟩

/-- All enumerations. -/
def enumerations : List Enumeration := [postStatus, tier, kind, color, level, perm]

/-! ## Models -/

/-- A column that goes by the same name everywhere. -/
def column (name : String) (type : ColumnType) : Column := ⟨name, name, type, none⟩

/-- A column that the table calls by another name. -/
def renamedColumn (key name : String) (type : ColumnType) : Column := ⟨key, name, type, none⟩

/-- The column `id` of one table with the column of another that holds it. -/
def idIn (column : String) : List (StoredColumn × StoredColumn) :=
  [(⟨"id", .integer⟩, ⟨column, .integer⟩)]

/-- A relationship to the one row whose `id` a column holds. -/
def reference (name : String) (target : Entity) (column : String) : Relationship Entity :=
  ⟨name, target, .reference (idIn column)⟩

/-- A relationship to the rows that hold this row's `id` in a column. -/
def collection (name : String) (target : Entity) (column : String) : Relationship Entity :=
  ⟨name, target, .collection (idIn column)⟩

/-- The key of an order with the columns of a line that hold it. -/
def orderKey : List (StoredColumn × StoredColumn) :=
  [(⟨"region", .text⟩, ⟨"order_region", .text⟩), (⟨"number", .integer⟩, ⟨"order_number", .integer⟩)]

/-- A declaration of names and the integers stored for them. -/
def declared (names : List (String × Int)) : Declaration :=
  .ofValue (.plain (names.map fun (name, n) => (.text name, .int n)))

/-- The description of each model. -/
def describe : Entity → Model Entity
  | .organization => {
      name := "Organization"
      table := "organizations"
      columns := [column "id" .integer, column "name" .text, column "parent_id" .integer]
      primaryKey := ["id"]
      relationships := [reference "parent" .organization "parent_id",
        collection "children" .organization "parent_id", collection "users" .user "org_id"]
      declarations := [] }
  | .user => {
      name := "User"
      table := "users"
      columns := [column "id" .integer, column "name" .text, column "role" .text,
        column "org_id" .integer]
      primaryKey := ["id"]
      relationships := [reference "organization" .organization "org_id",
        collection "posts" .post "author_id"]
      declarations := [] }
  | .post => {
      name := "Post"
      table := "posts"
      columns := [column "id" .integer, column "title" .text, column "is_published" .boolean,
        column "status" .integer, column "locked" .boolean, column "author_id" .integer]
      primaryKey := ["id"]
      relationships := [reference "author" .user "author_id",
        collection "comments" .comment "post_id",
        ⟨"tags", .tag, .association "post_tags" (idIn "post_id") (idIn "tag_id")⟩]
      declarations := [("status", declared [("active", 1), ("archived", 2)])] }
  | .tag => {
      name := "Tag"
      table := "tags"
      columns := [column "id" .integer, column "name" .text, column "visibility" .text]
      primaryKey := ["id"]
      relationships :=
        [⟨"posts", .post, .association "post_tags" (idIn "tag_id") (idIn "post_id")⟩]
      declarations := [] }
  | .comment => {
      name := "Comment"
      table := "comments"
      columns := [column "id" .integer, column "body" .text, column "flagged" .boolean,
        column "post_id" .integer]
      primaryKey := ["id"]
      relationships := [reference "post" .post "post_id"]
      declarations := [] }
  | .document => {
      name := "Document"
      table := "documents"
      columns := [column "id" .integer, column "owner_id" .integer, column "locked" .boolean,
        column "tier" .integer]
      primaryKey := ["id"]
      relationships := []
      declarations := [] }
  | .article => {
      name := "Article"
      table := "articles"
      columns := [column "id" .integer, renamedColumn "headline" "head_line" .text,
        renamedColumn "kind" "Kind" .integer, column "priority" .integer,
        column "order" .integer, column "state" .integer, column "author_id" .integer,
        column "editor_id" .integer, renamedColumn "reply_to_id" "replyTo" .integer]
      primaryKey := ["id"]
      relationships := [reference "author" .user "author_id", reference "editor" .user "editor_id",
        ⟨"reviewers", .user,
          .association "article_reviewers" (idIn "article_id") (idIn "user_id")⟩,
        reference "reply_to" .article "replyTo", collection "replies" .article "replyTo",
        collection "tickets" .ticket "article_id"]
      declarations := [("kind", .ofEnumeration kind),
        ("priority", declared [("low", -1), ("none", 0), ("high", 1000000000), ("", 5)])] }
  | .ticket => {
      name := "Ticket"
      table := "tickets"
      columns := [column "id" .integer, column "state" .integer, column "level" .integer,
        column "article_id" .integer]
      primaryKey := ["id"]
      relationships := [reference "article" .article "article_id"]
      declarations := [("state", declared [("open", 1), ("opened", 1), ("closed", 2)]),
        ("ghost", declared [("a", 1)])] }
  | .order => {
      name := "Order"
      table := "order"
      columns := [column "region" .text, column "number" .integer, column "total" .integer]
      primaryKey := ["region", "number"]
      relationships := [⟨"lines", .line, .collection orderKey⟩]
      declarations := [] }
  | .line => {
      name := "Line"
      table := "lines"
      columns := [column "id" .integer, column "order_region" .text,
        column "order_number" .integer, column "qty" .integer]
      primaryKey := ["id"]
      relationships := [⟨"order", .order, .reference orderKey⟩]
      declarations := [] }
  | .event => {
      name := "Event"
      table := "events"
      columns := [column "id" .integer, column "code" .text, column "score" .float,
        column "price" .numeric, column "on_day" .date, column "at" .dateTime,
        column "at_time" .time, column "span" .interval, column "token" .uuid,
        column "blob" .binary, column "active" .boolean, column "color" (.choice color)]
      primaryKey := ["id"]
      relationships := []
      declarations := [] }
  | .metric => {
      name := "Metric"
      table := "metrics"
      columns := [⟨"double", "a", .integer, some 2⟩, column "id" .integer, column "a" .integer,
        column "event_id" .integer]
      primaryKey := ["id"]
      relationships := [reference "event" .event "event_id"]
      declarations := [] }

/-- The sample schema. -/
def schema : Schema Entity := ⟨describe⟩

/-- The model of the given name. -/
def entity? (name : String) : Option Entity :=
  entities.find? fun e => (schema.model e).name == name

/-- The enumeration of the given name. -/
def enumeration? (name : String) : Option Enumeration :=
  enumerations.find? fun e => e.name == name

end RowAccess.Sample
