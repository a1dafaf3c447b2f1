import RowAccess.Database
import RowAccess.Sample.Schema
/-!
# Sample rows

A few rows for the sample schema, with missing references, rows that nothing refers to, and empty
cells where a comparison can go wrong.
-/

namespace RowAccess.Sample

/-- Rows written as lists of cells under the same names. -/
def table (names : List String) (rows : List (List Cell)) : List Row := rows.map (Row.ofCells names)

/-- The rows of each model. -/
def rows : Entity → List Row
  | .organization => table ["id", "name", "parent_id"] [
    [.int 1, .text "Acme Corp", .null],
    [.int 2, .text "Globex", .int 1],
    [.int 3, .text "Initech", .int 2],
    [.int 4, .text "Solo", .null]]
  | .user => table ["id", "name", "role", "org_id"] [
    [.int 1, .text "Alice", .text "admin", .int 1],
    [.int 2, .text "Bob", .text "editor", .int 1],
    [.int 3, .text "Charlie", .text "viewer", .null],
    [.int 4, .text "Dana", .text "editor", .int 2],
    [.int 5, .text "Eve", .text "viewer", .int 3],
    [.int 6, .text "Émile", .text "viewer", .int 4]]
  | .post => table ["id", "title", "is_published", "status", "locked", "author_id"] [
    [.int 1, .text "Public Post", .int 1, .int 1, .int 0, .int 1],
    [.int 2, .text "Draft Post", .int 0, .int 2, .int 1, .int 1],
    [.int 3, .text "Bob's Post", .int 1, .int 1, .int 0, .int 2],
    [.int 4, .text "Charlie's Draft", .int 0, .int 1, .int 0, .int 3],
    [.int 5, .text "Dana's Post", .int 1, .int 2, .int 0, .int 4],
    [.int 6, .text "Eve's Idea", .int 0, .null, .int 1, .int 5],
    [.int 7, .text "", .int 1, .null, .int 0, .int 1],
    [.int 8, .text "naïve ☃", .int 1, .int 2, .int 1, .int 6]]
  | .tag => table ["id", "name", "visibility"] [
    [.int 1, .text "python", .text "public"],
    [.int 2, .text "internal", .text "private"],
    [.int 3, .text "unused", .text "public"]]
  | .comment => table ["id", "body", "flagged", "post_id"] [
    [.int 1, .text "nice", .int 0, .int 1],
    [.int 2, .text "agreed", .int 0, .int 1],
    [.int 3, .text "spam", .int 1, .int 1],
    [.int 4, .text "thanks", .int 0, .int 3],
    [.int 5, .text "spam", .int 1, .int 5],
    [.int 6, .text "hm", .int 0, .int 6],
    [.int 7, .text "hm", .int 1, .int 6]]
  | .document => table ["id", "owner_id", "locked", "tier"] [
    [.int 1, .int 5, .int 0, .int 1],
    [.int 2, .int 5, .int 1, .int 2],
    [.int 3, .int 6, .int 0, .int 1],
    [.int 4, .int 6, .int 1, .int 3],
    [.int 5, .int 0, .int 0, .int 2]]
  | .article => table ["id", "head_line", "Kind", "priority", "order", "state", "author_id",
      "editor_id", "replyTo"] [
    [.int 1, .text "Root", .int 0, .int (-1), .int 1, .int 1, .int 1, .int 2, .null],
    [.int 2, .text "Re: Root", .int 7, .int 0, .int 2, .int 2, .int 2, .null, .int 1],
    [.int 3, .text "Re: Re", .int (-3), .int 1000000000, .int 3, .int 1, .int 3, .int 1, .int 2],
    [.int 4, .text "Other", .int 7, .int 5, .int 1, .null, .int 4, .int 4, .null],
    [.int 5, .text "Re: Root 2", .null, .null, .null, .int 2, .int 1, .int 5, .int 1]]
  | .ticket => table ["id", "state", "level", "article_id"] [
    [.int 1, .int 1, .int 1, .int 1],
    [.int 2, .int 2, .int 2, .int 1],
    [.int 3, .int 1, .int 3, .int 3],
    [.int 4, .null, .int 1, .null]]
  | .order => table ["region", "number", "total"] [
    [.text "eu", .int 1, .int 10],
    [.text "eu", .int 2, .int 20],
    [.text "us", .int 1, .int 30]]
  | .line => table ["id", "order_region", "order_number", "qty"] [
    [.int 1, .text "eu", .int 1, .int 5],
    [.int 2, .text "eu", .int 1, .int 6],
    [.int 3, .text "us", .int 1, .int 5],
    [.int 4, .text "eu", .int 9, .int 7],
    [.int 5, .null, .null, .int 8]]
  | .event | .metric => []

/-- The rows of each association table. -/
def associations : String → List Row
  | "post_tags" => table ["post_id", "tag_id"] [
    [.int 1, .int 1],
    [.int 2, .int 2],
    [.int 3, .int 1],
    [.int 3, .int 2],
    [.int 6, .int 2],
    [.int 8, .int 1]]
  | "article_reviewers" => table ["article_id", "user_id"] [
    [.int 1, .int 2],
    [.int 1, .int 3],
    [.int 2, .int 1],
    [.int 4, .int 4],
    [.int 4, .int 5]]
  | _ => []

/-- The sample rows. -/
def database : Database Entity := ⟨rows, associations⟩

end RowAccess.Sample
