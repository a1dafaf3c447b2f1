/-!
# Identifiers

Names of tables, columns and labels as a statement writes them. A name is put between double quotes
if it is a reserved word, starts with a digit or a dollar sign, or holds anything but lower-case
letters, digits, underscores and dollar signs.
-/

namespace RowAccess.Sql

/-- The words that cannot be names without quotes. -/
def reservedWords : List String := [
  "all", "analyse", "analyze", "and", "any", "array", "as", "asc", "asymmetric", "authorization",
  "between", "binary", "both", "case", "cast", "check", "collate", "column", "constraint",
  "create", "cross", "current_date", "current_role", "current_time", "current_timestamp",
  "current_user", "default", "deferrable", "desc", "distinct", "do", "else", "end", "except",
  "false", "for", "foreign", "freeze", "from", "full", "grant", "group", "having", "ilike", "in",
  "initially", "inner", "intersect", "into", "is", "isnull", "join", "leading", "left", "like",
  "limit", "localtime", "localtimestamp", "natural", "new", "not", "notnull", "null", "off",
  "offset", "old", "on", "only", "or", "order", "outer", "overlaps", "placing", "primary",
  "references", "right", "select", "session_user", "set", "similar", "some", "symmetric", "table",
  "then", "to", "trailing", "true", "union", "unique", "user", "using", "verbose", "when", "where"]

/-- Whether a character can stand in a name without quotes. -/
def isPlain (c : Char) : Bool := c.isLower || c.isDigit || c == '_' || c == '$'

/-- Whether a name needs quotes. -/
def needsQuotes (name : String) : Bool :=
  match name.toList with
  | [] => true
  | c :: rest =>
    reservedWords.contains name || c.isDigit || c == '$' || !(c :: rest).all isPlain

/-- A name as a statement writes it; a double quote inside quotes is written twice. -/
def identifier (name : String) : String :=
  if needsQuotes name then
    "\"" ++ String.join (name.toList.map fun c => if c == '"' then "\"\"" else c.toString) ++ "\""
  else name

end RowAccess.Sql
