import RowAccess.Value
/-!
# The text of values

`describe` spells a value out for a message, kind and contents both; `plainText` is the bare text
that stands for it inside other text.
-/

namespace RowAccess

namespace Member

/-- A member spelled out: its enumeration, its name and what it carries. -/
def describe (m : Member) : String :=
  let content := match m.content with
    | .number n => toString n
    | .text s | .label s => Text.quoted s
  "<" ++ m.enumeration ++ "." ++ m.name ++ ": " ++ content ++ ">"

/-- The bare text of a member: the digits of its number, otherwise its full name. -/
def plainText (m : Member) : String :=
  match m.content with
  | .number n => toString n
  | _ => m.enumeration ++ "." ++ m.name

end Member

namespace Value

/-- Texts separated by commas. -/
def commaSeparated (parts : List String) : String := ", ".intercalate parts

/-- Texts in round brackets; a single one is followed by a comma. -/
def bracketed (parts : List String) : String :=
  match parts with
  | [part] => "(" ++ part ++ ",)"
  | _ => "(" ++ commaSeparated parts ++ ")"

/-- Texts in curly brackets. -/
def braced (parts : List String) : String := "\x7b" ++ commaSeparated parts ++ "\x7d"

mutual

/-- A value spelled out. -/
def describe : Value → String
  | .null => "None"
  | .bool b => if b then "True" else "False"
  | .int n => toString n
  | .float x => x.text
  | .decimal d => "Decimal('" ++ d.text ++ "')"
  | .text s => Text.quoted s
  | .bytes content => Text.quotedBytes content
  | .buffer content => "bytearray(" ++ Text.quotedBuffer content ++ ")"
  | .date d => d.describe
  | .dateTime t => t.describe
  | .time t => t.describe
  | .duration d => d.describe
  | .uuid u => "UUID('" ++ u.text ++ "')"
  | .member m => m.describe
  | .list items => "[" ++ commaSeparated (describeAll items) ++ "]"
  | .tuple items => bracketed (describeAll items)
  | .set items => if items.isEmpty then "set()" else braced (describeAll items)
  | .frozenSet items =>
    if items.isEmpty then "frozenset()" else "frozenset(" ++ braced (describeAll items) ++ ")"
  | .range start stop step =>
    let bounds := [toString start, toString stop]
    "range(" ++ commaSeparated (if step == 1 then bounds else bounds ++ [toString step]) ++ ")"
  | .foreign label => "<opaque " ++ label ++ ">"
  | .mapping .readOnly entries => "mappingproxy(" ++ braced (describeEntries entries) ++ ")"
  | .mapping _ entries => braced (describeEntries entries)
termination_by structural v => v

/-- Values spelled out one by one. -/
def describeAll : List Value → List String
  | [] => []
  | v :: rest => describe v :: describeAll rest
termination_by structural v => v

/-- Entries spelled out one by one. -/
def describeEntries : List (Value × Value) → List String
  | [] => []
  | (k, v) :: rest => (describe k ++ ": " ++ describe v) :: describeEntries rest
termination_by structural v => v

end

/-- The bare text of a value. -/
def plainText : Value → String
  | .text s => s
  | .decimal d => d.text
  | .date d => d.text
  | .dateTime t => t.text " "
  | .time t => t.text
  | .duration d => d.text
  | .uuid u => u.text
  | .member m => m.plainText
  | v => v.describe

end Value

end RowAccess
