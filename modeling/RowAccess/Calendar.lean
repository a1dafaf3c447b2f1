import RowAccess.Text.Quoted
/-!
# Dates, times and durations

Calendar values as they are written in conditions: reading the ISO forms, writing them back, and
the spelled-out form used inside messages.
-/

namespace RowAccess

/-- A day of the calendar. -/
structure Date where
  year : Nat
  month : Nat
  day : Nat
deriving DecidableEq, Repr

/-- A time of day, with the distance from universal time in seconds if it is known. -/
structure TimeOfDay where
  hour : Nat
  minute : Nat
  second : Nat
  microsecond : Nat
  offset : Option Int
deriving DecidableEq, Repr

/-- A point in time: a day and a time on it. -/
structure DateTime where
  date : Date
  time : TimeOfDay
deriving DecidableEq, Repr

/-- A length of time; seconds are below one day and microseconds below one second. -/
structure Duration where
  days : Int
  seconds : Nat
  microseconds : Nat
deriving DecidableEq, Repr

namespace Calendar

/-- Reads exactly `width` digits from the start of a text. -/
def readDigits? : Nat → List Char → Option (Nat × List Char)
  | 0, cs => some (0, cs)
  | width + 1, cs =>
    match cs with
    | c :: rest =>
      if c.isDigit then
        (readDigits? width rest).map fun (n, after) =>
          ((c.toNat - '0'.toNat) * 10 ^ width + n, after)
      else none
    | [] => none

/-- Reads `width` digits that follow the given mark. -/
def readAfter? (mark : Char) (width : Nat) : List Char → Option (Nat × List Char)
  | c :: rest => if c == mark then readDigits? width rest else none
  | [] => none

/-- Reads up to six digits of a fraction of a second as microseconds. -/
def readFraction (cs : List Char) : Nat × List Char :=
  let digits := cs.takeWhile Char.isDigit
  let shown := (digits ++ List.replicate (6 - digits.length) '0').take 6
  (shown.foldl (fun n c => 10 * n + (c.toNat - '0'.toNat)) 0, cs.dropWhile Char.isDigit)

/-- Reads a distance from universal time. -/
def readOffset? : List Char → Option (Option Int)
  | [] => some none
  | ['Z'] => some (some 0)
  | c :: rest =>
    if c == '+' || c == '-' then do
      let (hours, rest) ← readDigits? 2 rest
      let (minutes, rest) ← readAfter? ':' 2 rest
      let seconds ← match rest with
        | [] => some 0
        | _ => (readAfter? ':' 2 rest).map (·.1)
      let total : Int := hours * 3600 + minutes * 60 + seconds
      some (some (if c == '-' then -total else total))
    else none

/-- Reads a day written as year, month and day. -/
def readDate? (cs : List Char) : Option (Date × List Char) := do
  let (year, rest) ← readDigits? 4 cs
  let (month, rest) ← readAfter? '-' 2 rest
  let (day, rest) ← readAfter? '-' 2 rest
  some (⟨year, month, day⟩, rest)

/-- Reads a time of day; seconds and their fraction may be left out. -/
def readTime? (cs : List Char) : Option TimeOfDay := do
  let (hour, rest) ← readDigits? 2 cs
  let (minute, rest) ← readAfter? ':' 2 rest
  let (second, rest) := match readAfter? ':' 2 rest with
    | some found => found
    | none => (0, rest)
  let (microsecond, rest) := match rest with
    | '.' :: after => readFraction after
    | _ => (0, rest)
  let offset ← readOffset? rest
  some ⟨hour, minute, second, microsecond, offset⟩

/-- Arguments of a call, separated by commas. -/
def arguments (parts : List String) : String := ", ".intercalate parts

end Calendar

namespace Date

/-- Reads a day in ISO form. -/
def ofText? (s : String) : Option Date :=
  match Calendar.readDate? s.toList with
  | some (date, []) => some date
  | _ => none

/-- The ISO form of a day. -/
def text (d : Date) : String :=
  Text.padded 4 d.year ++ "-" ++ Text.padded 2 d.month ++ "-" ++ Text.padded 2 d.day

/-- The arguments that spell out a day. -/
def parts (d : Date) : List String := [toString d.year, toString d.month, toString d.day]

/-- The spelled-out form of a day. -/
def describe (d : Date) : String := "datetime.date(" ++ Calendar.arguments d.parts ++ ")"

/-- The number of days from a fixed day in the past, leap days included. -/
def ordinal (d : Date) : Int :=
  let y : Int := if d.month ≤ 2 then (d.year : Int) - 1 else d.year
  let m : Int := if d.month ≤ 2 then (d.month : Int) + 9 else (d.month : Int) - 3
  365 * y + y / 4 - y / 100 + y / 400 + (153 * m + 2) / 5 + d.day

end Date

namespace Duration

/-- The duration of the given days, seconds and microseconds, carried over where they overflow. -/
def ofParts (days seconds microseconds : Int) : Duration :=
  let total := (days * 86400 + seconds) * 1000000 + microseconds
  let day := 86400 * 1000000
  ⟨total.fdiv day, ((total.fmod day) / 1000000).toNat, ((total.fmod day) % 1000000).toNat⟩

/-- The spelled-out form of a duration names the parts that are not zero. -/
def describe (d : Duration) : String :=
  let parts :=
    (if d.days == 0 then [] else ["days=" ++ toString d.days]) ++
    (if d.seconds == 0 then [] else ["seconds=" ++ toString d.seconds]) ++
    (if d.microseconds == 0 then [] else ["microseconds=" ++ toString d.microseconds])
  "datetime.timedelta(" ++ (if parts.isEmpty then "0" else Calendar.arguments parts) ++ ")"

/-- The clock form of a duration. -/
def text (d : Duration) : String :=
  let days := if d.days == 0 then ""
    else toString d.days ++ (if d.days.natAbs == 1 then " day, " else " days, ")
  let fraction := if d.microseconds == 0 then "" else "." ++ Text.padded 6 d.microseconds
  days ++ toString (d.seconds / 3600) ++ ":" ++ Text.padded 2 (d.seconds / 60 % 60) ++ ":" ++
    Text.padded 2 (d.seconds % 60) ++ fraction

/-- Whether a duration is not empty. -/
def truthy (d : Duration) : Bool := d.days != 0 || d.seconds != 0 || d.microseconds != 0

end Duration

namespace TimeOfDay

/-- Reads a time of day in ISO form. -/
def ofText? (s : String) : Option TimeOfDay := Calendar.readTime? s.toList

/-- The ISO form of a distance from universal time. -/
def offsetText : Option Int → String
  | none => ""
  | some offset =>
    let n := offset.natAbs
    (if offset < 0 then "-" else "+") ++ Text.padded 2 (n / 3600) ++ ":" ++
      Text.padded 2 (n / 60 % 60) ++ (if n % 60 == 0 then "" else ":" ++ Text.padded 2 (n % 60))

/-- The ISO form of a time of day: the fraction is left out when it is zero. -/
def text (t : TimeOfDay) : String :=
  Text.padded 2 t.hour ++ ":" ++ Text.padded 2 t.minute ++ ":" ++ Text.padded 2 t.second ++
    (if t.microsecond == 0 then "" else "." ++ Text.padded 6 t.microsecond) ++ offsetText t.offset

/-- A time of day as it is stored: always with six digits of fraction and without its offset. -/
def stored (t : TimeOfDay) : String :=
  Text.padded 2 t.hour ++ ":" ++ Text.padded 2 t.minute ++ ":" ++ Text.padded 2 t.second ++ "." ++
    Text.padded 6 t.microsecond

/-- The spelled-out form of a distance from universal time. -/
def describeOffset (offset : Int) : String :=
  if offset == 0 then "datetime.timezone.utc"
  else "datetime.timezone(" ++ (Duration.ofParts 0 offset 0).describe ++ ")"

/-- The arguments that spell out a time: seconds and microseconds are dropped from the right while
they are zero, and the offset is named. -/
def parts (t : TimeOfDay) : List String :=
  [toString t.hour, toString t.minute] ++
    (if t.second == 0 && t.microsecond == 0 then [] else [toString t.second]) ++
    (if t.microsecond == 0 then [] else [toString t.microsecond]) ++
    t.offset.toList.map fun offset => "tzinfo=" ++ describeOffset offset

/-- The spelled-out form of a time of day. -/
def describe (t : TimeOfDay) : String := "datetime.time(" ++ Calendar.arguments t.parts ++ ")"

/-- Microseconds since midnight, moved to universal time where the offset is known. -/
def microseconds (t : TimeOfDay) : Int :=
  ((t.hour * 3600 + t.minute * 60 + t.second : Nat) - t.offset.getD 0) * 1000000 + t.microsecond

/-- Two times agree if both or neither have an offset and they name the same moment. -/
def equals (s t : TimeOfDay) : Bool :=
  s.offset.isSome == t.offset.isSome && s.microseconds == t.microseconds

end TimeOfDay

namespace DateTime

/-- Reads a point in time in ISO form; a day alone stands for its midnight. -/
def ofText? (s : String) : Option DateTime := do
  let (date, rest) ← Calendar.readDate? s.toList
  match rest with
  | [] => some ⟨date, ⟨0, 0, 0, 0, none⟩⟩
  | _ :: time => (Calendar.readTime? time).map (DateTime.mk date)

/-- The ISO form of a point in time, with the given mark between day and time. -/
def text (mark : String) (t : DateTime) : String := t.date.text ++ mark ++ t.time.text

/-- A point in time as it is stored. -/
def stored (t : DateTime) : String := t.date.text ++ " " ++ t.time.stored

/-- The spelled-out form of a point in time. -/
def describe (t : DateTime) : String :=
  "datetime.datetime(" ++ Calendar.arguments (t.date.parts ++ t.time.parts) ++ ")"

/-- Two points in time agree if both or neither have an offset and they name the same moment. -/
def equals (s t : DateTime) : Bool :=
  s.time.offset.isSome == t.time.offset.isSome &&
    s.date.ordinal * 86400000000 + s.time.microseconds ==
      t.date.ordinal * 86400000000 + t.time.microseconds

end DateTime

end RowAccess
