import Isolation.Text.Decimal
import Isolation.Total

/-!
# Timestamps

Points in time as generated recordings note them: a date, the letter `T` or a blank, a time of day, and
the distance from universal time. The reader is generous. Fields may lack leading zeros, blanks may stand
before a field and around its separator, a year with a sign may have any number of digits, and digits of
a fraction beyond the ninth are skipped. It is strict about values: a day has to exist, the distance
from universal time has to be less than a day, and the day in universal time has to be one of a year
that the calendar counts.

Second sixty is a leap second. It is kept as a second fifty-nine with more than a thousand million
nanoseconds, so that the difference of two timestamps can count it.

## Main definitions

* `Timestamp`, `Timestamp.parse?`: A day, a second and nanoseconds in universal time, and its reader.
-/

namespace Isolation

/-- A point in time, in universal time. -/
structure Timestamp where
  /-- Days since the beginning of the year 1970. -/
  day : Int
  /-- Seconds since the beginning of the day. -/
  second : Nat
  /-- Nanoseconds; a thousand million or more in a leap second. -/
  nanosecond : Nat
deriving DecidableEq

namespace Timestamp

def isBlank (c : Char) : Bool :=
  let n := c.toNat
  (9 ≤ n && n ≤ 13) || n == 0x20 || n == 0x85 || n == 0xa0 || n == 0x1680 ||
    (0x2000 ≤ n && n ≤ 0x200a) || n == 0x2028 || n == 0x2029 || n == 0x202f || n == 0x205f ||
    n == 0x3000

def skipBlanks (text : List Char) : List Char :=
  text.dropWhile isBlank

/-- A number of at least one digit and at most the given number of digits, and what follows it. -/
def takeNumber? (width : Nat) (text : List Char) : Option (Nat × List Char) :=
  match (text.take width).takeWhile Char.isDigit with
  | [] => none
  | digits => some (Text.decimalValue digits, text.drop digits.length)

/-- A field of one or two digits behind blanks, within bounds. -/
def takeField? (low high : Nat) (text : List Char) : Option (Nat × List Char) := do
  let (n, rest) ← takeNumber? 2 (skipBlanks text)
  if low ≤ n && n ≤ high then some (n, rest) else none

def takeSeparator? (c : Char) (text : List Char) : Option (List Char) :=
  match skipBlanks text with
  | d :: rest => if d = c then some rest else none
  | [] => none

/-- A year behind blanks: up to four digits, or a sign and any number of digits. -/
def takeYear? (text : List Char) : Option (Int × List Char) :=
  match skipBlanks text with
  | '-' :: rest => (takeNumber? rest.length rest).map fun (n, rest) => (-(n : Int), rest)
  | '+' :: rest => (takeNumber? rest.length rest).map fun (n, rest) => ((n : Int), rest)
  | text => (takeNumber? 4 text).map fun (n, rest) => ((n : Int), rest)

def isYear (year : Int) : Bool :=
  -262143 ≤ year && year ≤ 262142

def isLeapYear (year : Int) : Bool :=
  year % 4 == 0 && (year % 100 != 0 || year % 400 == 0)

def daysInMonth (year : Int) (month : Nat) : Nat :=
  if month == 2 then (if isLeapYear year then 29 else 28)
  else if month == 4 || month == 6 || month == 9 || month == 11 then 30
  else 31

/-- The days before a year, counted from the beginning of year one. -/
def daysBeforeYear (year : Int) : Int :=
  let past := year - 1
  365 * past + Int.fdiv past 4 - Int.fdiv past 100 + Int.fdiv past 400

/-- The days of a year before one of its months. -/
def daysBeforeMonth (year : Int) (month : Nat) : Nat :=
  total (fun m => daysInMonth year (m + 1)) (List.range (month - 1))

/-- The number of a calendar day, counted from the beginning of the year 1970. -/
def dayNumber (year : Int) (month day : Nat) : Int :=
  daysBeforeYear year + daysBeforeMonth year month + (day - 1 : Nat) - daysBeforeYear 1970

def takeDate? (text : List Char) : Option (Int × List Char) := do
  let (year, rest) ← takeYear? text
  let (month, rest) ← takeField? 1 12 (← takeSeparator? '-' rest)
  let (day, rest) ← takeField? 1 31 (← takeSeparator? '-' rest)
  if isYear year && day ≤ daysInMonth year month then
    some (dayNumber year month day, rest)
  else none

/-- The fraction of a second in nanoseconds, if there is one. -/
def takeFraction? (text : List Char) : Option (Nat × List Char) :=
  match text with
  | '.' :: rest =>
    match rest.takeWhile Char.isDigit with
    | [] => none
    | digits =>
      let shown := digits.take 9
      some (Text.decimalValue shown * Nat.pow 10 (9 - shown.length), rest.drop digits.length)
  | _ => some (0, text)

/-- A time of day: second of the day, nanoseconds and what follows. -/
def takeTime? (text : List Char) : Option (Nat × Nat × List Char) := do
  let (hour, rest) ← takeField? 0 23 text
  let (minute, rest) ← takeField? 0 59 (← takeSeparator? ':' rest)
  let (second, rest) ← takeField? 0 60 (← takeSeparator? ':' rest)
  let (fraction, rest) ← takeFraction? rest
  let start := hour * 3600 + minute * 60
  -- A leap second is the second before it, run over.
  if second = 60 then some (start + 59, 1000000000 + fraction, rest)
  else some (start + second, fraction, rest)

/-- Two digits, the first one not above the given digit. -/
def twoDigits? (high : Char) (text : List Char) : Option (Nat × List Char) :=
  match text with
  | a :: b :: rest =>
    if a.isDigit && b.isDigit && a ≤ high then some (Text.decimalValue [a, b], rest) else none
  | _ => none

/-- Hours and minutes from universal time, in seconds. -/
def takeDistance? (text : List Char) : Option (Nat × List Char) := do
  let (hours, rest) ← twoDigits? '9' text
  let (minutes, rest) ← twoDigits? '5' (rest.dropWhile fun c => c == ':' || isBlank c)
  if hours < 24 then some (hours * 3600 + minutes * 60, rest) else none

/-- Where universal time lies, in seconds, and what follows. -/
def takeOffset? (text : List Char) : Option (Int × List Char) :=
  if (text.take 3).map Char.toUpper = ['U', 'T', 'C'] then some (0, text.drop 3)
  else match text with
    | c :: rest =>
      if c = 'Z' || c = 'z' then some (0, rest)
      else if c = '+' then (takeDistance? rest).map fun (n, rest) => ((n : Int), rest)
      else if c = '-' || c = '−' then
        (takeDistance? rest).map fun (n, rest) => (-(n : Int), rest)
      else none
    | [] => none

/-- A day of one of the years that the calendar counts. -/
def isDay (day : Int) : Bool :=
  dayNumber (-262143) 1 1 ≤ day && day ≤ dayNumber 262142 12 31

/-- The timestamp a text denotes. Near the ends of the calendar a day can exist where the text was
    written and not in universal time. -/
def parse? (text : List Char) : Option Timestamp := do
  let (day, rest) ← takeDate? text
  let rest ← match rest with
    | c :: rest => if c = 'T' || c = 't' || c = ' ' then some rest else none
    | [] => none
  let (second, nanosecond, rest) ← takeTime? rest
  let (offset, rest) ← takeOffset? (skipBlanks rest)
  if !(skipBlanks rest).isEmpty then none
  else
    let universal := (second : Int) - offset
    let day := day + Int.fdiv universal 86400
    if isDay day then some ⟨day, (Int.fmod universal 86400).toNat, nanosecond⟩ else none

/-- A leap second between two times of day has to be counted. -/
def leapAdjustment (later earlier : Timestamp) : Int :=
  if later.second > earlier.second then (if earlier.nanosecond ≥ 1000000000 then 1 else 0)
  else if later.second < earlier.second then (if later.nanosecond ≥ 1000000000 then -1 else 0)
  else 0

/-- The time from one timestamp to another in nanoseconds. -/
def nanosecondsSince (later earlier : Timestamp) : Int :=
  ((later.day - earlier.day) * 86400 + later.second - earlier.second +
    leapAdjustment later earlier) * 1000000000 + later.nanosecond - earlier.nanosecond

/-- The time from one timestamp to another in whole milliseconds, cut towards zero. -/
def millisecondsSince (later earlier : Timestamp) : Int :=
  Int.tdiv (nanosecondsSince later earlier) 1000000

/-- The timestamp at a number of nanoseconds after the beginning of the year 1970. -/
def ofNanoseconds (n : Nat) : Timestamp :=
  let seconds := n / 1000000000
  ⟨(seconds / 86400 : Nat), seconds % 86400, n % 1000000000⟩

/-- The year of a day that is counted from the beginning of year one. The average length of a year gives
    a guess that is wrong by at most one. -/
def yearOf (day : Int) : Int :=
  let guess := Int.fdiv (day * 400) 146097 + 1
  if day < daysBeforeYear guess then guess - 1
  else if daysBeforeYear (guess + 1) ≤ day then guess + 1
  else guess

/-- The number of the month that holds a day of a year, where days are counted from zero. -/
def monthOf (year : Int) (day : Nat) : Nat :=
  (List.range 11).countP (fun m => daysBeforeMonth year (m + 2) ≤ day) + 1

def padded (width n : Nat) : String :=
  let digits := Nat.repr n
  String.ofList (List.replicate (width - digits.length) '0') ++ digits

/-- The text of a timestamp after the beginning of year one. -/
def text (t : Timestamp) : String :=
  let day := t.day + daysBeforeYear 1970
  let year := yearOf day
  let dayOfYear := (day - daysBeforeYear year).toNat
  let month := monthOf year dayOfYear
  padded 4 year.toNat ++ "-" ++ padded 2 month ++ "-" ++
    padded 2 (dayOfYear - daysBeforeMonth year month + 1) ++ "T" ++
    padded 2 (t.second / 3600) ++ ":" ++ padded 2 (t.second / 60 % 60) ++ ":" ++
    padded 2 (t.second % 60) ++ "." ++ padded 9 t.nanosecond ++ "Z"

end Timestamp

end Isolation
