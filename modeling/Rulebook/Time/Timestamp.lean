/-
  Rulebook.Time.Timestamp — points in time with an offset.

  A timestamp is read and written in the format of RFC 3339. It is the number of seconds
  since 1970 in universal time, the nanoseconds from there, and the offset in which its
  fields are shown. A leap second is the second before it with a second or more of
  nanoseconds, and is shown as second 60.

  Reading looks at the fields from left to right: each must have its digits, then lie in
  its range. Whether the month has the day is looked at last.
-/

import Rulebook.Time.Calendar
import Rulebook.Time.Duration
import Rulebook.Text.Utf8

namespace Rulebook.Time

open Rulebook.Text (numeral digitsPadded)

/-- A point in time; the offset is in seconds, to the east. -/
structure Timestamp where
  seconds : Int
  nanos : Nat
  offset : Int
  deriving DecidableEq, Repr

def daySeconds : Int := 86400

namespace Timestamp

/-! ## Fields -/

/-- The seconds since 1970 that a clock at the offset shows. -/
def localSeconds (t : Timestamp) : Int := t.seconds + t.offset

def date (t : Timestamp) : Date := Date.ofDayNumber (t.localSeconds / daySeconds)

def secondOfDay (t : Timestamp) : Nat := (t.localSeconds % daySeconds).toNat

def hour (t : Timestamp) : Nat := t.secondOfDay / 3600

def minute (t : Timestamp) : Nat := t.secondOfDay / 60 % 60

/-- The second at the offset; a leap second counts as the one before it. -/
def secondOfMinute (t : Timestamp) : Nat := t.secondOfDay % 60

def milliseconds (t : Timestamp) : Nat := t.nanos / 1000000

/-! ## Writing -/

/-- A year: four digits, or more of them after a sign. -/
def yearText (year : Int) : List Char :=
  if 0 ≤ year ∧ year ≤ 9999 then digitsPadded 10 4 year.toNat
  else (if year < 0 then '-' else '+') :: digitsPadded 10 4 year.natAbs

/-- Nanoseconds on as many of 0, 3, 6 or 9 places as they need. -/
def fractionText (nanos : Nat) : List Char :=
  if nanos = 0 then []
  else if nanos % 1000000 = 0 then '.' :: digitsPadded 10 3 (nanos / 1000000)
  else if nanos % 1000 = 0 then '.' :: digitsPadded 10 6 (nanos / 1000)
  else '.' :: digitsPadded 10 9 nanos

/-- An offset in hours and minutes, to the nearest minute. -/
def offsetText (offset : Int) : List Char :=
  let minutes := (offset.natAbs + 30) / 60
  (if offset < 0 then '-' else '+') :: (digitsPadded 10 2 (minutes / 60) ++ ':' :: digitsPadded 10 2 (minutes % 60))

def localText (t : Timestamp) : List Char :=
  let date := t.date
  let leap := if second ≤ t.nanos then 1 else 0
  yearText date.year ++ '-' :: digitsPadded 10 2 date.month ++ '-' :: digitsPadded 10 2 date.day ++
    'T' :: digitsPadded 10 2 t.hour ++ ':' :: digitsPadded 10 2 t.minute ++
    ':' :: digitsPadded 10 2 (t.secondOfMinute + leap) ++ fractionText (t.nanos - leap * second)

def text (t : Timestamp) : List Char := t.localText ++ offsetText t.offset

/-- A timestamp with `Z` for offset zero. -/
def shortText (t : Timestamp) : List Char := t.localText ++ if t.offset = 0 then ['Z'] else offsetText t.offset

/-! ## Reading -/

inductive Fault where
  | tooShort
  | invalid
  | outOfRange
  | tooLong
  deriving DecidableEq, Repr

def Fault.message : Fault → String
  | .tooShort => "premature end of input"
  | .invalid => "input contains invalid characters"
  | .outOfRange => "input is out of range"
  | .tooLong => "trailing input"

/-- The value of `count` digits at the front of a text, read on from `n`, and what follows them. -/
def takeDigits (n : Nat) : Nat → List Char → Except Fault (Nat × List Char)
  | 0, text => .ok (n, text)
  | _ + 1, [] => .error .invalid
  | count + 1, c :: rest =>
    if c.isDigit then takeDigits (10 * n + (c.toNat - '0'.toNat)) count rest else .error .invalid

def takeField (count low high : Nat) (text : List Char) : Except Fault (Nat × List Char) := do
  let (n, rest) ← takeDigits 0 count text
  if low ≤ n ∧ n ≤ high then return (n, rest) else throw .outOfRange

def takeMark (marks : List Char) : List Char → Except Fault (List Char)
  | [] => .error .tooShort
  | c :: rest => if marks.contains c then .ok rest else .error .invalid

def takePair : List Char → Except Fault (Nat × Nat × List Char)
  | [] => .error .tooShort
  | [c] => .error (if 2 ≤ c.utf8Size then .invalid else .tooShort)
  | c :: d :: rest =>
    if c.isDigit && d.isDigit then .ok (c.toNat - '0'.toNat, d.toNat - '0'.toNat, rest) else .error .invalid

/-- A fraction of a second in nanoseconds, of which digits after the ninth do not count. -/
def takeFraction (text : List Char) : Except Fault (Nat × List Char) :=
  match text with
  | '.' :: rest =>
    let ds := rest.takeWhile Char.isDigit
    match rest, ds with
    | [], _ => .error .tooShort
    | _, [] => .error .invalid
    | _, ds =>
      let nine := (ds ++ List.replicate 9 '0').take 9
      .ok (Nat.ofDigitChars 10 nine 0, rest.dropWhile Char.isDigit)
  | text => .ok (0, text)

def takeOffset (text : List Char) : Except Fault (Int × List Char) :=
  match text with
  | [] => .error .tooShort
  | sign :: rest => do
    if sign = 'Z' ∨ sign = 'z' then return (0, rest)
    if ¬ (sign = '+' ∨ sign = '-' ∨ sign = '\u2212') then throw .invalid
    let (h, h', rest) ← takePair rest
    let rest ← takeMark [':'] rest
    let (m, m', rest) ← takePair rest
    if 6 ≤ m then throw .outOfRange
    if 24 ≤ 10 * h + h' then throw .outOfRange
    let seconds : Int := (10 * h + h') * 3600 + (10 * m + m') * 60
    return (if sign = '+' then seconds else -seconds, rest)

def read (text : List Char) : Except Fault Timestamp := do
  if (Text.Utf8.encode text).length < 19 then throw .tooShort
  let (year, rest) ← takeDigits 0 4 text
  let rest ← takeMark ['-'] rest
  let (month, rest) ← takeField 2 1 12 rest
  let rest ← takeMark ['-'] rest
  let (day, rest) ← takeField 2 1 31 rest
  let rest ← takeMark ['T', 't', ' '] rest
  let (hour, rest) ← takeField 2 0 23 rest
  let rest ← takeMark [':'] rest
  let (minute, rest) ← takeField 2 0 59 rest
  let rest ← takeMark [':'] rest
  let (sec, rest) ← takeField 2 0 60 rest
  let (nanos, rest) ← takeFraction rest
  let (offset, rest) ← takeOffset rest
  if rest ≠ [] then throw .tooLong
  let date : Date := ⟨year, month, day⟩
  if !date.isValid then throw .outOfRange
  let leap := if sec = 60 then 1 else 0
  let clock : Int := hour * 3600 + minute * 60 + (sec - leap : Nat)
  return ⟨date.dayNumber * daySeconds + clock - offset, nanos + leap * second, offset⟩

/-! ## Reckoning -/

def order (a b : Timestamp) : Ordering := (compare a.seconds b.seconds).then (compare a.nanos b.nanos)

/-- The second and the nanoseconds at a distance from those of a timestamp. A move out of a leap
    second first ends it. -/
def moved (t : Timestamp) (d : Duration) : Timestamp :=
  let whole := d.nanos.tdiv second
  let part := d.nanos.tmod second
  let plain (seconds : Int) (nanos : Int) : Timestamp :=
    let nanos := nanos + part
    ⟨seconds + whole + nanos / second, (nanos % second).toNat, t.offset⟩
  if t.nanos < second then plain t.seconds t.nanos
  else if 0 < whole ∨ (0 < part ∧ 2 * second ≤ t.nanos + part) then plain t.seconds (t.nanos - second)
  else if whole < 0 then plain (t.seconds + 1) (t.nanos - second)
  else ⟨t.seconds, (t.nanos + part).toNat, t.offset⟩

/-- The time from `b` to `a`. A leap second between them counts. -/
def since (a b : Timestamp) : Duration :=
  let ofDay (t : Timestamp) := t.seconds % daySeconds
  let leap : Int :=
    if ofDay b < ofDay a ∧ second ≤ b.nanos then 1
    else if ofDay a < ofDay b ∧ second ≤ a.nanos then -1
    else 0
  ⟨(a.seconds - b.seconds + leap) * second + ((a.nanos : Int) - b.nanos)⟩

def sinceEpoch (t : Timestamp) : Int := t.seconds * second + t.nanos

end Timestamp

end Rulebook.Time
