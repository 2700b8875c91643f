import AgentBus.Lib.Decimal
import Mathlib.Data.Int.Notation

/-!
# Instants and their RFC 3339 text

A `Time` counts nanoseconds from midnight UTC of 1 January of year 1, so `0` is the
zero instant.  `format` writes the instant in UTC with as many fraction digits as it
needs, and `parse?` reads the text back, with any fraction and any zone offset.
-/

namespace AgentBus

/-- An instant: nanoseconds since 0001-01-01T00:00:00Z. -/
abbrev Time := ℤ

/-- A span of time in nanoseconds. -/
abbrev Duration := ℤ

namespace Time

open Decimal

/-- Nanoseconds in a millisecond. -/
def millisecond : Duration := 1000000

/-- Nanoseconds in a second. -/
def second : Duration := 1000000000

/-- The days from 0001-01-01 to the first of March that starts the computational year
`y`, which runs from March to February so that the leap day comes last. -/
def daysToMarch (y : ℤ) : ℤ := 365 * y + y / 4 - y / 100 + y / 400 - 306

/-- The day of the computational year on which month `m` (March is 0) begins. -/
def monthStart (m : ℤ) : ℤ := (153 * m + 2) / 5

/-- Days from 0001-01-01 to a civil date. -/
def daysOfCivil (year month day : ℤ) : ℤ :=
  let y := if month ≤ 2 then year - 1 else year
  let m := if month ≤ 2 then month + 9 else month - 3
  daysToMarch y + monthStart m + (day - 1)

/-- The civil date of a day count. -/
def civilOfDays (days : ℤ) : ℤ × ℤ × ℤ :=
  let z := days + 306
  let era := z / 146097
  let doe := z % 146097
  let yoe := (doe - doe / 1460 + doe / 36524 - doe / 146096) / 365
  let doy := doe - (365 * yoe + yoe / 4 - yoe / 100)
  let m := (5 * doy + 2) / 153
  let day := doy - monthStart m + 1
  let month := if m < 10 then m + 3 else m - 9
  let year := yoe + era * 400
  (if month ≤ 2 then year + 1 else year, month, day)

/-- The days of a month. -/
def daysIn (year month : ℤ) : ℤ :=
  if month = 2 then
    if year % 4 = 0 ∧ (year % 100 ≠ 0 ∨ year % 400 = 0) then 29 else 28
  else if month = 4 ∨ month = 6 ∨ month = 9 ∨ month = 11 then 30
  else 31

/-- A number of at least `width` digits. -/
def digits (width : ℕ) (n : ℤ) : List Char :=
  (if n < 0 then ['-'] else []) ++ ((decimal n.natAbs).leftpad width zeroDigit).map digitChar

/-- The fraction of a second, without trailing zeros. -/
def fraction (nanos : ℤ) : List Char :=
  if nanos = 0 then []
  else '.' :: ((digits 9 nanos).reverse.dropWhile (· = '0')).reverse

/-- The text of an instant in UTC. -/
def format (t : Time) : String :=
  let date := civilOfDays (t / (86400 * second))
  let s := t / second % 86400
  String.ofList <|
    digits 4 date.1 ++ '-' :: digits 2 date.2.1 ++ '-' :: digits 2 date.2.2 ++
    'T' :: digits 2 (s / 3600) ++ ':' :: digits 2 (s / 60 % 60) ++ ':' :: digits 2 (s % 60) ++
    fraction (t % second) ++ ['Z']

/-- Read a number of exactly `width` digits between `lo` and `hi`. -/
def number? (width : ℕ) (lo hi : ℤ) (cs : List Char) : Option (ℤ × List Char) := do
  let ds ← (cs.take width).mapM digit?
  let v : ℤ := ofDecimal ds
  if ds.length = width ∧ lo ≤ v ∧ v ≤ hi then some (v, cs.drop width) else none

/-- Read one given character. -/
def expect? (c : Char) : List Char → Option (List Char)
  | d :: cs => if d = c then some cs else none
  | [] => none

/-- Read an optional fraction after a period or a comma; digits past the ninth are dropped. -/
def fraction? : List Char → ℤ × List Char
  | [] => (0, [])
  | c :: cs =>
    let (ds, rest) := takeDigits cs
    if (c = '.' ∨ c = ',') ∧ ds ≠ [] then
      (ofDecimal ((ds ++ List.replicate 9 zeroDigit).take 9), rest)
    else (0, c :: cs)

/-- Read the zone: `Z`, or an offset east of UTC in seconds, of up to 24 hours and 60 minutes. -/
def zone? : List Char → Option ℤ
  | ['Z'] => some 0
  | sign :: cs => do
      let (h, cs) ← number? 2 0 24 cs
      let cs ← expect? ':' cs
      let (m, cs) ← number? 2 0 60 cs
      if cs = [] then
        if sign = '+' then some ((h * 60 + m) * 60)
        else if sign = '-' then some (-((h * 60 + m) * 60))
        else none
      else none
  | [] => none

/-- Read an instant.  Only the hour may be of one digit. -/
def parse? (s : String) : Option Time := do
  let (year, cs) ← number? 4 0 9999 s.toList
  let cs ← expect? '-' cs
  let (month, cs) ← number? 2 1 12 cs
  let cs ← expect? '-' cs
  let (day, cs) ← number? 2 1 (daysIn year month) cs
  let cs ← expect? 'T' cs
  let (hour, cs) ← number? (if (cs[1]?.bind digit?).isSome then 2 else 1) 0 23 cs
  let cs ← expect? ':' cs
  let (minute, cs) ← number? 2 0 59 cs
  let cs ← expect? ':' cs
  let (sec, cs) ← number? 2 0 59 cs
  let (nanos, cs) := fraction? cs
  let off ← zone? cs
  some ((daysOfCivil year month day * 86400 + hour * 3600 + minute * 60 + sec - off) * second
    + nanos)

example : format (63900000000 * second + 5000000) = "2025-11-29T08:00:00.005Z" := by
  decide +kernel

example : parse? "2025-11-29T9:30:00,005+01:30" = some (63900000000 * second + 5000000) := by
  decide +kernel

end Time
end AgentBus
