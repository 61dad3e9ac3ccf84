-- SUMMARY: Numbers, dates and times of TOML documents.
import NameRelay.Toml.Text
import NameRelay.Toml.Value

/-!
# Numbers and moments

Digits may have single underscores between them. An integer is decimal, or it has a mark for its
base in front; decimal ones have no leading zeros. Integers have 64 bits with a sign. A number with
a fraction or an exponent must not be larger than every finite binary number of 64 bits. Dates have
to be on the calendar, and a minute may have a leap second.
-/

namespace NameRelay.Toml

-- ---------------------------------------------------------------------------
-- Digits
-- ---------------------------------------------------------------------------

/-- The digits that go on a number. -/
def moreDigits (isDigit : Char → Bool) : Reader (List Char)
  | '_' :: c :: rest =>
    if isDigit c then (moreDigits isDigit rest).map fun (ds, rest) => (c :: ds, rest) else none
  | ['_'] => none
  | c :: rest =>
    if isDigit c then (moreDigits isDigit rest).map fun (ds, rest) => (c :: ds, rest)
    else some ([], c :: rest)
  | [] => some ([], [])

/-- One digit and those that go on. -/
def digits (isDigit : Char → Bool) : Reader (List Char)
  | c :: rest =>
    if isDigit c then (moreDigits isDigit rest).map fun (ds, rest) => (c :: ds, rest) else none
  | [] => none

/-- The digits of a decimal number, zero alone or without a zero in front. -/
def wholeDigits : Reader (List Char)
  | '0' :: rest => some (['0'], rest)
  | s => digits Char.isDigit s

/-- Whether there is a minus in front, and what is behind the sign. -/
def sign : List Char → Bool × List Char
  | '-' :: rest => (true, rest)
  | '+' :: rest => (false, rest)
  | s => (false, s)

/-- The number that digits of a base write. -/
def numberOf (base : Nat) (ds : List Char) : Nat :=
  ds.foldl (fun n c => n * base + (hexValue? c).getD 0) 0

-- ---------------------------------------------------------------------------
-- Integers
-- ---------------------------------------------------------------------------

def minInteger : Int := -0x8000000000000000
def maxInteger : Int := 0x7fffffffffffffff

/-- An integer that is in range. -/
def integerOf (n : Int) : Option Value :=
  if minInteger ≤ n ∧ n ≤ maxInteger then some (.integer n) else none

/-- The digits of an integer with a mark for its base. -/
def based (base : Nat) (isDigit : Char → Bool) : Reader Value := fun s => do
  let (ds, rest) ← digits isDigit s
  return (← integerOf (numberOf base ds), rest)

def integer : Reader Value
  | '0' :: 'x' :: rest => based 16 (fun c => (hexValue? c).isSome) rest
  | '0' :: 'o' :: rest => based 8 (fun c => '0' ≤ c && c ≤ '7') rest
  | '0' :: 'b' :: rest => based 2 (fun c => c = '0' || c = '1') rest
  | s => do
    let (isNegative, s) := sign s
    let (ds, rest) ← wholeDigits s
    let n := numberOf 10 ds
    return (← integerOf (if isNegative then -n else n), rest)

-- ---------------------------------------------------------------------------
-- Numbers with a fraction or an exponent
-- ---------------------------------------------------------------------------

/-- The numbers from here on are nearer to infinity than to any finite binary number of 64 bits. -/
def floatLimit : Nat := Nat.pow 2 1024 - Nat.pow 2 970

/-- A power of ten that is larger than the limit. -/
def decimalLimit : Nat := 400

/-- Whether `mantissa * 10 ^ exponent` is below the limit. -/
def isFinite (mantissa : Nat) (exponent : Int) : Bool :=
  mantissa = 0 ||
    match exponent with
    | .ofNat e => e < decimalLimit && mantissa * Nat.pow 10 e < floatLimit
    | .negSucc e =>
      decimalLimit + (Nat.toDigits 10 mantissa).length < e ||
        mantissa < floatLimit * Nat.pow 10 (e + 1)

/-- A fraction behind its point; none of it if there is no point. -/
def fraction : Reader (Option (List Char))
  | '.' :: rest => (digits Char.isDigit rest).map fun (ds, rest) => (some ds, rest)
  | s => some (none, s)

/-- An exponent behind its mark; none of it if there is no mark. -/
def exponent : Reader (Option Int)
  | 'e' :: rest | 'E' :: rest => do
    let (isNegative, s) := sign rest
    let (ds, rest) ← digits Char.isDigit s
    let n := numberOf 10 ds
    return (some (if isNegative then -n else n), rest)
  | s => some (none, s)

/-- A number with a fraction or an exponent, or one of the words for what is no finite number. -/
def float : Reader Value := fun s =>
  let (isNegative, s) := sign s
  match s with
  | 'i' :: 'n' :: 'f' :: rest | 'n' :: 'a' :: 'n' :: rest => some (.float, rest)
  | s => do
    let (whole, s) ← wholeDigits s
    let (places, s) ← fraction s
    let (power, rest) ← exponent s
    if places.isNone ∧ power.isNone then none
    else
      let mantissa := numberOf 10 (whole ++ places.getD [])
      if isNegative || isFinite mantissa (power.getD 0 - (places.getD []).length) then
        some (.float, rest)
      else none

-- ---------------------------------------------------------------------------
-- Dates and times
-- ---------------------------------------------------------------------------

/-- Exactly `n` digits. -/
def fixedDigits (n : Nat) : Reader Nat := fun s =>
  let ds := s.take n
  if ds.length = n ∧ ds.all Char.isDigit then some (numberOf 10 ds, s.drop n) else none

/-- Two digits whose number is in a range. -/
def twoDigits (low high : Nat) : Reader Nat := fun s => do
  let (n, rest) ← fixedDigits 2 s
  if low ≤ n ∧ n ≤ high then some (n, rest) else none

/-- What is behind a character. -/
def behind (c : Char) : List Char → Option (List Char)
  | d :: rest => if d = c then some rest else none
  | [] => none

def isLeapYear (year : Nat) : Bool := year % 4 = 0 && (year % 100 ≠ 0 || year % 400 = 0)

def daysInMonth (year month : Nat) : Nat :=
  if month = 2 then (if isLeapYear year then 29 else 28)
  else if month = 4 ∨ month = 6 ∨ month = 9 ∨ month = 11 then 30
  else 31

/-- What is behind a date. -/
def date (s : List Char) : Option (List Char) := do
  let (year, s) ← fixedDigits 4 s
  let (month, s) ← twoDigits 1 12 (← behind '-' s)
  let (_, rest) ← twoDigits 1 (daysInMonth year month) (← behind '-' s)
  return rest

/-- What is behind a fraction of a second, if there is one. -/
def skipSecondFraction : List Char → List Char
  | '.' :: c :: rest => if c.isDigit then rest.dropWhile Char.isDigit else '.' :: c :: rest
  | s => s

/-- What is behind a time of day. -/
def time (s : List Char) : Option (List Char) := do
  let (_, s) ← twoDigits 0 23 s
  let (_, s) ← twoDigits 0 59 (← behind ':' s)
  let (_, s) ← twoDigits 0 60 (← behind ':' s)
  return skipSecondFraction s

/-- What is behind hours and minutes of an offset. -/
def offset (s : List Char) : Option (List Char) := do
  let (_, s) ← twoDigits 0 23 s
  let (_, s) ← twoDigits 0 59 (← behind ':' s)
  return s

/-- What is behind the offset of a time, if there is one. -/
def skipOffset : List Char → List Char
  | 'Z' :: rest | 'z' :: rest => rest
  | '+' :: rest => (offset rest).getD ('+' :: rest)
  | '-' :: rest => (offset rest).getD ('-' :: rest)
  | s => s

/-- What is behind the time that may follow a date. -/
def skipTime : List Char → List Char
  | c :: rest =>
    if c = 'T' ∨ c = 't' ∨ c = ' ' then
      match time rest with
      | some rest => skipOffset rest
      | none => c :: rest
    else c :: rest
  | [] => []

/-- A date, a time or both. -/
def moment : Reader Value := fun s =>
  match date s with
  | some rest => some (.moment, skipTime rest)
  | none => (time s).map fun rest => (.moment, rest)

/-- Any of them. What can be read as several is the first of them that it can be read as. -/
def number : Reader Value := fun s =>
  (moment s).or ((float s).or (integer s))

end NameRelay.Toml
