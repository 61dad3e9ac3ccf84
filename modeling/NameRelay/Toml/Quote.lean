-- SUMMARY: Writing strings into TOML documents.
import NameRelay.Toml.Text

/-!
# Writing strings

A string is written in the first of several forms that shows it as it is: in double quotes, if
nothing in it needs an escape; in single quotes; over several lines in three double quotes; in three
single quotes. If none does, it has escapes, over several lines if it has line ends.
-/

namespace NameRelay.Toml

/-- The length of the longest run of a character. -/
def longestRun (c : Char) (s : List Char) : Nat :=
  (s.foldl (fun (run : Nat × Nat) d =>
    let current := if d = c then run.1 + 1 else 0
    (current, max run.2 current)) (0, 0)).2

/-- Whether a character can only be written as an escape. A tab or a line end need not be. -/
def needsEscape (c : Char) : Bool := !isPlain c && c ≠ '\n'

/-- A control character by its number. -/
def escapeNumber (c : Char) : List Char :=
  let digits := (Nat.toDigits 16 c.toNat).map Char.toUpper
  ['\\', 'u'] ++ List.replicate (4 - digits.length) '0' ++ digits

/-- The escape of a character that has one. -/
def escape (c : Char) : List Char :=
  if c = '\x08' then ['\\', 'b']
  else if c = '\t' then ['\\', 't']
  else if c = '\n' then ['\\', 'n']
  else if c = '\x0c' then ['\\', 'f']
  else if c = '\r' then ['\\', 'r']
  else if c = '"' then ['\\', '"']
  else if c = '\\' then ['\\', '\\']
  else if needsEscape c then escapeNumber c
  else [c]

/-- The inside of a string in double quotes, of one line or of several. In one of several lines, line
    ends and up to two quotes in a row stand for themselves; `run` is how many were just
    written. -/
def escapeAll (isMultiline : Bool) (run : Nat) : List Char → List Char
  | [] => []
  | c :: rest =>
    if isMultiline ∧ c = '\n' then c :: escapeAll isMultiline 0 rest
    else if isMultiline ∧ c = '"' ∧ run < 2 then c :: escapeAll isMultiline (run + 1) rest
    else escape c ++ escapeAll isMultiline 0 rest

/-- The ways to write a string. -/
inductive StringForm where
  | basic
  | literal
  | multilineBasic
  | multilineLiteral
  deriving DecidableEq, Repr

/-- The form in which a string is written. -/
def StringForm.of (s : List Char) : StringForm :=
  let escapes := s.any needsEscape
  let backslashes := s.contains '\\'
  let lineEnds := s.contains '\n'
  let quotes := longestRun '"' s
  let apostrophes := longestRun '\'' s
  if !escapes && !backslashes && quotes = 0 && !lineEnds then basic
  else if !escapes && apostrophes = 0 && !lineEnds then literal
  else if !escapes && !backslashes && quotes ≤ 2 then multilineBasic
  else if !escapes && apostrophes ≤ 2 then multilineLiteral
  else if lineEnds then multilineBasic
  else basic

/-- A string in quotes. -/
def quote (text : String) : String :=
  let s := text.toList
  let opening := if s.contains '\n' then ['\n'] else []
  String.ofList <|
    match StringForm.of s with
    | .basic => ['"'] ++ escapeAll false 0 s ++ ['"']
    | .literal => ['\''] ++ s ++ ['\'']
    | .multilineBasic => ['"', '"', '"'] ++ opening ++ escapeAll true 0 s ++ ['"', '"', '"']
    | .multilineLiteral => ['\'', '\'', '\''] ++ opening ++ s ++ ['\'', '\'', '\'']

end NameRelay.Toml
