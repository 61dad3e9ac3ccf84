-- SUMMARY: Blanks, comments and line ends of TOML documents.

/-!
# Between the values

A text is read as a list of characters. A reader returns what it read and the characters behind it,
or nothing if the text has no such thing there. Spaces are blanks and tabs; a comment goes on to the
end of its line and holds no control characters.
-/

namespace NameRelay.Toml

/-- A reader of an `α` at the front of a text. -/
abbrev Reader (α : Type) := List Char → Option (α × List Char)

/-- Writes each line end as a single character. A carriage return that ends no line stays, and is
    allowed nowhere. -/
def unifyLineEnds : List Char → List Char
  | '\r' :: '\n' :: rest => '\n' :: unifyLineEnds rest
  | c :: rest => c :: unifyLineEnds rest
  | [] => []

def isSpace (c : Char) : Bool := c = ' ' || c = '\t'

/-- Spaces and line ends. -/
def isBlank (c : Char) : Bool := isSpace c || c = '\n'

/-- What may stand in comments, and unescaped in quotes: tabs, and all that is no control
    character. -/
def isPlain (c : Char) : Bool := c = '\t' || (0x20 ≤ c.toNat && c.toNat ≠ 0x7f)

def skipSpace (s : List Char) : List Char := s.dropWhile isSpace

/-- What is behind the rest of a line, if there is nothing else on it than spaces and a comment. -/
def lineEnd (s : List Char) : Option (List Char) :=
  let behind := match skipSpace s with
    | '#' :: rest => rest.dropWhile isPlain
    | s => s
  match behind with
  | [] => some []
  | '\n' :: rest => some rest
  | _ => none

/-- Skips blanks and comments, as they may stand between the items of an array. -/
def skipFill (s : List Char) : List Char :=
  match _h : s.dropWhile isBlank with
  | '#' :: comment =>
    match _h' : comment.dropWhile isPlain with
    | '\n' :: rest => skipFill rest
    | s => s
  | s => s
termination_by s.length
decreasing_by
  have h₁ : (s.dropWhile isBlank).length ≤ s.length := (List.dropWhile_sublist isBlank).length_le
  have h₂ : (comment.dropWhile isPlain).length ≤ comment.length :=
    (List.dropWhile_sublist isPlain).length_le
  rw [_h] at h₁
  rw [_h'] at h₂
  simp only [List.length_cons] at h₁ h₂
  omega

end NameRelay.Toml
