-- SUMMARY: Strings of TOML documents.
import NameRelay.Toml.Scan

/-!
# Strings

A string stands in double quotes, where a backslash begins an escape, or in single quotes, where
nothing is escaped. With three quotes on either side it may go over several lines; a line end right
behind the opening quotes does not belong to it, and up to two quotes may stand in front of the
closing ones. A backslash at the end of a line takes the blanks behind it away.
-/

namespace NameRelay.Toml

/-- The characters of a string, and what is behind it. -/
abbrev Quoted := Option (List Char × List Char)

/-- The result with a character in front. -/
def Quoted.cons (c : Char) (q : Quoted) : Quoted := q.map fun (cs, rest) => (c :: cs, rest)

-- ---------------------------------------------------------------------------
-- Escapes
-- ---------------------------------------------------------------------------

/-- What a letter behind a backslash stands for. -/
def escaped? : Char → Option Char
  | 'b' => some '\x08'
  | 't' => some '\t'
  | 'n' => some '\n'
  | 'f' => some '\x0c'
  | 'r' => some '\r'
  | '"' => some '"'
  | '\\' => some '\\'
  | _ => none

/-- The value of a hexadecimal digit. -/
def hexValue? (c : Char) : Option Nat :=
  if '0' ≤ c ∧ c ≤ '9' then some (c.toNat - 0x30)
  else if 'a' ≤ c ∧ c ≤ 'f' then some (c.toNat - 0x61 + 10)
  else if 'A' ≤ c ∧ c ≤ 'F' then some (c.toNat - 0x41 + 10)
  else none

/-- The number that hexadecimal digits write. -/
def hexNumber? (digits : List Char) : Option Nat :=
  (digits.mapM hexValue?).map fun ds => ds.foldl (fun n d => n * 16 + d) 0

/-- The character with the number that hexadecimal digits write, if there is one. -/
def unicode? (digits : List Char) : Option Char := do
  let n ← hexNumber? digits
  if h : n.isValidChar then some (Char.ofNatAux n h) else none

-- ---------------------------------------------------------------------------
-- Strings of one line
-- ---------------------------------------------------------------------------

/-- The rest of a string in double quotes. -/
def basic : List Char → Quoted
  | '"' :: rest => some ([], rest)
  | '\\' :: 'u' :: a :: b :: c :: d :: rest =>
    (unicode? [a, b, c, d]).bind fun x => Quoted.cons x (basic rest)
  | '\\' :: 'U' :: a :: b :: c :: d :: e :: f :: g :: h :: rest =>
    (unicode? [a, b, c, d, e, f, g, h]).bind fun x => Quoted.cons x (basic rest)
  | '\\' :: e :: rest => (escaped? e).bind fun x => Quoted.cons x (basic rest)
  | c :: rest => if isPlain c then Quoted.cons c (basic rest) else none
  | [] => none

/-- The rest of a string in single quotes. -/
def literal : List Char → Quoted
  | '\'' :: rest => some ([], rest)
  | c :: rest => if isPlain c then Quoted.cons c (literal rest) else none
  | [] => none

-- ---------------------------------------------------------------------------
-- Strings of several lines
-- ---------------------------------------------------------------------------

/-- Whether only spaces stand in front of the next line end. -/
def endsLine (s : List Char) : Bool := (skipSpace s).head? = some '\n'

/-- The rest of a string in three double quotes. -/
def multilineBasic : List Char → Quoted
  | '"' :: '"' :: '"' :: '"' :: '"' :: rest => some (['"', '"'], rest)
  | '"' :: '"' :: '"' :: '"' :: rest => some (['"'], rest)
  | '"' :: '"' :: '"' :: rest => some ([], rest)
  | '\\' :: rest =>
    if endsLine rest then multilineBasic (rest.dropWhile isBlank)
    else
      match rest with
      | 'u' :: a :: b :: c :: d :: rest =>
        (unicode? [a, b, c, d]).bind fun x => Quoted.cons x (multilineBasic rest)
      | 'U' :: a :: b :: c :: d :: e :: f :: g :: h :: rest =>
        (unicode? [a, b, c, d, e, f, g, h]).bind fun x => Quoted.cons x (multilineBasic rest)
      | e :: rest => (escaped? e).bind fun x => Quoted.cons x (multilineBasic rest)
      | [] => none
  | c :: rest => if isPlain c || c = '\n' then Quoted.cons c (multilineBasic rest) else none
  | [] => none
termination_by s => s.length
decreasing_by
  all_goals simp only [List.length_cons]
  all_goals first
    | exact Nat.lt_succ_of_le (List.dropWhile_sublist isBlank).length_le
    | omega

/-- The rest of a string in three single quotes. -/
def multilineLiteral : List Char → Quoted
  | '\'' :: '\'' :: '\'' :: '\'' :: '\'' :: rest => some (['\'', '\''], rest)
  | '\'' :: '\'' :: '\'' :: '\'' :: rest => some (['\''], rest)
  | '\'' :: '\'' :: '\'' :: rest => some ([], rest)
  | c :: rest => if isPlain c || c = '\n' then Quoted.cons c (multilineLiteral rest) else none
  | [] => none

/-- Takes the line end away that a string of several lines may begin with. -/
def skipLineEnd : List Char → List Char
  | '\n' :: rest => rest
  | s => s

-- ---------------------------------------------------------------------------
-- Any string
-- ---------------------------------------------------------------------------

/-- A string of one line, as a key may be one. -/
def quotedKey : Reader String
  | '"' :: rest => (basic rest).map fun (cs, rest) => (String.ofList cs, rest)
  | '\'' :: rest => (literal rest).map fun (cs, rest) => (String.ofList cs, rest)
  | _ => none

/-- A string. -/
def string : Reader String
  | '"' :: '"' :: '"' :: rest =>
    (multilineBasic (skipLineEnd rest)).map fun (cs, rest) => (String.ofList cs, rest)
  | '\'' :: '\'' :: '\'' :: rest =>
    (multilineLiteral (skipLineEnd rest)).map fun (cs, rest) => (String.ofList cs, rest)
  | s => quotedKey s

end NameRelay.Toml
