-- SUMMARY: Reading and writing TOML documents.
import NameRelay.Toml.Number
import NameRelay.Toml.Quote

/-!
# TOML documents

A document has a header, an entry or nothing on each line. Reading first takes the lines apart
(`lines`) and then puts the tables together (`Entries.ofLines`), so each step says on its own what it
refuses. Keys have less than eighty parts, and values are nested less than eighty deep.
-/

namespace NameRelay.Toml

-- ---------------------------------------------------------------------------
-- Keys
-- ---------------------------------------------------------------------------

/-- The most parts of a key, and the most arrays and tables in braces around a value. -/
def maxDepth : Nat := 79

/-- What may stand in a key without quotes. -/
def isBareKey (c : Char) : Bool :=
  ('a' ≤ c && c ≤ 'z') || ('A' ≤ c && c ≤ 'Z') || ('0' ≤ c && c ≤ '9') || c = '-' || c = '_'

/-- One part of a key. -/
def keyPart : Reader String := fun s =>
  match quotedKey s with
  | some part => some part
  | none =>
    let bare := s.takeWhile isBareKey
    if bare = [] then none else some (String.ofList bare, s.dropWhile isBareKey)

/-- At most so many parts of a key with points between them, and the spaces around them. -/
def keyParts : Nat → Reader (List String)
  | 0, _ => none
  | n + 1, s => do
    let (part, s) ← keyPart (skipSpace s)
    match skipSpace s with
    | '.' :: rest => (keyParts n rest).map fun (parts, rest) => (part :: parts, rest)
    | rest => some ([part], rest)

def key : Reader (List String) := keyParts maxDepth

-- ---------------------------------------------------------------------------
-- Values
-- ---------------------------------------------------------------------------

/-- A key and its value, as `value` reads it. -/
def pair (value : Reader Value) : Reader (List String × Value) := fun s => do
  let (path, s) ← key s
  let (v, rest) ← value (skipSpace (← behind '=' s))
  return ((path, v), rest)

/-- A value that holds no others. -/
def scalar : Reader Value
  | 't' :: 'r' :: 'u' :: 'e' :: rest => some (.boolean true, rest)
  | 'f' :: 'a' :: 'l' :: 's' :: 'e' :: rest => some (.boolean false, rest)
  | s =>
    match string s with
    | some (text, rest) => some (.string text, rest)
    | none => number s

/-- The rest of an array of at most so many items. A comma may follow the last. -/
def arrayItems (value : Reader Value) : Nat → Reader (List Value)
  | 0, _ => none
  | n + 1, s =>
    match skipFill s with
    | ']' :: rest => some ([], rest)
    | s => do
      let (v, s) ← value s
      match skipFill s with
      | ',' :: rest => (arrayItems value n rest).map fun (vs, rest) => (v :: vs, rest)
      | ']' :: rest => some ([v], rest)
      | _ => none

/-- The rest of a table in braces with at least one and at most so many entries. -/
def bracePairs (value : Reader Value) : Nat → Reader (List (List String × Value))
  | 0, _ => none
  | n + 1, s => do
    let (p, s) ← pair value s
    match skipSpace s with
    | ',' :: rest => (bracePairs value n rest).map fun (ps, rest) => (p :: ps, rest)
    | '\x7d' :: rest => some ([p], rest)
    | _ => none

/-- The table of some pairs. -/
def braceTable (pairs : List (List String × Value)) : Option Value := do
  let entries ← pairs.foldlM (fun (entries : Entries) p => entries.set p.1 p.2) []
  return .table .braces entries

/-- A value with at most so many arrays and tables around each other. -/
def value : Nat → Reader Value
  | 0, s => scalar s
  | depth + 1, '[' :: rest =>
    (arrayItems (value depth) (rest.length + 1) rest).map fun (vs, rest) => (.array vs, rest)
  | depth + 1, '\x7b' :: rest => do
    let (pairs, rest) ← match skipSpace rest with
      | '\x7d' :: rest => some ([], rest)
      | s => bracePairs (value depth) s.length s
    return (← braceTable pairs, rest)
  | _ + 1, s => scalar s

-- ---------------------------------------------------------------------------
-- Lines
-- ---------------------------------------------------------------------------

/-- A line that says something. -/
inductive Line where
  | table (path : List String)
  | element (path : List String)
  | entry (path : List String) (v : Value)

/-- A line that says something, together with its end. -/
def line : Reader Line
  | '[' :: '[' :: rest => do
    let (path, s) ← key rest
    return (.element path, ← lineEnd (← behind ']' (← behind ']' s)))
  | '[' :: rest => do
    let (path, s) ← key rest
    return (.table path, ← lineEnd (← behind ']' s))
  | s => do
    let ((path, v), s) ← pair (value maxDepth) s
    return (.entry path v, ← lineEnd s)

/-- The lines of a text that says something on at most so many. -/
def lines : Nat → List Char → Option (List Line)
  | 0, _ => none
  | n + 1, s =>
    match skipSpace s with
    | [] => some []
    | '\n' :: rest => lines n rest
    | '#' :: rest => (lineEnd ('#' :: rest)).bind (lines n)
    | s => do
      let (l, rest) ← line s
      return l :: (← lines n rest)

-- ---------------------------------------------------------------------------
-- Tables
-- ---------------------------------------------------------------------------

/-- Puts lines into a document whose last header was `current`. -/
def Entries.extend : List String → Entries → List Line → Option Entries
  | _, entries, [] => some entries
  | _, entries, .table path :: rest => do extend path (← entries.openTable path) rest
  | _, entries, .element path :: rest => do extend path (← entries.openElement path) rest
  | current, entries, .entry path v :: rest => do
    extend current (← entries.setIn current path v) rest

def Entries.ofLines (ls : List Line) : Option Entries := Entries.extend [] [] ls

/-- Takes away the mark that a text may begin with. -/
def skipMark : List Char → List Char
  | '\ufeff' :: rest => rest
  | s => s

/-- Reads a document. -/
def read? (text : String) : Option Entries := do
  let s := unifyLineEnds (skipMark text.toList)
  Entries.ofLines (← lines (s.length + 1) s)

-- ---------------------------------------------------------------------------
-- Writing
-- ---------------------------------------------------------------------------

/-- The text of a value that stands on the line of its key. -/
def Value.text? : Value → Option String
  | string text => some (quote text)
  | integer n => if minInteger ≤ n ∧ n ≤ maxInteger then some (toString n) else none
  | boolean b => some (if b then "true" else "false")
  | array [] => some "[]"
  | _ => none

/-- The line of an entry. -/
def entryText? (e : String × Value) : Option String :=
  e.2.text?.map fun text => e.1 ++ " = " ++ text ++ "\n"

/-- The lines of a table. -/
def entriesText? (entries : Entries) : Option String := (entries.mapM entryText?).map String.join

/-- Whether an entry is written behind all others, under headers. -/
def hasHeaders (e : String × Value) : Bool :=
  match e.2 with
  | .tables _ => true
  | _ => false

/-- The tables of one name, each behind an empty line and its header. -/
def tablesText? (e : String × Value) : Option String :=
  match e.2 with
  | .tables elements => do
    let texts ← elements.mapM entriesText?
    return String.join (texts.map fun text => "\n[[" ++ e.1 ++ "]]\n" ++ text)
  | _ => some ""

/-- Writes a document. The entries that have headers come last, so that no other entry gets into
    their tables. -/
def write? (entries : Entries) : Option String := do
  let plain ← entriesText? (entries.filter fun e => !hasHeaders e)
  let tables ← (entries.filter hasHeaders).mapM tablesText?
  return plain ++ String.join tables

end NameRelay.Toml
