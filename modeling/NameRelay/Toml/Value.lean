-- SUMMARY: TOML documents: values, tables, and which of them may still be extended.

/-!
# TOML values

A document is a table of named values. Tables come from headers, from dotted keys, or stand in
braces as values. A table may be opened in several places, but each entry is set once, and the way
in which a table came to be decides what may still be put into it:

* A table with a header of its own has no second one, and no dotted key leads into it.
* A table that only exists because one inside it has a header may still get its own.
* A table made by dotted keys gets no header, and takes further dotted keys.
* A table in braces is complete.
-/

namespace NameRelay.Toml

/-- How a table came to be. -/
inductive Origin where
  /-- By a header of its own. -/
  | header
  /-- By the header of a table inside it. -/
  | implied
  /-- By a dotted key. -/
  | dotted
  /-- As a value in braces. -/
  | braces
  deriving DecidableEq, Repr

/-- A value. -/
inductive Value where
  | string (text : String)
  | integer (n : Int)
  /-- A number with a fraction or an exponent. No setting is one, so it is not kept. -/
  | float
  | boolean (b : Bool)
  /-- A date, a time of day or both. No setting is one, so it is not kept. -/
  | moment
  | array (items : List Value)
  | table (origin : Origin) (entries : List (String × Value))
  /-- Tables of one name, each with a header in double brackets. -/
  | tables (elements : List (List (String × Value)))

/-- What a table holds, in the order in which it was set. -/
abbrev Entries := List (String × Value)

namespace Entries

/-- Gives a key that is there another value. -/
def replace (entries : Entries) (key : String) (v : Value) : Entries :=
  entries.map fun e => if e.1 = key then (key, v) else e

/-- Adds an entry at the end. -/
def add (entries : Entries) (key : String) (v : Value) : Entries := entries ++ [(key, v)]

/-- Changes the table at the end of a path, which begins at a table of a certain origin. Tables on
    the way that are not there are made. The path is that of a dotted key or of a header. -/
def change (isDotted : Bool) (f : Origin → Entries → Option Entries) :
    Origin → List String → Entries → Option Entries
  | origin, [], entries => f origin entries
  | _, key :: path, entries =>
    match entries.lookup key with
    | none => do
      let made := if isDotted then Origin.dotted else .implied
      let inner ← change isDotted f made path []
      return entries.add key (.table made inner)
    | some (.table origin inner) =>
      if origin = .braces ∨ (isDotted ∧ origin = .header) then none
      else do
        let inner ← change isDotted f origin path inner
        return entries.replace key (.table origin inner)
    | some (.tables elements) =>
      match elements.getLast? with
      | none => none
      | some last => do
        let last ← change isDotted f .header path last
        return entries.replace key (.tables (elements.dropLast ++ [last]))
    | some _ => none

/-- Sets what a dotted key names. A key of several parts leads only to tables that dotted keys
    made. -/
def set (entries : Entries) (path : List String) (v : Value) : Option Entries := do
  let key ← path.getLast?
  let parents := path.dropLast
  let put (origin : Origin) (entries : Entries) : Option Entries :=
    if parents ≠ [] ∧ origin ≠ .dotted then none
    else if (entries.lookup key).isSome then none
    else some (entries.add key v)
  change true put .header parents entries

/-- Opens the table that a header names. -/
def openTable (entries : Entries) (path : List String) : Option Entries := do
  let key ← path.getLast?
  let place (_ : Origin) (entries : Entries) : Option Entries :=
    match entries.lookup key with
    | none => some (entries.add key (.table .header []))
    | some (.table .implied inner) => some (entries.replace key (.table .header inner))
    | some _ => none
  change false place .header path.dropLast entries

/-- Opens another table of the name that a header in double brackets gives. -/
def openElement (entries : Entries) (path : List String) : Option Entries := do
  let key ← path.getLast?
  let place (_ : Origin) (entries : Entries) : Option Entries :=
    match entries.lookup key with
    | none => some (entries.add key (.tables [[]]))
    | some (.tables elements) => some (entries.replace key (.tables (elements ++ [[]])))
    | some _ => none
  change false place .header path.dropLast entries

/-- Sets what a dotted key names in the table that was opened last. -/
def setIn (entries : Entries) (table path : List String) (v : Value) : Option Entries :=
  change false (fun _ inner => inner.set path v) .header table entries

end Entries

end NameRelay.Toml
