-- SUMMARY: Comparing names, and deciding whether content answers an interest.
import NameRelay.Name.Basic

/-!
# Matching names

Two names match component by component from the front. A content name has one component more than
it shows: the digest of its packet, which an interest can ask for by name. An interest also limits
how many components the content name may have beyond its own.
-/

namespace NameRelay

/-- How two names are compared. -/
inductive MatchMode where
  /-- Same components, chunk number and flags. -/
  | exact
  /-- Leading components in common, to admit content. -/
  | leading
  /-- Leading components in common, to look up a route. -/
  | longest
  deriving DecidableEq, Repr

/-- Walks along two lists of components while they agree and counts the components that it passes.
    At the first difference an exact match fails; the other modes stop there with their count. -/
def MatchMode.walk (mode : MatchMode) (passed : Nat) : List Bytes → List Bytes → Option Nat
  | a :: as, b :: bs =>
    if a = b then mode.walk (passed + 1) as bs
    else if mode = .exact then none
    else some passed
  | _, _ => some passed

namespace Name

/-- The components with the digest, if there is one, as the last. -/
def implicitComponents (name : Name) (digest : Option Bytes) : List Bytes :=
  name.components ++ digest.toList

/-- Compares `name`, with a digest as its last component if one is given, to `other`. The answer is
    the number of leading components they share, and none if they do not match: names of different
    suites never do, and an exact match needs equal components, chunk numbers and flags. -/
def compare (mode : MatchMode) (name : Name) (digest : Option Bytes) (other : Name) : Option Nat :=
  let ours := name.implicitComponents digest
  if name.suite ≠ other.suite then none
  else if mode = .exact ∧
      (ours.length ≠ other.size ∨ name.flags ≠ other.flags ∨ name.chunk ≠ other.chunk) then
    none
  else
    mode.walk 0 ours other.components

/-- Whether two names are the same. -/
def same (a b : Name) : Bool := (compare .exact a none b).isSome

/-- Whether an interest for `wanted` names the digest of content called `content`. -/
def needsDigest (wanted content : Name) : Bool := wanted.size == content.size + 1

/-- Whether content called `content` answers an interest for `wanted` that allows from `minSuffix`
    to `maxSuffix` components more. The digest counts as a component of the content; it is looked
    at only if the interest names it, and then it has to be given. -/
def admits (wanted : Name) (minSuffix maxSuffix : Nat) (content : Name) (digest : Option Bytes) :
    Bool :=
  let full := content.size + 1
  if saturatingAdd wanted.size minSuffix > full ∨ saturatingAdd wanted.size maxSuffix < full then
    false
  else if wanted.needsDigest content then
    digest.isSome && compare .leading content digest wanted == some wanted.size
  else
    compare .leading content none wanted == some wanted.size

end Name

end NameRelay
