-- SUMMARY: The nonces of recent interests, so that an interest is not handled twice.
import NameRelay.Bytes
import NameRelay.Suite

/-!
# Recent nonces

The newest nonce stands first. A nonce belongs to the suite it came with. When the table is full,
the oldest nonce makes room; a table without room records nothing.
-/

namespace NameRelay

structure NonceTable where
  nonces : List (Suite × Bytes)
  capacity : Nat
  deriving DecidableEq, Repr

namespace NonceTable

/-- How many nonces are remembered if nothing else is said. -/
def defaultCapacity : Nat := 256

def empty (capacity : Nat) : NonceTable := ⟨[], capacity⟩

def size (t : NonceTable) : Nat := t.nonces.length

def contains (t : NonceTable) (suite : Suite) (nonce : Bytes) : Bool :=
  t.nonces.contains (suite, nonce)

/-- Records a nonce; the flag says that it was there already. -/
def record (t : NonceTable) (suite : Suite) (nonce : Bytes) : Bool × NonceTable :=
  if t.contains suite nonce then (true, t)
  else (false, { t with nonces := ((suite, nonce) :: t.nonces).take t.capacity })

end NonceTable

end NameRelay
