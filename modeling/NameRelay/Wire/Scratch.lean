-- SUMMARY: How much room a packet needs while it is written.
import NameRelay.Name.Basic
import NameRelay.Wire.FrontBuffer

/-!
# Scratch room

The room for a packet is taken before its first byte is written: the payload, ten bytes more than
each component for its heads, and a flat allowance for everything else.
-/

namespace NameRelay.Write

/-- Room for headers, markers, selectors and options. -/
def flatAllowance : Nat := 128

/-- Room for the heads of one component. -/
def componentAllowance : Nat := 10

/-- Enough room for a packet with this name and so many bytes of payload. -/
def roomFor (name : Name) (payload : Nat) : Nat :=
  payload + flatAllowance +
    name.components.foldr (fun wire room => wire.length + componentAllowance + room) 0

/-- Writes a packet with this name and so many bytes of payload. -/
def packet (name : Name) (payload : Nat) (action : Write Unit) : Except EncodeError Bytes :=
  action.toBytes (roomFor name payload)

/-- Writes the components of a name, the last first, each with `component`. -/
def components (name : Name) (component : Bytes → Write Unit) : Write Unit :=
  name.wireComponents.reverse.forM component

/-- Writes a value that may be missing. -/
def optional {α : Type} (value : Option α) (write : α → Write Unit) : Write Unit :=
  match value with
  | some v => write v
  | none => pure ()

end NameRelay.Write
