-- SUMMARY: Serving a content looks neither at the flags of faces nor at pending interests.
import NameRelay.Proofs.Relay.Unnoticed

/-!
# Serving does not look at flags

A round of deliveries marks faces and drops interests in between, so each face is served in a relay
that is not quite the one the round began with. Serving does not notice: it reads neither the flags
of faces nor the pending interests. `Relay.recast` replaces both.
-/

namespace NameRelay

namespace Relay

/-- The relay with other flags at its faces and with other pending interests. -/
def recast (g : FaceFlags → FaceFlags) (p : PendingTable) (r : Relay) : Relay :=
  { r with faces := r.faces.mapEntries (Face.recast g), pending := p }

theorem unnoticed_recast (g : FaceFlags → FaceFlags) (p : PendingTable) :
    Unnoticed g (fun _ i => i) (recast g p) where
  queue _ _ := rfl
  setQueue _ _ _ := rfl
  faces _ := rfl
  setFaces _ _ := rfl
  interfaces r := (Unnoticed.mapIdx_id r.interfaces).symm
  setInterfaces r interfaces := by
    rw [Unnoticed.mapIdx_id]
    rfl
  emit _ _ := rfl
  note _ _ := rfl
  setTimer _ _ _ := rfl

/-- Serving a content comes to the same whatever the flags and the pending interests are. -/
theorem serve_recast (g : FaceFlags → FaceFlags) (p : PendingTable) (r : Relay) (key : FaceKey)
    (content : Packet) : (r.recast g p).serve key content =
      ((r.serve key content).1, (r.serve key content).2.recast g p) :=
  (unnoticed_recast g p).serve r key content

end Relay

end NameRelay
