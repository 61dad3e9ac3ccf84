-- SUMMARY: A name has one route, and a nonce is remembered once.
import Mathlib.Data.List.Nodup
import NameRelay.Proofs.Name.Matching
import NameRelay.Table.Nonces
import NameRelay.Table.Routes

/-!
# Routes and nonces

Setting a route again changes where it leads, and a nonce that was seen is not recorded again. So
neither table holds anything twice. The table of nonces also stays within its capacity.
-/

namespace NameRelay

-- ---------------------------------------------------------------------------
-- Routes
-- ---------------------------------------------------------------------------

namespace RouteTable

variable {t : RouteTable} {name : Name} {destination : Destination}

/-- The names that have a route. -/
def names (t : RouteTable) : List Name := t.routes.map (·.name)

theorem names_replaceFirst (routes : List Route) :
    (insert.replaceFirst name destination routes).map (·.name) = routes.map (·.name) := by
  induction routes with
  | nil => rfl
  | cons first rest ih =>
    unfold insert.replaceFirst
    split
    · rfl
    · rw [List.map_cons, List.map_cons, ih]

theorem any_same_iff : (t.routes.any fun r => r.name.same name) = true ↔ name ∈ t.names := by
  simp [names, Name.same_iff]

/-- Setting a route again does not give its name another one. -/
theorem names_insert (t : RouteTable) (name : Name) (destination : Destination) :
    (t.insert name destination).2.names =
      if name ∈ t.names then t.names else t.names ++ [name] := by
  unfold insert
  simp only [any_same_iff]
  split
  · exact names_replaceFirst t.routes
  · simp [names]

theorem nodup_names_insert (h : t.names.Nodup) : (t.insert name destination).2.names.Nodup := by
  rw [names_insert]
  split
  · exact h
  · rename_i hnew
    refine h.append (List.nodup_singleton name) fun other hold hother => ?_
    rw [List.mem_singleton.1 hother] at hold
    exact hnew hold

theorem nodup_names_remove (h : t.names.Nodup) : (t.remove name).2.names.Nodup :=
  h.sublist (List.filter_sublist.map _)

theorem nodup_names_removeFace (h : t.names.Nodup) (face : FaceKey) :
    (t.removeFace face).2.names.Nodup := h.sublist (List.filter_sublist.map _)

end RouteTable

-- ---------------------------------------------------------------------------
-- Nonces
-- ---------------------------------------------------------------------------

namespace NonceTable

/-- No nonce is remembered twice, and no more of them than there is room for. -/
structure Sound (t : NonceTable) : Prop where
  nodup : t.nonces.Nodup
  bounded : t.size ≤ t.capacity

variable {t : NonceTable}

theorem sound_empty (capacity : Nat) : (empty capacity).Sound := ⟨.nil, Nat.zero_le capacity⟩

theorem capacity_record (t : NonceTable) (suite : Suite) (nonce : Bytes) :
    (t.record suite nonce).2.capacity = t.capacity := by
  unfold record
  split <;> rfl

theorem Sound.record (h : t.Sound) (suite : Suite) (nonce : Bytes) :
    (t.record suite nonce).2.Sound := by
  unfold NonceTable.record
  split
  · exact h
  · rename_i hnew
    have hfresh : (suite, nonce) ∉ t.nonces := by simpa [contains] using hnew
    exact ⟨(List.nodup_cons.2 ⟨hfresh, h.nodup⟩).sublist (List.take_sublist _ _),
      List.length_take_le _ _⟩

end NonceTable

end NameRelay
