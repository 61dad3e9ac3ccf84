-- SUMMARY: A table of routes is a map in the order in which its names were set, and finds the longest route.
import Mathlib.Data.List.MinMax
import NameRelay.Proofs.Table.Unique

/-!
# What a table of routes holds

What was done to a table tells where each name leads, and since when. The table holds these routes and
no others, and they stand in the order in which their names got them: a name that is set again keeps
its place, and one that was removed in between comes last.

Whether a route is set again and whether it covers a name are different questions. The first asks for
the same name in everything, the second only for components that lead it. So several routes may cover
a name with equally many components, and of those the one that was there first is taken.
-/

namespace NameRelay

/-- The components of the route lead those of the name, in the same suite. -/
theorem Route.covers_iff (r : Route) (name : Name) :
    r.covers name = true ↔ r.name.suite = name.suite ∧ r.name.components <+: name.components := by
  have hmode : MatchMode.longest ≠ .exact := by decide
  rw [covers, beq_iff_eq]
  by_cases hsuite : name.suite = r.name.suite
  · rw [Name.compare_eq_size_iff hmode hsuite, Name.implicitComponents, Option.toList_none,
      List.append_nil, and_iff_right hsuite.symm]
  · rw [Name.compare_of_suite_ne hsuite]
    exact iff_of_false (Option.some_ne_none _).symm fun h => hsuite h.1.symm

namespace RouteTable

variable {t : RouteTable} {name : Name} {destination : Destination}

/-! ## Histories -/

/-- What can be done to a table of routes. -/
inductive Change where
  | insert (name : Name) (destination : Destination)
  | remove (name : Name)
  | removeFace (face : FaceKey)

def change (t : RouteTable) : Change → RouteTable
  | .insert name destination => (t.insert name destination).2
  | .remove name => (t.remove name).2
  | .removeFace face => (t.removeFace face).2

/-- The table after a history of changes, the last of which stands first. -/
def after : List Change → RouteTable
  | [] => empty
  | c :: earlier => (after earlier).change c

/-- Where a name leads after a history. -/
def destination? (name : Name) : List Change → Option Destination
  | [] => none
  | .insert other destination :: earlier =>
    if other = name then some destination else destination? name earlier
  | .remove other :: earlier => if other = name then none else destination? name earlier
  | .removeFace face :: earlier => (destination? name earlier).filter (· ≠ .face face)

/-- How many changes there had been when the name got the route that it has after a history. -/
def since (name : Name) : List Change → Nat
  | [] => 0
  | _ :: earlier => if destination? name earlier = none then earlier.length else since name earlier

theorem since_lt_length {history : List Change} (h : destination? name history ≠ none) :
    since name history < history.length := by
  induction history with
  | nil => exact absurd rfl h
  | cons c earlier ih =>
    rw [since, List.length_cons]
    split
    · exact Nat.lt_succ_self _
    · rename_i hthere
      exact Nat.lt_succ_of_lt (ih hthere)

/-- The table holds the routes of which the history tells, in the order in which their names got
    them. -/
structure Tells (history : List Change) (t : RouteTable) : Prop where
  mem_iff : ∀ r, r ∈ t.routes ↔ destination? r.name history = some r.destination
  order : t.names.Pairwise fun m n => since m history < since n history

/-! ## What a change does -/

theorem insert_fst (t : RouteTable) (name : Name) (destination : Destination) :
    (t.insert name destination).1 = decide (name ∈ t.names) := by
  rw [insert]
  split
  · rename_i hthere
    exact (decide_eq_true (any_same_iff.1 hthere)).symm
  · rename_i hnew
    exact (decide_eq_false fun hthere => hnew (any_same_iff.2 hthere)).symm

/-- As a name has one route, the first with the name is the only one. -/
theorem replaceFirst_eq_map {routes : List Route} (h : (routes.map (·.name)).Nodup) (name : Name)
    (destination : Destination) : insert.replaceFirst name destination routes =
      routes.map fun r => if r.name = name then { r with destination } else r := by
  induction routes with
  | nil => rfl
  | cons first rest ih =>
    obtain ⟨hfirst, hrest⟩ := List.nodup_cons.1 h
    rw [insert.replaceFirst, List.map_cons]
    by_cases hsame : first.name = name
    · have hothers : ∀ r ∈ rest, ¬r.name = name := fun r hr heq =>
        hfirst (List.mem_map.2 ⟨r, hr, heq.trans hsame.symm⟩)
      rw [if_pos (Name.same_iff.2 hsame), if_pos hsame,
        List.map_congr_left fun r hr => if_neg (hothers r hr), List.map_id']
    · rw [if_neg fun heq => hsame (Name.same_iff.1 heq), if_neg hsame, ih hrest]

/-- Setting a route again changes where it leads and nothing else, and a new one comes last. -/
theorem routes_insert (h : t.names.Nodup) (name : Name) (destination : Destination) :
    (t.insert name destination).2.routes =
      if name ∈ t.names then
        t.routes.map fun r => if r.name = name then { r with destination } else r
      else t.routes ++ [⟨name, destination⟩] := by
  rw [insert]
  simp only [any_same_iff]
  split
  · exact replaceFirst_eq_map h name destination
  · rfl

/-- After a route was set, its name leads to the new destination only, and the others where they
    led before. -/
theorem mem_routes_insert (h : t.names.Nodup) (name : Name) (destination : Destination) (r : Route) :
    r ∈ (t.insert name destination).2.routes ↔
      if name = r.name then destination = r.destination else r ∈ t.routes := by
  rw [routes_insert h]
  by_cases hthere : name ∈ t.names
  · obtain ⟨old, hold, hname⟩ := List.mem_map.1 hthere
    rw [if_pos hthere, List.mem_map]
    split
    · rename_i hsame
      constructor
      · rintro ⟨q, -, rfl⟩
        split at hsame
        · rw [if_pos ‹_›]
        · exact absurd hsame.symm ‹_›
      · intro hleads
        exact ⟨old, hold, by rw [if_pos hname, hname, hsame, hleads]⟩
    · rename_i hsame
      constructor
      · rintro ⟨q, hq, rfl⟩
        split at hsame
        · exact absurd (Eq.symm ‹_›) hsame
        · rwa [if_neg ‹_›]
      · intro hr
        exact ⟨r, hr, if_neg (Ne.symm hsame)⟩
  · have hother (hr : r ∈ t.routes) : name ≠ r.name := fun hsame =>
      hthere (hsame ▸ List.mem_map_of_mem hr)
    rw [if_neg hthere, List.mem_append, List.mem_singleton]
    split
    · rename_i hsame
      subst hsame
      rw [or_iff_right fun hr => hother hr rfl]
      exact ⟨fun hr => (congrArg Route.destination hr).symm, fun hleads => hleads ▸ rfl⟩
    · rename_i hsame
      exact or_iff_left fun hr => hsame (congrArg Route.name hr).symm

theorem remove_snd (t : RouteTable) (name : Name) :
    (t.remove name).2.routes = t.routes.filter fun r => r.name ≠ name := by
  refine List.filter_congr fun r _ => ?_
  rw [Bool.eq_iff_iff, Bool.not_eq_true', ← Bool.not_eq_true, Name.same_iff, decide_eq_true_iff]

theorem removeFace_snd (t : RouteTable) (face : FaceKey) :
    (t.removeFace face).2.routes = t.routes.filter fun r => r.destination ≠ .face face := by
  refine List.filter_congr fun r _ => ?_
  rw [Bool.eq_iff_iff, bne_iff_ne, decide_eq_true_iff]

/-- The answer is whether a route has gone. -/
theorem remove_fst (t : RouteTable) (name : Name) :
    (t.remove name).1 = decide (name ∈ t.names) := by
  rw [Bool.eq_iff_iff, decide_eq_true_iff]
  change ((t.remove name).2.routes.length != t.routes.length) = true ↔ _
  rw [remove_snd, bne_iff_ne, ne_eq, List.length_filter_eq_length_iff]
  simp [names]

/-- The answer is how many routes have gone. -/
theorem removeFace_fst (t : RouteTable) (face : FaceKey) :
    (t.removeFace face).1 = t.routes.countP (·.destination = .face face) := by
  change t.routes.length - (t.removeFace face).2.routes.length = _
  have hall := List.length_eq_countP_add_countP (fun r : Route => decide (r.destination = .face face))
    (l := t.routes)
  rw [removeFace_snd, ← List.countP_eq_length_filter]
  simp only [decide_eq_true_iff] at hall
  exact Nat.sub_eq_of_eq_add hall

/-! ## What a history leaves -/

namespace Tells

variable {history earlier : List Change}

theorem mem_names_iff (h : t.Tells history) :
    name ∈ t.names ↔ destination? name history ≠ none := by
  rw [names, List.mem_map, Option.ne_none_iff_exists']
  constructor
  · rintro ⟨r, hr, rfl⟩
    exact ⟨r.destination, (h.mem_iff r).1 hr⟩
  · rintro ⟨destination, hleads⟩
    exact ⟨⟨name, destination⟩, (h.mem_iff _).2 hleads, rfl⟩

theorem nodup (h : t.Tells history) : t.names.Nodup :=
  h.order.imp fun {_ _} hlt heq => (Nat.ne_of_lt hlt) (congrArg (since · history) heq)

/-- A name that keeps its route has had it since then. -/
theorem since_cons (h : t.Tells earlier) (hname : name ∈ t.names) (c : Change) :
    since name (c :: earlier) = since name earlier :=
  if_neg (h.mem_names_iff.1 hname)

/-- A name that gets a route has it since all changes before. -/
theorem since_cons_new (h : t.Tells earlier) (hname : name ∉ t.names) (c : Change) :
    since name (c :: earlier) = earlier.length :=
  if_pos (Classical.not_not.1 fun hthere => hname (h.mem_names_iff.2 hthere))

/-- Names that remain stay in their order. -/
theorem order_of_sublist (h : t.Tells earlier) {left : List Name} (hleft : left.Sublist t.names)
    (c : Change) : left.Pairwise fun m n => since m (c :: earlier) < since n (c :: earlier) := by
  refine (h.order.sublist hleft).imp_of_mem fun hm hn hlt => ?_
  rwa [h.since_cons (hleft.subset hm), h.since_cons (hleft.subset hn)]

/-- Each change does to the table what the history tells of it. -/
theorem change (h : t.Tells earlier) (c : Change) : (t.change c).Tells (c :: earlier) := by
  cases c with
  | insert name destination =>
    refine ⟨fun r => ?_, ?_⟩
    · rw [RouteTable.change, mem_routes_insert h.nodup, destination?]
      by_cases hname : name = r.name
      · rw [if_pos hname, if_pos hname, Option.some.injEq]
      · rw [if_neg hname, if_neg hname, h.mem_iff]
    · -- A name that is there keeps its place; a new one comes behind all that came before it.
      rw [RouteTable.change, names_insert]
      split
      · exact h.order_of_sublist (List.Sublist.refl _) _
      · rename_i hnew
        refine List.pairwise_append.2 ⟨h.order_of_sublist (List.Sublist.refl _) _,
          List.pairwise_singleton _ _, fun m hm n hn => ?_⟩
        rw [List.mem_singleton.1 hn, h.since_cons hm, h.since_cons_new hnew]
        exact since_lt_length (h.mem_names_iff.1 hm)
  | remove name =>
    refine ⟨fun r => ?_, h.order_of_sublist (List.filter_sublist.map _) _⟩
    rw [RouteTable.change, remove_snd, List.mem_filter, decide_eq_true_iff, h.mem_iff, destination?]
    by_cases hname : name = r.name
    · rw [if_pos hname]
      exact iff_of_false (fun hr => hr.2 hname.symm) nofun
    · rw [if_neg hname]
      exact and_iff_left (Ne.symm hname)
  | removeFace face =>
    refine ⟨fun r => ?_, h.order_of_sublist (List.filter_sublist.map _) _⟩
    rw [RouteTable.change, removeFace_snd, List.mem_filter, decide_eq_true_iff, h.mem_iff, destination?,
      Option.filter_eq_some_iff, decide_eq_true_iff]

end Tells

theorem tells_after (history : List Change) : (after history).Tells history := by
  induction history with
  | nil => exact ⟨fun _ => iff_of_false List.not_mem_nil nofun, .nil⟩
  | cons c earlier ih => exact ih.change c

/-! ## The longest route -/

/-- The search keeps the first of the longest routes. -/
theorem longest?_eq_argmax (t : RouteTable) (name : Name) :
    t.longest? name = (t.covering name).argmax (·.name.size) := by
  rw [longest?, List.argmax]
  congr 1
  funext best r
  cases best <;> rfl

/-- What stands in the order of a measure stands earlier where the measure is smaller. -/
theorem idxOf_le_iff {routes : List Route} {f : Route → Nat}
    (h : routes.Pairwise fun q r => f q < f r) {q r : Route} (hq : q ∈ routes) (hr : r ∈ routes) :
    routes.idxOf q ≤ routes.idxOf r ↔ f q ≤ f r := by
  have hlt : ∀ {q r : Route}, q ∈ routes → r ∈ routes → routes.idxOf q < routes.idxOf r →
      f q < f r := fun hq hr hlt => by
    have := List.pairwise_iff_getElem.1 h _ _ (List.idxOf_lt_length_of_mem hq)
      (List.idxOf_lt_length_of_mem hr) hlt
    rwa [List.getElem_idxOf, List.getElem_idxOf] at this
  constructor
  · intro hle
    obtain hlt' | heq := Nat.lt_or_eq_of_le hle
    · exact Nat.le_of_lt (hlt hq hr hlt')
    · rw [(List.idxOf_inj hq).1 heq]
  · intro hle
    exact Nat.le_of_not_lt fun hgt => Nat.not_le_of_gt (hlt hr hq hgt) hle

/-- The longest route covers the name with the most components, and among those with as many it is
    the one that was there first. -/
theorem Tells.longest?_eq_some_iff {history : List Change} (h : t.Tells history) (name : Name)
    (r : Route) : t.longest? name = some r ↔ r ∈ t.covering name ∧ ∀ other ∈ t.covering name,
      other.name.size ≤ r.name.size ∧
        (other.name.size = r.name.size → since r.name history ≤ since other.name history) := by
  have horder : (t.covering name).Pairwise fun q r =>
      since q.name history < since r.name history :=
    (List.pairwise_map.1 h.order).sublist List.filter_sublist
  rw [longest?_eq_argmax, List.argmax_eq_some_iff]
  refine and_congr_right fun hr => ?_
  constructor
  · rintro ⟨hmost, hfirst⟩ other hother
    exact ⟨hmost other hother, fun hsize =>
      (idxOf_le_iff horder hr hother).1 (hfirst other hother hsize.ge)⟩
  · intro hall
    exact ⟨fun other hother => (hall other hother).1, fun other hother hge =>
      (idxOf_le_iff horder hr hother).2
        ((hall other hother).2 (Nat.le_antisymm (hall other hother).1 hge))⟩

theorem longest?_eq_none_iff (t : RouteTable) (name : Name) :
    t.longest? name = none ↔ t.covering name = [] := by
  rw [longest?_eq_argmax, List.argmax_eq_none]

/-- After any history a table has one route for a name that leads somewhere, where the history says
    that it leads, in the order of the names' arrival. A change says whether or how many routes were
    there and does nothing to the others. The longest of the routes that cover a name is found, and
    the first of several; none is found only if none covers it. -/
theorem after_ordered (history : List Change) (name : Name) :
    let t := after history
    (t.names.Nodup ∧ t.Tells history) ∧
    (∀ destination,
      (t.insert name destination).1 = decide (name ∈ t.names) ∧
      (t.insert name destination).2.routes =
        if name ∈ t.names then
          t.routes.map fun r => if r.name = name then { r with destination } else r
        else t.routes ++ [⟨name, destination⟩]) ∧
    ((t.remove name).1 = decide (name ∈ t.names) ∧
      (t.remove name).2.routes = t.routes.filter fun r => r.name ≠ name) ∧
    (∀ face,
      (t.removeFace face).1 = t.routes.countP (·.destination = .face face) ∧
      (t.removeFace face).2.routes = t.routes.filter fun r => r.destination ≠ .face face) ∧
    t.covering name = t.routes.filter (fun r =>
      r.name.suite = name.suite ∧ r.name.components <+: name.components) ∧
    (∀ r, t.longest? name = some r ↔ r ∈ t.covering name ∧ ∀ other ∈ t.covering name,
      other.name.size ≤ r.name.size ∧
        (other.name.size = r.name.size → since r.name history ≤ since other.name history)) ∧
    (t.longest? name = none ↔ t.covering name = []) := by
  intro t
  have h : t.Tells history := tells_after history
  refine ⟨⟨h.nodup, h⟩, fun destination => ⟨insert_fst t name destination, ?_⟩,
    ⟨remove_fst t name, remove_snd t name⟩, fun face => ⟨removeFace_fst t face, removeFace_snd t face⟩,
    ?_, h.longest?_eq_some_iff name, longest?_eq_none_iff t name⟩
  · exact routes_insert h.nodup name destination
  · exact List.filter_congr fun r _ => by
      rw [Bool.eq_iff_iff, Route.covers_iff, decide_eq_true_iff]

/-- A route that was there first is found even for the very name of another. -/
example :
    let plain : Name := ⟨.ndn, [[0x61]], none, .none⟩
    let call : Name := { plain with flags := .ofBits 1 }
    (after [.insert plain .tap, .insert call .tap]).longest? plain = some ⟨call, .tap⟩ := by
  decide

end RouteTable

end NameRelay
