import Mathlib.Data.List.Nodup
import Mathlib.Data.List.Perm.Basic
import Retrace.Proofs.Entities

/-! What a registry holds. Under each name there is at most one entity, and all of it but its id is
what the first request for that name asked for. So what a registry holds can be looked up in the
list of requests, and two lists with the same requests in another order come to registries with the
same names. -/

namespace Retrace

namespace Registry
open scoped List

variable {α β γ : Type} {r s : Registry α} {name : String} {make : Nat → α}

/-- The names that were asked for, in the order of first requests. -/
def names (r : Registry α) : List String :=
  r.entries.map (·.1)

theorem find?_eq_none_iff : r.find? name = none ↔ name ∉ r.names := by
  simp only [find?, names, List.lookup_eq_none_iff, List.mem_map, not_exists, not_and, bne_iff_ne]
  exact ⟨fun h p hp hname => h p hp hname.symm, fun h p hp hname => h p hp hname.symm⟩

theorem mem_names_of_find? {entity : α} (h : r.find? name = some entity) : name ∈ r.names := by
  by_contra hname
  rw [find?_eq_none_iff.mpr hname] at h
  cases h

theorem mem_of_lookup {pairs : List (String × α)} {a : α} (h : pairs.lookup name = some a) :
    (name, a) ∈ pairs := by
  obtain ⟨before, after, hsplit, -⟩ := List.lookup_eq_some_iff.mp h
  rw [hsplit]
  exact List.mem_append_right _ List.mem_cons_self

theorem find?_of_mem (hnodup : r.names.Nodup) {entity : α} (h : (name, entity) ∈ r.entries) :
    r.find? name = some entity := by
  obtain ⟨before, after, hsplit⟩ := List.append_of_mem h
  refine List.lookup_eq_some_iff.mpr ⟨before, after, hsplit, fun p hp => ?_⟩
  rw [names, hsplit, List.map_append, List.map_cons] at hnodup
  have hne : p.1 ≠ name := fun heq =>
    List.disjoint_of_nodup_append hnodup (List.mem_map_of_mem hp) (heq ▸ List.mem_cons_self)
  exact bne_iff_ne.mpr hne.symm

theorem lookup_singleton_of_ne {other : String} (h : other ≠ name) (a : α) :
    List.lookup other [(name, a)] = none :=
  List.lookup_eq_none_iff.mpr fun _ hp => bne_iff_ne.mpr (List.mem_singleton.mp hp ▸ h)

/-- A name is looked up in what some requests ask for as the first request for it is found. -/
theorem lookup_map_find? {ρ : Type} (requests : List ρ) (key : ρ → String) (ask : ρ → α) :
    (requests.map fun q => (key q, ask q)).lookup name =
      (requests.find? (key · == name)).map ask := by
  induction requests with
  | nil => rfl
  | cons q rest ih =>
    rw [List.map_cons, List.lookup_cons, List.find?_cons, BEq.comm]
    cases key q == name with
    | true => rfl
    | false => exact ih

theorem lookup_map_snd (pairs : List (String × α)) (g : α → β) :
    (pairs.map fun p => (p.1, g p.2)).lookup name = (pairs.lookup name).map g := by
  have hpairs : pairs.lookup name = (pairs.find? (·.1 == name)).map (·.2) := by
    rw [← lookup_map_find?, List.map_id']
  rw [lookup_map_find?, hpairs, Option.map_map]
  rfl

/-! ## Interning -/

/-- What interning a name that is not there yet makes of a registry. -/
theorem intern_of_find?_eq_none (h : r.find? name = none) :
    r.intern name make = (make (r.size + 1), ⟨r.entries ++ [(name, make (r.size + 1))]⟩) := by
  rw [intern, h]

theorem nodup_names_intern (h : r.names.Nodup) : (r.intern name make).2.names.Nodup := by
  cases hfind : r.find? name with
  | some entity => rwa [intern_of_find? hfind]
  | none =>
    rw [intern_of_find?_eq_none hfind, names, List.map_append, List.map_singleton,
      ← List.concat_eq_append]
    exact h.concat (find?_eq_none_iff.mp hfind)

/-- Interning a name changes nothing that is found under another one. -/
theorem find?_intern_of_ne {other : String} (h : other ≠ name) :
    (r.intern name make).2.find? other = r.find? other := by
  cases hfind : r.find? name with
  | some entity => rw [intern_of_find? hfind]
  | none =>
    rw [intern_of_find?_eq_none hfind, find?, List.lookup_append, lookup_singleton_of_ne h,
      Option.or_none]
    rfl

/-! ## What was asked for -/

/-- Seen in some way, is what the registry holds under each name what was asked for first? -/
structure Keeps (r : Registry α) (view : α → β) (asked : List (String × β)) : Prop where
  nodup : r.names.Nodup
  first : ∀ name, (r.find? name).map view = asked.lookup name

namespace Keeps

variable {view : α → β} {asked asked' : List (String × β)} {b : β}

theorem empty : Keeps ({} : Registry α) view [] :=
  ⟨List.nodup_nil, fun _ => rfl⟩

protected theorem intern (h : r.Keeps view asked) (name : String) (make : Nat → α)
    (hmake : ∀ id, view (make id) = b) :
    (r.intern name make).2.Keeps view (asked ++ [(name, b)]) := by
  refine ⟨nodup_names_intern h.nodup, fun other => ?_⟩
  rw [List.lookup_append, ← h.first]
  by_cases hname : other = name
  · subst hname
    cases hfind : r.find? other with
    | some entity =>
      rw [find?_intern, intern_of_find? hfind]
      rfl
    | none =>
      rw [find?_intern, intern_of_find?_eq_none hfind, Option.map_some, hmake]
      simp
  · rw [find?_intern_of_ne hname, lookup_singleton_of_ne hname, Option.or_none]

/-- Seen in a coarser way, the registry keeps what was asked for, seen in that way. -/
theorem coarsen (h : r.Keeps view asked) (g : β → γ) :
    r.Keeps (fun entity => g (view entity)) (asked.map fun p => (p.1, g p.2)) := by
  refine ⟨h.nodup, fun name => ?_⟩
  rw [lookup_map_snd, ← h.first, Option.map_map]
  rfl

/-- Where all requests tell from the name what they ask for, that is what is interned. -/
theorem interned (h : r.Keeps view asked) {f : String → β} (hf : ∀ p ∈ asked, p.2 = f p.1)
    (name : String) (make : Nat → α) (hmake : ∀ id, view (make id) = f name) :
    view (r.intern name make).1 = f name := by
  have hfirst := (Keeps.intern h name make hmake).first name
  rw [find?_intern, Option.map_some] at hfirst
  rcases List.mem_append.mp (mem_of_lookup hfirst.symm) with hmem | hmem
  · exact hf _ hmem
  · exact congrArg Prod.snd (List.mem_singleton.mp hmem)

theorem mem_names (h : r.Keeps view asked) : name ∈ r.names ↔ name ∈ asked.map (·.1) := by
  have hsome : (r.find? name).isSome ↔ (asked.lookup name).isSome := by
    rw [← h.first, Option.isSome_map]
  rw [List.lookup_isSome_iff, Option.isSome_iff_ne_none, ne_eq, find?_eq_none_iff, not_not] at hsome
  rw [hsome, List.mem_map]
  exact exists_congr fun p => and_congr_right fun _ => beq_iff_eq.trans eq_comm

/-- The same requests in another order come to the same names. -/
theorem names_perm (h : r.Keeps view asked) (h' : s.Keeps view asked') (hperm : asked ~ asked') :
    r.names ~ s.names :=
  (List.perm_ext_iff_of_nodup h.nodup h'.nodup).mpr fun _ => by
    rw [h.mem_names, h'.mem_names, (hperm.map _).mem_iff]

/-- What is seen of the entities is found in the requests. -/
theorem mem_entities (h : r.Keeps view asked) :
    b ∈ r.entities.map view ↔ ∃ name, asked.lookup name = some b := by
  simp only [← h.first, Option.map_eq_some_iff, entities, List.mem_map, exists_exists_and_eq_and]
  constructor
  · rintro ⟨⟨name, entity⟩, hmem, rfl⟩
    exact ⟨name, entity, find?_of_mem h.nodup hmem, rfl⟩
  · rintro ⟨name, entity, hfind, rfl⟩
    exact ⟨(name, entity), mem_of_lookup hfind, rfl⟩

/-- What is there was asked for. -/
theorem mem_asked (h : r.Keeps view asked) {entity : α} (hmem : entity ∈ r.entities) :
    view entity ∈ asked.map (·.2) := by
  obtain ⟨name, hfirst⟩ := h.mem_entities.mp (List.mem_map_of_mem hmem)
  exact List.mem_map_of_mem (f := Prod.snd) (mem_of_lookup hfirst)

/-- If all requests tell from the name what they ask for, so do the entities. -/
theorem entities_map (h : r.Keeps view asked) {f : String → β} (hf : ∀ p ∈ asked, p.2 = f p.1) :
    r.entities.map view = r.names.map f := by
  rw [entities, names, List.map_map, List.map_map]
  refine List.map_congr_left fun p hp => ?_
  have hfirst := h.first p.1
  rw [find?_of_mem h.nodup hp, Option.map_some] at hfirst
  exact hf (p.1, view p.2) (mem_of_lookup hfirst.symm)

/-- If all requests tell from the name what they ask for, there is what was asked for. -/
theorem mem_entities_iff (h : r.Keeps view asked) {f : String → β}
    (hf : ∀ p ∈ asked, p.2 = f p.1) :
    b ∈ r.entities.map view ↔ b ∈ asked.map (·.2) := by
  have hmap : asked.map (·.2) = (asked.map (·.1)).map f := by
    rw [List.map_map]
    exact List.map_congr_left hf
  rw [h.entities_map hf, hmap, List.mem_map, List.mem_map]
  exact exists_congr fun name => and_congr_left fun _ => h.mem_names

theorem entities_perm (h : r.Keeps view asked) (h' : s.Keeps view asked') (hperm : asked ~ asked')
    {f : String → β} (hf : ∀ p ∈ asked, p.2 = f p.1) :
    r.entities.map view ~ s.entities.map view := by
  rw [h.entities_map hf, h'.entities_map fun p hp => hf p (hperm.mem_iff.mpr hp)]
  exact (h.names_perm h' hperm).map f

/-- Where the name can be told from what is asked for, and the requests under a name agree, an
entity is there if it was asked for. -/
theorem mem_entities_of_settled (h : r.Keeps view asked) {f : β → String}
    (hname : ∀ p ∈ asked, p.1 = f p.2)
    (hsettled : ∀ p ∈ asked, ∀ q ∈ asked, p.1 = f b → q.1 = f b → p.2 = q.2) :
    b ∈ r.entities.map view ↔ (f b, b) ∈ asked := by
  rw [h.mem_entities]
  constructor
  · rintro ⟨name, hfirst⟩
    have hmem := mem_of_lookup hfirst
    have hkey : name = f b := hname _ hmem
    exact hkey ▸ hmem
  · intro hmem
    obtain ⟨c, hfirst⟩ := Option.isSome_iff_exists.mp
      (List.lookup_isSome_iff.mpr ⟨_, hmem, BEq.refl (f b)⟩)
    have hc : c = b := hsettled _ (mem_of_lookup hfirst) _ hmem rfl rfl
    exact ⟨f b, hc ▸ hfirst⟩

theorem mem_entities_iff_of_settled (h : r.Keeps view asked) (h' : s.Keeps view asked')
    (hperm : asked ~ asked') {f : β → String} (hname : ∀ p ∈ asked, p.1 = f p.2)
    (hsettled : ∀ p ∈ asked, ∀ q ∈ asked, p.1 = f b → q.1 = f b → p.2 = q.2) :
    b ∈ r.entities.map view ↔ b ∈ s.entities.map view := by
  rw [h.mem_entities_of_settled hname hsettled, hperm.mem_iff,
    h'.mem_entities_of_settled (fun p hp => hname p (hperm.mem_iff.mpr hp))
      fun p hp q hq => hsettled p (hperm.mem_iff.mpr hp) q (hperm.mem_iff.mpr hq)]

end Keeps

end Registry

end Retrace
