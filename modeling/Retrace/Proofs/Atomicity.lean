import Mathlib.Data.List.Dedup
import Retrace.Proofs.Registries
import Retrace.SharedRegistry

/-! Asking and making at once. However the looks and entries of many calls follow each other, calls
that ask for one name receive one handle, and nothing that happens later changes it. What is in the
registry was made by some of the calls, one for each name, with the ids from one on in the order in
which they entered.

A call that has found nothing may have been overtaken when it enters. The invariant therefore says
nothing about calls without an answer. It names the calls that have made something: all else in the
registry, the counter and the answers can be told from them. -/

namespace Retrace

namespace SharedRegistry
open scoped List

variable {α : Type} {s s' : SharedRegistry α} {turns : List (Turn α)}

/-! ## What a turn can do -/

inductive Next (s : SharedRegistry α) : SharedRegistry α → Prop where
  | looked (name : String) (make : Nat → α) :
      Next s { s with calls := s.calls ++ [⟨name, make, s.registry.find? name⟩] }
  | found {position : Nat} {name : String} {make : Nat → α} {handle : Handle α}
      (hcall : s.calls[position]? = some ⟨name, make, none⟩)
      (hfind : s.registry.find? name = some handle) :
      Next s { s with calls := s.calls.set position ⟨name, make, some handle⟩ }
  | made {position : Nat} {name : String} {make : Nat → α} {handle : Handle α}
      (hcall : s.calls[position]? = some ⟨name, make, none⟩)
      (hfind : s.registry.find? name = none)
      (hhandle : handle = ⟨s.makings.length, make s.nextId.toNat⟩) :
      Next s
        { registry := ⟨s.registry.entries ++ [(name, handle)]⟩
          nextId := s.nextId + 1
          makings := s.makings ++ [(name, s.nextId.toNat)]
          calls := s.calls.set position ⟨name, make, some handle⟩ }

theorem next_of_turn {t : Turn α} (h : s.turn t = some s') : s.Next s' := by
  cases t with
  | look name make =>
    cases h
    exact .looked name make
  | enter position =>
    simp only [turn] at h
    split at h
    case h_1 name make hcall =>
      cases hfind : s.registry.find? name with
      | some handle =>
        simp only [enter, hfind, Option.some.injEq] at h
        exact h ▸ .found hcall hfind
      | none =>
        simp only [enter, hfind, Option.some.injEq] at h
        exact h ▸ .made hcall hfind rfl
    case h_2 => cases h

/-- What every turn keeps is kept by all of them. -/
theorem run_keeps {P : SharedRegistry α → Prop} (hnext : ∀ s s', s.Next s' → P s → P s')
    (h : s.run turns = some s') (hs : P s) : P s' := by
  induction turns generalizing s with
  | nil => exact Option.some.inj h ▸ hs
  | cons t turns ih =>
    obtain ⟨between, hturn, hrest⟩ := Option.bind_eq_some_iff.mp h
    exact ih hrest (hnext s between (next_of_turn hturn) hs)

/-! ## What turns keep -/

/-- The id that the counter gives to a making, which may have started again from zero. -/
def idOf (making : Nat) : Nat :=
  (making + 1) % UInt32.size

/-- Did the given calls, in this order, make all there is, and does every answer come from there? -/
structure MadeBy (s : SharedRegistry α) (makers : List (Call α)) : Prop where
  entries : s.registry.entries = makers.zipIdx.map fun p => (p.1.name, ⟨p.2, p.1.make (idOf p.2)⟩)
  makings : s.makings = makers.zipIdx.map fun p => (p.1.name, idOf p.2)
  counter : s.nextId.toNat = idOf makers.length
  once : (makers.map Call.name).Nodup
  answered : ∀ a ∈ makers, a ∈ s.calls ∧ a.answer.isSome
  received : ∀ a ∈ s.calls, ∀ handle, a.answer = some handle →
    s.registry.find? a.name = some handle

theorem madeBy_empty : MadeBy ({} : SharedRegistry α) [] :=
  ⟨rfl, rfl, rfl, List.nodup_nil, by simp, by simp⟩

/-- A call that has its answer stays where it is when a suspended one receives one. -/
theorem getElem?_set_of_answered {calls : List (Call α)} {a b c : Call α} {place position : Nat}
    (ha : calls[place]? = some a) (hanswer : a.answer.isSome) (hcall : calls[position]? = some b)
    (hb : b.answer = none) : (calls.set position c)[place]? = some a := by
  have hne : position ≠ place := by
    rintro rfl
    rw [Option.some.inj (ha.symm.trans hcall), hb] at hanswer
    cases hanswer
  rw [List.getElem?_set_ne hne, ha]

theorem mem_set_of_answered {calls : List (Call α)} {a b c : Call α} {position : Nat}
    (ha : a ∈ calls) (hanswer : a.answer.isSome) (hcall : calls[position]? = some b)
    (hb : b.answer = none) : a ∈ calls.set position c := by
  obtain ⟨place, hplace⟩ := List.mem_iff_getElem?.mp ha
  exact List.mem_of_getElem? (getElem?_set_of_answered hplace hanswer hcall hb)

/-- A call that has its answer stays as it is. -/
theorem Next.lasting (hnext : s.Next s') {place : Nat} {a : Call α} (ha : s.calls[place]? = some a)
    (hanswer : a.answer.isSome) : s'.calls[place]? = some a := by
  cases hnext with
  | looked name make =>
    rwa [List.getElem?_append_left (List.getElem?_eq_some_iff.mp ha).1]
  | found hcall hfind => exact getElem?_set_of_answered ha hanswer hcall rfl
  | made hcall hfind hhandle => exact getElem?_set_of_answered ha hanswer hcall rfl

/-- A call that is suspended can enter, and receives a handle. -/
theorem exists_turn {position : Nat} {a : Call α} (ha : s.calls[position]? = some a)
    (hanswer : a.answer = none) :
    ∃ s' handle, s.turn (.enter position) = some s' ∧
      s'.calls[position]? = some { a with answer := some handle } := by
  obtain ⟨name, make, answer⟩ := a
  obtain rfl : answer = none := hanswer
  refine ⟨_, (s.enter name make).1, by simp only [turn, ha]; rfl, ?_⟩
  have hplace : position < s.calls.length := (List.getElem?_eq_some_iff.mp ha).1
  have hcalls : (s.enter name make).2.calls = s.calls := by
    unfold enter
    split <;> rfl
  exact List.getElem?_set_self (hcalls ▸ hplace)

namespace MadeBy

variable {makers : List (Call α)}

theorem zipIdx_names (makers : List (Call α)) :
    makers.zipIdx.map (fun p => p.1.name) = makers.map Call.name := by
  calc makers.zipIdx.map (fun p => p.1.name)
      = (makers.zipIdx.map Prod.fst).map Call.name := (List.map_map ..).symm
    _ = makers.map Call.name := by rw [List.zipIdx_map_fst]

theorem names (h : s.MadeBy makers) : s.registry.names = makers.map Call.name := by
  rw [Registry.names, h.entries, List.map_map, ← zipIdx_names]
  rfl

theorem makings_names (h : s.MadeBy makers) : s.makings.map Prod.fst = s.registry.names := by
  rw [h.names, h.makings, List.map_map, ← zipIdx_names]
  rfl

theorem size (h : s.MadeBy makers) : s.registry.size = makers.length := by
  rw [Registry.size, h.entries, List.length_map, List.length_zipIdx]

theorem length_makings (h : s.MadeBy makers) : s.makings.length = makers.length := by
  rw [h.makings, List.length_map, List.length_zipIdx]

/-- A call that looks makes nothing. -/
theorem looked (h : s.MadeBy makers) (name : String) (make : Nat → α) :
    MadeBy { s with calls := s.calls ++ [⟨name, make, s.registry.find? name⟩] } makers := by
  refine { h with answered := ?answered, received := ?received }
  case answered =>
    intro a ha
    exact ⟨List.mem_append_left _ (h.answered a ha).1, (h.answered a ha).2⟩
  case received =>
    intro a ha handle hanswer
    rcases List.mem_append.mp ha with ha | ha
    · exact h.received a ha handle hanswer
    · rw [List.mem_singleton.mp ha] at hanswer ⊢
      exact hanswer

/-- A call that has been overtaken makes nothing either. -/
theorem found (h : s.MadeBy makers) {position : Nat} {name : String} {make : Nat → α}
    {handle : Handle α} (hcall : s.calls[position]? = some ⟨name, make, none⟩)
    (hfind : s.registry.find? name = some handle) :
    MadeBy { s with calls := s.calls.set position ⟨name, make, some handle⟩ } makers := by
  refine { h with answered := ?answered, received := ?received }
  case answered =>
    intro a ha
    obtain ⟨hmem, hsome⟩ := h.answered a ha
    exact ⟨mem_set_of_answered hmem hsome hcall rfl, hsome⟩
  case received =>
    intro a ha handle' hanswer
    rcases List.mem_or_eq_of_mem_set ha with ha | rfl
    · exact h.received a ha handle' hanswer
    · exact hanswer ▸ hfind

/-- A call that makes an entity comes after all that have made one. -/
theorem made (h : s.MadeBy makers) {position : Nat} {name : String} {make : Nat → α}
    {handle : Handle α} (hcall : s.calls[position]? = some ⟨name, make, none⟩)
    (hfind : s.registry.find? name = none)
    (hhandle : handle = ⟨s.makings.length, make s.nextId.toNat⟩) :
    MadeBy
      { registry := ⟨s.registry.entries ++ [(name, handle)]⟩
        nextId := s.nextId + 1
        makings := s.makings ++ [(name, s.nextId.toNat)]
        calls := s.calls.set position ⟨name, make, some handle⟩ }
      (makers ++ [⟨name, make, some handle⟩]) := by
  have hgrown : (s.registry.intern name fun _ => handle) =
      (handle, ⟨s.registry.entries ++ [(name, handle)]⟩) :=
    Registry.intern_of_find?_eq_none hfind
  rw [h.length_makings, h.counter] at hhandle
  constructor
  case entries =>
    rw [List.zipIdx_append, List.map_append, h.entries, hhandle]
    simp
  case makings =>
    rw [List.zipIdx_append, List.map_append, h.makings, h.counter]
    simp
  case counter =>
    have hone : (1 : UInt32).toNat = 1 := rfl
    rw [UInt32.toNat_add, h.counter, hone, List.length_append, List.length_singleton]
    exact Nat.mod_add_mod ..
  case once =>
    rw [List.map_append, List.map_singleton, ← List.concat_eq_append]
    refine h.once.concat ?_
    rw [← h.names]
    exact Registry.find?_eq_none_iff.mp hfind
  case answered =>
    intro a ha
    rcases List.mem_append.mp ha with ha | ha
    · obtain ⟨hmem, hsome⟩ := h.answered a ha
      exact ⟨mem_set_of_answered hmem hsome hcall rfl, hsome⟩
    · rw [List.mem_singleton.mp ha]
      exact ⟨List.mem_set (List.getElem?_eq_some_iff.mp hcall).1 _, rfl⟩
  case received =>
    intro a ha handle' hanswer
    rcases List.mem_or_eq_of_mem_set ha with ha | rfl
    · have hgrows := Registry.grows_intern s.registry name fun _ => handle
      rw [hgrown] at hgrows
      exact hgrows.find? (h.received a ha handle' hanswer)
    · have hfound := Registry.find?_intern s.registry name fun _ => handle
      rw [hgrown] at hfound
      exact hanswer ▸ hfound

theorem next (h : s.MadeBy makers) (hnext : s.Next s') : ∃ makers, s'.MadeBy makers := by
  cases hnext with
  | looked name make => exact ⟨_, h.looked name make⟩
  | found hcall hfind => exact ⟨_, h.found hcall hfind⟩
  | made hcall hfind hhandle => exact ⟨_, h.made hcall hfind hhandle⟩

end MadeBy

theorem exists_madeBy (h : ({} : SharedRegistry α).run turns = some s) :
    ∃ makers, s.MadeBy makers :=
  run_keeps (P := fun s => ∃ makers, s.MadeBy makers) (fun _ _ hnext ⟨_, hs⟩ => hs.next hnext) h
    ⟨[], madeBy_empty⟩

/-! ## What calls receive -/

namespace MadeBy

variable {makers : List (Call α)}

/-- As long as no more names are asked for than there are numbers but zero, the counter does not
start again. -/
theorem length_lt (h : s.MadeBy makers)
    (hnames : (s.calls.map Call.name).dedup.length < UInt32.size) :
    makers.length < UInt32.size := by
  have hsubset : makers.map Call.name ⊆ (s.calls.map Call.name).dedup := by
    intro name hname
    obtain ⟨a, ha, rfl⟩ := List.mem_map.mp hname
    exact List.mem_dedup.mpr (List.mem_map_of_mem (h.answered a ha).1)
  have hlength := (List.subperm_of_subset h.once hsubset).length_le
  rw [List.length_map] at hlength
  omega

theorem idOf_eq (hlength : makers.length < UInt32.size) {p : Call α × Nat}
    (hp : p ∈ makers.zipIdx) : idOf p.2 = p.2 + 1 := by
  have hlt := (List.mem_zipIdx hp).2.1
  exact Nat.mod_eq_of_lt (by omega)

theorem ids (hlength : makers.length < UInt32.size) :
    makers.zipIdx.map (fun p => idOf p.2) = List.range' 1 makers.length := by
  calc makers.zipIdx.map (fun p => idOf p.2)
      = makers.zipIdx.map (fun p => 1 + p.2) := List.map_congr_left fun p hp => by
        rw [idOf_eq hlength hp, Nat.add_comm]
    _ = (makers.zipIdx.map Prod.snd).map (1 + ·) := (List.map_map ..).symm
    _ = List.range' 1 makers.length := by rw [List.zipIdx_map_snd, List.map_add_range']

/-- What is in the registry was made by a call, which has received it. -/
theorem exists_maker (h : s.MadeBy makers) (hlength : makers.length < UInt32.size)
    {name : String} {handle : Handle α} (hmem : (name, handle) ∈ s.registry.entries) :
    ∃ a ∈ s.calls, a.name = name ∧ a.answer = some handle ∧
      handle.entity = a.make (handle.making + 1) := by
  have hfind : s.registry.find? name = some handle :=
    Registry.find?_of_mem (h.names ▸ h.once) hmem
  rw [h.entries] at hmem
  obtain ⟨⟨a, k⟩, hp, heq⟩ := List.mem_map.mp hmem
  obtain ⟨rfl, rfl⟩ := Prod.mk.inj heq
  obtain ⟨ha, hanswer⟩ := h.answered a (List.fst_mem_of_mem_zipIdx hp)
  obtain ⟨received, hreceived⟩ := Option.isSome_iff_exists.mp hanswer
  have hsame := (h.received a ha received hreceived).symm.trans hfind
  exact ⟨a, ha, rfl, hreceived.trans hsame, congrArg a.make (idOf_eq hlength hp)⟩

/-- Where the calls make entities with the ids they are given, the entities have the ids from one
on. -/
theorem entity_ids [HasId α] (h : s.MadeBy makers) (hlength : makers.length < UInt32.size)
    (hmake : ∀ a ∈ s.calls, ∀ id, HasId.id (a.make id) = id) :
    s.registry.entities.map (HasId.id ·.entity) = List.range' 1 s.registry.size := by
  rw [h.size, ← ids hlength, Registry.entities, h.entries, List.map_map, List.map_map]
  refine List.map_congr_left fun p hp => ?_
  exact hmake p.1 (h.answered p.1 (List.fst_mem_of_mem_zipIdx hp)).1 _

end MadeBy

/-- The registry with the entities in the place of their handles. -/
def plain (s : SharedRegistry α) : Registry α :=
  ⟨s.registry.entries.map fun p => (p.1, p.2.entity)⟩

/-- What some calls leave behind if they come one after the other. -/
def internAll (calls : List (Call α)) : Registry α :=
  calls.foldl (fun r a => (r.intern a.name a.make).2) {}

theorem internAll_of_nodup (makers : List (Call α)) (hnames : (makers.map Call.name).Nodup) :
    internAll makers = ⟨makers.zipIdx.map fun p => (p.1.name, p.1.make (p.2 + 1))⟩ := by
  induction makers using List.reverseRecOn with
  | nil => rfl
  | append_singleton makers a ih =>
    rw [List.map_append, List.map_singleton, ← List.concat_eq_append, List.nodup_concat] at hnames
    obtain ⟨hnew, hnames⟩ := hnames
    have hfind : Registry.find?
        ⟨makers.zipIdx.map fun p => (p.1.name, p.1.make (p.2 + 1))⟩ a.name = none := by
      rw [Registry.find?_eq_none_iff, Registry.names, List.map_map]
      exact MadeBy.zipIdx_names makers ▸ hnew
    have hsnoc : internAll (makers ++ [a]) = ((internAll makers).intern a.name a.make).2 :=
      List.foldl_append
    rw [hsnoc, ih hnames, Registry.intern_of_find?_eq_none hfind, List.zipIdx_append,
      List.map_append]
    simp [Registry.size]

/-- Calls that come all at once leave behind what those of them that made something leave behind if
they come one after the other. -/
theorem MadeBy.plain_eq {makers : List (Call α)} (h : s.MadeBy makers)
    (hlength : makers.length < UInt32.size) :
    s.plain = internAll makers := by
  rw [internAll_of_nodup makers h.once, plain, h.entries, List.map_map]
  congr 1
  refine List.map_congr_left fun p hp => ?_
  exact congrArg (fun id => (p.1.name, p.1.make id)) (idOf_eq hlength hp)

/-- Entities whose ids ascend are sorted into the order they are in, however they are listed. -/
theorem sortedById_eq [HasId α] {handles listing : List (Handle α)} (h : listing ~ handles)
    (hids : (handles.map (HasId.id ·.entity)).Pairwise (· < ·)) : sortedById listing = handles := by
  have hperm : sortedById listing ~ handles := (List.mergeSort_perm _ _).trans h
  have hsorted : (sortedById listing).Pairwise fun a b =>
      HasId.id a.entity ≤ HasId.id b.entity := by
    refine List.Pairwise.imp of_decide_eq_true (List.pairwise_mergeSort ?_ ?_ listing)
    · intro a b c hab hbc
      exact decide_eq_true (Nat.le_trans (of_decide_eq_true hab) (of_decide_eq_true hbc))
    · intro a b
      simpa using Nat.le_total _ _
  have hascending : handles.Pairwise fun a b => HasId.id a.entity ≤ HasId.id b.entity :=
    (List.pairwise_map.mp hids).imp Nat.le_of_lt
  refine List.Perm.eq_of_pairwise (fun a b ha hb hab hba => ?_) hsorted hascending hperm
  exact List.inj_on_of_nodup_map (hids.imp Nat.ne_of_lt) (hperm.mem_iff.mp ha) hb
    (Nat.le_antisymm hab hba)

/-- Is every call served as if the calls had come one after the other? -/
structure Served [HasId α] (s : SharedRegistry α) : Prop where
  /-- Anybody can ask for any name at any time. -/
  asking : ∀ name make, ∃ s' answer, s.turn (.look name make) = some s' ∧
    s'.calls = s.calls ++ [⟨name, make, answer⟩]
  /-- Calls that ask for one name receive one handle. -/
  same : ∀ a ∈ s.calls, ∀ b ∈ s.calls, a.name = b.name →
    ∀ x, a.answer = some x → ∀ y, b.answer = some y → x = y
  /-- A call that has received nothing yet can enter, and receives a handle. -/
  waiting : ∀ (position : Nat) (a : Call α), s.calls[position]? = some a → a.answer = none →
    ∃ s' handle, s.turn (.enter position) = some s' ∧
      s'.calls[position]? = some { a with answer := some handle }
  /-- What a call has received stays, for the call and in the registry. -/
  lasting : ∀ turns s', s.run turns = some s' → ∀ (position : Nat) (a : Call α) handle,
    s.calls[position]? = some a → a.answer = some handle →
      s'.calls[position]? = some a ∧ s'.registry.find? a.name = some handle
  /-- No name has an entity made twice. -/
  once : (s.makings.map (·.1)).Nodup
  /-- There is a making for a name if a call for it has received something, and only then. -/
  made : ∀ name, name ∈ s.makings.map (·.1) ↔ ∃ a ∈ s.calls, a.name = name ∧ a.answer.isSome
  /-- The ids are those from one on, in the order in which the names came into the registry. -/
  numbered : s.makings = s.registry.names.zip (List.range' 1 s.registry.size)
  /-- Each entity is there as the call that has made it received it, and with its own id. -/
  entities : ∀ name handle, (name, handle) ∈ s.registry.entries →
    ∃ a ∈ s.calls, a.name = name ∧ a.answer = some handle ∧
      handle.entity = a.make (handle.making + 1)
  /-- What the calls leave behind some of them would, one after the other. -/
  sequential : ∃ makers : List (Call α), (∀ a ∈ makers, a ∈ s.calls) ∧
    s.plain = internAll makers
  /-- No two entities come from one making. -/
  handles : s.registry.entities.map Handle.making = List.range s.registry.size
  /-- A listing by id is that in the order of makings, and the ids are those from one on. -/
  listed : (∀ a ∈ s.calls, ∀ id, HasId.id (a.make id) = id) →
    ∀ listing, listing ~ s.registry.entities →
      sortedById listing = s.registry.entities ∧
        (sortedById listing).map (HasId.id ·.entity) = List.range' 1 s.registry.size

theorem calls_served [HasId α] (h : ({} : SharedRegistry α).run turns = some s)
    (hnames : (s.calls.map Call.name).dedup.length < UInt32.size) : s.Served := by
  obtain ⟨makers, hs⟩ := exists_madeBy h
  have hlength := hs.length_lt hnames
  constructor
  case asking => exact fun name make => ⟨_, _, rfl, rfl⟩
  case same =>
    intro a ha b hb hname x hx y hy
    have hfind := (hname ▸ hs.received a ha x hx).symm.trans (hs.received b hb y hy)
    exact Option.some.inj hfind
  case waiting => exact fun position a => exists_turn
  case lasting =>
    intro more s' hrun position a handle ha hanswer
    have hcalls : s'.calls[position]? = some a :=
      run_keeps (P := fun s => s.calls[position]? = some a)
        (fun _ _ hnext hkept => hnext.lasting hkept (hanswer ▸ rfl)) hrun ha
    obtain ⟨makers', hs'⟩ : ∃ makers, s'.MadeBy makers :=
      run_keeps (P := fun s => ∃ makers, s.MadeBy makers)
        (fun _ _ hnext ⟨_, hs⟩ => hs.next hnext) hrun ⟨makers, hs⟩
    exact ⟨hcalls, hs'.received a (List.mem_of_getElem? hcalls) handle hanswer⟩
  case once =>
    rw [hs.makings_names, hs.names]
    exact hs.once
  case made =>
    intro name
    rw [hs.makings_names]
    constructor
    · intro hname
      obtain ⟨a, ha, rfl⟩ := List.mem_map.mp (hs.names ▸ hname)
      exact ⟨a, (hs.answered a ha).1, rfl, (hs.answered a ha).2⟩
    · rintro ⟨a, ha, rfl, hanswer⟩
      obtain ⟨handle, hhandle⟩ := Option.isSome_iff_exists.mp hanswer
      exact Registry.mem_names_of_find? (hs.received a ha handle hhandle)
  case numbered =>
    refine List.zip_of_prod hs.makings_names ?_
    rw [hs.size, ← MadeBy.ids hlength, hs.makings, List.map_map]
    rfl
  case entities => exact fun name handle => hs.exists_maker hlength
  case sequential => exact ⟨makers, fun a ha => (hs.answered a ha).1, hs.plain_eq hlength⟩
  case handles =>
    rw [hs.size, List.range_eq_range', ← List.zipIdx_map_snd, Registry.entities, hs.entries,
      List.map_map, List.map_map]
    rfl
  case listed =>
    intro hmake listing hlisting
    have hids := hs.entity_ids hlength hmake
    have hsorted : sortedById listing = s.registry.entities :=
      sortedById_eq hlisting (hids ▸ List.pairwise_lt_range')
    exact ⟨hsorted, hsorted ▸ hids⟩

/-- Two calls look for one class before either of them enters, and one for another class. The second
one is the first to enter. A late one finds what was made. -/
def rivals : List (Turn ComponentType) :=
  [.look "shop.Cart" (.ofClassName "shop.Cart"), .look "shop.Cart" (.ofClassName "shop.Cart"),
    .look "shop.Box" (.ofClassName "shop.Box"), .enter 1, .enter 2, .enter 0,
    .look "shop.Cart" (.ofClassName "shop.Cart")]

theorem rivals_served : ∃ s, ({} : SharedRegistry ComponentType).run rivals = some s ∧
    (s.calls.map Call.name).dedup.length < UInt32.size ∧
    s.calls.map Call.answer =
      [some ⟨0, ⟨1, "shop", "Cart"⟩⟩, some ⟨0, ⟨1, "shop", "Cart"⟩⟩,
        some ⟨1, ⟨2, "shop", "Box"⟩⟩, some ⟨0, ⟨1, "shop", "Cart"⟩⟩] ∧ s.Served := by
  have hrun : ({} : SharedRegistry ComponentType).run rivals = some _ := rfl
  exact ⟨_, hrun, by decide, by decide, calls_served hrun (by decide)⟩

end SharedRegistry

end Retrace
