import Mathlib.Data.List.Forall2
import Retrace.Json.Record

/-! Records read back. The draft of a value is as good as the value: a list of records is read from
the drafts of its items, and a record from the drafts of its members, if these are fields in the
order of their declaration, some left out, and those that have to be there are there. So all that
remains to be shown of a record is what its members put into it. -/

namespace Retrace.Json

/-! ## Lists of results -/

theorem exists_forall₂ {α β : Type} {R : α → β → Prop} {P : β → Prop} {as : List α}
    (h : ∀ a ∈ as, ∃ b, R a b ∧ P b) : ∃ bs, List.Forall₂ R as bs ∧ ∀ b ∈ bs, P b := by
  induction as with
  | nil => exact ⟨[], .nil, List.forall_mem_nil P⟩
  | cons a rest ih =>
    rw [List.forall_mem_cons] at h
    obtain ⟨b, hab, hb⟩ := h.1
    obtain ⟨bs, hrest, hbs⟩ := ih h.2
    exact ⟨b :: bs, .cons hab hrest, List.forall_mem_cons.mpr ⟨hb, hbs⟩⟩

theorem mapM_of_forall₂ {α β : Type} {f : α → Option β} {as : List α} {bs : List β}
    (h : List.Forall₂ (fun a b => f a = some b) as bs) : as.mapM f = some bs := by
  induction h with
  | nil => rfl
  | cons hab _ ih => simp [List.mapM_cons, hab, ih]

/-! ## Values -/

mutual

/-- How deep arrays and objects are nested in a value. -/
def depth : Json → Nat
  | array items => itemsDepth items + 1
  | object members => membersDepth members + 1
  | _ => 0

def itemsDepth : List Json → Nat
  | [] => 0
  | item :: rest => max item.depth (itemsDepth rest)

def membersDepth : List (String × Json) → Nat
  | [] => 0
  | (_, value) :: rest => max value.depth (membersDepth rest)

end

theorem membersDepth_le_iff {members : List (String × Json)} {room : Nat} :
    membersDepth members ≤ room ↔ ∀ m ∈ members, m.2.depth ≤ room := by
  induction members with
  | nil => simp [membersDepth]
  | cons member rest ih => rw [membersDepth, Nat.max_le, ih, List.forall_mem_cons]

mutual

/-- A value with enough room is kept as it is. -/
theorem value_draft : ∀ (j : Json) (room : Nat), j.depth ≤ room → j.draft.value room = .ok j
  | null, _, _ => rfl
  | bool _, _, _ => rfl
  | int _, _, _ => rfl
  | fraction, _, _ => rfl
  | str _, _, _ => rfl
  | array items, 0, h => by simp [depth] at h
  | array items, room + 1, h => by
    rw [draft, Draft.value, itemValues_draft items room (by simpa [depth] using h)]
    rfl
  | object members, 0, h => by simp [depth] at h
  | object members, room + 1, h => by
    rw [draft, Draft.value, memberValues_draft members room (by simpa [depth] using h)]
    rfl

theorem itemValues_draft : ∀ (items : List Json) (room : Nat), itemsDepth items ≤ room →
    Draft.itemValues room (draftItems items) none = .ok items
  | [], _, _ => rfl
  | item :: rest, room, h => by
    rw [itemsDepth, Nat.max_le] at h
    simp only [draftItems, Draft.itemValues, value_draft item room h.1,
      itemValues_draft rest room h.2]
    rfl

theorem memberValues_draft : ∀ (members : List (String × Json)) (room : Nat),
    membersDepth members ≤ room →
    Draft.memberValues room (draftMembers members) none = .ok members
  | [], _, _ => rfl
  | (name, value) :: rest, room, h => by
    rw [membersDepth, Nat.max_le] at h
    simp only [draftMembers, Draft.memberValues, value_draft value room h.1,
      memberValues_draft rest room h.2]
    rfl

end

theorem ok_map {ε α β : Type} (f : α → β) (a : α) :
    (Except.ok a : Except ε α).map f = .ok (f a) :=
  rfl

theorem ok_bind {ε α β : Type} (f : α → Except ε β) (a : α) :
    (Except.ok a : Except ε α).bind f = f a :=
  rfl

/-! Scalars are read back where they are wanted. -/

theorem signed_draft {bits : Nat} {n : Int} (h : FitsSigned bits n) :
    (int n).draft.signed bits = .ok n :=
  if_pos h

theorem unsigned_draft {bits n : Nat} (h : n < capacity bits) :
    (int n).draft.unsigned bits = .ok n :=
  if_pos ⟨Int.natCast_nonneg n, Int.ofNat_lt.mpr h⟩

theorem string_draft (s : String) : (str s).draft.string = .ok s := rfl

/-- A value that is not `null` is read as if it had to be there. -/
theorem optional_draft {α : Type} {read : Draft → Except JsonFault α} {j : Json} {a : α}
    (hnull : j ≠ null) (h : read j.draft = .ok a) : j.draft.optional read = .ok (some a) := by
  cases j with
  | null => exact absurd rfl hnull
  | _ => simp only [draft, Draft.optional] at h ⊢; rw [h]; rfl

/-- A list is read back if each of its items is. -/
theorem list_draft {α : Type} {read : Draft → Except JsonFault α} {as : List α}
    {items : List Json} (h : List.Forall₂ (fun a j => read j.draft = .ok a) as items) :
    (array items).draft.list read = .ok as := by
  rw [draft, Draft.list]
  induction h with
  | nil => rfl
  | cons hitem _ ih =>
    simp only [draftItems, Draft.readItems, hitem, ih]
    rfl

theorem list_draft_map {α : Type} {read : Draft → Except JsonFault α} {write : α → Json}
    {as : List α} (h : ∀ a ∈ as, read (write a).draft = .ok a) :
    (array (as.map write)).draft.list read = .ok as :=
  list_draft (List.forall₂_map_right_iff.mpr (List.forall₂_same.mpr h))

/-! ## Records -/

namespace RecordShape

variable {α : Type} (shape : RecordShape α)

/-- Puts members into a record, one after the other. -/
def fill (record : α) : List (String × Json) → Except JsonFault α
  | [] => .ok record
  | (name, value) :: rest => (shape.put record name value.draft).bind (fill · rest)

/-- Do the members turn one record into another, and are they some of these fields in order? -/
structure Puts (names : List String) (members : List (String × Json)) (record after : α) :
    Prop where
  sublist : (members.map Prod.fst).Sublist names
  fill : shape.fill record members = .ok after

section Puts

variable {shape} {record between after : α}

/-- Fields may be left out. -/
theorem Puts.none (names : List String) (record : α) : shape.Puts names [] record record :=
  ⟨List.nil_sublist names, rfl⟩

theorem Puts.one {name : String} {value : Json}
    (h : shape.put record name value.draft = .ok after) :
    shape.Puts [name] [(name, value)] record after := by
  refine ⟨List.Sublist.refl [name], ?_⟩
  rw [RecordShape.fill, h]
  rfl

theorem Puts.append {names moreNames : List String} {members more : List (String × Json)}
    (h : shape.Puts names members record between)
    (hmore : shape.Puts moreNames more between after) :
    shape.Puts (names ++ moreNames) (members ++ more) record after := by
  obtain ⟨hsublist, hfill⟩ := h
  refine ⟨by rw [List.map_append]; exact hsublist.append hmore.sublist, ?_⟩
  clear hsublist
  induction members generalizing record with
  | nil =>
    cases hfill
    exact hmore.fill
  | cons member rest ih =>
    cases hput : shape.put record member.1 member.2.draft with
    | error fault => simp [RecordShape.fill, hput, Except.bind] at hfill
    | ok next =>
      simp only [RecordShape.fill, hput, Except.bind, List.cons_append] at hfill ⊢
      exact ih hfill

end Puts

theorem readMembers_draft {members : List (String × Json)} {seen : List String}
    {record result : α} (hknown : ∀ m ∈ members, m.1 ∈ shape.names)
    (hfresh : ∀ m ∈ members, m.1 ∉ seen) (honce : (members.map Prod.fst).Nodup)
    (hrequired : ∀ name ∈ shape.required, name ∈ seen ∨ name ∈ members.map Prod.fst)
    (hfill : shape.fill record members = .ok result) :
    shape.readMembers none seen record (draftMembers members) = .ok result := by
  induction members generalizing seen record with
  | nil =>
    have hall : shape.required.all (seen.contains ·) = true := by simpa using hrequired
    rw [draftMembers, readMembers, hall, if_pos rfl]
    exact hfill
  | cons member rest ih =>
    obtain ⟨name, value⟩ := member
    rw [List.map_cons, List.nodup_cons] at honce
    rw [List.forall_mem_cons] at hknown hfresh
    have hnew : seen.contains name = false := by simpa using hfresh.1
    have hname : shape.names.contains name = true := by simpa using hknown.1
    cases hput : shape.put record name value.draft with
    | error fault => simp [fill, hput, Except.bind] at hfill
    | ok next =>
      simp only [fill, hput, Except.bind] at hfill
      simp only [draftMembers, readMembers, hname, if_true, hnew, Bool.false_eq_true, if_false,
        hput]
      refine ih hknown.2 (fun m hm => ?_) honce.2 (fun wanted hwanted => ?_) hfill
      · have hne : m.1 ≠ name := fun h => honce.1 (h ▸ List.mem_map.mpr ⟨m, hm, rfl⟩)
        exact List.not_mem_cons_of_ne_of_not_mem hne (hfresh.2 m hm)
      · simpa [or_assoc, or_left_comm] using hrequired wanted hwanted

/-- A record is what its members put into a blank one. -/
theorem read_object {members : List (String × Json)} {result : α} (hnames : shape.names.Nodup)
    (hputs : shape.Puts shape.names members shape.blank result)
    (hrequired : shape.required ⊆ members.map Prod.fst) :
    shape.read (object members).draft = .ok result := by
  obtain ⟨hsublist, hfill⟩ := hputs
  rw [draft, read]
  exact shape.readMembers_draft (fun m hm => hsublist.subset (List.mem_map_of_mem hm))
    (fun _ _ => List.not_mem_nil) (hsublist.nodup hnames) (fun _ h => .inr (hrequired h)) hfill

end RecordShape

end Retrace.Json
