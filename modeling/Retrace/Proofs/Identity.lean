import Retrace.Proofs.Integrity
import Retrace.Proofs.Keys

/-! Identity. Two requests come to one entity if and only if they are written alike. So a request
may get another host and context, or another class and signature, than it asks for: those of the
first request that was written in the same way. It cannot if hosts are plain, and if operations are
legible and all read in one way. -/

namespace Retrace

namespace Registry

variable {α : Type} {r : Registry α} {name other : String} {make : Nat → α} {entity : α}
  {key : α → String}

/-- What is found under a name has that name. -/
theorem KeyedBy.key_of_find? (h : r.KeyedBy key) (hfind : r.find? name = some entity) :
    key entity = name := by
  have hown := mem_of_lookup (h.found entity (mem_entities_of_find? hfind))
  have hdistinct : (r.entries.map Prod.snd).Nodup := h.distinct.of_map key
  exact congrArg Prod.fst (List.inj_on_of_nodup_map hdistinct hown (mem_of_lookup hfind) rfl)

/-- One entity is found under two names only if they are equal. -/
theorem KeyedBy.eq_iff (h : r.KeyedBy key) {found : α} (hentity : r.find? name = some entity)
    (hfound : r.find? other = some found) : entity = found ↔ name = other := by
  constructor
  · rintro rfl
    rw [← h.key_of_find? hentity, h.key_of_find? hfound]
  · rintro rfl
    exact Option.some.inj (hentity.symm.trans hfound)

/-- What is found after a name was interned was found before or has been made for the name. -/
theorem find?_of_intern (h : (r.intern name make).2.find? other = some entity) :
    r.find? other = some entity ∨ other = name ∧ ∃ id, entity = make id := by
  by_cases hname : other = name
  · subst hname
    rw [find?_intern] at h
    cases hfind : r.find? other with
    | some found => exact .inl (by rwa [intern_of_find? hfind] at h)
    | none =>
      rw [intern_of_find?_eq_none hfind] at h
      exact .inr ⟨rfl, _, (Option.some.inj h).symm⟩
  · rw [find?_intern_of_ne hname] at h
    exact .inl h

end Registry

namespace Model

/-- Interns an operation of a class that is given by name. -/
def internNamed (m : Model) (q : QualifiedSignature) : Operation × Model :=
  let (type, m) := m.internComponentType q.owner
  m.internOperation type q.signature

theorem internNamed_grows (m : Model) (q : QualifiedSignature) :
    m.operations.Grows (m.internNamed q).2.operations :=
  Registry.grows_intern m.operations
    (operationKey (m.internComponentType q.owner).1 q.signature)
    (⟨·, (m.internComponentType q.owner).1, q.signature⟩)

/-- Is every type that of the class name under which it is found? -/
def Typed (m : Model) : Prop :=
  ∀ className type, m.componentTypes.find? className = some type →
    type = .ofClassName className type.id

theorem Typed.internComponentType {m : Model} (h : m.Typed) (asked : String) :
    (m.internComponentType asked).2.Typed := by
  intro className type hfind
  rcases Registry.find?_of_intern hfind with hold | ⟨rfl, id, rfl⟩
  · exact h className type hold
  · rw [ComponentType.id_ofClassName]

namespace Reachable

variable {m n : Model}

theorem typed (h : Reachable m) : m.Typed := by
  induction h with
  | empty => exact fun _ _ hfind => nomatch hfind
  | componentType asked _ ih => exact ih.internComponentType asked
  | resolve host context operation _ ih => exact ih.internComponentType operation.owner
  | container _ _ ih => exact ih
  | operation _ _ _ ih => exact ih
  | assembly _ _ _ ih => exact ih
  | allocation _ _ _ ih => exact ih

protected theorem internNamed (h : Reachable m) (q : QualifiedSignature) :
    Reachable (m.internNamed q).2 :=
  .operation _ (h.componentType q.owner) (mem_internComponentType m q.owner)

/-! ## What requests get -/

theorem fullName_internComponentType (h : Reachable m) (className : String) :
    (m.internComponentType className).1.fullName =
      (ComponentType.ofClassName className 0).fullName := by
  have htype := (h.componentType className).typed _ _
    (Registry.find?_intern m.componentTypes className (.ofClassName className))
  have hunnumbered := congrArg ComponentType.unnumbered htype
  rw [ComponentType.unnumbered_ofClassName] at hunnumbered
  exact (ComponentType.fullName_unnumbered _).symm.trans
    (congrArg ComponentType.fullName hunnumbered)

theorem operationKey_internComponentType (h : Reachable m) (q : QualifiedSignature) :
    operationKey (m.internComponentType q.owner).1 q.signature = q.written := by
  rw [operationKey, h.fullName_internComponentType, QualifiedSignature.written, operationKey]

/-- The operation is found under what is written for it. -/
theorem find?_internNamed (h : Reachable m) (q : QualifiedSignature) :
    (m.internNamed q).2.operations.find? q.written = some (m.internNamed q).1 := by
  rw [← h.operationKey_internComponentType]
  exact Registry.find?_intern m.operations _ (⟨·, (m.internComponentType q.owner).1, q.signature⟩)

theorem internNamed_written (h : Reachable m) (q : QualifiedSignature) :
    (m.internNamed q).1.written = q.written :=
  (intact_of_reachable (h.internNamed q)).operations.key_of_find? (h.find?_internNamed q)

/-- Two operations are interned as one if and only if they are written alike. -/
theorem internNamed_eq_iff (h : Reachable m) (hn : Reachable n) {p q : QualifiedSignature}
    (hgrows : (m.internNamed p).2.Grows n) :
    (n.internNamed q).1 = (m.internNamed p).1 ↔ q.written = p.written := by
  have hlater : (n.internNamed q).2.operations.find? p.written = some (m.internNamed p).1 :=
    (n.internNamed_grows q).find? (hgrows.operations.find? (h.find?_internNamed p))
  exact (intact_of_reachable (hn.internNamed q)).operations.eq_iff (hn.find?_internNamed q) hlater

theorem internContainer_name (h : Reachable m) (host : String) :
    (m.internContainer host).1.name = host :=
  (intact_of_reachable (h.container host)).containers.key_of_find?
    (Registry.find?_intern m.containers host (⟨·, host⟩))

theorem internAssembly_name (h : Reachable m) (context : String) {type : ComponentType}
    (htype : type ∈ m.componentTypes.entities) : (m.internAssembly context type).1.name = context :=
  (intact_of_reachable (h.assembly context htype)).assemblies.key_of_find?
    (Registry.find?_intern m.assemblies context (⟨·, context, type⟩))

/-- What a request interns last is the allocation of the context to the host that it asks for. -/
theorem exists_interned (h : Reachable m) (host context : String) (q : QualifiedSignature) :
    ∃ make : Nat → Allocation, (∀ id, (make id).place = (host, context)) ∧
      (m.resolve host context q).1.allocation =
        (m.allocations.intern (writtenPlace (host, context)) make).1 ∧
      (m.resolve host context q).2.allocations =
        (m.allocations.intern (writtenPlace (host, context)) make).2 := by
  let container := (m.internContainer host).1
  let assembly := (m.internAssembly context (m.internComponentType q.owner).1).1
  have hcontainer : container.name = host := h.internContainer_name host
  have hassembly : assembly.name = context :=
    (h.componentType q.owner).internAssembly_name context (mem_internComponentType m q.owner)
  have hkey : writtenPlace (host, context) = allocationKey assembly container := by
    rw [allocationKey, hassembly, hcontainer, writtenPlace]
  refine ⟨(⟨·, assembly, container⟩), fun _ => Prod.ext hcontainer hassembly, ?_⟩
  rw [hkey]
  exact ⟨rfl, rfl⟩

/-- The allocation is found under what is written for its host and its context. -/
theorem find?_resolve (h : Reachable m) (host context : String) (q : QualifiedSignature) :
    (m.resolve host context q).2.allocations.find? (writtenPlace (host, context)) =
      some (m.resolve host context q).1.allocation := by
  obtain ⟨make, _, hentity, hregistry⟩ := h.exists_interned host context q
  rw [hentity, hregistry]
  exact Registry.find?_intern _ _ _

theorem resolve_name (h : Reachable m) (host context : String) (q : QualifiedSignature) :
    writtenPlace (m.resolve host context q).1.allocation.place = writtenPlace (host, context) :=
  (intact_of_reachable (.resolve host context q h)).allocations.key_of_find?
    (h.find?_resolve host context q)

/-- Two requests get one allocation if and only if their hosts and contexts are written alike. -/
theorem resolve_allocation_eq_iff (h : Reachable m) (hn : Reachable n)
    {host host' context context' : String} {p q : QualifiedSignature}
    (hgrows : (m.resolve host context p).2.Grows n) :
    (n.resolve host' context' q).1.allocation = (m.resolve host context p).1.allocation ↔
      writtenPlace (host', context') = writtenPlace (host, context) := by
  have hlater := (grows_resolve n host' context' q).allocations.find?
    (hgrows.allocations.find? (h.find?_resolve host context p))
  exact (intact_of_reachable (.resolve host' context' q hn)).allocations.eq_iff
    (hn.find?_resolve host' context' q) hlater

/-- The allocation that a request gets was there before, or is made of its host and its context. -/
theorem resolve_allocation (h : Reachable m) (host context : String) (q : QualifiedSignature) :
    (m.resolve host context q).1.allocation ∈ m.allocations.entities ∨
      (m.resolve host context q).1.allocation.place = (host, context) := by
  obtain ⟨make, hplace, _, hregistry⟩ := h.exists_interned host context q
  have hfind := h.find?_resolve host context q
  rw [hregistry] at hfind
  rcases Registry.find?_of_intern hfind with hold | ⟨_, id, hnew⟩
  · exact .inl (Registry.mem_entities_of_find? hold)
  · exact .inr (hnew ▸ hplace id)

/-- The allocation is that of the host and the context unless another one that is written alike was
there before. -/
theorem resolve_place_iff (h : Reachable m) (host context : String) (q : QualifiedSignature) :
    (m.resolve host context q).1.allocation.place = (host, context) ↔
      ∀ a ∈ m.allocations.entities,
        ¬ Shifted a.place (host, context) ∧ ¬ Shifted (host, context) a.place := by
  constructor
  · intro hplace a ha
    have hintact := intact_of_reachable (.resolve host context q h)
    have hown := hintact.allocations.found a ((grows_resolve m host context q).allocations.mem ha)
    -- What is written like the request is what the request gets, so it is at the place, too.
    have hsame : writtenPlace a.place = writtenPlace (host, context) → a.place = (host, context) := by
      intro hwritten
      rw [← hplace, (hintact.allocations.eq_iff hown (h.find?_resolve host context q)).mpr hwritten]
    refine not_or.mp fun hshifted => ?_
    rw [hsame (writtenPlace_eq_iff.mpr (.inr hshifted)), or_self] at hshifted
    exact not_shifted_self _ hshifted
  · intro hothers
    rcases h.resolve_allocation host context q with hold | hplace
    · obtain ⟨hnot, hnot'⟩ := hothers _ hold
      exact (writtenPlace_eq_iff.mp (h.resolve_name host context q)).resolve_right
        (not_or.mpr ⟨hnot, hnot'⟩)
    · exact hplace

end Reachable

/-! ## Plain hosts -/

def PlainHosts (m : Model) : Prop :=
  ∀ c ∈ m.containers.entities, PlainHost c.name

theorem PlainHosts.resolve {m : Model} (h : m.PlainHosts) {host : String} (hhost : PlainHost host)
    (context : String) (q : QualifiedSignature) : (m.resolve host context q).2.PlainHosts := by
  intro c hc
  rcases Registry.mem_entities_intern (show c ∈ (m.containers.intern host (⟨·, host⟩)).2.entities
    from hc) with hold | ⟨⟨_, rfl⟩, _⟩
  · exact h c hold
  · exact hhost

theorem PlainHosts.resolve_place {m : Model} (h : m.PlainHosts) (hm : Reachable m) {host : String}
    (hhost : PlainHost host) (context : String) (q : QualifiedSignature) :
    (m.resolve host context q).1.allocation.place = (host, context) := by
  rcases hm.resolve_allocation host context q with hold | hplace
  · have hcontainer := (intact_of_reachable hm).allocatedContainers _ hold
    exact writtenPlace_inj (h _ hcontainer) hhost (hm.resolve_name host context q)
  · exact hplace

/-! ## Legible operations -/

/-- Were all operations read off legible texts, in ways that are among the given ones? -/
def Spelled (ways : Bool → Prop) (m : Model) : Prop :=
  ∀ o ∈ m.operations.entities, ∃ text way, ways way ∧ QualifiedSignature.Legible way text ∧
    QualifiedSignature.parse text way = ⟨o.componentType.fullName, o.signature⟩

section Spelled
open QualifiedSignature

variable {m : Model} {ways : Bool → Prop} {way : Bool} {text : String}

theorem Spelled.internNamed (h : m.Spelled ways) (hm : Reachable m) (hway : ways way)
    (htext : Legible way text) : (m.internNamed (parse text way)).2.Spelled ways := by
  intro o ho
  rcases Registry.mem_entities_intern (show o ∈ (m.operations.intern _
    (⟨·, (m.internComponentType (parse text way).owner).1, (parse text way).signature⟩)).2.entities
    from ho) with hold | ⟨⟨_, rfl⟩, _⟩
  · exact h o hold
  · refine ⟨text, way, hway, htext, ?_⟩
    rw [hm.fullName_internComponentType, ComponentType.fullName_ofClassName htext.named]

/-- If all operations are legible, what a request gets resembles what it asks for, and is the same if
all are read in one way. -/
theorem Spelled.operation (h : m.Spelled ways) (hm : Reachable m) (hway : ways way)
    (htext : Legible way text) :
    let o := (m.internNamed (parse text way)).1
    Resembles ⟨o.componentType.fullName, o.signature⟩ (parse text way) ∧
      ((∀ c d, ways c → ways d → c = d) →
        ⟨o.componentType.fullName, o.signature⟩ = parse text way) := by
  intro o
  have hmem := Registry.mem_entities_of_find? (hm.find?_internNamed (parse text way))
  have hwritten : o.written = (parse text way).written := hm.internNamed_written (parse text way)
  obtain ⟨other, d, hd, hother, hparse⟩ := h.internNamed hm hway htext _ hmem
  rw [← show parse other d = ⟨o.componentType.fullName, o.signature⟩ from hparse]
  have hresembles : (parse other d).Resembles (parse text way) := by
    refine (written_eq_iff hother htext).mp ?_
    rw [← hwritten, written, operationKey, ComponentType.fullName_ofClassName hother.named, hparse]
    rfl
  refine ⟨hresembles, fun hone => ?_⟩
  obtain rfl := hone d way hd hway
  exact hresembles.eq

end Spelled

end Model

end Retrace
