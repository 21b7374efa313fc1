import Retrace.Proofs.Deliveries

/-! Decoding events. An event is decoded by the layout of its type, or without one if its type is
not known. Whichever way is taken, the event has the type, the time, the trace and the place that its
object says, and a known event is written so that it is decoded again. -/

namespace Retrace.Event

/-- The types of event that are known. -/
def knownTypes : List String :=
  ["BeforeOperation", "BeforeConstructor", "AfterOperation", "AfterConstructor",
    "AfterOperationFailed", "AfterConstructorFailed", "CallOperation", "CallConstructor", "Split"]

/-- The known types are those that have a layout. -/
theorem layout?_eq_none_iff {name : String} : layout? name = none ↔ name ∉ knownTypes := by
  simp only [knownTypes, List.mem_cons, List.not_mem_nil, or_false, not_or]
  unfold layout?
  constructor
  · intro h
    split_ifs at h
    exact ⟨‹_›, ‹_›, ‹_›, ‹_›, ‹_›, ‹_›, ‹_›, ‹_›, ‹_›⟩
  · intro h
    simp [h]

/-! ## The stamp of an event -/

/-- Do the members say when the event happened, in which trace and at which place? -/
structure Stamped (members : List (String × Json)) (s : Stamp) : Prop where
  timestamp : Json.lastMember? "timestamp" members = some (.int s.timestamp)
  traceId : Json.lastMember? "trace_id" members = some (.int s.traceId)
  orderIndex : Json.lastMember? "order_index" members = some (.int s.orderIndex)
  fits : s.Fits

section Stamps

variable {field : String → Option Json} {s : Stamp}

theorem required_signed?_eq_some_iff {bits : Nat} {value : Option Json} {n : Int} :
    Json.required (Json.signed? bits) value = some n ↔
      value = some (.int n) ∧ FitsSigned bits n := by
  rw [Json.required, Option.bind_eq_some_iff]
  constructor
  · intro h
    obtain ⟨j, hvalue, hread⟩ := h
    cases j with
    | int m =>
      rw [Json.signed?, Option.ite_none_right_eq_some] at hread
      obtain ⟨hfits, hm⟩ := hread
      obtain rfl := Option.some.inj hm
      exact ⟨hvalue, hfits⟩
    | _ => cases hread
  · intro h
    exact ⟨.int n, h.1, if_pos h.2⟩

theorem readStamp?_eq_some_iff {members : List (String × Json)} :
    readStamp? (fun name => Json.lastMember? name members) = some s ↔ Stamped members s := by
  constructor
  · intro h
    simp only [readStamp?, Option.bind_eq_bind, Option.bind_eq_some_iff,
      required_signed?_eq_some_iff] at h
    obtain ⟨time, ⟨htime, hfitsTime⟩, traceId, ⟨htrace, hfitsTrace⟩, index,
      ⟨hindex, hfitsIndex⟩, hs⟩ := h
    obtain rfl := Option.some.inj hs
    exact ⟨htime, htrace, hindex, ⟨hfitsTime, hfitsTrace, hfitsIndex⟩⟩
  · intro h
    exact readStamp?_of_fits h.fits h.timestamp h.traceId h.orderIndex

end Stamps

/-! ## The two ways to decode -/

/-- Is the event one that the layout makes? -/
def Layout.Makes (layout : Layout) (s : Stamp) (e : Event) : Prop :=
  match layout with
  | .operation make => ∃ operation, e = make s operation
  | .failure make => ∃ operation cause, e = make s operation cause
  | .call make => ∃ caller callee, e = make s caller callee
  | .split => e = .split s

theorem Layout.makes_of_read? {layout : Layout} {field : String → Option Json} {e : Event}
    (h : layout.read? field = some e) :
    ∃ s, readStamp? field = some s ∧ layout.Makes s e := by
  simp only [Layout.read?, Option.bind_eq_bind, Option.bind_eq_some_iff] at h
  obtain ⟨s, hs, h⟩ := h
  refine ⟨s, hs, ?_⟩
  cases layout with
  | operation make =>
    simp only [Option.bind_eq_some_iff] at h
    obtain ⟨operation, _, h⟩ := h
    exact ⟨operation, (Option.some.inj h).symm⟩
  | failure make =>
    simp only [Option.bind_eq_some_iff] at h
    obtain ⟨operation, _, cause, _, h⟩ := h
    exact ⟨operation, cause, (Option.some.inj h).symm⟩
  | call make =>
    simp only [Option.bind_eq_some_iff] at h
    obtain ⟨caller, _, callee, _, h⟩ := h
    exact ⟨caller, callee, (Option.some.inj h).symm⟩
  | split => exact (Option.some.inj h).symm

/-- What the layout of a type makes is a known event of that type, with the stamp that it is given. -/
theorem Layout.Makes.of_type {name : String} {layout : Layout} {s : Stamp} {e : Event}
    (h : layout.Makes s e) (hlayout : layout? name = some layout) :
    e.isKnown = true ∧ e.typeName = name ∧ e.stamp = s := by
  unfold layout? at hlayout
  split_ifs at hlayout with hname hname hname hname hname hname hname hname hname
  all_goals
    cases hlayout
    subst hname
  -- Begun and ended operations, then failures and calls, then splits.
  iterate 4
    · obtain ⟨operation, rfl⟩ := h
      exact ⟨rfl, rfl, rfl⟩
  iterate 4
    · obtain ⟨_, _, rfl⟩ := h
      exact ⟨rfl, rfl, rfl⟩
  · obtain rfl := h
    exact ⟨rfl, rfl, rfl⟩

section Members

variable {members : List (String × Json)} {e : Event}

theorem required_str?_eq_some_iff {value : Option Json} {text : String} :
    Json.required Json.str? value = some text ↔ value = some (.str text) := by
  rw [Json.required, Option.bind_eq_some_iff]
  constructor
  · intro h
    obtain ⟨j, hvalue, hread⟩ := h
    cases j with
    | str s =>
      obtain rfl := Option.some.inj hread
      exact hvalue
    | _ => cases hread
  · intro hvalue
    exact ⟨.str text, hvalue, rfl⟩

/-- A decoded event has the type that its object says, and is known or unknown like its type. -/
theorem ofMembers?_cases (h : ofMembers? members = some e) :
    ∃ name, Json.lastMember? "type" members = some (.str name) ∧ e.typeName = name ∧
      Stamped members e.stamp ∧
      (name ∈ knownTypes ∧ e.isKnown = true ∨
        name ∉ knownTypes ∧ e = .unknown name e.stamp) := by
  simp only [ofMembers?, Option.bind_eq_bind, Option.bind_eq_some_iff,
    required_str?_eq_some_iff] at h
  obtain ⟨name, hname, h⟩ := h
  refine ⟨name, hname, ?_⟩
  cases hlayout : layout? name with
  | some layout =>
    rw [hlayout] at h
    obtain ⟨s, hs, hmakes⟩ := Layout.makes_of_read? h
    obtain ⟨hknown, htype, hstamp⟩ := hmakes.of_type hlayout
    have hmem : name ∈ knownTypes := by
      by_contra hmem
      rw [layout?_eq_none_iff.mpr hmem] at hlayout
      cases hlayout
    exact ⟨htype, hstamp ▸ readStamp?_eq_some_iff.mp hs, .inl ⟨hmem, hknown⟩⟩
  | none =>
    rw [hlayout] at h
    obtain ⟨s, hs, rfl⟩ := Option.map_eq_some_iff.mp h
    exact ⟨rfl, readStamp?_eq_some_iff.mp hs, .inr ⟨layout?_eq_none_iff.mp hlayout, rfl⟩⟩

theorem ofMembers?_unknown_iff {name : String} {s : Stamp} :
    ofMembers? members = some (.unknown name s) ↔
      Json.lastMember? "type" members = some (.str name) ∧ name ∉ knownTypes ∧
        Stamped members s := by
  constructor
  · intro h
    obtain ⟨found, hname, htype, hstamped, hcase⟩ := ofMembers?_cases h
    obtain rfl : name = found := htype
    rcases hcase with ⟨_, hknown⟩ | ⟨hmem, _⟩
    · cases hknown
    · exact ⟨hname, hmem, hstamped⟩
  · intro ⟨hname, hmem, hstamped⟩
    simp only [ofMembers?, required_str?_eq_some_iff.mpr hname, Option.bind_eq_bind,
      Option.bind_some, layout?_eq_none_iff.mpr hmem, readStamp?_eq_some_iff.mpr hstamped,
      Option.map_some]

end Members

/-- Decoding an event keeps its identity. An object is decoded to an event of an unknown type if and
only if its type is a string that is none of the known types, and its numbers are integers that fit;
an object of a known type is not decoded, or to a known event of that type. Every decoded event has
the type, the time, the trace and the place that its object says. A known one is written to an object
that is decoded to the same event, also from text. -/
theorem decoding_keeps_identity (members : List (String × Json)) :
    (∀ name s, ofJson? (.object members) = some (.unknown name s) ↔
      Json.lastMember? "type" members = some (.str name) ∧ name ∉ knownTypes ∧
        Stamped members s) ∧
    (∀ name ∈ knownTypes, Json.lastMember? "type" members = some (.str name) →
      ∀ e, ofJson? (.object members) = some e → e.isKnown = true ∧ e.typeName = name) ∧
    (∀ e, ofJson? (.object members) = some e →
      Json.lastMember? "type" members = some (.str e.typeName) ∧
      Json.lastMember? "timestamp" members = some (.int e.timestamp) ∧
      Json.lastMember? "trace_id" members = some (.int e.traceId) ∧
      Json.lastMember? "order_index" members = some (.int e.orderIndex)) ∧
    (∀ e, ofJson? (.object members) = some e → e.isKnown = true →
      ∃ j, e.toJson? = some j ∧ ofJson? j = some e ∧ Json.parse j.compact.toList = .ok j) := by
  refine ⟨fun name s => ofMembers?_unknown_iff, ?_, ?_, ?_⟩
  · intro name hmem hname e h
    obtain ⟨found, hfound, htype, _, hcase⟩ := ofMembers?_cases h
    obtain rfl : name = found := by simpa [hname] using hfound
    rcases hcase with ⟨_, hknown⟩ | ⟨hnot, _⟩
    · exact ⟨hknown, htype⟩
    · exact absurd hmem hnot
  · intro e h
    obtain ⟨name, hname, rfl, hstamped, _⟩ := ofMembers?_cases h
    exact ⟨hname, hstamped.timestamp, hstamped.traceId, hstamped.orderIndex⟩
  · intro e h hknown
    obtain ⟨_, _, _, hstamped, _⟩ := ofMembers?_cases h
    obtain ⟨j, ⟨hwritten, hread⟩, hfits, hdepth⟩ := exists_json hknown hstamped.fits
    refine ⟨j, hwritten, hread, ?_⟩
    have hvalue := Json.value_draft j Json.maxDepth (hdepth.trans (by decide))
    have hdecode := Json.decode_of_spells Json.spaces_nil (Json.spells_compactChars j hfits)
      Json.spaces_nil hvalue
    rwa [List.nil_append, List.append_nil, ← @String.toList_ofList j.compactChars] at hdecode

/-- An object of a type that no one knows, with a member that no one asks for. -/
def branchingMembers : List (String × Json) :=
  [("branch", .array [.null]), ("order_index", .int 2147483647), ("trace_id", .int (-3)),
    ("timestamp", .int 1), ("type", .str "BranchingEvent")]

/-- A failed operation. A name that is repeated counts where it stands last. -/
def failedMembers : List (String × Json) :=
  [("type", .str "BranchingEvent"), ("type", .str "AfterOperationFailed"), ("timestamp", .int 5),
    ("trace_id", .int 7), ("order_index", .int 2), ("operation_signature", .str "x()"),
    ("cause", .str "\"\n")]

theorem members_decoded :
    ofJson? (.object branchingMembers) = some (.unknown "BranchingEvent" ⟨1, -3, 2147483647⟩) ∧
    ∃ e j, ofJson? (.object failedMembers) = some e ∧ e.isKnown = true ∧
      e.typeName = "AfterOperationFailed" ∧
      Json.lastMember? "order_index" failedMembers = some (.int e.orderIndex) ∧
      e.toJson? = some j ∧ ofJson? j = some e ∧ Json.parse j.compact.toList = .ok j := by
  refine ⟨?_, ?_⟩
  · exact ((decoding_keeps_identity branchingMembers).1 _ _).mpr
      ⟨rfl, by decide, rfl, rfl, rfl, by decide⟩
  · obtain ⟨-, htype, hsame, hback⟩ := decoding_keeps_identity failedMembers
    have hdecoded : ofJson? (.object failedMembers) =
        some (.afterFailed .operation ⟨5, 7, 2⟩ ⟨"x()", ""⟩ "\"\n") := rfl
    obtain ⟨hknown, hname⟩ := htype "AfterOperationFailed" (by decide) rfl _ hdecoded
    obtain ⟨-, -, -, hindex⟩ := hsame _ hdecoded
    obtain ⟨j, hwritten, hread, htext⟩ := hback _ hdecoded hknown
    exact ⟨_, j, hdecoded, hknown, hname, hindex, hwritten, hread, htext⟩

end Retrace.Event
