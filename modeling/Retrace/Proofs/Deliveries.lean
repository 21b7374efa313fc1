import Retrace.Batch
import Retrace.Proofs.Records
import Retrace.Proofs.Spelling

/-! Deliveries. A batch of known events whose numbers fit their widths can be written, and it is
read back, whatever its texts hold: as an item of an array, or from a line of its own. A written
batch begins with a brace, so a file of lines is not taken for an array, and it holds no line end,
so it is not cut. -/

namespace Retrace

/-! ## What can be written -/

/-- Do the numbers fit their widths? -/
structure Stamp.Fits (s : Stamp) : Prop where
  timestamp : FitsSigned 64 s.timestamp
  traceId : FitsSigned 64 s.traceId
  orderIndex : FitsSigned 32 s.orderIndex

instance (s : Stamp) : Decidable s.Fits :=
  decidable_of_iff
    (FitsSigned 64 s.timestamp ∧ FitsSigned 64 s.traceId ∧ FitsSigned 32 s.orderIndex)
    ⟨fun ⟨htime, htrace, hindex⟩ => ⟨htime, htrace, hindex⟩,
      fun ⟨htime, htrace, hindex⟩ => ⟨htime, htrace, hindex⟩⟩

structure TraceInfo.Fits (info : TraceInfo) : Prop where
  traceId : FitsSigned 64 info.traceId
  threadId : FitsSigned 64 info.threadId
  parentTraceId : ∀ n ∈ info.parentTraceId, FitsSigned 64 n
  parentOrderId : ∀ n ∈ info.parentOrderId, FitsSigned 32 n

instance (info : TraceInfo) : Decidable info.Fits :=
  decidable_of_iff (FitsSigned 64 info.traceId ∧ FitsSigned 64 info.threadId ∧
      (∀ n ∈ info.parentTraceId, FitsSigned 64 n) ∧ ∀ n ∈ info.parentOrderId, FitsSigned 32 n)
    ⟨fun ⟨htrace, hthread, hparent, horder⟩ => ⟨htrace, hthread, hparent, horder⟩,
      fun ⟨htrace, hthread, hparent, horder⟩ => ⟨htrace, hthread, hparent, horder⟩⟩

def Event.isKnown : Event → Bool
  | unknown _ _ => false
  | _ => true

/-- Can the batch be written? -/
structure Batch.Writable (b : Batch) : Prop where
  trace : b.trace.Fits
  known : ∀ e ∈ b.events, e.isKnown = true
  stamps : ∀ e ∈ b.events, e.stamp.Fits

instance (b : Batch) : Decidable b.Writable :=
  decidable_of_iff
    (b.trace.Fits ∧ (∀ e ∈ b.events, e.isKnown = true) ∧ ∀ e ∈ b.events, e.stamp.Fits)
    ⟨fun ⟨htrace, hknown, hstamps⟩ => ⟨htrace, hknown, hstamps⟩,
      fun ⟨htrace, hknown, hstamps⟩ => ⟨htrace, hknown, hstamps⟩⟩

/-! ## Events -/

namespace Event

section Wire

variable {field : String → Option Json}

theorem readStamp?_of_fits {s : Stamp} (hfits : s.Fits)
    (htime : field "timestamp" = some (.int s.timestamp))
    (htrace : field "trace_id" = some (.int s.traceId))
    (hindex : field "order_index" = some (.int s.orderIndex)) : readStamp? field = some s := by
  simp [readStamp?, htime, htrace, hindex, Json.required, Json.signed?, hfits.timestamp,
    hfits.traceId, hfits.orderIndex]

theorem readOperation?_of_str {operation : OperationRef} {signature owner : String}
    (hsignature : field signature = some (.str operation.signature))
    (howner : field owner = some (.str operation.owner)) :
    readOperation? field signature owner = some operation := by
  simp [readOperation?, hsignature, howner, Json.required, Json.optional, Json.str?]

section Layouts

variable {stamp : Stamp} {subject callee : OperationRef} (hstamp : readStamp? field = some stamp)
  (hsubject : readOperation? field "operation_signature" "class_signature" = some subject)
include hstamp

theorem Layout.read?_split : Layout.split.read? field = some (.split stamp) := by
  simp [Layout.read?, hstamp]

include hsubject

theorem Layout.read?_operation (make : Stamp → OperationRef → Event) :
    (Layout.operation make).read? field = some (make stamp subject) := by
  simp [Layout.read?, hstamp, hsubject]

theorem Layout.read?_failure {cause : String} (make : Stamp → OperationRef → String → Event)
    (hcause : field "cause" = some (.str cause)) :
    (Layout.failure make).read? field = some (make stamp subject cause) := by
  simp [Layout.read?, hstamp, hsubject, hcause, Json.optional, Json.str?]

theorem Layout.read?_call (make : Stamp → OperationRef → OperationRef → Event)
    (hcallee : readOperation? field "callee_operation_signature" "callee_class_signature" =
      some callee) : (Layout.call make).read? field = some (make stamp subject callee) := by
  simp [Layout.read?, hstamp, hsubject, hcallee]

end Layouts

/-- An event of a known type is read by the layout of its type. -/
theorem ofMembers?_of_layout {typeName : String} {layout : Layout}
    {members : List (String × Json)} (hlayout : layout? typeName = some layout)
    (htype : Json.lastMember? "type" members = some (.str typeName)) :
    ofMembers? members = layout.read? fun name => Json.lastMember? name members := by
  simp [ofMembers?, htype, hlayout, Json.required, Json.str?]

end Wire

/-- A written event is read back. -/
theorem ofMembers?_members {e : Event} {members : List (String × Json)} (hfits : e.stamp.Fits)
    (h : e.members? = some members) :
    ofMembers? (("type", .str e.typeName) :: members) = some e := by
  cases e with
  | unknown name stamp => cases h
  | split stamp =>
    cases h
    rw [ofMembers?_of_layout rfl rfl]
    exact Layout.read?_split (readStamp?_of_fits hfits rfl rfl rfl)
  | before kind stamp operation =>
    cases h
    have hlayout : layout? (before kind stamp operation).typeName =
        some (.operation (before kind)) := by cases kind <;> rfl
    rw [ofMembers?_of_layout hlayout rfl]
    exact Layout.read?_operation (readStamp?_of_fits hfits rfl rfl rfl)
      (readOperation?_of_str rfl rfl) _
  | after kind stamp operation =>
    cases h
    have hlayout : layout? (after kind stamp operation).typeName =
        some (.operation (after kind)) := by cases kind <;> rfl
    rw [ofMembers?_of_layout hlayout rfl]
    exact Layout.read?_operation (readStamp?_of_fits hfits rfl rfl rfl)
      (readOperation?_of_str rfl rfl) _
  | afterFailed kind stamp operation cause =>
    cases h
    have hlayout : layout? (afterFailed kind stamp operation cause).typeName =
        some (.failure (afterFailed kind)) := by cases kind <;> rfl
    rw [ofMembers?_of_layout hlayout rfl]
    exact Layout.read?_failure (readStamp?_of_fits hfits rfl rfl rfl)
      (readOperation?_of_str rfl rfl) _ rfl
  | call kind stamp caller callee =>
    cases h
    have hlayout : layout? (call kind stamp caller callee).typeName =
        some (.call (call kind)) := by cases kind <;> rfl
    rw [ofMembers?_of_layout hlayout rfl]
    exact Layout.read?_call (readStamp?_of_fits hfits rfl rfl rfl)
      (readOperation?_of_str rfl rfl) _ (readOperation?_of_str rfl rfl)

/-- The members of a written event are strings and numbers that fit. -/
theorem scalar_of_mem_members {e : Event} {members : List (String × Json)} (hfits : e.stamp.Fits)
    (h : e.members? = some members) : ∀ m ∈ members, m.2.Fits ∧ m.2.depth = 0 := by
  have hstamp : ∀ m ∈ stampMembers e.stamp, m.2.Fits ∧ m.2.depth = 0 := by
    have htime := Json.Fits64.of_signed (le_refl 64) hfits.timestamp
    have htrace := Json.Fits64.of_signed (le_refl 64) hfits.traceId
    have hindex := Json.Fits64.of_signed (show 32 ≤ 64 by decide) hfits.orderIndex
    simp [stampMembers, Json.Fits, Json.depth, htime, htrace, hindex]
  have hsubject : ∀ o, ∀ m ∈ operationMembers o, m.2.Fits ∧ m.2.depth = 0 := by
    simp [operationMembers, Json.Fits, Json.depth]
  have hcallee : ∀ o, ∀ m ∈ calleeMembers o, m.2.Fits ∧ m.2.depth = 0 := by
    simp [calleeMembers, Json.Fits, Json.depth]
  cases e with
  | unknown name stamp => cases h
  | split stamp => cases h; exact hstamp
  | before kind stamp operation =>
    cases h
    exact List.forall_mem_append.mpr ⟨hstamp, hsubject operation⟩
  | after kind stamp operation =>
    cases h
    exact List.forall_mem_append.mpr ⟨hstamp, hsubject operation⟩
  | afterFailed kind stamp operation cause =>
    cases h
    refine List.forall_mem_append.mpr ⟨List.forall_mem_append.mpr ⟨hstamp, hsubject operation⟩, ?_⟩
    simp [Json.Fits, Json.depth]
  | call kind stamp caller callee =>
    cases h
    exact List.forall_mem_append.mpr
      ⟨List.forall_mem_append.mpr ⟨hstamp, hsubject caller⟩, hcallee callee⟩

theorem exists_json {e : Event} (hknown : e.isKnown = true) (hfits : e.stamp.Fits) :
    ∃ j, (e.toJson? = some j ∧ ofJson? j = some e) ∧ j.Fits ∧ j.depth ≤ 1 := by
  obtain ⟨members, hmembers⟩ : ∃ members, e.members? = some members := by
    cases e with
    | unknown name stamp => simp [isKnown] at hknown
    | _ => exact ⟨_, rfl⟩
  have hscalar : ∀ m ∈ ("type", Json.str e.typeName) :: members, m.2.Fits ∧ m.2.depth = 0 :=
    List.forall_mem_cons.mpr ⟨⟨trivial, rfl⟩, scalar_of_mem_members hfits hmembers⟩
  refine ⟨.object (("type", .str e.typeName) :: members), ⟨?_, ?_⟩, ?_, ?_⟩
  · rw [toJson?, hmembers, Option.map_some]
  · exact ofMembers?_members hfits hmembers
  · exact Json.fitsMembers_iff.mpr fun m hm => (hscalar m hm).1
  · rw [Json.depth]
    exact Nat.succ_le_succ (Json.membersDepth_le_iff.mpr fun m hm => (hscalar m hm).2.le)

end Event

/-! ## Batches -/

namespace TraceInfo

theorem fits_toJson {info : TraceInfo} (h : info.Fits) : info.toJson.Fits := by
  have htrace := Json.Fits64.of_signed (le_refl 64) h.traceId
  have hthread := Json.Fits64.of_signed (le_refl 64) h.threadId
  have hparent : ∀ n, info.parentTraceId = some n → Json.Fits64 n := fun n hn =>
    .of_signed (le_refl 64) (h.parentTraceId n hn)
  have horder : ∀ n, info.parentOrderId = some n → Json.Fits64 n := fun n hn =>
    .of_signed (show 32 ≤ 64 by decide) (h.parentOrderId n hn)
  refine Json.fitsMembers_iff.mpr
    (List.forall_mem_append.mpr ⟨List.forall_mem_append.mpr ⟨?_, ?_⟩, ?_⟩)
  · simp [Json.Fits, htrace, hthread]
  · simpa [Json.Fits] using hparent
  · simpa [Json.Fits] using horder

theorem read_toJson {info : TraceInfo} (h : info.Fits) :
    shape.read info.toJson.draft = .ok info := by
  obtain ⟨traceId, threadId, sessionId, hostname, parentTraceId, parentOrderId⟩ := info
  obtain ⟨htrace, hthread, hparent, horder⟩ := h
  have hfixed : shape.Puts ["trace_id", "thread_id", "session_id", "hostname"]
      [("trace_id", .int traceId), ("thread_id", .int threadId), ("session_id", .str sessionId),
        ("hostname", .str hostname)]
      shape.blank ⟨traceId, threadId, sessionId, hostname, none, none⟩ := by
    refine ⟨List.Sublist.refl _, ?_⟩
    simp [Json.RecordShape.fill, shape, put, Json.signed_draft htrace, Json.signed_draft hthread,
      Json.string_draft, Json.ok_bind, Json.ok_map]
  have hparents : shape.Puts ["parent_trace_id"]
      (parentTraceId.map fun n => ("parent_trace_id", Json.int n)).toList
      ⟨traceId, threadId, sessionId, hostname, none, none⟩
      ⟨traceId, threadId, sessionId, hostname, parentTraceId, none⟩ := by
    cases parentTraceId with
    | none => exact .none _ _
    | some n =>
      have hread := Json.optional_draft Json.noConfusion (Json.signed_draft (hparent n rfl))
      exact .one (by simp [shape, put, hread, Json.ok_map])
  have horders : shape.Puts ["parent_order_id"]
      (parentOrderId.map fun n => ("parent_order_id", Json.int n)).toList
      ⟨traceId, threadId, sessionId, hostname, parentTraceId, none⟩
      ⟨traceId, threadId, sessionId, hostname, parentTraceId, parentOrderId⟩ := by
    cases parentOrderId with
    | none => exact .none _ _
    | some n =>
      have hread := Json.optional_draft Json.noConfusion (Json.signed_draft (horder n rfl))
      exact .one (by simp [shape, put, hread, Json.ok_map])
  exact shape.read_object (by decide) ((hfixed.append hparents).append horders) (by simp [shape])

end TraceInfo

namespace Batch

theorem readEvents_draft {events : List Event} {items : List Json} {room : Nat}
    (h : List.Forall₂ (fun e j => Event.ofJson? j = some e) events items)
    (hroom : ∀ j ∈ items, j.depth ≤ room) :
    readEvents room (Json.array items).draft = .ok events := by
  have hvalues : (Json.array items).draft.list (·.value room) = .ok items :=
    Json.list_draft (List.forall₂_same.mpr fun j hj => Json.value_draft j room (hroom j hj))
  rw [readEvents, hvalues]
  simp only [Json.mapM_of_forall₂ h.flip]

/-- The values in a batch are nested three deep: the batch, the list of its events, and an event. -/
theorem exists_json {b : Batch} (h : b.Writable) : ∃ j, b.toJson? = some j ∧ j.Fits ∧
    ∀ room, 3 ≤ room → (shape room).read j.draft = .ok b := by
  obtain ⟨items, hitems, hshallow⟩ := Json.exists_forall₂ fun e he =>
    Event.exists_json (h.known e he) (h.stamps e he)
  have hwritten : b.events.mapM Event.toJson? = some items :=
    Json.mapM_of_forall₂ (hitems.imp fun _ _ h => h.1)
  refine ⟨_, by rw [toJson?, hwritten, Option.map_some], ?_, fun room hroom => ?_⟩
  · have hfits := Json.fitsItems_iff.mpr fun j hj => (hshallow j hj).1
    exact ⟨TraceInfo.fits_toJson h.trace, hfits, trivial⟩
  · have hevents := readEvents_draft (hitems.imp fun _ _ h => h.2) fun j hj =>
      (hshallow j hj).2.trans (show 1 ≤ room - 2 by omega)
    refine (shape room).read_object (by simp [shape]) ⟨List.Sublist.refl _, ?_⟩ (by simp [shape])
    simp [Json.RecordShape.fill, shape, put, TraceInfo.read_toJson h.trace, hevents, Json.ok_bind,
      Json.ok_map]

end Batch

/-! ## Lines -/

/-- Are the lines these texts, with blank lines anywhere between them? A line may end with a
carriage return. -/
inductive OnLines : List String → List String → Prop where
  | done : OnLines [] []
  | blank {line : String} {texts lines : List String} : Text.allBlank line.toList = true →
      '\n' ∉ line.toList → OnLines texts lines → OnLines texts (line :: lines)
  | text {text ending : String} {texts lines : List String} : ending = "" ∨ ending = "\r" →
      OnLines texts lines → OnLines (text :: texts) ((text ++ ending) :: lines)

namespace Text

/-- The lines of a text that was cut at its line feeds. -/
def finished (pieces : List (List Char)) : List (List Char) :=
  pieces.dropLast.map dropReturn ++ (pieces.getLast?.toList.filter (!·.isEmpty))

theorem lines_intercalate {pieces : List (List Char)} (h : ∀ piece ∈ pieces, '\n' ∉ piece) :
    lines (['\n'].intercalate pieces) = finished pieces := by
  cases pieces with
  | nil => rfl
  | cons piece rest =>
    rw [lines, List.splitOn_intercalate '\n' h (List.cons_ne_nil _ _)]
    rfl

theorem finished_cons_cons (piece next : List Char) (rest : List (List Char)) :
    finished (piece :: next :: rest) = dropReturn piece :: finished (next :: rest) := by
  simp [finished]

theorem finished_singleton (piece : List Char) :
    finished [piece] = if piece.isEmpty then [] else [piece] := by
  cases piece <;> rfl

theorem allBlank_dropReturn {line : List Char} (h : allBlank line = true) :
    allBlank (dropReturn line) = true := by
  unfold dropReturn
  split
  · rw [allBlank, List.all_eq_true] at h ⊢
    exact fun c hc => h c (List.dropLast_subset line hc)
  · exact h

end Text

namespace Batch

/-- Is the text a batch written on one line? -/
structure IsRow (b : Batch) (text : String) : Prop where
  opens : ∃ rest, text.toList = '{' :: rest
  closes : text.toList.getLast? = some '}'
  oneLine : '\n' ∉ text.toList
  reads : ∀ gap, Json.Spaces gap →
    Json.decode (shape Json.maxDepth).read (text.toList ++ gap) = .ok b

/-- A batch that can be written fits on a line, and in an array. -/
theorem exists_row {b : Batch} (h : b.Writable) :
    ∃ j : Json, (b.write? = some j.compact ∧ b.IsRow j.compact ∧
      (shape (Json.maxDepth - 1)).read j.draft = .ok b) ∧ j.Fits := by
  obtain ⟨j, hj, hfits, hread⟩ := exists_json h
  obtain ⟨members, rfl⟩ : ∃ members, j = .object members := by
    obtain ⟨items, -, rfl⟩ := Option.map_eq_some_iff.mp hj
    exact ⟨_, rfl⟩
  have htext : (Json.object members).compact.toList = (Json.object members).compactChars :=
    String.toList_ofList
  have hbrace : (Json.object members).compactChars =
      '{' :: (Json.compactMembers members ++ ['}']) := by
    rw [Json.compactChars]
    rfl
  have hrow : b.IsRow (Json.object members).compact := by
    refine ⟨⟨_, htext.trans hbrace⟩, ?_, ?_, fun gap hgap => ?_⟩
    · rw [htext, hbrace, ← List.cons_append, List.getLast?_append]
      rfl
    · rw [htext]
      exact Json.newline_not_mem_compactChars _
    have hspells := Json.spells_compactChars _ hfits
    have hdecode := Json.decode_of_spells Json.spaces_nil hspells hgap
      (hread Json.maxDepth (by decide))
    rwa [List.nil_append, ← htext] at hdecode
  exact ⟨_, ⟨by rw [write?, hj, Option.map_some], hrow, hread _ (by decide)⟩, hfits⟩

/-- What the first of several lines does to the batches on the others, it does whether or not it
loses a carriage return, and whether or not it ends with a line feed. -/
theorem readLines_finished {piece : List Char} {pieces : List (List Char)} {number : Nat}
    {batches : List Batch} {f : List Batch → List Batch}
    (hempty : piece = [] → f [] = [])
    (hpiece : ∀ line, line = piece ∨ line = Text.dropReturn piece → ∀ rest later,
      readLines rest = .ok later → readLines ((line, number) :: rest) = .ok (f later))
    (hrest : readLines ((Text.finished pieces).zipIdx (number + 1)) = .ok batches) :
    readLines ((Text.finished (piece :: pieces)).zipIdx number) = .ok (f batches) := by
  cases pieces with
  | nil =>
    cases hrest
    rw [Text.finished_singleton]
    split
    · rename_i h
      rw [hempty (List.isEmpty_iff.mp h)]
      rfl
    · exact hpiece piece (.inl rfl) [] [] rfl
  | cons next pieces =>
    rw [Text.finished_cons_cons, List.zipIdx_cons]
    exact hpiece _ (.inr rfl) _ _ hrest

theorem IsRow.readLines {b : Batch} {text : String} (h : b.IsRow text) {gap : List Char}
    (hgap : Json.Spaces gap) {number : Nat} {rest : List (List Char × Nat)} {later : List Batch}
    (hrest : Batch.readLines rest = .ok later) :
    Batch.readLines ((text.toList ++ gap, number) :: rest) = .ok (b :: later) := by
  obtain ⟨chars, hchars⟩ := h.opens
  have hnot : Text.allBlank (text.toList ++ gap) = false := by
    rw [hchars]
    rfl
  rw [Batch.readLines, hnot]
  simp only [Bool.false_eq_true, if_false, h.reads gap hgap, hrest]
  rfl

theorem IsRow.exists_gap {b : Batch} {text ending : String} (h : b.IsRow text)
    (hending : ending = "" ∨ ending = "\r") {line : List Char}
    (hline : line = (text ++ ending).toList ∨ line = Text.dropReturn (text ++ ending).toList) :
    ∃ gap, Json.Spaces gap ∧ line = text.toList ++ gap := by
  have hclose : Text.dropReturn text.toList = text.toList := by rw [Text.dropReturn, h.closes]; rfl
  have hdrop : Text.dropReturn (text.toList ++ ['\r']) = text.toList := by simp [Text.dropReturn]
  have hspace : Json.Spaces ['\r'] := by simp [Json.Spaces, Json.isSpace]
  rw [String.toList_append] at hline
  rcases hending with rfl | rfl
  · rcases hline with rfl | rfl
    · exact ⟨[], Json.spaces_nil, rfl⟩
    · exact ⟨[], Json.spaces_nil, by simpa using hclose⟩
  · rcases hline with rfl | rfl
    · exact ⟨['\r'], hspace, rfl⟩
    · exact ⟨[], Json.spaces_nil, by simpa using hdrop⟩

theorem readLines_onLines {batches : List Batch} {texts lines : List String}
    (hrows : List.Forall₂ IsRow batches texts) (hlines : OnLines texts lines) (number : Nat) :
    readLines ((Text.finished (lines.map String.toList)).zipIdx number) = .ok batches := by
  induction hlines generalizing batches number with
  | done =>
    cases hrows
    rfl
  | @blank line texts lines hblank _ hlines ih =>
    refine readLines_finished (f := id) (fun _ => rfl) (fun line' hline rest later hrest => ?_)
      (ih hrows _)
    have hskipped : Text.allBlank line' = true := by
      rcases hline with rfl | rfl
      · exact hblank
      · exact Text.allBlank_dropReturn hblank
    rw [readLines, if_pos hskipped]
    exact hrest
  | @text text ending texts lines hending hlines ih =>
    cases hrows with
    | @cons b _ batches _ hrow hrows =>
      refine readLines_finished (f := (b :: ·)) (fun hempty => ?_)
        (fun line hline rest later hrest => ?_) (ih hrows _)
      · obtain ⟨chars, hchars⟩ := hrow.opens
        simp [hchars] at hempty
      · obtain ⟨gap, hgap, rfl⟩ := hrow.exists_gap hending hline
        exact hrow.readLines hgap hrest

/-- A text of lines begins with a brace, blanks apart. -/
theorem head_trimStart_lines {batches : List Batch} {texts lines : List String}
    (hrows : List.Forall₂ IsRow batches texts) (hlines : OnLines texts lines) :
    ∀ c ∈ (Text.trimStart (['\n'].intercalate (lines.map String.toList))).head?, c = '{' := by
  induction hlines generalizing batches with
  | done => simp [Text.trimStart]
  | @blank line texts lines hblank _ hlines ih =>
    have hall : ∀ c ∈ line.toList, Text.isBlank c = true := List.all_eq_true.mp hblank
    cases lines with
    | nil =>
      rw [List.map_singleton, List.intercalate_singleton, Text.trimStart,
        List.dropWhile_eq_nil_iff.mpr hall]
      simp
    | cons next lines =>
      rw [List.map_cons, List.map_cons, List.intercalate_cons_cons, List.append_assoc,
        Text.trimStart, List.dropWhile_append_of_pos hall]
      exact ih hrows
  | @text text ending texts lines _ _ _ =>
    cases hrows with
    | cons hrow _ =>
      obtain ⟨chars, hchars⟩ := hrow.opens
      rw [List.map_cons, String.toList_append, hchars, List.cons_append,
        List.intercalate_cons_cons_left]
      simp [Text.trimStart, Text.isBlank]

theorem oneLine_of_onLines {batches : List Batch} {texts lines : List String}
    (hrows : List.Forall₂ IsRow batches texts) (hlines : OnLines texts lines) :
    ∀ piece ∈ lines.map String.toList, '\n' ∉ piece := by
  induction hlines generalizing batches with
  | done => exact List.forall_mem_nil _
  | blank _ honeLine _ ih => exact List.forall_mem_cons.mpr ⟨honeLine, ih hrows⟩
  | @text text ending texts lines hending _ ih =>
    cases hrows with
    | cons hrow hrows =>
      refine List.forall_mem_cons.mpr ⟨?_, ih hrows⟩
      rcases hending with rfl | rfl <;> simp [hrow.oneLine]

theorem readAll_onLines {batches : List Batch} {texts lines : List String}
    (hrows : List.Forall₂ IsRow batches texts) (hlines : OnLines texts lines) :
    readAll ("\n".intercalate lines) = .ok batches := by
  have htext : ("\n".intercalate lines).toList = ['\n'].intercalate (lines.map String.toList) :=
    String.toList_intercalate
  have hhead : (Text.trimStart (['\n'].intercalate (lines.map String.toList))).head? ≠ some '[' :=
    fun h => absurd (head_trimStart_lines hrows hlines '[' h) (by decide)
  rw [readAll, htext, if_neg hhead, Text.lines_intercalate (oneLine_of_onLines hrows hlines)]
  exact readLines_onLines hrows hlines 1

/-! ## An array -/

theorem readAll_array {batches : List Batch} {items : List Json}
    (hread : List.Forall₂ (fun b j => (shape (Json.maxDepth - 1)).read j.draft = .ok b)
      batches items) (hfits : ∀ j ∈ items, j.Fits) :
    readAll ("[" ++ ",".intercalate (items.map Json.compact) ++ "]") = .ok batches := by
  have htext : ("[" ++ ",".intercalate (items.map Json.compact) ++ "]").toList =
      (Json.array items).compactChars := by
    simp [Json.compactChars, Json.compactItems_eq, Json.compact, Function.comp_def]
  have hspells := Json.spells_compactChars (.array items) (Json.fitsItems_iff.mpr hfits)
  have hdecode := Json.decode_of_spells Json.spaces_nil hspells Json.spaces_nil
    (Json.list_draft hread)
  rw [List.nil_append, List.append_nil] at hdecode
  have hhead : (Text.trimStart (Json.array items).compactChars).head? = some '[' := rfl
  rw [readAll, htext, if_pos hhead, hdecode]

end Batch

/-- Batches of known events whose numbers fit their widths can be written, and are read back from an
array of them and from lines with blank lines between them. -/
theorem deliveries_read_back {batches : List Batch} (h : ∀ b ∈ batches, b.Writable) :
    ∃ texts, batches.mapM Batch.write? = some texts ∧
      Batch.readAll ("[" ++ ",".intercalate texts ++ "]") = .ok batches ∧
      ∀ lines, OnLines texts lines → Batch.readAll ("\n".intercalate lines) = .ok batches := by
  obtain ⟨items, hitems, hfits⟩ := Json.exists_forall₂ fun b hb => Batch.exists_row (h b hb)
  have hwritten : batches.mapM Batch.write? = some (items.map Json.compact) :=
    Json.mapM_of_forall₂ (List.forall₂_map_right_iff.mpr (hitems.imp fun _ _ h => h.1))
  have hrows : List.Forall₂ Batch.IsRow batches (items.map Json.compact) :=
    List.forall₂_map_right_iff.mpr (hitems.imp fun _ _ h => h.2.1)
  refine ⟨items.map Json.compact, hwritten, ?_, fun lines hlines => ?_⟩
  · exact Batch.readAll_array (hitems.imp fun _ _ h => h.2.2) hfits
  · exact Batch.readAll_onLines hrows hlines

/-- The earliest and the latest time there is, a trace with parents and one without events, and
texts with all that could be taken for a line end or a layout. -/
def oddDelivery : List Batch :=
  [{ trace :=
      { traceId := -9223372036854775808, sessionId := "\n[\r\n", hostname := "\u2028\u0085"
        parentTraceId := some 0, parentOrderId := some (-2147483648) }
     events :=
      [.call .constructor ⟨9223372036854775807, -9223372036854775808, 0⟩ ⟨"", "\""⟩
         ⟨"\\u0000", ""⟩,
       .afterFailed .operation ⟨-9223372036854775808, 7, 2147483647⟩ ⟨"\x00\x1f", "😀"⟩
         "]\x7d",
       .split ⟨0, 0, -1⟩] },
   { trace := { traceId := 1 } }]

theorem oddDelivery_read_back :
    (∀ b ∈ oddDelivery, b.Writable) ∧
    ∃ first second, oddDelivery.mapM Batch.write? = some [first, second] ∧
      Batch.readAll ("[" ++ first ++ "," ++ second ++ "]") = .ok oddDelivery ∧
      Batch.readAll ("\n".intercalate ["", first ++ "\r", " \t", second]) = .ok oddDelivery := by
  have hwritable : ∀ b ∈ oddDelivery, b.Writable := by decide
  obtain ⟨texts, htexts, harray, hlines⟩ := deliveries_read_back hwritable
  obtain ⟨first, second, rfl⟩ : ∃ first second, texts = [first, second] :=
    ⟨_, _, (Option.some.inj (htexts.symm.trans rfl))⟩
  refine ⟨hwritable, first, second, htexts, ?_, ?_⟩
  · simpa [String.append_assoc] using harray
  · have honLines : OnLines [first, second] ["", first ++ "\r", " \t", second ++ ""] :=
      .blank rfl (by decide) (.text (.inr rfl) (.blank rfl (by decide) (.text (.inl rfl) .done)))
    rw [String.append_empty] at honLines
    exact hlines _ honLines

end Retrace
