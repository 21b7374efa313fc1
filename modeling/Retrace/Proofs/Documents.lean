import Retrace.Proofs.Records
import Retrace.Proofs.Spelling
import Retrace.Report.Document

/-! Documents read back. What a document leaves out when it is written, a reader puts back: a flag
that is off, a list that is empty, the error of a trace that has none. So a document whose numbers
fit their widths is read back as it was, whatever its texts and lists hold. -/

namespace Retrace.Report

open Json (ok_bind ok_map signed_draft unsigned_draft string_draft list_draft_map)

namespace ExecutionEntry

/-- Do the numbers fit their widths? -/
structure Fits (e : ExecutionEntry) : Prop where
  eoi : FitsSigned 32 e.eoi
  ess : FitsSigned 32 e.ess
  entryTime : FitsSigned 64 e.entryTime
  exitTime : FitsSigned 64 e.exitTime

variable {e : ExecutionEntry}

theorem read_toJson (h : e.Fits) : shape.read e.toJson.draft = .ok e := by
  obtain ⟨eoi, ess, host, className, operation, entryTime, exitTime, assumed, isConstructor⟩ := e
  obtain ⟨heoi, hess, hentry, hexit⟩ := h
  have hfixed : shape.Puts
      ["eoi", "ess", "host", "class", "operation", "entry_time", "exit_time"]
      [("eoi", .int eoi), ("ess", .int ess), ("host", .str host), ("class", .str className),
        ("operation", .str operation), ("entry_time", .int entryTime), ("exit_time", .int exitTime)]
      shape.blank
      ⟨eoi, ess, host, className, operation, entryTime, exitTime, false, false⟩ := by
    refine ⟨List.Sublist.refl _, ?_⟩
    simp [Json.RecordShape.fill, shape, put, signed_draft heoi, signed_draft hess,
      signed_draft hentry, signed_draft hexit, string_draft, ok_bind, ok_map]
  have hassumed : shape.Puts ["assumed"] (if assumed then [("assumed", .bool true)] else [])
      ⟨eoi, ess, host, className, operation, entryTime, exitTime, false, false⟩
      ⟨eoi, ess, host, className, operation, entryTime, exitTime, assumed, false⟩ := by
    cases assumed with
    | false => exact .none _ _
    | true => exact .one rfl
  have hconstructor : shape.Puts ["constructor"]
      (if isConstructor then [("constructor", .bool true)] else [])
      ⟨eoi, ess, host, className, operation, entryTime, exitTime, assumed, false⟩
      ⟨eoi, ess, host, className, operation, entryTime, exitTime, assumed, isConstructor⟩ := by
    cases isConstructor with
    | false => exact .none _ _
    | true => exact .one rfl
  exact shape.read_object (by decide) ((hfixed.append hassumed).append hconstructor)
    (by simp [shape])

theorem fits_toJson (h : e.Fits) : e.toJson.Fits := by
  have heoi := Json.Fits64.of_signed (show 32 ≤ 64 by decide) h.eoi
  have hess := Json.Fits64.of_signed (show 32 ≤ 64 by decide) h.ess
  have hentry := Json.Fits64.of_signed (le_refl 64) h.entryTime
  have hexit := Json.Fits64.of_signed (le_refl 64) h.exitTime
  refine Json.fitsMembers_iff.mpr
    (List.forall_mem_append.mpr ⟨List.forall_mem_append.mpr ⟨?_, ?_⟩, ?_⟩)
  · simp [Json.Fits, heoi, hess, hentry, hexit]
  · split <;> simp [Json.Fits]
  · split <;> simp [Json.Fits]

end ExecutionEntry

namespace MessageEntry

structure Fits (m : MessageEntry) : Prop where
  timestamp : FitsSigned 64 m.timestamp
  sender : FitsSigned 32 m.sender
  receiver : FitsSigned 32 m.receiver

variable {m : MessageEntry}

theorem read_toJson (h : m.Fits) : shape.read m.toJson.draft = .ok m := by
  obtain ⟨htime, hsender, hreceiver⟩ := h
  refine shape.read_object (by decide) ⟨List.Sublist.refl _, ?_⟩ (by simp [shape])
  simp [Json.RecordShape.fill, shape, put, signed_draft htime, signed_draft hsender,
    signed_draft hreceiver, string_draft, ok_bind, ok_map]

theorem fits_toJson (h : m.Fits) : m.toJson.Fits := by
  have htime := Json.Fits64.of_signed (le_refl 64) h.timestamp
  have hsender := Json.Fits64.of_signed (show 32 ≤ 64 by decide) h.sender
  have hreceiver := Json.Fits64.of_signed (show 32 ≤ 64 by decide) h.receiver
  refine Json.fitsMembers_iff.mpr ?_
  simp [Json.Fits, htime, hsender, hreceiver]

end MessageEntry

namespace TraceEntry

structure Fits (t : TraceEntry) : Prop where
  traceId : FitsSigned 64 t.traceId
  executions : ∀ e ∈ t.executions, e.Fits
  messages : ∀ m ∈ t.messages, m.Fits
  gaps : ∀ n ∈ t.gaps, FitsSigned 32 n

variable {t : TraceEntry}

/-- A list that is left out if it is empty is missed only if it is not. -/
theorem puts_listMember {α β : Type} {shape : Json.RecordShape α} {name : String}
    {record after : α} {write : β → Json} {items : List β} (hempty : items = [] → record = after)
    (hput : shape.put record name (Json.array (items.map write)).draft = .ok after) :
    shape.Puts [name] (listMember name (items.map write)) record after := by
  cases items with
  | nil => exact hempty rfl ▸ .none [name] record
  | cons item rest => exact .one hput

theorem read_toJson (h : t.Fits) : shape.read t.toJson.draft = .ok t := by
  obtain ⟨traceId, outcome, error, executions, messages, gaps⟩ := t
  obtain ⟨htrace, hexecutions, hmessages, hgaps⟩ := h
  have hfixed : shape.Puts ["trace_id", "outcome"]
      [("trace_id", .int traceId), ("outcome", .str outcome)]
      shape.blank ⟨traceId, outcome, none, [], [], []⟩ := by
    refine ⟨List.Sublist.refl _, ?_⟩
    simp [Json.RecordShape.fill, shape, put, signed_draft htrace, string_draft, ok_bind, ok_map]
  have herror : shape.Puts ["error"] (error.map fun e => ("error", Json.str e)).toList
      ⟨traceId, outcome, none, [], [], []⟩ ⟨traceId, outcome, error, [], [], []⟩ := by
    cases error with
    | none => exact .none _ _
    | some reason => exact .one rfl
  have hexecuted : shape.Puts ["executions"]
      (listMember "executions" (executions.map (·.toJson)))
      ⟨traceId, outcome, error, [], [], []⟩ ⟨traceId, outcome, error, executions, [], []⟩ := by
    have hread := list_draft_map fun e he => ExecutionEntry.read_toJson (hexecutions e he)
    exact puts_listMember (fun h => by rw [h])
      (by simp [shape, put, hread, ok_map])
  have hsent : shape.Puts ["messages"] (listMember "messages" (messages.map (·.toJson)))
      ⟨traceId, outcome, error, executions, [], []⟩
      ⟨traceId, outcome, error, executions, messages, []⟩ := by
    have hread := list_draft_map fun m hm => MessageEntry.read_toJson (hmessages m hm)
    exact puts_listMember (fun h => by rw [h])
      (by simp [shape, put, hread, ok_map])
  have hleft : shape.Puts ["eoi_gaps"] (listMember "eoi_gaps" (gaps.map .int))
      ⟨traceId, outcome, error, executions, messages, []⟩
      ⟨traceId, outcome, error, executions, messages, gaps⟩ := by
    have hread := list_draft_map fun n hn => signed_draft (hgaps n hn)
    exact puts_listMember (fun h => by rw [h])
      (by simp [shape, put, hread, ok_map])
  exact shape.read_object (by decide)
    ((((hfixed.append herror).append hexecuted).append hsent).append hleft) (by simp [shape])

theorem fits_toJson (h : t.Fits) : t.toJson.Fits := by
  have htrace := Json.Fits64.of_signed (le_refl 64) h.traceId
  have hlist : ∀ name (items : List Json), (∀ j ∈ items, j.Fits) →
      ∀ m ∈ listMember name items, m.2.Fits := by
    intro name items hitems
    unfold listMember
    split
    · exact List.forall_mem_nil _
    · exact List.forall_mem_singleton.mpr (Json.fitsItems_iff.mpr hitems)
  have hexecutions : ∀ j ∈ t.executions.map (·.toJson), j.Fits :=
    List.forall_mem_map.mpr fun e he => ExecutionEntry.fits_toJson (h.executions e he)
  have hmessages : ∀ j ∈ t.messages.map (·.toJson), j.Fits :=
    List.forall_mem_map.mpr fun m hm => MessageEntry.fits_toJson (h.messages m hm)
  have hgaps : ∀ j ∈ t.gaps.map Json.int, j.Fits :=
    List.forall_mem_map.mpr fun n hn => Json.Fits64.of_signed (show 32 ≤ 64 by decide) (h.gaps n hn)
  refine Json.fitsMembers_iff.mpr (List.forall_mem_append.mpr ⟨List.forall_mem_append.mpr
    ⟨List.forall_mem_append.mpr ⟨List.forall_mem_append.mpr ⟨?_, ?_⟩, hlist _ _ hexecutions⟩,
      hlist _ _ hmessages⟩, hlist _ _ hgaps⟩)
  · simp [Json.Fits, htrace]
  · cases t.error <;> simp [Json.Fits]

end TraceEntry

namespace Summary

structure Fits (s : Summary) : Prop where
  total : s.total < capacity 64
  succeeded : s.succeeded < capacity 64
  partly : s.partly < capacity 64
  failed : s.failed < capacity 64
  skipped : s.skipped < capacity 64
  dropped : s.dropped < capacity 64

variable {s : Summary}

theorem read_toJson (h : s.Fits) : shape.read s.toJson.draft = .ok s := by
  obtain ⟨htotal, hsucceeded, hpartly, hfailed, hskipped, hdropped⟩ := h
  refine shape.read_object (by decide) ⟨List.Sublist.refl _, ?_⟩ (by simp [shape])
  simp [Json.RecordShape.fill, shape, put, unsigned_draft htotal, unsigned_draft hsucceeded,
    unsigned_draft hpartly, unsigned_draft hfailed, unsigned_draft hskipped,
    unsigned_draft hdropped, ok_bind, ok_map]

theorem fits_toJson (h : s.Fits) : s.toJson.Fits := by
  have hcount : ∀ n : Nat, n < capacity 64 → Json.Fits64 n := fun n hn =>
    .of_unsigned ⟨Int.natCast_nonneg n, Int.ofNat_lt.mpr hn⟩
  refine Json.fitsMembers_iff.mpr ?_
  simp [Json.Fits, hcount _ h.total, hcount _ h.succeeded, hcount _ h.partly, hcount _ h.failed,
    hcount _ h.skipped, hcount _ h.dropped]

end Summary

namespace Document

structure Fits (d : Document) : Prop where
  traces : ∀ t ∈ d.traces, t.Fits
  summary : d.summary.Fits

variable {d : Document}

theorem read_toJson (h : d.Fits) : shape.read d.toJson.draft = .ok d := by
  have htraces := list_draft_map fun t ht => TraceEntry.read_toJson (h.traces t ht)
  have hsummary := Summary.read_toJson h.summary
  refine shape.read_object (by decide) ⟨List.Sublist.refl _, ?_⟩ (by simp [shape])
  simp [Json.RecordShape.fill, shape, put, htraces, hsummary, string_draft, ok_bind, ok_map]

theorem fits_toJson (h : d.Fits) : d.toJson.Fits := by
  have htraces : ∀ j ∈ d.traces.map (·.toJson), j.Fits :=
    List.forall_mem_map.mpr fun t ht => TraceEntry.fits_toJson (h.traces t ht)
  exact ⟨trivial, trivial, Json.fitsItems_iff.mpr htraces, Summary.fits_toJson h.summary, trivial⟩

/-- A document is read back from its text as it was, so it is written the same way again. -/
theorem read_write (h : d.Fits) :
    read d.write = .ok d ∧ (read d.write).map write = .ok d.write := by
  have hspells := Json.spells_prettyChars 1 d.toJson (fits_toJson h)
  have hdecode := Json.decode_of_spells Json.spaces_nil hspells Json.spaces_nil (read_toJson h)
  have hread : read d.write = .ok d := by
    rw [List.nil_append, List.append_nil] at hdecode
    rw [read, write, Json.pretty, String.toList_ofList]
    exact hdecode
  rw [hread]
  exact ⟨rfl, rfl⟩

/-- A trace with all there is, the lowest and the highest numbers among it, and one with nothing. -/
def mixedDocument : Document where
  version := "\x00"
  format := "]\n\"\\"
  traces :=
    [{ traceId := -9223372036854775808, outcome := "", error := some "null"
       executions :=
        [⟨0, -2147483648, "\x7f", "\u2028", "😀", -1, 9223372036854775807, true, false⟩,
         ⟨2147483647, 0, "", "", "", 0, 0, false, true⟩]
       messages := [⟨"call", 0, -1, 2147483647⟩]
       gaps := [-1, 0] },
     { traceId := 0, outcome := "skipped" }]
  summary := { total := 18446744073709551615 }

theorem mixedDocument_read_write :
    mixedDocument.Fits ∧ read mixedDocument.write = .ok mixedDocument ∧
      (read mixedDocument.write).map write = .ok mixedDocument.write := by
  have hexecutions : ∀ e ∈ (mixedDocument.traces.flatMap (·.executions)), e.Fits :=
    List.forall_mem_cons.mpr ⟨⟨by decide, by decide, by decide, by decide⟩,
      List.forall_mem_singleton.mpr ⟨by decide, by decide, by decide, by decide⟩⟩
  have hfits : mixedDocument.Fits := by
    refine ⟨List.forall_mem_cons.mpr ⟨⟨by decide, hexecutions, ?_, by decide⟩,
      List.forall_mem_singleton.mpr ⟨by decide, ?_, ?_, by decide⟩⟩,
      ⟨by decide, by decide, by decide, by decide, by decide, by decide⟩⟩
    · exact List.forall_mem_singleton.mpr ⟨by decide, by decide, by decide⟩
    · exact List.forall_mem_nil _
    · exact List.forall_mem_nil _
  exact ⟨hfits, read_write hfits⟩

end Document

end Retrace.Report
