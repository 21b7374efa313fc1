import Mathlib.Data.List.Chain
import Mathlib.Data.List.Nodup
import Retrace.Execution

/-! Arrival of executions. Executions reach a trace in the order in which they end, and the trace
keeps them by `eoi`. An accepted execution is put in without losing another one, so a trace built by
`add` alone is strictly ascending, whatever the order of arrival. -/

namespace Retrace.ExecutionTrace

theorem mem_insert {e x : Execution} {es : List Execution} : x ∈ insert e es ↔ x = e ∨ x ∈ es := by
  induction es with
  | nil => simp [insert]
  | cons d rest ih =>
    simp only [insert]
    split
    · simp
    · simp only [List.mem_cons, ih]
      exact or_left_comm

theorem insert_perm (e : Execution) (es : List Execution) : (insert e es).Perm (e :: es) := by
  induction es with
  | nil => exact List.Perm.refl _
  | cons d rest ih =>
    simp only [insert]
    split
    · exact List.Perm.refl _
    · exact (ih.cons d).trans (List.Perm.swap e d rest)

/-- Are the executions strictly ascending by `eoi`? -/
def Ascending (es : List Execution) : Prop :=
  es.Pairwise fun d e => d.eoi < e.eoi

theorem insert_sorted {e : Execution} {es : List Execution}
    (hs : es.Pairwise fun d e => d.eoi ≤ e.eoi) :
    (insert e es).Pairwise fun d e => d.eoi ≤ e.eoi := by
  induction es with
  | nil => exact List.pairwise_singleton _ _
  | cons d rest ih =>
    obtain ⟨hd, hrest⟩ := List.pairwise_cons.mp hs
    simp only [insert]
    split
    · rename_i hlt
      refine List.pairwise_cons.mpr ⟨?_, hs⟩
      intro x hx
      rcases List.mem_cons.mp hx with rfl | hx
      · exact Int.le_of_lt hlt
      · exact Int.le_trans (Int.le_of_lt hlt) (hd x hx)
    · rename_i hge
      refine List.pairwise_cons.mpr ⟨?_, ih hrest⟩
      intro x hx
      rcases mem_insert.mp hx with rfl | hx
      · exact Int.not_lt.mp hge
      · exact hd x hx

theorem Ascending.nodup_eoi {es : List Execution} (h : Ascending es) :
    (es.map (·.eoi)).Nodup :=
  List.pairwise_map.mpr (h.imp fun hlt heq => Int.ne_of_lt hlt heq)

theorem Ascending.eq_of_eoi {es : List Execution} (h : Ascending es) {d e : Execution}
    (hd : d ∈ es) (he : e ∈ es) (heoi : d.eoi = e.eoi) : d = e :=
  List.inj_on_of_nodup_map h.nodup_eoi hd he heoi

/-- Places that are taken once make a sorted list strictly ascending. -/
theorem ascending_of_sorted {es : List Execution} (hs : es.Pairwise fun d e => d.eoi ≤ e.eoi)
    (hn : (es.map (·.eoi)).Nodup) : Ascending es :=
  (hs.and (List.pairwise_map.mp hn)).imp fun ⟨hle, hne⟩ => by omega

theorem Ascending.insert {e : Execution} {es : List Execution} (hs : Ascending es)
    (hf : ∀ d ∈ es, d.eoi ≠ e.eoi) : Ascending (insert e es) := by
  refine ascending_of_sorted (insert_sorted (hs.imp Int.le_of_lt)) ?_
  rw [((insert_perm e es).map _).nodup_iff, List.map_cons, List.nodup_cons]
  refine ⟨?_, hs.nodup_eoi⟩
  intro hmem
  obtain ⟨d, hd, heoi⟩ := List.mem_map.mp hmem
  exact hf d hd heoi

theorem get?_eq_none_iff {t : ExecutionTrace} {eoi : Int} :
    t.get? eoi = none ↔ ∀ e ∈ t.executions, e.eoi ≠ eoi := by
  simp [get?, List.find?_eq_none]

/-- What an accepted execution was checked for, and where it went. -/
theorem add_eq_ok {t u : ExecutionTrace} {e : Execution} (h : t.add e = .ok u) :
    e.traceId = t.traceId ∧ e.entryTime ≤ e.exitTime ∧ (∀ d ∈ t.executions, d.eoi ≠ e.eoi) ∧
      u = { t with executions := insert e t.executions } := by
  unfold add at h
  split at h
  · cases h
  · rename_i hid
    split at h
    · cases h
    · rename_i htime
      split at h
      · cases h
      · rename_i hfree
        have hnone : t.get? e.eoi = none := by simpa using hfree
        exact ⟨not_not.mp hid, Int.not_lt.mp htime, get?_eq_none_iff.mp hnone,
          (Except.ok.inj h).symm⟩

theorem add_of_fresh {t : ExecutionTrace} {e : Execution} (hid : e.traceId = t.traceId)
    (htime : e.entryTime ≤ e.exitTime) (hfree : ∀ d ∈ t.executions, d.eoi ≠ e.eoi) :
    t.add e = .ok { t with executions := insert e t.executions } := by
  have hnone := get?_eq_none_iff.mpr hfree
  simp [add, hid, Int.not_lt.mpr htime, hnone]

theorem add_of_backwards {t : ExecutionTrace} {e : Execution} (hid : e.traceId = t.traceId)
    (hback : e.exitTime < e.entryTime) : t.add e = .error (.backwards e) := by
  simp [add, hid, hback]

/-- Does the number fit a signed word of 32 bits? -/
def FitsWord (n : Int) : Prop :=
  -2147483648 ≤ n ∧ n < 2147483648

instance (n : Int) : Decidable (FitsWord n) :=
  inferInstanceAs (Decidable (_ ∧ _))

/-- The traces that arise from an empty one when executions are added, whose `eoi` and `ess` are
signed words of 32 bits. -/
inductive Built : ExecutionTrace → Prop where
  | empty (traceId : Int) (sessionId : String) : Built ⟨traceId, sessionId, []⟩
  | add {t u : ExecutionTrace} {e : Execution} : Built t → FitsWord e.eoi → FitsWord e.ess →
      t.add e = .ok u → Built u

theorem Built.ascending {t : ExecutionTrace} (h : t.Built) : Ascending t.executions := by
  induction h with
  | empty => exact List.Pairwise.nil
  | add _ _ _ hadd ih =>
    obtain ⟨_, _, hfree, rfl⟩ := add_eq_ok hadd
    exact ih.insert hfree

theorem Built.fitsWord {t : ExecutionTrace} (h : t.Built) : ∀ e ∈ t.executions, FitsWord e.ess := by
  induction h with
  | empty => intro e he; cases he
  | add _ _ hess hadd ih =>
    obtain ⟨_, _, _, rfl⟩ := add_eq_ok hadd
    intro e he
    rcases mem_insert.mp he with rfl | he
    · exact hess
    · exact ih e he

end Retrace.ExecutionTrace
