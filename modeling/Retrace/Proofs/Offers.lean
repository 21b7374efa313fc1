import Retrace.Proofs.Conversion

/-! Offers. An execution that is offered to a trace is stored, or it is refused and the trace stays
as it is. As long as no two of the offered executions ask for one place, the answer to each depends
on the trace and that execution alone, and what is stored in the end is sorted. So such executions
can be offered in any order. -/

namespace Retrace.ExecutionTrace
open scoped List

/-- The trace after an execution was offered to it, and why it was refused if it was. -/
def offer (t : ExecutionTrace) (e : Execution) : ExecutionTrace × Option Rejection :=
  match t.add e with
  | .ok u => (u, none)
  | .error why => (t, some why)

/-- The trace after executions were offered to it one by one, and the answer to each. -/
def offerAll (t : ExecutionTrace) : List Execution → ExecutionTrace × List (Option Rejection)
  | [] => (t, [])
  | e :: rest =>
    (((t.offer e).1.offerAll rest).1, (t.offer e).2 :: ((t.offer e).1.offerAll rest).2)

/-- Is the execution one of the trace's own, does it not end before it begins, and is its place
free? -/
def Admits (t : ExecutionTrace) (e : Execution) : Prop :=
  e.traceId = t.traceId ∧ e.entryTime ≤ e.exitTime ∧ ∀ d ∈ t.executions, d.eoi ≠ e.eoi

instance (t : ExecutionTrace) (e : Execution) : Decidable (t.Admits e) :=
  inferInstanceAs (Decidable (_ ∧ _))

/-- Does the second trace hold what the first one does and the execution, and nothing else? -/
structure Stores (t : ExecutionTrace) (e : Execution) (u : ExecutionTrace) : Prop where
  traceId : u.traceId = t.traceId
  sessionId : u.sessionId = t.sessionId
  executions : u.executions ~ e :: t.executions
  found : u.get? e.eoi = some e
  kept : ∀ eoi, eoi ≠ e.eoi → u.get? eoi = t.get? eoi

/-- Are the executions sorted by place, all in this trace, and none ended before it began? -/
structure Orderly (t : ExecutionTrace) : Prop where
  ascending : Ascending t.executions
  own : ∀ e ∈ t.executions, e.traceId = t.traceId
  forward : ∀ e ∈ t.executions, e.entryTime ≤ e.exitTime

/-! ## One offer -/

theorem get?_insert_self {t : ExecutionTrace} {e : Execution}
    (hfree : ∀ d ∈ t.executions, d.eoi ≠ e.eoi) :
    get? { t with executions := insert e t.executions } e.eoi = some e := by
  obtain ⟨traceId, sessionId, es⟩ := t
  simp only [get?] at hfree ⊢
  induction es with
  | nil => simp [insert]
  | cons d rest ih =>
    obtain ⟨hd, hrest⟩ := List.forall_mem_cons.mp hfree
    by_cases hlt : e.eoi < d.eoi
    · rw [insert, if_pos hlt, List.find?_cons_of_pos (by simp)]
    · rw [insert, if_neg hlt, List.find?_cons_of_neg (by simpa using hd)]
      exact ih hrest

theorem get?_insert_of_ne {t : ExecutionTrace} {e : Execution} {eoi : Int} (h : eoi ≠ e.eoi) :
    get? { t with executions := insert e t.executions } eoi = t.get? eoi := by
  obtain ⟨traceId, sessionId, es⟩ := t
  have hskip : ∀ rest : List Execution,
      (e :: rest).find? (·.eoi == eoi) = rest.find? (·.eoi == eoi) := fun rest =>
    List.find?_cons_of_neg (by simpa using h.symm)
  simp only [get?]
  induction es with
  | nil => exact hskip []
  | cons d rest ih =>
    by_cases hlt : e.eoi < d.eoi
    · rw [insert, if_pos hlt, hskip]
    · rw [insert, if_neg hlt, List.find?_cons, List.find?_cons, ih]

section Offer

variable {t : ExecutionTrace} {d e : Execution}

theorem offer_of_admits (h : t.Admits e) :
    t.offer e = ({ t with executions := insert e t.executions }, none) := by
  obtain ⟨hid, htime, hfree⟩ := h
  rw [offer, add_of_fresh hid htime hfree]

/-- What is not admitted is refused, and leaves the trace as it is. -/
theorem offer_of_not_admits (h : ¬ t.Admits e) : ∃ why, t.offer e = (t, some why) := by
  unfold offer
  cases hadd : t.add e with
  | error why => exact ⟨why, rfl⟩
  | ok u =>
    obtain ⟨hid, htime, hfree, _⟩ := add_eq_ok hadd
    exact absurd ⟨hid, htime, hfree⟩ h

theorem offer_snd_eq_none_iff : (t.offer e).2 = none ↔ t.Admits e := by
  by_cases h : t.Admits e
  · simp [offer_of_admits h, h]
  · obtain ⟨why, hoffer⟩ := offer_of_not_admits h
    simp [hoffer, h]

theorem stores_offer (h : t.Admits e) : t.Stores e (t.offer e).1 := by
  rw [offer_of_admits h]
  exact ⟨rfl, rfl, insert_perm e t.executions, get?_insert_self h.2.2, fun _ => get?_insert_of_ne⟩

theorem offer_traceId (t : ExecutionTrace) (e : Execution) : (t.offer e).1.traceId = t.traceId := by
  by_cases h : t.Admits e
  · exact (stores_offer h).traceId
  · obtain ⟨why, hoffer⟩ := offer_of_not_admits h
    rw [hoffer]

theorem offer_sessionId (t : ExecutionTrace) (e : Execution) :
    (t.offer e).1.sessionId = t.sessionId := by
  by_cases h : t.Admits e
  · exact (stores_offer h).sessionId
  · obtain ⟨why, hoffer⟩ := offer_of_not_admits h
    rw [hoffer]

theorem Orderly.offer (h : t.Orderly) (e : Execution) : (t.offer e).1.Orderly := by
  by_cases hadmits : t.Admits e
  · rw [offer_of_admits hadmits]
    obtain ⟨hid, htime, hfree⟩ := hadmits
    refine ⟨h.ascending.insert hfree, ?_, ?_⟩
    · intro x hx
      rcases mem_insert.mp hx with rfl | hx
      · exact hid
      · exact h.own x hx
    · intro x hx
      rcases mem_insert.mp hx with rfl | hx
      · exact htime
      · exact h.forward x hx
  · obtain ⟨why, hoffer⟩ := offer_of_not_admits hadmits
    rwa [hoffer]

/-- The answer to an offer is told by the trace's id and what is at the place that is asked for. -/
theorem offer_answer (t : ExecutionTrace) (e : Execution) :
    (t.offer e).2 =
      if e.traceId ≠ t.traceId then some (.foreign e)
      else if e.exitTime < e.entryTime then some (.backwards e)
      else if (t.get? e.eoi).isSome then some (.occupied e.eoi)
      else none := by
  unfold ExecutionTrace.offer add
  by_cases hid : e.traceId ≠ t.traceId
  · simp only [if_pos hid]
  · by_cases htime : e.exitTime < e.entryTime
    · simp only [if_neg hid, if_pos htime]
    · by_cases htaken : (t.get? e.eoi).isSome
      · simp only [if_neg hid, if_neg htime, if_pos htaken]
      · simp only [if_neg hid, if_neg htime, if_neg htaken]

/-- An offer changes no answer to an execution that asks for another place. -/
theorem offer_answer_of_ne (h : d.eoi ≠ e.eoi) : ((t.offer d).1.offer e).2 = (t.offer e).2 := by
  by_cases hadmits : t.Admits d
  · have hstores := stores_offer hadmits
    rw [offer_answer, offer_answer, hstores.traceId, hstores.kept e.eoi h.symm]
  · obtain ⟨why, hoffer⟩ := offer_of_not_admits hadmits
    rw [hoffer]

end Offer

/-! ## Offers one by one -/

section Offers

variable {t : ExecutionTrace} {ds es : List Execution}

/-- The executions among some that a trace admits. -/
def admitted (t : ExecutionTrace) (es : List Execution) : List Execution :=
  es.filter (t.Admits ·)

/-- The first of some offers for different places changes the answer to none of the others. -/
theorem answers_after {d : Execution} (h : ((d :: es).map (·.eoi)).Nodup) :
    ∀ e ∈ es, ((t.offer d).1.offer e).2 = (t.offer e).2 := by
  intro e he
  have hfresh : d.eoi ∉ es.map (·.eoi) := (List.nodup_cons.mp h).1
  refine offer_answer_of_ne fun heoi => hfresh ?_
  rw [heoi]
  exact List.mem_map_of_mem he

theorem offerAll_traceId (t : ExecutionTrace) (es : List Execution) :
    (t.offerAll es).1.traceId = t.traceId := by
  induction es generalizing t with
  | nil => rfl
  | cons e rest ih => exact (ih _).trans (offer_traceId t e)

theorem offerAll_sessionId (t : ExecutionTrace) (es : List Execution) :
    (t.offerAll es).1.sessionId = t.sessionId := by
  induction es generalizing t with
  | nil => rfl
  | cons e rest ih => exact (ih _).trans (offer_sessionId t e)

theorem Orderly.offerAll (h : t.Orderly) (es : List Execution) : (t.offerAll es).1.Orderly := by
  induction es generalizing t with
  | nil => exact h
  | cons e rest ih => exact ih (h.offer e)

/-- Executions that ask for different places get the answers that each would get at first. -/
theorem offerAll_answers (h : (es.map (·.eoi)).Nodup) :
    (t.offerAll es).2 = es.map fun e => (t.offer e).2 := by
  induction es generalizing t with
  | nil => rfl
  | cons d rest ih =>
    have hrest : (rest.map (·.eoi)).Nodup := (List.nodup_cons.mp h).2
    rw [ExecutionTrace.offerAll, ih hrest, List.map_congr_left (answers_after h), List.map_cons]

/-- Of executions that ask for different places those are stored that the trace admits. -/
theorem offerAll_executions (h : (es.map (·.eoi)).Nodup) :
    (t.offerAll es).1.executions ~ t.admitted es ++ t.executions := by
  induction es generalizing t with
  | nil => exact List.Perm.refl _
  | cons d rest ih =>
    have hrest : (rest.map (·.eoi)).Nodup := (List.nodup_cons.mp h).2
    have hadmitted : (t.offer d).1.admitted rest = t.admitted rest := by
      refine List.filter_congr fun e he => ?_
      rw [decide_eq_decide, ← offer_snd_eq_none_iff, ← offer_snd_eq_none_iff, answers_after h e he]
    have hlater := @ih (t.offer d).1 hrest
    rw [hadmitted] at hlater
    by_cases hadmits : t.Admits d
    · rw [admitted, List.filter_cons_of_pos (by simpa using hadmits)]
      calc ((t.offer d).1.offerAll rest).1.executions
        _ ~ t.admitted rest ++ (t.offer d).1.executions := hlater
        _ ~ t.admitted rest ++ d :: t.executions :=
          (stores_offer hadmits).executions.append_left _
        _ ~ d :: (t.admitted rest ++ t.executions) := List.perm_middle
    · obtain ⟨why, hoffer⟩ := offer_of_not_admits hadmits
      rw [admitted, List.filter_cons_of_neg (by simpa using hadmits)]
      rw [hoffer] at hlater
      rw [ExecutionTrace.offerAll, hoffer]
      exact hlater

/-- The order of offers for different places does not matter. -/
theorem offerAll_perm (ht : t.Orderly) (hperm : ds ~ es) (h : (es.map (·.eoi)).Nodup) :
    (t.offerAll ds).1 = (t.offerAll es).1 := by
  have hds : (ds.map (·.eoi)).Nodup := (hperm.map _).nodup_iff.mpr h
  have hexecutions : (t.offerAll ds).1.executions = (t.offerAll es).1.executions := by
    have hsame : (t.offerAll ds).1.executions ~ (t.offerAll es).1.executions :=
      calc (t.offerAll ds).1.executions
        _ ~ t.admitted ds ++ t.executions := offerAll_executions hds
        _ ~ t.admitted es ++ t.executions := (hperm.filter _).append_right _
        _ ~ (t.offerAll es).1.executions := (offerAll_executions h).symm
    refine hsame.eq_of_pairwise ?_ (ht.offerAll ds).ascending (ht.offerAll es).ascending
    intro a b _ _ hab hba
    exact absurd hab (Int.not_lt.mpr (Int.le_of_lt hba))
  have hid := (offerAll_traceId t ds).trans (offerAll_traceId t es).symm
  have hsession := (offerAll_sessionId t ds).trans (offerAll_sessionId t es).symm
  generalize (t.offerAll ds).1 = u at *
  generalize (t.offerAll es).1 = v at *
  obtain ⟨traceId, sessionId, executions⟩ := u
  simp only at hid hsession hexecutions
  subst hid hsession hexecutions
  rfl

/-- Every execution gets the same answer in any order. -/
theorem answers_perm (hperm : ds ~ es) (h : (es.map (·.eoi)).Nodup) :
    ds.zip (t.offerAll ds).2 ~ es.zip (t.offerAll es).2 := by
  have hds : (ds.map (·.eoi)).Nodup := (hperm.map _).nodup_iff.mpr h
  have hzip : ∀ es : List Execution, es.zip (es.map fun e => (t.offer e).2) =
      es.map fun e => (e, (t.offer e).2) := fun es => by
    simpa using @List.zip_map' _ _ _ id (fun e => (t.offer e).2) es
  rw [offerAll_answers hds, offerAll_answers h, hzip, hzip]
  exact hperm.map _

end Offers

/-- Whatever was offered to a trace, it holds executions of its own in ascending places, and one more
offer stores just that execution or changes nothing. Executions for different places can be offered
in any order: each gets the same answer, and the trace is the same in the end, with the same
messages, gaps and bounds. -/
theorem offers_in_any_order (traceId : Int) (sessionId : String) (past : List Execution) :
    let t := (offerAll ⟨traceId, sessionId, []⟩ past).1
    t.traceId = traceId ∧ t.sessionId = sessionId ∧ t.Orderly ∧
      (∀ e, t.Admits e ∧ (t.offer e).2 = none ∧ t.Stores e (t.offer e).1 ∨
        ¬ t.Admits e ∧ ∃ why, t.offer e = (t, some why)) ∧
      ∀ ds es, ds ~ es → (es.map (·.eoi)).Nodup →
        ds.zip (t.offerAll ds).2 ~ es.zip (t.offerAll es).2 ∧
        (t.offerAll ds).1 = (t.offerAll es).1 ∧
        (t.offerAll ds).1.toMessages = (t.offerAll es).1.toMessages ∧
        (t.offerAll ds).1.gaps = (t.offerAll es).1.gaps ∧
        (t.offerAll ds).1.maxEss? = (t.offerAll es).1.maxEss? ∧
        (t.offerAll ds).1.minEntryTime? = (t.offerAll es).1.minEntryTime? ∧
        (t.offerAll ds).1.maxExitTime? = (t.offerAll es).1.maxExitTime? := by
  intro t
  have hempty : Orderly ⟨traceId, sessionId, []⟩ := ⟨.nil, by simp, by simp⟩
  have horderly : t.Orderly := hempty.offerAll past
  refine ⟨offerAll_traceId _ past, offerAll_sessionId _ past, horderly, ?_, ?_⟩
  · intro e
    by_cases hadmits : t.Admits e
    · exact .inl ⟨hadmits, offer_snd_eq_none_iff.mpr hadmits, stores_offer hadmits⟩
    · exact .inr ⟨hadmits, offer_of_not_admits hadmits⟩
  · intro ds es hperm hplaces
    have hsame := offerAll_perm horderly hperm hplaces
    refine ⟨answers_perm hperm hplaces, hsame, ?_⟩
    rw [hsame]
    exact ⟨rfl, rfl, rfl, rfl, rfl⟩

/-- For a trace with the place 2 taken: a root and what it calls, the inner one first, one for the
taken place, one that ends before it begins, one of another trace, and one at a place below zero. -/
def mixedOffers : List Execution :=
  [sampleExecution 1 1 3 4, sampleExecution 0 0 1 9, sampleExecution 2 0 5 6, sampleExecution 4 0 8 7,
    { sampleExecution 5 0 8 9 with traceId := 8 }, sampleExecution (-3) 0 0 0]

theorem mixedOffers_any_order :
    let t := (offerAll ⟨7, "s", []⟩ [sampleExecution 2 1 5 6]).1
    (mixedOffers.map (·.eoi)).Nodup ∧ (t.offerAll mixedOffers).2.map Option.isNone =
        [true, true, false, false, false, true] ∧
      (t.offerAll mixedOffers.reverse).1 = (t.offerAll mixedOffers).1 ∧
      (t.offerAll mixedOffers).1.executions =
        [sampleExecution (-3) 0 0 0, sampleExecution 0 0 1 9, sampleExecution 1 1 3 4,
          sampleExecution 2 1 5 6] := by
  intro t
  obtain ⟨_, _, _, _, hany⟩ := offers_in_any_order 7 "s" [sampleExecution 2 1 5 6]
  have hplaces : (mixedOffers.map (·.eoi)).Nodup := by decide
  obtain ⟨_, hsame, _⟩ := hany mixedOffers.reverse mixedOffers (List.reverse_perm _) hplaces
  exact ⟨hplaces, rfl, hsame, rfl⟩

end Retrace.ExecutionTrace
