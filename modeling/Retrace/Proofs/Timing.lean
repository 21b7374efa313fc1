import Retrace.Proofs.Conversion

/-! Timing of messages. The caller of an execution is the last one before it that is less deep, and
replies come out from the inside to the outside. So if executions lie inside each other or apart,
the time stamps of the messages do not decrease if and only if no execution goes on for longer than
its caller. -/

namespace Retrace.ExecutionTrace

/-- Does one execution call the other one: is it the last one before it that is less deep, and less
deep by one? -/
def Calls (es : List Execution) (c e : Execution) : Prop :=
  c ∈ es ∧ c.eoi < e.eoi ∧ c.ess + 1 = e.ess ∧
    ∀ x ∈ es, c.eoi < x.eoi → x.eoi < e.eoi → e.ess ≤ x.ess

/-- An execution is not called by two others: one of them would come between the other one and
it. -/
theorem Calls.unique {es : List Execution} {c d e : Execution} (hasc : Ascending es)
    (hc : Calls es c e) (hd : Calls es d e) : c = d := by
  obtain ⟨hcin, hcbefore, hcess, hcbetween⟩ := hc
  obtain ⟨hdin, hdbefore, hdess, hdbetween⟩ := hd
  refine hasc.eq_of_eoi hcin hdin ?_
  rcases Int.lt_trichotomy c.eoi d.eoi with hlt | heq | hlt
  · have := hcbetween d hdin hlt hdbefore
    omega
  · exact heq
  · have := hdbetween c hcin hlt hcbefore
    omega

section Walk

variable {root : Execution}

/-- The executions that reply before a call are the innermost ones. -/
theorem settle_split (root : Execution) (ess : Int) (openOnes : List Execution) :
    ∃ settled, openOnes = settled ++ (settle root ess openOnes).2 ∧ (∀ o ∈ settled, ess ≤ o.ess) ∧
      (settle root ess openOnes).1.map (·.timestamp) = settled.map (·.exitTime) ∧
      ∀ m ∈ (settle root ess openOnes).1, ¬m.isCall := by
  induction openOnes with
  | nil => exact ⟨[], rfl, by simp, rfl, by simp [settle]⟩
  | cons top below ih =>
    obtain ⟨settled, hsplit, hover, htimes, hreplies⟩ := ih
    simp only [settle]
    split
    · exact ⟨[], rfl, by simp, rfl, by simp⟩
    · rename_i hge
      refine ⟨top :: settled, congrArg (top :: ·) hsplit, ?_, ?_, ?_⟩
      · simpa using ⟨Int.not_lt.mp hge, hover⟩
      · simpa using htimes
      · simpa [Message.isCall] using hreplies

theorem settleAll_timestamps (root : Execution) (openOnes : List Execution) :
    (settleAll root openOnes).map (·.timestamp) = openOnes.map (·.exitTime) ∧
      ∀ m ∈ settleAll root openOnes, ¬m.isCall := by
  induction openOnes with
  | nil => simp [settleAll]
  | cons top below ih => simpa [settleAll, Message.isCall] using ih

theorem Contiguous.ess_lt {openOnes : List Execution} (h : Contiguous openOnes) :
    ∀ o ∈ openOnes, 0 ≤ o.ess ∧ o.ess < openOnes.length := by
  induction openOnes with
  | nil => simp
  | cons top below ih =>
    intro o ho
    rcases List.mem_cons.mp ho with rfl | ho
    · have hess : o.ess = below.length := h.1
      rw [List.length_cons]
      omega
    · have hbelow := ih h.2 o ho
      rw [List.length_cons]
      omega

/-- The open executions reply from the innermost one to the outermost one. -/
theorem exits_sublist {openOnes es : List Execution} {ms : List Message}
    (hms : exchange root openOnes es = .ok ms) :
    (openOnes.map (·.exitTime)).Sublist (ms.map (·.timestamp)) := by
  induction es generalizing openOnes ms with
  | nil =>
    cases hms
    rw [(settleAll_timestamps root openOnes).1]
  | cons e rest ih =>
    obtain ⟨_, later, hlater, rfl⟩ := exchange_cons_ok hms
    obtain ⟨settled, hsplit, _, htimes, _⟩ := settle_split root e.ess openOnes
    have hleft := (List.sublist_cons_self _ _).trans (ih hlater)
    rw [List.map_append, htimes]
    conv => lhs; rw [hsplit, List.map_append]
    exact (List.Sublist.refl _).append (hleft.trans (List.sublist_cons_self _ _))

/-- If no time stamp is smaller than one before it, no execution outlasts its caller. -/
theorem outlasted_of_sorted {openOnes es : List Execution} {ms : List Message}
    (hms : exchange root openOnes es = .ok ms)
    (hsorted : (ms.map (·.timestamp)).Pairwise (· ≤ ·)) :
    ∀ m ∈ ms, m.isCall → m.sender = root ∨ m.receiver.exitTime ≤ m.sender.exitTime := by
  induction es generalizing openOnes ms with
  | nil =>
    cases hms
    intro m hm hcall
    exact absurd hcall ((settleAll_timestamps root openOnes).2 m hm)
  | cons e rest ih =>
    obtain ⟨_, later, hlater, rfl⟩ := exchange_cons_ok hms
    have hrest : (later.map (·.timestamp)).Pairwise (· ≤ ·) := by
      rw [List.map_append, List.map_cons] at hsorted
      exact (List.pairwise_cons.mp (List.pairwise_append.mp hsorted).2.1).2
    intro m hm hcall
    rcases List.mem_append.mp hm with hm | hm
    · obtain ⟨_, _, _, _, hreplies⟩ := settle_split root e.ess openOnes
      exact absurd hcall (hreplies m hm)
    rcases List.mem_cons.mp hm with rfl | hm
    · have hexits := hrest.sublist (exits_sublist hlater)
      cases hleft : (settle root e.ess openOnes).2 with
      | nil => exact .inl rfl
      | cons caller below =>
        rw [hleft] at hexits
        exact .inr ((List.pairwise_cons.mp hexits).1 _ List.mem_cons_self)
    · exact ih hlater hrest m hm hcall

/-- A called execution that its caller outlasts is outlasted by all that are open. -/
theorem exits_pushed (hroot : root.ess = -1) {left : List Execution} {e : Execution}
    (hleft : Contiguous left)
    (hexits : left.Pairwise fun inner outer => inner.exitTime ≤ outer.exitTime)
    (hcall : callerOf root left = root ∨ e.exitTime ≤ (callerOf root left).exitTime) :
    (e :: left).Pairwise fun inner outer => inner.exitTime ≤ outer.exitTime := by
  refine List.pairwise_cons.mpr ⟨?_, hexits⟩
  cases left with
  | nil => simp
  | cons caller below =>
    have hcaller : e.exitTime ≤ caller.exitTime := by
      refine hcall.resolve_left fun heq => ?_
      have hess := (hleft.ess_lt caller List.mem_cons_self).1
      rw [show caller = root from heq, hroot] at hess
      omega
    intro o ho
    rcases List.mem_cons.mp ho with rfl | ho
    · exact hcaller
    · exact Int.le_trans hcaller ((List.pairwise_cons.mp hexits).1 o ho)

/-- Time stamps between two times go before those from the second time on. -/
theorem sorted_between {now time : Int} {before after : List Int} (hle : now ≤ time)
    (hbetween : ∀ t ∈ before, now ≤ t ∧ t ≤ time) (hbefore : before.Pairwise (· ≤ ·))
    (hafter : (time :: after).Pairwise (· ≤ ·)) :
    (now :: (before ++ time :: after)).Pairwise (· ≤ ·) := by
  have hfrom : ∀ t ∈ time :: after, time ≤ t := by
    intro t ht
    rcases List.mem_cons.mp ht with rfl | ht
    · exact Int.le_refl t
    · exact (List.pairwise_cons.mp hafter).1 t ht
  refine List.pairwise_cons.mpr ⟨?_, List.pairwise_append.mpr ⟨hbefore, hafter, ?_⟩⟩
  · intro t ht
    rcases List.mem_append.mp ht with ht | ht
    · exact (hbetween t ht).1
    · exact Int.le_trans hle (hfrom t ht)
  · intro s hs t ht
    exact Int.le_trans (hbetween s hs).2 (hfrom t ht)

/-- If no execution outlasts its caller, no time stamp is smaller than one before it. -/
theorem sorted_of_outlasted (hroot : root.ess = -1) {openOnes es : List Execution}
    {ms : List Message} {now : Int} (h : Contiguous openOnes)
    (hms : exchange root openOnes es = .ok ms)
    (hexits : openOnes.Pairwise fun inner outer => inner.exitTime ≤ outer.exitTime)
    (hnow : ∀ o ∈ openOnes, now ≤ o.exitTime) (hentries : ∀ e ∈ es, now ≤ e.entryTime)
    (hover : ∀ o ∈ openOnes, ∀ e ∈ es, e.ess ≤ o.ess → o.exitTime ≤ e.entryTime)
    (hpairs : es.Pairwise fun d e =>
      d.entryTime ≤ e.entryTime ∧ (e.ess ≤ d.ess → d.exitTime ≤ e.entryTime))
    (htimed : ∀ e ∈ es, e.entryTime ≤ e.exitTime)
    (hcalls : ∀ m ∈ ms, m.isCall → m.sender = root ∨ m.receiver.exitTime ≤ m.sender.exitTime) :
    (now :: ms.map (·.timestamp)).Pairwise (· ≤ ·) := by
  induction es generalizing openOnes ms now with
  | nil =>
    cases hms
    rw [(settleAll_timestamps root openOnes).1]
    refine List.pairwise_cons.mpr ⟨?_, List.pairwise_map.mpr hexits⟩
    simpa using hnow
  | cons e rest ih =>
    obtain ⟨hcaller, later, hlater, rfl⟩ := exchange_cons_ok hms
    obtain ⟨settled, hsplit, hdeep, htimes, _⟩ := settle_split root e.ess openOnes
    obtain ⟨hpos, hle⟩ := (caller_fits_iff hroot h).mp hcaller
    obtain ⟨hstack, _⟩ := contiguous_called root h hpos hle
    obtain ⟨hfirst, hothers⟩ := List.pairwise_cons.mp hpairs
    generalize (settle root e.ess openOnes).2 = left at *
    subst hsplit
    obtain ⟨hoverExits, hleftExits, _⟩ := List.pairwise_append.mp hexits
    have hcall := hcalls _ (List.mem_append_right _ List.mem_cons_self) rfl
    have hpushed := exits_pushed hroot hstack.2 hleftExits hcall
    have hentered := htimed e List.mem_cons_self
    have hnext : ∀ o ∈ e :: left, e.entryTime ≤ o.exitTime := by
      intro o ho
      rcases List.mem_cons.mp ho with rfl | ho
      · exact hentered
      · exact Int.le_trans hentered ((List.pairwise_cons.mp hpushed).1 o ho)
    have hoverNext : ∀ o ∈ e :: left, ∀ d ∈ rest, d.ess ≤ o.ess → o.exitTime ≤ d.entryTime := by
      intro o ho d hd hess
      rcases List.mem_cons.mp ho with rfl | ho
      · exact (hfirst d hd).2 hess
      · exact hover o (List.mem_append_right _ ho) d (List.mem_cons_of_mem e hd) hess
    have hrest := ih hstack hlater hpushed hnext (fun d hd => (hfirst d hd).1) hoverNext hothers
      (fun d hd => htimed d (List.mem_cons_of_mem e hd)) (fun m hm => hcalls m (by simp [hm]))
    rw [List.map_append, List.map_cons, htimes]
    refine sorted_between (hentries e List.mem_cons_self) ?_ (List.pairwise_map.mpr hoverExits)
      hrest
    intro t ht
    obtain ⟨o, ho, rfl⟩ := List.mem_map.mp ht
    exact ⟨hnow o (List.mem_append_left _ ho),
      hover o (List.mem_append_left _ ho) e List.mem_cons_self (hdeep o ho)⟩

/-- Every call comes from the root or from the last execution before that is less deep. -/
theorem calls_of_exchange (hroot : root.ess = -1) {openOnes past es : List Execution}
    {ms : List Message} (h : Contiguous openOnes) (hms : exchange root openOnes es = .ok ms)
    (hasc : Ascending (past ++ es)) (hopen : ∀ o ∈ openOnes, o ∈ past)
    (hunder : ∀ o ∈ openOnes, ∀ x ∈ past, o.eoi < x.eoi → o.ess < x.ess) :
    ∀ m ∈ ms, m.isCall → m.receiver ∈ es ∧ m.timestamp = m.receiver.entryTime ∧
      ((m.sender = root ∧ m.receiver.ess = 0) ∨ Calls (past ++ es) m.sender m.receiver) := by
  induction es generalizing openOnes past ms with
  | nil =>
    cases hms
    intro m hm hcall
    exact absurd hcall ((settleAll_timestamps root openOnes).2 m hm)
  | cons e rest ih =>
    obtain ⟨hcaller, later, hlater, rfl⟩ := exchange_cons_ok hms
    obtain ⟨settled, hsplit, _, _, hreplies⟩ := settle_split root e.ess openOnes
    obtain ⟨hpos, hle⟩ := (caller_fits_iff hroot h).mp hcaller
    obtain ⟨hstack, hess⟩ := contiguous_called root h hpos hle
    obtain ⟨_, hrest, hpast⟩ := List.pairwise_append.mp hasc
    have hmem : ∀ o ∈ (settle root e.ess openOnes).2, o ∈ openOnes := fun o ho =>
      hsplit ▸ List.mem_append_right settled ho
    have hshift : past ++ e :: rest = (past ++ [e]) ++ rest := by simp
    have hnext : ∀ o ∈ e :: (settle root e.ess openOnes).2, ∀ x ∈ past ++ [e],
        o.eoi < x.eoi → o.ess < x.ess := by
      intro o ho x hx hlt
      rcases List.mem_append.mp hx with hold | hnew
      · rcases List.mem_cons.mp ho with rfl | ho
        · exact absurd (hpast x hold o List.mem_cons_self) (Int.not_lt.mpr (Int.le_of_lt hlt))
        · exact hunder o (hmem o ho) x hold hlt
      · obtain rfl := List.mem_singleton.mp hnew
        rcases List.mem_cons.mp ho with rfl | ho
        · exact absurd hlt (Int.lt_irrefl _)
        · have := (hstack.2.ess_lt o ho).2
          omega
    intro m hm hcall
    rcases List.mem_append.mp hm with hm | hm
    · exact absurd hcall (hreplies m hm)
    rcases List.mem_cons.mp hm with rfl | hm
    · refine ⟨List.mem_cons_self, rfl, ?_⟩
      cases hleft : (settle root e.ess openOnes).2 with
      | nil =>
        rw [hleft] at hess
        exact .inl ⟨rfl, by simpa using hess⟩
      | cons caller below =>
        rw [hleft] at hcaller hmem
        have hin := hopen caller (hmem caller List.mem_cons_self)
        have hdepth : caller.ess = e.ess - 1 := hcaller
        refine .inr ⟨List.mem_append_left _ hin, hpast caller hin e List.mem_cons_self,
          show caller.ess + 1 = e.ess by omega, ?_⟩
        intro x hx hafter hbefore
        rcases List.mem_append.mp hx with hx | hx
        · have hdeeper := hunder caller (hmem caller List.mem_cons_self) x hx hafter
          change e.ess ≤ x.ess
          omega
        · change x.eoi < e.eoi at hbefore
          rcases List.mem_cons.mp hx with rfl | hx
          · exact absurd hbefore (Int.lt_irrefl _)
          · have := (List.pairwise_cons.mp hrest).1 x hx
            omega
    · rw [hshift] at hasc ⊢
      obtain ⟨hin, hfacts⟩ := ih hstack hlater hasc
        (by
          intro o ho
          rcases List.mem_cons.mp ho with rfl | ho
          · simp
          · exact List.mem_append_left _ (hopen o (hmem o ho)))
        hnext m hm hcall
      exact ⟨List.mem_cons_of_mem e hin, hfacts⟩

end Walk

end Retrace.ExecutionTrace
