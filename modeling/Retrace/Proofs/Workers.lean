import Mathlib.Algebra.BigOperators.Group.List.Basic
import Retrace.Proofs.Interference
import Retrace.Proofs.Solitude
import Retrace.Proofs.Turns

/-! Workers. However workers take turns, each position has one batch in the queue, one worker or one
result; what a worker has yet to count and what is in the queue make up what the tallies lack. In
the end all positions have results, and these are what one worker comes to, up to entities. -/

namespace Retrace

open scoped List

/-- What a batch adds to the tallies. -/
def BatchResult.tallies (r : BatchResult) : Tallies :=
  (0 : Tallies).count r.dropped r.outcome

/-- Is the outcome, up to entities, the one that is expected at the position? -/
def Expected (expected : List BatchResult) (position : Nat) (outcome : Outcome) : Prop :=
  ∃ r, expected[position]? = some r ∧ outcome.bare = r.outcome.bare

namespace Worker

def position? : Worker → Option Nat
  | working position _ => some position
  | _ => none

/-- What the worker has yet to count for the batch that it is at. -/
inductive Owes (expected : List BatchResult) : Worker → Tallies → Prop where
  | waiting : Owes expected .waiting 0
  | gone : Owes expected .gone 0
  | working {position : Nat} {task : Task Outcome} {owed : Tallies} :
      task.Ends (Expected expected position) owed → Owes expected (.working position task) owed

/-- What all workers have yet to count. -/
inductive AllOwe (expected : List BatchResult) : List Worker → Tallies → Prop where
  | nil : AllOwe expected [] 0
  | cons {w : Worker} {rest : List Worker} {owed more : Tallies} :
      w.Owes expected owed → AllOwe expected rest more → AllOwe expected (w :: rest) (owed + more)

section AllOwe

variable {expected : List BatchResult}

/-- What one worker owes can be told apart from what the others do. -/
theorem AllOwe.split {before after : List Worker} {w : Worker} {owed : Tallies}
    (h : AllOwe expected (before ++ w :: after) owed) :
    ∃ own others, w.Owes expected own ∧ owed = own + others ∧
      ∀ w' own', w'.Owes expected own' →
        AllOwe expected (before ++ w' :: after) (own' + others) := by
  induction before generalizing owed with
  | nil =>
    cases h with
    | cons hw hrest => exact ⟨_, _, hw, rfl, fun w' own' hw' => .cons hw' hrest⟩
  | cons v before ih =>
    cases h with
    | @cons _ _ first rest hv hrest =>
      obtain ⟨own, others, hw, rfl, hreplaced⟩ := ih hrest
      refine ⟨own, first + others, hw, add_left_comm .., fun w' own' hw' => ?_⟩
      rw [add_left_comm]
      exact .cons hv (hreplaced w' own' hw')

theorem allOwe_waiting (workers : Nat) :
    AllOwe expected (List.replicate workers .waiting) 0 := by
  induction workers with
  | zero => exact .nil
  | succ n ih => exact zero_add (0 : Tallies) ▸ .cons .waiting ih

theorem AllOwe.of_gone {workers : List Worker} {owed : Tallies} (h : AllOwe expected workers owed)
    (hgone : ∀ w ∈ workers, w = .gone) : owed = 0 := by
  induction h with
  | nil => rfl
  | cons hw hrest ih =>
    obtain rfl := hgone _ List.mem_cons_self
    cases hw with
    | gone => rw [ih fun w hw => hgone w (List.mem_cons_of_mem _ hw), zero_add]

end AllOwe

end Worker

namespace Pool

section Conserves

variable {settings : Settings} {selection : Selection} {model : Model}

/-- The positions in the queue, those that workers are at, and those that have a result. -/
def positions (p : Pool) : List Nat :=
  p.jobs.map (·.1) ++ p.workers.filterMap Worker.position? ++ p.results.map (·.1)

/-- A turn loses no position, and doubles none. -/
theorem Turns.positions {p q : Pool} (h : Turns settings selection p q) :
    q.positions ~ p.positions := by
  refine List.perm_iff_count.mpr fun k => ?_
  cases h <;> simp only [Pool.positions, Worker.position?, List.filterMap_append,
    List.filterMap_cons, List.map_cons, List.map_append, List.map_nil, List.count_append,
    List.count_cons, List.count_nil] <;> omega

/-- Do the queue, the workers and the results make up what is expected of all batches? -/
structure Conserves (settings : Settings) (selection : Selection) (model : Model)
    (expected : List BatchResult) (p : Pool) : Prop where
  manned : p.workers ≠ []
  placed : p.positions ~ List.range expected.length
  queued : ∀ job ∈ p.jobs,
    expected[job.1]? = some (reconstruct settings selection model job.2)
  /-- No worker leaves before the queue is empty. -/
  served : .gone ∈ p.workers → p.jobs = []
  counted : ∃ owed, Worker.AllOwe expected p.workers owed ∧
    p.shared.tallies + owed + (p.jobs.map fun job =>
      (reconstruct settings selection model job.2).tallies).sum =
        (expected.map BatchResult.tallies).sum
  delivered : ∀ result ∈ p.results, Expected expected result.1 result.2

theorem conserves_start {workers : Nat} (hworkers : workers ≠ 0) (batches : List Batch) :
    (start model workers batches).Conserves settings selection model
      (batches.map (reconstruct settings selection model)) where
  manned := by simpa [start] using hworkers
  placed := by
    have hnone : (List.replicate workers Worker.waiting).filterMap Worker.position? = [] := by
      simp [List.filterMap_eq_nil_iff, Worker.position?]
    simp only [positions, start, hnone, List.map_nil, List.append_nil, List.length_map]
    rw [List.map_fst_zip (by simp)]
  queued := by
    intro job hjob
    obtain ⟨k, hk⟩ := List.getElem?_of_mem hjob
    obtain ⟨hposition, hbatch⟩ := List.getElem?_zip_eq_some.mp hk
    obtain ⟨_, hindex⟩ := List.getElem?_eq_some_iff.mp hposition
    rw [List.getElem_range] at hindex
    rw [← hindex, List.getElem?_map, hbatch]
    rfl
  served := by simp [start]
  counted := by
    refine ⟨0, Worker.allOwe_waiting workers, ?_⟩
    have hbatches : ((List.range batches.length).zip batches).map (·.2) = batches :=
      List.map_snd_zip (by simp)
    have hjobs : ((List.range batches.length).zip batches).map
        (fun job => (reconstruct settings selection model job.2).tallies) =
          (batches.map (reconstruct settings selection model)).map BatchResult.tallies := by
      conv => rhs; rw [← hbatches]
      rw [List.map_map, List.map_map]
      rfl
    rw [start, hjobs]
    exact (congrArg (· + _) (zero_add _)).trans (zero_add _)
  delivered := by simp [start]

theorem Conserves.turn {expected : List BatchResult} {p q : Pool}
    (h : p.Conserves settings selection model expected) (hturn : Turns settings selection p q) :
    q.Conserves settings selection model expected := by
  obtain ⟨_, hplaced, hqueued, hserved, ⟨owed, howed, hcounted⟩, hdelivered⟩ := h
  replace hplaced := hturn.positions.trans hplaced
  cases hturn with
  | @take before after position batch jobs shared results =>
    obtain ⟨own, others, hown, rfl, hreplaced⟩ := howed.split
    obtain rfl : own = 0 := by cases hown; rfl
    -- What the batch counts was to come from the queue, and is now owed by the worker.
    have hends := ends_reconstructing settings selection model batch
    have htask := hreplaced (.working position (reconstructing settings selection batch)) _
      (.working (hends.mono fun o ho => ⟨_, hqueued _ List.mem_cons_self, ho⟩))
    refine ⟨by simp, hplaced, fun job hjob => hqueued job (List.mem_cons_of_mem _ hjob), ?_,
      ⟨_, htask, ?_⟩, hdelivered⟩
    · intro hgone
      have hleft := hserved (by simpa using hgone)
      cases hleft
    · rw [← hcounted, zero_add, List.map_cons, List.sum_cons, BatchResult.tallies,
        add_comm _ others]
      simp only [add_assoc]
  | @leave before after shared results =>
    obtain ⟨own, others, hown, rfl, hreplaced⟩ := howed.split
    obtain rfl : own = 0 := by cases hown; rfl
    exact ⟨by simp, hplaced, hqueued, fun _ => rfl, ⟨_, hreplaced .gone 0 .gone, hcounted⟩,
      hdelivered⟩
  | @access before after position act next jobs shared results =>
    obtain ⟨own, others, hown, rfl, hreplaced⟩ := howed.split
    cases hown with
    | working hends =>
      -- What the access counts is owed no more.
      obtain ⟨paid, left, rfl, hpaid, hnext⟩ := hends
      refine ⟨by simp, hplaced, hqueued, fun hgone => hserved (by simpa using hgone),
        ⟨_, hreplaced (.working position (next shared)) left (.working (hnext shared)), ?_⟩,
        hdelivered⟩
      rw [← hcounted]
      simp only [hpaid, add_assoc]
  | @send before after position outcome jobs shared results =>
    obtain ⟨own, others, hown, rfl, hreplaced⟩ := howed.split
    cases hown with
    | working hends =>
      obtain ⟨hexpected, rfl⟩ := hends
      refine ⟨by simp, hplaced, hqueued, fun hgone => hserved (by simpa using hgone),
        ⟨_, hreplaced .waiting 0 .waiting, hcounted⟩, fun result hresult => ?_⟩
      rcases List.mem_append.mp hresult with hold | hnew
      · exact hdelivered result hold
      · obtain rfl := List.mem_singleton.mp hnew
        exact hexpected

/-- What a pool has come to when all its workers are gone. -/
theorem Conserves.over {expected : List BatchResult} {p : Pool}
    (h : p.Conserves settings selection model expected) (hover : p.isOver) :
    p.results.map (·.1) ~ List.range expected.length ∧
      (∀ result ∈ p.results, Expected expected result.1 result.2) ∧
      p.shared.tallies = (expected.map BatchResult.tallies).sum := by
  have hgone : ∀ w ∈ p.workers, w = .gone := by
    intro w hw
    have := List.all_eq_true.mp hover w hw
    cases w <;> simp at this ⊢
  obtain ⟨w, hw⟩ := List.exists_mem_of_ne_nil _ h.manned
  have hjobs := h.served (hgone w hw ▸ hw)
  have hidle : p.workers.filterMap Worker.position? = [] := by
    refine List.filterMap_eq_nil_iff.mpr fun w hw => ?_
    rw [hgone w hw]
    rfl
  have hplaced := h.placed
  obtain ⟨owed, howed, hcounted⟩ := h.counted
  rw [positions, hjobs, hidle] at hplaced
  rw [hjobs, howed.of_gone hgone, add_zero] at hcounted
  exact ⟨hplaced, h.delivered, (add_zero _).symm.trans hcounted⟩

end Conserves

/-! ## Collecting the outcomes -/

section Collected

variable {total : Nat} {results : List (Nat × Outcome)}

theorem placed_append (position : Nat) (outcome : Outcome) :
    placed total (results ++ [(position, outcome)]) =
      (placed total results).set position (some outcome) := by
  rw [placed, List.foldl_append]
  rfl

theorem length_placed : (placed total results).length = total := by
  induction results using List.reverseRecOn with
  | nil => exact List.length_replicate
  | append_singleton results result ih => rw [placed_append, List.length_set, ih]

/-- An outcome that is alone at its position stays there. -/
theorem getElem?_placed (hnodup : (results.map (·.1)).Nodup) {position : Nat} {outcome : Outcome}
    (hresult : (position, outcome) ∈ results) (hin : position < total) :
    (placed total results)[position]? = some (some outcome) := by
  induction results using List.reverseRecOn with
  | nil => cases hresult
  | append_singleton results result ih =>
    rw [List.map_append] at hnodup
    obtain ⟨hold, _, hnew⟩ := List.nodup_append.mp hnodup
    rw [placed_append]
    rcases List.mem_append.mp hresult with hresult | hresult
    · have hne := hnew position (List.mem_map.mpr ⟨_, hresult, rfl⟩) result.1 (by simp)
      rw [List.getElem?_set_ne (Ne.symm hne)]
      exact ih hold hresult
    · obtain rfl := List.mem_singleton.mp hresult
      exact List.getElem?_set_self (by rwa [length_placed])

/-- If every slot is filled, no outcome moves up. -/
theorem filterMap_filled {slots : List (Option Outcome)} {expected : List BatchResult}
    (h : List.Forall₂ (fun slot r => ∃ o : Outcome, slot = some o ∧ o.bare = r.outcome.bare)
      slots expected) :
    (slots.filterMap id).map Outcome.bare = expected.map fun r => r.outcome.bare := by
  induction h with
  | nil => rfl
  | @cons slot r slots rest hslot _ ih =>
    obtain ⟨o, rfl, hbare⟩ := hslot
    change o.bare :: _ = r.outcome.bare :: _
    rw [hbare, ih]

/-- If every position has one result, and that the one expected there, all are collected. -/
theorem collected_bare {expected : List BatchResult}
    (hplaced : results.map (·.1) ~ List.range expected.length)
    (hexpected : ∀ result ∈ results, Expected expected result.1 result.2) :
    (collected expected.length results).map Outcome.bare =
      expected.map fun r => r.outcome.bare := by
  have hnodup := hplaced.nodup_iff.mpr List.nodup_range
  refine filterMap_filled (List.forall₂_iff_get.mpr ⟨length_placed, fun k hk hk' => ?_⟩)
  have hin : k ∈ results.map (·.1) := hplaced.mem_iff.mpr (List.mem_range.mpr hk')
  obtain ⟨⟨position, o⟩, hresult, rfl⟩ := List.mem_map.mp hin
  obtain ⟨r, hr, hbare⟩ := hexpected _ hresult
  obtain ⟨_, hget⟩ := List.getElem?_eq_some_iff.mp (getElem?_placed hnodup hresult hk')
  obtain ⟨_, hexpect⟩ := List.getElem?_eq_some_iff.mp hr
  exact ⟨o, hget, hbare.trans (congrArg (·.outcome.bare) hexpect.symm)⟩

end Collected

end Pool

/-! ## One worker -/

section Sequential

variable (settings : Settings) (selection : Selection)

/-- The model that a batch finds matters to nothing but the entities. -/
theorem reconstruct_alike (model model' : Model) (batch : Batch) :
    (reconstruct settings selection model batch).outcome.bare =
        (reconstruct settings selection model' batch).outcome.bare ∧
      (reconstruct settings selection model batch).tallies =
        (reconstruct settings selection model' batch).tallies := by
  -- With the second model alone the task of the batch is the reconstruction with that model.
  obtain ⟨hbare, hcount⟩ := (ends_reconstructing settings selection model batch).alone ⟨model', 0⟩
  rw [alone_reconstructing] at hbare hcount
  exact ⟨hbare.symm, (hcount.trans (zero_add _)).symm⟩

theorem extend_all (model : Model) (batches : List Batch) (r : Reconstruction) :
    (batches.foldl (Reconstruction.extend settings selection) r).outcomes.map Outcome.bare =
        r.outcomes.map Outcome.bare ++
          batches.map (fun b => (reconstruct settings selection model b).outcome.bare) ∧
      (batches.foldl (Reconstruction.extend settings selection) r).tallies = r.tallies +
        (batches.map fun b => (reconstruct settings selection model b).tallies).sum := by
  induction batches generalizing r with
  | nil => exact ⟨(List.append_nil _).symm, (add_zero _).symm⟩
  | cons b rest ih =>
    obtain ⟨houtcomes, htallies⟩ := ih (r.extend settings selection b)
    obtain ⟨hbare, hcount⟩ := reconstruct_alike settings selection r.model model b
    rw [List.foldl_cons, houtcomes, htallies]
    constructor
    · simp only [Reconstruction.extend, List.map_append, List.map_cons, List.map_nil, hbare,
        List.append_assoc, List.cons_append, List.nil_append]
    · rw [List.map_cons, List.sum_cons, ← hcount, ← add_assoc]
      refine congrArg (· + _) ?_
      rw [BatchResult.tallies, Tallies.count_eq_add 0, zero_add]
      exact Tallies.count_eq_add _ _ _

theorem reconstruct_traceId (model : Model) (batch : Batch) :
    (reconstruct settings selection model batch).outcome.traceId = batch.traceId := by
  unfold reconstruct
  split
  · cases hfault : ((Tracker.start batch.trace settings.matching model).feed 0 0
        batch.events).fault with
    | some fault => simp only [hfault]; rfl
    | none =>
      simp only [hfault, Tracker.conclude_traceId, Tracker.finish_trace, Tracker.feed_trace]
      rfl
  · rfl

theorem BatchResult.tallies_total (r : BatchResult) : r.tallies.total = 1 := by
  unfold tallies
  cases r.outcome <;> rfl

theorem total_tallies (results : List BatchResult) :
    (results.map BatchResult.tallies).sum.total = results.length := by
  induction results with
  | nil => rfl
  | cons r rest ih =>
    rw [List.map_cons, List.sum_cons, Tallies.total_add, ih, r.tallies_total, List.length_cons,
      Nat.add_comm]

/-- One worker, without a queue, comes to what is expected of each batch. -/
theorem foldl_extend (model : Model) (batches : List Batch) :
    (batches.foldl (Reconstruction.extend settings selection) { model }).outcomes.map Outcome.bare =
        (batches.map (reconstruct settings selection model)).map (fun r => r.outcome.bare) ∧
      (batches.foldl (Reconstruction.extend settings selection) { model }).tallies =
        ((batches.map (reconstruct settings selection model)).map BatchResult.tallies).sum := by
  obtain ⟨houtcomes, htallies⟩ := extend_all settings selection model batches { model }
  rw [houtcomes, htallies, List.map_map, List.map_map]
  exact ⟨rfl, zero_add _⟩

end Sequential

/-! ## All workers -/

section Delivery

variable (settings : Settings) (selection : Selection) (model : Model) (batches : List Batch)

/-- What is delivered under any schedule is what is expected of each batch. -/
theorem delivered_expected {schedule : List Nat} {d : Delivery}
    (h : reconstructAll settings selection model batches schedule = some d) :
    d.outcomes.map Outcome.bare =
        (batches.map (reconstruct settings selection model)).map (fun r => r.outcome.bare) ∧
      d.shared.tallies =
        ((batches.map (reconstruct settings selection model)).map BatchResult.tallies).sum := by
  unfold reconstructAll at h
  split at h
  · cases h
    exact foldl_extend settings selection model batches
  · rename_i hseveral
    have hworkers : settings.workersFor batches ≠ 0 := by unfold Settings.workersFor; omega
    cases hrun : (Pool.start model (settings.workersFor batches) batches).run settings selection
        schedule with
    | none => simp [hrun] at h
    | some p =>
      simp only [hrun] at h
      split at h
      · rename_i hover
        cases h
        have hstart := @Pool.conserves_start settings selection model _ hworkers batches
        have hconserves := Pool.run_keeps (fun p q hturn hp => Pool.Conserves.turn hp hturn) hrun
          hstart
        obtain ⟨hplaced, hexpected, htallies⟩ := hconserves.over hover
        have hcollected := Pool.collected_bare hplaced hexpected
        rw [List.length_map] at hcollected
        exact ⟨hcollected, htallies⟩
      · cases h

theorem exists_delivery {schedule : List Nat} {p : Pool}
    (h : (Pool.start model (settings.workersFor batches) batches).run settings selection schedule =
      some p) :
    ∃ more d, reconstructAll settings selection model batches (schedule ++ more) = some d := by
  obtain ⟨more, q, hrun, hover⟩ := @Pool.exists_run_over settings selection p
  refine ⟨more, Option.isSome_iff_exists.mp ?_⟩
  unfold reconstructAll
  split
  · rfl
  · simp only [Pool.run_append, h, Option.bind_some, hrun, hover, if_true, Option.isSome_some]

/-- With any number of workers, and in whatever order they take turns, the batches come to what they
come to with one worker: each at its position to the same outcome up to entities, and all to the
same tallies. Whatever turns have been taken, the workers can go on until everything is delivered,
and they cannot go on for ever. -/
theorem delivery_settled :
    ∃ r,
      (∀ schedule, reconstructAll { settings with workers := 1 } selection model batches schedule =
        some r) ∧
      (∀ schedule d, reconstructAll settings selection model batches schedule = some d →
        d.outcomes.map Outcome.bare = r.outcomes.map Outcome.bare ∧
        d.outcomes.map Outcome.traceId = batches.map Batch.traceId ∧
        d.shared.tallies = r.shared.tallies ∧ d.shared.tallies.total = batches.length) ∧
      (∀ schedule p, (Pool.start model (settings.workersFor batches) batches).run settings selection
          schedule = some p →
        ∃ more d, reconstructAll settings selection model batches (schedule ++ more) = some d) ∧
      WellFounded fun q p : Pool => ∃ k, p.turn settings selection k = some q := by
  have hone : Settings.workersFor { settings with workers := 1 } batches = 1 := by
    change min (max 1 1) (max batches.length 1) = 1
    omega
  have halone : ∀ schedule, reconstructAll { settings with workers := 1 } selection model batches
      schedule = some _ := fun schedule => if_pos hone
  obtain ⟨hr, htallies⟩ := delivered_expected { settings with workers := 1 } selection model batches
    (halone [])
  refine ⟨_, halone, fun schedule d hd => ?_,
    fun schedule p hp => exists_delivery settings selection model batches hp,
    Pool.wellFounded_turns⟩
  obtain ⟨houtcomes, hcounted⟩ := delivered_expected settings selection model batches hd
  refine ⟨houtcomes.trans hr.symm, ?_, hcounted.trans htallies.symm, ?_⟩
  · have hids := congrArg (List.map Outcome.traceId) houtcomes
    simpa only [List.map_map, Function.comp_def, Outcome.traceId_bare, reconstruct_traceId]
      using hids
  · rw [hcounted, total_tallies, List.length_map]

end Delivery

/-- An operation of one class in the first trace, and one of another class in the second trace, with
an event that is out of sequence. -/
def rivals : List Batch :=
  [{ trace := { traceId := 1 }
     events :=
      [.before .operation ⟨1, 1, 0⟩ ⟨"a.A.a()", "a.A"⟩,
       .after .operation ⟨2, 1, 1⟩ ⟨"a.A.a()", "a.A"⟩] },
   { trace := { traceId := 2 }
     events :=
      [.before .operation ⟨1, 2, 0⟩ ⟨"b.B.b()", "b.B"⟩,
       .after .operation ⟨2, 2, 7⟩ ⟨"b.B.b()", "b.B"⟩,
       .after .operation ⟨3, 2, 2⟩ ⟨"b.B.b()", "b.B"⟩] }]

/-- Both workers take a batch, and then the second one does all it has to do before the first
one. -/
def overtaking : List Nat :=
  [0, 1] ++ List.replicate 14 1 ++ List.replicate 12 0

/-- The entities get other ids, but nothing else changes. -/
theorem rivals_settled :
    ∃ r d, reconstructAll { workers := 1 } .all {} rivals [] = some r ∧
      reconstructAll { workers := 2 } .all {} rivals overtaking = some d ∧
      d.outcomes ≠ r.outcomes ∧ d.outcomes.map Outcome.bare = r.outcomes.map Outcome.bare ∧
      d.outcomes.map Outcome.traceId = [1, 2] ∧
      d.shared.tallies = r.shared.tallies ∧ d.shared.tallies.total = 2 := by
  obtain ⟨r, hr, hsettled, _⟩ := delivery_settled { workers := 2 } .all {} rivals
  obtain ⟨hbare, hids, htallies, htotal⟩ := hsettled overtaking _ rfl
  refine ⟨r, _, hr [], rfl, ?_, hbare, hids, htallies, htotal⟩
  have hone : some _ = some r := (rfl : _ = reconstructAll { workers := 1 } .all {} rivals []).trans
    (hr [])
  cases hone
  decide

end Retrace
