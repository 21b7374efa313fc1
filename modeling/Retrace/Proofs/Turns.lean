import Mathlib.Logic.Hydra
import Retrace.Pool

/-! Turns. What the turn of a worker does to a pool is said once. A turn moves one worker on: it
takes a batch off the queue, or the worker comes closer to being gone. So every schedule comes to an
end, whatever the tasks are, and as long as a worker is left it has a turn. -/

namespace Retrace.Pool

section Turns

variable {settings : Settings} {selection : Selection}

/-- What the turn of one worker may do. -/
inductive Turns (settings : Settings) (selection : Selection) : Pool → Pool → Prop where
  | take {before after : List Worker} {position : Nat} {batch : Batch} {jobs : List (Nat × Batch)}
      {shared : Shared} {results : List (Nat × Outcome)} :
      Turns settings selection
        ⟨(position, batch) :: jobs, before ++ .waiting :: after, shared, results⟩
        ⟨jobs, before ++ .working position (reconstructing settings selection batch) :: after,
          shared, results⟩
  | leave {before after : List Worker} {shared : Shared} {results : List (Nat × Outcome)} :
      Turns settings selection ⟨[], before ++ .waiting :: after, shared, results⟩
        ⟨[], before ++ .gone :: after, shared, results⟩
  | access {before after : List Worker} {position : Nat} {act : Shared → Shared}
      {next : Shared → Task Outcome} {jobs : List (Nat × Batch)} {shared : Shared}
      {results : List (Nat × Outcome)} :
      Turns settings selection
        ⟨jobs, before ++ .working position (.access act next) :: after, shared, results⟩
        ⟨jobs, before ++ .working position (next shared) :: after, act shared, results⟩
  | send {before after : List Worker} {position : Nat} {outcome : Outcome}
      {jobs : List (Nat × Batch)} {shared : Shared} {results : List (Nat × Outcome)} :
      Turns settings selection
        ⟨jobs, before ++ .working position (.done outcome) :: after, shared, results⟩
        ⟨jobs, before ++ .waiting :: after, shared, results ++ [(position, outcome)]⟩

/-- Where one worker is in the list of all. -/
theorem exists_split {workers : List Worker} {k : Nat} {w : Worker} (h : workers[k]? = some w) :
    ∃ before after, workers = before ++ w :: after ∧
      ∀ w', workers.set k w' = before ++ w' :: after := by
  obtain ⟨hk, rfl⟩ := List.getElem?_eq_some_iff.mp h
  refine ⟨workers.take k, workers.drop (k + 1), ?_, fun w' => ?_⟩
  · rw [List.getElem_cons_drop, List.take_append_drop]
  · exact List.set_eq_take_append_cons_drop.trans (if_pos hk)

theorem turns_of_turn {p q : Pool} {k : Nat} (h : p.turn settings selection k = some q) :
    Turns settings selection p q := by
  obtain ⟨jobs, workers, shared, results⟩ := p
  unfold turn at h
  cases hw : workers[k]? with
  | none => simp [hw] at h
  | some w =>
    obtain ⟨before, after, hsplit, hset⟩ := exists_split hw
    simp only [hw, hset] at h
    subst hsplit
    cases w with
    | waiting =>
      cases jobs with
      | nil => cases h; exact .leave
      | cons job jobs => cases h; exact .take
    | working position task =>
      cases task with
      | done outcome => cases h; exact .send
      | access act next => cases h; exact .access
    | gone => cases h

/-- A worker that is not gone has a turn. -/
theorem exists_turn {p : Pool} (h : p.isOver = false) :
    ∃ k q, p.turn settings selection k = some q := by
  obtain ⟨w, hw, hleft⟩ := List.all_eq_false.mp h
  obtain ⟨k, hk⟩ := List.getElem?_of_mem hw
  refine ⟨k, Option.isSome_iff_exists.mp ?_⟩
  cases w with
  | waiting => cases hjobs : p.jobs <;> simp only [turn, hk, hjobs, Option.isSome_some]
  | working position task => cases task <;> simp only [turn, hk, Option.isSome_some]
  | gone => simp at hleft

/-! ## Every schedule ends -/

/-- Is the first one what a turn leaves of the second one, if it takes no batch? -/
inductive Ahead : Worker → Worker → Prop where
  | left : Ahead .gone .waiting
  | sent {position : Nat} {outcome : Outcome} :
      Ahead .waiting (.working position (.done outcome))
  | accessed {position : Nat} {act : Shared → Shared} {next : Shared → Task Outcome} {s : Shared} :
      Ahead (.working position (next s)) (.working position (.access act next))

theorem wellFounded_ahead : WellFounded Ahead := by
  have hgone : Acc Ahead .gone := ⟨_, fun _ h => by cases h⟩
  have hwaiting : Acc Ahead .waiting := ⟨_, fun _ h => by cases h; exact hgone⟩
  refine ⟨fun w => ?_⟩
  cases w with
  | waiting => exact hwaiting
  | gone => exact hgone
  | working position task =>
    induction task with
    | done outcome => exact ⟨_, fun _ h => by cases h; exact hwaiting⟩
    | access act next ih => exact ⟨_, fun _ h => by cases h; exact ih _⟩

theorem cutExpand_of_ahead {before after : List Worker} {w w' : Worker} (h : Ahead w' w) :
    Relation.CutExpand Ahead (↑(before ++ w' :: after) : Multiset Worker)
      ↑(before ++ w :: after) := by
  have hsplit : ∀ v : Worker, (↑(before ++ v :: after) : Multiset Worker) =
      ↑(before ++ after) + {v} := by
    intro v
    rw [← Multiset.coe_singleton, Multiset.coe_add, Multiset.coe_eq_coe]
    exact List.perm_middle.trans (List.perm_append_singleton v _).symm
  rw [hsplit, hsplit]
  exact Relation.cutExpand_add_single _ h

/-- No pool takes turns for ever. -/
theorem wellFounded_turns :
    WellFounded fun q p : Pool => ∃ k, p.turn settings selection k = some q := by
  have hlex : WellFounded (InvImage (Prod.Lex (· < ·) (Relation.CutExpand Ahead))
      fun p : Pool => (p.jobs.length, (p.workers : Multiset Worker))) :=
    InvImage.wf _ (WellFounded.prod_lex Nat.lt_wfRel.wf wellFounded_ahead.cutExpand)
  refine Subrelation.wf (fun {q p} h => ?_) hlex
  obtain ⟨k, hturn⟩ := h
  cases turns_of_turn hturn with
  | take => exact .left _ _ (Nat.lt_succ_self _)
  | leave => exact .right _ (cutExpand_of_ahead .left)
  | access => exact .right _ (cutExpand_of_ahead .accessed)
  | send => exact .right _ (cutExpand_of_ahead .sent)

theorem run_append (p : Pool) (first later : List Nat) :
    p.run settings selection (first ++ later) =
      (p.run settings selection first).bind (run settings selection · later) := by
  induction first generalizing p with
  | nil => rfl
  | cons k rest ih =>
    rw [List.cons_append, run, run, Option.bind_assoc]
    exact congrArg _ (funext fun q => ih q)

/-- Every pool comes to an end under some schedule. -/
theorem exists_run_over (p : Pool) :
    ∃ schedule q, p.run settings selection schedule = some q ∧ q.isOver := by
  induction p using (@wellFounded_turns settings selection).induction with
  | _ p ih =>
    cases hover : p.isOver with
    | true => exact ⟨[], p, rfl, hover⟩
    | false =>
      obtain ⟨k, next, hturn⟩ := @exists_turn settings selection p hover
      obtain ⟨schedule, q, hrun, hq⟩ := ih next ⟨k, hturn⟩
      refine ⟨k :: schedule, q, ?_, hq⟩
      rw [run, hturn]
      exact hrun

/-- What every turn keeps holds after every run. -/
theorem run_keeps {P : Pool → Prop} (hstep : ∀ p q, Turns settings selection p q → P p → P q)
    {p q : Pool} {schedule : List Nat} (hrun : p.run settings selection schedule = some q)
    (h : P p) : P q := by
  induction schedule generalizing p with
  | nil => cases hrun; exact h
  | cons k rest ih =>
    obtain ⟨next, hturn, hrest⟩ := Option.bind_eq_some_iff.mp hrun
    exact ih hrest (hstep p next (turns_of_turn hturn) h)

end Turns

end Retrace.Pool
