import Retrace.Task

/-! Several workers. The batches are put into one queue, each with its position. A worker that waits
takes the next one, reconstructs it, sends the outcome with the position, and waits again; if the
queue is empty it is gone. Workers take turns in any order, and a turn is one access to what they
share: the queue, the model, the tallies or the results. When all workers are gone each outcome is
put where its position says.

There are no more workers than batches, and for one worker there is no queue. -/

namespace Retrace

inductive Worker where
  | waiting
  | working (position : Nat) (task : Task Outcome)
  | gone

structure Pool where
  jobs : List (Nat × Batch)
  workers : List Worker
  shared : Shared := {}
  results : List (Nat × Outcome) := []

namespace Pool

/-- A pool before its first turn. -/
def start (model : Model) (workers : Nat) (batches : List Batch) : Pool where
  jobs := (List.range batches.length).zip batches
  workers := List.replicate workers .waiting
  shared := { model }

/-- The next turn of a worker. There is none for a worker that is gone. -/
def turn (settings : Settings) (selection : Selection) (p : Pool) (worker : Nat) : Option Pool :=
  let becomes (w : Worker) := p.workers.set worker w
  match p.workers[worker]? with
  | some .waiting =>
    match p.jobs with
    | (position, batch) :: jobs =>
      some { p with
        jobs, workers := becomes (.working position (reconstructing settings selection batch)) }
    | [] => some { p with workers := becomes .gone }
  | some (.working position (.access act next)) =>
    some { p with shared := act p.shared, workers := becomes (.working position (next p.shared)) }
  | some (.working position (.done outcome)) =>
    some { p with results := p.results ++ [(position, outcome)], workers := becomes .waiting }
  | some .gone => none
  | none => none

/-- Takes turns as a schedule says, which names a worker for each. -/
def run (settings : Settings) (selection : Selection) (p : Pool) : List Nat → Option Pool
  | [] => some p
  | worker :: schedule =>
    (p.turn settings selection worker).bind (run settings selection · schedule)

/-- Are all workers gone? -/
def isOver (p : Pool) : Bool :=
  p.workers.all fun
    | .gone => true
    | _ => false

/-- Each outcome at its position, and nothing where there is none. -/
def placed (total : Nat) (results : List (Nat × Outcome)) : List (Option Outcome) :=
  results.foldl (fun slots (position, outcome) => slots.set position (some outcome))
    (List.replicate total none)

/-- The outcomes by position. -/
def collected (total : Nat) (results : List (Nat × Outcome)) : List Outcome :=
  (placed total results).filterMap id

end Pool

/-- How many workers there are for some batches. -/
def Settings.workersFor (s : Settings) (batches : List Batch) : Nat :=
  min (max s.workers 1) (max batches.length 1)

/-- What a list of batches came to, in their order, and what was shared on the way. -/
structure Delivery where
  outcomes : List Outcome
  shared : Shared
  deriving DecidableEq, Repr

/-- Reconstructs batches with as many workers as the settings say, under a schedule. A schedule that
does not end with all workers gone delivers nothing. One worker has no need of it. -/
def reconstructAll (settings : Settings) (selection : Selection) (model : Model)
    (batches : List Batch) (schedule : List Nat) : Option Delivery :=
  if settings.workersFor batches = 1 then
    let r := batches.foldl (Reconstruction.extend settings selection) { model }
    some ⟨r.outcomes, ⟨r.model, r.tallies⟩⟩
  else
    let start := Pool.start model (settings.workersFor batches) batches
    match start.run settings selection schedule with
    | some p =>
      if p.isOver then some ⟨Pool.collected batches.length p.results, p.shared⟩ else none
    | none => none

end Retrace
