import BallotMix.Error

/-!
# Workers

A list of independent tasks is shared out among workers: worker `w` of `k` takes the tasks `w`,
`w + k`, `w + 2 k`, … in this order and stops at its first failure.  A `Pool` is the state of all
workers, `Pool.step` lets one of them do its next task, and a schedule says who goes next.  When all
have stopped, the failure of the first worker that has one is the failure of the whole, and without
any failure the results stand in the order of the tasks.

Who goes next is not up to the workers.  `Workers.forRange` asks a `Scheduler`, and where none is
named the workers take turns.  With one worker the tasks are done in order.
-/

namespace BallotMix

namespace Workers

/-- A worker on `n` tasks. -/
structure Worker (n : Nat) where
  /-- The tasks it has still to do. -/
  todo : List (Fin n)
  /-- The failure that stopped it. -/
  failure : Option Error

/-- The workers on `n` tasks, and the results there are. -/
structure Pool (α : Type) (n : Nat) where
  workers : List (Worker n)
  results : List (Option α)

def stripe (n count w : Nat) : List (Fin n) :=
  (List.finRange n).filter fun i => i.val % count = w

namespace Pool

variable {α : Type} {n : Nat}

def start (α : Type) (n count : Nat) : Pool α n :=
  ⟨(List.range count).map fun w => ⟨stripe n count w, none⟩, List.replicate n none⟩

/-- Worker `w` does its next task, if it has one. -/
def step (task : Fin n → Result α) (pool : Pool α n) (w : Nat) : Pool α n :=
  match pool.workers[w]? with
  | none => pool
  | some worker =>
    match worker.todo with
    | [] => pool
    | i :: todo =>
      match task i with
      | .ok a => ⟨pool.workers.set w ⟨todo, worker.failure⟩, pool.results.set i (some a)⟩
      | .error e => ⟨pool.workers.set w ⟨[], some e⟩, pool.results⟩

/-- The pool after the scheduled workers did their steps. -/
def run (task : Fin n → Result α) (schedule : List Nat) (pool : Pool α n) : Pool α n :=
  schedule.foldl (step task) pool

/-- Whether no worker has anything left to do. -/
def isDone (pool : Pool α n) : Bool := pool.workers.all fun w => w.todo.isEmpty

/-- The results of a pool that is done, or the failure of the first worker that has one. -/
def outcome (pool : Pool α n) : Result (List α) :=
  match pool.workers.findSome? fun w => w.failure with
  | some e => .error e
  | none => .ok (pool.results.filterMap id)

end Pool

/-! ## Loops -/

/-- What decides who goes next. -/
class Scheduler where
  /-- For tasks that `count` workers share, the workers in the order of their steps.  After these
  steps they take turns, until all have stopped. -/
  order : {α : Type} → {n : Nat} → (task : Fin n → Result α) → (count : Nat) → List Nat

/-- The workers take turns from the start. -/
instance Scheduler.turns : Scheduler where
  order _ _ := []

variable [Scheduler]

/-- The results of `n` tasks, done by the given number of workers. -/
def forRange {α : Type} (threads n : Nat) (task : Fin n → Result α) : Result (List α) :=
  if threads ≤ 1 ∨ n < 2 then (List.finRange n).mapM task
  else
    let count := min threads n
    let turns := (List.range n).map fun i => i % count
    ((Pool.start α n count).run task (Scheduler.order task count ++ turns)).outcome

/-- The results of one task for each entry of a list. -/
def forList {α β : Type} (threads : Nat) (xs : List α) (task : α → Result β) : Result (List β) :=
  forRange threads xs.length fun i => task xs[i]

end Workers

end BallotMix
