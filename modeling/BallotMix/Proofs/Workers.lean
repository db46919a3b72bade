import BallotMix.Proofs.Computation
import BallotMix.Workers
import Mathlib

/-!
# Schedules do not matter

Each worker goes through its stripe in order, whoever goes next (`Progress`, kept by every step).  So
when all have stopped, there are results exactly if all tasks succeed, and they are those of doing
the tasks in order (`outcome_eq_ok_iff`).  Taking turns lets all workers finish, whatever was done
before (`isDone_turns`), so neither the number of workers nor the scheduler matters
(`forList_eq_ok_iff`, `forList_eq_mapM`).

The stripes share out the tasks, so a task is done at most once along a schedule, and is left out
only if one before it on its stripe fails (`count_visits`).

A loop is the run of its `crew` along its `agenda`, also where it does the tasks in order
(`forRange_eq_outcome`): then the crew is one worker, who does what is done in order and fails as it
fails (`run_mapM_recorded`).
-/

namespace BallotMix.Workers

variable {α β : Type} {n count : ℕ} {task : Fin n → Result α}

namespace Pool

/-! ## Steps and runs -/

theorem run_cons (w : ℕ) (schedule : List ℕ) (pool : Pool α n) :
    pool.run task (w :: schedule) = (pool.step task w).run task schedule := rfl

/-- The task that worker `w` does next, if it has one. -/
def next (pool : Pool α n) (w : ℕ) : Option (Fin n) :=
  pool.workers[w]?.bind fun worker => worker.todo.head?

theorem step_of_next {pool : Pool α n} {w : ℕ} (h : pool.next w = none) :
    pool.step task w = pool := by
  unfold Pool.step
  split
  · rfl
  · next worker hw =>
    have todo : worker.todo = [] := by simpa [next, hw] using h
    rw [todo]

theorem todo_of_isDone {pool : Pool α n} (done : pool.isDone = true) {worker : Worker n}
    (mem : worker ∈ pool.workers) : worker.todo = [] := by
  simpa using List.all_eq_true.1 done worker mem

/-- When all have stopped, nobody does anything more. -/
theorem next_of_isDone {pool : Pool α n} (done : pool.isDone = true) (w : ℕ) :
    pool.next w = none := by
  refine Option.bind_eq_none_iff.2 fun worker hw => ?_
  rw [todo_of_isDone done (List.mem_of_getElem? hw), List.head?_nil]

theorem run_of_isDone {pool : Pool α n} (done : pool.isDone = true) (schedule : List ℕ) :
    pool.run task schedule = pool := by
  induction schedule with
  | nil => rfl
  | cons w schedule ih => rw [run_cons, step_of_next (next_of_isDone done w), ih]

/-! ## What a worker has done -/

/-- The task succeeds, and its value stands in its place among the results. -/
def Filed (task : Fin n → Result α) (results : List (Option α)) (i : Fin n) : Prop :=
  ∃ a, task i = .ok a ∧ results[i.val]? = some (some a)

theorem Filed.set {results : List (Option α)} {i j : Fin n} {a : α} (h : Filed task results j)
    (ha : task i = .ok a) : Filed task (results.set i (some a)) j := by
  obtain ⟨b, hb, hr⟩ := h
  refine ⟨b, hb, ?_⟩
  by_cases same : i = j
  · subst same
    obtain rfl : a = b := by simpa [ha] using hb
    rw [List.getElem?_set_self (List.getElem?_eq_some_iff.1 hr).1]
  · rw [List.getElem?_set_ne (fun e => same (Fin.ext e)), hr]

theorem filed_set_self {results : List (Option α)} (size : results.length = n) {i : Fin n} {a : α}
    (ha : task i = .ok a) : Filed task (results.set i (some a)) i :=
  ⟨a, ha, List.getElem?_set_self (by rw [size]; exact i.isLt)⟩

/-- How far a worker has got on its stripe: either it has filed the tasks before those it has still
to do, or it was stopped by a task that fails. -/
inductive Progress (task : Fin n → Result α) (results : List (Option α)) (stripe : List (Fin n)) :
    Worker n → Prop
  /-- All tasks up to now have succeeded. -/
  | running (before todo : List (Fin n)) (split : stripe = before ++ todo)
      (filed : ∀ i ∈ before, Filed task results i) : Progress task results stripe ⟨todo, none⟩
  /-- A task has failed. -/
  | stopped (i : Fin n) (e : Error) (mem : i ∈ stripe) (fault : task i = .error e) :
      Progress task results stripe ⟨[], some e⟩

theorem Progress.set {results : List (Option α)} {stripe : List (Fin n)} {worker : Worker n}
    (h : Progress task results stripe worker) {i : Fin n} {a : α} (ha : task i = .ok a) :
    Progress task (results.set i (some a)) stripe worker := by
  cases h with
  | running before todo split filed =>
    exact .running before todo split fun j hj => (filed j hj).set ha
  | stopped i e mem fault => exact .stopped i e mem fault

/-- Every worker makes its progress, and there is a place for every result. -/
structure Sound (task : Fin n → Result α) (count : ℕ) (pool : Pool α n) : Prop where
  size : pool.results.length = n
  crew : pool.workers.length = count
  progress : ∀ w worker, pool.workers[w]? = some worker →
    Progress task pool.results (stripe n count w) worker

theorem sound_start (task : Fin n → Result α) (count : ℕ) :
    Sound task count (start α n count) where
  size := by simp [start]
  crew := by simp [start]
  progress := by
    intro w worker h
    simp only [start, List.getElem?_map, Option.map_eq_some_iff] at h
    obtain ⟨w', hw, rfl⟩ := h
    obtain ⟨inside, rfl⟩ := List.getElem?_eq_some_iff.1 hw
    rw [List.getElem_range]
    exact .running [] _ rfl (by simp)

/-- Replacing one worker keeps the pool sound if its own progress and that of the others is. -/
theorem Sound.replace {pool : Pool α n} (h : Sound task count pool) (w : ℕ) {worker : Worker n}
    {results : List (Option α)} (size : results.length = n)
    (own : Progress task results (stripe n count w) worker)
    (others : ∀ v other, pool.workers[v]? = some other →
      Progress task results (stripe n count v) other) :
    Sound task count ⟨pool.workers.set w worker, results⟩ where
  size := size
  crew := by rw [List.length_set, h.crew]
  progress := by
    intro v other hv
    dsimp only at hv
    by_cases same : w = v
    · subst same
      obtain ⟨inside, hv⟩ := List.getElem?_eq_some_iff.1 hv
      rw [List.getElem_set_self] at hv
      rwa [← hv]
    · rw [List.getElem?_set_ne same] at hv
      exact others v other hv

/-- A step of any worker keeps the progress of all. -/
theorem Sound.step {pool : Pool α n} (h : Sound task count pool) (w : ℕ) :
    Sound task count (pool.step task w) := by
  unfold Pool.step
  cases hw : pool.workers[w]? with
  | none => exact h
  | some worker =>
    cases h.progress w worker hw with
    | stopped i e mem fault => exact h
    | running before todo split filed =>
      cases todo with
      | nil => exact h
      | cons i todo =>
        dsimp only
        cases hi : task i with
        | ok a =>
          refine h.replace w (by rw [List.length_set, h.size]) ?_ fun v other hv =>
            (h.progress v other hv).set hi
          refine .running (before ++ [i]) todo (by rw [split, List.append_assoc]; rfl) fun j hj => ?_
          rcases List.mem_append.1 hj with hj | hj
          · exact (filed j hj).set hi
          · obtain rfl := List.mem_singleton.1 hj
            exact filed_set_self h.size hi
        | error e =>
          exact h.replace w h.size (.stopped i e (by rw [split]; simp) hi) h.progress

/-- Whoever goes when, all workers make their progress. -/
theorem Sound.run {pool : Pool α n} (h : Sound task count pool) (schedule : List ℕ) :
    Sound task count (pool.run task schedule) := by
  induction schedule generalizing pool with
  | nil => exact h
  | cons w schedule ih => exact ih (h.step w)

/-! ## What a pool has done -/

theorem mem_stripe (count : ℕ) (i : Fin n) : i ∈ stripe n count (i.val % count) := by
  simp [stripe]

/-- The worker who has a task on its stripe. -/
theorem Sound.worker_of {pool : Pool α n} (h : Sound task count pool) (positive : 0 < count)
    (i : Fin n) : ∃ worker, pool.workers[i.val % count]? = some worker ∧ worker ∈ pool.workers ∧
      Progress task pool.results (stripe n count (i.val % count)) worker := by
  have inside : i.val % count < pool.workers.length := by
    rw [h.crew]
    exact Nat.mod_lt _ positive
  have hw := List.getElem?_eq_getElem inside
  exact ⟨_, hw, List.getElem_mem inside, h.progress _ _ hw⟩

/-- When all have stopped without a failure, every task is filed. -/
theorem Sound.filed {pool : Pool α n} (h : Sound task count pool) (positive : 0 < count)
    (done : pool.isDone = true) (clean : pool.workers.findSome? (fun w => w.failure) = none)
    (i : Fin n) : Filed task pool.results i := by
  obtain ⟨worker, -, mem, progress⟩ := h.worker_of positive i
  have idle := todo_of_isDone done mem
  have calm : worker.failure = none := List.findSome?_eq_none_iff.1 clean worker mem
  cases progress with
  | running before todo split filed =>
    refine filed i ?_
    have on := mem_stripe count i
    rwa [split, show todo = [] from idle, List.append_nil] at on
  | stopped j e on fault => cases calm

/-- When all have stopped, there are results exactly if all tasks succeed, and they are those of the
tasks in order. -/
theorem Sound.outcome_eq_ok_iff {pool : Pool α n} (h : Sound task count pool) (positive : 0 < count)
    (done : pool.isDone = true) {ys : List α} :
    pool.outcome = .ok ys ↔ (List.finRange n).mapM task = .ok ys := by
  unfold outcome
  cases clean : pool.workers.findSome? (fun w => w.failure) with
  | none =>
    have filed := h.filed positive done clean
    choose f hf hr using filed
    have results : pool.results = (List.finRange n).map fun i => some (f i) := by
      refine List.ext_getElem? fun k => ?_
      by_cases hk : k < n
      · rw [hr ⟨k, hk⟩]
        simp [hk]
      · rw [List.getElem?_eq_none (by rw [h.size]; omega), List.getElem?_eq_none (by simp; omega)]
    rw [Result.mapM_eq_ok (g := f) fun i _ => hf i]
    simp [results, List.filterMap_map, List.filterMap_eq_map']
  | some e =>
    obtain ⟨worker, mem, failed⟩ := List.exists_of_findSome?_eq_some clean
    obtain ⟨w, hw⟩ := List.mem_iff_getElem?.1 mem
    cases h.progress w worker hw with
    | running before todo split filed => cases failed
    | stopped i e mem fault =>
      refine iff_of_false (by simp) fun hys => ?_
      obtain ⟨y, -, hy⟩ := Result.exists_of_mapM hys (List.mem_finRange i)
      rw [fault] at hy
      cases hy

/-! ## Taking turns -/

/-- The number of tasks a worker has still to do. -/
def left (pool : Pool α n) (w : ℕ) : ℕ :=
  match pool.workers[w]? with
  | some worker => worker.todo.length
  | none => 0

theorem left_set {workers : List (Worker n)} {results : List (Option α)} {w : ℕ}
    (inside : w < workers.length) (worker : Worker n) (v : ℕ) :
    left ⟨workers.set w worker, results⟩ v =
      if w = v then worker.todo.length else left (⟨workers, results⟩ : Pool α n) v := by
  unfold left
  dsimp only
  by_cases same : w = v
  · subst same
    rw [List.getElem?_set_self inside, if_pos rfl]
  · rw [List.getElem?_set_ne same, if_neg same]

theorem left_of_next {pool : Pool α n} {w : ℕ} (h : pool.next w = none) : pool.left w = 0 := by
  unfold left
  split
  · next worker hw =>
    have todo : worker.todo = [] := by simpa [next, hw] using h
    rw [todo, List.length_nil]
  · rfl

/-- A step of a worker leaves it at least one task fewer, and the others as many as before. -/
theorem left_step (pool : Pool α n) (w v : ℕ) :
    (pool.step task w).left v ≤ pool.left v - if w = v then 1 else 0 := by
  cases idle : pool.next w with
  | none =>
    rw [step_of_next idle]
    split
    · next same => rw [← same, left_of_next idle]
    · exact le_rfl
  | some i =>
    obtain ⟨⟨_ | ⟨_, todo⟩, failure⟩, hw, head⟩ := Option.bind_eq_some_iff.1 idle
    · cases head
    · have inside := (List.getElem?_eq_some_iff.1 hw).1
      simp only [Pool.step, hw]
      split
      all_goals
        rw [left_set inside]
        split
        · next same => subst same; simp [left, hw]
        · exact le_rfl

theorem left_run (schedule : List ℕ) (pool : Pool α n) (v : ℕ) :
    (pool.run task schedule).left v ≤ pool.left v - schedule.count v := by
  induction schedule generalizing pool with
  | nil => exact le_rfl
  | cons w schedule ih =>
    have later := ih (pool.step task w)
    have now : (pool.step task w).left v ≤ _ := left_step pool w v
    rw [List.count_cons]
    simp only [run_cons, beq_iff_eq]
    omega

theorem left_start (w : ℕ) : (start α n count).left w ≤ (stripe n count w).length := by
  unfold left start
  dsimp only
  split
  · next worker h =>
    simp only [List.getElem?_map, Option.map_eq_some_iff] at h
    obtain ⟨w', hw, rfl⟩ := h
    obtain ⟨inside, rfl⟩ := List.getElem?_eq_some_iff.1 hw
    rw [List.getElem_range]
  · exact Nat.zero_le _

theorem isDone_iff {pool : Pool α n} : pool.isDone = true ↔ ∀ w, pool.left w = 0 := by
  simp only [isDone, List.all_eq_true, List.isEmpty_iff]
  constructor
  · intro h w
    unfold left
    split
    · next worker hw => simp [h worker (List.mem_of_getElem? hw)]
    · rfl
  · intro h worker mem
    obtain ⟨w, hw⟩ := List.mem_iff_getElem?.1 mem
    have := h w
    rw [left, hw] at this
    exact List.eq_nil_of_length_eq_zero this

/-- As many turns as there are tasks, taken in order, let every worker finish, whatever was done
before. -/
theorem isDone_turns (task : Fin n → Result α) (count : ℕ) (schedule : List ℕ) :
    ((start α n count).run task (schedule ++ (List.range n).map fun i => i % count)).isDone
      = true := by
  rw [isDone_iff]
  intro w
  have turns : ((List.range n).map fun i => i % count).count w = (stripe n count w).length := by
    rw [List.count, List.countP_map, ← List.map_coe_finRange_eq_range, List.countP_map,
      List.countP_eq_length_filter, stripe]
    congr 1
  have run : ((start α n count).run task
      (schedule ++ (List.range n).map fun i => i % count)).left w ≤ _ := left_run _ _ w
  rw [List.count_append] at run
  have first : (start α n count).left w ≤ _ := left_start w
  omega

/-! ## What is done along a schedule -/

/-- The tasks that are done along a schedule, in the order in which they are done. -/
def visits (task : Fin n → Result α) : List ℕ → Pool α n → List (Fin n)
  | [], _ => []
  | w :: schedule, pool => (pool.next w).toList ++ visits task schedule (pool.step task w)

theorem visits_of_isDone {pool : Pool α n} (done : pool.isDone = true) (schedule : List ℕ) :
    visits task schedule pool = [] := by
  induction schedule with
  | nil => rfl
  | cons w schedule ih =>
    have idle := next_of_isDone done w
    rw [visits, idle, step_of_next idle, ih]
    rfl

/-- The tasks that somebody has still to do. -/
def pending (pool : Pool α n) : List (Fin n) := pool.workers.flatMap fun worker => worker.todo

/-- A task before this one on its stripe fails. -/
def Blocked (task : Fin n → Result α) (count : ℕ) (j : Fin n) : Prop :=
  ∃ i e, i < j ∧ i.val % count = j.val % count ∧ task i = .error e

/-- What one worker does or gives up is all that is no longer pending. -/
theorem pending_set {pool : Pool α n} {w : ℕ} {worker other : Worker n} {done dropped : List (Fin n)}
    (hw : pool.workers[w]? = some worker) (split : worker.todo = done ++ (other.todo ++ dropped))
    (results : List (Option α)) :
    (done ++ (pending ⟨pool.workers.set w other, results⟩ ++ dropped)).Perm pool.pending := by
  obtain ⟨inside, rfl⟩ := List.getElem?_eq_some_iff.1 hw
  obtain ⟨before, after, listed, -, set⟩ := @List.exists_of_set _ w other _ inside
  have old : pool.pending = before.flatMap (·.todo) ++
      (done ++ (other.todo ++ dropped) ++ after.flatMap (·.todo)) := by
    rw [pending, congrArg (List.flatMap _) listed, List.flatMap_append, List.flatMap_cons, split]
  rw [old, pending, set, List.flatMap_append, List.flatMap_cons]
  refine List.perm_iff_count.2 fun j => ?_
  simp only [List.count_append]
  omega

/-- On a stripe, the tasks after one that fails are blocked. -/
theorem blocked_of_stripe {w : ℕ} {i : Fin n} {e : Error} {before todo : List (Fin n)}
    (split : stripe n count w = before ++ i :: todo) (fault : task i = .error e) {j : Fin n}
    (hj : j ∈ todo) : Blocked task count j := by
  have sorted : (stripe n count w).Pairwise (· < ·) := (List.pairwise_lt_finRange n).filter _
  have on : ∀ k ∈ i :: todo, k.val % count = w := by
    intro k hk
    have mem : k ∈ stripe n count w := by
      rw [split]
      exact List.mem_append_right _ hk
    simpa [stripe] using mem
  rw [split] at sorted
  refine ⟨i, e, ?_, ?_, fault⟩
  · exact List.rel_of_pairwise_cons (List.pairwise_append.1 sorted).2.1 hj
  · rw [on i List.mem_cons_self, on j (List.mem_cons_of_mem i hj)]

/-- A step does one pending task, or none, and gives up only tasks that are blocked. -/
theorem Sound.pending_step {pool : Pool α n} (h : Sound task count pool) (w : ℕ) :
    ∃ dropped, ((pool.next w).toList ++ ((pool.step task w).pending ++ dropped)).Perm pool.pending ∧
      ∀ j ∈ dropped, Blocked task count j := by
  unfold next Pool.step
  cases hw : pool.workers[w]? with
  | none => exact ⟨[], by simp, by simp⟩
  | some worker =>
    cases h.progress w worker hw with
    | stopped i e mem fault => exact ⟨[], by simp, by simp⟩
    | running before todo split filed =>
      cases todo with
      | nil => exact ⟨[], by simp, by simp⟩
      | cons i todo =>
        simp only [Option.bind_some, List.head?_cons, Option.toList_some]
        cases hi : task i with
        | ok a =>
          exact ⟨[], pending_set hw (by simp) (pool.results.set i (some a)), by simp⟩
        | error e =>
          exact ⟨todo, pending_set hw rfl pool.results, fun j hj => blocked_of_stripe split hi hj⟩

/-- What is done along a schedule and what is pending after it were pending before, and all else
that was is blocked. -/
theorem Sound.pending_run {pool : Pool α n} (h : Sound task count pool) (schedule : List ℕ) :
    ∃ dropped, (visits task schedule pool ++ ((pool.run task schedule).pending ++ dropped)).Perm
      pool.pending ∧ ∀ j ∈ dropped, Blocked task count j := by
  induction schedule generalizing pool with
  | nil => exact ⟨[], by rw [visits, List.nil_append, List.append_nil]; rfl, by simp⟩
  | cons w schedule ih =>
    obtain ⟨now, done, blocked⟩ := h.pending_step w
    obtain ⟨later, rest, blocked'⟩ := ih (h.step w)
    refine ⟨later ++ now, List.perm_iff_count.2 fun j => ?_, fun j hj => ?_⟩
    · have done := List.perm_iff_count.1 done j
      have rest := List.perm_iff_count.1 rest j
      simp only [visits, run_cons, List.count_append] at done rest ⊢
      omega
    · rcases List.mem_append.1 hj with hj | hj
      · exact blocked' j hj
      · exact blocked j hj

/-- The stripes share out the tasks. -/
theorem pending_start (positive : 0 < count) :
    (start α n count).pending.Perm (List.finRange n) := by
  have stripes : (start α n count).pending = (List.range count).flatMap (stripe n count) := by
    rw [pending, start, List.flatMap_map]
  rw [stripes]
  refine (List.perm_ext_iff_of_nodup ?_ (List.nodup_finRange n)).2 fun i => ?_
  · refine List.nodup_flatMap.2 ⟨fun w _ => (List.nodup_finRange n).filter _, ?_⟩
    refine List.nodup_range.imp fun {v w} apart i hv hw => apart ?_
    simp only [stripe, List.mem_filter, decide_eq_true_eq] at hv hw
    rw [← hv.2, hw.2]
  · refine iff_of_true (List.mem_flatMap.2 ⟨i.val % count, ?_, mem_stripe count i⟩)
      (List.mem_finRange i)
    exact List.mem_range.2 (Nat.mod_lt _ positive)

theorem pending_of_isDone {pool : Pool α n} (done : pool.isDone = true) : pool.pending = [] := by
  simpa [pending, isDone] using done

/-- Along a schedule at whose end all have stopped, every task is done, or is blocked and is not
done. -/
theorem visits_append_perm (positive : 0 < count) {schedule : List ℕ}
    (done : ((start α n count).run task schedule).isDone = true) :
    ∃ dropped, (visits task schedule (start α n count) ++ dropped).Perm (List.finRange n) ∧
      ∀ j ∈ dropped, Blocked task count j := by
  obtain ⟨dropped, all, blocked⟩ := (sound_start task count).pending_run schedule
  rw [pending_of_isDone done, List.nil_append] at all
  exact ⟨dropped, all.trans (pending_start positive), blocked⟩

/-- No task is done twice, and one that is not done has one before it on its stripe that fails. -/
theorem count_visits (positive : 0 < count) {schedule : List ℕ}
    (done : ((start α n count).run task schedule).isDone = true) (i : Fin n) :
    (visits task schedule (start α n count)).count i = 1 ∨
      (visits task schedule (start α n count)).count i = 0 ∧ Blocked task count i := by
  obtain ⟨dropped, all, blocked⟩ := visits_append_perm positive done
  have once : (visits task schedule (start α n count)).count i + dropped.count i = 1 := by
    rw [← List.count_append, all.count_eq]
    exact List.count_eq_one_of_mem (List.nodup_finRange n) (List.mem_finRange i)
  by_cases absent : i ∈ dropped
  · have positive := List.count_pos_iff.2 absent
    exact .inr ⟨by omega, blocked i absent⟩
  · rw [List.count_eq_zero.2 absent] at once
    exact .inl once

/-- If no task fails, each is done exactly once. -/
theorem count_visits_eq_one (positive : 0 < count) {schedule : List ℕ}
    (done : ((start α n count).run task schedule).isDone = true)
    (succeeds : ∀ i, ∃ a, task i = .ok a) (i : Fin n) :
    (visits task schedule (start α n count)).count i = 1 := by
  refine (count_visits positive done i).resolve_right ?_
  rintro ⟨-, j, e, -, -, fault⟩
  obtain ⟨a, ha⟩ := succeeds j
  rw [ha] at fault
  cases fault

/-- If no task fails, the outcome is that of doing the tasks in order. -/
theorem outcome_eq_mapM (positive : 0 < count) {schedule : List ℕ}
    (done : ((start α n count).run task schedule).isDone = true)
    (succeeds : ∀ i, ∃ a, task i = .ok a) :
    ((start α n count).run task schedule).outcome = (List.finRange n).mapM task := by
  obtain ⟨ys, hys⟩ := Result.exists_mapM fun i _ => succeeds i
  rw [hys]
  exact (((sound_start task count).run schedule).outcome_eq_ok_iff positive done).2 hys

/-- Two workers on five tasks, of whom the second goes first. -/
example : visits (fun i : Fin 5 => .ok i) [1, 1, 0, 0, 0] (start (Fin 5) 5 2) = [1, 3, 0, 2, 4] := by
  decide

/-! ## One worker -/

/-- The pool of a worker who is on its own. -/
def alone (todo : List (Fin n)) (results : List (Option α)) : Pool α n := ⟨[⟨todo, none⟩], results⟩

theorem start_one : start α n 1 = alone (List.finRange n) (List.replicate n none) := by
  have whole : stripe n 1 0 = List.finRange n := by simp [stripe, Nat.mod_one]
  simp [start, alone, whole]

theorem step_alone {i : Fin n} {todo : List (Fin n)} {results : List (Option α)} {a : α}
    (h : task i = .ok a) :
    (alone (i :: todo) results).step task 0 = alone todo (results.set i (some a)) := by
  simp [Pool.step, alone, h]

theorem step_alone_of_error {i : Fin n} {todo : List (Fin n)} {results : List (Option α)}
    {e : Error} (h : task i = .error e) :
    (alone (i :: todo) results).step task 0 = ⟨[⟨[], some e⟩], results⟩ := by
  simp [Pool.step, alone, h]

/-- A worker on its own fails as the tasks in order do. -/
theorem outcome_alone_of_error {todo : List (Fin n)} {e : Error} (h : todo.mapM task = .error e)
    (results : List (Option α)) :
    ((alone todo results).run task (List.replicate todo.length 0)).outcome = .error e := by
  induction todo generalizing results with
  | nil => cases h
  | cons i todo ih =>
    rw [List.mapM_cons] at h
    rw [List.length_cons, List.replicate_succ, run_cons]
    cases hi : task i with
    | ok a =>
      rw [hi, Result.ok_bind] at h
      rw [step_alone hi]
      refine ih ?_ _
      cases rest : todo.mapM task with
      | ok ys => rw [rest] at h; cases h
      | error e' => rw [rest] at h; cases h; rfl
    | error e' =>
      rw [hi] at h
      cases h
      rw [step_alone_of_error hi, run_of_isDone rfl]
      rfl

/-- A task that goes on record when it is begun. -/
def recorded (task : Fin n → Result α) (i : Fin n) : Draw (List (Fin n)) α := do
  modify (· ++ [i])
  liftM (task i)

theorem run_recorded (i : Fin n) (record : List (Fin n)) :
    (recorded task i).run record = (task i, record ++ [i]) := rfl

/-- Doing tasks in order puts on record what a worker on its own does. -/
theorem run_mapM_recorded (todo record : List (Fin n)) (results : List (Option α)) :
    (todo.mapM (recorded task)).run record = (todo.mapM task,
      record ++ visits task (List.replicate todo.length 0) (alone todo results)) := by
  induction todo generalizing record results with
  | nil =>
    rw [List.length_nil, List.replicate_zero, visits, List.append_nil]
    rfl
  | cons i todo ih =>
    have first : (alone (i :: todo) results).next 0 = some i := rfl
    rw [List.mapM_cons, List.mapM_cons, Draw.run_bind, run_recorded, List.length_cons,
      List.replicate_succ, visits, first]
    cases hi : task i with
    | ok a =>
      have rest := ih (record ++ [i]) (results.set i (some a))
      rw [step_alone hi, Result.ok_bind]
      dsimp only
      rw [Draw.run_bind, rest, List.append_assoc]
      cases todo.mapM task <;> rfl
    | error e =>
      rw [step_alone_of_error hi, visits_of_isDone rfl]
      rfl

end Pool

/-! ## Any number of workers -/

/-- How many workers a loop has. -/
def crew (threads n : ℕ) : ℕ := if threads ≤ 1 ∨ n < 2 then 1 else min threads n

/-- The workers of a loop in the order of their steps; one that is on its own takes every turn. -/
def agenda [Scheduler] (threads : ℕ) (task : Fin n → Result α) : List ℕ :=
  (if threads ≤ 1 ∨ n < 2 then [] else Scheduler.order task (crew threads n)) ++
    (List.range n).map fun i => i % crew threads n

theorem crew_pos (threads n : ℕ) : 0 < crew threads n := by
  unfold crew
  split <;> omega

theorem isDone_agenda [Scheduler] (threads : ℕ) (task : Fin n → Result α) :
    ((Pool.start α n (crew threads n)).run task (agenda threads task)).isDone = true :=
  Pool.isDone_turns task _ _

variable {scheduler : Scheduler} {threads : ℕ}

theorem start_crew_of_serial (serial : threads ≤ 1 ∨ n < 2) :
    Pool.start α n (crew threads n)
      = Pool.alone (List.finRange n) (List.replicate n none) := by
  rw [crew, if_pos serial, Pool.start_one]

theorem agenda_of_serial (serial : threads ≤ 1 ∨ n < 2) :
    agenda threads task = List.replicate (List.finRange n).length 0 := by
  rw [agenda, crew, if_pos serial, if_pos serial]
  simp [Nat.mod_one, List.map_const']

/-- A loop ends as the run of its workers does, also where it does the tasks in order. -/
theorem forRange_eq_outcome (threads : ℕ) (task : Fin n → Result α) :
    forRange threads n task
      = ((Pool.start α n (crew threads n)).run task (agenda threads task)).outcome := by
  by_cases serial : threads ≤ 1 ∨ n < 2
  · rw [forRange, if_pos serial]
    cases inOrder : (List.finRange n).mapM task with
    | ok ys =>
      exact ((((Pool.sound_start task _).run _).outcome_eq_ok_iff (crew_pos threads n)
        (isDone_agenda threads task)).2 inOrder).symm
    | error e =>
      rw [start_crew_of_serial serial, agenda_of_serial serial,
        Pool.outcome_alone_of_error inOrder]
  · simp only [forRange, agenda, crew, if_neg serial]

/-- Where a loop does the tasks in order, it does what its one worker does. -/
theorem run_mapM_recorded_of_serial (serial : threads ≤ 1 ∨ n < 2) :
    ((List.finRange n).mapM (Pool.recorded task)).run [] = (forRange threads n task,
      Pool.visits task (agenda threads task) (Pool.start α n (crew threads n))) := by
  rw [start_crew_of_serial serial, agenda_of_serial serial, Pool.run_mapM_recorded, forRange,
    if_pos serial, List.nil_append]

theorem forRange_eq_ok_iff {ys : List α} :
    forRange threads n task = .ok ys ↔ (List.finRange n).mapM task = .ok ys := by
  rw [forRange_eq_outcome]
  exact ((Pool.sound_start task _).run _).outcome_eq_ok_iff (crew_pos threads n)
    (isDone_agenda threads task)

/-- With any number of workers there are results exactly if doing the tasks in order gives them. -/
theorem forList_eq_ok_iff {threads : ℕ} {xs : List α} {f : α → Result β} {ys : List β} :
    forList threads xs f = .ok ys ↔ xs.mapM f = .ok ys := by
  rw [forList, forRange_eq_ok_iff]
  conv_rhs => rw [← List.map_getElem_finRange xs, List.mapM_map]
  rfl

/-- If no task fails, nothing can be told of who did which when. -/
theorem forList_eq_mapM {threads : ℕ} {xs : List α} {f : α → Result β}
    (h : ∀ x ∈ xs, ∃ y, f x = .ok y) : forList threads xs f = xs.mapM f := by
  obtain ⟨ys, hys⟩ := Result.exists_mapM h
  rw [hys, forList_eq_ok_iff.2 hys]

/-- If all tasks succeed, the results are their values. -/
theorem forList_eq_ok {threads : ℕ} {xs : List α} {f : α → Result β} {g : α → β}
    (h : ∀ x ∈ xs, f x = .ok (g x)) : forList threads xs f = .ok (xs.map g) :=
  forList_eq_ok_iff.2 (Result.mapM_eq_ok h)

theorem forList_map_eq_ok {γ : Type} {threads : ℕ} {xs : List α} {e : α → β} {f : β → Result γ}
    {g : α → γ} (h : ∀ x ∈ xs, f (e x) = .ok (g x)) :
    forList threads (xs.map e) f = .ok (xs.map g) := by
  rw [forList_eq_ok_iff, List.mapM_map]
  exact Result.mapM_eq_ok h

end BallotMix.Workers
