/-
The work-stealing scheduler of `parlay/scheduler.h` with its jobs (`parlay/internal/work_stealing_job.h`): any number of
workers, each with a deque of its own, in any interleaving.

- `Sched`: the jobs, the deques and the calls `(*job)()` on the stack of each worker, for any kind of deque. `resume`: the
  next step of the innermost call of a worker, `afterLeft` and `found`: what follows an operation on a deque. An `assert` that
  fails is a fault.
- `Sched.step`: one move of a worker, with deques whose operations are atomic and that are never full: the next step of its
  innermost call, or an attempt of `get_job` to find a job.
- Workers do not sleep, and each of them may look for a job in its own deque and in the others in any order.
-/
import HeavyLight.JobTree

namespace HeavyLight

open Proc

/-! ## The scheduler -/

/-- a call `(*job)()` on the stack of a worker, with what it runs now and the frames of what follows -/
structure Activation (C : Type) where
  job : ℕ
  cur : Proc C
  frames : List (Frame C)

/-- `fresh` is the address of the next `right_job`, `hand` the job that a worker is about to push; a stack is listed from the
innermost call -/
structure Sched (W C D : Type) where
  fresh : ℕ
  thunk : ℕ → Proc C
  finished : ℕ → Bool
  hand : W → Option ℕ
  deque : W → D
  stack : W → List (Activation C)

inductive SchedFault where
  /-- a fault of the program -/
  | body (e : Fault)
  /-- an `assert` of the scheduler -/
  | assertion

/-- the next step of a worker, `get_own_job` or `try_steal` by one that looks for a job -/
inductive SchedMove (W : Type) where
  | work (w : W)
  | own (w : W)
  | steal (w target : W)

/-- the worker that makes the move -/
def SchedMove.worker {W : Type} : SchedMove W → W
  | .work w => w
  | .own w => w
  | .steal w _ => w

namespace Sched

variable {W C D σ : Type} [DecidableEq W]

/-! ### The calls on the stacks, with any kind of deques -/

def setStack (S : Sched W C D) (w : W) (as : List (Activation C)) : Sched W C D :=
  { S with stack := Function.update S.stack w as }

def setDeque (S : Sched W C D) (w : W) (d : D) : Sched W C D := { S with deque := Function.update S.deque w d }

def setHand (S : Sched W C D) (w : W) (x : Option ℕ) : Sched W C D := { S with hand := Function.update S.hand w x }

/-- `make_job(right)` -/
def makeJob (S : Sched W C D) (w : W) (right : Proc C) : Sched W C D :=
  { S with
    fresh := S.fresh + 1
    thunk := Function.update S.thunk S.fresh right
    finished := Function.update S.finished S.fresh false
    hand := Function.update S.hand w (some S.fresh) }

/-- `(*job)()`: the check of `operator()`, then `execute` -/
def invoke (S : Sched W C D) (w : W) (i : ℕ) : Except SchedFault (Sched W C D) :=
  if S.finished i then .error .assertion else .ok (S.setStack w (⟨i, S.thunk i, []⟩ :: S.stack w))

/-- the worker is in `get_job`: in the loop of `worker`, or in the `wait_until` of a `pardo` -/
def seeks (main : W) (S : Sched W C D) (w : W) : Bool :=
  match S.stack w with
  | [] => w ≠ main
  | ⟨_, .done, .wait _ :: _⟩ :: _ => true
  | _ => false

/-- `break_early()`: what the worker waits for has finished -/
def breakEarly (S : Sched W C D) (w : W) : Bool :=
  match S.stack w with
  | ⟨_, .done, .wait j :: _⟩ :: _ => S.finished j
  | _ => false

/-- the next step of the innermost call of the worker `w`, over the calls `as` -/
def resume (body : Body C σ) (S : Sched W C D) (s : σ) (w : W) (as : List (Activation C)) :
    Activation C → Except SchedFault (Option (Sched W C D × σ))
  | ⟨k, .call c, fs⟩ =>
    match body c s with
    | .error e => .error (.body e)
    | .ok (s', t) => .ok (some (S.setStack w (⟨k, t, fs⟩ :: as), s'))
  | ⟨k, .seq t u, fs⟩ => .ok (some (S.setStack w (⟨k, t, .next u :: fs⟩ :: as), s))
  -- `pardo`: `make_job(right)`, then `spawn(&right_job)` and `left()`
  | ⟨k, .par t u, fs⟩ => .ok (some ((S.makeJob w u).setStack w (⟨k, t, .left S.fresh :: fs⟩ :: as), s))
  | ⟨k, .done, .next u :: fs⟩ => .ok (some (S.setStack w (⟨k, u, fs⟩ :: as), s))
  -- `get_own_job()` after `left()`: an operation on the deque
  | ⟨_, .done, .left _ :: _⟩ => .ok none
  | ⟨k, .done, .right :: fs⟩ => .ok (some (S.setStack w (⟨k, .done, fs⟩ :: as), s))
  -- `break_early()` in `get_job`
  | ⟨k, .done, .wait j :: fs⟩ =>
    if S.finished j then .ok (some (S.setStack w (⟨k, .done, fs⟩ :: as), s)) else .ok none
  -- `done.store(true)` at the end of `operator()`
  | ⟨k, .done, []⟩ => .ok (some ({ S with finished := Function.update S.finished k true }.setStack w as, s))

/-- `pardo` after `get_own_job()`: it runs the right job, unless it has been stolen -/
def afterLeft (S : Sched W C D) (w : W) (as : List (Activation C)) (k j : ℕ) (fs : List (Frame C)) :
    Option ℕ → Except SchedFault (Sched W C D)
  | some i => if i = j then .ok (S.setStack w (⟨k, S.thunk j, .right :: fs⟩ :: as)) else .error .assertion
  | none => .ok (S.setStack w (⟨k, .done, .wait j :: fs⟩ :: as))

/-! ### Deques with atomic operations, listed from the bottom -/

/-- `push_bottom` in `spawn` -/
def spawn (S : Sched W C (List ℕ)) (w : W) (job : ℕ) : Sched W C (List ℕ) :=
  (S.setHand w none).setDeque w (job :: S.deque w)

/-- `pop_bottom` of the worker's own deque -/
def getOwnJob (S : Sched W C (List ℕ)) (w : W) : Option ℕ × Sched W C (List ℕ) :=
  match S.deque w with
  | [] => (none, S)
  | i :: d => (some i, S.setDeque w d)

/-- `pop_top` of the deque of `target` -/
def trySteal (S : Sched W C (List ℕ)) (target : W) : Option ℕ × Sched W C (List ℕ) :=
  match (S.deque target).getLast? with
  | none => (none, S)
  | some i => (some i, S.setDeque target (S.deque target).dropLast)

/-- the worker calls the job that it has found -/
def found (s : σ) (w : W) : Option ℕ × Sched W C D → Except SchedFault (Option (Sched W C D × σ))
  | (none, _) => .ok none
  | (some i, S) => do
    let S ← S.invoke w i
    return some (S, s)

/-- the next step of a worker -/
def work (body : Body C σ) (S : Sched W C (List ℕ)) (s : σ) (w : W) :
    Except SchedFault (Option (Sched W C (List ℕ) × σ)) :=
  match S.hand w, S.stack w with
  | some j, _ => .ok (some (S.spawn w j, s))
  | none, [] => .ok none
  | none, ⟨k, .done, .left j :: fs⟩ :: as => do
    let S ← (S.getOwnJob w).2.afterLeft w as k j fs (S.getOwnJob w).1
    return some (S, s)
  | none, a :: as => S.resume body s w as a

/-- one move, in the program with the calls `body` that the worker `main` began; `none` if it does nothing -/
def step (body : Body C σ) (main : W) :
    Sched W C (List ℕ) × σ → SchedMove W → Except SchedFault (Option (Sched W C (List ℕ) × σ))
  | (S, s), .work w => S.work body s w
  | (S, s), .own w => if S.seeks main w then found s w (S.getOwnJob w) else .ok none
  | (S, s), .steal w target => if S.seeks main w then found s w (S.trySteal target) else .ok none

/-- the worker `main` begins the program `t` as the job 0; the other workers have no work -/
def startWith (empty : D) (main : W) (t : Proc C) : Sched W C D where
  fresh := 1
  thunk := fun _ => .done
  finished := fun _ => false
  hand := fun _ => none
  deque := fun _ => empty
  stack := fun w => if w = main then [⟨0, t, []⟩] else []

def start (main : W) (t : Proc C) : Sched W C (List ℕ) := startWith [] main t

section Fields

variable {S : Sched W C D} {w v : W} {j : ℕ}

@[simp] theorem setStack_self (S : Sched W C D) (w : W) (as : List (Activation C)) : (S.setStack w as).stack w = as :=
  Function.update_self _ _ _

theorem setStack_ne (h : v ≠ w) (as : List (Activation C)) : (S.setStack w as).stack v = S.stack v :=
  Function.update_of_ne h _ _

@[simp] theorem setDeque_self (S : Sched W C D) (w : W) (d : D) : (S.setDeque w d).deque w = d :=
  Function.update_self _ _ _

theorem setDeque_ne (h : v ≠ w) (d : D) : (S.setDeque w d).deque v = S.deque v := Function.update_of_ne h _ _

@[simp] theorem setHand_self (S : Sched W C D) (w : W) (x : Option ℕ) : (S.setHand w x).hand w = x :=
  Function.update_self _ _ _

theorem setHand_ne (h : v ≠ w) (x : Option ℕ) : (S.setHand w x).hand v = S.hand v := Function.update_of_ne h _ _

@[simp] theorem makeJob_thunk (S : Sched W C D) (w : W) (u : Proc C) : (S.makeJob w u).thunk S.fresh = u := by
  simp only [makeJob, Function.update_self]

theorem makeJob_thunk_ne (h : j ≠ S.fresh) (w : W) (u : Proc C) : (S.makeJob w u).thunk j = S.thunk j := by
  simp only [makeJob, Function.update_of_ne h]

theorem makeJob_finished (S : Sched W C D) (w : W) (u : Proc C) : (S.makeJob w u).finished S.fresh = false := by
  simp only [makeJob, Function.update_self]

theorem makeJob_finished_ne (h : j ≠ S.fresh) (w : W) (u : Proc C) : (S.makeJob w u).finished j = S.finished j := by
  simp only [makeJob, Function.update_of_ne h]

@[simp] theorem makeJob_hand (S : Sched W C D) (w : W) (u : Proc C) : (S.makeJob w u).hand w = some S.fresh :=
  Function.update_self w _ S.hand

theorem makeJob_hand_ne (h : v ≠ w) (u : Proc C) : (S.makeJob w u).hand v = S.hand v := Function.update_of_ne h _ S.hand

end Fields

end Sched

end HeavyLight
