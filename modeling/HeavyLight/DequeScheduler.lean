/-
The scheduler with the deques of `parlay/internal/work_stealing_deque.h`: all accesses to all deques, in one total order.

- `DequeSched`: the scheduler and the call of a deque operation that each worker is in. `DequeSched.step` makes the next
  access of such a call, or the next step of a worker outside.
- `abs`: the scheduler with the lists of jobs in place of the deques. `pace w`: how many moves the worker `w` has left before
  its next step outside of the calls. `follows_step`: with fewer than 2^32 resets during a `pop_top`, each step is one with
  atomic operations, or leaves these lists as they are and brings the worker nearer to its step.
- `deque_scheduler_refines`: so every run is one of the fork-join program, no `assert` fails and no access is outside a
  deque.
-/
import HeavyLight.SchedulerRuns
import HeavyLight.WorkDeque

namespace HeavyLight

open Proc

/-- the call of a deque operation that a worker is in -/
inductive DequeCall (W : Type) where
  /-- `push_bottom` in `spawn` -/
  | push
  /-- `pop_bottom` in `pardo` after `left()` -/
  | left
  /-- `pop_bottom` in `get_job` -/
  | own
  /-- `pop_top` in `try_steal` -/
  | steal (target : W)

structure DequeSched (W C : Type) where
  sched : Sched W C (WorkDeque W ℕ)
  call : W → Option (DequeCall W)

namespace DequeSched

variable {W C σ : Type} [DecidableEq W]

/-- the worker is in the call `c`, and the deque of `v` is `q` -/
def set (P : DequeSched W C) (v : W) (q : WorkDeque W ℕ) (w : W) (c : Option (DequeCall W)) : DequeSched W C :=
  ⟨P.sched.setDeque v q, Function.update P.call w c⟩

/-- the end of a call of `pop_bottom` or `pop_top` in `get_job` -/
def got (P : DequeSched W C) (s : σ) (w : W) : Option ℕ → Except SchedFault (Option (DequeSched W C × σ))
  | none => .ok (some (P, s))
  | some i => do
    let S ← P.sched.invoke w i
    return some ({ P with sched := S }, s)

/-- the end of a call of the worker `w`, with its result -/
def endCall (P : DequeSched W C) (s : σ) (w : W) :
    DequeCall W → DequeOp ℕ → Except SchedFault (Option (DequeSched W C × σ))
  | .push, .push _ _ => .ok (some ({ P with sched := P.sched.setHand w none }, s))
  | .left, .popBottom r =>
    match P.sched.stack w with
    | ⟨k, .done, .left j :: fs⟩ :: as => do
      let S ← P.sched.afterLeft w as k j fs r
      return some ({ P with sched := S }, s)
    | _ => .ok none
  | .own, .popBottom r => P.got s w r
  | .steal _, .popTop r _ => P.got s w r
  | _, _ => .ok none

/-- the next access of the call `c` of the worker `w`, which is one of the owner of a deque or of a thief -/
def access (P : DequeSched W C) (s : σ) (w : W) (c : DequeCall W) : Except SchedFault (Option (DequeSched W C × σ)) :=
  let v := match c with
    | .steal v => v
    | _ => w
  let r := (P.sched.deque v).step (match c with
    | .steal _ => .thief w
    | _ => .owner)
  match r.2 with
  | none => .ok (some (P.set v r.1 w (some c), s))
  | some op => (P.set v r.1 w none).endCall s w c op

/-- the next step of a worker -/
def work (body : Body C σ) (P : DequeSched W C) (s : σ) (w : W) : Except SchedFault (Option (DequeSched W C × σ)) :=
  match P.call w, P.sched.hand w, P.sched.stack w with
  | some c, _, _ => P.access s w c
  | none, some j, _ => .ok (some (P.set w ((P.sched.deque w).step (.push j)).1 w (some .push), s))
  | none, none, [] => .ok none
  | none, none, ⟨_, .done, .left _ :: _⟩ :: _ => .ok (some (P.set w ((P.sched.deque w).step .pop).1 w (some .left), s))
  | none, none, a :: as => do
    let r ← P.sched.resume body s w as a
    return r.map fun q => ({ P with sched := q.1 }, q.2)

/-- one move; `get_own_job` and `try_steal` enter a call, after a look at `break_early()` -/
def step (body : Body C σ) (main : W) :
    DequeSched W C × σ → SchedMove W → Except SchedFault (Option (DequeSched W C × σ))
  | (P, s), .work w => P.work body s w
  | (P, s), .own w =>
    if (P.call w).isNone ∧ P.sched.seeks main w ∧ ¬ P.sched.breakEarly w then
      .ok (some (P.set w ((P.sched.deque w).step .pop).1 w (some .own), s))
    else .ok none
  | (P, s), .steal w v =>
    if (P.call w).isNone ∧ P.sched.seeks main w ∧ ¬ P.sched.breakEarly w then
      .ok (some (P.set v ((P.sched.deque v).step (.popTop w)).1 w (some (.steal v)), s))
    else .ok none

/-- the worker `main` begins the program `t`, with empty deques -/
def start (deq : ℕ → ℕ) (main : W) (t : Proc C) : DequeSched W C :=
  ⟨.startWith (.empty deq) main t, fun _ => none⟩

end DequeSched

/-! ## The lists of jobs -/

namespace Sched

variable {W C D E σ : Type} [DecidableEq W] {body : Body C σ} {S : Sched W C D} {w v : W} {s : σ}

/-- the same scheduler with other deques -/
def mapDeque (f : D → E) (S : Sched W C D) : Sched W C E :=
  ⟨S.fresh, S.thunk, S.finished, S.hand, fun w => f (S.deque w), S.stack⟩

theorem mapDeque_setDeque (f : D → E) (S : Sched W C D) (w : W) (d : D) :
    (S.setDeque w d).mapDeque f = (S.mapDeque f).setDeque w (f d) := by
  have hdeque : (fun v => f (Function.update S.deque w d v)) = Function.update (fun v => f (S.deque v)) w (f d) := by
    funext v
    by_cases hv : v = w
    · rw [hv, Function.update_self, Function.update_self]
    · rw [Function.update_of_ne hv, Function.update_of_ne hv]
  rw [setDeque, mapDeque, hdeque]
  rfl

theorem setDeque_eq_self (h : S.deque w = d) : S.setDeque w d = S := by
  rw [setDeque, ← h, Function.update_eq_self]

theorem resume_mapDeque (f : D → E) (as : List (Activation C)) (a : Activation C) :
    (S.mapDeque f).resume body s w as a = do
      let r ← S.resume body s w as a
      return r.map fun q => (q.1.mapDeque f, q.2) := by
  obtain ⟨k, t, fs⟩ := a
  cases t with
  | call c =>
    simp only [resume]
    cases body c s <;> rfl
  | seq t u => rfl
  | par t u => rfl
  | done =>
    cases fs with
    | nil => rfl
    | cons g fs =>
      cases g with
      | next u => rfl
      | left j => rfl
      | right => rfl
      | wait j =>
        by_cases hj : S.finished j = true
        · rw [resume, resume, if_pos hj, if_pos (show (S.mapDeque f).finished j = true from hj)]
          rfl
        · rw [resume, resume, if_neg hj, if_neg (show ¬ (S.mapDeque f).finished j = true from hj)]
          rfl

/-- the next step of a call leaves the deques and the other workers -/
theorem resume_frame {S' : Sched W C D} {s' : σ} {as : List (Activation C)} {a : Activation C}
    (h : S.resume body s w as a = .ok (some (S', s'))) :
    S'.deque = S.deque ∧ ∀ v, v ≠ w → S'.hand v = S.hand v ∧ S'.stack v = S.stack v := by
  have hset : ∀ bs : List (Activation C), ∀ v, v ≠ w → (S.setStack w bs).hand v = S.hand v ∧
      (S.setStack w bs).stack v = S.stack v := fun bs v hv => ⟨rfl, setStack_ne hv bs⟩
  obtain ⟨k, t, fs⟩ := a
  cases t with
  | call c =>
    simp only [resume] at h
    cases hc : body c s with
    | error e =>
      rw [hc] at h
      cases h
    | ok r =>
      rw [hc] at h
      cases h
      exact ⟨rfl, hset _⟩
  | seq t u =>
    cases h
    exact ⟨rfl, hset _⟩
  | par t u =>
    cases h
    exact ⟨rfl, fun v hv => ⟨makeJob_hand_ne hv u, setStack_ne hv _⟩⟩
  | done =>
    cases fs with
    | nil =>
      cases h
      exact ⟨rfl, fun v hv => ⟨rfl, setStack_ne hv as⟩⟩
    | cons g fs =>
      cases g with
      | next u =>
        cases h
        exact ⟨rfl, hset _⟩
      | left j => cases h
      | right =>
        cases h
        exact ⟨rfl, hset _⟩
      | wait j =>
        by_cases hj : S.finished j = true
        · rw [resume, if_pos hj] at h
          cases h
          exact ⟨rfl, hset _⟩
        · rw [resume, if_neg hj] at h
          cases h

theorem afterLeft_mapDeque (f : D → E) (as : List (Activation C)) (k j : ℕ) (fs : List (Frame C)) (r : Option ℕ) :
    (S.mapDeque f).afterLeft w as k j fs r = do
      let S ← S.afterLeft w as k j fs r
      return S.mapDeque f := by
  cases r with
  | none => rfl
  | some i =>
    by_cases hij : i = j
    · rw [afterLeft, afterLeft, if_pos hij, if_pos hij]
      rfl
    · rw [afterLeft, afterLeft, if_neg hij, if_neg hij]
      rfl

theorem invoke_mapDeque (f : D → E) (i : ℕ) :
    (S.mapDeque f).invoke w i = do
      let S ← S.invoke w i
      return S.mapDeque f := by
  by_cases hi : S.finished i = true
  · rw [invoke, invoke, if_pos hi, if_pos (show (S.mapDeque f).finished i = true from hi)]
    rfl
  · rw [invoke, invoke, if_neg hi, if_neg (show ¬ (S.mapDeque f).finished i = true from hi)]
    rfl

end Sched

/-- the accesses that the owner has left in its call -/
def Owner.accesses {J : Type} : Owner J → ℕ
  | .push _ => 3
  | .store _ _ => 2
  | .publish _ _ => 1
  | .pop => 7
  | .lower _ => 6
  | .read _ => 5
  | .look _ _ => 4
  | .clear _ _ _ => 3
  | .swap _ _ _ => 2
  | .reset _ => 1
  | _ => 0

/-- the accesses that a thief has left in its call -/
def Thief.accesses {J : Type} : Thief J → ℕ
  | .start => 4
  | .seen _ => 3
  | .read _ _ => 2
  | .swap _ _ _ => 1
  | _ => 0

namespace WorkDeque

variable {ι J : Type} [DecidableEq ι] {s : WorkDeque ι J} {i : ι} {job : J}

/-- the owner is in `push_bottom(job)` -/
def Pushes (job : J) : Owner J → Prop
  | .push j => j = job
  | .store j _ => j = job
  | .publish j _ => j = job
  | .aborted => True
  | _ => False

/-- the owner is in `pop_bottom` -/
def Pops : Owner J → Prop
  | .pop => True
  | .lower _ => True
  | .read _ => True
  | .look _ _ => True
  | .clear _ _ _ => True
  | .swap _ _ _ => True
  | .reset _ => True
  | _ => False

theorem pushes_busy {o : Owner J} (h : Pushes job o) : o ≠ .idle := by
  rintro rfl
  exact h

theorem pops_busy {o : Owner J} (h : Pops o) : o ≠ .idle := by
  rintro rfl
  exact h

omit [DecidableEq ι] in
theorem ownerStep_push (h : Pushes job s.owner) (hinv : s.ownerStep.1.OwnerInv) :
    s.ownerStep.2 = none ∧ Pushes job s.ownerStep.1.owner ∨
      ∃ first, s.ownerStep.2 = some (.push job first) ∧ s.ownerStep.1.owner = .idle := by
  have hplace := hinv.place
  cases ho : s.owner with
  | push j =>
    rw [ho] at h
    rw [ownerStep, ho]
    exact Or.inl ⟨rfl, h⟩
  | store j b =>
    rw [ho] at h
    rw [ownerStep, ho] at hplace ⊢
    simp only at hplace ⊢
    split_ifs at hplace ⊢ with hb
    · exact Or.inl ⟨rfl, h⟩
    · exact hplace.elim
  | publish j b =>
    rw [ho] at h
    obtain rfl : j = job := h
    rw [ownerStep, ho]
    simp only
    split_ifs with hb
    · exact Or.inl ⟨rfl, trivial⟩
    · exact Or.inr ⟨_, rfl, rfl⟩
  | aborted =>
    rw [ownerStep, ho]
    refine Or.inl ⟨rfl, ?_⟩
    rw [ho]
    trivial
  | _ =>
    rw [ho] at h
    exact h.elim

omit [DecidableEq ι] in
theorem ownerStep_pop (h : Pops s.owner) (hinv : s.ownerStep.1.OwnerInv) :
    s.ownerStep.2 = none ∧ Pops s.ownerStep.1.owner ∨
      ∃ r, s.ownerStep.2 = some (.popBottom r) ∧ s.ownerStep.1.owner = .idle := by
  have hplace := hinv.place
  cases ho : s.owner with
  | pop =>
    rw [ownerStep, ho]
    simp only
    split_ifs with hb
    · exact Or.inl ⟨rfl, trivial⟩
    · exact Or.inr ⟨_, rfl, rfl⟩
  | lower b =>
    rw [ownerStep, ho]
    exact Or.inl ⟨rfl, trivial⟩
  | read b =>
    rw [ownerStep, ho] at hplace ⊢
    simp only at hplace ⊢
    split_ifs at hplace ⊢ with hb
    · exact Or.inl ⟨rfl, trivial⟩
    · exact hplace.elim
  | look b j =>
    rw [ownerStep, ho]
    simp only
    split_ifs with hb
    · exact Or.inr ⟨_, rfl, rfl⟩
    · exact Or.inl ⟨rfl, trivial⟩
  | clear b j old =>
    rw [ownerStep, ho]
    exact Or.inl ⟨rfl, trivial⟩
  | swap b j old =>
    rw [ownerStep, ho]
    simp only
    split_ifs with hb
    · exact Or.inr ⟨_, rfl, rfl⟩
    · exact Or.inl ⟨rfl, trivial⟩
  | reset new =>
    rw [ownerStep, ho]
    exact Or.inr ⟨_, rfl, rfl⟩
  | _ =>
    rw [ho] at h
    exact h.elim

omit [DecidableEq ι] in
/-- an access that is not the last one of its call -/
theorem ownerStep_accesses (hinv : s.ownerStep.1.OwnerInv) (hbusy : s.owner ≠ .idle) (hnone : s.ownerStep.2 = none) :
    s.ownerStep.1.owner.accesses < s.owner.accesses ∨ s.ownerStep.1.owner = .aborted := by
  have hplace := hinv.place
  cases ho : s.owner with
  | idle => exact absurd ho hbusy
  | aborted =>
    rw [ownerStep, ho]
    exact Or.inr ho
  | fault =>
    rw [ownerStep, ho, OwnerPlace, ho] at hplace
    exact hplace.elim
  | _ =>
    rw [ownerStep, ho] at hplace hnone ⊢
    simp only at hplace hnone ⊢
    try split_ifs at hplace hnone ⊢
    all_goals first
      | exact hplace.elim
      | exact absurd hnone (Option.some_ne_none _)
      | exact Or.inl (Nat.lt_succ_self _)

theorem push_content {d d' : List J} {first : Bool} (h : DequeSpec d (.push job first) d') : d' = d ++ [job] := by
  cases h
  rfl

theorem popBottom_content {d d' : List J} (h : DequeSpec d (.popBottom none) d') : d' = d := by
  cases h
  rfl

theorem popTop_content {d d' : List J} {empty : Bool} (h : DequeSpec d (.popTop none empty) d') : d' = d := by
  cases h
  rfl

/-- the steps of a thief are not steps of the owner -/
theorem thiefStep_owner (s : WorkDeque ι J) (i : ι) : (s.thiefStep i).1.owner = s.owner := by
  unfold thiefStep
  split <;> try split_ifs
  all_goals rfl

/-- a thief enters `pop_top` -/
theorem popTop_enter (s : WorkDeque ι J) (i : ι) :
    (s.step (.popTop i)).2 = none ∧ (s.step (.popTop i)).1.owner = s.owner := by
  simp only [step]
  split <;> exact ⟨rfl, rfl⟩

/-- the steps of a thief are not steps of another one -/
theorem thiefStep_thief {k : ι} (hk : k ≠ i) (s : WorkDeque ι J) : (s.thiefStep i).1.thief k = s.thief k := by
  unfold thiefStep
  split <;> try split_ifs
  all_goals first
    | rfl
    | exact Function.update_of_ne hk _ _

theorem popTop_thief {k : ι} (hk : k ≠ i) (s : WorkDeque ι J) : (s.step (.popTop i)).1.thief k = s.thief k := by
  simp only [step]
  split
  · exact Function.update_of_ne hk _ _
  · rfl

theorem popTop_busy (s : WorkDeque ι J) (i : ι) : (s.step (.popTop i)).1.thief i ≠ .idle := by
  simp only [step]
  split
  · show Function.update s.thief i .start i ≠ .idle
    rw [Function.update_self]
    exact fun he => by cases he
  · next hi => exact hi

omit [DecidableEq ι] in
theorem ownerStep_thief (s : WorkDeque ι J) : s.ownerStep.1.thief = s.thief := by
  unfold ownerStep
  split <;> try split_ifs
  all_goals rfl

/-- an access that is not the last one of its call -/
theorem thiefStep_accesses (hinv : (s.thiefStep i).1.Inv) (hbusy : s.thief i ≠ .idle) (hnone : (s.thiefStep i).2 = none) :
    (s.thiefStep i).1.thief i ≠ .idle ∧ ((s.thiefStep i).1.thief i).accesses < (s.thief i).accesses := by
  have hset : ∀ p : Thief J, (s.setThief i p).thief i = p := fun p => Function.update_self _ _ _
  have hfault := hinv.no_fault.2 i
  cases ht : s.thief i with
  | idle => exact absurd ht hbusy
  | fault =>
    rw [thiefStep, ht] at hfault
    exact absurd ht hfault
  | start =>
    rw [thiefStep, ht]
    simp only [hset]
    exact ⟨fun he => (by cases he), Nat.lt_succ_self _⟩
  | seen old =>
    rw [thiefStep, ht] at hnone ⊢
    simp only at hnone ⊢
    split_ifs at hnone ⊢
    simp only [hset]
    exact ⟨fun he => (by cases he), Nat.lt_succ_self _⟩
  | read old b =>
    rw [thiefStep, ht] at hfault ⊢
    simp only at hfault ⊢
    split_ifs at hfault ⊢
    · simp only [hset]
      exact ⟨fun he => (by cases he), Nat.lt_succ_self _⟩
    · exact absurd (hset _) hfault
  | swap old b job =>
    rw [thiefStep, ht] at hnone
    simp only at hnone
    split_ifs at hnone

theorem thiefStep_report (s : WorkDeque ι J) (i : ι) :
    (s.thiefStep i).2 = none ∨ ∃ r empty, (s.thiefStep i).2 = some (.popTop r empty) := by
  unfold thiefStep
  split <;> try split_ifs
  all_goals first
    | exact Or.inl rfl
    | exact Or.inr ⟨_, _, rfl⟩

end WorkDeque

namespace DequeSched

open WorkDeque

variable {W C σ : Type} [DecidableEq W] {body : Body C σ} {main : W} {P P' : DequeSched W C} {s s' : σ} {v w : W}
  {q : WorkDeque W ℕ} {c : Option (DequeCall W)} {t : Proc C}

/-- the scheduler with the lists of jobs, from the bottom of each deque -/
def abs (P : DequeSched W C) : Sched W C (List ℕ) := P.sched.mapDeque fun q => q.content.reverse

/-- where a worker is in its call, and the owner of its deque; a thief is in `pop_top` -/
def CallOk (main : W) (S : Sched W C (WorkDeque W ℕ)) (w : W) : Option (DequeCall W) → Prop
  | none => (S.deque w).owner = .idle
  | some .push => ∃ j, S.hand w = some j ∧ Pushes j (S.deque w).owner
  | some .left => S.hand w = none ∧ (∃ k j fs as, S.stack w = ⟨k, .done, .left j :: fs⟩ :: as) ∧ Pops (S.deque w).owner
  | some .own => S.seeks main w = true ∧ Pops (S.deque w).owner
  | some (.steal v) => S.seeks main w = true ∧ (S.deque w).owner = .idle ∧ (S.deque v).thief w ≠ .idle

structure Sync (main : W) (P : DequeSched W C) : Prop where
  deque : ∀ w, (P.sched.deque w).Inv
  call : ∀ w, CallOk main P.sched w (P.call w)

theorem CallOk.congr {S S' : Sched W C (WorkDeque W ℕ)} (h : CallOk main S w c)
    (howner : (S'.deque w).owner = (S.deque w).owner) (hthief : ∀ v, (S'.deque v).thief w = (S.deque v).thief w)
    (hhand : S'.hand w = S.hand w) (hstack : S'.stack w = S.stack w) : CallOk main S' w c := by
  have hseeks : S'.seeks main w = S.seeks main w := by
    unfold Sched.seeks
    rw [hstack]
  cases c with
  | none => exact howner.trans h
  | some c =>
    cases c with
    | push =>
      obtain ⟨j, hj, hp⟩ := h
      exact ⟨j, hhand.trans hj, howner ▸ hp⟩
    | left => exact ⟨hhand.trans h.1, hstack ▸ h.2.1, howner ▸ h.2.2⟩
    | own => exact ⟨hseeks.trans h.1, howner ▸ h.2⟩
    | steal v => exact ⟨hseeks.trans h.1, howner.trans h.2.1, (hthief v).symm ▸ h.2.2⟩

/-- what a step of the worker `w` leaves as it is of the worker `v` -/
structure Unmoved (P P' : DequeSched W C) (v : W) : Prop where
  call : P'.call v = P.call v
  owner : (P'.sched.deque v).owner = (P.sched.deque v).owner
  thief : ∀ u, (P'.sched.deque u).thief v = (P.sched.deque u).thief v
  hand : P'.sched.hand v = P.sched.hand v
  stack : P'.sched.stack v = P.sched.stack v

/-- a step of the worker `w` -/
theorem Sync.change (h : Sync main P) (hdeque : ∀ v, (P'.sched.deque v).Inv) (hw : CallOk main P'.sched w (P'.call w))
    (hother : ∀ v, v ≠ w → Unmoved P P' v) : Sync main P' := by
  refine ⟨hdeque, fun v => ?_⟩
  by_cases hv : v = w
  · exact hv ▸ hw
  · have hsame := hother v hv
    rw [hsame.call]
    exact (h.call v).congr hsame.owner hsame.thief hsame.hand hsame.stack

theorem set_deque_self (P : DequeSched W C) (v : W) (q : WorkDeque W ℕ) (w : W) (c : Option (DequeCall W)) :
    (P.set v q w c).sched.deque v = q := Sched.setDeque_self P.sched v q

theorem set_deque_ne {u : W} (hu : u ≠ v) : (P.set v q w c).sched.deque u = P.sched.deque u :=
  Sched.setDeque_ne hu q

theorem set_call_self (P : DequeSched W C) (v : W) (q : WorkDeque W ℕ) (w : W) (c : Option (DequeCall W)) :
    (P.set v q w c).call w = c := by
  simp only [set, Function.update_self]

theorem set_call_ne {u : W} (hu : u ≠ w) : (P.set v q w c).call u = P.call u := by
  simp only [set, Function.update_of_ne hu]

/-- an access of the worker `w` to the deque of `v` -/
structure AccessOf (w v : W) (q q' : WorkDeque W ℕ) : Prop where
  owner : v ≠ w → q'.owner = q.owner
  thief : ∀ u, u ≠ w → q'.thief u = q.thief u

omit [DecidableEq W] in
theorem accessOf_owner (w : W) (q : WorkDeque W ℕ) : AccessOf w w q q.ownerStep.1 :=
  ⟨fun hw => absurd rfl hw, fun u _ => congrFun (ownerStep_thief q) u⟩

theorem accessOf_thief (w v : W) (q : WorkDeque W ℕ) : AccessOf w v q (q.thiefStep w).1 :=
  ⟨fun _ => thiefStep_owner q w, fun _ hu => thiefStep_thief hu q⟩

theorem accessOf_popTop (w v : W) (q : WorkDeque W ℕ) : AccessOf w v q (q.step (.popTop w)).1 :=
  ⟨fun _ => (popTop_enter q w).2, fun _ hu => popTop_thief hu q⟩

/-- the owner enters a call -/
theorem accessOf_enter (w : W) (q : WorkDeque W ℕ) (j : ℕ) :
    AccessOf w w q (q.step (.push j)).1 ∧ AccessOf w w q (q.step .pop).1 := by
  refine ⟨⟨fun hw => absurd rfl hw, fun u _ => ?_⟩, ⟨fun hw => absurd rfl hw, fun u _ => ?_⟩⟩
  all_goals
    simp only [WorkDeque.step]
    split <;> rfl

theorem unmoved_set {u : W} (hq : AccessOf w v (P.sched.deque v) q) (hu : u ≠ w) : Unmoved P (P.set v q w c) u := by
  refine ⟨set_call_ne hu, ?_, fun x => ?_, rfl, rfl⟩
  · by_cases huv : u = v
    · rw [huv, set_deque_self]
      exact hq.owner (huv ▸ hu)
    · rw [set_deque_ne huv]
  · by_cases hxv : x = v
    · rw [hxv, set_deque_self]
      exact hq.thief u hu
    · rw [set_deque_ne hxv]

/-- an access of the worker `w` to the deque of `v` -/
theorem Sync.set (h : Sync main P) (hinv : q.Inv) (hq : AccessOf w v (P.sched.deque v) q)
    (hw : CallOk main (P.set v q w c).sched w c) : Sync main (P.set v q w c) := by
  refine h.change (w := w) (fun u => ?_) ?_ fun u hu => unmoved_set hq hu
  · by_cases hu : u = v
    · rw [hu, set_deque_self]
      exact hinv
    · rw [set_deque_ne hu]
      exact h.deque u
  · rwa [set_call_self]

theorem abs_set (P : DequeSched W C) (v : W) (q : WorkDeque W ℕ) (w : W) (c : Option (DequeCall W)) :
    (P.set v q w c).abs = P.abs.setDeque v q.content.reverse :=
  Sched.mapDeque_setDeque _ _ _ _

/-- an access that leaves the list of jobs -/
theorem abs_set_eq (hq : q.content = (P.sched.deque v).content) : (P.set v q w c).abs = P.abs := by
  rw [abs_set]
  exact Sched.setDeque_eq_self (congrArg List.reverse hq).symm

/-- the moves that a worker has left before its next step outside of the calls -/
def pace (P : DequeSched W C) (w : W) : ℕ :=
  match P.call w with
  | none => 8
  | some .push => (P.sched.deque w).owner.accesses
  | some .left => (P.sched.deque w).owner.accesses
  | some .own => 9 + (P.sched.deque w).owner.accesses
  | some (.steal v) => 9 + ((P.sched.deque v).thief w).accesses

omit [DecidableEq W] in
theorem Unmoved.pace (h : Unmoved P P' v) : P'.pace v = P.pace v := by
  unfold DequeSched.pace
  rw [h.call, h.owner]
  cases P.call v with
  | none => rfl
  | some c =>
    cases c with
    | steal u => exact congrArg (fun p => 9 + p.accesses) (h.thief u)
    | _ => rfl

/-- a move that leaves the lists of jobs: the worker comes nearer to its next step, unless it enters a call in `get_job` or has
aborted -/
structure Quiet (main : W) (P P' : DequeSched W C) (m : SchedMove W) : Prop where
  other : ∀ v, v ≠ m.worker → P'.pace v = P.pace v
  own : P'.pace m.worker < P.pace m.worker ∨ (P'.sched.deque m.worker).owner = .aborted ∨
    m ≠ .work m.worker ∧ P.sched.seeks main m.worker = true ∧ P.sched.breakEarly m.worker ≠ true

/-- what a step with all accesses is for the lists of jobs -/
def Follows (body : Body C σ) (main : W) (P : DequeSched W C) (s : σ) (m : SchedMove W) :
    Except SchedFault (Option (DequeSched W C × σ)) → Prop
  | .error e => ∃ m', Sched.step body main (P.abs, s) m' = .error e
  | .ok none => ∀ w, m = .work w → P.abs.work body s w = .ok none
  | .ok (some (P', s')) => Sync main P' ∧
      (P'.abs = P.abs ∧ s' = s ∧ Quiet main P P' m ∨
        ∃ m', Sched.step body main (P.abs, s) m' = .ok (some (P'.abs, s')))

/-- the worker goes on outside of the calls -/
theorem Sync.setStack (h : Sync main P) (hcall : P.call w = none) (as : List (Activation C)) :
    Sync main { P with sched := P.sched.setStack w as } := by
  refine h.change (w := w) h.deque ?_ fun v hv => ⟨rfl, rfl, fun _ => rfl, rfl, Sched.setStack_ne hv as⟩
  have hw := h.call w
  rw [hcall] at hw
  show CallOk main _ w (P.call w)
  rw [hcall]
  exact hw

/-- an access that is not the last one of its call -/
theorem follows_set {m : SchedMove W} (hm : m.worker = w) (hsync : Sync main (P.set v q w c))
    (hcontent : q.content = (P.sched.deque v).content) (hq : AccessOf w v (P.sched.deque v) q)
    (hpace : (P.set v q w c).pace w < P.pace w ∨ ((P.set v q w c).sched.deque w).owner = .aborted ∨
      m ≠ .work w ∧ P.sched.seeks main w = true ∧ P.sched.breakEarly w ≠ true) :
    Follows body main P s m (.ok (some (P.set v q w c, s))) := by
  subst hm
  exact ⟨hsync, Or.inl ⟨abs_set_eq hcontent, rfl, fun _ hu => (unmoved_set hq hu).pace, hpace⟩⟩

/-- the last access of `pop_bottom` -/
theorem getOwnJob_abs {r : Option ℕ} (hspec : DequeSpec (P.sched.deque w).content (.popBottom r) q.content)
    (c : Option (DequeCall W)) : P.abs.getOwnJob w = (r, (P.set w q w c).abs) := by
  rw [abs_set]
  generalize hc : (P.sched.deque w).content = content at hspec
  generalize q.content = content' at hspec
  have hd : P.abs.deque w = content.reverse := congrArg List.reverse hc
  cases hspec with
  | popBottom =>
    rw [List.reverse_append] at hd
    exact Sched.getOwnJob_cons hd
  | popBottomEmpty =>
    rw [Sched.setDeque_eq_self hd]
    exact Sched.getOwnJob_nil hd

/-- the last access of `pop_top`, when it takes a job -/
theorem trySteal_abs {i : ℕ} {empty : Bool}
    (hspec : DequeSpec (P.sched.deque v).content (.popTop (some i) empty) q.content) (w : W) (c : Option (DequeCall W)) :
    P.abs.trySteal v = (some i, (P.set v q w c).abs) := by
  rw [abs_set]
  generalize hc : (P.sched.deque v).content = content at hspec
  generalize q.content = content' at hspec
  have hd : P.abs.deque v = content.reverse := congrArg List.reverse hc
  cases hspec with
  | popTop =>
    rw [List.reverse_cons] at hd
    exact Sched.trySteal_concat hd

/-- the worker has found a job, or none -/
theorem follows_got {P₁ : DequeSched W C} {r : Option ℕ} (hsync : Sync main P₁) (hcall : P₁.call w = none)
    (hother : ∀ u, u ≠ w → Unmoved P P₁ u) (hpace : 8 < P.pace w) (hnone : r = none → P₁.abs = P.abs)
    (hsome : ∀ i, r = some i → ∃ m, Sched.step body main (P.abs, s) m = Sched.found s w (some i, P₁.abs)) :
    Follows body main P s (.work w) (P₁.got s w r) := by
  cases r with
  | none =>
    have hpace' : P₁.pace w = 8 := by rw [pace, hcall]
    exact ⟨hsync, Or.inl ⟨hnone rfl, rfl, fun u hu => (hother u hu).pace, Or.inl (hpace'.trans_lt hpace)⟩⟩
  | some i =>
    obtain ⟨m, hm⟩ := hsome i rfl
    have hinvoke := Sched.invoke_mapDeque (S := P₁.sched) (w := w) (fun q => q.content.reverse) i
    rw [Sched.found, show P₁.abs = P₁.sched.mapDeque fun q => q.content.reverse from rfl, hinvoke] at hm
    cases hi : P₁.sched.invoke w i with
    | error e =>
      have hgot : P₁.got s w (some i) = .error e := by
        rw [got, hi]
        rfl
      rw [hi] at hm
      rw [hgot]
      exact ⟨m, hm⟩
    | ok S =>
      have hgot : P₁.got s w (some i) = .ok (some ({ P₁ with sched := S }, s)) := by
        rw [got, hi]
        rfl
      rw [hi] at hm
      rw [hgot]
      refine ⟨?_, Or.inr ⟨m, hm⟩⟩
      unfold Sched.invoke at hi
      split_ifs at hi
      cases hi
      exact hsync.setStack hcall _

/-- the worker leaves its call -/
theorem Sync.leave (h : Sync main P) (hinv : q.Inv) (hq : AccessOf w v (P.sched.deque v) q)
    (hidle : ((P.set v q w none).sched.deque w).owner = .idle) : Sync main (P.set v q w none) := h.set hinv hq hidle

/-- an access of `push_bottom` or `pop_bottom` that is not the last one -/
theorem follows_owner (h : Sync main P) (hwrap : (P.sched.deque w).NoWrap) {c : DequeCall W} (hcall : P.call w = some c)
    (hsteal : ∀ v, c ≠ .steal v) (hbusy : (P.sched.deque w).owner ≠ .idle) (hnone : (P.sched.deque w).ownerStep.2 = none)
    (hok : CallOk main (P.set w (P.sched.deque w).ownerStep.1 w (some c)).sched w (some c)) (s : σ) :
    Follows body main P s (.work w) (.ok (some (P.set w (P.sched.deque w).ownerStep.1 w (some c), s))) := by
  obtain ⟨hinv, hrep⟩ := step_spec (h.deque w) hwrap .owner
  simp only [WorkDeque.step, hnone] at hinv hrep
  have haccess := accessOf_owner w (P.sched.deque w)
  refine follows_set rfl (h.set hinv haccess hok) hrep haccess ?_
  rw [set_deque_self, pace, pace, set_call_self, set_deque_self, hcall]
  refine (ownerStep_accesses hinv.owner hbusy hnone).imp (fun hlt => ?_) Or.inl
  cases c with
  | push => exact hlt
  | left => exact hlt
  | own => exact Nat.add_lt_add_left hlt 9
  | steal v => exact absurd rfl (hsteal v)

/-- the accesses of `push_bottom` in `spawn` -/
theorem follows_push (h : Sync main P) (hwrap : ∀ v, (P.sched.deque v).NoWrap) (hcall : P.call w = some .push) (s : σ) :
    Follows body main P s (.work w) (P.access s w .push) := by
  have hok := h.call w
  rw [hcall] at hok
  have haccess := accessOf_owner w (P.sched.deque w)
  obtain ⟨j, hhand, hp⟩ := hok
  obtain ⟨hinv, hrep⟩ := step_spec (h.deque w) (hwrap w) .owner
  simp only [access]
  rcases ownerStep_push hp hinv.owner with ⟨hnone, hp'⟩ | ⟨first, hsome, hidle⟩
  · simp only [WorkDeque.step, hnone]
    refine follows_owner h (hwrap w) hcall (fun _ he => by cases he) (pushes_busy hp) hnone ⟨j, hhand, ?_⟩ s
    rw [set_deque_self]
    exact hp'
  · simp only [WorkDeque.step, hsome, endCall] at hinv hrep ⊢
    generalize (P.sched.deque w).ownerStep.1 = q at hidle hinv hrep haccess
    have hsync : Sync main (P.set w q w none) := h.leave hinv haccess (by rw [set_deque_self]; exact hidle)
    refine ⟨hsync.change (w := w) hsync.deque ?_ fun v hv => ⟨rfl, rfl, fun _ => rfl, Sched.setHand_ne hv _, rfl⟩,
      Or.inr ⟨.work w, ?_⟩⟩
    · have hw := hsync.call w
      rw [set_call_self] at hw
      show CallOk main _ w ((P.set w q w none).call w)
      rw [set_call_self]
      exact hw
    · have hcontent : q.content = (P.sched.deque w).content ++ [j] := push_content hrep
      have habs : (P.set w q w none).abs.setHand w none = P.abs.spawn w j := by
        rw [abs_set, hcontent, List.reverse_append]
        rfl
      have hwork : P.abs.work body s w = .ok (some (P.abs.spawn w j, s)) := by
        rw [Sched.work, show P.abs.hand w = some j from hhand]
      rw [← habs] at hwork
      exact hwork

/-- the accesses of `pop_bottom` in `pardo` -/
theorem follows_left (h : Sync main P) (hwrap : ∀ v, (P.sched.deque v).NoWrap) (hcall : P.call w = some .left) (s : σ) :
    Follows body main P s (.work w) (P.access s w .left) := by
  have hok := h.call w
  rw [hcall] at hok
  have haccess := accessOf_owner w (P.sched.deque w)
  obtain ⟨hhand, ⟨k, j, fs, as, hst⟩, hp⟩ := hok
  obtain ⟨hinv, hrep⟩ := step_spec (h.deque w) (hwrap w) .owner
  simp only [access]
  rcases ownerStep_pop hp hinv.owner with ⟨hnone, hp'⟩ | ⟨r, hsome, hidle⟩
  · simp only [WorkDeque.step, hnone]
    refine follows_owner h (hwrap w) hcall (fun _ he => by cases he) (pops_busy hp) hnone
      ⟨hhand, ⟨k, j, fs, as, hst⟩, ?_⟩ s
    rw [set_deque_self]
    exact hp'
  · simp only [WorkDeque.step, hsome] at hinv hrep ⊢
    generalize (P.sched.deque w).ownerStep.1 = q at hidle hinv hrep haccess
    have hsync : Sync main (P.set w q w none) := h.leave hinv haccess (by rw [set_deque_self]; exact hidle)
    have hwork : P.abs.work body s w = (do
        let S ← (P.set w q w none).abs.afterLeft w as k j fs r
        return some (S, s)) := by
      simp only [Sched.work, show P.abs.hand w = none from hhand,
        show P.abs.stack w = ⟨k, .done, .left j :: fs⟩ :: as from hst, getOwnJob_abs hrep none]
    have hend : (P.set w q w none).endCall s w .left (.popBottom r) = (do
        let S ← (P.set w q w none).sched.afterLeft w as k j fs r
        return some ({ P.set w q w none with sched := S }, s)) := by
      simp only [endCall, show (P.set w q w none).sched.stack w = ⟨k, .done, .left j :: fs⟩ :: as from hst]
    rw [show (P.set w q w none).abs = (P.set w q w none).sched.mapDeque fun q => q.content.reverse from rfl,
      Sched.afterLeft_mapDeque] at hwork
    rw [hend]
    cases hr : (P.set w q w none).sched.afterLeft w as k j fs r with
    | error e =>
      rw [hr] at hwork
      exact ⟨.work w, hwork⟩
    | ok S =>
      rw [hr] at hwork
      refine ⟨?_, Or.inr ⟨.work w, hwork⟩⟩
      have hS : ∃ bs, S = (P.set w q w none).sched.setStack w bs := by
        cases r with
        | none =>
          cases hr
          exact ⟨_, rfl⟩
        | some i =>
          rw [Sched.afterLeft] at hr
          split_ifs at hr
          cases hr
          exact ⟨_, rfl⟩
      obtain ⟨bs, rfl⟩ := hS
      exact hsync.setStack (set_call_self _ _ _ _ _) bs

/-- the accesses of `pop_bottom` in `get_job` -/
theorem follows_own (h : Sync main P) (hwrap : ∀ v, (P.sched.deque v).NoWrap) (hcall : P.call w = some .own) (s : σ) :
    Follows body main P s (.work w) (P.access s w .own) := by
  have hok := h.call w
  rw [hcall] at hok
  have haccess := accessOf_owner w (P.sched.deque w)
  obtain ⟨hseek, hp⟩ := hok
  obtain ⟨hinv, hrep⟩ := step_spec (h.deque w) (hwrap w) .owner
  simp only [access]
  rcases ownerStep_pop hp hinv.owner with ⟨hnone, hp'⟩ | ⟨r, hsome, hidle⟩
  · simp only [WorkDeque.step, hnone]
    refine follows_owner h (hwrap w) hcall (fun _ he => by cases he) (pops_busy hp) hnone ⟨hseek, ?_⟩ s
    rw [set_deque_self]
    exact hp'
  · simp only [WorkDeque.step, hsome] at hinv hrep ⊢
    generalize (P.sched.deque w).ownerStep.1 = q at hidle hinv hrep haccess
    have hsync : Sync main (P.set w q w none) := h.leave hinv haccess (by rw [set_deque_self]; exact hidle)
    have hown := getOwnJob_abs hrep none
    have hpace : 8 < P.pace w := by
      rw [pace, hcall]
      exact Nat.lt_add_right _ (Nat.lt_succ_self 8)
    refine follows_got hsync (set_call_self _ _ _ _ _) (fun _ hu => unmoved_set haccess hu) hpace ?_
      fun i hi => ⟨.own w, ?_⟩
    · rintro rfl
      exact abs_set_eq (popBottom_content hrep)
    · rw [Sched.step, if_pos (show P.abs.seeks main w = true from hseek), hown, hi]

/-- the accesses of `pop_top` -/
theorem follows_steal (h : Sync main P) (hwrap : ∀ v, (P.sched.deque v).NoWrap) (hcall : P.call w = some (.steal v)) (s : σ) :
    Follows body main P s (.work w) (P.access s w (.steal v)) := by
  have hok := h.call w
  rw [hcall] at hok
  obtain ⟨hseek, hidle, hbusy⟩ := hok
  obtain ⟨hinv, hrep⟩ := step_spec (h.deque v) (hwrap v) (.thief w)
  have haccess := accessOf_thief w v (P.sched.deque v)
  -- the owner of the deque of `w` stays idle, also when this is the deque of `v`
  have hidle' : ∀ c, ((P.set v ((P.sched.deque v).thiefStep w).1 w c).sched.deque w).owner = .idle := by
    intro c
    by_cases hwv : w = v
    · subst hwv
      rw [set_deque_self, thiefStep_owner, hidle]
    · rw [set_deque_ne hwv, hidle]
  simp only [access]
  rcases thiefStep_report (P.sched.deque v) w with hnone | ⟨r, empty, hsome⟩
  · obtain ⟨hbusy', hlt⟩ := thiefStep_accesses hinv hbusy hnone
    simp only [WorkDeque.step, hnone] at hinv hrep ⊢
    refine follows_set rfl (h.set hinv haccess ⟨hseek, hidle' _, ?_⟩) hrep haccess (Or.inl ?_)
    · rw [set_deque_self]
      exact hbusy'
    · rw [pace, pace, set_call_self, hcall]
      simp only [set_deque_self]
      exact Nat.add_lt_add_left hlt 9
  · simp only [WorkDeque.step, hsome] at hinv hrep ⊢
    generalize ((P.sched.deque v).thiefStep w).1 = q at hidle' hinv hrep haccess
    have hsync : Sync main (P.set v q w none) := h.leave hinv haccess (hidle' none)
    have hpace : 8 < P.pace w := by
      rw [pace, hcall]
      exact Nat.lt_add_right _ (Nat.lt_succ_self 8)
    refine follows_got hsync (set_call_self _ _ _ _ _) (fun _ hu => unmoved_set haccess hu) hpace ?_
      fun i hi => ⟨.steal w v, ?_⟩
    · rintro rfl
      exact abs_set_eq (popTop_content hrep)
    · subst hi
      rw [Sched.step, if_pos (show P.abs.seeks main w = true from hseek), trySteal_abs hrep w none]

/-- **One access.** -/
theorem follows_access (h : Sync main P) (hwrap : ∀ v, (P.sched.deque v).NoWrap) {c : DequeCall W}
    (hcall : P.call w = some c) (s : σ) : Follows body main P s (.work w) (P.access s w c) := by
  cases c with
  | push => exact follows_push h hwrap hcall s
  | left => exact follows_left h hwrap hcall s
  | own => exact follows_own h hwrap hcall s
  | steal v => exact follows_steal h hwrap hcall s

theorem work_resume {a : Activation C} {as : List (Activation C)} (hcall : P.call w = none) (hhand : P.sched.hand w = none)
    (hst : P.sched.stack w = a :: as) (hne : ∀ j fs, a.cur = .done → a.frames ≠ .left j :: fs) :
    P.work body s w = (do
      let r ← P.sched.resume body s w as a
      return r.map fun q => ({ P with sched := q.1 }, q.2)) := by
  obtain ⟨k, t, fs⟩ := a
  unfold work
  split
  · next he =>
    rw [hcall] at he
    cases he
  · next he =>
    rw [hhand] at he
    cases he
  · next he =>
    rw [hst] at he
    cases he
  · next he =>
    rw [hst] at he
    cases he
    exact absurd rfl (hne _ _ rfl)
  · next he =>
    rw [hst] at he
    cases he
    rfl

theorem Sync.idle (h : Sync main P) (hcall : P.call w = none) : (P.sched.deque w).owner = .idle := by
  have hok := h.call w
  rwa [hcall] at hok

/-- `push_bottom` is called -/
theorem follows_enterPush (h : Sync main P) (hwrap : (P.sched.deque w).NoWrap) (hcall : P.call w = none) {j : ℕ}
    (hhand : P.sched.hand w = some j) (s : σ) : Follows body main P s (.work w) (P.work body s w) := by
  obtain ⟨hinv, hrep⟩ := step_spec (h.deque w) hwrap (.push j)
  have hwork : P.work body s w = .ok (some (P.set w ((P.sched.deque w).step (.push j)).1 w (some .push), s)) := by
    unfold work
    simp only [hcall, hhand]
  obtain ⟨howner, hnone⟩ : ((P.sched.deque w).step (.push j)).1.owner = .push j ∧
      ((P.sched.deque w).step (.push j)).2 = none := by
    simp only [WorkDeque.step, h.idle hcall, and_self]
  have haccess := (accessOf_enter w (P.sched.deque w) j).1
  rw [hnone] at hrep
  rw [hwork]
  refine follows_set rfl (h.set hinv haccess ⟨j, hhand, ?_⟩) hrep haccess (Or.inl ?_)
  · rw [set_deque_self, howner]
    rfl
  · rw [pace, pace, set_call_self, hcall]
    simp only [set_deque_self, howner]
    exact Nat.lt_of_sub_pos (Nat.succ_pos 4)

/-- `pop_bottom` is called, in `pardo` or in `get_job` -/
theorem follows_enterPop {m : SchedMove W} {c : DequeCall W} (hm : m.worker = w) (h : Sync main P)
    (hwrap : (P.sched.deque w).NoWrap) (hcall : P.call w = none)
    (hok : ∀ q : WorkDeque W ℕ, q.owner = .pop → CallOk main (P.set w q w (some c)).sched w (some c))
    (hpace : c = .left ∨ m ≠ .work w ∧ P.sched.seeks main w = true ∧ P.sched.breakEarly w ≠ true) (s : σ) :
    Follows body main P s m (.ok (some (P.set w ((P.sched.deque w).step .pop).1 w (some c), s))) := by
  obtain ⟨hinv, hrep⟩ := step_spec (h.deque w) hwrap .pop
  obtain ⟨howner, hnone⟩ : ((P.sched.deque w).step .pop).1.owner = .pop ∧ ((P.sched.deque w).step .pop).2 = none := by
    simp only [WorkDeque.step, h.idle hcall, and_self]
  have haccess := (accessOf_enter w (P.sched.deque w) 0).2
  rw [hnone] at hrep
  refine follows_set hm (h.set hinv haccess (hok _ howner)) hrep haccess ?_
  rcases hpace with rfl | henter
  · left
    rw [pace, pace, set_call_self, hcall]
    simp only [set_deque_self, howner]
    exact Nat.lt_succ_self 7
  · exact Or.inr (Or.inr henter)

/-- `pop_top` is called -/
theorem follows_enterPopTop (h : Sync main P) (hwrap : (P.sched.deque v).NoWrap) (hcall : P.call w = none)
    (hseek : P.sched.seeks main w = true ∧ P.sched.breakEarly w ≠ true) (s : σ) :
    Follows body main P s (.steal w v) (.ok (some (P.set v ((P.sched.deque v).step (.popTop w)).1 w (some (.steal v)), s))) := by
  obtain ⟨hinv, hrep⟩ := step_spec (h.deque v) hwrap (.popTop w)
  obtain ⟨hnone, howner⟩ := popTop_enter (P.sched.deque v) w
  have haccess := accessOf_popTop w v (P.sched.deque v)
  rw [hnone] at hrep
  have hne : SchedMove.steal w v ≠ .work w := fun he => by cases he
  refine follows_set rfl (h.set hinv haccess ⟨hseek.1, ?_, ?_⟩) hrep haccess (Or.inr (Or.inr ⟨hne, hseek⟩))
  · by_cases hwv : w = v
    · subst hwv
      rw [set_deque_self, howner]
      exact h.idle hcall
    · rw [set_deque_ne hwv]
      exact h.idle hcall
  · rw [set_deque_self]
    exact popTop_busy _ w

/-- a step of a call outside of the deques -/
theorem follows_resume (h : Sync main P) (hcall : P.call w = none) (hhand : P.sched.hand w = none) {a : Activation C}
    {as : List (Activation C)} (hst : P.sched.stack w = a :: as) (hne : ∀ j fs, a.cur = .done → a.frames ≠ .left j :: fs)
    (s : σ) : Follows body main P s (.work w) (P.work body s w) := by
  have habs : P.abs.work body s w = (do
      let r ← P.sched.resume body s w as a
      return r.map fun q => (q.1.mapDeque fun q => q.content.reverse, q.2)) := by
    rw [Sched.work_resume (S := P.abs) hhand hst hne]
    exact Sched.resume_mapDeque _ as a
  rw [work_resume hcall hhand hst hne]
  cases hr : P.sched.resume body s w as a with
  | error e =>
    rw [hr] at habs
    exact ⟨.work w, habs⟩
  | ok r =>
    rw [hr] at habs
    cases r with
    | none =>
      intro v hv
      cases hv
      exact habs
    | some r =>
      obtain ⟨S, s'⟩ := r
      obtain ⟨hdeque, hother⟩ := Sched.resume_frame hr
      refine ⟨h.change (w := w) ?_ ?_ fun v hv => ⟨rfl, ?_, fun u => ?_, (hother v hv).1, (hother v hv).2⟩,
        Or.inr ⟨.work w, habs⟩⟩
      · intro v
        show (S.deque v).Inv
        rw [hdeque]
        exact h.deque v
      · show CallOk main S w (P.call w)
        rw [hcall]
        show (S.deque w).owner = .idle
        rw [hdeque]
        exact h.idle hcall
      · show (S.deque v).owner = _
        rw [hdeque]
      · show (S.deque u).thief v = _
        rw [hdeque]

theorem follows_work (h : Sync main P) (hwrap : ∀ v, (P.sched.deque v).NoWrap) (s : σ) (w : W) :
    Follows body main P s (.work w) (P.work body s w) := by
  cases hcall : P.call w with
  | some c =>
    have hwork : P.work body s w = P.access s w c := by
      unfold work
      simp only [hcall]
    rw [hwork]
    exact follows_access h hwrap hcall s
  | none =>
    cases hhand : P.sched.hand w with
    | some j => exact follows_enterPush h (hwrap w) hcall hhand s
    | none =>
      cases hst : P.sched.stack w with
      | nil =>
        have hwork : P.work body s w = .ok none := by
          unfold work
          simp only [hcall, hhand, hst]
        rw [hwork]
        intro v hv
        cases hv
        rw [Sched.work, show P.abs.hand w = none from hhand, show P.abs.stack w = [] from hst]
      | cons a as =>
        by_cases hleft : ∃ j fs, a.cur = .done ∧ a.frames = .left j :: fs
        · obtain ⟨k, t, fs'⟩ := a
          obtain ⟨j, fs, hcur, hfs⟩ := hleft
          obtain rfl : t = .done := hcur
          obtain rfl : fs' = .left j :: fs := hfs
          have hwork : P.work body s w = .ok (some (P.set w ((P.sched.deque w).step .pop).1 w (some .left), s)) := by
            unfold work
            simp only [hcall, hhand, hst]
          rw [hwork]
          refine follows_enterPop (w := w) (c := .left) rfl h (hwrap w) hcall
            (fun q hq => ⟨hhand, ⟨k, j, fs, as, hst⟩, ?_⟩) (Or.inl rfl) s
          rw [set_deque_self, hq]
          trivial
        · exact follows_resume h hcall hhand hst (fun j fs hcur hfs => hleft ⟨j, fs, hcur, hfs⟩) s

/-- **One step.** -/
theorem follows_step (h : Sync main P) (hwrap : ∀ v, (P.sched.deque v).NoWrap) (s : σ) (m : SchedMove W) :
    Follows body main P s m (step body main (P, s) m) := by
  cases m with
  | work w => exact follows_work h hwrap s w
  | own w =>
    simp only [step]
    split_ifs with hseek
    · have hne : SchedMove.own w ≠ .work w := fun he => by cases he
      refine follows_enterPop (w := w) (c := .own) rfl h (hwrap w) (Option.isNone_iff_eq_none.1 hseek.1)
        (fun q hq => ⟨hseek.2.1, ?_⟩) (Or.inr ⟨hne, hseek.2⟩) s
      rw [set_deque_self, hq]
      trivial
    · intro v hv
      cases hv
  | steal w v =>
    simp only [step]
    split_ifs with hseek
    · exact follows_enterPopTop h (hwrap v) (Option.isNone_iff_eq_none.1 hseek.1) hseek.2 s
    · intro u hu
      cases hu

/-! ## Runs -/

theorem sync_start (deq : ℕ → ℕ) (main : W) (t : Proc C) : Sync main (start deq main t) :=
  ⟨fun _ => inv_empty deq, fun _ => rfl⟩

theorem abs_start (deq : ℕ → ℕ) (main : W) (t : Proc C) : (start deq main t).abs = Sched.start main t := by
  rw [start, abs, Sched.startWith, Sched.mapDeque, Sched.start, Sched.startWith]
  refine congrArg (fun d => Sched.mk _ _ _ _ d _) (funext fun w => ?_)
  exact congrArg List.reverse (jobs_nil le_rfl)

/-- fewer than 2^32 resets of a deque since a worker that comes to its exchange there has loaded `age` -/
def NoWraps (q : DequeSched W C × σ) : Prop := ∀ w, (q.1.sched.deque w).NoWrap

/-- every state is one of the scheduler with lists of jobs -/
theorem reaches_abs {deq : ℕ → ℕ} (hr : ReachesIn NoWraps (step body main) (start deq main t, s) (P', s')) :
    Sync main P' ∧ Reaches (Sched.step body main) (Sched.start main t, s) (P'.abs, s') := by
  have h0 : Sync main (start deq main t) ∧
      Reaches (Sched.step body main) (Sched.start main t, s) ((start deq main t).abs, s) :=
    ⟨sync_start deq main t, abs_start deq main t ▸ Relation.ReflTransGen.refl⟩
  refine hr.invariant (I := fun q => Sync main q.1 ∧ Reaches (Sched.step body main) (Sched.start main t, s) (q.1.abs, q.2))
    h0 ?_
  rintro ⟨P, s₁⟩ m ⟨P', s₂⟩ ⟨hsync, hreach⟩ hwrap hm
  have hfollows : Follows body main P s₁ m (step body main (P, s₁) m) := follows_step hsync hwrap s₁ m
  rw [hm] at hfollows
  obtain ⟨hsync', hcase⟩ := hfollows
  refine ⟨hsync', ?_⟩
  rcases hcase with ⟨habs, rfl, -⟩ | ⟨m', hm'⟩
  · show Reaches _ _ (P'.abs, s₂)
    rwa [habs]
  · exact hreach.tail ⟨trivial, m', hm'⟩

/-- **The scheduler with its deques.** With fewer than 2^32 resets of a deque during a `pop_top`, the state after any accesses
of the workers is one that the fork-join program comes to, at the end of it when the program is done; no access is outside a
deque, no `assert` fails, and a call that faults is one that may run next there. -/
theorem deque_scheduler_refines {deq : ℕ → ℕ}
    (hr : ReachesIn NoWraps (step body main) (start deq main t, s) (P', s')) (hwrap : NoWraps (P', s')) :
    ∃ t', Steps body (t, s) (t', s') ∧ (P'.sched.finished 0 = true → t' = .done) ∧
      (∀ w, (P'.sched.deque w).owner ≠ .fault ∧ ∀ v, (P'.sched.deque w).thief v ≠ .fault) ∧
      ∀ m e, step body main (P', s') m = .error e → (∃ f, e = .body f) ∧ Faults body t' s' := by
  obtain ⟨hsync, hreach⟩ := reaches_abs hr
  obtain ⟨T, J, hgood, hJ, hsteps⟩ := Sched.reaches_good hreach
  refine ⟨J 0, hsteps, hgood.done hJ, fun w => (hsync.deque w).no_fault, fun m e he => ?_⟩
  have hfollows : Follows body main P' s' m (step body main (P', s') m) := follows_step hsync hwrap s' m
  rw [he] at hfollows
  obtain ⟨m', hm'⟩ := hfollows
  exact Sched.step_error hgood hJ hm'

/-- as in `Sched.stealFirst`, with all accesses: the worker `false` pushes the second call, the worker `true` takes it and makes
it, and `false`, which has made the first one, finds its deque empty -/
def stealFirst : List (SchedMove Bool) :=
  List.replicate 5 (.work false) ++ .steal true false :: List.replicate 6 (.work true) ++ List.replicate 11 (.work false)

theorem deque_scheduler_refines_stealFirst : Steps Sched.addBody (par (.call 1) (.call 2), 0) (.done, 3) := by
  have hrun : ∃ P, runTo (fun q : DequeSched Bool ℕ × ℕ => ∀ w, (q.1.sched.deque w).age.tag < 2 ^ 32)
      (step Sched.addBody false) (start (fun _ => 0) false (par (.call 1) (.call 2)), 0) stealFirst = some (P, 3) ∧
      P.sched.finished 0 = true ∧ ∀ w, (P.sched.deque w).age.tag < 2 ^ 32 := ⟨_, rfl, rfl, by decide⟩
  obtain ⟨P, hP, h0, htag⟩ := hrun
  have hreach := (reachesIn_runTo hP).mono fun q hq w => noWrap_of_tag (hq w)
  obtain ⟨t', hsteps, hdone, -⟩ := deque_scheduler_refines hreach fun w => noWrap_of_tag (htag w)
  rwa [hdone h0] at hsteps

/-- in particular when all runs of the program end with `P` -/
theorem reaches_safe {deq : ℕ → ℕ} {Q : σ → Prop} (h : AllRuns body Q t s)
    (hr : ReachesIn NoWraps (step body main) (start deq main t, s) (P', s')) (hwrap : NoWraps (P', s')) :
    (∀ m e, step body main (P', s') m ≠ .error e) ∧ (P'.sched.finished 0 = true → Q s') := by
  obtain ⟨hsync, hreach⟩ := reaches_abs hr
  obtain ⟨T, J, hgood, hJ, hsteps⟩ := Sched.reaches_good hreach
  have hrest := h.steps hsteps
  refine ⟨fun m e he => ?_, fun h0 => ?_⟩
  · have hfollows : Follows body main P' s' m (step body main (P', s') m) := follows_step hsync hwrap s' m
    rw [he] at hfollows
    obtain ⟨m', hm'⟩ := hfollows
    exact hrest.safe (Sched.step_error hgood hJ hm').2
  · rw [hgood.done hJ h0] at hrest
    exact hrest.final

end DequeSched

end HeavyLight
