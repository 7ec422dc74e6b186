/-
How full the deques of the scheduler get.

- `height`: one past the last cell that the owner of a deque has in use, `room`: the left sides that the innermost call of a
  worker is in. `Shallow`: the height of a deque is within the room of its owner. `step_shallow`: so it is after each step.
- `reaches_not_aborted`: a program that is never in 1000 left sides at a time does not come to the `abort` of `push_bottom`.
- `Sound`: all that does not happen to a program on the workers with their deques. `sound`: when it follows from its runs.
-/
import HeavyLight.DequeTags

namespace HeavyLight

open Proc

namespace WorkDeque

variable {ι J : Type} [DecidableEq ι] {s s' : WorkDeque ι J} {i : ι} {job : J}

/-- one past the last cell that the owner has in use -/
def height (s : WorkDeque ι J) : ℕ :=
  match s.owner with
  | .lower b => b + 1
  | .read b => b + 1
  | .look b _ => b + 1
  | .clear b _ _ => b + 1
  | .swap b _ _ => b + 1
  | .reset _ => 0
  | .aborted => qSize - 1
  | _ => s.bot

omit [DecidableEq ι] in
theorem height_congr (howner : s'.owner = s.owner) (hbot : s'.bot = s.bot) : s'.height = s.height := by
  unfold height
  rw [howner, hbot]

/-- the steps of a thief are not steps of the owner -/
theorem thiefStep_height (s : WorkDeque ι J) (i : ι) : (s.thiefStep i).1.height = s.height := by
  refine height_congr (thiefStep_owner s i) ?_
  unfold thiefStep
  split <;> try split_ifs
  all_goals rfl

theorem popTop_height (s : WorkDeque ι J) (i : ι) : (s.step (.popTop i)).1.height = s.height := by
  refine height_congr (popTop_enter s i).2 ?_
  simp only [step]
  split <;> rfl

omit [DecidableEq ι] in
theorem ownerStep_push_height (h : Pushes job s.owner) (hinv : s.OwnerInv) :
    s.ownerStep.1.height = s.height + s.ownerStep.2.toList.length := by
  obtain ⟨-, -, hsmall, hplace⟩ := hinv
  cases ho : s.owner with
  | push j =>
    simp only [ownerStep, ho, height]
    rfl
  | store j b =>
    simp only [OwnerPlace, logicalBot, ho] at hplace hsmall
    have hb : b < qSize := hplace ▸ hsmall
    simp only [ownerStep, ho, height, if_pos hb]
    rfl
  | publish j b =>
    simp only [OwnerPlace, ho] at hplace
    obtain ⟨rfl, -⟩ := hplace
    by_cases hfull : s.bot + 1 = qSize
    · simp only [ownerStep, ho, height, ← hfull]
      rfl
    · simp only [ownerStep, ho, height, if_neg hfull]
      rfl
  | aborted =>
    simp only [ownerStep, ho, height]
    rfl
  | _ =>
    rw [ho] at h
    exact h.elim

/-- the height before and after a step of `pop_bottom` with its result -/
def PopHeight (before after : ℕ) : Option (DequeOp J) → Prop
  | none => after ≤ before
  | some (.popBottom (some _)) => after + 1 ≤ before
  | some (.popBottom none) => after = 0
  | some _ => False

omit [DecidableEq ι] in
theorem ownerStep_pop_height (h : Pops s.owner) (hinv : s.OwnerInv) :
    PopHeight s.height s.ownerStep.1.height s.ownerStep.2 := by
  obtain ⟨-, -, hsmall, hplace⟩ := hinv
  cases ho : s.owner with
  | pop =>
    by_cases hb : s.bot ≠ 0
    · simp only [ownerStep, ho, height, if_pos hb, PopHeight]
      omega
    · simp only [ownerStep, ho, height, if_neg hb, PopHeight]
      exact not_not.1 hb
  | lower b =>
    simp only [ownerStep, ho, height, PopHeight]
    exact le_rfl
  | read b =>
    simp only [logicalBot, ho] at hsmall
    have hb : b < qSize := by omega
    simp only [ownerStep, ho, height, if_pos hb, PopHeight]
    exact le_rfl
  | look b j =>
    simp only [OwnerPlace, ho] at hplace
    by_cases htop : s.age.top < b
    · simp only [ownerStep, ho, height, if_pos htop, PopHeight, hplace.1]
      exact le_rfl
    · simp only [ownerStep, ho, height, if_neg htop, PopHeight]
      exact le_rfl
  | clear b j old =>
    simp only [ownerStep, ho, height, PopHeight]
    exact le_rfl
  | swap b j old =>
    simp only [OwnerPlace, ho] at hplace
    by_cases hsame : b = old.top ∧ s.age.Same old
    · simp only [ownerStep, ho, height, if_pos hsame, PopHeight, hplace.1]
      exact Nat.succ_le_succ (Nat.zero_le b)
    · simp only [ownerStep, ho, height, if_neg hsame, PopHeight]
      exact Nat.zero_le _
  | reset new =>
    simp only [OwnerPlace, ho] at hplace
    simp only [ownerStep, ho, height, PopHeight]
    exact hplace.1
  | _ =>
    rw [ho] at h
    exact h.elim

end WorkDeque

/-! ## The room of a worker -/

/-- the left sides that the innermost call is in -/
def room {C : Type} : List (Activation C) → ℕ
  | [] => 0
  | a :: _ => leftRun a.frames

namespace Sched

variable {W C D σ : Type} [DecidableEq W] {body : Body C σ} {S S' : Sched W C D} {main w : W} {s s' : σ}
  {a : Activation C} {as : List (Activation C)}

omit [DecidableEq W] in
/-- a worker that looks for a job has none -/
theorem room_seeks [DecidableEq W] (h : S.seeks main w = true) : room (S.stack w) = 0 := by
  unfold seeks at h
  split at h
  · next he =>
    rw [he]
    rfl
  · next he =>
    rw [he]
    rfl
  · cases h

/-- a job that is made is that of a new left side -/
theorem resume_room (hhand : S.hand w = none) (h : S.resume body s w as a = .ok (some (S', s'))) :
    (S'.hand w).toList.length + leftRun a.frames ≤ room (S'.stack w) := by
  have hset : ∀ b : Activation C, leftRun b.frames = leftRun a.frames →
      ((S.setStack w (b :: as)).hand w).toList.length + leftRun a.frames ≤ room ((S.setStack w (b :: as)).stack w) := by
    intro b hb
    rw [setStack_self, room, hb, show (S.setStack w (b :: as)).hand w = none from hhand]
    exact (Nat.zero_add _).le
  obtain ⟨k, t, fs⟩ := a
  cases t with
  | call c =>
    simp only [resume] at h
    cases hc : body c s with
    | error e =>
      rw [hc] at h
      cases h
    | ok r =>
      rw [hc] at h
      cases h
      exact hset ⟨k, r.2, fs⟩ rfl
  | seq t u =>
    cases h
    exact hset ⟨k, t, .next u :: fs⟩ rfl
  | par t u =>
    cases h
    rw [setStack_self, show ((S.makeJob w u).setStack w _).hand w = some S.fresh from makeJob_hand S w u]
    exact (Nat.add_comm _ _).le
  | done =>
    cases fs with
    | nil =>
      cases h
      show (S.hand w).toList.length + 0 ≤ _
      rw [hhand]
      exact Nat.zero_le _
    | cons f fs =>
      cases f with
      | next u =>
        cases h
        exact hset ⟨k, u, fs⟩ rfl
      | left j => cases h
      | right =>
        cases h
        exact hset ⟨k, .done, fs⟩ rfl
      | wait j =>
        by_cases hj : S.finished j = true
        · rw [resume, if_pos hj] at h
          cases h
          show (S.hand w).toList.length + 0 ≤ _
          rw [hhand]
          exact Nat.zero_le _
        · rw [resume, if_neg hj] at h
          cases h

end Sched

namespace DequeSched

open WorkDeque

variable {W C σ : Type} [DecidableEq W] {body : Body C σ} {main : W} {P P' : DequeSched W C} {s s' : σ} {v w : W}
  {q : WorkDeque W ℕ} {c : Option (DequeCall W)} {t : Proc C}

/-! ## The invariant -/

/-- the cells in use and the job in the hand are within the room of the worker -/
def Fits (S : Sched W C (WorkDeque W ℕ)) (w : W) : Prop :=
  (S.deque w).height + (S.hand w).toList.length ≤ room (S.stack w)

def Shallow (P : DequeSched W C) : Prop := ∀ w, Fits P.sched w

/-- a step of the worker `w` -/
theorem Shallow.change (h : Shallow P) (hw : Fits P'.sched w)
    (hother : ∀ v, v ≠ w → (P'.sched.deque v).height = (P.sched.deque v).height ∧ P'.sched.hand v = P.sched.hand v ∧
      P'.sched.stack v = P.sched.stack v) : Shallow P' := by
  intro v
  by_cases hv : v = w
  · exact hv ▸ hw
  · obtain ⟨hheight, hhand, hstack⟩ := hother v hv
    unfold Fits
    rw [hheight, hhand, hstack]
    exact h v

/-- an access that uses no more cells -/
theorem Shallow.set (h : Shallow P) (hq : q.height ≤ (P.sched.deque v).height) (w : W) (c : Option (DequeCall W)) :
    Shallow (P.set v q w c) := by
  intro u
  by_cases hu : u = v
  · subst hu
    unfold Fits
    rw [set_deque_self]
    exact (Nat.add_le_add_right hq _).trans (h u)
  · unfold Fits
    rw [set_deque_ne hu]
    exact h u

/-- another stack of the worker `w` -/
theorem Shallow.setStack (h : Shallow P) {as : List (Activation C)}
    (hw : (P.sched.deque w).height + (P.sched.hand w).toList.length ≤ room as) :
    Shallow { P with sched := P.sched.setStack w as } := by
  refine h.change (w := w) ?_ fun v hv => ⟨rfl, rfl, Sched.setStack_ne hv as⟩
  unfold Fits
  rw [Sched.setStack_self]
  exact hw

theorem Shallow.got (h : Shallow P) {r : Option ℕ} (hroom : room (P.sched.stack w) = 0)
    (hm : P.got s w r = .ok (some (P', s'))) : Shallow P' := by
  cases r with
  | none =>
    cases hm
    exact h
  | some i =>
    have hw := h w
    unfold Fits at hw
    rw [hroom] at hw
    by_cases hi : P.sched.finished i = true
    · simp only [DequeSched.got, Sched.invoke, if_pos hi] at hm
      cases hm
    · simp only [DequeSched.got, Sched.invoke, if_neg hi] at hm
      cases hm
      exact h.setStack (w := w) hw

/-- **One access.** -/
theorem access_shallow (h : Shallow P) (hsync : Sync main P) {c : DequeCall W} (hcall : P.call w = some c)
    (hm : P.access s w c = .ok (some (P', s'))) : Shallow P' := by
  have hok := hsync.call w
  rw [hcall] at hok
  cases c with
  | push =>
    obtain ⟨j, hhand, hp⟩ := hok
    have hheight := ownerStep_push_height hp (hsync.deque w).owner
    simp only [access, WorkDeque.step] at hm
    cases hr : (P.sched.deque w).ownerStep.2 with
    | none =>
      rw [hr] at hm hheight
      cases hm
      exact h.set hheight.le w _
    | some op =>
      rw [hr] at hm hheight
      have hw := h w
      unfold Fits at hw
      rw [hhand] at hw
      cases op with
      | push j' first =>
        cases hm
        refine h.change (w := w) ?_ fun v hv => ⟨?_, Sched.setHand_ne hv none, rfl⟩
        · unfold Fits
          show ((P.set w _ w none).sched.deque w).height + _ ≤ _
          rw [set_deque_self, hheight, show Sched.hand _ w = none from Sched.setHand_self _ w none]
          exact hw
        · exact congrArg height (set_deque_ne (c := none) (w := w) hv)
      | popBottom r => cases hm
      | popTop r empty => cases hm
  | left =>
    obtain ⟨hhand, ⟨k, j, fs, as, hst⟩, hp⟩ := hok
    have hheight := ownerStep_pop_height hp (hsync.deque w).owner
    have hw := h w
    unfold Fits at hw
    rw [hhand, hst] at hw
    simp only [access, WorkDeque.step] at hm
    cases hr : (P.sched.deque w).ownerStep.2 with
    | none =>
      rw [hr] at hm hheight
      cases hm
      exact h.set hheight w _
    | some op =>
      rw [hr] at hm hheight
      cases op with
      | push j' first => cases hm
      | popTop r empty => cases hm
      | popBottom r =>
        simp only [endCall, show (P.set w (P.sched.deque w).ownerStep.1 w none).sched.stack w =
          ⟨k, .done, .left j :: fs⟩ :: as from hst] at hm
        cases r with
        | none =>
          cases hm
          refine (h.set (hheight.trans_le (Nat.zero_le _)) w none).setStack (w := w) ?_
          rw [set_deque_self, hheight, show (P.set w _ w none).sched.hand w = none from hhand]
          exact le_rfl
        | some i =>
          by_cases hij : i = j
          · simp only [Sched.afterLeft, if_pos hij] at hm
            cases hm
            refine (h.set ((Nat.le_succ _).trans hheight) w none).setStack (w := w) ?_
            rw [set_deque_self, show (P.set w _ w none).sched.hand w = none from hhand]
            exact Nat.le_of_succ_le_succ (hheight.trans hw)
          · simp only [Sched.afterLeft, if_neg hij] at hm
            cases hm
  | own =>
    obtain ⟨hseek, hp⟩ := hok
    have hheight := ownerStep_pop_height hp (hsync.deque w).owner
    simp only [access, WorkDeque.step] at hm
    cases hr : (P.sched.deque w).ownerStep.2 with
    | none =>
      rw [hr] at hm hheight
      cases hm
      exact h.set hheight w _
    | some op =>
      rw [hr] at hm hheight
      cases op with
      | push j' first => cases hm
      | popTop r empty => cases hm
      | popBottom r =>
        have hle : (P.sched.deque w).ownerStep.1.height ≤ (P.sched.deque w).height := by
          cases r with
          | none => exact hheight.trans_le (Nat.zero_le _)
          | some i => exact (Nat.le_succ _).trans hheight
        exact (h.set hle w none).got (w := w) (Sched.room_seeks hseek) hm
  | steal v =>
    obtain ⟨hseek, -⟩ := hok
    have hheight := thiefStep_height (P.sched.deque v) w
    simp only [access, WorkDeque.step] at hm
    cases hr : ((P.sched.deque v).thiefStep w).2 with
    | none =>
      rw [hr] at hm
      cases hm
      exact h.set hheight.le w _
    | some op =>
      rw [hr] at hm
      cases op with
      | push j' first => cases hm
      | popBottom r => cases hm
      | popTop r empty => exact (h.set hheight.le w none).got (w := w) (Sched.room_seeks hseek) hm

/-- a call of `push_bottom` or `pop_bottom` by an owner that is in none -/
theorem enter_height (hidle : q.owner = .idle) (j : ℕ) :
    (q.step (.push j)).1.height = q.height ∧ (q.step .pop).1.height = q.height := by
  simp only [WorkDeque.step, height, hidle, and_self]

/-- **One step.** -/
theorem step_shallow (h : Shallow P) (hsync : Sync main P) {m : SchedMove W}
    (hm : step body main (P, s) m = .ok (some (P', s'))) : Shallow P' := by
  cases m with
  | work w =>
    replace hm : P.work body s w = .ok (some (P', s')) := hm
    unfold work at hm
    split at hm
    · next c hcall => exact access_shallow h hsync hcall hm
    · next j hcall hhand =>
      cases hm
      exact h.set (enter_height (hsync.idle hcall) j).1.le w _
    · cases hm
    · next hcall hhand hst =>
      cases hm
      exact h.set (enter_height (hsync.idle hcall) 0).2.le w _
    · next a as _ hcall hhand hst =>
      cases hr : P.sched.resume body s w as a with
      | error e =>
        rw [hr] at hm
        cases hm
      | ok r =>
        rw [hr] at hm
        cases r with
        | none => cases hm
        | some r =>
          cases hm
          obtain ⟨hdeque, hother⟩ := Sched.resume_frame hr
          have hw := h w
          unfold Fits at hw
          rw [hhand, hst] at hw
          have hroom := Sched.resume_room hhand hr
          refine h.change (w := w) ?_ fun v hv => ⟨?_, hother v hv⟩
          · show (r.1.deque w).height + (r.1.hand w).toList.length ≤ room (r.1.stack w)
            rw [hdeque]
            exact (Nat.add_comm _ _).le.trans ((Nat.add_le_add_left hw _).trans hroom)
          · exact congrArg (fun d => height (d v)) hdeque
  | own w =>
    simp only [step] at hm
    split_ifs at hm with hseek
    · cases hm
      exact h.set (enter_height (hsync.idle (Option.isNone_iff_eq_none.1 hseek.1)) 0).2.le w _
    · cases hm
  | steal w v =>
    simp only [step] at hm
    split_ifs at hm with hseek
    · cases hm
      exact h.set (popTop_height _ w).le w _
    · cases hm

/-! ## Runs -/

theorem reaches_shallow {deq : ℕ → ℕ} (hr : ReachesIn NoWraps (step body main) (start deq main t, s) (P', s')) :
    Sync main P' ∧ Shallow P' := by
  refine hr.invariant (I := fun q => Sync main q.1 ∧ Shallow q.1) ⟨sync_start deq main t, fun w => ?_⟩ ?_
  · exact Nat.zero_le _
  · rintro ⟨P, s₁⟩ m ⟨P', s₂⟩ ⟨hsync, hshallow⟩ hwrap hm
    refine ⟨?_, step_shallow hshallow hsync hm⟩
    have hfollows : Follows body main P s₁ m (step body main (P, s₁) m) := follows_step hsync hwrap s₁ m
    rw [hm] at hfollows
    exact hfollows.1

/-- an owner that has come to `abort` is in 1000 left sides -/
theorem aborted_room (h : Shallow P) (hsync : Sync main P) (ha : (P.sched.deque w).owner = .aborted) :
    qSize ≤ room (P.sched.stack w) := by
  have hok := hsync.call w
  have hw := h w
  unfold Fits height at hw
  rw [ha] at hw
  cases hc : P.call w with
  | none =>
    rw [hc, CallOk, ha] at hok
    cases hok
  | some c =>
    rw [hc] at hok
    cases c with
    | push =>
      obtain ⟨j, hhand, -⟩ := hok
      rw [hhand] at hw
      exact hw
    | left =>
      obtain ⟨-, -, hp⟩ := hok
      rw [ha] at hp
      exact hp.elim
    | own =>
      obtain ⟨-, hp⟩ := hok
      rw [ha] at hp
      exact hp.elim
    | steal v =>
      obtain ⟨-, hidle, -⟩ := hok
      rw [ha] at hidle
      cases hidle

/-- a program that is never in 1000 left sides -/
theorem reaches_not_aborted (hd : ∀ t' s', Steps body (t, s) (t', s') → t'.leftDepth (fun _ => 0) < qSize) {deq : ℕ → ℕ}
    (hr : ReachesIn NoWraps (step body main) (start deq main t, s) (P', s')) (w : W) :
    (P'.sched.deque w).owner ≠ .aborted := by
  intro ha
  obtain ⟨hsync, hshallow⟩ := reaches_shallow hr
  have hroom := aborted_room hshallow hsync ha
  obtain ⟨T, J, hgood, hJ, hsteps⟩ := Sched.reaches_good (reaches_abs hr).2
  cases hst : P'.sched.stack w with
  | nil =>
    rw [hst] at hroom
    exact Nat.not_succ_le_zero 999 hroom
  | cons a as =>
    rw [hst] at hroom
    have hrun := hgood.linked.running w a (hst ▸ List.mem_cons_self)
    have hle := hgood.inv.leftRun_le hJ hrun fun _ => 0
    exact absurd (hroom.trans hle) (Nat.not_le.2 (hd _ _ hsteps))

/-- in every state that the workers come to: no access is outside a deque, no deque is too full for a `push_bottom`, no
`assert` fails and no call faults; and `P` when the program is done -/
def Sound (body : Body C σ) (main : W) (t : Proc C) (s : σ) (P : σ → Prop) : Prop :=
  ∀ deq Q s', Reaches (step body main) (start deq main t, s) (Q, s') →
    (∀ w, (Q.sched.deque w).owner ≠ .fault ∧ (Q.sched.deque w).owner ≠ .aborted ∧ ∀ v, (Q.sched.deque w).thief v ≠ .fault) ∧
      (∀ m e, step body main (Q, s') m ≠ .error e) ∧ (Q.sched.finished 0 = true → P s')

/-- **A whole program** that is never in 1000 left sides, and brings fewer than 2^32 pairs. -/
theorem sound {P : σ → Prop} (hruns : AllRuns body P t s)
    (hd : ∀ t' s', Steps body (t, s) (t', s') → t'.leftDepth (fun _ => 0) < qSize) (hpairs : FewPairs body t s) (main : W) :
    Sound body main t s P := by
  intro deq Q s' hreach
  obtain ⟨hr, hwrap⟩ := reaches_noWraps hpairs hreach
  refine ⟨fun w => ?_, reaches_safe hruns hr hwrap⟩
  obtain ⟨howner, hthief⟩ := ((reaches_abs hr).1.deque w).no_fault
  exact ⟨howner, reaches_not_aborted hd hr w, hthief⟩

end DequeSched

end HeavyLight
