/-
How often the deques of the scheduler are reset.

- `resets`: the resets of a deque, and the one that may come before the next push. `Counted`: there are fewer of them than jobs
  that have been made. `step_counted`: so it is after each step.
- `reaches_brings`: as many jobs are made as the program brings pairs.
- `reaches_noWraps`: a program that brings fewer than 2^32 pairs leads to fewer than 2^32 resets.
-/
import HeavyLight.DequeScheduler
import HeavyLight.Pairs

namespace HeavyLight

open Proc

namespace WorkDeque

variable {ι J : Type} {q : WorkDeque ι J} {i : ι}

/-- a reset may come before the next push -/
def pending (q : WorkDeque ι J) : ℕ :=
  match q.owner with
  | .lower _ => 1
  | .read _ => 1
  | .look _ _ => 1
  | .clear _ _ _ => 1
  | .swap _ _ _ => 1
  | .reset _ => 1
  | _ => if q.bot = 0 then 0 else 1

def resets (q : WorkDeque ι J) : ℕ := q.age.tag + q.pending

/-- a push may be followed by a reset -/
def pushed : Option (DequeOp J) → ℕ
  | some (.push _ _) => 1
  | _ => 0

theorem ownerStep_resets (h : q.OwnerInv) : q.ownerStep.1.resets ≤ q.resets + pushed q.ownerStep.2 := by
  have hplace := h.place
  cases ho : q.owner with
  | idle => simp only [ownerStep, ho, Nat.le_add_right]
  | aborted => simp only [ownerStep, ho, Nat.le_add_right]
  | fault => simp only [ownerStep, ho, Nat.le_add_right]
  | push job => simp only [ownerStep, resets, pending, ho, Nat.le_add_right]
  | lower b => simp only [ownerStep, resets, pending, ho, Nat.le_add_right]
  | clear b job old => simp only [ownerStep, resets, pending, ho, Nat.le_add_right]
  | store job b =>
    by_cases hb : b < qSize
    · simp only [ownerStep, resets, pending, ho, if_pos hb, Nat.le_add_right]
    · simp only [ownerStep, resets, pending, ho, if_neg hb, Nat.le_add_right]
  | publish job b =>
    by_cases hb : b + 1 = qSize
    · simp only [ownerStep, resets, pending, ho, if_pos hb, Nat.le_add_right]
    · simp only [ownerStep, resets, pending, ho, if_neg hb, if_neg (Nat.succ_ne_zero b), pushed]
      omega
  | pop =>
    by_cases hb : q.bot = 0
    · simp only [ownerStep, resets, pending, ho, ne_eq, hb, not_true_eq_false, if_false, if_true, Nat.le_add_right]
    · simp only [ownerStep, resets, pending, ho, ne_eq, hb, not_false_eq_true, if_true, if_false, Nat.le_add_right]
  | read b =>
    by_cases hb : b < qSize
    · simp only [ownerStep, resets, pending, ho, if_pos hb, Nat.le_add_right]
    · simp only [ownerStep, resets, pending, ho, if_neg hb]
      split_ifs <;> omega
  | look b job =>
    by_cases hb : q.age.top < b
    · simp only [ownerStep, resets, pending, ho, if_pos hb]
      split_ifs <;> omega
    · simp only [ownerStep, resets, pending, ho, if_neg hb, Nat.le_add_right]
  | swap b job old =>
    simp only [OwnerPlace, ho] at hplace
    obtain ⟨hbot, -, -, -, htag⟩ := hplace
    by_cases hb : b = old.top ∧ q.age.Same old
    · simp only [ownerStep, resets, pending, ho, if_pos hb, if_pos hbot, htag, pushed, Nat.add_zero, le_refl]
    · simp only [ownerStep, resets, pending, ho, if_neg hb, Nat.le_add_right]
  | reset new =>
    simp only [OwnerPlace, ho] at hplace
    obtain ⟨hbot, rfl⟩ := hplace
    simp only [ownerStep, resets, pending, ho, if_pos hbot, pushed, Nat.add_zero, le_refl]

theorem pending_congr {q' : WorkDeque ι J} (howner : q'.owner = q.owner) (hbot : q'.bot = q.bot) : q'.pending = q.pending := by
  unfold pending
  rw [howner, hbot]

variable [DecidableEq ι]

/-- a thief does not reset -/
theorem thiefStep_resets (q : WorkDeque ι J) (i : ι) : (q.thiefStep i).1.resets = q.resets := by
  have hsame : (q.thiefStep i).1.age.tag = q.age.tag ∧ (q.thiefStep i).1.bot = q.bot := by
    unfold thiefStep
    split <;> try split_ifs
    all_goals exact ⟨rfl, rfl⟩
  rw [resets, hsame.1, pending_congr (thiefStep_owner q i) hsame.2, resets]

theorem popTop_resets (q : WorkDeque ι J) (i : ι) : (q.step (.popTop i)).1.resets = q.resets := by
  simp only [step]
  split <;> rfl

/-- nor does a call -/
theorem enter_resets (hidle : q.owner = .idle) (j : J) :
    (q.step (.push j)).1.resets = q.resets ∧ (q.step .pop).1.resets = q.resets := by
  simp only [step, resets, pending, hidle, and_self]

end WorkDeque

/-! ## The jobs made -/

namespace Sched

variable {W C D σ : Type} [DecidableEq W] {body : Body C σ} {S : Sched W C (List ℕ)} {U U' : Sched W C D} {main w : W}
  {s s' : σ} {t : Proc C} {a : Activation C} {as : List (Activation C)}

/-- the states after some moves, with the pairs that the program has brought -/
theorem reaches_brings (hr : Reaches (step body main) (start main t, s) (S, s')) :
    ∃ m t', Brings body t s m (t', s') ∧ S.fresh ≤ 1 + m := by
  have h0 : ∃ T J m, Good (start main t) T ∧ JobTree.Rest T J ∧ Brings body t s m (J 0, s) ∧ T.jobs ≤ 1 + m :=
    ⟨_, _, _, good_start main t, JobTree.rest_root t, .start, (jobs_root t).le⟩
  have hall : ∃ T J m, Good S T ∧ JobTree.Rest T J ∧ Brings body t s m (J 0, s') ∧ T.jobs ≤ 1 + m := by
    refine hr.invariant (I := fun q => ∃ T J m, Good q.1 T ∧ JobTree.Rest T J ∧ Brings body t s m (J 0, q.2) ∧
      T.jobs ≤ 1 + m) h0 ?_
    rintro ⟨S, s₁⟩ mv ⟨S', s₂⟩ ⟨T, J, m, hgood, hJ, hbrings, hjobs⟩ - hm
    obtain ⟨T', hstep, hgood'⟩ := step_tree hgood hm
    obtain ⟨J', m', hJ', hbrings', hjobs'⟩ := hstep.simulates_brings hgood.inv hJ hbrings hjobs
    exact ⟨T', J', m', hgood', hJ', hbrings', hjobs'⟩
  obtain ⟨T, J, m, hgood, -, hbrings, hjobs⟩ := hall
  refine ⟨m, J 0, hbrings, ?_⟩
  rw [← hgood.linked.fresh]
  exact (Nat.le_add_right _ _).trans hjobs

/-- a job that is made is in the hand -/
theorem resume_fresh (hhand : U.hand w = none) (h : U.resume body s w as a = .ok (some (U', s'))) :
    (U'.hand w).toList.length + U.fresh ≤ U'.fresh ∧ U.fresh ≤ U'.fresh := by
  have hset : ∀ V : Sched W C D, V.hand w = none → V.fresh = U.fresh →
      (V.hand w).toList.length + U.fresh ≤ V.fresh ∧ U.fresh ≤ V.fresh := by
    intro V hV hfresh
    rw [hV, hfresh]
    exact ⟨(Nat.zero_add _).le, le_rfl⟩
  obtain ⟨k, t, fs⟩ := a
  cases t with
  | call c =>
    simp only [resume] at h
    cases hc : body c s with
    | error e =>
      rw [hc] at h
      cases h
    | ok r =>
      rw [hc] at h
      cases h
      exact hset _ hhand rfl
  | seq t u =>
    cases h
    exact hset _ hhand rfl
  | par t u =>
    cases h
    rw [show ((U.makeJob w u).setStack w _).hand w = some U.fresh from makeJob_hand U w u]
    exact ⟨(Nat.add_comm _ _).le, Nat.le_succ _⟩
  | done =>
    cases fs with
    | nil =>
      cases h
      exact hset _ hhand rfl
    | cons f fs =>
      cases f with
      | next u =>
        cases h
        exact hset _ hhand rfl
      | left j => cases h
      | right =>
        cases h
        exact hset _ hhand rfl
      | wait j =>
        by_cases hj : U.finished j = true
        · rw [resume, if_pos hj] at h
          cases h
          exact hset _ hhand rfl
        · rw [resume, if_neg hj] at h
          cases h

end Sched

namespace DequeSched

open WorkDeque

variable {W C σ : Type} [DecidableEq W] {body : Body C σ} {main : W} {P P' : DequeSched W C} {s s' : σ} {v w : W}
  {q : WorkDeque W ℕ} {t : Proc C}

/-! ## The invariant -/

/-- the resets of each deque, and the job in the hand of its owner, are fewer than the jobs made -/
def Counted (P : DequeSched W C) : Prop :=
  ∀ w, (P.sched.deque w).resets + (P.sched.hand w).toList.length < P.sched.fresh

omit [DecidableEq W] in
/-- a step with the same jobs -/
theorem Counted.congr (h : Counted P) (hdeque : P'.sched.deque = P.sched.deque) (hhand : P'.sched.hand = P.sched.hand)
    (hfresh : P'.sched.fresh = P.sched.fresh) : Counted P' := by
  unfold Counted
  rw [hdeque, hhand, hfresh]
  exact h

/-- an access that brings no reset -/
theorem Counted.set (h : Counted P) (hq : q.resets ≤ (P.sched.deque v).resets) (w : W) (c : Option (DequeCall W)) :
    Counted (P.set v q w c) := by
  intro u
  by_cases hu : u = v
  · subst hu
    rw [set_deque_self]
    exact (Nat.add_le_add_right hq _).trans_lt (h u)
  · rw [set_deque_ne hu]
    exact h u

/-- the end of a call other than `push_bottom` -/
theorem Counted.endCall (h : Counted P) {c : DequeCall W} {op : DequeOp ℕ} (hop : pushed (some op) = 0)
    (hm : P.endCall s w c op = .ok (some (P', s'))) : Counted P' := by
  have hgot : ∀ r, P.got s w r = .ok (some (P', s')) → Counted P' := by
    intro r hm
    cases r with
    | none =>
      cases hm
      exact h
    | some i =>
      by_cases hi : P.sched.finished i = true
      · simp only [got, Sched.invoke, if_pos hi] at hm
        cases hm
      · simp only [got, Sched.invoke, if_neg hi] at hm
        cases hm
        exact h.congr rfl rfl rfl
  cases op with
  | push j first => cases hop
  | popTop r empty =>
    cases c with
    | steal v => exact hgot r hm
    | _ => cases hm
  | popBottom r =>
    cases c with
    | push => cases hm
    | steal v => cases hm
    | own => exact hgot r hm
    | left =>
      simp only [DequeSched.endCall] at hm
      split at hm
      · next j fs as hst =>
        cases r with
        | none =>
          cases hm
          exact h.congr rfl rfl rfl
        | some i =>
          by_cases hij : i = j
          · simp only [Sched.afterLeft, if_pos hij] at hm
            cases hm
            exact h.congr rfl rfl rfl
          · simp only [Sched.afterLeft, if_neg hij] at hm
            cases hm
      · cases hm

/-- what follows an access of the worker `w` to the deque of `v` -/
def afterAccess (P : DequeSched W C) (s : σ) (w : W) (c : DequeCall W) (v : W) (r : WorkDeque W ℕ × Option (DequeOp ℕ)) :
    Except SchedFault (Option (DequeSched W C × σ)) :=
  r.2.elim (.ok (some (P.set v r.1 w (some c), s))) fun op => (P.set v r.1 w none).endCall s w c op

theorem access_owner {c : DequeCall W} (hc : ∀ v, c ≠ .steal v) :
    P.access s w c = P.afterAccess s w c w (P.sched.deque w).ownerStep := by
  cases c with
  | steal v => exact absurd rfl (hc v)
  | _ =>
    simp only [access, afterAccess, WorkDeque.step]
    cases (P.sched.deque w).ownerStep.2 <;> rfl

theorem access_thief (v : W) : P.access s w (.steal v) = P.afterAccess s w (.steal v) v ((P.sched.deque v).thiefStep w) := by
  simp only [access, afterAccess, WorkDeque.step]
  cases ((P.sched.deque v).thiefStep w).2 <;> rfl

/-- an access that does not end a push -/
theorem Counted.afterAccess (h : Counted P) {c : DequeCall W} {v : W} {r : WorkDeque W ℕ × Option (DequeOp ℕ)}
    (hr : pushed r.2 = 0) (hle : r.1.resets ≤ (P.sched.deque v).resets + pushed r.2)
    (hm : P.afterAccess s w c v r = .ok (some (P', s'))) : Counted P' := by
  obtain ⟨q, r⟩ := r
  rw [hr] at hle
  cases r with
  | none =>
    cases hm
    exact h.set hle w _
  | some op => exact (h.set hle w none).endCall hr hm

/-- **One access.** -/
theorem access_counted (h : Counted P) (hsync : Sync main P) {c : DequeCall W} (hcall : P.call w = some c)
    (hm : P.access s w c = .ok (some (P', s'))) : Counted P' := by
  have hok := hsync.call w
  rw [hcall] at hok
  have howner := ownerStep_resets (hsync.deque w).owner
  have hpop : Pops (P.sched.deque w).owner → pushed (P.sched.deque w).ownerStep.2 = 0 := by
    intro hp
    cases ho : (P.sched.deque w).owner <;> rw [ho] at hp <;> try exact hp.elim
    all_goals
      simp only [ownerStep, ho]
      try split_ifs
      all_goals rfl
  cases c with
  | left =>
    rw [access_owner (by simp)] at hm
    exact h.afterAccess (hpop hok.2.2) howner hm
  | own =>
    rw [access_owner (by simp)] at hm
    exact h.afterAccess (hpop hok.2) howner hm
  | steal v =>
    rw [access_thief] at hm
    refine h.afterAccess ?_ ?_ hm
    · unfold thiefStep
      split <;> try split_ifs
      all_goals rfl
    · rw [thiefStep_resets]
      exact Nat.le_add_right _ _
  | push =>
    obtain ⟨j, hhand, -⟩ := hok
    rw [access_owner (by simp)] at hm
    cases hr : (P.sched.deque w).ownerStep.2 with
    | none => exact h.afterAccess (by rw [hr]; rfl) howner hm
    | some op =>
      cases op with
      | popBottom r => exact h.afterAccess (by rw [hr]; rfl) howner hm
      | popTop r empty => exact h.afterAccess (by rw [hr]; rfl) howner hm
      | push j' first =>
        -- the job goes from the hand to the deque
        simp only [DequeSched.afterAccess, hr] at hm
        cases hm
        rw [hr] at howner
        intro v
        by_cases hv : v = w
        · subst hv
          have hv := h v
          rw [hhand] at hv
          show ((P.set v _ v none).sched.deque v).resets + ((Sched.setHand _ v none).hand v).toList.length < P.sched.fresh
          rw [set_deque_self, Sched.setHand_self]
          exact howner.trans_lt hv
        · show ((P.set w _ w none).sched.deque v).resets + ((Sched.setHand _ w none).hand v).toList.length < P.sched.fresh
          rw [set_deque_ne hv, Sched.setHand_ne hv]
          exact h v

/-- **One step.** -/
theorem step_counted (h : Counted P) (hsync : Sync main P) {m : SchedMove W}
    (hm : step body main (P, s) m = .ok (some (P', s'))) : Counted P' := by
  cases m with
  | work w =>
    replace hm : P.work body s w = .ok (some (P', s')) := hm
    unfold work at hm
    split at hm
    · next c hcall => exact access_counted h hsync hcall hm
    · next j hcall hhand =>
      cases hm
      exact h.set (enter_resets (hsync.idle hcall) j).1.le w _
    · cases hm
    · next hcall hhand hst =>
      cases hm
      exact h.set (enter_resets (hsync.idle hcall) 0).2.le w _
    · next a as _ hcall hhand hst =>
      cases hr : P.sched.resume body s w as a with
      | error e =>
        rw [hr] at hm
        cases hm
      | ok r =>
        rw [hr] at hm
        cases r with
        | none => cases hm
        | some r =>
          cases hm
          obtain ⟨hdeque, hother⟩ := Sched.resume_frame hr
          obtain ⟨hmade, hfresh⟩ := Sched.resume_fresh hhand hr
          intro v
          have hv := h v
          show (r.1.deque v).resets + (r.1.hand v).toList.length < r.1.fresh
          rw [hdeque]
          by_cases hvw : v = w
          · subst hvw
            omega
          · rw [(hother v hvw).1]
            omega
  | own w =>
    simp only [step] at hm
    split_ifs at hm with hseek
    · cases hm
      exact h.set (enter_resets (hsync.idle (Option.isNone_iff_eq_none.1 hseek.1)) 0).2.le w _
    · cases hm
  | steal w v =>
    simp only [step] at hm
    split_ifs at hm with hseek
    · cases hm
      exact h.set (popTop_resets _ w).le w _
    · cases hm

/-! ## Runs -/

/-- no run of the program brings 2^32 pairs -/
def FewPairs (body : Body C σ) (t : Proc C) (s : σ) : Prop := ∀ m q, Brings body t s m q → m < 2 ^ 32

/-- **Resets.** When no run of a program brings 2^32 pairs, no deque is reset 2^32 times. -/
theorem reaches_noWraps (hpairs : FewPairs body t s) {deq : ℕ → ℕ} {p : DequeSched W C × σ}
    (hr : Reaches (step body main) (start deq main t, s) p) :
    ReachesIn NoWraps (step body main) (start deq main t, s) p ∧ NoWraps p := by
  have hwraps : ∀ q : DequeSched W C × σ, ReachesIn NoWraps (step body main) (start deq main t, s) q → Counted q.1 →
      NoWraps q := by
    rintro ⟨P, x⟩ hr hcounted w
    obtain ⟨m, t', hbrings, hfresh⟩ := Sched.reaches_brings (reaches_abs hr).2
    have hlt := hpairs m _ hbrings
    have hw : (P.sched.deque w).resets + (P.sched.hand w).toList.length < P.sched.fresh := hcounted w
    replace hfresh : P.sched.fresh ≤ 1 + m := hfresh
    have htag : (P.sched.deque w).age.tag ≤ (P.sched.deque w).resets := Nat.le_add_right _ _
    exact noWrap_of_tag (show (P.sched.deque w).age.tag < 2 ^ 32 by omega)
  have hall : ReachesIn NoWraps (step body main) (start deq main t, s) p ∧ Counted p.1 := by
    induction hr with
    | refl => exact ⟨.refl, fun w => Nat.one_pos⟩
    | @tail q q' _ hstep ih =>
      obtain ⟨hin, hcounted⟩ := ih
      obtain ⟨-, m, hm⟩ := hstep
      exact ⟨hin.tail ⟨hwraps q hin hcounted, m, hm⟩, step_counted hcounted (reaches_abs hin).1 hm⟩
  exact ⟨hall.1, hwraps p hall.1 hall.2⟩

end DequeSched

end HeavyLight
