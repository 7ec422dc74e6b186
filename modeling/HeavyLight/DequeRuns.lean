/-
Fair schedules of the workers with their deques.

- `paced`: the scheduler with all accesses is below the one with the lists of jobs, with the `pace` of each worker as the count
  of its moves before its next step outside of the calls.
- `Completes`: under every fair schedule the program is done from some time on. `Runs`: and nothing goes wrong on the way.
- `deque_scheduler_runs`: what all runs of a fork-join program come to, its runs on the workers come to.
-/
import HeavyLight.DequeDepth

namespace HeavyLight

open Proc

instance {W : Type} [Countable W] : Countable (SchedMove W) := by
  have hinj : Function.Injective fun m : SchedMove W => match m with
      | .work w => Sum.inl w
      | .own w => Sum.inr (Sum.inl w)
      | .steal w v => (Sum.inr (Sum.inr (w, v)) : W ⊕ W ⊕ W × W) := by
    intro m m' h
    cases m <;> cases m' <;> cases h <;> rfl
  exact hinj.countable

namespace DequeSched

open WorkDeque

variable {W C σ : Type} [DecidableEq W] {body : Body C σ} {main : W} {P P' : DequeSched W C} {s s' : σ} {w : W} {t : Proc C}
  {deq : ℕ → ℕ} {Q : σ → Prop}

/-- the step of a worker that is in a call comes nearer with each of its moves, and with no other move away -/
theorem Quiet.pace {m : SchedMove W} {T : JobTree C} (h : Quiet main P P' m) (hgood : Sched.Good P.abs T)
    (habort : (P'.sched.deque m.worker).owner ≠ .aborted) (hst : P.abs.stack w ≠ [])
    (hgo : P.abs.work body s w ≠ .ok none) : P'.pace w ≤ P.pace w ∧ (.work w = m → P'.pace w < P.pace w) := by
  by_cases hw : w = m.worker
  · subst hw
    rcases h.own with hlt | ha | ⟨-, hseek, hbreak⟩
    · exact ⟨hlt.le, fun _ => hlt⟩
    · exact absurd ha habort
    · exact absurd (Sched.work_seeks hgood hseek hbreak) hgo
  · refine ⟨(h.other w hw).le, ?_⟩
    rintro rfl
    exact absurd rfl hw

/-- the states that the workers come to with fewer than 2^32 resets of a deque during a `pop_top` -/
def Visited (body : Body C σ) (deq : ℕ → ℕ) (main : W) (t : Proc C) (s : σ) (q : DequeSched W C × σ) : Prop :=
  ReachesIn NoWraps (step body main) (start deq main t, s) q ∧ NoWraps q

/-- the scheduler with all accesses is below the one with the lists of jobs -/
theorem paced (hruns : AllRuns body Q t s)
    (hd : ∀ t' s', Steps body (t, s) (t', s') → t'.leftDepth (fun _ => 0) < qSize) (deq : ℕ → ℕ) (main : W) :
    Paced (Sched.step body main) (fun q => Sched.Awake q.1) (step body main) (fun q => Sched.Awake q.1.sched)
      (fun q => (q.1.abs, q.2)) (Visited body deq main t s) fun q m => q.1.pace m.worker := by
  refine ⟨?_, ?_, ?_⟩
  · rintro ⟨P, x⟩ m e ⟨hr, hwrap⟩
    exact (reaches_safe hruns hr hwrap).1 m e
  · rintro ⟨P, x⟩ m ⟨hr, hwrap⟩ ⟨w, rfl, hst⟩ hgo
    refine ⟨⟨w, rfl, hst⟩, fun hnone => hgo ?_⟩
    have hfollows : Follows body main P x (.work w) (step body main (P, x) (.work w)) :=
      follows_step (reaches_abs hr).1 hwrap x _
    rw [hnone] at hfollows
    exact hfollows w rfl
  · rintro ⟨P, x⟩ m ⟨P', x'⟩ ⟨hr, hwrap⟩ hm
    obtain ⟨hsync, hreach⟩ := reaches_abs hr
    have hfollows : Follows body main P x m (step body main (P, x) m) := follows_step hsync hwrap x m
    rw [hm] at hfollows
    rcases hfollows.2 with ⟨habs, rfl, hquiet⟩ | hm'
    · refine Or.inr ⟨by rw [habs], ?_⟩
      rintro k ⟨w, rfl, hst⟩ hgo
      obtain ⟨T, J, hgood, -, -⟩ := Sched.reaches_good hreach
      have habort := reaches_not_aborted hd (hr.tail ⟨hwrap, m, hm⟩) m.worker
      exact hquiet.pace hgood habort hst hgo
    · exact Or.inl hm'

/-- the schedule is fair to the workers in a call -/
def FairTo (body : Body C σ) (deq : ℕ → ℕ) (main : W) (t : Proc C) (s : σ) (ms : ℕ → SchedMove W) : Prop :=
  Fair (step body main) (fun q => Sched.Awake q.1.sched) (start deq main t, s) ms

/-- under every fair schedule the program that `main` began is done from some time on, with `P` -/
def Completes (body : Body C σ) (main : W) (t : Proc C) (s : σ) (P : σ → Prop) : Prop :=
  ∀ deq ms, FairTo body deq main t s ms → ∃ N, ∀ n, N ≤ n → ∃ q : DequeSched W C × σ,
    scheduled (step body main) (start deq main t, s) ms n = .ok q ∧ q.1.sched.finished 0 = true ∧ P q.2

/-- the program ends on the workers, and nothing goes wrong on the way -/
structure Runs (body : Body C σ) (main : W) (t : Proc C) (s : σ) (P : σ → Prop) : Prop where
  sound : Sound body main t s P
  completes : Completes body main t s P

theorem runs (hruns : AllRuns body Q t s)
    (hd : ∀ t' s', Steps body (t, s) (t', s') → t'.leftDepth (fun _ => 0) < qSize) (hpairs : FewPairs body t s) (main : W) :
    Runs body main t s Q := by
  refine ⟨sound hruns hd hpairs main, fun deq ms hfair => ?_⟩
  have habove : AllSchedules (Sched.step body main) (fun q => Sched.Awake q.1) (fun q => q.1.finished 0 = true ∧ Q q.2)
      (Sched.start main t, s) := (Sched.good_start main t).allSchedules (JobTree.rest_root t) hruns
  rw [← abs_start deq main t] at habove
  obtain ⟨N, hN⟩ := habove.fair_below (paced hruns hd deq main) rfl
    (fun n q hq => reaches_noWraps hpairs (reachesIn_scheduled (fun _ _ _ => trivial) hq)) hfair
  exact ⟨N, hN⟩

/-- **Fork-join programs on the workers.** When all runs of a program end, without a fault, with `Q`, it is never in 1000
left sides at a time, and no run of it brings 2^32 pairs, then on any number of workers it ends under every fair schedule, as
one of its runs does, and nothing goes wrong on the way. -/
theorem deque_scheduler_runs (hruns : AllRuns body Q t s)
    (hd : ∀ t' s', Steps body (t, s) (t', s') → t'.leftDepth (fun _ => 0) < qSize) (hpairs : FewPairs body t s) (main : W) :
    Runs body main t s fun s' => Steps body (t, s) (.done, s') ∧ Q s' :=
  runs hruns.reached hd hpairs main

/-- two calls, and there are fair schedules -/
theorem deque_scheduler_runs_addBody :
    Runs Sched.addBody (0 : ℕ) (par (.call 1) (.call 2)) 0
        (fun s' => Steps Sched.addBody (par (.call 1) (.call 2), 0) (.done, s') ∧ s' = 3) ∧
      ∃ ms, FairTo Sched.addBody (fun _ => 0) (0 : ℕ) (par (.call 1) (.call 2)) 0 ms := by
  have : Nonempty (SchedMove ℕ) := ⟨.work 0⟩
  refine ⟨deque_scheduler_runs (Q := fun x => x = 3) Sched.allRuns_addBody (fun t' s' hsteps => ?_) (fun m q hb => ?_) 0,
    exists_fair _ _ _⟩
  · have hbounded : Bounded Sched.addBody fun _ => 0 := by
      intro c s s' t h
      cases h
      exact le_rfl
    exact (hbounded.steps hsteps).trans_lt (by decide)
  · have hsparing : Sparing Sched.addBody fun _ => 0 := by
      intro c s s' t h
      cases h
      exact le_rfl
    exact (hsparing.brings hb).trans_lt (by decide)

end DequeSched

end HeavyLight
