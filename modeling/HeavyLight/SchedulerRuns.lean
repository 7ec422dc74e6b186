/-
The scheduler runs fork-join programs.

- `Good`: the invariant. `step_tree`: each move is a step of the tree of jobs. `step_error`: no `assert` fails.
- `progress`: no deadlock. A call that cannot go on is below or waits for one that began later.
- `scheduler_refines`: every run is one of the fork-join program.
- `jobs_alive`: no deque and no worker has a job whose `pardo` has returned.
- `scheduler_runs`: every schedule ends, and what holds at the end of all runs of the program holds at the end. `Completes`:
  under every schedule that is fair to the workers in a call, the program is done at some time.
-/
import HeavyLight.SchedulerJobs
import HeavyLight.Machines
import HeavyLight.Schedules

namespace HeavyLight

open Proc

namespace Sched

variable {W C D σ : Type} [DecidableEq W]

variable {S S' : Sched W C (List ℕ)} {T T' : JobTree C} {body : Body C σ} {main : W} {s s' : σ} {w v : W} {i j k : ℕ}
  {a b : Activation C} {as : List (Activation C)} {t u : Proc C} {fs : List (Frame C)} {d : List ℕ} {J : ℕ → Proc C}

/-! ## The invariant -/

structure Good (S : Sched W C (List ℕ)) (T : JobTree C) : Prop where
  inv : T.Inv
  linked : Linked S T
  timed : ∃ time now, Timed S.stack time now

theorem start_stack (main w : W) (t : Proc C) :
    (start main t).stack w = if w = main then [⟨0, t, []⟩] else [] := rfl

/-- the state in which the program begins -/
theorem good_start (main : W) (t : Proc C) : Good (start main t) (JobTree.root t) := by
  have hmem : ∀ w, ∀ a ∈ (start main t).stack w, w = main ∧ a = ⟨0, t, []⟩ := by
    intro w a ha
    rw [start_stack] at ha
    split_ifs at ha with hw
    · exact ⟨hw, List.mem_singleton.1 ha⟩
    · cases ha
  have hslots : ∀ w, ∀ j ∈ (start main t).slots w, w = main := by
    intro w j hj
    rw [slots] at hj
    rcases List.mem_append.1 hj with hj | hj
    · cases hj
    · obtain ⟨a, ha, -⟩ := List.mem_map.1 hj
      exact (hmem w a ha).1
  have hmain : (start main t).stack main = [⟨0, t, []⟩] := if_pos rfl
  refine ⟨JobTree.inv_root t, ⟨rfl, ⟨fun w => ?_, fun i j x hi hj => (hslots i x hi).trans (hslots j x hj).symm⟩,
    fun w a ha => ?_, fun w j hj => absurd hj List.not_mem_nil, fun w j hj => absurd hj (Option.not_mem_none j),
    fun j hj => ?_, fun j hj => ?_, fun j _ href => ?_, fun h0 => ?_, fun w => ?_⟩, fun _ => 0, 1, fun w => ?_,
    fun w v a ha b _ hm => ?_, fun w a ha => Nat.one_pos⟩
  · show ([] ++ ((start main t).stack w).map Activation.job).Nodup
    rw [start_stack]
    split_ifs
    · exact List.nodup_singleton _
    · exact List.nodup_nil
  · obtain ⟨-, rfl⟩ := hmem w a ha
    rfl
  · have h0 : j = 0 := by_contra fun h0 => hj (JobTree.root_ne t h0)
    refine ⟨main, List.mem_append_right _ ?_⟩
    rw [hmain, h0]
    exact List.mem_singleton.2 rfl
  · cases hj
  · obtain ⟨k, hk⟩ := href
    rw [JobTree.refs_root] at hk
    cases hk
  · cases h0
  · show Shape [] ((start main t).stack w)
    rw [start_stack]
    split_ifs
    · exact ⟨Or.inl ⟨trivial, List.nil_prefix⟩, fun b hb => absurd hb List.not_mem_nil⟩
    · rfl
  · rw [start_stack]
    split_ifs
    · exact List.pairwise_singleton _ _
    · exact List.Pairwise.nil
  · obtain ⟨-, rfl⟩ := hmem w a ha
    cases hm

/-- the innermost call goes on with no new references -/
theorem Good.next (h : Good S T) (hst : S.stack w = a :: as) (hjob : b.job = a.job)
    (hrefs : ∀ j ∈ refs b.frames, j ∈ refs a.frames) (hshape : Shape (S.line w) (b :: as))
    (hs : JobStep body T s (T.set a.job (.running b.cur b.frames)) s') :
    Good (S.setStack w (b :: as)) (T.set a.job (.running b.cur b.frames)) := by
  obtain ⟨time, now, ht⟩ := h.timed
  exact ⟨hs.inv h.inv, h.linked.next hst hjob hrefs hshape, time, now, ht.next hst hjob fun _ x _ hm => hrefs x.job hm⟩

/-- each step of a call is a step of its job -/
theorem resume_tree (h : Good S T) (hhand : S.hand w = none) (hst : S.stack w = a :: as)
    (hr : S.resume body s w as a = .ok (some (S', s'))) : ∃ T', JobStep body T s T' s' ∧ Good S' T' := by
  have hrun := h.linked.running w a (hst ▸ List.mem_cons_self)
  have hshape := h.linked.shape w
  rw [hst] at hshape
  obtain ⟨time, now, ht⟩ := h.timed
  obtain ⟨k, t, fs⟩ := a
  cases t with
  | call c =>
    simp only [resume] at hr
    cases hc : body c s with
    | error e =>
      rw [hc] at hr
      cases hr
    | ok r =>
      obtain ⟨s₁, t⟩ := r
      rw [hc] at hr
      cases hr
      have hstep := JobStep.call (T := T) hrun hc
      refine ⟨_, hstep, h.next hst rfl (fun _ hj => hj) (hshape.next (fun hp => ⟨hp, rfl⟩) ?_) hstep⟩
      exact fun ⟨_, _, he, _⟩ => nomatch he
  | seq t u =>
    cases hr
    have hstep : JobStep body T s _ s := JobStep.seq hrun
    refine ⟨_, hstep, h.next hst rfl (fun _ hj => hj) (hshape.next (fun hp => ⟨hp, rfl⟩) ?_) hstep⟩
    exact fun ⟨_, _, he, _⟩ => nomatch he
  | par t u =>
    cases hr
    have hstep : JobStep body T s _ s := JobStep.fork hrun
    refine ⟨_, hstep, hstep.inv h.inv, h.linked.makeJob h.inv hhand hst, time, now, ht.next hst rfl fun v x hx hm => ?_⟩
    -- no call has the new job
    refine (List.mem_cons.1 hm).resolve_left fun he => ?_
    have hlive : T.job x.job ≠ .ended := by
      rw [h.linked.running v x hx]
      exact fun he => nomatch he
    exact (h.inv.small _ hlive).ne (he.trans h.linked.fresh.symm)
  | done =>
    have hnext : ∀ {f : Frame C} {fs : List (Frame C)}, (∀ j, f ≠ .wait j) →
        ¬ Waiting ⟨k, Proc.done, f :: fs⟩ := by
      rintro f fs hf ⟨j, _, -, he, -⟩
      exact hf j (List.cons.inj he).1
    cases fs with
    | nil =>
      cases hr
      have hstep : JobStep body T s _ s := JobStep.finish hrun
      exact ⟨_, hstep, hstep.inv h.inv, h.linked.finish hst, time, now, ht.finish hst⟩
    | cons f fs =>
      cases f with
      | next u =>
        cases hr
        have hstep : JobStep body T s _ s := JobStep.next hrun
        refine ⟨_, hstep, h.next hst rfl (fun _ hj => hj) (hshape.next (fun hp => ⟨hp, rfl⟩) ?_) hstep⟩
        exact hnext fun _ he => nomatch he
      | right =>
        cases hr
        have hstep : JobStep body T s _ s := JobStep.right hrun
        refine ⟨_, hstep, h.next hst rfl (fun _ hj => hj) (hshape.next (fun hp => ⟨hp, rfl⟩) ?_) hstep⟩
        exact hnext fun _ he => nomatch he
      | left j => cases hr
      | wait j =>
        obtain ⟨⟨j', fs', -, he, hp⟩, hd⟩ := hshape.1.resolve_left fun hp => hp.1
        cases he
        by_cases hf : S.finished j = true
        swap
        · rw [resume, if_neg hf] at hr
          cases hr
        rw [resume, if_pos hf] at hr
        cases hr
        have hstep : JobStep body T s _ s := JobStep.joined hrun (h.linked.finished j hf)
        refine ⟨_, hstep, h.next hst rfl (fun _ hj => List.mem_cons_of_mem _ hj) ⟨Or.inl ⟨hp, ?_⟩, hshape.2⟩ hstep⟩
        rw [hd]
        exact List.nil_prefix

omit [DecidableEq W] in
/-- `pardo` after its left side: the job at the bottom of the deque is the right job, or the deque is empty -/
theorem Good.left (h : Good S T) (hhand : S.hand w = none) (hst : S.stack w = ⟨k, .done, .left j :: fs⟩ :: as) :
    (S.deque w = [] ∨ ∃ d, S.deque w = j :: d) ∧ Plain fs := by
  have hshape := h.linked.shape w
  rw [hst, line, hhand] at hshape
  have hwaits : ¬ (Waiting (⟨k, .done, .left j :: fs⟩ : Activation C) ∧ none.toList ++ S.deque w = []) := by
    rintro ⟨⟨i, fs', -, he, -⟩, -⟩
    cases he
  obtain ⟨hp, hpre⟩ := hshape.1.resolve_right hwaits
  refine ⟨?_, hp⟩
  have hpre' : S.deque w <+: j :: lefts fs := hpre
  cases hd : S.deque w with
  | nil => exact Or.inl rfl
  | cons i d =>
    rw [hd, List.cons_prefix_cons] at hpre'
    exact Or.inr ⟨d, by rw [hpre'.1]⟩

theorem getOwnJob_nil (hd : S.deque w = []) : S.getOwnJob w = (none, S) := by
  rw [getOwnJob, hd]

theorem getOwnJob_cons (hd : S.deque w = j :: d) : S.getOwnJob w = (some j, S.setDeque w d) := by
  rw [getOwnJob, hd]

theorem trySteal_nil (hd : S.deque v = []) : S.trySteal v = (none, S) := by
  rw [trySteal, hd]
  rfl

theorem trySteal_concat (hd : S.deque v = d ++ [i]) : S.trySteal v = (some i, S.setDeque v d) := by
  rw [trySteal, hd, List.getLast?_concat, List.dropLast_concat]

/-- a worker that looks for a job has no job of its own -/
theorem own_none (h : Linked S T) (hs : S.seeks main w = true) : S.deque w = [] ∧ S.hand w = none := by
  have hline := ((h.shape w).seeks hs).1
  rw [line, List.append_eq_nil_iff, Option.toList_eq_nil_iff] at hline
  exact ⟨hline.2, hline.1⟩

/-- a queued job has not finished -/
theorem Linked.invoke_ok (h : Linked S T) (hd : S.deque v = d ++ [i]) :
    found s w (S.trySteal v) = .ok (some ((S.setDeque v d).setStack w (⟨i, S.thunk i, []⟩ :: S.stack w), s)) := by
  have hqueued := h.queued v i (by rw [hd]; exact List.mem_append_right _ List.mem_cons_self)
  have hfin : ¬ (S.setDeque v d).finished i = true := by
    intro hf
    rw [h.finished i hf] at hqueued
    cases hqueued
  rw [trySteal_concat hd, found, invoke, if_neg hfin]
  rfl

/-- what the next step of a worker is -/
inductive WorkCase (body : Body C σ) (S : Sched W C (List ℕ)) (s : σ) (w : W) :
    Except SchedFault (Option (Sched W C (List ℕ) × σ)) → Prop where
  | spawn {j : ℕ} : S.hand w = some j → WorkCase body S s w (.ok (some (S.spawn w j, s)))
  | idle : S.hand w = none → S.stack w = [] → WorkCase body S s w (.ok none)
  | wait {k j : ℕ} {fs : List (Frame C)} {as : List (Activation C)} : S.hand w = none →
      S.stack w = ⟨k, .done, .left j :: fs⟩ :: as → Plain fs → S.deque w = [] →
      WorkCase body S s w (.ok (some (S.setStack w (⟨k, .done, .wait j :: fs⟩ :: as), s)))
  | inline {k j : ℕ} {fs : List (Frame C)} {as : List (Activation C)} {d : List ℕ} : S.hand w = none →
      S.stack w = ⟨k, .done, .left j :: fs⟩ :: as → S.deque w = j :: d →
      WorkCase body S s w (.ok (some ((S.setDeque w d).setStack w (⟨k, S.thunk j, .right :: fs⟩ :: as), s)))
  | resume {a : Activation C} {as : List (Activation C)} : S.hand w = none → S.stack w = a :: as →
      (∀ j fs, a.cur = .done → a.frames ≠ .left j :: fs) → WorkCase body S s w (S.resume body s w as a)

theorem work_resume (hhand : S.hand w = none) (hst : S.stack w = a :: as)
    (hne : ∀ j fs, a.cur = .done → a.frames ≠ .left j :: fs) : S.work body s w = S.resume body s w as a := by
  obtain ⟨k, t, fs⟩ := a
  unfold work
  split
  · next he =>
    rw [hhand] at he
    cases he
  · next he =>
    rw [hst] at he
    cases he
  · next he =>
    rw [hst] at he
    cases he
    exact absurd rfl (hne _ _ rfl)
  · next he =>
    rw [hst] at he
    cases he
    rfl

/-- in particular the `assert` of `pardo` does not fail -/
theorem work_cases (h : Good S T) (body : Body C σ) (s : σ) (w : W) : WorkCase body S s w (S.work body s w) := by
  cases hhand : S.hand w with
  | some j =>
    rw [work, hhand]
    exact .spawn hhand
  | none =>
    cases hst : S.stack w with
    | nil =>
      rw [work, hhand, hst]
      exact .idle hhand hst
    | cons a as =>
      by_cases hleft : ∃ j fs, a.cur = .done ∧ a.frames = .left j :: fs
      · obtain ⟨k, t, fs'⟩ := a
        obtain ⟨j, fs, hcur, hfs⟩ := hleft
        obtain rfl : t = .done := hcur
        obtain rfl : fs' = .left j :: fs := hfs
        obtain ⟨hcase, hp⟩ := h.left hhand hst
        rcases hcase with hd | ⟨d, hd⟩
        · have he : S.work body s w = .ok (some (S.setStack w (⟨k, .done, .wait j :: fs⟩ :: as), s)) := by
            simp only [work, hhand, hst, getOwnJob_nil hd, afterLeft]
            rfl
          rw [he]
          exact .wait hhand hst hp hd
        · have he : S.work body s w =
              .ok (some ((S.setDeque w d).setStack w (⟨k, S.thunk j, .right :: fs⟩ :: as), s)) := by
            simp only [work, hhand, hst, getOwnJob_cons hd, afterLeft, if_true]
            rfl
          rw [he]
          exact .inline hhand hst hd
      · have hne : ∀ j fs, a.cur = .done → a.frames ≠ .left j :: fs := fun j fs hcur hfs => hleft ⟨j, fs, hcur, hfs⟩
        rw [work_resume hhand hst hne]
        exact .resume hhand hst hne

/-- **Steps.** Each move is a step of the tree of jobs. -/
theorem step_tree (h : Good S T) {m : SchedMove W} (hs : step body main (S, s) m = .ok (some (S', s'))) :
    ∃ T', JobStep body T s T' s' ∧ Good S' T' := by
  obtain ⟨time, now, ht⟩ := h.timed
  cases m with
  | work w =>
    have hcase := work_cases h body s w
    simp only [step] at hs
    rw [hs] at hcase
    generalize hr : (Except.ok (some (S', s')) : Except SchedFault (Option (Sched W C (List ℕ) × σ))) = r at hcase
    cases hcase with
    | @spawn j hhand =>
      cases hr
      have hstep : JobStep body T s _ s := JobStep.push (h.linked.made w j hhand)
      exact ⟨_, hstep, hstep.inv h.inv, h.linked.spawn hhand, time, now, ht⟩
    | idle hhand hst => cases hr
    | @wait k j fs as hhand hst hp hd =>
      cases hr
      have hrun := h.linked.running w ⟨k, .done, .left j :: fs⟩ (hst ▸ List.mem_cons_self)
      have hstep : JobStep body T s _ s := JobStep.wait hrun
      have hshape := h.linked.shape w
      have hnil : S.line w = [] := by
        rw [line, hhand, hd]
        rfl
      rw [hst] at hshape
      exact ⟨_, hstep, h.next hst rfl (fun _ hj => hj) ⟨Or.inr ⟨⟨j, fs, rfl, rfl, hp⟩, hnil⟩, hshape.2⟩ hstep⟩
    | @inline k j fs as d hhand hst hd =>
      cases hr
      have hrun := h.linked.running w ⟨k, .done, .left j :: fs⟩ (hst ▸ List.mem_cons_self)
      have hstep : JobStep body T s _ s := JobStep.inline hrun (h.linked.queued w j (hd ▸ List.mem_cons_self))
      refine ⟨_, hstep, hstep.inv h.inv, h.linked.inline h.inv hhand hst hd, time, now, ht.next hst rfl fun _ _ _ hm => ?_⟩
      exact List.mem_cons_of_mem _ hm
    | resume hhand hst _ => exact resume_tree h hhand hst hr.symm
  | own w =>
    simp only [step] at hs
    split_ifs at hs with hseek
    · rw [getOwnJob_nil (own_none h.linked hseek).1] at hs
      cases hs
    · cases hs
  | steal w v =>
    simp only [step] at hs
    split_ifs at hs with hseek
    swap
    · cases hs
    rcases (S.deque v).eq_nil_or_concat' with hd | ⟨d, i, hd⟩
    · rw [trySteal_nil hd] at hs
      cases hs
    · rw [h.linked.invoke_ok hd] at hs
      cases hs
      have hqueued := h.linked.queued v i (by rw [hd]; exact List.mem_append_right _ List.mem_cons_self)
      have hstep : JobStep body T s _ s := JobStep.start hqueued
      refine ⟨_, hstep, hstep.inv h.inv, h.linked.steal hseek hd, _, _, ht.start fun x a ha he => ?_⟩
      have hrun := h.linked.running x a ha
      rw [he, hqueued] at hrun
      cases hrun

/-- no `assert` fails, and a call that faults is one of the program of job 0 that may run next -/
theorem step_error (h : Good S T) (hJ : T.Rest J) {m : SchedMove W} {e : SchedFault}
    (hs : step body main (S, s) m = .error e) : (∃ f, e = .body f) ∧ Faults body (J 0) s := by
  cases m with
  | work w =>
    have hcase := work_cases h body s w
    simp only [step] at hs
    rw [hs] at hcase
    generalize hr : (Except.error e : Except SchedFault (Option (Sched W C (List ℕ) × σ))) = r at hcase
    cases hcase with
    | spawn _ => cases hr
    | idle _ _ => cases hr
    | wait _ _ _ _ => cases hr
    | inline _ _ _ => cases hr
    | @resume a as hhand hst hne =>
      have hrun := h.linked.running w a (hst ▸ List.mem_cons_self)
      obtain ⟨k, t, fs⟩ := a
      cases t with
      | call c =>
        simp only [resume] at hr
        cases hc : body c s with
        | error f =>
          rw [hc] at hr
          cases hr
          exact ⟨⟨f, rfl⟩, h.inv.faults_call hJ hrun hc⟩
        | ok r =>
          rw [hc] at hr
          cases hr
      | seq t u => cases hr
      | par t u => cases hr
      | done =>
        cases fs with
        | nil => cases hr
        | cons f fs =>
          cases f with
          | next u => cases hr
          | right => cases hr
          | left j => cases hr
          | wait j =>
            simp only [resume] at hr
            split_ifs at hr
  | own w =>
    simp only [step] at hs
    split_ifs at hs with hseek
    rw [getOwnJob_nil (own_none h.linked hseek).1] at hs
    cases hs
  | steal w v =>
    simp only [step] at hs
    split_ifs at hs with hseek
    rcases (S.deque v).eq_nil_or_concat' with hd | ⟨d, i, hd⟩
    · rw [trySteal_nil hd] at hs
      cases hs
    · rw [h.linked.invoke_ok hd] at hs
      cases hs

/-! ## Progress -/

/-- the steps of the workers that are in a call; the others may sleep, and no worker has to steal -/
def Awake (S : Sched W C D) (m : SchedMove W) : Prop := ∃ w, m = .work w ∧ S.stack w ≠ []

omit [DecidableEq W] in
/-- a worker with jobs in its deque is in a call -/
theorem Linked.busy (h : Linked S T) (hj : j ∈ S.line w) : S.stack w ≠ [] := by
  intro hst
  have hshape := h.shape w
  rw [hst] at hshape
  rw [show S.line w = [] from hshape] at hj
  cases hj

/-- a call that has nothing to do waits for a job that has not finished -/
theorem resume_none (hne : ∀ j fs, a.cur = .done → a.frames ≠ .left j :: fs) (hr : S.resume body s w as a = .ok none) :
    ∃ j fs, a.cur = .done ∧ a.frames = .wait j :: fs ∧ S.finished j ≠ true := by
  obtain ⟨k, t, fs⟩ := a
  cases t with
  | call c =>
    simp only [resume] at hr
    cases hc : body c s with
    | error e =>
      rw [hc] at hr
      cases hr
    | ok r =>
      rw [hc] at hr
      cases hr
  | seq t u => cases hr
  | par t u => cases hr
  | done =>
    cases fs with
    | nil => cases hr
    | cons f fs =>
      cases f with
      | next u => cases hr
      | right => cases hr
      | left j => exact absurd rfl (hne j fs rfl)
      | wait j =>
        refine ⟨j, fs, rfl, rfl, fun hf => ?_⟩
        rw [resume, if_pos hf] at hr
        cases hr

/-- the innermost call of a worker that has nothing to do -/
theorem work_none (h : Good S T) (hw : S.work body s w = .ok none) :
    S.hand w = none ∧ ∀ a as, S.stack w = a :: as →
      ∃ j fs, a.cur = .done ∧ a.frames = .wait j :: fs ∧ S.finished j ≠ true := by
  have hcase := work_cases h body s w
  rw [hw] at hcase
  generalize hr : (Except.ok none : Except SchedFault (Option (Sched W C (List ℕ) × σ))) = r at hcase
  cases hcase with
  | spawn _ => cases hr
  | idle hhand hst =>
    refine ⟨hhand, fun a as he => ?_⟩
    rw [hst] at he
    cases he
  | wait _ _ _ _ => cases hr
  | inline _ _ _ => cases hr
  | @resume a as hhand hst hne =>
    refine ⟨hhand, fun b bs he => ?_⟩
    rw [hst] at he
    cases he
    exact resume_none hne hr.symm

/-- a worker that looks for a job, before what it waits for has finished -/
theorem work_seeks (h : Good S T) (hseek : S.seeks main w = true) (hbreak : S.breakEarly w ≠ true) :
    S.work body s w = .ok none := by
  obtain ⟨hline, hwait⟩ := (h.linked.shape w).seeks hseek
  have hhand : S.hand w = none := by
    cases hx : S.hand w with
    | none => rfl
    | some j =>
      rw [line, hx] at hline
      cases hline
  cases hst : S.stack w with
  | nil => rw [work, hhand, hst]
  | cons a as =>
    obtain ⟨j, fs, hcur, hfs, -⟩ := hwait a (hst ▸ List.mem_cons_self)
    obtain ⟨k, t, fs'⟩ := a
    obtain rfl : t = .done := hcur
    obtain rfl : fs' = .wait j :: fs := hfs
    rw [breakEarly, hst] at hbreak
    rw [work_resume hhand hst (fun _ _ _ he => by cases he), resume, if_neg hbreak]

/-- a worker that has nothing to do has no jobs -/
theorem line_nil (h : Good S T) (hw : S.work body s w = .ok none) : S.line w = [] := by
  obtain ⟨-, hcall⟩ := work_none h hw
  have hshape := h.linked.shape w
  cases hst : S.stack w with
  | nil =>
    rw [hst] at hshape
    exact hshape
  | cons a as =>
    obtain ⟨j, fs, -, hfs, -⟩ := hcall a as hst
    rw [hst] at hshape
    refine (hshape.1.resolve_left fun hp => ?_).2
    rw [hfs] at hp
    exact hp.1

/-- **No deadlock.** While the program is not done, some worker in a call has a next step. -/
theorem progress (h : Good S T) (hstuck : ∀ m, Awake S m → step body main (S, s) m = .ok none) :
    S.finished 0 = true := by
  have hwork : ∀ w, S.stack w ≠ [] → S.work body s w = .ok none := fun w hw => hstuck (.work w) ⟨w, rfl, hw⟩
  obtain ⟨time, now, ht⟩ := h.timed
  -- from a call to one that began later: the one above it, or the one that it waits for
  have hnone : ∀ n, ∀ w, ∀ a ∈ S.stack w, now - time a.job = n → False := by
    intro n
    induction n using Nat.strong_induction_on with
    | _ n ih =>
      rintro w a ha rfl
      have hlater : ∀ v, ∀ b ∈ S.stack v, time a.job < time b.job → False := by
        intro v b hb hab
        have := ht.before v b hb
        exact ih (now - time b.job) (by omega) v b hb rfl
      cases hst : S.stack w with
      | nil =>
        rw [hst] at ha
        cases ha
      | cons b as =>
        have hnested := ht.nested w
        rw [hst, List.pairwise_cons] at hnested
        have hb : b ∈ S.stack w := hst ▸ List.mem_cons_self
        rw [hst] at ha
        rcases List.mem_cons.1 ha with rfl | ha
        · obtain ⟨j, fs, -, hfs, hj⟩ := (work_none h (hwork w (List.ne_nil_of_mem hb))).2 a as hst
          have hmem : j ∈ refs a.frames := by
            rw [hfs]
            exact List.mem_cons_self
          have hlive : T.job j ≠ .ended := by
            refine fun he => hj (h.linked.ended j he ⟨a.job, ?_⟩)
            rw [h.linked.running w a hb]
            exact hmem
          obtain ⟨v, hv⟩ := h.linked.placed j hlive
          rcases List.mem_append.1 hv with hv | hv
          · rw [line_nil h (hwork v (h.linked.busy hv))] at hv
            cases hv
          · obtain ⟨b, hb', rfl⟩ := List.mem_map.1 hv
            exact hlater v b hb' (ht.child w v a hb b hb' hmem)
        · exact hlater w b hb (hnested.1 a ha)
  by_contra h0
  have hlive : T.job 0 ≠ .ended := fun he => h0 (h.linked.root he)
  obtain ⟨w, hw⟩ := h.linked.placed 0 hlive
  have hbusy : S.stack w ≠ [] := by
    rcases List.mem_append.1 hw with hw | hw
    · exact h.linked.busy hw
    · exact fun hst => List.ne_nil_of_mem hw (by rw [hst]; rfl)
  obtain ⟨a, ha⟩ := List.exists_mem_of_ne_nil _ hbusy
  exact hnone _ w a ha rfl

/-! ## Runs -/

/-- the state after some moves -/
theorem reaches_good (hr : Reaches (step body main) (start main t, s) (S', s')) :
    ∃ T J, Good S' T ∧ T.Rest J ∧ Steps body (t, s) (J 0, s') := by
  have h0 : ∃ T J, Good (start main t) T ∧ JobTree.Rest T J ∧ Steps body (t, s) (J 0, s) :=
    ⟨_, _, good_start main t, JobTree.rest_root t, Relation.ReflTransGen.refl⟩
  refine hr.invariant (I := fun q => ∃ T J, Good q.1 T ∧ JobTree.Rest T J ∧ Steps body (t, s) (J 0, q.2)) h0 ?_
  rintro ⟨S, s₁⟩ m ⟨S', s₂⟩ ⟨T, J, hgood, hJ, hsteps⟩ - hm
  obtain ⟨T', hstep, hgood'⟩ := step_tree hgood hm
  obtain ⟨J', hJ', hcase⟩ := hstep.simulates hgood.inv hJ
  refine ⟨T', J', hgood', hJ', ?_⟩
  rcases hcase with ⟨h0, rfl, -⟩ | hs
  · rwa [h0]
  · exact hsteps.tail hs

omit [DecidableEq W] in
/-- in a state with the jobs of a tree -/
theorem Good.done (h : Good S T) (hJ : T.Rest J) (h0 : S.finished 0 = true) : J 0 = .done := by
  rw [hJ 0, h.linked.finished 0 h0]
  rfl

/-- **Refinement.** The state after any moves of the workers is one that the fork-join program comes to, at the end of it
when the program is done; no `assert` fails, and a call that faults is one that may run next there. Each operation of a deque
is one atomic move here, and no deque is ever full. -/
theorem scheduler_refines (hr : Reaches (step body main) (start main t, s) (S', s')) :
    ∃ t', Steps body (t, s) (t', s') ∧ (S'.finished 0 = true → t' = .done) ∧
      ∀ m e, step body main (S', s') m = .error e → (∃ f, e = .body f) ∧ Faults body t' s' := by
  obtain ⟨T, J, hgood, hJ, hsteps⟩ := reaches_good hr
  exact ⟨J 0, hsteps, hgood.done hJ, fun m e he => step_error hgood hJ he⟩

/-- each call adds its number to the state -/
def addBody : Body ℕ ℕ := fun c s => .ok (s + c, .done)

theorem allRuns_addBody : AllRuns addBody (fun x => x = 3) (par (call 1) (call 2)) 0 := by
  have hrun : AllRuns addBody (fun x => x = 3) ((par (call 1) (call 2)).map fun c => c) 0 := by
    refine allRuns_orders (g := fun x c => .ok (x + c)) (fun c s s' h => ?_) fun l hl => ?_
    · cases h
      rfl
    · rcases List.perm_pair.1 hl with rfl | rfl
      all_goals rfl
  exact hrun

/-- worker 1 steals the second of two calls and makes it before worker 0 makes the first one -/
def stealFirst : List (SchedMove ℕ) :=
  [.work 0, .work 0, .steal 1 0, .work 1, .work 1, .work 0, .work 0, .work 0, .work 0]

theorem scheduler_refines_stealFirst : Steps addBody (par (call 1) (call 2), 0) (.done, 3) := by
  have hrun : ∃ S, runTo (fun _ => True) (step addBody (0 : ℕ)) (start 0 (par (call 1) (call 2)), 0) stealFirst =
      some (S, 3) ∧ S.finished 0 = true := ⟨_, rfl, rfl⟩
  obtain ⟨S, hS, h0⟩ := hrun
  obtain ⟨t', hsteps, hdone, -⟩ := scheduler_refines (reachesIn_runTo hS)
  rwa [hdone h0] at hsteps

/-- **No dangling jobs.** Whatever the workers have done, each job is in one place, and the `pardo` that made it has not
returned: it is on the stack of some worker, on its left side or waiting for the job. The deques are as in
`scheduler_refines`. -/
theorem jobs_alive (hr : Reaches (step body main) (start main t, s) (S', s')) :
    Apart S'.slots ∧ ∀ w, ∀ j ∈ S'.slots w, j ≠ 0 → ∃ v, ∃ a ∈ S'.stack v, j ∈ refs a.frames := by
  obtain ⟨T, J, hgood, -, -⟩ := reaches_good hr
  refine ⟨hgood.linked.apart, fun w j hj h0 => ?_⟩
  obtain ⟨p, hp⟩ := (hgood.inv.parent j (hgood.linked.live hj)).resolve_left h0
  have hlive : T.job p ≠ .ended := by
    intro he
    rw [he] at hp
    cases hp
  obtain ⟨v, hv⟩ := hgood.linked.placed p hlive
  rcases List.mem_append.1 hv with hv | hv
  · rcases hgood.linked.line_cases hv with he | he
    all_goals
      rw [he] at hp
      cases hp
  · obtain ⟨a, ha, rfl⟩ := List.mem_map.1 hv
    rw [hgood.linked.running v a ha] at hp
    exact ⟨v, a, ha, hp⟩

/-- the stolen call, before it is made -/
theorem jobs_alive_stealFirst : ∃ S, runTo (fun _ => True) (step addBody (0 : ℕ)) (start 0 (par (call 1) (call 2)), 0)
    (stealFirst.take 3) = some (S, 0) ∧ S.slots 1 = [1] ∧ ∃ v, ∃ a ∈ S.stack v, 1 ∈ refs a.frames := by
  have hrun : ∃ S, runTo (fun _ => True) (step addBody (0 : ℕ)) (start 0 (par (call 1) (call 2)), 0)
      (stealFirst.take 3) = some (S, 0) ∧ S.slots 1 = [1] := ⟨_, rfl, rfl⟩
  obtain ⟨S, hS, hslots⟩ := hrun
  refine ⟨S, hS, hslots, (jobs_alive (reachesIn_runTo hS)).2 1 1 ?_ Nat.one_ne_zero⟩
  rw [hslots]
  exact List.mem_singleton.2 rfl

/-- from a state with the jobs of a tree -/
theorem Good.allSchedules {P : σ → Prop} (h : Good S T) (hJ : T.Rest J) (hruns : AllRuns body P (J 0) s) :
    AllSchedules (step body main) (fun q => Awake q.1) (fun q => q.1.finished 0 = true ∧ P q.2) (S, s) := by
  refine allRuns_machine (R := fun q k t x => ∃ T J, Good q.1 T ∧ JobTree.Rest T J ∧ T.size = k ∧ J 0 = t ∧ q.2 = x)
    hruns ?_ ?_ ?_ ⟨T, J, h, hJ, rfl, rfl, rfl⟩
  · rintro ⟨S, s⟩ _ _ _ ⟨T, J, hgood, hJ, rfl, rfl, rfl⟩ hf m e he
    exact hf (step_error hgood hJ he).2
  · rintro ⟨S, s⟩ _ _ _ ⟨T, J, hgood, hJ, rfl, rfl, rfl⟩ hstuck
    have hdone := progress hgood hstuck
    exact ⟨hgood.done hJ hdone, fun hP => ⟨hdone, hP⟩⟩
  · rintro ⟨S, s⟩ _ _ _ m ⟨S', s'⟩ ⟨T, J, hgood, hJ, rfl, rfl, rfl⟩ hm
    obtain ⟨T', hstep, hgood'⟩ := step_tree hgood hm
    obtain ⟨J', hJ', hcase⟩ := hstep.simulates hgood.inv hJ
    rcases hcase with ⟨h0, rfl, hsize⟩ | hs
    · exact Or.inl ⟨_, hsize, T', J', hgood', hJ', rfl, h0, rfl⟩
    · exact Or.inr ⟨_, _, _, ⟨T', J', hgood', hJ', rfl, rfl, rfl⟩, hs⟩

/-- **The scheduler.** When all runs of a fork-join program end, without a fault, with `P`, so do all schedules of the
workers, also when workers without a call sleep and none of them steals: no `assert` fails, there is no deadlock, and in the
end the program is done and `P` holds. The deques are as in `scheduler_refines`. -/
theorem scheduler_runs {P : σ → Prop} (h : AllRuns body P t s) (main : W) :
    AllSchedules (step body main) (fun q => Awake q.1) (fun q => q.1.finished 0 = true ∧ P q.2) (start main t, s) :=
  (good_start main t).allSchedules (JobTree.rest_root t) h

theorem scheduler_runs_stealFirst : AllSchedules (step addBody (0 : ℕ)) (fun q => Awake q.1)
    (fun q => q.1.finished 0 = true ∧ q.2 = 3) (start 0 (par (call 1) (call 2)), 0) :=
  scheduler_runs (P := fun x => x = 3) allRuns_addBody 0

/-- the schedule is fair to the workers in a call -/
def FairTo (body : Body C σ) (main : W) (t : Proc C) (s : σ) (ms : ℕ → SchedMove W) : Prop :=
  Fair (step body main) (fun q => Awake q.1) (start main t, s) ms

/-- under every fair schedule the program that `main` began is done at some time, with `P` -/
def Completes (body : Body C σ) (main : W) (t : Proc C) (s : σ) (P : σ → Prop) : Prop :=
  ∀ ms : ℕ → SchedMove W, FairTo body main t s ms → ∃ N q,
    (∀ i, N ≤ i → scheduled (step body main) (start main t, s) ms i = .ok q) ∧ q.1.finished 0 = true ∧ P q.2

theorem completes {P : σ → Prop} (h : AllRuns body P t s) (main : W) : Completes body main t s P := by
  intro ms hfair
  obtain ⟨N, q, hq, hN⟩ := ((good_start main t).allSchedules (JobTree.rest_root t) h).fair ms hfair
  exact ⟨N, q, hN, hq⟩

end Sched

end HeavyLight
