/-
The jobs of the scheduler as a tree of jobs.

- `Shape`: the jobs in the deque of a worker are the right jobs of the left sides that its innermost call is in, and it has
  none while it waits; all calls below the innermost one wait.
- `Linked`: the jobs of a state are a `JobTree`, each job in one place. `Linked.next`, `Linked.makeJob`, `Linked.spawn`,
  `Linked.inline`, `Linked.steal`, `Linked.finish`: so they are after each step, which is a step of the tree.
- `Timed`: when the calls began.
-/
import HeavyLight.Scheduler

namespace HeavyLight

open Proc

namespace Sched

variable {W C D σ : Type} [DecidableEq W]

variable {S S' : Sched W C (List ℕ)} {T T' : JobTree C} {body : Body C σ} {main : W} {s s' : σ} {w v : W} {i j k : ℕ}
  {a b : Activation C} {as : List (Activation C)} {t u : Proc C} {fs : List (Frame C)} {d : List ℕ} {J : ℕ → Proc C}

/-! ## The shape of a worker -/

/-- the right jobs of the left sides that a call is in, from the innermost on -/
def lefts : List (Frame C) → List ℕ
  | [] => []
  | .left j :: fs => j :: lefts fs
  | _ :: fs => lefts fs

/-- no frame waits -/
def Plain : List (Frame C) → Prop
  | [] => True
  | .wait _ :: _ => False
  | _ :: fs => Plain fs

/-- the call is in `wait_until` -/
def Waiting (a : Activation C) : Prop := ∃ j fs, a.cur = .done ∧ a.frames = .wait j :: fs ∧ Plain fs

/-- the jobs in the hand and in the deque are right jobs of the innermost call, and there are none while it waits -/
def Shape (d : List ℕ) : List (Activation C) → Prop
  | [] => d = []
  | a :: as => (Plain a.frames ∧ d <+: lefts a.frames ∨ Waiting a ∧ d = []) ∧ ∀ b ∈ as, Waiting b

theorem Shape.upwards {as : List (Activation C)} {d' : List ℕ} (h : Shape d as) (hd : d' <+: d) : Shape d' as := by
  have hnil : d = [] → d' = [] := fun he => List.prefix_nil.1 (he ▸ hd)
  cases as with
  | nil => exact hnil h
  | cons a as => exact ⟨h.1.imp (fun h => ⟨h.1, hd.trans h.2⟩) (fun h => ⟨h.1, hnil h.2⟩), h.2⟩

/-- the frames above a waiting one go on -/
theorem Shape.next (h : Shape d (a :: as)) (hfs : Plain a.frames → Plain b.frames ∧ lefts b.frames = lefts a.frames)
    (ha : ¬ Waiting a) : Shape d (b :: as) := by
  refine ⟨Or.inl ?_, h.2⟩
  obtain ⟨hp, hd⟩ := h.1.resolve_right fun hw => ha hw.1
  rw [(hfs hp).2]
  exact ⟨(hfs hp).1, hd⟩

/-- a worker that looks for a job has none and waits in all its calls -/
theorem Shape.seeks (h : Shape d (S.stack w)) (hs : S.seeks main w = true) : d = [] ∧ ∀ a ∈ S.stack w, Waiting a := by
  unfold Sched.seeks at hs
  split at hs
  · next he =>
    rw [he] at h ⊢
    exact ⟨h, fun a ha => absurd ha List.not_mem_nil⟩
  · next k j fs as he =>
    rw [he] at h ⊢
    obtain ⟨hw, hd⟩ := h.1.resolve_left fun hp => hp.1
    exact ⟨hd, List.forall_mem_cons.2 ⟨hw, h.2⟩⟩
  · cases hs

/-! ## The jobs of a state -/

/-- the jobs that a worker has made and not called, from the latest on -/
def line (S : Sched W C (List ℕ)) (w : W) : List ℕ := (S.hand w).toList ++ S.deque w

/-- the jobs of a worker -/
def slots (S : Sched W C (List ℕ)) (w : W) : List ℕ := S.line w ++ (S.stack w).map Activation.job

/-- the jobs of the state are those of the tree, each in one place -/
structure Linked (S : Sched W C (List ℕ)) (T : JobTree C) : Prop where
  fresh : T.fresh = S.fresh
  apart : Apart S.slots
  running : ∀ w, ∀ a ∈ S.stack w, T.job a.job = .running a.cur a.frames
  queued : ∀ w, ∀ j ∈ S.deque w, T.job j = .queued (S.thunk j)
  made : ∀ w, ∀ j ∈ S.hand w, T.job j = .made (S.thunk j)
  placed : ∀ j, T.job j ≠ .ended → ∃ w, j ∈ S.slots w
  finished : ∀ j, S.finished j = true → T.job j = .ended
  ended : ∀ j, T.job j = .ended → (∃ k, j ∈ (T.job k).refs) → S.finished j = true
  root : T.job 0 = .ended → S.finished 0 = true
  shape : ∀ w, Shape (S.line w) (S.stack w)

/-- `time k` is the time at which the call of the job `k` began: later than those below it, and later than its parent's -/
structure Timed (stack : W → List (Activation C)) (time : ℕ → ℕ) (now : ℕ) : Prop where
  nested : ∀ w, (stack w).Pairwise fun a b => time b.job < time a.job
  child : ∀ w v, ∀ a ∈ stack w, ∀ b ∈ stack v, b.job ∈ refs a.frames → time a.job < time b.job
  before : ∀ w, ∀ a ∈ stack w, time a.job < now

omit [DecidableEq W] in
theorem Linked.line_cases (h : Linked S T) (hj : j ∈ S.line w) :
    T.job j = .made (S.thunk j) ∨ T.job j = .queued (S.thunk j) :=
  (List.mem_append.1 hj).imp (fun hj => h.made w j (Option.mem_toList.1 hj)) (h.queued w j)

omit [DecidableEq W] in
theorem Linked.line_ne (h : Linked S T) (hk : T.job k = .running t fs) (v : W) : k ∉ S.line v := by
  intro hv
  rcases h.line_cases hv with he | he
  all_goals
    rw [he] at hk
    cases hk

omit [DecidableEq W] in
theorem Linked.live (h : Linked S T) (hj : j ∈ S.slots w) : T.job j ≠ .ended := by
  intro he
  rcases List.mem_append.1 hj with hj | hj
  · rcases h.line_cases hj with hj' | hj'
    all_goals
      rw [hj'] at he
      cases he
  · obtain ⟨a, ha, rfl⟩ := List.mem_map.1 hj
    rw [h.running w a ha] at he
    cases he

omit [DecidableEq W] in
/-- no other call has the job of the innermost call of `w` -/
theorem Linked.stack_ne (h : Linked S T) (hst : S.stack w = a :: as) {x : Activation C}
    (hx : x ∈ as ∨ ∃ v, v ≠ w ∧ x ∈ S.stack v) : x.job ≠ a.job := by
  intro he
  rcases hx with hx | ⟨v, hv, hx⟩
  · have hnodup := (h.apart.nodup w).sublist (List.sublist_append_right _ _)
    rw [hst, List.map_cons, List.nodup_cons] at hnodup
    exact hnodup.1 (he ▸ List.mem_map_of_mem hx)
  · refine hv (h.apart.unique v w a.job (List.mem_append_right _ (he ▸ List.mem_map_of_mem hx)) ?_)
    rw [slots, hst]
    exact List.mem_append_right _ List.mem_cons_self

theorem mem_setStack {x : Activation C} (hx : x ∈ (S.setStack w as).stack v) :
    v = w ∧ x ∈ as ∨ v ≠ w ∧ x ∈ S.stack v := by
  by_cases hv : v = w
  · rw [hv, setStack_self] at hx
    exact Or.inl ⟨hv, hx⟩
  · rw [setStack_ne hv] at hx
    exact Or.inr ⟨hv, hx⟩

theorem slots_setStack (hst : S.stack w = a :: as) (hjob : b.job = a.job) (v : W) :
    (S.setStack w (b :: as)).slots v = S.slots v := by
  by_cases hv : v = w
  · rw [hv, slots, slots, setStack_self, hst, List.map_cons, List.map_cons, hjob]
    rfl
  · rw [slots, slots, setStack_ne hv]
    rfl

/-- the call `a` goes on as `b`, while its job goes on in the tree -/
theorem Linked.next (h : Linked S T) (hst : S.stack w = a :: as) (hjob : b.job = a.job)
    (hrefs : ∀ j ∈ refs b.frames, j ∈ refs a.frames) (hshape : Shape (S.line w) (b :: as)) :
    Linked (S.setStack w (b :: as)) (T.set a.job (.running b.cur b.frames)) := by
  have hrun : T.job a.job = .running a.cur a.frames := h.running w a (hst ▸ List.mem_cons_self)
  have hslots := slots_setStack (S := S) hst hjob
  have hended : ∀ j, (T.set a.job (.running b.cur b.frames)).job j = .ended → j ≠ a.job ∧ T.job j = .ended := by
    intro j hj
    by_cases hja : j = a.job
    · rw [hja, JobTree.set_self] at hj
      cases hj
    · rw [JobTree.set_ne hja] at hj
      exact ⟨hja, hj⟩
  have hline : ∀ v, ∀ j ∈ S.line v, j ≠ a.job := by
    rintro v j hj rfl
    exact h.line_ne hrun v hj
  refine ⟨h.fresh, h.apart.less fun v => by rw [hslots], fun v x hx => ?_, fun v j hj => ?_, fun v j hj => ?_,
    fun j hj => ?_, fun j hj => ?_, fun j hj ⟨k, hk⟩ => ?_, fun h0 => h.root (hended 0 h0).2, fun v => ?_⟩
  · rcases mem_setStack hx with ⟨-, hx⟩ | ⟨hv, hx⟩
    · rcases List.mem_cons.1 hx with rfl | hx
      · rw [hjob, JobTree.set_self]
      · rw [JobTree.set_ne (h.stack_ne hst (Or.inl hx))]
        exact h.running w x (hst ▸ List.mem_cons_of_mem _ hx)
    · rw [JobTree.set_ne (h.stack_ne hst (Or.inr ⟨v, hv, hx⟩))]
      exact h.running v x hx
  · rw [JobTree.set_ne (hline v j (List.mem_append_right _ hj))]
    exact h.queued v j hj
  · rw [JobTree.set_ne (hline v j (List.mem_append_left _ (Option.mem_toList.2 hj)))]
    exact h.made v j hj
  · have hj' : T.job j ≠ .ended := by
      by_cases hja : j = a.job
      · rw [hja, hrun]
        exact fun he => nomatch he
      · rwa [JobTree.set_ne hja] at hj
    obtain ⟨v, hv⟩ := h.placed j hj'
    exact ⟨v, (hslots v).symm ▸ hv⟩
  · have hj' := h.finished j hj
    rwa [JobTree.set_ne fun he => by rw [he, hrun] at hj'; cases hj']
  · refine h.ended j (hended j hj).2 ⟨k, ?_⟩
    by_cases hka : k = a.job
    · rw [hka, JobTree.set_self] at hk
      rw [hka, hrun]
      exact hrefs j hk
    · rwa [JobTree.set_ne hka] at hk
  · by_cases hv : v = w
    · rw [hv, setStack_self]
      exact hshape
    · rw [setStack_ne hv]
      exact h.shape v

/-- `pardo` makes its right job -/
theorem Linked.makeJob (h : Linked S T) (hT : T.Inv) (hhand : S.hand w = none)
    (hst : S.stack w = ⟨k, par t u, fs⟩ :: as) :
    Linked ((S.makeJob w u).setStack w (⟨k, t, .left S.fresh :: fs⟩ :: as))
      ((T.fork u).set k (.running t (.left T.fresh :: fs))) := by
  have hrun : T.job k = .running (par t u) fs := h.running w ⟨k, par t u, fs⟩ (hst ▸ List.mem_cons_self)
  have hnew : T.job T.fresh = .ended := by_contra fun he => (hT.small _ he).false
  have hfresh := h.fresh
  have hkf : k ≠ T.fresh := by
    rintro rfl
    rw [hnew] at hrun
    cases hrun
  have hself : ((T.fork u).set k (.running t (.left T.fresh :: fs))).job T.fresh = .made u := by
    rw [JobTree.set_ne hkf.symm, JobTree.fork_self]
  have hold : ∀ j, j ≠ k → T.job j ≠ .ended →
      ((T.fork u).set k (.running t (.left T.fresh :: fs))).job j = T.job j := by
    intro j hjk hj
    rw [JobTree.set_ne hjk, JobTree.fork_ne (by rintro rfl; exact hj hnew)]
  have hended : ∀ j, ((T.fork u).set k (.running t (.left T.fresh :: fs))).job j = .ended →
      j ≠ k ∧ j ≠ T.fresh ∧ T.job j = .ended := by
    intro j hj
    have hjk : j ≠ k := by
      rintro rfl
      rw [JobTree.set_self] at hj
      cases hj
    have hjf : j ≠ T.fresh := by
      rintro rfl
      rw [hself] at hj
      cases hj
    rw [JobTree.set_ne hjk, JobTree.fork_ne hjf] at hj
    exact ⟨hjk, hjf, hj⟩
  have hline : ∀ v, v ≠ w → (S.makeJob w u).line v = S.line v := by
    intro v hv
    rw [line, line, makeJob_hand_ne hv]
    rfl
  have hlinew : (S.makeJob w u).line w = S.fresh :: S.line w := by
    rw [line, line, makeJob_hand, hhand]
    rfl
  have hslots : ∀ v, v ≠ w →
      ((S.makeJob w u).setStack w (⟨k, t, .left S.fresh :: fs⟩ :: as)).slots v = S.slots v := by
    intro v hv
    rw [slots, slots, setStack_ne hv]
    exact congrArg (· ++ _) (hline v hv)
  have hslotsw :
      ((S.makeJob w u).setStack w (⟨k, t, .left S.fresh :: fs⟩ :: as)).slots w = S.fresh :: S.slots w := by
    rw [slots, slots, setStack_self, hst]
    exact congrArg (· ++ _) hlinew
  have hlive : ∀ x y, T.job x = y → y ≠ .ended → T.job x ≠ .ended := fun x y hx hy => hx ▸ hy
  -- the jobs so far
  have hthunk : ∀ j, T.job j ≠ .ended → (S.makeJob w u).thunk j = S.thunk j := by
    intro j hj
    refine makeJob_thunk_ne ?_ w u
    rintro rfl
    exact hj (hfresh ▸ hnew)
  refine ⟨congrArg Nat.succ h.fresh, ?_, fun v x hx => ?_, fun v j hj => ?_, fun v j hj => ?_, fun j hj => ?_,
    fun j hj => ?_, fun j hj ⟨m, hm⟩ => ?_, fun h0 => ?_, fun v => ?_⟩
  · refine h.apart.more (fun v hv => h.live hv ?_) (k := w) (by rw [hslotsw]) hslots
    rwa [← hfresh]
  · rcases mem_setStack hx with ⟨-, hx⟩ | ⟨hv, hx⟩
    · rcases List.mem_cons.1 hx with rfl | hx
      · rw [JobTree.set_self, hfresh]
      · have hx' := h.running w x (hst ▸ List.mem_cons_of_mem _ hx)
        rw [hold _ (h.stack_ne hst (Or.inl hx)) (hlive _ _ hx' fun he => nomatch he), hx']
    · have hx' := h.running v x hx
      rw [hold _ (h.stack_ne hst (Or.inr ⟨v, hv, hx⟩)) (hlive _ _ hx' fun he => nomatch he), hx']
  · show _ = Job.queued ((S.makeJob w u).thunk j)
    have hj' := h.queued v j hj
    have hjl := hlive j _ hj' fun he => nomatch he
    have hjk : j ≠ k := by
      rintro rfl
      exact h.line_ne hrun v (List.mem_append_right _ hj)
    rw [hold j hjk hjl, hj', hthunk j hjl]
  · show _ = Job.made ((S.makeJob w u).thunk j)
    have hj₁ : (S.makeJob w u).hand v = some j := hj
    by_cases hv : v = w
    · rw [hv, makeJob_hand] at hj₁
      obtain rfl := Option.some.inj hj₁
      rw [← hfresh, hself, hfresh, makeJob_thunk]
    · rw [makeJob_hand_ne hv] at hj₁
      have hj' := h.made v j hj₁
      have hjl := hlive j _ hj' fun he => nomatch he
      have hjk : j ≠ k := by
        rintro rfl
        exact h.line_ne hrun v (List.mem_append_left _ (Option.mem_toList.2 hj₁))
      rw [hold j hjk hjl, hj', hthunk j hjl]
  · by_cases hjf : j = T.fresh
    · exact ⟨w, by rw [hslotsw, hjf, hfresh]; exact List.mem_cons_self⟩
    · have hj' : T.job j ≠ .ended := by
        by_cases hjk : j = k
        · rw [hjk, hrun]
          exact fun he => nomatch he
        · rwa [JobTree.set_ne hjk, JobTree.fork_ne hjf] at hj
      obtain ⟨v, hv⟩ := h.placed j hj'
      by_cases hvw : v = w
      · refine ⟨w, ?_⟩
        rw [hslotsw]
        exact List.mem_cons_of_mem _ (hvw ▸ hv)
      · exact ⟨v, (hslots v hvw).symm ▸ hv⟩
  · have hj' : (S.makeJob w u).finished j = true := hj
    have hjf : j ≠ S.fresh := by
      rintro rfl
      rw [makeJob_finished] at hj'
      cases hj'
    rw [makeJob_finished_ne hjf] at hj'
    have hjended := h.finished j hj'
    have hjk : j ≠ k := by
      rintro rfl
      rw [hrun] at hjended
      cases hjended
    rw [JobTree.set_ne hjk, JobTree.fork_ne (hfresh ▸ hjf), hjended]
  · obtain ⟨hjk, hjf, hj'⟩ := hended j hj
    show (S.makeJob w u).finished j = true
    rw [makeJob_finished_ne (hfresh ▸ hjf)]
    refine h.ended j hj' ⟨m, ?_⟩
    by_cases hmk : m = k
    · rw [hmk, JobTree.set_self] at hm
      rw [hmk, hrun]
      exact (List.mem_cons.1 hm).resolve_left hjf
    · rw [JobTree.set_ne hmk] at hm
      by_cases hmf : m = T.fresh
      · rw [hmf, JobTree.fork_self] at hm
        cases hm
      · rwa [JobTree.fork_ne hmf] at hm
  · obtain ⟨-, h0f, h0'⟩ := hended 0 h0
    show (S.makeJob w u).finished 0 = true
    rw [makeJob_finished_ne (hfresh ▸ h0f)]
    exact h.root h0'
  · show Shape ((S.makeJob w u).line v) _
    by_cases hv : v = w
    · subst hv
      have hshape := h.shape v
      rw [hst] at hshape
      obtain ⟨hp, hd⟩ := hshape.1.resolve_right fun ⟨⟨_, _, he, _⟩, _⟩ => nomatch he
      rw [setStack_self, hlinew]
      exact ⟨Or.inl ⟨hp, List.cons_prefix_cons.2 ⟨rfl, hd⟩⟩, hshape.2⟩
    · rw [setStack_ne hv, hline v hv]
      exact h.shape v

theorem line_spawn (hhand : S.hand w = some j) (v : W) : (S.spawn w j).line v = S.line v := by
  by_cases hv : v = w
  · rw [hv, line, line, hhand, Sched.spawn, setDeque_self]
    show ((S.setHand w none).hand w).toList ++ _ = _
    rw [setHand_self]
    rfl
  · rw [line, line, Sched.spawn, setDeque_ne hv]
    show ((S.setHand w none).hand v).toList ++ _ = _
    rw [setHand_ne hv]
    rfl

/-- `spawn` pushes the job -/
theorem Linked.spawn (h : Linked S T) (hhand : S.hand w = some j) :
    Linked (S.spawn w j) (T.set j (.queued (S.thunk j))) := by
  have hmade : T.job j = .made (S.thunk j) := h.made w j hhand
  have hmem : j ∈ S.slots w := List.mem_append_left _ (List.mem_append_left _ (Option.mem_toList.2 hhand))
  have hslots : (S.spawn w j).slots = S.slots := funext fun v => congrArg (· ++ _) (line_spawn hhand v)
  have hended : ∀ i, (T.set j (.queued (S.thunk j))).job i = .ended → i ≠ j ∧ T.job i = .ended := by
    intro i hi
    have hij : i ≠ j := by
      rintro rfl
      rw [JobTree.set_self] at hi
      cases hi
    rw [JobTree.set_ne hij] at hi
    exact ⟨hij, hi⟩
  have hold : ∀ i x, T.job i = x → x ≠ .made (S.thunk j) → (T.set j (.queued (S.thunk j))).job i = x := by
    intro i x hi hx
    rw [JobTree.set_ne (by rintro rfl; exact hx (hi.symm.trans hmade)), hi]
  refine ⟨h.fresh, hslots ▸ h.apart, fun v x hx => hold _ _ (h.running v x hx) (fun he => nomatch he),
    fun v i hi => ?_, fun v i hi => ?_, fun i hi => ?_,
    fun i hi => hold _ _ (h.finished i hi) (fun he => nomatch he),
    fun i hi ⟨m, hm⟩ => h.ended i (hended i hi).2 ⟨m, ?_⟩, fun h0 => h.root (hended 0 h0).2, fun v => ?_⟩
  · show _ = Job.queued (S.thunk i)
    by_cases hij : i = j
    · rw [hij, JobTree.set_self]
    · rw [JobTree.set_ne hij]
      refine h.queued v i ?_
      by_cases hv : v = w
      · rw [hv, Sched.spawn, setDeque_self] at hi
        exact hv ▸ (List.mem_cons.1 hi).resolve_left hij
      · rwa [Sched.spawn, setDeque_ne hv] at hi
  · have hi' : (S.setHand w none).hand v = some i := hi
    by_cases hv : v = w
    · rw [hv, setHand_self] at hi'
      cases hi'
    · rw [setHand_ne hv] at hi'
      have hij : i ≠ j := by
        rintro rfl
        refine hv (h.apart.unique v w i ?_ hmem)
        exact List.mem_append_left _ (List.mem_append_left _ (Option.mem_toList.2 hi'))
      rw [JobTree.set_ne hij]
      exact h.made v i hi'
  · rw [hslots]
    by_cases hij : i = j
    · exact ⟨w, hij ▸ hmem⟩
    · rw [JobTree.set_ne hij] at hi
      exact h.placed i hi
  · by_cases hmj : m = j
    · rw [hmj, JobTree.set_self] at hm
      cases hm
    · rwa [JobTree.set_ne hmj] at hm
  · rw [line_spawn hhand]
    exact h.shape v

/-! ### A job is taken from a deque -/

/-- the deque of `v` is `d` with the job `j` at one place -/
structure Cut (S : Sched W C (List ℕ)) (v : W) (j : ℕ) (d : List ℕ) : Prop where
  perm : (S.deque v).Perm (j :: d)
  sublist : d.Sublist (S.deque v)

namespace Cut

theorem slots_ne (h : w ≠ v) (d : List ℕ) : (S.setDeque v d).slots w = S.slots w := by
  rw [slots, slots, line, line, setDeque_ne h]
  rfl

theorem slots_self (h : Cut S v j d) : (S.slots v).Perm (j :: (S.setDeque v d).slots v) := by
  rw [slots, slots, line, line, setDeque_self]
  refine (((List.Perm.refl _).append h.perm).append_right _).trans ?_
  rw [List.append_assoc, List.append_assoc]
  exact List.perm_middle

theorem apart (h : Cut S v j d) (hS : Apart S.slots) : Apart (S.setDeque v d).slots := by
  refine hS.less fun w => ?_
  by_cases hw : w = v
  · rw [hw, slots, slots, line, line, setDeque_self]
    exact ((List.Sublist.refl _).append h.sublist).append (List.Sublist.refl _)
  · rw [slots_ne hw]

theorem gone (h : Cut S v j d) (hS : Apart S.slots) (w : W) : j ∉ (S.setDeque v d).slots w := by
  intro hw
  by_cases hwv : w = v
  · rw [hwv] at hw
    exact (List.nodup_cons.1 (h.slots_self.nodup_iff.1 (hS.nodup v))).1 hw
  · rw [slots_ne hwv] at hw
    exact hwv (hS.unique w v j hw (h.slots_self.mem_iff.2 List.mem_cons_self))

theorem placed (h : Cut S v j d) (hij : i ≠ j) (hi : i ∈ S.slots w) : i ∈ (S.setDeque v d).slots w := by
  by_cases hw : w = v
  · rw [hw, h.slots_self.mem_iff] at hi
    exact hw ▸ (List.mem_cons.1 hi).resolve_left hij
  · rwa [slots_ne hw]

/-- the other jobs in the deques -/
theorem deque (h : Cut S v j d) (hS : Apart S.slots) (hi : i ∈ (S.setDeque v d).deque w) : i ≠ j ∧ i ∈ S.deque w := by
  refine ⟨?_, ?_⟩
  · rintro rfl
    exact h.gone hS w (List.mem_append_left _ (List.mem_append_right _ hi))
  · by_cases hw : w = v
    · subst hw
      rw [setDeque_self] at hi
      exact h.sublist.subset hi
    · rwa [setDeque_ne hw] at hi

end Cut

/-- `pardo` runs its right job itself -/
theorem Linked.inline (h : Linked S T) (hT : T.Inv) (hhand : S.hand w = none)
    (hst : S.stack w = ⟨k, .done, .left j :: fs⟩ :: as) (hd : S.deque w = j :: d) :
    Linked ((S.setDeque w d).setStack w (⟨k, S.thunk j, .right :: fs⟩ :: as))
      ((T.set j .ended).set k (.running (S.thunk j) (.right :: fs))) := by
  have hrun : T.job k = .running .done (.left j :: fs) :=
    h.running w ⟨k, .done, .left j :: fs⟩ (hst ▸ List.mem_cons_self)
  have hqueued : T.job j = .queued (S.thunk j) := h.queued w j (hd ▸ List.mem_cons_self)
  have hcut : Cut S w j d := ⟨hd ▸ List.Perm.refl _, hd ▸ List.sublist_cons_self _ _⟩
  have hmem : j ∈ (T.job k).refs := by
    rw [hrun]
    exact List.mem_cons_self
  have hkj : k < j := (hT.order k j hmem).1
  have hself : ((T.set j .ended).set k (.running (S.thunk j) (.right :: fs))).job j = .ended := by
    rw [JobTree.set_ne hkj.ne', JobTree.set_self]
  have hold : ∀ i, i ≠ k → i ≠ j →
      ((T.set j .ended).set k (.running (S.thunk j) (.right :: fs))).job i = T.job i := by
    intro i hik hij
    rw [JobTree.set_ne hik, JobTree.set_ne hij]
  have hended : ∀ i, ((T.set j .ended).set k (.running (S.thunk j) (.right :: fs))).job i = .ended →
      i ≠ k ∧ (i = j ∨ T.job i = .ended) := by
    intro i hi
    have hik : i ≠ k := by
      rintro rfl
      rw [JobTree.set_self] at hi
      cases hi
    refine ⟨hik, or_iff_not_imp_left.2 fun hij => ?_⟩
    rwa [hold i hik hij] at hi
  have hslots : ((S.setDeque w d).setStack w (⟨k, S.thunk j, .right :: fs⟩ :: as)).slots = (S.setDeque w d).slots :=
    funext (slots_setStack (S := S.setDeque w d) (a := ⟨k, .done, .left j :: fs⟩) hst rfl)
  have hrunning : ∀ x v, x ∈ S.stack v → x.job ≠ j := by
    intro x v hx he
    have hx' := h.running v x hx
    rw [he, hqueued] at hx'
    cases hx'
  have hline : ∀ v, ∀ i ∈ S.line v, i ≠ k := by
    rintro v i hi rfl
    exact h.line_ne hrun v hi
  refine ⟨h.fresh, hslots ▸ hcut.apart h.apart, fun v x hx => ?_, fun v i hi => ?_, fun v i hi => ?_, fun i hi => ?_,
    fun i hi => ?_, fun i hi ⟨m, hm⟩ => ?_, fun h0 => ?_, fun v => ?_⟩
  · rcases mem_setStack hx with ⟨-, hx⟩ | ⟨hv, hx⟩
    · rcases List.mem_cons.1 hx with rfl | hx
      · rw [JobTree.set_self]
      · have hx' : x ∈ S.stack w := hst ▸ List.mem_cons_of_mem _ hx
        rw [hold _ (h.stack_ne hst (Or.inl hx)) (hrunning x w hx'), h.running w x hx']
    · rw [hold _ (h.stack_ne hst (Or.inr ⟨v, hv, hx⟩)) (hrunning x v hx)]
      exact h.running v x hx
  · obtain ⟨hij, hi'⟩ := hcut.deque h.apart hi
    rw [hold i (hline v i (List.mem_append_right _ hi')) hij]
    exact h.queued v i hi'
  · have hi' := h.made v i hi
    have hij : i ≠ j := by
      rintro rfl
      rw [hqueued] at hi'
      cases hi'
    rw [hold i (hline v i (List.mem_append_left _ (Option.mem_toList.2 hi))) hij]
    exact hi'
  · have hij : i ≠ j := by
      rintro rfl
      exact hi hself
    have hi' : T.job i ≠ .ended := by
      by_cases hik : i = k
      · rw [hik, hrun]
        exact fun he => nomatch he
      · rwa [hold i hik hij] at hi
    obtain ⟨v, hv⟩ := h.placed i hi'
    exact ⟨v, hslots ▸ hcut.placed hij hv⟩
  · have hi' := h.finished i hi
    have hik : i ≠ k := by
      rintro rfl
      rw [hrun] at hi'
      cases hi'
    by_cases hij : i = j
    · rw [hij, hself]
    · rw [hold i hik hij, hi']
  · -- no job refers to `j` any longer
    have hm' : i ∈ (T.job m).refs ∧ (m = k → i ≠ j) := by
      by_cases hmk : m = k
      · rw [hmk, JobTree.set_self] at hm
        have hnodup := hT.refs.nodup k
        rw [hmk]
        simp only [hrun] at hnodup ⊢
        refine ⟨List.mem_cons_of_mem _ hm, ?_⟩
        rintro - rfl
        exact (List.nodup_cons.1 hnodup).1 hm
      · refine ⟨?_, fun he => absurd he hmk⟩
        by_cases hmj : m = j
        · rw [hmj, hself] at hm
          cases hm
        · rwa [hold m hmk hmj] at hm
    rcases (hended i hi).2 with rfl | hi'
    · exact absurd rfl (hm'.2 (hT.refs.unique m k i hm'.1 hmem))
    · exact h.ended i hi' ⟨m, hm'.1⟩
  · refine h.root ((hended 0 h0).2.resolve_left ?_)
    rintro rfl
    exact Nat.not_lt_zero k hkj
  · show Shape ((S.setDeque w d).line v) _
    by_cases hv : v = w
    · subst hv
      have hshape := h.shape v
      rw [hst, line, hhand, hd] at hshape
      obtain ⟨hp, hpre⟩ := hshape.1.resolve_right fun ⟨⟨_, _, _, he, _⟩, _⟩ => nomatch he
      rw [setStack_self, line, setDeque_self]
      show Shape ((S.hand v).toList ++ d) _
      rw [hhand]
      exact ⟨Or.inl ⟨hp, (List.cons_prefix_cons.1 hpre).2⟩, hshape.2⟩
    · rw [setStack_ne hv, line, setDeque_ne hv]
      exact h.shape v

/-- the end of `operator()` -/
theorem Linked.finish (h : Linked S T) (hst : S.stack w = ⟨k, .done, []⟩ :: as) :
    Linked ({ S with finished := Function.update S.finished k true }.setStack w as) (T.set k .ended) := by
  have hrun : T.job k = .running .done [] := h.running w ⟨k, .done, []⟩ (hst ▸ List.mem_cons_self)
  have hslots : ∀ v, v ≠ w →
      ({ S with finished := Function.update S.finished k true }.setStack w as).slots v = S.slots v := by
    intro v hv
    rw [slots, slots, setStack_ne hv]
    rfl
  have hslotsw : (S.slots w).Perm
      (k :: ({ S with finished := Function.update S.finished k true }.setStack w as).slots w) := by
    rw [slots, slots, setStack_self, hst]
    exact List.perm_middle
  have hfin : ∀ j, j ≠ k → Function.update S.finished k true j = S.finished j := fun j hj => Function.update_of_ne hj _ _
  have hself : Function.update S.finished k true k = true := Function.update_self _ _ _
  have hline : ∀ v, ∀ i ∈ S.line v, i ≠ k := by
    rintro v i hi rfl
    exact h.line_ne hrun v hi
  refine ⟨h.fresh, h.apart.less fun v => ?_, fun v x hx => ?_, fun v j hj => ?_, fun v j hj => ?_, fun j hj => ?_,
    fun j hj => ?_, fun j hj ⟨m, hm⟩ => ?_, fun h0 => ?_, fun v => ?_⟩
  · by_cases hv : v = w
    · rw [hv, slots, slots, setStack_self, hst]
      exact (List.Sublist.refl _).append (List.sublist_cons_self _ _)
    · rw [hslots v hv]
  · rcases mem_setStack hx with ⟨-, hx⟩ | ⟨hv, hx⟩
    · rw [JobTree.set_ne (h.stack_ne hst (Or.inl hx))]
      exact h.running w x (hst ▸ List.mem_cons_of_mem _ hx)
    · rw [JobTree.set_ne (h.stack_ne hst (Or.inr ⟨v, hv, hx⟩))]
      exact h.running v x hx
  · rw [JobTree.set_ne (hline v j (List.mem_append_right _ hj))]
    exact h.queued v j hj
  · rw [JobTree.set_ne (hline v j (List.mem_append_left _ (Option.mem_toList.2 hj)))]
    exact h.made v j hj
  · have hjk : j ≠ k := by
      rintro rfl
      exact hj (JobTree.set_self _ _ _)
    rw [JobTree.set_ne hjk] at hj
    obtain ⟨v, hv⟩ := h.placed j hj
    refine ⟨v, ?_⟩
    by_cases hvw : v = w
    · rw [hvw, hslotsw.mem_iff] at hv
      exact hvw ▸ (List.mem_cons.1 hv).resolve_left hjk
    · exact (hslots v hvw).symm ▸ hv
  · by_cases hjk : j = k
    · rw [hjk, JobTree.set_self]
    · rw [JobTree.set_ne hjk]
      exact h.finished j ((hfin j hjk).symm.trans hj)
  · by_cases hjk : j = k
    · exact hjk ▸ hself
    · rw [JobTree.set_ne hjk] at hj
      refine (hfin j hjk).trans (h.ended j hj ⟨m, ?_⟩)
      by_cases hmk : m = k
      · rw [hmk, JobTree.set_self] at hm
        cases hm
      · rwa [JobTree.set_ne hmk] at hm
  · by_cases h0k : 0 = k
    · exact h0k ▸ hself
    · rw [JobTree.set_ne h0k] at h0
      exact (hfin 0 h0k).trans (h.root h0)
  · by_cases hv : v = w
    · subst hv
      have hshape := h.shape v
      rw [hst] at hshape
      obtain ⟨-, hd⟩ := hshape.1.resolve_right fun ⟨⟨_, _, _, he, _⟩, _⟩ => nomatch he
      have hnil : S.line v = [] := List.prefix_nil.1 hd
      rw [setStack_self]
      show Shape (S.line v) as
      cases as with
      | nil => exact hnil
      | cons b as =>
        obtain ⟨hb, has⟩ := List.forall_mem_cons.1 hshape.2
        exact ⟨Or.inr ⟨hb, hnil⟩, has⟩
    · rw [setStack_ne hv]
      exact h.shape v

/-- a worker that looks for a job calls one from the top of a deque -/
theorem Linked.steal (h : Linked S T) (hs : S.seeks main w = true) (hv : S.deque v = d ++ [i]) :
    Linked ((S.setDeque v d).setStack w (⟨i, S.thunk i, []⟩ :: S.stack w)) (T.set i (.running (S.thunk i) [])) := by
  have hqueued : T.job i = .queued (S.thunk i) := h.queued v i (by rw [hv]; exact List.mem_append_right _ List.mem_cons_self)
  have hcut : Cut S v i d := by
    refine ⟨?_, ?_⟩
    · rw [hv]
      exact List.perm_append_singleton i d
    · rw [hv]
      exact List.sublist_append_left d [i]
  obtain ⟨hempty, hwaiting⟩ := (h.shape w).seeks hs
  have hvw : v ≠ w := by
    rintro rfl
    rw [line, hv] at hempty
    simp at hempty
  -- the job in its new place
  have hslots : ∀ x, x ≠ w →
      ((S.setDeque v d).setStack w (⟨i, S.thunk i, []⟩ :: S.stack w)).slots x = (S.setDeque v d).slots x := by
    intro x hx
    rw [slots, slots, setStack_ne hx]
    rfl
  have hslotsw : (((S.setDeque v d).setStack w (⟨i, S.thunk i, []⟩ :: S.stack w)).slots w).Perm
      (i :: (S.setDeque v d).slots w) := by
    rw [slots, slots, setStack_self, List.map_cons]
    exact List.perm_middle
  have hstack : ∀ x, ∀ a ∈ S.stack x, a.job ≠ i := by
    intro x a ha he
    have ha' := h.running x a ha
    rw [he, hqueued] at ha'
    cases ha'
  have hended : ∀ j, (T.set i (.running (S.thunk i) [])).job j = .ended → j ≠ i ∧ T.job j = .ended := by
    intro j hj
    have hji : j ≠ i := by
      rintro rfl
      rw [JobTree.set_self] at hj
      cases hj
    rw [JobTree.set_ne hji] at hj
    exact ⟨hji, hj⟩
  have hother : ∀ j x, T.job j = x → x ≠ .queued (S.thunk i) → (T.set i (.running (S.thunk i) [])).job j = x := by
    intro j x hj hx
    rw [JobTree.set_ne (by rintro rfl; exact hx (hj.symm.trans hqueued)), hj]
  refine ⟨h.fresh, (hcut.apart h.apart).more (hcut.gone h.apart) hslotsw hslots, fun x a ha => ?_, fun x j hj => ?_,
    fun x j hj => hother _ _ (h.made x j hj) (fun he => nomatch he), fun j hj => ?_,
    fun j hj => hother _ _ (h.finished j hj) (fun he => nomatch he), fun j hj ⟨m, hm⟩ => ?_,
    fun h0 => h.root (hended 0 h0).2, fun x => ?_⟩
  · rcases mem_setStack ha with ⟨-, ha⟩ | ⟨-, ha⟩
    · rcases List.mem_cons.1 ha with rfl | ha
      · rw [JobTree.set_self]
      · rw [JobTree.set_ne (hstack w a ha)]
        exact h.running w a ha
    · rw [JobTree.set_ne (hstack x a ha)]
      exact h.running x a ha
  · obtain ⟨hji, hj'⟩ := hcut.deque h.apart hj
    rw [JobTree.set_ne hji]
    exact h.queued x j hj'
  · by_cases hji : j = i
    · exact ⟨w, hslotsw.mem_iff.2 (hji ▸ List.mem_cons_self)⟩
    · rw [JobTree.set_ne hji] at hj
      obtain ⟨x, hx⟩ := h.placed j hj
      have hx' := hcut.placed hji hx
      refine ⟨x, ?_⟩
      by_cases hxw : x = w
      · rw [hxw, hslotsw.mem_iff]
        exact List.mem_cons_of_mem _ (hxw ▸ hx')
      · exact (hslots x hxw).symm ▸ hx'
  · refine h.ended j (hended j hj).2 ⟨m, ?_⟩
    by_cases hmi : m = i
    · rw [hmi, JobTree.set_self] at hm
      cases hm
    · rwa [JobTree.set_ne hmi] at hm
  · show Shape ((S.setDeque v d).line x) _
    by_cases hx : x = w
    · rw [hx, setStack_self, line, setDeque_ne hvw.symm]
      show Shape (S.line w) _
      rw [hempty]
      exact ⟨Or.inl ⟨trivial, List.nil_prefix⟩, hwaiting⟩
    · rw [setStack_ne hx]
      refine (h.shape x).upwards ?_
      by_cases hxv : x = v
      · rw [hxv, line, line, setDeque_self, hv, ← List.append_assoc]
        exact List.prefix_append _ _
      · rw [line, line, setDeque_ne hxv]
        exact List.prefix_rfl

section Timed

variable {stack stack' : W → List (Activation C)} {time : ℕ → ℕ} {now : ℕ}

omit [DecidableEq W] in
/-- calls that go on, with no new references to the calls on the stacks -/
theorem Timed.less (h : Timed stack time now) (hjobs : ∀ w, ((stack' w).map Activation.job).Sublist
      ((stack w).map Activation.job)) (hrefs : ∀ w, ∀ b ∈ stack' w, ∃ a ∈ stack w, b.job = a.job ∧
      ∀ v, ∀ x ∈ stack v, x.job ∈ refs b.frames → x.job ∈ refs a.frames) : Timed stack' time now := by
  refine ⟨fun w => ?_, fun w v b hb x hx hm => ?_, fun w b hb => ?_⟩
  · have hpair := (List.pairwise_map (f := Activation.job) (R := fun i j => time j < time i)).2 (h.nested w)
    exact List.pairwise_map.1 (hpair.sublist (hjobs w))
  · obtain ⟨a, ha, hjob, hsub⟩ := hrefs w b hb
    obtain ⟨y, hy, hyx⟩ := List.mem_map.1 ((hjobs v).subset (List.mem_map_of_mem hx))
    rw [← hyx] at hm ⊢
    rw [hjob]
    exact h.child w v a ha y hy (hsub v y hy hm)
  · obtain ⟨a, ha, hjob, -⟩ := hrefs w b hb
    rw [hjob]
    exact h.before w a ha

/-- the innermost call goes on -/
theorem Timed.next (h : Timed stack time now) (hst : stack w = a :: as) (hjob : b.job = a.job)
    (hrefs : ∀ v, ∀ x ∈ stack v, x.job ∈ refs b.frames → x.job ∈ refs a.frames) :
    Timed (Function.update stack w (b :: as)) time now := by
  refine h.less (fun v => ?_) fun v x hx => ?_
  · by_cases hv : v = w
    · rw [hv, Function.update_self, hst, List.map_cons, List.map_cons, hjob]
    · rw [Function.update_of_ne hv]
  · by_cases hv : v = w
    · rw [hv, Function.update_self] at hx
      rw [hv, hst]
      rcases List.mem_cons.1 hx with rfl | hx
      · exact ⟨a, List.mem_cons_self, hjob, hrefs⟩
      · exact ⟨x, List.mem_cons_of_mem _ hx, rfl, fun _ _ _ h => h⟩
    · rw [Function.update_of_ne hv] at hx
      exact ⟨x, hx, rfl, fun _ _ _ h => h⟩

theorem Timed.finish (h : Timed stack time now) (hst : stack w = a :: as) :
    Timed (Function.update stack w as) time now := by
  refine h.less (fun v => ?_) fun v x hx => ?_
  · by_cases hv : v = w
    · rw [hv, Function.update_self, hst]
      exact List.sublist_cons_self _ _
    · rw [Function.update_of_ne hv]
  · by_cases hv : v = w
    · rw [hv, Function.update_self] at hx
      rw [hv, hst]
      exact ⟨x, List.mem_cons_of_mem _ hx, rfl, fun _ _ _ h => h⟩
    · rw [Function.update_of_ne hv] at hx
      exact ⟨x, hx, rfl, fun _ _ _ h => h⟩

/-- a new call begins now -/
theorem Timed.start (h : Timed stack time now) (hne : ∀ v, ∀ a ∈ stack v, a.job ≠ i) :
    Timed (Function.update stack w (⟨i, t, []⟩ :: stack w)) (Function.update time i now) (now + 1) := by
  have htime : ∀ v, ∀ a ∈ stack v, Function.update time i now a.job = time a.job := fun v a ha =>
    Function.update_of_ne (hne v a ha) _ _
  have hself : Function.update time i now i = now := Function.update_self _ _ _
  have hmem : ∀ v, ∀ x ∈ Function.update stack w (⟨i, t, []⟩ :: stack w) v, x = ⟨i, t, []⟩ ∨ x ∈ stack v := by
    intro v x hx
    by_cases hv : v = w
    · subst hv
      rw [Function.update_self] at hx
      exact List.mem_cons.1 hx
    · rw [Function.update_of_ne hv] at hx
      exact Or.inr hx
  have hpair : ∀ v, (stack v).Pairwise fun a b => Function.update time i now b.job < Function.update time i now a.job := by
    intro v
    refine (h.nested v).imp_of_mem fun ha hb hab => ?_
    rwa [htime v _ ha, htime v _ hb]
  refine ⟨fun v => ?_, fun v x a ha b hb hm => ?_, fun v a ha => ?_⟩
  · by_cases hv : v = w
    · subst hv
      rw [Function.update_self]
      refine List.pairwise_cons.2 ⟨fun b hb => ?_, hpair v⟩
      rw [hself, htime v b hb]
      exact h.before v b hb
    · rw [Function.update_of_ne hv]
      exact hpair v
  · rcases hmem v a ha with rfl | ha
    · cases hm
    · rw [htime v a ha]
      rcases hmem x b hb with rfl | hb
      · rw [hself]
        exact h.before v a ha
      · rw [htime x b hb]
        exact h.child v x a ha b hb hm
  · rcases hmem v a ha with rfl | ha
    · rw [hself]
      exact Nat.lt_succ_self _
    · rw [htime v a ha]
      exact (h.before v a ha).trans (Nat.lt_succ_self _)

end Timed

end Sched

end HeavyLight
