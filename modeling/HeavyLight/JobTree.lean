/-
Fork-join programs as trees of jobs: the right side of each pair is a job of its own, which its parent waits for or runs
itself. A general library.

- `Job`: a job has ended, is made, queued, or running with the frames of what follows. `JobStep`: one step of some job.
- `seg`, `JobTree.Rest`: what remains of the program of each job, from what remains of the jobs it refers to.
- `JobTree.Inv`: each job has one parent, which is older. `JobStep.inv`: each step keeps it.
- `JobStep.simulates`: each step is a step of the program of job 0, or leaves it and makes the tree smaller.
- `JobTree.Inv.faults_call`: a call of a job that faults is one of the program of job 0.
-/
import HeavyLight.ForkJoin

namespace HeavyLight

open Proc

/-! ## Lists without an element in common -/

section Apart

variable {ι α : Type} {l l' : ι → List α}

/-- no element is in two of the lists, or twice in one -/
structure Apart (l : ι → List α) : Prop where
  nodup : ∀ i, (l i).Nodup
  unique : ∀ i j x, x ∈ l i → x ∈ l j → i = j

theorem Apart.less (h : Apart l) (hle : ∀ i, (l' i).Sublist (l i)) : Apart l' :=
  ⟨fun i => (h.nodup i).sublist (hle i), fun i j x hi hj => h.unique i j x ((hle i).subset hi) ((hle j).subset hj)⟩

/-- a new element in one of the lists -/
theorem Apart.more (h : Apart l) {k : ι} {x : α} (hx : ∀ i, x ∉ l i) (hk : (l' k).Perm (x :: l k))
    (hne : ∀ i, i ≠ k → l' i = l i) : Apart l' := by
  have hmem : ∀ i y, y ∈ l' i → y ∈ l i ∨ (y = x ∧ i = k) := by
    intro i y hy
    by_cases hi : i = k
    · subst hi
      exact (List.mem_cons.1 (hk.subset hy)).symm.imp_right fun he => ⟨he, rfl⟩
    · exact Or.inl (hne i hi ▸ hy)
  refine ⟨fun i => ?_, fun i j y hi hj => ?_⟩
  · by_cases hi : i = k
    · subst hi
      exact hk.nodup_iff.2 (List.nodup_cons.2 ⟨hx i, h.nodup i⟩)
    · rw [hne i hi]
      exact h.nodup i
  · rcases hmem i y hi with hi | ⟨rfl, rfl⟩
    · rcases hmem j y hj with hj | ⟨rfl, rfl⟩
      · exact h.unique i j y hi hj
      · exact absurd hi (hx i)
    · rcases hmem j y hj with hj | ⟨-, rfl⟩
      · exact absurd hj (hx j)
      · rfl

end Apart

/-! ## Jobs -/

/-- what a running job goes on with -/
inductive Frame (C : Type) where
  | next (u : Proc C)
  /-- on the left side of a pair, with the right side as the job `j` -/
  | left (j : ℕ)
  /-- on the right side of a pair, after the left side -/
  | right
  /-- waits for the job `j` -/
  | wait (j : ℕ)

inductive Job (C : Type) where
  | ended
  | made (t : Proc C)
  | queued (t : Proc C)
  | running (t : Proc C) (fs : List (Frame C))

section Jobs

variable {C σ : Type} {body : Body C σ} {J J' : ℕ → Proc C} {t t' u : Proc C} {fs : List (Frame C)} {s s' : σ} {j k : ℕ}

/-- the jobs that the frames refer to -/
def refs : List (Frame C) → List ℕ
  | [] => []
  | .next _ :: fs => refs fs
  | .left j :: fs => j :: refs fs
  | .right :: fs => refs fs
  | .wait j :: fs => j :: refs fs

/-- what remains of a running job, when `J j` remains of each job `j` -/
def seg (J : ℕ → Proc C) : Proc C → List (Frame C) → Proc C
  | t, [] => t
  | t, .next u :: fs => seg J (seq t u) fs
  | t, .left j :: fs => seg J (par t (J j)) fs
  | t, .right :: fs => seg J (par done t) fs
  | t, .wait j :: fs => seg J (par t (J j)) fs

theorem seg_congr (h : ∀ j ∈ refs fs, J' j = J j) (t : Proc C) : seg J' t fs = seg J t fs := by
  induction fs generalizing t with
  | nil => rfl
  | cons f fs ih =>
    cases f with
    | next u => exact ih h _
    | right => exact ih h _
    | left j =>
      rw [seg, seg, h j List.mem_cons_self]
      exact ih (fun i hi => h i (List.mem_cons_of_mem _ hi)) _
    | wait j =>
      rw [seg, seg, h j List.mem_cons_self]
      exact ih (fun i hi => h i (List.mem_cons_of_mem _ hi)) _

/-- what goes on in a part of a program goes on in the program -/
structure Contextual (R : Proc C → Proc C → Prop) : Prop where
  seq : ∀ {t t'} u, R t t' → R (seq t u) (seq t' u)
  left : ∀ {t t'} u, R t t' → R (par t u) (par t' u)
  right : ∀ {u u'} t, R u u' → R (par t u) (par t u')

theorem contextual_step (body : Body C σ) (s s' : σ) : Contextual fun t t' => Step body t s t' s' :=
  ⟨fun _ => .seqStep, fun _ => .parLeft, fun _ => .parRight⟩

/-- what goes on in what runs goes on in the job -/
theorem Contextual.seg {R : Proc C → Proc C → Prop} (hR : Contextual R) (h : R t t') (fs : List (Frame C)) :
    R (seg J t fs) (seg J t' fs) := by
  induction fs generalizing t t' with
  | nil => exact h
  | cons f fs ih =>
    cases f with
    | next u => exact ih (hR.seq u h)
    | left j => exact ih (hR.left _ h)
    | right => exact ih (hR.right _ h)
    | wait j => exact ih (hR.left _ h)

/-- a step of what runs is a step of the job -/
theorem step_seg (h : Step body t s t' s') (fs : List (Frame C)) : Step body (seg J t fs) s (seg J t' fs) s' :=
  (contextual_step body s s').seg h fs

theorem faults_seg (h : Faults body t s) (fs : List (Frame C)) : Faults body (seg J t fs) s := by
  induction fs generalizing t with
  | nil => exact h
  | cons f fs ih =>
    cases f with
    | next u => exact ih (.seq h)
    | left j => exact ih (.parLeft h)
    | right => exact ih (.parRight h)
    | wait j => exact ih (.parLeft h)

/-- so does what goes on in a job that the frames refer to -/
theorem Contextual.seg_ref {R : Proc C → Proc C → Prop} (hR : Contextual R) (hk : k ∈ refs fs) (hnodup : (refs fs).Nodup)
    (h : R (J k) (J' k)) (hne : ∀ j, j ≠ k → J' j = J j) (t : Proc C) : R (HeavyLight.seg J t fs) (HeavyLight.seg J' t fs) := by
  -- the frame that refers to `k`; those above it do not
  have hframe : ∀ fs t, k ∉ refs fs →
      R (HeavyLight.seg J (par t (J k)) fs) (HeavyLight.seg J' (par t (J' k)) fs) := by
    intro fs t hfs
    rw [seg_congr fun j hj => hne j fun he => hfs (he ▸ hj)]
    exact hR.seg (hR.right t h) fs
  induction fs generalizing t with
  | nil => cases hk
  | cons f fs ih =>
    cases f with
    | next u => exact ih hk hnodup _
    | right => exact ih hk hnodup _
    | left j =>
      rw [refs, List.nodup_cons] at hnodup
      by_cases hj : j = k
      · subst hj
        exact hframe fs t hnodup.1
      · rw [HeavyLight.seg, HeavyLight.seg, hne j hj]
        exact ih ((List.mem_cons.1 hk).resolve_left (Ne.symm hj)) hnodup.2 _
    | wait j =>
      rw [refs, List.nodup_cons] at hnodup
      by_cases hj : j = k
      · subst hj
        exact hframe fs t hnodup.1
      · rw [HeavyLight.seg, HeavyLight.seg, hne j hj]
        exact ih ((List.mem_cons.1 hk).resolve_left (Ne.symm hj)) hnodup.2 _

theorem faults_seg_ref (hk : k ∈ refs fs) (h : Faults body (J k) s) (t : Proc C) : Faults body (seg J t fs) s := by
  induction fs generalizing t with
  | nil => cases hk
  | cons f fs ih =>
    cases f with
    | next u => exact ih hk _
    | right => exact ih hk _
    | left j =>
      rcases List.mem_cons.1 hk with rfl | hk
      · exact faults_seg (.parRight h) fs
      · exact ih hk _
    | wait j =>
      rcases List.mem_cons.1 hk with rfl | hk
      · exact faults_seg (.parRight h) fs
      · exact ih hk _

namespace Job

def refs : Job C → List ℕ
  | ended => []
  | made _ => []
  | queued _ => []
  | running _ fs => HeavyLight.refs fs

/-- what remains of a job -/
def rest (J : ℕ → Proc C) : Job C → Proc C
  | ended => done
  | made t => t
  | queued t => t
  | running t fs => seg J t fs

theorem rest_congr {x : Job C} (h : ∀ j ∈ x.refs, J' j = J j) : x.rest J' = x.rest J := by
  cases x with
  | ended => rfl
  | made t => rfl
  | queued t => rfl
  | running t fs => exact seg_congr h t

end Job

/-- the jobs so far, those from `fresh` on have ended -/
structure JobTree (C : Type) where
  fresh : ℕ
  job : ℕ → Job C

namespace JobTree

/-- another state of the job `k` -/
def set (T : JobTree C) (k : ℕ) (x : Job C) : JobTree C := { T with job := Function.update T.job k x }

/-- a job for the right side of a pair -/
def fork (T : JobTree C) (u : Proc C) : JobTree C := ⟨T.fresh + 1, Function.update T.job T.fresh (.made u)⟩

variable {T : JobTree C} {x : Job C}

@[simp] theorem set_fresh (T : JobTree C) (k : ℕ) (x : Job C) : (T.set k x).fresh = T.fresh := rfl

@[simp] theorem set_self (T : JobTree C) (k : ℕ) (x : Job C) : (T.set k x).job k = x := Function.update_self _ _ _

theorem set_ne (h : j ≠ k) (x : Job C) : (T.set k x).job j = T.job j := Function.update_of_ne h _ _

@[simp] theorem fork_fresh (T : JobTree C) (u : Proc C) : (T.fork u).fresh = T.fresh + 1 := rfl

@[simp] theorem fork_self (T : JobTree C) (u : Proc C) : (T.fork u).job T.fresh = .made u := Function.update_self _ _ _

theorem fork_ne (h : j ≠ T.fresh) (u : Proc C) : (T.fork u).job j = T.job j := Function.update_of_ne h _ _

/-- the program `t` as the job 0 -/
def root (t : Proc C) : JobTree C := ⟨1, fun k => if k = 0 then .running t [] else .ended⟩

end JobTree

/-- one step of a job, with its effect on the state -/
inductive JobStep (body : Body C σ) : JobTree C → σ → JobTree C → σ → Prop where
  | call {T : JobTree C} {k c t fs s s'} : T.job k = .running (call c) fs → body c s = .ok (s', t) →
      JobStep body T s (T.set k (.running t fs)) s'
  | seq {T : JobTree C} {k t u fs s} : T.job k = .running (seq t u) fs →
      JobStep body T s (T.set k (.running t (.next u :: fs))) s
  | next {T : JobTree C} {k u fs s} : T.job k = .running done (.next u :: fs) →
      JobStep body T s (T.set k (.running u fs)) s
  | fork {T : JobTree C} {k t u fs s} : T.job k = .running (par t u) fs →
      JobStep body T s ((T.fork u).set k (.running t (.left T.fresh :: fs))) s
  | push {T : JobTree C} {j u s} : T.job j = .made u → JobStep body T s (T.set j (.queued u)) s
  | inline {T : JobTree C} {k j u fs s} : T.job k = .running done (.left j :: fs) → T.job j = .queued u →
      JobStep body T s ((T.set j .ended).set k (.running u (.right :: fs))) s
  | right {T : JobTree C} {k fs s} : T.job k = .running done (.right :: fs) →
      JobStep body T s (T.set k (.running done fs)) s
  | wait {T : JobTree C} {k j fs s} : T.job k = .running done (.left j :: fs) →
      JobStep body T s (T.set k (.running done (.wait j :: fs))) s
  | joined {T : JobTree C} {k j fs s} : T.job k = .running done (.wait j :: fs) → T.job j = .ended →
      JobStep body T s (T.set k (.running done fs)) s
  | start {T : JobTree C} {k t s} : T.job k = .queued t → JobStep body T s (T.set k (.running t [])) s
  | finish {T : JobTree C} {k s} : T.job k = .running done [] → JobStep body T s (T.set k .ended) s

namespace JobTree

variable {T T' : JobTree C} {x : Job C}

/-! ## The invariant -/

/-- each job has one parent, which is older -/
structure Inv (T : JobTree C) : Prop where
  refs : Apart fun k => (T.job k).refs
  order : ∀ k, ∀ j ∈ (T.job k).refs, k < j ∧ j < T.fresh
  parent : ∀ k, T.job k ≠ .ended → k = 0 ∨ ∃ p, k ∈ (T.job p).refs
  small : ∀ k, T.job k ≠ .ended → k < T.fresh

theorem root_ne (t : Proc C) (hk : k ≠ 0) : (root t).job k = .ended := if_neg hk

theorem refs_root (t : Proc C) (k : ℕ) : ((root t).job k).refs = [] := by
  by_cases hk : k = 0
  · subst hk
    rfl
  · rw [root_ne t hk]
    rfl

theorem inv_root (t : Proc C) : (root t).Inv := by
  refine ⟨⟨fun k => ?_, fun i j x hi => ?_⟩, fun k j hj => ?_, fun k hk => ?_, fun k hk => ?_⟩
  · rw [refs_root]
    exact List.nodup_nil
  · rw [refs_root] at hi
    cases hi
  · rw [refs_root] at hj
    cases hj
  · exact Or.inl (by_contra fun h0 => hk (root_ne t h0))
  · have h0 : k = 0 := by_contra fun h0 => hk (root_ne t h0)
    rw [h0]
    exact Nat.one_pos

/-- the job `k` goes on with the same references -/
theorem Inv.same (h : T.Inv) (hk : T.job k ≠ .ended) (hx : x.refs = (T.job k).refs) : (T.set k x).Inv := by
  have hrefs : ∀ i, ((T.set k x).job i).refs = (T.job i).refs := by
    intro i
    by_cases hi : i = k
    · rw [hi, set_self, hx]
    · rw [set_ne hi]
  have hended : ∀ i, (T.set k x).job i ≠ .ended → T.job i ≠ .ended := by
    intro i hi
    by_cases hik : i = k
    · rwa [hik]
    · rwa [set_ne hik] at hi
  refine ⟨h.refs.less fun i => by rw [hrefs], fun i j hj => ?_, fun i hi => ?_, fun i hi => h.small i (hended i hi)⟩
  · rw [hrefs] at hj
    exact h.order i j hj
  · refine (h.parent i (hended i hi)).imp_right fun ⟨p, hp⟩ => ⟨p, ?_⟩
    rwa [hrefs]

/-- the job `k` forks a job off -/
theorem Inv.fork (h : T.Inv) {t : Proc C} (hk : T.job k = .running (par t u) fs) :
    ((T.fork u).set k (.running t (.left T.fresh :: fs))).Inv := by
  have hlt : k < T.fresh := h.small k (by rw [hk]; exact fun he => nomatch he)
  have hfresh : T.job T.fresh = .ended := by_contra fun he => (h.small _ he).false
  have hnew : ∀ i, i ≠ k → i ≠ T.fresh →
      ((T.fork u).set k (.running t (.left T.fresh :: fs))).job i = T.job i := by
    intro i hi hif
    rw [set_ne hi, fork_ne hif]
  have hjob : ((T.fork u).set k (.running t (.left T.fresh :: fs))).job T.fresh = .made u := by
    rw [set_ne hlt.ne', fork_self]
  have hk' : (T.job k).refs = HeavyLight.refs fs := by
    rw [hk]
    rfl
  have hrefs : ∀ i, i ≠ k →
      (((T.fork u).set k (.running t (.left T.fresh :: fs))).job i).refs = (T.job i).refs := by
    intro i hi
    by_cases hif : i = T.fresh
    · rw [hif, hjob, hfresh]
      rfl
    · rw [hnew i hi hif]
  have hself : (((T.fork u).set k (.running t (.left T.fresh :: fs))).job k).refs = T.fresh :: (T.job k).refs := by
    rw [set_self, hk']
    rfl
  refine ⟨h.refs.more (fun i hi => (h.order i _ hi).2.false) (k := k) (by rw [hself]) hrefs, fun i j hj => ?_,
    fun i hi => ?_, fun i hi => ?_⟩
  · by_cases hik : i = k
    · rw [hik, hself] at hj
      rcases List.mem_cons.1 hj with rfl | hj
      · exact ⟨hik ▸ hlt, Nat.lt_succ_self _⟩
      · obtain ⟨hkj, hj⟩ := h.order k j hj
        exact ⟨hik ▸ hkj, hj.trans (Nat.lt_succ_self _)⟩
    · rw [hrefs i hik] at hj
      exact (h.order i j hj).imp_right fun hj => hj.trans (Nat.lt_succ_self _)
  · by_cases hif : i = T.fresh
    · refine Or.inr ⟨k, ?_⟩
      rw [hself, hif]
      exact List.mem_cons_self
    · have hi' : T.job i ≠ .ended := by
        by_cases hik : i = k
        · rw [hik, hk]
          exact fun he => nomatch he
        · rwa [hnew i hik hif] at hi
      refine (h.parent i hi').imp_right fun ⟨p, hp⟩ => ⟨p, ?_⟩
      by_cases hpk : p = k
      · rw [hpk, hself]
        exact List.mem_cons_of_mem _ (hpk ▸ hp)
      · rwa [hrefs p hpk]
  · by_cases hif : i = T.fresh
    · rw [hif]
      exact Nat.lt_succ_self _
    · by_cases hik : i = k
      · exact hik ▸ hlt.trans (Nat.lt_succ_self _)
      · rw [hnew i hik hif] at hi
        exact (h.small i hi).trans (Nat.lt_succ_self _)

/-- the job `k` no longer refers to `j`, which has ended -/
theorem Inv.join (h : T.Inv) (hk : T.job k ≠ .ended) (hx : (T.job k).refs = j :: x.refs)
    (hj : (T.job j).refs = []) : ((T.set j .ended).set k x).Inv := by
  have hkj : k < j := (h.order k j (by rw [hx]; exact List.mem_cons_self)).1
  have hnew : ∀ i, i ≠ k → i ≠ j → ((T.set j .ended).set k x).job i = T.job i := by
    intro i hi hij
    rw [set_ne hi, set_ne hij]
  have hjob : ((T.set j .ended).set k x).job j = .ended := by
    rw [set_ne hkj.ne', set_self]
  have hrefs : ∀ i, i ≠ k → (((T.set j .ended).set k x).job i).refs = (T.job i).refs := by
    intro i hi
    by_cases hij : i = j
    · rw [hij, hjob, hj]
      rfl
    · rw [hnew i hi hij]
  have hself : (((T.set j .ended).set k x).job k).refs = x.refs := by
    rw [set_self]
  have hless : ∀ i, (((T.set j .ended).set k x).job i).refs.Sublist (T.job i).refs := by
    intro i
    by_cases hi : i = k
    · rw [hi, hself, hx]
      exact List.sublist_cons_self _ _
    · rw [hrefs i hi]
  have hended : ∀ i, ((T.set j .ended).set k x).job i ≠ .ended → i ≠ j ∧ T.job i ≠ .ended := by
    intro i hi
    by_cases hij : i = j
    · exact absurd (hij ▸ hjob) hi
    · refine ⟨hij, ?_⟩
      by_cases hik : i = k
      · rwa [hik]
      · rwa [hnew i hik hij] at hi
  refine ⟨h.refs.less hless, fun i m hm => h.order i m ((hless i).subset hm), fun i hi => ?_,
    fun i hi => h.small i (hended i hi).2⟩
  obtain ⟨hij, hi'⟩ := hended i hi
  refine (h.parent i hi').imp_right fun ⟨p, hp⟩ => ⟨p, ?_⟩
  by_cases hpk : p = k
  · rw [hpk, hx] at hp
    rw [hpk, hself]
    exact (List.mem_cons.1 hp).resolve_left hij
  · rwa [hrefs p hpk]

/-- what remains of each job -/
def Rest (T : JobTree C) (J : ℕ → Proc C) : Prop := ∀ k, J k = (T.job k).rest J

theorem rest_root (t : Proc C) : (root t).Rest fun k => if k = 0 then t else done := by
  intro k
  by_cases hk : k = 0
  · subst hk
    rfl
  · rw [root_ne t hk]
    exact if_neg hk

/-- what goes on in a job goes on in its ancestors -/
theorem Inv.lift {R : Proc C → Proc C → Prop} (hR : Contextual R) (h : T.Inv) (hk : T.job k ≠ .ended)
    (hJ : ∀ i, i ≠ k → J i = (T.job i).rest J) (hs : R (J k) ((T.job k).rest J)) : ∃ J', T.Rest J' ∧ R (J 0) (J' 0) := by
  -- from the job to its parent, which is older
  induction k using Nat.strong_induction_on generalizing J with
  | _ k ih =>
    have hkk : k ∉ (T.job k).refs := fun hm => (h.order k k hm).1.false
    have hself : (Function.update J k ((T.job k).rest J)) k = (T.job k).rest J := Function.update_self _ _ _
    have hne : ∀ i, i ≠ k → (Function.update J k ((T.job k).rest J)) i = J i := fun i hi => Function.update_of_ne hi _ _
    generalize Function.update J k ((T.job k).rest J) = J₁ at hself hne
    have hJ₁ : ∀ i, k ∉ (T.job i).refs → J₁ i = (T.job i).rest J₁ := by
      intro i hi
      rw [Job.rest_congr fun j hj => hne j fun he => hi (he ▸ hj)]
      by_cases hik : i = k
      · rw [hik, hself]
      · rw [hne i hik, hJ i hik]
    rcases h.parent k hk with rfl | ⟨p, hp⟩
    · refine ⟨J₁, fun i => hJ₁ i fun hi => ?_, hself ▸ hs⟩
      exact absurd (h.order i 0 hi).1 (Nat.not_lt_zero i)
    · have hpk := (h.order p k hp).1
      have hstep : R (J₁ p) ((T.job p).rest J₁) := by
        rw [hne p hpk.ne, hJ p hpk.ne]
        cases hjob : T.job p with
        | ended =>
          rw [hjob] at hp
          cases hp
        | made t =>
          rw [hjob] at hp
          cases hp
        | queued t =>
          rw [hjob] at hp
          cases hp
        | running t fs =>
          have hnodup := h.refs.nodup p
          simp only [hjob] at hp hnodup
          exact hR.seg_ref hp hnodup (hself ▸ hs) hne t
      have hended : T.job p ≠ .ended := by
        intro he
        rw [he] at hp
        cases hp
      obtain ⟨J', hJ', hstep'⟩ := ih p hpk hended (fun i hi => hJ₁ i fun hm => hi (h.refs.unique i p k hm hp)) hstep
      have h0 : J₁ 0 = J 0 := hne 0 (Nat.zero_le p |>.trans_lt hpk).ne
      exact ⟨J', hJ', h0 ▸ hstep'⟩

/-- what holds of a job, and of each job that refers to one of which it holds, holds of job 0 -/
theorem Inv.lift_root (h : T.Inv) (hJ : T.Rest J) {p : Proc C → Prop}
    (hp : ∀ {j : ℕ} {fs : List (Frame C)}, j ∈ HeavyLight.refs fs → ∀ t, p (J j) → p (seg J t fs))
    (hk : T.job k ≠ .ended) (hpk : p (J k)) : p (J 0) := by
  induction k using Nat.strong_induction_on with
  | _ k ih =>
    rcases h.parent k hk with rfl | ⟨i, hi⟩
    · exact hpk
    · have hended : T.job i ≠ .ended := by
        intro he
        rw [he] at hi
        cases hi
      refine ih i (h.order i k hi).1 hended ?_
      rw [hJ i]
      cases hjob : T.job i with
      | ended => exact absurd hjob hended
      | made t =>
        rw [hjob] at hi
        cases hi
      | queued t =>
        rw [hjob] at hi
        cases hi
      | running t fs =>
        rw [hjob] at hi
        exact hp hi t hpk

/-- so is a fault -/
theorem Inv.faults (h : T.Inv) (hJ : T.Rest J) (hk : T.job k ≠ .ended) (hf : Faults body (J k) s) : Faults body (J 0) s :=
  h.lift_root hJ (p := fun t => Faults body t s) (fun hj t hf => faults_seg_ref hj hf t) hk hf

end JobTree

/-! ## The size -/

/-- a bound on the steps before the next call or join -/
def Proc.jobSize : Proc C → ℕ
  | done => 0
  | call _ => 0
  | seq t u => t.jobSize + u.jobSize + 1
  | par t u => t.jobSize + u.jobSize + 5

def framesSize : List (Frame C) → ℕ
  | [] => 0
  | .next u :: fs => u.jobSize + framesSize fs
  | .left _ :: fs => 1 + framesSize fs
  | .right :: fs => framesSize fs
  | .wait _ :: fs => framesSize fs

namespace Job

def size : Job C → ℕ
  | ended => 0
  | made t => t.jobSize + 3
  | queued t => t.jobSize + 2
  | running t fs => t.jobSize + framesSize fs + 1

end Job

namespace JobTree

variable {T T' : JobTree C} {x : Job C}

/-- a measure of the jobs, over all of them -/
def total (m : Job C → ℕ) (T : JobTree C) : ℕ := ∑ k ∈ Finset.range T.fresh, m (T.job k)

theorem total_set (m : Job C → ℕ) (hk : k < T.fresh) (x : Job C) :
    (T.set k x).total m + m (T.job k) = T.total m + m x := by
  have hmem : k ∈ Finset.range T.fresh := Finset.mem_range.2 hk
  have hrest : ∑ i ∈ (Finset.range T.fresh).erase k, m ((T.set k x).job i) =
      ∑ i ∈ (Finset.range T.fresh).erase k, m (T.job i) :=
    Finset.sum_congr rfl fun i hi => by rw [set_ne (Finset.ne_of_mem_erase hi)]
  have h₁ := Finset.add_sum_erase (Finset.range T.fresh) (fun i => m ((T.set k x).job i)) hmem
  have h₂ := Finset.add_sum_erase (Finset.range T.fresh) (fun i => m (T.job i)) hmem
  simp only [set_self] at h₁
  simp only [total, set_fresh]
  omega

theorem total_fork (m : Job C → ℕ) (T : JobTree C) (u : Proc C) : (T.fork u).total m = T.total m + m (.made u) := by
  have hrest : ∑ i ∈ Finset.range T.fresh, m ((T.fork u).job i) = ∑ i ∈ Finset.range T.fresh, m (T.job i) :=
    Finset.sum_congr rfl fun i hi => by rw [fork_ne (Finset.mem_range.1 hi).ne]
  rw [total, fork_fresh, Finset.sum_range_succ, hrest, fork_self]
  rfl

def size (T : JobTree C) : ℕ := T.total Job.size

theorem size_set (hk : k < T.fresh) (x : Job C) : (T.set k x).size + (T.job k).size = T.size + x.size :=
  total_set Job.size hk x

theorem size_fork (T : JobTree C) (u : Proc C) : (T.fork u).size = T.size + (u.jobSize + 3) := total_fork Job.size T u

/-- a step that leaves what remains of its job -/
theorem Rest.set (hJ : T.Rest J) (hx : x.rest J = (T.job k).rest J) : (T.set k x).Rest J := by
  intro i
  by_cases hi : i = k
  · rw [hi, set_self, hx, hJ k]
  · rw [set_ne hi, hJ i]

theorem Inv.lift_set {R : Proc C → Proc C → Prop} (hR : Contextual R) (h : (T.set k x).Inv) (hx : x ≠ .ended)
    (hJ : T.Rest J) (hs : R ((T.job k).rest J) (x.rest J)) : ∃ J', (T.set k x).Rest J' ∧ R (J 0) (J' 0) := by
  refine h.lift (k := k) hR (by rwa [set_self]) (fun i hi => ?_) ?_
  · rw [set_ne hi, hJ i]
  · rwa [set_self, hJ k]

end JobTree

/-! ## Steps -/

variable {T T' : JobTree C}

theorem JobStep.inv (h : T.Inv) (hs : JobStep body T s T' s') : T'.Inv := by
  have hended : ∀ {k t fs}, T.job k = .running t fs → T.job k ≠ .ended := by
    intro k t fs hk he
    rw [hk] at he
    cases he
  cases hs with
  | call hk _ => exact h.same (hended hk) (by rw [hk]; rfl)
  | seq hk => exact h.same (hended hk) (by rw [hk]; rfl)
  | next hk => exact h.same (hended hk) (by rw [hk]; rfl)
  | fork hk => exact h.fork hk
  | push hj => exact h.same (by rw [hj]; exact fun he => nomatch he) (by rw [hj]; rfl)
  | inline hk hj => exact h.join (hended hk) (by rw [hk]; rfl) (by rw [hj]; rfl)
  | right hk => exact h.same (hended hk) (by rw [hk]; rfl)
  | wait hk => exact h.same (hended hk) (by rw [hk]; rfl)
  | @joined k j fs _ hk hj =>
    have hset : T.set j .ended = T := by
      rw [JobTree.set, ← hj, Function.update_eq_self]
    rw [← hset]
    exact h.join (hended hk) (by rw [hk]; rfl) (by rw [hj]; rfl)
  | start hk => exact h.same (by rw [hk]; exact fun he => nomatch he) (by rw [hk]; rfl)
  | finish hk => exact h.same (hended hk) (by rw [hk]; rfl)

/-- **Simulation.** Each step of a job is a step of the program of job 0, or leaves it and makes the tree smaller. -/
theorem JobStep.simulates (h : T.Inv) (hJ : T.Rest J) (hs : JobStep body T s T' s') :
    ∃ J', T'.Rest J' ∧ (J' 0 = J 0 ∧ s' = s ∧ T'.size < T.size ∨ Step body (J 0) s (J' 0) s') := by
  have hinv := hs.inv h
  have hlt : ∀ {k x}, T.job k = x → x ≠ .ended → k < T.fresh := fun hk hx => h.small _ (hk ▸ hx)
  -- a job goes on alone, and the same remains of it
  have hsame : ∀ {k x y}, T.job k = x → x ≠ .ended → y.rest J = x.rest J → y.size < x.size → ∃ J',
      (T.set k y).Rest J' ∧ (J' 0 = J 0 ∧ s = s ∧ (T.set k y).size < T.size ∨
        Step body (J 0) s (J' 0) s) := by
    intro k x y hk hx hrest hsize
    have := JobTree.size_set (hlt hk hx) y
    rw [hk] at this
    exact ⟨J, hJ.set (by rw [hk, hrest]), Or.inl ⟨rfl, rfl, by omega⟩⟩
  -- a job goes on with a step of its program
  have hreal : ∀ {k x y s'}, T.job k = x → y ≠ .ended → (T.set k y).Inv → Step body (x.rest J) s (y.rest J) s' → ∃ J',
      (T.set k y).Rest J' ∧ (J' 0 = J 0 ∧ s' = s ∧ (T.set k y).size < T.size ∨ Step body (J 0) s (J' 0) s') := by
    intro k x y s' hk hy hinv hstep
    obtain ⟨J', hJ', hstep'⟩ := hinv.lift_set (contextual_step body s s') hy hJ (hk ▸ hstep)
    exact ⟨J', hJ', Or.inr hstep'⟩
  cases hs with
  | @call k c t fs _ _ hk hc => exact hreal hk (fun he => nomatch he) hinv (step_seg (.call hc) fs)
  | @next k u fs _ hk => exact hreal hk (fun he => nomatch he) hinv (step_seg .seqDone fs)
  | @right k fs _ hk => exact hreal hk (fun he => nomatch he) hinv (step_seg .parDone fs)
  | @joined k j fs _ hk hj =>
    have hdone : J j = done := by
      rw [hJ j, hj]
      rfl
    have hrest : (Job.running done (.wait j :: fs)).rest J = seg J (par done done) fs := by
      rw [Job.rest, seg, hdone]
    exact hreal hk (fun he => nomatch he) hinv (hrest ▸ step_seg .parDone fs)
  | @seq k t u fs _ hk =>
    refine hsame hk (fun he => nomatch he) rfl ?_
    simp only [Job.size, Proc.jobSize, framesSize]
    omega
  | @wait k j fs _ hk =>
    refine hsame hk (fun he => nomatch he) rfl ?_
    simp only [Job.size, Proc.jobSize, framesSize]
    omega
  | @push j u _ hj =>
    refine hsame hj (fun he => nomatch he) rfl ?_
    simp only [Job.size]
    omega
  | @start k t _ hk =>
    refine hsame hk (fun he => nomatch he) rfl ?_
    simp only [Job.size, framesSize]
    omega
  | @finish k _ hk =>
    refine hsame hk (fun he => nomatch he) rfl ?_
    simp only [Job.size, framesSize]
    omega
  | @fork k t u fs _ hk =>
    have hkf := hlt hk fun he => nomatch he
    have hself : (Function.update J T.fresh u) T.fresh = u := Function.update_self _ _ _
    have hne : ∀ i, i ≠ T.fresh → (Function.update J T.fresh u) i = J i := fun i hi => Function.update_of_ne hi _ _
    generalize Function.update J T.fresh u = J₁ at hself hne
    refine ⟨J₁, fun i => ?_, Or.inl ⟨hne 0 (by omega), rfl, ?_⟩⟩
    · -- no other job refers to the new one
      have hold : (T.job i).rest J₁ = (T.job i).rest J := Job.rest_congr fun j hj => hne j (h.order i j hj).2.ne
      by_cases hik : i = k
      · rw [hik, hk] at hold
        rw [hik, JobTree.set_self, hne k hkf.ne, hJ k, hk, ← hold]
        show seg J₁ (par t u) fs = seg J₁ (par t (J₁ T.fresh)) fs
        rw [hself]
      · rw [JobTree.set_ne hik]
        by_cases hif : i = T.fresh
        · rw [hif, JobTree.fork_self, hself]
          rfl
        · rw [JobTree.fork_ne hif, hne i hif, hold, hJ i]
    · have h₁ := JobTree.size_set (T := T.fork u) (hkf.trans (Nat.lt_succ_self _)) (.running t (.left T.fresh :: fs))
      rw [JobTree.fork_ne hkf.ne, hk, JobTree.size_fork] at h₁
      simp only [Job.size, Proc.jobSize, framesSize] at h₁
      omega
  | @inline k j u fs _ hk hj =>
    have hmem : j ∈ (T.job k).refs := by
      rw [hk]
      exact List.mem_cons_self
    have hkj := (h.order k j hmem).1
    have hnodup := h.refs.nodup k
    rw [hk] at hnodup
    have hjfs : j ∉ refs fs := (List.nodup_cons.1 hnodup).1
    have hself : (Function.update J j done) j = done := Function.update_self _ _ _
    have hne : ∀ i, i ≠ j → (Function.update J j done) i = J i := fun i hi => Function.update_of_ne hi _ _
    generalize Function.update J j done = J₁ at hself hne
    refine ⟨J₁, fun i => ?_, Or.inl ⟨hne 0 (by omega), rfl, ?_⟩⟩
    · by_cases hik : i = k
      · have hJj : J j = u := by
          rw [hJ j, hj]
          rfl
        have hfs : seg J₁ (par done u) fs = seg J (par done u) fs :=
          seg_congr (fun m hm => hne m fun he => hjfs (he ▸ hm)) _
        rw [hik, JobTree.set_self, hne k hkj.ne, hJ k, hk]
        show seg J (par done (J j)) fs = seg J₁ (par done u) fs
        rw [hJj, hfs]
      · rw [JobTree.set_ne hik]
        by_cases hij : i = j
        · rw [hij, JobTree.set_self, hself]
          rfl
        · -- only `k` refers to `j`
          have hold : (T.job i).rest J₁ = (T.job i).rest J := by
            refine Job.rest_congr fun m hm => hne m fun he => ?_
            exact hik (h.refs.unique i k j (he ▸ hm) hmem)
          rw [JobTree.set_ne hij, hne i hij, hJ i, hold]
    · have h₁ := JobTree.size_set (hlt hj fun he => nomatch he) .ended
      have h₂ := JobTree.size_set (T := T.set j .ended) (hlt hk fun he => nomatch he) (.running u (.right :: fs))
      rw [JobTree.set_ne hkj.ne, hk] at h₂
      rw [hj] at h₁
      simp only [Job.size, Proc.jobSize, framesSize] at h₁ h₂
      omega

/-- a fault of a job is one of the program of job 0 -/
theorem JobTree.Inv.faults_call (h : T.Inv) (hJ : T.Rest J) {c : C} {e : Fault} (hk : T.job k = .running (call c) fs)
    (hc : body c s = .error e) : Faults body (J 0) s := by
  refine h.faults hJ (k := k) (by rw [hk]; exact fun he => nomatch he) ?_
  rw [hJ k, hk]
  exact faults_seg (.call hc) fs

end Jobs

end HeavyLight
