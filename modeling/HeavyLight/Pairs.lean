/-
How many pairs a fork-join program brings in a run, and how many jobs are made for their right sides. A general library over
`JobTree`.

- `Brings body t s m q`: some run of `t` from `s` leads to `q`, and the programs in it have brought `m` pairs so far.
- `Sparing.brings`, `Keeps.brings`: when each call makes for its own pairs and those of the calls that follow, `m` is bounded.
- `JobStep.simulates_brings`: the jobs made, and those that are left to make, are within the pairs of the program of job 0.
-/
import HeavyLight.LeftDepth

namespace HeavyLight

open Proc

section Pairs

variable {C D σ : Type} {body : Body C σ} {next : C → Proc C} {d : C → ℕ} {t t' : Proc C} {s s' : σ} {T T' : JobTree C}
  {J : ℕ → Proc C} {k m : ℕ}

/-! ## Pairs along runs -/

/-- what a run leads to, with the pairs of the program and those of what its calls were followed by -/
inductive Brings (body : Body C σ) (t : Proc C) (s : σ) : ℕ → Proc C × σ → Prop where
  | start : Brings body t s (t.pairs fun _ => 0) (t, s)
  | step {m t' s' t'' s''} : Brings body t s m (t', s') → Step body t' s' t'' s'' →
      Brings body t s (m + ((t''.pairs fun _ => 0) - t'.pairs fun _ => 0)) (t'', s'')

theorem Brings.steps {q : Proc C × σ} (h : Brings body t s m q) : Steps body (t, s) q := by
  induction h with
  | start => exact .refl
  | step _ hs ih => exact ih.tail hs

/-- calls that are followed by no more pairs than their own -/
def Sparing (body : Body C σ) (d : C → ℕ) : Prop := ∀ c s s' t, body c s = .ok (s', t) → t.pairs d ≤ d c

theorem Sparing.step (h : Sparing body d) (hstep : Step body t s t' s') :
    t'.pairs d + ((t'.pairs fun _ => 0) - t.pairs fun _ => 0) + (t.pairs fun _ => 0) ≤ t.pairs d + t'.pairs fun _ => 0 := by
  induction hstep with
  | call hc =>
    have := h _ _ _ _ hc
    simp only [pairs]
    omega
  | seqDone =>
    simp only [pairs]
    omega
  | parDone =>
    simp only [pairs]
    omega
  | _ _ ih =>
    simp only [pairs]
    omega

/-- **Runs** bring no more pairs than those of the program and of its calls. -/
theorem Sparing.brings (h : Sparing body d) {q : Proc C × σ} (hb : Brings body t s m q) : m ≤ t.pairs d := by
  have hall : m + q.1.pairs d ≤ t.pairs d + q.1.pairs fun _ => 0 := by
    induction hb with
    | start => exact (Nat.add_comm _ _).le
    | step _ hs ih =>
      have := h.step hs
      simp only at ih ⊢
      omega
  rw [pairs_eq d q.1] at hall
  omega

/-- **Histories.** So do runs whose calls are followed by `next`. -/
theorem Keeps.brings {body : Body D σ} {f : C → D} {inv : List C → σ → Prop} {q : Proc D × σ} (h : Keeps body next f t inv)
    (hk : Cost next t k) (h0 : inv [] s) (hd : ∀ c, (next c).pairs d ≤ d c) (hb : Brings body (t.map f) s m q) :
    m ≤ t.pairs d := by
  have hsparing : Sparing (bare next) d := by
    intro c _ _ t hc
    cases hc
    exact hd c
  have hall : ∃ u, q.1 = u.map f ∧ Brings (bare next) t () m (u, ()) ∧ Place next t inv u q.2 := by
    induction hb with
    | start =>
      refine ⟨t, rfl, ?_, place_start hk h0⟩
      rw [pairs_map]
      exact .start
    | step _ hs ih =>
      obtain ⟨u, rfl, hbare, hplace⟩ := ih
      obtain ⟨u', rfl, hstep, hplace'⟩ := h.step hplace hs
      refine ⟨u', rfl, ?_, hplace'⟩
      rw [pairs_map, pairs_map]
      exact hbare.step hstep
  obtain ⟨u, -, hbare, -⟩ := hall
  exact hsparing.brings hbare

/-! ## Pairs of jobs -/

/-- the pairs in what follows -/
def framesPairs : List (Frame C) → ℕ
  | [] => 0
  | .next u :: fs => (u.pairs fun _ => 0) + framesPairs fs
  | .left _ :: fs => framesPairs fs
  | .right :: fs => framesPairs fs
  | .wait _ :: fs => framesPairs fs

/-- the pairs of a job for whose right sides no job is made yet -/
def Job.pairs : Job C → ℕ
  | .ended => 0
  | .made t => t.pairs fun _ => 0
  | .queued t => t.pairs fun _ => 0
  | .running t fs => (t.pairs fun _ => 0) + framesPairs fs

/-- the jobs made and those to be made -/
def JobTree.jobs (T : JobTree C) : ℕ := T.fresh + T.total Job.pairs

theorem jobs_root (t : Proc C) : (JobTree.root t).jobs = 1 + t.pairs fun _ => 0 := by
  rw [JobTree.jobs, JobTree.total, show (JobTree.root t).fresh = 1 from rfl, Finset.sum_range_one]
  rfl

/-- a step that goes on in a program, where this brings `m` pairs -/
def BringsStep (body : Body C σ) (s s' : σ) (m : ℕ) (t t' : Proc C) : Prop :=
  Step body t s t' s' ∧ (t'.pairs fun _ => 0) = (t.pairs fun _ => 0) + m

theorem contextual_bringsStep (body : Body C σ) (s s' : σ) (m : ℕ) : Contextual (BringsStep body s s' m) := by
  refine ⟨?_, ?_, ?_⟩
  · rintro t t' u ⟨hs, hm⟩
    refine ⟨.seqStep hs, ?_⟩
    simp only [Proc.pairs, hm]
    omega
  · rintro t t' u ⟨hs, hm⟩
    refine ⟨.parLeft hs, ?_⟩
    simp only [Proc.pairs, hm]
    omega
  · rintro u u' t ⟨hs, hm⟩
    refine ⟨.parRight hs, ?_⟩
    simp only [Proc.pairs, hm]
    omega

/-- only a call brings pairs -/
theorem JobStep.jobs_le (h : T.Inv) (hs : JobStep body T s T' s') : T'.jobs ≤ T.jobs ∨
    ∃ k c t fs, T.job k = .running (.call c) fs ∧ body c s = .ok (s', t) ∧ T' = T.set k (.running t fs) := by
  have hlt : ∀ {k x}, T.job k = x → x ≠ .ended → k < T.fresh := fun hk hx => h.small _ (hk ▸ hx)
  -- a job goes on alone, with no more pairs
  have hsame : ∀ {k x y}, T.job k = x → x ≠ .ended → y.pairs ≤ x.pairs → (T.set k y).jobs ≤ T.jobs := by
    intro k x y hk hx hpairs
    have htotal := JobTree.total_set Job.pairs (hlt hk hx) y
    rw [hk] at htotal
    simp only [JobTree.jobs, JobTree.set_fresh]
    omega
  cases hs with
  | call hk hc => exact Or.inr ⟨_, _, _, _, hk, hc, rfl⟩
  | seq hk =>
    refine Or.inl (hsame hk (by simp) ?_)
    simp only [Job.pairs, Proc.pairs, framesPairs]
    omega
  | next hk =>
    refine Or.inl (hsame hk (by simp) ?_)
    simp only [Job.pairs, Proc.pairs, framesPairs]
    omega
  | push hj => exact Or.inl (hsame hj (by simp) le_rfl)
  | right hk => exact Or.inl (hsame hk (by simp) le_rfl)
  | wait hk => exact Or.inl (hsame hk (by simp) le_rfl)
  | joined hk _ => exact Or.inl (hsame hk (by simp) le_rfl)
  | start hk => exact Or.inl (hsame hk (by simp) le_rfl)
  | finish hk => exact Or.inl (hsame hk (by simp) (Nat.zero_le _))
  | @fork k t u fs _ hk =>
    have hkf := hlt hk (by simp)
    have htotal := JobTree.total_set Job.pairs (T := T.fork u) (hkf.trans (Nat.lt_succ_self _))
      (.running t (.left T.fresh :: fs))
    rw [JobTree.fork_ne hkf.ne, hk, JobTree.total_fork] at htotal
    simp only [Job.pairs, Proc.pairs, framesPairs] at htotal
    refine Or.inl ?_
    simp only [JobTree.jobs, JobTree.set_fresh, JobTree.fork_fresh]
    omega
  | @inline k j u fs _ hk hj =>
    have hmem : j ∈ (T.job k).refs := by
      rw [hk]
      exact List.mem_cons_self
    have hkj := (h.order k j hmem).1
    have h₁ := JobTree.total_set Job.pairs (hlt hj (by simp)) .ended
    have h₂ := JobTree.total_set Job.pairs (T := T.set j .ended) (hlt hk (by simp)) (.running u (.right :: fs))
    rw [JobTree.set_ne hkj.ne, hk] at h₂
    rw [hj] at h₁
    simp only [Job.pairs, Proc.pairs, framesPairs] at h₁ h₂
    refine Or.inl ?_
    simp only [JobTree.jobs, JobTree.set_fresh]
    omega

/-- **Simulation.** While the steps of the jobs are steps of the program of job 0, the jobs are within the pairs it brings. -/
theorem JobStep.simulates_brings (h : T.Inv) (hJ : T.Rest J) (hs : JobStep body T s T' s') {t₀ : Proc C} {s₀ : σ}
    (hb : Brings body t₀ s₀ m (J 0, s)) (hm : T.jobs ≤ 1 + m) :
    ∃ J' m', T'.Rest J' ∧ Brings body t₀ s₀ m' (J' 0, s') ∧ T'.jobs ≤ 1 + m' := by
  rcases hs.jobs_le h with hle | ⟨k, c, t, fs, hk, hc, rfl⟩
  · obtain ⟨J', hJ', ⟨h0, rfl, -⟩ | hstep⟩ := hs.simulates h hJ
    · exact ⟨J', m, hJ', h0 ▸ hb, hle.trans hm⟩
    · exact ⟨J', _, hJ', hb.step hstep, by omega⟩
  · have hinv := hs.inv h
    have hcontext := contextual_bringsStep body s s' (t.pairs fun _ => 0)
    have hcall : BringsStep body s s' (t.pairs fun _ => 0) ((T.job k).rest J) ((Job.running t fs).rest J) := by
      rw [hk]
      exact hcontext.seg ⟨.call hc, (Nat.zero_add _).symm⟩ fs
    obtain ⟨J', hJ', hstep, hpairs⟩ := hinv.lift_set hcontext (by simp) hJ hcall
    have htotal := JobTree.total_set Job.pairs (h.small k (by simp [hk])) (.running t fs)
    rw [hk] at htotal
    simp only [Job.pairs, Proc.pairs] at htotal
    refine ⟨J', _, hJ', hb.step hstep, ?_⟩
    simp only [JobTree.jobs, JobTree.set_fresh] at hm ⊢
    omega

end Pairs

end HeavyLight
