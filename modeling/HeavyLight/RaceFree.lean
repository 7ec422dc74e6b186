/-
Fork-join programs whose calls are lists of atomic steps, with any steps of other calls in between. A general library over
`Schedules`.

- `Swaps a b`: after `a`, `b` has the effect that it has before. `RaceFree t`: the steps of the two sides of each pair swap.
- `stepwise`: a call makes its first step and is followed by the others. `stepwise_cases`: what it leads to.
- `step_raceFree`: one step of a race-free program, on any of the sides that are open.
- `allRuns_raceFree`: every run of a race-free program ends as the sequential program does.
-/
import HeavyLight.Schedules

namespace HeavyLight

open Proc

section RaceFree

variable {σ ι : Type} {t t' u : Proc (List (σ → Exec σ))} {s s' s₁ s₂ : σ} {l l₁ l₂ : List (σ → Exec σ)} {a b : σ → Exec σ}

/-! ## Steps that swap -/

/-- where `b` is made after `a`, it may be made before -/
def Swaps (a b : σ → Exec σ) : Prop :=
  ∀ s s₁ s₂, a s = .ok s₁ → b s₁ = .ok s₂ → ∃ s', b s = .ok s' ∧ a s' = .ok s₂

/-- one step after the other -/
def runSteps (l : List (σ → Exec σ)) (s : σ) : Exec σ := l.foldlM (fun s a => a s) s

theorem runSteps_cons : runSteps (a :: l) s = .ok s' ↔ ∃ s₁, a s = .ok s₁ ∧ runSteps l s₁ = .ok s' := by
  rw [runSteps, List.foldlM_cons, bind_eq_ok]
  rfl

theorem runSteps_append : runSteps (l₁ ++ l₂) s = .ok s' ↔ ∃ s₁, runSteps l₁ s = .ok s₁ ∧ runSteps l₂ s₁ = .ok s' := by
  rw [runSteps, List.foldlM_append, bind_eq_ok]
  rfl

/-- a step before a list of steps -/
theorem swaps_list (h : ∀ a ∈ l, Swaps a b) (hl : runSteps l s = .ok s₁) (hb : b s₁ = .ok s₂) :
    ∃ s', b s = .ok s' ∧ runSteps l s' = .ok s₂ := by
  induction l generalizing s with
  | nil =>
    cases hl
    exact ⟨s₂, hb, rfl⟩
  | cons a l ih =>
    obtain ⟨x, hx, hl⟩ := runSteps_cons.1 hl
    obtain ⟨y, hy, hl'⟩ := ih (fun a ha => h a (List.mem_cons_of_mem _ ha)) hl
    obtain ⟨z, hz, hzy⟩ := h a List.mem_cons_self s x y hx hy
    exact ⟨z, hz, runSteps_cons.2 ⟨y, hzy, hl'⟩⟩

/-- two lists of steps -/
theorem swaps_lists (h : ∀ a ∈ l₁, ∀ b ∈ l₂, Swaps a b) (hl : runSteps (l₁ ++ l₂) s = .ok s') :
    runSteps (l₂ ++ l₁) s = .ok s' := by
  obtain ⟨x, hx, hl₂⟩ := runSteps_append.1 hl
  induction l₂ generalizing s x with
  | nil =>
    cases hl₂
    exact hx
  | cons b l₂ ih =>
    obtain ⟨y, hy, hl₂'⟩ := runSteps_cons.1 hl₂
    obtain ⟨z, hz, hzy⟩ := swaps_list (fun a ha => h a ha b List.mem_cons_self) hx hy
    have hrest := ih (fun a ha b hb => h a ha b (List.mem_cons_of_mem _ hb)) (runSteps_append.2 ⟨y, hzy, hl₂'⟩) y hzy hl₂'
    exact runSteps_cons.2 ⟨z, hz, hrest⟩

/-! ## Race-free programs -/

/-- the steps of a program, in the order of a sequential run -/
def Proc.steps (t : Proc (List (σ → Exec σ))) : List (σ → Exec σ) := t.leaves.flatten

theorem steps_seq (t u : Proc (List (σ → Exec σ))) : (seq t u).steps = t.steps ++ u.steps := List.flatten_append

theorem steps_par (t u : Proc (List (σ → Exec σ))) : (par t u).steps = t.steps ++ u.steps := List.flatten_append

theorem steps_call (l : List (σ → Exec σ)) : (call l).steps = l := List.append_nil l

/-- the steps of the two sides of each pair swap -/
def RaceFree : Proc (List (σ → Exec σ)) → Prop
  | done => True
  | call _ => True
  | seq t u => RaceFree t ∧ RaceFree u
  | par t u => RaceFree t ∧ RaceFree u ∧ ∀ a ∈ t.steps, ∀ b ∈ u.steps, Swaps a b ∧ Swaps b a

/-- a call makes its first step, and goes on with the others -/
def stepwise : Body (List (σ → Exec σ)) σ
  | [], s => .ok (s, done)
  | a :: l, s => do
    let s ← a s
    return (s, call l)

theorem stepwise_cases (h : stepwise l s = .ok (s', t)) :
    (l = [] ∧ s' = s ∧ t = done) ∨ ∃ a l', l = a :: l' ∧ a s = .ok s' ∧ t = call l' := by
  cases l with
  | nil =>
    cases h
    exact Or.inl ⟨rfl, rfl, rfl⟩
  | cons a l =>
    obtain ⟨s₁, ha, h⟩ := bind_eq_ok.1 h
    cases h
    exact Or.inr ⟨a, l, rfl, ha, rfl⟩

/-- a bound on the steps of the program -/
def Proc.length : Proc (List (σ → Exec σ)) → ℕ
  | done => 0
  | call l => l.length + 1
  | seq t u => t.length + u.length + 1
  | par t u => t.length + u.length + 1

theorem Step.length_lt (h : Step stepwise t s t' s') : t'.length < t.length := by
  induction h with
  | call hr =>
    obtain ⟨rfl, rfl, rfl⟩ | ⟨a, l, rfl, -, rfl⟩ := stepwise_cases hr
    · exact Nat.one_pos
    · exact Nat.lt_succ_self _
  | seqDone =>
    simp only [length]
    omega
  | parDone => exact Nat.zero_lt_succ _
  | _ _ ih =>
    simp only [length]
    omega

/-- a step makes no new ones -/
theorem Step.steps_sublist (h : Step stepwise t s t' s') : t'.steps.Sublist t.steps := by
  induction h with
  | call hr =>
    obtain ⟨rfl, rfl, rfl⟩ | ⟨a, l, rfl, -, rfl⟩ := stepwise_cases hr
    · exact List.Sublist.refl _
    · rw [steps_call, steps_call]
      exact List.sublist_cons_self a l
  | seqDone => exact List.Sublist.refl _
  | parDone => exact List.Sublist.refl _
  | seqStep _ ih =>
    rw [steps_seq, steps_seq]
    exact ih.append (List.Sublist.refl _)
  | parLeft _ ih =>
    rw [steps_par, steps_par]
    exact ih.append (List.Sublist.refl _)
  | parRight _ ih =>
    rw [steps_par, steps_par]
    exact (List.Sublist.refl _).append ih

theorem RaceFree.step (h : RaceFree t) (hs : Step stepwise t s t' s') : RaceFree t' := by
  induction hs with
  | call hr => obtain ⟨-, -, rfl⟩ | ⟨a, l, -, -, rfl⟩ := stepwise_cases hr <;> trivial
  | seqStep _ ih => exact ⟨ih h.1, h.2⟩
  | seqDone => exact h.2
  | parLeft hs ih => exact ⟨ih h.1, h.2.1, fun a ha => h.2.2 a (hs.steps_sublist.subset ha)⟩
  | parRight hs ih => exact ⟨h.1, ih h.2.1, fun a ha b hb => h.2.2 a ha b (hs.steps_sublist.subset hb)⟩
  | parDone => trivial

/-- **One step** of a race-free program that runs in order to `s₂`: so do the steps that remain. -/
theorem step_raceFree (h : RaceFree t) (hs : Step stepwise t s t' s') (hrun : runSteps t.steps s = .ok s₂) :
    runSteps t'.steps s' = .ok s₂ := by
  induction hs generalizing s₂ with
  | call hr =>
    obtain ⟨rfl, rfl, rfl⟩ | ⟨a, l, rfl, ha, rfl⟩ := stepwise_cases hr
    · exact hrun
    · rw [steps_call] at hrun ⊢
      obtain ⟨x, hx, hrun⟩ := runSteps_cons.1 hrun
      cases ha.symm.trans hx
      exact hrun
  | seqStep _ ih =>
    rw [steps_seq] at hrun ⊢
    obtain ⟨x, hx, hu⟩ := runSteps_append.1 hrun
    exact runSteps_append.2 ⟨x, ih h.1 hx, hu⟩
  | seqDone => exact hrun
  | parLeft _ ih =>
    rw [steps_par] at hrun ⊢
    obtain ⟨x, hx, hu⟩ := runSteps_append.1 hrun
    exact runSteps_append.2 ⟨x, ih h.1 hx, hu⟩
  | parRight hs ih =>
    -- the right side could as well run first
    rw [steps_par] at hrun ⊢
    obtain ⟨x, hx, ht⟩ := runSteps_append.1 (swaps_lists (fun a ha b hb => (h.2.2 a ha b hb).1) hrun)
    exact swaps_lists (fun b hb a ha => (h.2.2 a ha b (hs.steps_sublist.subset hb)).2) (runSteps_append.2 ⟨x, ih h.2.1 hx, ht⟩)
  | parDone => exact hrun

theorem not_faults_raceFree (h : RaceFree t) (hrun : runSteps t.steps s = .ok s₂) : ¬ Faults stepwise t s := by
  intro hf
  induction hf generalizing s₂ with
  | @call l s e hr =>
    cases l with
    | nil => cases hr
    | cons a l =>
      rw [steps_call] at hrun
      obtain ⟨x, hx, -⟩ := runSteps_cons.1 hrun
      rw [stepwise, hx] at hr
      cases hr
  | seq _ ih =>
    rw [steps_seq] at hrun
    obtain ⟨x, hx, -⟩ := runSteps_append.1 hrun
    exact ih h.1 hx
  | parLeft _ ih =>
    rw [steps_par] at hrun
    obtain ⟨x, hx, -⟩ := runSteps_append.1 hrun
    exact ih h.1 hx
  | parRight _ ih =>
    rw [steps_par] at hrun
    obtain ⟨x, hx, -⟩ := runSteps_append.1 (swaps_lists (fun a ha b hb => (h.2.2 a ha b hb).1) hrun)
    exact ih h.2.1 hx

/-- **Race-free programs.** Every run ends, without a fault, as the sequential one does. -/
theorem allRuns_raceFree (h : RaceFree t) (hrun : runSteps t.steps s = .ok s') : AllRuns stepwise (fun x => x = s') t s := by
  induction hm : t.length using Nat.strong_induction_on generalizing t s with
  | _ m ih =>
    refine .intro (not_faults_raceFree h hrun) (fun hd => ?_) fun t' s₁ hs => ?_
    · subst hd
      cases hrun
      rfl
    · exact ih t'.length (hm ▸ hs.length_lt) (h.step hs) (step_raceFree h hs hrun) rfl

/-- calls of different numbers whose steps swap -/
theorem raceFree_map {acts : ι → List (σ → Exec σ)} {t : Proc ι} (hnodup : t.leaves.Nodup)
    (h : ∀ i ∈ t.leaves, ∀ j ∈ t.leaves, i ≠ j → ∀ a ∈ acts i, ∀ b ∈ acts j, Swaps a b) : RaceFree (t.map acts) := by
  have hmem : ∀ u : Proc ι, ∀ a ∈ (u.map acts).steps, ∃ i ∈ u.leaves, a ∈ acts i := by
    intro u a ha
    rw [Proc.steps, leaves_map] at ha
    obtain ⟨l, hl, ha⟩ := List.mem_flatten.1 ha
    obtain ⟨i, hi, rfl⟩ := List.mem_map.1 hl
    exact ⟨i, hi, ha⟩
  induction t with
  | done => trivial
  | call i => trivial
  | seq t u iht ihu =>
    have happend := List.nodup_append.1 hnodup
    exact ⟨iht happend.1 fun i hi j hj => h i (List.mem_append_left _ hi) j (List.mem_append_left _ hj),
      ihu happend.2.1 fun i hi j hj => h i (List.mem_append_right _ hi) j (List.mem_append_right _ hj)⟩
  | par t u iht ihu =>
    have happend := List.nodup_append.1 hnodup
    refine ⟨iht happend.1 fun i hi j hj => h i (List.mem_append_left _ hi) j (List.mem_append_left _ hj),
      ihu happend.2.1 fun i hi j hj => h i (List.mem_append_right _ hi) j (List.mem_append_right _ hj), fun a ha b hb => ?_⟩
    obtain ⟨i, hi, ha⟩ := hmem t a ha
    obtain ⟨j, hj, hb⟩ := hmem u b hb
    have hne : i ≠ j := happend.2.2 i hi j hj
    have hi := List.mem_append_left u.leaves hi
    have hj := List.mem_append_right t.leaves hj
    exact ⟨h i hi j hj hne a ha b hb, h j hj i hi hne.symm b hb a ha⟩

end RaceFree

end HeavyLight
