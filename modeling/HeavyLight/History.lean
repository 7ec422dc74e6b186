/-
Histories of fork-join programs: invariants that speak of the calls made so far. A general library over `Traces`.

- `Keeps body next f t inv`: each call of a trace keeps the invariant `inv` of the history and the state.
- `allRuns_of_history`, `exists_run_of_history`: then it holds at the end of all runs, and every trace is a run.
- `Place`: what remains of such a program. `Keeps.step`: its steps are those of `bare next`, the calls without their effects.
- `Control`: a body whose calls do not fault and are followed by `next`, whatever the state.
- `allRuns_iff_traces`: then all runs end with `P` exactly when the effects of every trace lead to `P`.
- `Guarded needs E l`: every call of `l` comes after the calls it needs, or these are in `E`. `Guarded.append`,
  `Guarded.shuffle`, `Guarded.parAll`: kept by sequences and by parallel programs.
-/
import HeavyLight.Traces

namespace HeavyLight

open Proc

section History

variable {C D σ : Type} {body : Body D σ} {next : C → Proc C} {f : C → D} {t t' : Proc C} {x : Proc D} {o : Option C}
  {l : List C} {s s' : σ} {k : ℕ} {P : σ → Prop}

/-! ## Moves and steps -/

/-- a call that faults is the next call of some move -/
theorem faults_map (next : C → Proc C) (h : Faults body (t.map f) s) :
    ∃ d t' e, Move next t (some d) t' ∧ body (f d) s = .error e := by
  induction t with
  | done => cases h
  | call c =>
    cases h with
    | call he => exact ⟨c, _, _, .call, he⟩
  | seq t u ih _ =>
    cases h with
    | seq h =>
      obtain ⟨d, t', e, hm, he⟩ := ih h
      exact ⟨d, _, e, .seqStep hm, he⟩
  | par t u iht ihu =>
    cases h with
    | parLeft h =>
      obtain ⟨d, t', e, hm, he⟩ := iht h
      exact ⟨d, _, e, .parLeft hm, he⟩
    | parRight h =>
      obtain ⟨d, u', e, hm, he⟩ := ihu h
      exact ⟨d, _, e, .parRight hm, he⟩

/-- what a step of the calls `f c` is: a move without a call, or the move of a call when `next` follows it -/
def StepOf (body : Body D σ) (next : C → Proc C) (f : C → D) (t : Proc C) (s : σ) (x : Proc D) (s' : σ) : Prop :=
  (∃ t', Move next t none t' ∧ x = t'.map f ∧ s' = s) ∨
    ∃ d t' r, Move next t (some d) t' ∧ body (f d) s = .ok (s', r) ∧ (r = (next d).map f → x = t'.map f)

theorem step_map (next : C → Proc C) (h : Step body (t.map f) s x s') : StepOf body next f t s x s' := by
  induction t generalizing x with
  | done => cases h
  | call c =>
    cases h with
    | call hr => exact Or.inr ⟨c, next c, x, .call, hr, fun h => h⟩
  | seq t u ih _ =>
    have hcase : ∀ y : Proc D, y = t.map f → Step body (seq y (u.map f)) s x s' →
        StepOf body next f (seq t u) s x s' := by
      intro y hy hs
      cases hs with
      | seqStep hs₁ =>
        subst hy
        rcases ih hs₁ with ⟨t', hm, rfl, rfl⟩ | ⟨d, t', r, hm, hr, hx⟩
        · exact Or.inl ⟨seq t' u, .seqStep hm, rfl, rfl⟩
        · exact Or.inr ⟨d, seq t' u, r, .seqStep hm, hr, fun h => by rw [hx h]; rfl⟩
      | seqDone =>
        obtain rfl := map_eq_done.1 hy.symm
        exact Or.inl ⟨u, .seqDone, rfl, rfl⟩
    exact hcase _ rfl h
  | par t u iht ihu =>
    have hcase : ∀ y z : Proc D, y = t.map f → z = u.map f → Step body (par y z) s x s' →
        StepOf body next f (par t u) s x s' := by
      intro y z hy hz hs
      cases hs with
      | parLeft hs₁ =>
        subst hy hz
        rcases iht hs₁ with ⟨t', hm, rfl, rfl⟩ | ⟨d, t', r, hm, hr, hx⟩
        · exact Or.inl ⟨par t' u, .parLeft hm, rfl, rfl⟩
        · exact Or.inr ⟨d, par t' u, r, .parLeft hm, hr, fun h => by rw [hx h]; rfl⟩
      | parRight hs₁ =>
        subst hy hz
        rcases ihu hs₁ with ⟨u', hm, rfl, rfl⟩ | ⟨d, u', r, hm, hr, hx⟩
        · exact Or.inl ⟨par t u', .parRight hm, rfl, rfl⟩
        · exact Or.inr ⟨d, par t u', r, .parRight hm, hr, fun h => by rw [hx h]; rfl⟩
      | parDone =>
        obtain rfl := map_eq_done.1 hy.symm
        obtain rfl := map_eq_done.1 hz.symm
        exact Or.inl ⟨done, .parDone, rfl, rfl⟩
    exact hcase _ _ rfl rfl h

/-- a move without a call is a step -/
theorem Move.quiet_step (h : Move next t o t') (ho : o = none) (s : σ) : Step body (t.map f) s (t'.map f) s := by
  induction h with
  | call => cases ho
  | seqStep _ ih => exact .seqStep (ih ho)
  | seqDone => exact .seqDone
  | parLeft _ ih => exact .parLeft (ih ho)
  | parRight _ ih => exact .parRight (ih ho)
  | parDone => exact .parDone

theorem Quiet.steps (h : Quiet next t t') (s : σ) : Steps body (t.map f, s) (t'.map f, s) :=
  Relation.ReflTransGen.lift (fun t => (Proc.map f t, s)) (fun _ _ hm => hm.quiet_step rfl s) _ _ h

/-- and so is the move of a call that is followed by `next` -/
theorem Move.call_step {d : C} (h : Move next t o t') (ho : o = some d)
    (hr : body (f d) s = .ok (s', (next d).map f)) : Step body (t.map f) s (t'.map f) s' := by
  induction h with
  | call =>
    cases ho
    exact .call hr
  | seqStep _ ih => exact .seqStep (ih ho)
  | seqDone => cases ho
  | parLeft _ ih => exact .parLeft (ih ho)
  | parRight _ ih => exact .parRight (ih ho)
  | parDone => cases ho

/-! ## Invariants of histories -/

/-- each call of a trace keeps the invariant `inv p s` of the calls `p` made so far and the state, from any state in which
it holds at that place -/
def Keeps (body : Body D σ) (next : C → Proc C) (f : C → D) (t : Proc C) (inv : List C → σ → Prop) : Prop :=
  ∀ p d q s, Traces next t (p ++ d :: q) → inv p s →
    ∃ s', body (f d) s = .ok (s', (next d).map f) ∧ inv (p ++ [d]) s'

/-- **All runs** end in a state in which the invariant holds of a whole trace. -/
theorem allRuns_of_history {inv : List C → σ → Prop} (hk : Cost next t k) (hkeep : Keeps body next f t inv)
    (hend : ∀ l s, Traces next t l → inv l s → P s) (h0 : inv [] s) : AllRuns body P (t.map f) s := by
  -- what remains of the program, `u`, continues the history `p`
  have hgen : ∀ k u p s, Cost next u k → (∀ l, Traces next u l → Traces next t (p ++ l)) → inv p s →
      AllRuns body P (u.map f) s := by
    intro k
    induction k using Nat.strong_induction_on with
    | _ k ih =>
      intro u p s hu htr hinv
      refine .intro ?_ ?_ ?_
      · intro hf
        obtain ⟨d, u', e, hm, he⟩ := faults_map next hf
        obtain ⟨q, hq⟩ := hm.exists_trace hu
        obtain ⟨s', hs', -⟩ := hkeep p d q s (htr _ hq) hinv
        rw [he] at hs'
        cases hs'
      · intro hd
        obtain rfl := map_eq_done.1 hd
        have hdone := htr [] .done
        rw [List.append_nil] at hdone
        exact hend p s hdone hinv
      · intro x s' hs
        rcases step_map next hs with ⟨u', hm, rfl, rfl⟩ | ⟨d, u', r, hm, hr, hx⟩
        · obtain ⟨k', hlt, hk'⟩ := hm.cost hu
          exact ih k' hlt u' p _ hk' (fun l hl => htr l (hm.traces hl)) hinv
        · obtain ⟨k', hlt, hk'⟩ := hm.cost hu
          obtain ⟨q, hq⟩ := hm.exists_trace hu
          obtain ⟨s₁, hs₁, hinv₁⟩ := hkeep p d q s (htr _ hq) hinv
          rw [hr] at hs₁
          cases hs₁
          rw [hx rfl]
          refine ih k' hlt u' (p ++ [d]) _ hk' (fun l hl => ?_) hinv₁
          rw [List.append_assoc]
          exact htr _ (hm.traces hl)
  exact hgen k t [] s hk (fun l hl => hl) h0

/-- **Every trace is a run**, which ends in a state in which the invariant holds of the trace. -/
theorem exists_run_of_history {inv : List C → σ → Prop} (hkeep : Keeps body next f t inv) (hl : Traces next t l)
    (h0 : inv [] s) : ∃ s', Steps body (t.map f, s) (Proc.done, s') ∧ inv l s' := by
  have hgen : ∀ q u p s, Traces next u q → (∀ l, Traces next u l → Traces next t (p ++ l)) → inv p s →
      ∃ s', Steps body (u.map f, s) (Proc.done, s') ∧ inv (p ++ q) s' := by
    intro q
    induction q with
    | nil =>
      intro u p s hu _ hinv
      rw [List.append_nil]
      exact ⟨s, (hu.quiet rfl).steps s, hinv⟩
    | cons d q ih =>
      intro u p s hu htr hinv
      obtain ⟨u₁, u', hq, hm, hu'⟩ := hu.first rfl
      obtain ⟨s₁, hs₁, hinv₁⟩ := hkeep p d q s (htr _ hu) hinv
      have htr' : ∀ l, Traces next u' l → Traces next t (p ++ [d] ++ l) := by
        intro l hl
        rw [List.append_assoc]
        exact htr _ (hq.traces (hm.traces hl))
      obtain ⟨s', hs', hinv'⟩ := ih u' (p ++ [d]) s₁ hu' htr' hinv₁
      rw [List.append_assoc] at hinv'
      exact ⟨s', (hq.steps s).trans (.head (hm.call_step rfl hs₁) hs'), hinv'⟩
  exact hgen l t [] s hl (fun l hl => hl) h0

/-! ## Steps without effects -/

/-- the calls without their effects -/
def bare (next : C → Proc C) : Body C Unit := fun c s => .ok (s, next c)

theorem Move.bare_step (h : Move next t o t') : Step (bare next) t () t' () := by
  induction h with
  | call => exact .call rfl
  | seqStep _ ih => exact .seqStep ih
  | seqDone => exact .seqDone
  | parLeft _ ih => exact .parLeft ih
  | parRight _ ih => exact .parRight ih
  | parDone => exact .parDone

/-- `u` remains of the program `t` after some history with which `inv` holds of the state -/
def Place (next : C → Proc C) (t : Proc C) (inv : List C → σ → Prop) (u : Proc C) (s : σ) : Prop :=
  ∃ p k, Cost next u k ∧ (∀ l, Traces next u l → Traces next t (p ++ l)) ∧ inv p s

theorem place_start {inv : List C → σ → Prop} (hk : Cost next t k) (h0 : inv [] s) : Place next t inv t s :=
  ⟨[], k, hk, fun _ hl => hl, h0⟩

/-- **Each step** of a program that keeps an invariant of its histories is one of its calls without their effects. -/
theorem Keeps.step {inv : List C → σ → Prop} {u : Proc C} (h : Keeps body next f t inv) (hp : Place next t inv u s)
    (hs : Step body (u.map f) s x s') : ∃ u', x = u'.map f ∧ Step (bare next) u () u' () ∧ Place next t inv u' s' := by
  obtain ⟨p, k, hk, htr, hinv⟩ := hp
  rcases step_map next hs with ⟨u', hm, rfl, rfl⟩ | ⟨d, u', r, hm, hr, hx⟩
  · obtain ⟨k', -, hk'⟩ := hm.cost hk
    exact ⟨u', rfl, hm.bare_step, p, k', hk', fun l hl => htr l (hm.traces hl), hinv⟩
  · obtain ⟨k', -, hk'⟩ := hm.cost hk
    obtain ⟨q, hq⟩ := hm.exists_trace hk
    obtain ⟨s₁, hs₁, hinv₁⟩ := h p d q s (htr _ hq) hinv
    rw [hr] at hs₁
    cases hs₁
    refine ⟨u', hx rfl, hm.bare_step, p ++ [d], k', hk', fun l hl => ?_, hinv₁⟩
    rw [List.append_assoc]
    exact htr _ (hm.traces hl)

end History

/-! ## Calls that can be made in any state -/

/-- under the invariant `Inv` the calls with `Ok` have the effects `eff` and are followed by `next` -/
structure Control {C σ : Type} (body : Body C σ) (next : C → Proc C) (eff : C → σ → σ) (Ok : C → Prop)
    (Inv : σ → Prop) : Prop where
  run : ∀ c s, Ok c → Inv s → body c s = .ok (eff c s, next c)
  inv : ∀ c s, Ok c → Inv s → Inv (eff c s)
  next_ok : ∀ c, Ok c → (next c).All Ok

section Control

variable {C σ : Type} {body : Body C σ} {next : C → Proc C} {eff : C → σ → σ} {Ok : C → Prop} {Inv P : σ → Prop}
  {t : Proc C} {s : σ} {l : List C} {k : ℕ}

/-- the calls of a trace are calls that may be made -/
theorem Traces.all_ok (hc : Control body next eff Ok Inv) (h : Traces next t l) (ht : t.All Ok) : ∀ c ∈ l, Ok c := by
  induction h with
  | done => simp
  | @call c l _ ih =>
    intro d hd
    rcases List.mem_cons.1 hd with rfl | hd
    · exact ht
    · exact ih (hc.next_ok c ht) d hd
  | seq _ _ ih₁ ih₂ =>
    intro c hcl
    rcases List.mem_append.1 hcl with hcl | hcl
    · exact ih₁ ht.1 c hcl
    · exact ih₂ ht.2 c hcl
  | par _ _ hsh ih₁ ih₂ =>
    intro c hcl
    rcases List.mem_append.1 (hsh.perm.mem_iff.1 hcl) with hcl | hcl
    · exact ih₁ ht.1 c hcl
    · exact ih₂ ht.2 c hcl

/-- the state is that of the effects so far -/
theorem Control.keeps (hc : Control body next eff Ok Inv) (ht : t.All Ok) (s₀ : σ) :
    Keeps body next (fun c => c) t fun p s => s = p.foldl (fun s c => eff c s) s₀ ∧ Inv s := by
  intro p d q s hl hinv
  have hok : Ok d := hl.all_ok hc ht d (by simp)
  refine ⟨eff d s, ?_, ?_, hc.inv d s hok hinv.2⟩
  · rw [map_id]
    exact hc.run d s hok hinv.2
  · rw [List.foldl_append, ← hinv.1]
    rfl

/-- **Runs and traces.** Every interleaving ends with `P` exactly when the effects of every trace lead to `P`. -/
theorem allRuns_iff_traces (hc : Control body next eff Ok Inv) (ht : t.All Ok) (hs : Inv s) (hk : Cost next t k) :
    AllRuns body P t s ↔ ∀ l, Traces next t l → P (l.foldl (fun s c => eff c s) s) := by
  refine ⟨?_, ?_⟩
  · intro h l hl
    obtain ⟨s', hs', rfl, -⟩ := exists_run_of_history (hc.keeps ht s) hl ⟨rfl, hs⟩
    rw [map_id] at hs'
    exact (h.steps hs').final
  · intro h
    have hall : AllRuns body P (t.map fun c => c) s := by
      refine allRuns_of_history hk (hc.keeps ht s) (fun l s' hl hinv => ?_) ⟨rfl, hs⟩
      rw [hinv.1]
      exact h l hl
    rwa [map_id] at hall

end Control

/-! ## Calls that need others -/

/-- every call of the list comes after the calls it needs, or these are in `E` -/
def Guarded {C : Type} (needs : C → C → Prop) : Set C → List C → Prop
  | _, [] => True
  | E, c :: l => (∀ e, needs c e → e ∈ E) ∧ Guarded needs (insert c E) l

namespace Guarded

variable {C : Type} {needs : C → C → Prop} {next : C → Proc C} {E F : Set C} {l l₁ l₂ p q : List C} {c d : C}

theorem mono (h : Guarded needs E l) (hEF : E ⊆ F) : Guarded needs F l := by
  induction l generalizing E F with
  | nil => trivial
  | cons c l ih => exact ⟨fun e he => hEF (h.1 e he), ih h.2 (Set.insert_subset_insert hEF)⟩

theorem append (h₁ : Guarded needs E l₁) (h₂ : Guarded needs (E ∪ {c | c ∈ l₁}) l₂) : Guarded needs E (l₁ ++ l₂) := by
  induction l₁ generalizing E with
  | nil => exact h₂.mono (by simp)
  | cons c l₁ ih =>
    refine ⟨h₁.1, ih h₁.2 (h₂.mono ?_)⟩
    rintro x (hx | hx)
    · exact Or.inl (Or.inr hx)
    · exact (List.mem_cons.1 hx).elim (fun h => Or.inl (Or.inl h)) Or.inr

theorem shuffle (h₁ : Guarded needs E l₁) (h₂ : Guarded needs E l₂) (h : Shuffle l₁ l₂ l) : Guarded needs E l := by
  induction h generalizing E with
  | nil => trivial
  | left _ ih => exact ⟨h₁.1, ih h₁.2 (h₂.mono (Set.subset_insert _ _))⟩
  | right _ ih => exact ⟨h₂.1, ih (h₁.mono (Set.subset_insert _ _)) h₂.2⟩

theorem parAll {ts : List (Proc C)} (h : ∀ t ∈ ts, ∀ l, Traces next t l → Guarded needs E l)
    (hl : Traces next (parAll ts) l) : Guarded needs E l := by
  induction ts generalizing l with
  | nil =>
    cases hl
    trivial
  | cons t ts ih =>
    cases hl with
    | par h₁ h₂ hsh =>
      exact (h t List.mem_cons_self _ h₁).shuffle (ih (fun u hu => h u (List.mem_cons_of_mem _ hu)) h₂) hsh

/-- the calls that a call needs come before it -/
theorem before (h : Guarded needs E (p ++ d :: q)) {e : C} (he : needs d e) : e ∈ E ∨ e ∈ p := by
  induction p generalizing E with
  | nil => exact Or.inl (h.1 e he)
  | cons c p ih =>
    rcases ih h.2 with (rfl | hE) | hp
    · exact Or.inr List.mem_cons_self
    · exact Or.inl hE
    · exact Or.inr (List.mem_cons_of_mem _ hp)

/-- so they are in the list when it is -/
theorem closed (h : Guarded needs ∅ l) (hd : d ∈ l) {e : C} (he : needs d e) : e ∈ l := by
  obtain ⟨p, q, rfl⟩ := List.append_of_mem hd
  exact List.mem_append_left _ ((h.before he).resolve_left fun hE => hE)

theorem left (h : Guarded needs E (p ++ q)) : Guarded needs E p := by
  induction p generalizing E with
  | nil => trivial
  | cons c p ih => exact ⟨h.1, ih h.2⟩

end Guarded

end HeavyLight
