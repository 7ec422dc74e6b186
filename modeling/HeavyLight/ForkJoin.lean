/-
Fork-join programs over a shared state: atomic calls, sequences and parallel pairs, in any interleaving. A general library.

- `Proc C`: what remains of a program with calls from `C`. A `Body` gives each call its effect on the state and what
  follows it, or a fault.
- `Step`: one atomic step of a program; `Faults`: some call that may run next faults.
- `AllRuns body P t s`: every interleaving of `t` from `s` ends, without a fault, in a state with `P`.
- `Embeds`: a program on a part of the state. `allRuns_par_embeds`: two programs on separate parts run as if alone.
-/
import HeavyLight.Exec

namespace HeavyLight

/-- what remains of a fork-join program -/
inductive Proc (C : Type) where
  | done
  | call (c : C)
  | seq (t u : Proc C)
  | par (t u : Proc C)

namespace Proc

variable {C D : Type}

/-- a program with each call replaced by a program -/
def bind : Proc C → (C → Proc D) → Proc D
  | done, _ => done
  | call c, f => f c
  | seq t u, f => seq (t.bind f) (u.bind f)
  | par t u, f => par (t.bind f) (u.bind f)

def map (f : C → D) (t : Proc C) : Proc D := t.bind fun c => call (f c)

theorem map_id (t : Proc C) : t.map (fun c => c) = t := by
  induction t with
  | done => rfl
  | call c => rfl
  | seq t u iht ihu => exact congrArg₂ seq iht ihu
  | par t u iht ihu => exact congrArg₂ par iht ihu

/-- a list of programs in parallel -/
def parAll : List (Proc C) → Proc C
  | [] => done
  | t :: ts => par t (parAll ts)

/-- every call of the program has `p` -/
def All (p : C → Prop) : Proc C → Prop
  | done => True
  | call c => p c
  | seq t u => t.All p ∧ u.All p
  | par t u => t.All p ∧ u.All p

theorem all_parAll {p : C → Prop} {ts : List (Proc C)} (h : ∀ t ∈ ts, t.All p) : (parAll ts).All p := by
  induction ts with
  | nil => trivial
  | cons t ts ih => exact ⟨h t List.mem_cons_self, ih fun u hu => h u (List.mem_cons_of_mem _ hu)⟩

theorem bind_parAll (ts : List (Proc C)) (f : C → Proc D) : (parAll ts).bind f = parAll (ts.map fun t => t.bind f) := by
  induction ts with
  | nil => rfl
  | cons t ts ih =>
    rw [parAll, bind, ih]
    rfl

end Proc

open Proc

/-- the effect of each call and what follows it -/
abbrev Body (C σ : Type) := C → σ → Exec (σ × Proc C)

/-- one atomic step -/
inductive Step {C σ : Type} (body : Body C σ) : Proc C → σ → Proc C → σ → Prop where
  | call {c s t s'} : body c s = .ok (s', t) → Step body (call c) s t s'
  | seqStep {t u s t' s'} : Step body t s t' s' → Step body (seq t u) s (seq t' u) s'
  | seqDone {u s} : Step body (seq done u) s u s
  | parLeft {t u s t' s'} : Step body t s t' s' → Step body (par t u) s (par t' u) s'
  | parRight {t u s u' s'} : Step body u s u' s' → Step body (par t u) s (par t u') s'
  | parDone {s} : Step body (par done done) s done s

/-- a call that may run next faults -/
inductive Faults {C σ : Type} (body : Body C σ) : Proc C → σ → Prop where
  | call {c s e} : body c s = .error e → Faults body (call c) s
  | seq {t u s} : Faults body t s → Faults body (seq t u) s
  | parLeft {t u s} : Faults body t s → Faults body (par t u) s
  | parRight {t u s} : Faults body u s → Faults body (par t u) s

/-- every interleaving of the program ends, without a fault, in a state with `P` -/
inductive AllRuns {C σ : Type} (body : Body C σ) (P : σ → Prop) : Proc C → σ → Prop where
  | intro {t s} (safe : ¬ Faults body t s) (final : t = done → P s)
      (next : ∀ t' s', Step body t s t' s' → AllRuns body P t' s') : AllRuns body P t s

section Runs

variable {C σ : Type} {body : Body C σ} {P Q : σ → Prop} {t u t' : Proc C} {s s' : σ} {c : C}

/-- any number of steps -/
def Steps (body : Body C σ) : Proc C × σ → Proc C × σ → Prop :=
  Relation.ReflTransGen fun p q => Step body p.1 p.2 q.1 q.2

theorem AllRuns.safe (h : AllRuns body P t s) : ¬ Faults body t s := by
  cases h with
  | intro safe _ _ => exact safe

theorem AllRuns.step (h : AllRuns body P t s) (hs : Step body t s t' s') : AllRuns body P t' s' := by
  cases h with
  | intro _ _ next => exact next t' s' hs

theorem AllRuns.steps (h : AllRuns body P t s) (hs : Steps body (t, s) (t', s')) : AllRuns body P t' s' := by
  have hgen : ∀ q : Proc C × σ, Steps body (t, s) q → AllRuns body P q.1 q.2 := by
    intro q hq
    induction hq with
    | refl => exact h
    | tail _ h₁ ih => exact ih.step h₁
  exact hgen _ hs

theorem AllRuns.final (h : AllRuns body P done s) : P s := by
  cases h with
  | intro _ final _ => exact final rfl

theorem allRuns_done : AllRuns body P done s ↔ P s := by
  refine ⟨AllRuns.final, fun h => .intro ?_ (fun _ => h) ?_⟩
  · intro hf; cases hf
  · intro t' s' hs; cases hs

/-- a call that does not fault -/
theorem allRuns_call (h : body c s = .ok (s', t)) : AllRuns body P (call c) s ↔ AllRuns body P t s' := by
  refine ⟨fun hr => hr.step (.call h), fun hr => .intro ?_ (fun he => nomatch he) ?_⟩
  · intro hf
    cases hf with
    | call he => rw [h] at he; cases he
  · intro t₁ s₁ hs
    cases hs with
    | call h₁ =>
      rw [h] at h₁
      cases h₁
      exact hr

theorem not_allRuns_call {e : Fault} (h : body c s = .error e) : ¬ AllRuns body P (call c) s := fun hr =>
  hr.safe (.call h)

theorem AllRuns.mono (h : AllRuns body P t s) (hPQ : ∀ s, P s → Q s) : AllRuns body Q t s := by
  induction h with
  | intro safe final _ ih => exact .intro safe (fun he => hPQ _ (final he)) ih

/-- a program that is not done has a step or a fault -/
theorem progress (ht : t ≠ done) (s : σ) : Faults body t s ∨ ∃ t' s', Step body t s t' s' := by
  induction t with
  | done => exact absurd rfl ht
  | call c =>
    cases hc : body c s with
    | error e => exact Or.inl (.call hc)
    | ok r => exact Or.inr ⟨r.2, r.1, .call hc⟩
  | seq t u ih _ =>
    by_cases hd : t = done
    · subst hd
      exact Or.inr ⟨u, s, .seqDone⟩
    · rcases ih hd with hf | ⟨t', s', hs⟩
      · exact Or.inl (.seq hf)
      · exact Or.inr ⟨_, _, .seqStep hs⟩
  | par t u iht ihu =>
    by_cases hd : t = done
    · by_cases hd' : u = done
      · subst hd hd'
        exact Or.inr ⟨_, _, .parDone⟩
      · rcases ihu hd' with hf | ⟨u', s', hs⟩
        · exact Or.inl (.parRight hf)
        · exact Or.inr ⟨_, _, .parRight hs⟩
    · rcases iht hd with hf | ⟨t', s', hs⟩
      · exact Or.inl (.parLeft hf)
      · exact Or.inr ⟨_, _, .parLeft hs⟩

/-- two properties that every run ends with hold together at the end of some run -/
theorem AllRuns.exists_final (h : AllRuns body P t s) (h' : AllRuns body Q t s) : ∃ s', P s' ∧ Q s' := by
  induction h with
  | @intro t s safe final next ih =>
    by_cases hd : t = done
    · subst hd
      exact ⟨s, final rfl, h'.final⟩
    · obtain ⟨t', s', hs⟩ := (progress hd s).resolve_left safe
      exact ih t' s' hs (h'.step hs)

end Runs

/-! ## Programs on a part of the state -/

section Embed

variable {C D α σ : Type} {body : Body C α} {body' : Body D σ} {f : C → D} {get : σ → α} {put : α → σ → σ}

/-- the calls `f c` of `body'` are the calls `c` of `body` on a part of the state -/
structure Embeds (body : Body C α) (body' : Body D σ) (f : C → D) (get : σ → α) (put : α → σ → σ) : Prop where
  put_get : ∀ s, put (get s) s = s
  get_put : ∀ a s, get (put a s) = a
  run : ∀ c s, body' (f c) s = do
    let r ← body c (get s)
    return (put r.1 s, r.2.map f)

theorem Embeds.call_ok (h : Embeds body body' f get put) {c : C} {s s' : σ} {t' : Proc D}
    (hr : body' (f c) s = .ok (s', t')) : ∃ a t, body c (get s) = .ok (a, t) ∧ s' = put a s ∧ t' = t.map f := by
  rw [h.run, bind_eq_ok] at hr
  obtain ⟨⟨a, t⟩, hc, hr⟩ := hr
  cases hr
  exact ⟨a, t, hc, rfl, rfl⟩

/-- the steps of an embedded program are its own -/
theorem Embeds.step (h : Embeds body body' f get put) {t : Proc C} {s s' : σ} {t' : Proc D}
    (hs : Step body' (t.map f) s t' s') :
    ∃ t₁ a, t' = t₁.map f ∧ s' = put a s ∧ Step body t (get s) t₁ a := by
  induction t generalizing t' with
  | done => cases hs
  | call c =>
    cases hs with
    | call hr =>
      obtain ⟨a, t, hc, rfl, rfl⟩ := h.call_ok hr
      exact ⟨t, a, rfl, rfl, .call hc⟩
  | seq t u ih _ =>
    have hcase : ∀ x : Proc D, x = t.map f → Step body' (seq x (u.map f)) s t' s' →
        ∃ t₁ a, t' = t₁.map f ∧ s' = put a s ∧ Step body (seq t u) (get s) t₁ a := by
      intro x hx hs
      cases hs with
      | seqStep h₁ =>
        subst hx
        obtain ⟨t₁, a, rfl, rfl, h₂⟩ := ih h₁
        exact ⟨seq t₁ u, a, rfl, rfl, .seqStep h₂⟩
      | seqDone =>
        cases t <;> cases hx
        exact ⟨u, get s, rfl, (h.put_get s).symm, .seqDone⟩
    exact hcase _ rfl hs
  | par t u iht ihu =>
    have hcase : ∀ x y : Proc D, x = t.map f → y = u.map f → Step body' (par x y) s t' s' →
        ∃ t₁ a, t' = t₁.map f ∧ s' = put a s ∧ Step body (par t u) (get s) t₁ a := by
      intro x y hx hy hs
      cases hs with
      | parLeft h₁ =>
        subst hx hy
        obtain ⟨t₁, a, rfl, rfl, h₂⟩ := iht h₁
        exact ⟨par t₁ u, a, rfl, rfl, .parLeft h₂⟩
      | parRight h₁ =>
        subst hx hy
        obtain ⟨u₁, a, rfl, rfl, h₂⟩ := ihu h₁
        exact ⟨par t u₁, a, rfl, rfl, .parRight h₂⟩
      | parDone =>
        cases t <;> cases hx
        cases u <;> cases hy
        exact ⟨done, get s, rfl, (h.put_get s).symm, .parDone⟩
    exact hcase _ _ rfl rfl hs

theorem Embeds.step_map (h : Embeds body body' f get put) {t t₁ : Proc C} {s : σ} {a a₁ : α} (ha : get s = a)
    (hs : Step body t a t₁ a₁) : Step body' (t.map f) s (t₁.map f) (put a₁ s) := by
  induction hs with
  | call hc =>
    subst ha
    apply Step.call
    rw [h.run, hc]
    rfl
  | seqStep _ ih => exact .seqStep (ih ha)
  | seqDone =>
    subst ha
    rw [h.put_get]
    exact .seqDone
  | parLeft _ ih => exact .parLeft (ih ha)
  | parRight _ ih => exact .parRight (ih ha)
  | parDone =>
    subst ha
    rw [h.put_get]
    exact .parDone

theorem Embeds.faults (h : Embeds body body' f get put) {t : Proc C} {s : σ} :
    Faults body' (t.map f) s ↔ Faults body t (get s) := by
  induction t with
  | done => exact ⟨fun hf => (nomatch hf), fun hf => (nomatch hf)⟩
  | call c =>
    refine ⟨?_, ?_⟩
    · intro hf
      cases hf with
      | call hr =>
        rw [h.run] at hr
        cases hc : body c (get s) with
        | error e => exact .call hc
        | ok r => rw [hc] at hr; cases hr
    · intro hf
      cases hf with
      | call hc => exact .call (by rw [h.run, hc]; rfl)
  | seq t u ih _ =>
    refine ⟨?_, ?_⟩
    · intro hf
      cases hf with
      | seq hf => exact .seq (ih.1 hf)
    · intro hf
      cases hf with
      | seq hf => exact .seq (ih.2 hf)
  | par t u iht ihu =>
    refine ⟨?_, ?_⟩
    · intro hf
      cases hf with
      | parLeft hf => exact .parLeft (iht.1 hf)
      | parRight hf => exact .parRight (ihu.1 hf)
    · intro hf
      cases hf with
      | parLeft hf => exact .parLeft (iht.2 hf)
      | parRight hf => exact .parRight (ihu.2 hf)

theorem map_eq_done {t : Proc C} : t.map f = done ↔ t = done := by
  refine ⟨?_, ?_⟩
  · intro h
    cases t <;> cases h
    rfl
  · rintro rfl
    rfl

end Embed

section Independent

variable {C₁ C₂ D α β σ : Type} {b₁ : Body C₁ α} {b₂ : Body C₂ β} {body : Body D σ} {f₁ : C₁ → D} {f₂ : C₂ → D}
  {get₁ : σ → α} {put₁ : α → σ → σ} {get₂ : σ → β} {put₂ : β → σ → σ} {P : α → Prop} {Q : β → Prop} {R : σ → Prop}

/-- **Independent programs.** Two programs on separate parts of the state, in parallel, end each as it does alone. -/
theorem allRuns_par_embeds (h₁ : Embeds b₁ body f₁ get₁ put₁) (h₂ : Embeds b₂ body f₂ get₂ put₂)
    (h₁₂ : ∀ a s, get₂ (put₁ a s) = get₂ s) (h₂₁ : ∀ b s, get₁ (put₂ b s) = get₁ s) {t : Proc C₁} {u : Proc C₂}
    {a : α} {b : β} {s : σ} (ht : AllRuns b₁ P t a) (hu : AllRuns b₂ Q u b) (ha : get₁ s = a) (hb : get₂ s = b) :
    AllRuns body (fun s => P (get₁ s) ∧ Q (get₂ s)) (par (t.map f₁) (u.map f₂)) s := by
  -- one of the two programs moves at a time
  induction ht generalizing u b s with
  | @intro t a safe₁ final₁ next₁ ih₁ =>
    induction hu generalizing s with
    | @intro u b safe₂ final₂ next₂ ih₂ =>
      subst ha hb
      refine .intro ?_ (fun he => nomatch he) ?_
      · intro hf
        cases hf with
        | parLeft hf => exact safe₁ (h₁.faults.1 hf)
        | parRight hf => exact safe₂ (h₂.faults.1 hf)
      · intro t' s' hs
        have hcase : ∀ x y : Proc D, x = t.map f₁ → y = u.map f₂ → Step body (par x y) s t' s' →
            AllRuns body (fun s => P (get₁ s) ∧ Q (get₂ s)) t' s' := by
          intro x y hx hy hs
          cases hs with
          | parLeft hs₁ =>
            subst hx hy
            obtain ⟨t₁, a, rfl, rfl, hstep⟩ := h₁.step hs₁
            exact ih₁ t₁ a hstep (.intro safe₂ final₂ next₂) (h₁.get_put a s) (h₁₂ a s)
          | parRight hs₁ =>
            subst hx hy
            obtain ⟨u₁, b, rfl, rfl, hstep⟩ := h₂.step hs₁
            exact ih₂ u₁ b hstep (h₂₁ b s) (h₂.get_put b s)
          | parDone => exact allRuns_done.2 ⟨final₁ (map_eq_done.1 hx.symm), final₂ (map_eq_done.1 hy.symm)⟩
        exact hcase _ _ rfl rfl hs

/-- when a pair of programs always ends, so does each of them alone -/
theorem AllRuns.of_par_right (h₂ : Embeds b₂ body f₂ get₂ put₂) {t : Proc D} {u : Proc C₂} {s : σ}
    (h : AllRuns body R (par t (u.map f₂)) s) : AllRuns b₂ (fun _ => True) u (get₂ s) := by
  generalize hx : par t (u.map f₂) = x at h
  induction h generalizing u with
  | intro safe _ _ ih =>
    subst hx
    refine .intro (fun hf => safe (.parRight (h₂.faults.2 hf))) (fun _ => trivial) fun u' b hs => ?_
    have := ih _ _ (.parRight (h₂.step_map rfl hs)) rfl
    rwa [h₂.get_put] at this

end Independent

end HeavyLight
