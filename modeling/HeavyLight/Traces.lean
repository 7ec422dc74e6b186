/-
Traces of fork-join programs: the orders of the calls, when what follows a call does not depend on the state. A general
library over `ForkJoin`.

- `Shuffle l₁ l₂ l`: `l` is made of `l₁` and `l₂` with the order of each kept.
- `Traces next t l`: `l` is the order of the calls in some interleaving of `t`. `Cost next t k`: `t` ends.
- `Move next t o t'`: a step, with the call it makes. `Move.traces`, `Traces.first`: the first call of a trace and the rest.
- `traces_parAll_nodup`: the calls of programs in parallel that make different calls.
- `exists_trace_unbroken`, `exists_trace_adjacent`: traces of calls in parallel, with one call unbroken, or with one call
  right after another.
- `traces_bind`, `exists_trace_bind`: the traces of a program and of one that leaves out its silent calls.
-/
import HeavyLight.ForkJoin

namespace HeavyLight

open Proc

/-! ## Traces -/

/-- a list made of two lists with the order of each kept -/
inductive Shuffle {C : Type} : List C → List C → List C → Prop where
  | nil : Shuffle [] [] []
  | left {c l₁ l₂ l} : Shuffle l₁ l₂ l → Shuffle (c :: l₁) l₂ (c :: l)
  | right {c l₁ l₂ l} : Shuffle l₁ l₂ l → Shuffle l₁ (c :: l₂) (c :: l)

namespace Shuffle

variable {C D : Type} {l₁ l₂ l : List C}

theorem nil_left (l : List C) : Shuffle [] l l := by
  induction l with
  | nil => exact .nil
  | cons c l ih => exact .right ih

theorem nil_right (l : List C) : Shuffle l [] l := by
  induction l with
  | nil => exact .nil
  | cons c l ih => exact .left ih

theorem eq_of_nil_left (h : Shuffle [] l₂ l) : l = l₂ := by
  induction l₂ generalizing l with
  | nil => cases h; rfl
  | cons c l₂ ih =>
    cases h with
    | right h => rw [ih h]

theorem eq_of_nil_right (h : Shuffle l₁ [] l) : l = l₁ := by
  induction l₁ generalizing l with
  | nil => cases h; rfl
  | cons c l₁ ih =>
    cases h with
    | left h => rw [ih h]

theorem append_left (p : List C) (h : Shuffle l₁ l₂ l) : Shuffle (p ++ l₁) l₂ (p ++ l) := by
  induction p with
  | nil => exact h
  | cons c p ih => exact .left ih

theorem append_right (p : List C) (h : Shuffle l₁ l₂ l) : Shuffle l₁ (p ++ l₂) (p ++ l) := by
  induction p with
  | nil => exact h
  | cons c p ih => exact .right ih

theorem append (l₁ l₂ : List C) : Shuffle l₁ l₂ (l₁ ++ l₂) := by
  have h := (nil_left l₂).append_left l₁
  rwa [List.append_nil] at h

theorem perm (h : Shuffle l₁ l₂ l) : l.Perm (l₁ ++ l₂) := by
  induction h with
  | nil => exact List.Perm.refl _
  | left _ ih => exact ih.cons _
  | right _ ih => exact (ih.cons _).trans List.perm_middle.symm

theorem filterMap (f : C → Option D) (h : Shuffle l₁ l₂ l) :
    Shuffle (l₁.filterMap f) (l₂.filterMap f) (l.filterMap f) := by
  induction h with
  | nil => exact .nil
  | @left c _ _ _ _ ih =>
    rw [List.filterMap_cons, List.filterMap_cons]
    cases f c with
    | none => exact ih
    | some d => exact .left ih
  | @right c _ _ _ _ ih =>
    rw [List.filterMap_cons, List.filterMap_cons]
    cases f c with
    | none => exact ih
    | some d => exact .right ih

/-- a shuffle of images is the image of a shuffle -/
theorem exists_filterMap (f : C → Option D) {m : List D} (h : Shuffle (l₁.filterMap f) (l₂.filterMap f) m) :
    ∃ l, Shuffle l₁ l₂ l ∧ l.filterMap f = m := by
  induction l₁ generalizing l₂ m with
  | nil => exact ⟨l₂, nil_left l₂, (eq_of_nil_left h).symm⟩
  | cons c l₁ ih₁ =>
    induction l₂ generalizing m with
    | nil => exact ⟨c :: l₁, nil_right _, (eq_of_nil_right h).symm⟩
    | cons d l₂ ih₂ =>
      -- an element without image goes first
      cases hc : f c with
      | none =>
        rw [List.filterMap_cons_none hc] at h
        obtain ⟨l, hl, rfl⟩ := ih₁ h
        exact ⟨c :: l, .left hl, List.filterMap_cons_none hc⟩
      | some x =>
        cases hd : f d with
        | none =>
          rw [List.filterMap_cons_none hd] at h
          obtain ⟨l, hl, rfl⟩ := ih₂ h
          exact ⟨d :: l, .right hl, List.filterMap_cons_none hd⟩
        | some y =>
          have h' := h
          rw [List.filterMap_cons_some hc, List.filterMap_cons_some hd] at h'
          cases h' with
          | left h' =>
            rw [← List.filterMap_cons_some (l := l₂) hd] at h'
            obtain ⟨l, hl, rfl⟩ := ih₁ h'
            exact ⟨c :: l, .left hl, List.filterMap_cons_some hc⟩
          | right h' =>
            rw [← List.filterMap_cons_some (l := l₁) hc] at h'
            obtain ⟨l, hl, rfl⟩ := ih₂ h'
            exact ⟨d :: l, .right hl, List.filterMap_cons_some hd⟩

end Shuffle

/-- the orders of the calls in the interleavings of a program in which `next c` follows the call `c` -/
inductive Traces {C : Type} (next : C → Proc C) : Proc C → List C → Prop where
  | done : Traces next done []
  | call {c l} : Traces next (next c) l → Traces next (call c) (c :: l)
  | seq {t u l₁ l₂} : Traces next t l₁ → Traces next u l₂ → Traces next (seq t u) (l₁ ++ l₂)
  | par {t u l₁ l₂ l} : Traces next t l₁ → Traces next u l₂ → Shuffle l₁ l₂ l → Traces next (par t u) l

/-- the program ends after at most `k` steps -/
inductive Cost {C : Type} (next : C → Proc C) : Proc C → ℕ → Prop where
  | done : Cost next done 0
  | call {c k} : Cost next (next c) k → Cost next (call c) (k + 1)
  | seq {t u j k} : Cost next t j → Cost next u k → Cost next (seq t u) (j + k + 1)
  | par {t u j k} : Cost next t j → Cost next u k → Cost next (par t u) (j + k + 1)

/-- a step of a program, with the call that it makes -/
inductive Move {C : Type} (next : C → Proc C) : Proc C → Option C → Proc C → Prop where
  | call {c} : Move next (call c) (some c) (next c)
  | seqStep {t u t' o} : Move next t o t' → Move next (seq t u) o (seq t' u)
  | seqDone {u} : Move next (seq done u) none u
  | parLeft {t u t' o} : Move next t o t' → Move next (par t u) o (par t' u)
  | parRight {t u u' o} : Move next u o u' → Move next (par t u) o (par t u')
  | parDone : Move next (par done done) none done

section Traces

variable {C : Type} {next : C → Proc C} {t t' u : Proc C} {o : Option C} {l : List C} {c : C} {k : ℕ}

theorem exists_trace (h : Cost next t k) : ∃ l, Traces next t l := by
  induction h with
  | done => exact ⟨_, .done⟩
  | call _ ih =>
    obtain ⟨l, hl⟩ := ih
    exact ⟨_, .call hl⟩
  | seq _ _ ih₁ ih₂ =>
    obtain ⟨l₁, hl₁⟩ := ih₁
    obtain ⟨l₂, hl₂⟩ := ih₂
    exact ⟨_, .seq hl₁ hl₂⟩
  | par _ _ ih₁ ih₂ =>
    obtain ⟨l₁, hl₁⟩ := ih₁
    obtain ⟨l₂, hl₂⟩ := ih₂
    exact ⟨_, .par hl₁ hl₂ (Shuffle.append l₁ l₂)⟩

theorem exists_cost_parAll {ts : List (Proc C)} (h : ∀ t ∈ ts, ∃ k, Cost next t k) : ∃ k, Cost next (parAll ts) k := by
  induction ts with
  | nil => exact ⟨0, .done⟩
  | cons t ts ih =>
    obtain ⟨j, hj⟩ := h t List.mem_cons_self
    obtain ⟨k, hk⟩ := ih fun u hu => h u (List.mem_cons_of_mem _ hu)
    exact ⟨_, hj.par hk⟩

/-! ## Moves -/

/-- a trace of what remains, after the call, is a trace of the program -/
theorem Move.traces (h : Move next t o t') (hl : Traces next t' l) : Traces next t (o.toList ++ l) := by
  induction h generalizing l with
  | call => exact .call hl
  | seqStep _ ih =>
    cases hl with
    | seq h₁ h₂ =>
      rw [← List.append_assoc]
      exact (ih h₁).seq h₂
  | seqDone => exact Traces.done.seq hl
  | parLeft _ ih =>
    cases hl with
    | par h₁ h₂ hsh => exact (ih h₁).par h₂ (hsh.append_left _)
  | parRight _ ih =>
    cases hl with
    | par h₁ h₂ hsh => exact h₁.par (ih h₂) (hsh.append_right _)
  | parDone =>
    cases hl
    exact Traces.done.par .done .nil

/-- a move leaves fewer steps -/
theorem Move.cost (h : Move next t o t') (hk : Cost next t k) : ∃ k' < k, Cost next t' k' := by
  induction h generalizing k with
  | call =>
    cases hk with
    | call hk => exact ⟨_, Nat.lt_succ_self _, hk⟩
  | seqStep _ ih =>
    cases hk with
    | seq hk₁ hk₂ =>
      obtain ⟨k', hlt, hk'⟩ := ih hk₁
      exact ⟨_, by omega, hk'.seq hk₂⟩
  | seqDone =>
    cases hk with
    | seq _ hk₂ => exact ⟨_, by omega, hk₂⟩
  | parLeft _ ih =>
    cases hk with
    | par hk₁ hk₂ =>
      obtain ⟨k', hlt, hk'⟩ := ih hk₁
      exact ⟨_, by omega, hk'.par hk₂⟩
  | parRight _ ih =>
    cases hk with
    | par hk₁ hk₂ =>
      obtain ⟨k', hlt, hk'⟩ := ih hk₂
      exact ⟨_, by omega, hk₁.par hk'⟩
  | parDone =>
    cases hk with
    | par _ _ => exact ⟨0, by omega, .done⟩

/-- the call of a move starts a trace -/
theorem Move.exists_trace (h : Move next t o t') (hk : Cost next t k) : ∃ l, Traces next t (o.toList ++ l) := by
  obtain ⟨k', -, hk'⟩ := h.cost hk
  obtain ⟨l, hl⟩ := HeavyLight.exists_trace hk'
  exact ⟨l, h.traces hl⟩

/-- any number of moves without a call -/
def Quiet (next : C → Proc C) : Proc C → Proc C → Prop := Relation.ReflTransGen fun t t' => Move next t none t'

theorem Quiet.seq (h : Quiet next t t') : Quiet next (seq t u) (seq t' u) :=
  Relation.ReflTransGen.lift (fun t => Proc.seq t u) (fun _ _ => Move.seqStep) _ _ h

theorem Quiet.parLeft (h : Quiet next t t') : Quiet next (par t u) (par t' u) :=
  Relation.ReflTransGen.lift (fun t => Proc.par t u) (fun _ _ => Move.parLeft) _ _ h

theorem Quiet.parRight (h : Quiet next t t') : Quiet next (par u t) (par u t') :=
  Relation.ReflTransGen.lift (fun t => Proc.par u t) (fun _ _ => Move.parRight) _ _ h

/-- which leave the traces as they are -/
theorem Quiet.traces (h : Quiet next t t') (hl : Traces next t' l) : Traces next t l := by
  induction h with
  | refl => exact hl
  | tail _ hm ih => exact ih (hm.traces hl)

/-- a program with the empty trace can end without a call -/
theorem Traces.quiet (h : Traces next t l) (hl : l = []) : Quiet next t Proc.done := by
  induction h with
  | done => exact .refl
  | call _ _ => cases hl
  | seq _ _ ih₁ ih₂ =>
    obtain ⟨h₁, h₂⟩ := List.append_eq_nil_iff.1 hl
    exact (ih₁ h₁).seq.trans (.head .seqDone (ih₂ h₂))
  | par _ _ hsh ih₁ ih₂ =>
    subst hl
    cases hsh
    exact (ih₁ rfl).parLeft.trans ((ih₂ rfl).parRight.trans (.single .parDone))

/-- the first call of a trace can be the first call of a run, and the rest is a trace of what remains -/
theorem Traces.first (h : Traces next t l) {l' : List C} (hl : l = c :: l') :
    ∃ t₁ t', Quiet next t t₁ ∧ Move next t₁ (some c) t' ∧ Traces next t' l' := by
  induction h generalizing l' with
  | done => cases hl
  | call h _ =>
    cases hl
    exact ⟨_, _, .refl, .call, h⟩
  | @seq t u l₁ l₂ h₁ h₂ ih₁ ih₂ =>
    cases l₁ with
    | nil =>
      obtain ⟨t₁, t', hq, hm, htr⟩ := ih₂ hl
      exact ⟨t₁, t', (h₁.quiet rfl).seq.trans (.head .seqDone hq), hm, htr⟩
    | cons d l₁ =>
      cases hl
      obtain ⟨t₁, t', hq, hm, htr⟩ := ih₁ rfl
      exact ⟨_, _, hq.seq, .seqStep hm, htr.seq h₂⟩
  | @par t u l₁ l₂ l h₁ h₂ hsh ih₁ ih₂ =>
    subst hl
    cases hsh with
    | left hsh =>
      obtain ⟨t₁, t', hq, hm, htr⟩ := ih₁ rfl
      exact ⟨_, _, hq.parLeft, .parLeft hm, htr.par h₂ hsh⟩
    | right hsh =>
      obtain ⟨t₁, t', hq, hm, htr⟩ := ih₂ rfl
      exact ⟨_, _, hq.parRight, .parRight hm, h₁.par htr hsh⟩

end Traces

/-! ## Calls in parallel -/

section Parallel

variable {C : Type} {next : C → Proc C} {a b c : C} {l m : List C}

theorem traces_call_iff : Traces next (call c) l ↔ ∃ m, l = c :: m ∧ Traces next (next c) m := by
  refine ⟨?_, ?_⟩
  · intro h
    cases h with
    | call h => exact ⟨_, rfl, h⟩
  · intro hcase
    obtain ⟨m, rfl, h⟩ := hcase
    exact .call h

/-- elements of a list that make no call leave the traces as they are -/
theorem traces_parAll_filter (p : C → Prop) [DecidablePred p] (us : List C) :
    Traces next (parAll (us.map fun u => if p u then call u else done)) l ↔
      Traces next (parAll ((us.filter fun u => p u).map call)) l := by
  induction us generalizing l with
  | nil => exact Iff.rfl
  | cons u us ih =>
    by_cases hu : p u
    · rw [List.filter_cons, if_pos (decide_eq_true hu), List.map_cons, List.map_cons, if_pos hu, parAll, parAll]
      refine ⟨?_, ?_⟩
      · intro h
        cases h with
        | par h₁ h₂ hsh => exact h₁.par (ih.1 h₂) hsh
      · intro h
        cases h with
        | par h₁ h₂ hsh => exact h₁.par (ih.2 h₂) hsh
    · rw [List.filter_cons, if_neg (by simpa using hu), List.map_cons, if_neg hu, parAll]
      refine ⟨?_, ?_⟩
      · intro h
        cases h with
        | par h₁ h₂ hsh =>
          cases h₁
          rw [hsh.eq_of_nil_left]
          exact ih.1 h₂
      · intro h
        exact Traces.done.par (ih.2 h) (Shuffle.nil_left l)

theorem exists_trace_parAll (hall : ∀ c, ∃ l, Traces next (call c) l) (us : List C) :
    ∃ l, Traces next (parAll (us.map call)) l := by
  induction us with
  | nil => exact ⟨[], .done⟩
  | cons u us ih =>
    obtain ⟨l₁, h₁⟩ := hall u
    obtain ⟨l₂, h₂⟩ := ih
    exact ⟨l₁ ++ l₂, h₁.par h₂ (Shuffle.append l₁ l₂)⟩

/-- a trace of one of the calls starts some trace -/
theorem exists_trace_start (hall : ∀ c, ∃ l, Traces next (call c) l) {us : List C} (ha : a ∈ us)
    (hm : Traces next (call a) m) : ∃ l, Traces next (parAll (us.map call)) (m ++ l) := by
  induction us with
  | nil => cases ha
  | cons u us ih =>
    rcases List.mem_cons.1 ha with rfl | ha
    · obtain ⟨l, hl⟩ := exists_trace_parAll hall us
      exact ⟨l, hm.par hl (Shuffle.append m l)⟩
    · obtain ⟨l₁, h₁⟩ := hall u
      obtain ⟨l₂, h₂⟩ := ih ha
      exact ⟨l₁ ++ l₂, h₁.par h₂ ((Shuffle.append l₁ l₂).append_right m)⟩

/-- any of the calls comes first in some trace -/
theorem exists_trace_first (hall : ∀ c, ∃ l, Traces next (call c) l) {us : List C} (ha : a ∈ us) :
    ∃ l, Traces next (parAll (us.map call)) (a :: l) := by
  obtain ⟨l₁, h₁⟩ := hall a
  obtain ⟨m, rfl, -⟩ := traces_call_iff.1 h₁
  obtain ⟨l, hl⟩ := exists_trace_start hall ha h₁
  exact ⟨m ++ l, hl⟩

/-- a trace of one of the calls is an unbroken part of some trace -/
theorem exists_trace_unbroken (hall : ∀ c, ∃ l, Traces next (call c) l) {us : List C} (ha : a ∈ us)
    (hm : Traces next (call a) m) :
    ∃ l, Traces next (parAll (us.map call)) l ∧ m <:+: l := by
  obtain ⟨l, hl⟩ := exists_trace_start hall ha hm
  exact ⟨m ++ l, hl, List.infix_append_left⟩

/-- any of the calls comes right after any other in some trace -/
theorem exists_trace_adjacent (hall : ∀ c, ∃ l, Traces next (call c) l) {us : List C} (ha : a ∈ us) (hb : b ∈ us)
    (hne : a ≠ b) :
    ∃ l, Traces next (parAll (us.map call)) l ∧ [a, b] <:+: l := by
  induction us with
  | nil => cases ha
  | cons u us ih =>
    obtain ⟨l₁, h₁⟩ := hall u
    by_cases hau : a = u
    · subst hau
      obtain ⟨m, rfl, -⟩ := traces_call_iff.1 h₁
      obtain ⟨l₂, h₂⟩ := exists_trace_first hall ((List.mem_cons.1 hb).resolve_left hne.symm)
      exact ⟨a :: b :: (m ++ l₂), h₁.par h₂ (.left (.right (Shuffle.append m l₂))), [], m ++ l₂, rfl⟩
    · have ha' : a ∈ us := (List.mem_cons.1 ha).resolve_left hau
      by_cases hbu : b = u
      · subst hbu
        obtain ⟨m, rfl, -⟩ := traces_call_iff.1 h₁
        obtain ⟨l₂, h₂⟩ := exists_trace_first hall ha'
        exact ⟨a :: b :: (m ++ l₂), h₁.par h₂ (.right (.left (Shuffle.append m l₂))), [], m ++ l₂, rfl⟩
      · obtain ⟨l₂, h₂, hin⟩ := ih ha' ((List.mem_cons.1 hb).resolve_left hbu)
        exact ⟨l₁ ++ l₂, h₁.par h₂ (Shuffle.append l₁ l₂), List.infix_append_of_infix_right hin⟩

/-- the calls of programs in parallel, when each makes its own calls once and no two make the same -/
theorem traces_parAll_nodup {ι : Type} {us : List ι} {t : ι → Proc C} {In : ι → C → Prop}
    (h : ∀ u ∈ us, ∀ l, Traces next (t u) l → l.Nodup ∧ ∀ d, d ∈ l ↔ In u d)
    (hdisj : ∀ u ∈ us, ∀ x ∈ us, ∀ d, In u d → In x d → u = x) (hnodup : us.Nodup)
    (hm : Traces next (parAll (us.map t)) m) : m.Nodup ∧ ∀ d, d ∈ m ↔ ∃ u ∈ us, In u d := by
  induction us generalizing m with
  | nil =>
    cases hm
    simp
  | cons u us ih =>
    rw [List.nodup_cons] at hnodup
    cases hm with
    | par h₁ h₂ hsh =>
      obtain ⟨hn₁, hmem₁⟩ := h u List.mem_cons_self _ h₁
      obtain ⟨hn₂, hmem₂⟩ := ih (fun x hx => h x (List.mem_cons_of_mem _ hx))
        (fun x hx y hy => hdisj x (List.mem_cons_of_mem _ hx) y (List.mem_cons_of_mem _ hy)) hnodup.2 h₂
      refine ⟨hsh.perm.nodup_iff.2 (List.nodup_append.2 ⟨hn₁, hn₂, ?_⟩), fun d => ?_⟩
      · rintro d hd₁ e he rfl
        obtain ⟨x, hx, hd₂⟩ := (hmem₂ d).1 he
        have heq := hdisj u List.mem_cons_self x (List.mem_cons_of_mem _ hx) d ((hmem₁ d).1 hd₁) hd₂
        exact hnodup.1 (heq ▸ hx)
      · rw [hsh.perm.mem_iff, List.mem_append, hmem₁, hmem₂]
        simp

end Parallel

/-! ## Silent calls -/

section Silent

variable {C D : Type} {next : C → Proc C} {next' : D → Proc D} {f : C → Proc D} {vis : C → Option D} {t : Proc C}
  {l : List C} {m : List D} {k : ℕ}

/-- a call `c` with `vis c = some d` is the call `d` of the other program; a silent call is what follows it -/
def Hides (next : C → Proc C) (next' : D → Proc D) (f : C → Proc D) (vis : C → Option D) : Prop :=
  ∀ c, match vis c with
    | some d => f c = call d ∧ next' d = (next c).bind f
    | none => f c = (next c).bind f

/-- a trace without its silent calls is a trace of the other program -/
theorem traces_bind (hf : Hides next next' f vis) (h : Traces next t l) : Traces next' (t.bind f) (l.filterMap vis) := by
  induction h with
  | done => exact .done
  | @call c l _ ih =>
    have hc := hf c
    cases hv : vis c with
    | none =>
      rw [hv] at hc
      rw [List.filterMap_cons_none hv, Proc.bind, hc]
      exact ih
    | some d =>
      rw [hv] at hc
      rw [List.filterMap_cons_some hv, Proc.bind, hc.1]
      exact .call (hc.2 ▸ ih)
  | seq _ _ ih₁ ih₂ =>
    rw [List.filterMap_append]
    exact ih₁.seq ih₂
  | par _ _ hsh ih₁ ih₂ => exact ih₁.par ih₂ (hsh.filterMap vis)

/-- every trace of the other program comes from a trace -/
theorem exists_trace_bind (hf : Hides next next' f vis) (hk : Cost next t k) (h : Traces next' (t.bind f) m) :
    ∃ l, Traces next t l ∧ l.filterMap vis = m := by
  induction hk generalizing m with
  | done =>
    cases h
    exact ⟨[], .done, rfl⟩
  | @call c k _ ih =>
    have hc := hf c
    cases hv : vis c with
    | none =>
      rw [hv] at hc
      rw [Proc.bind, hc] at h
      obtain ⟨l, hl, rfl⟩ := ih h
      exact ⟨c :: l, .call hl, List.filterMap_cons_none hv⟩
    | some d =>
      rw [hv] at hc
      rw [Proc.bind, hc.1] at h
      cases h with
      | call h =>
        rw [hc.2] at h
        obtain ⟨l, hl, rfl⟩ := ih h
        exact ⟨c :: l, .call hl, List.filterMap_cons_some hv⟩
  | seq _ _ ih₁ ih₂ =>
    cases h with
    | seq h₁ h₂ =>
      obtain ⟨l₁, hl₁, rfl⟩ := ih₁ h₁
      obtain ⟨l₂, hl₂, rfl⟩ := ih₂ h₂
      exact ⟨l₁ ++ l₂, hl₁.seq hl₂, List.filterMap_append⟩
  | par _ _ ih₁ ih₂ =>
    cases h with
    | par h₁ h₂ hsh =>
      obtain ⟨l₁, hl₁, rfl⟩ := ih₁ h₁
      obtain ⟨l₂, hl₂, rfl⟩ := ih₂ h₂
      obtain ⟨l, hl, rfl⟩ := Shuffle.exists_filterMap vis hsh
      exact ⟨l, hl₁.par hl₂ hl, rfl⟩

end Silent

end HeavyLight
