/-
How many chains a path crosses. Going from a node to the parent of the head of its chain passes one light edge, and the
size at least doubles there.

- `StepsToRoot s x t`: from `x`, `t` steps lead to the chain of node 0. `stepsToRoot_iff`: `t` is the number of light
  edges above `x`.
- `climbLoop_bound`, `oldLoop_bound`: the loops of the queries test their condition once for each light edge they pass
  and once more. The fuel of a loop is the number of its tests, so fuel `m + 1` allows `m` iterations.
- `climb_bounds`: the bounds after `dfs(0)` and `decompose(0, 0)`.
-/
import HeavyLight.QueryPath

namespace HeavyLight

open ParentTree

namespace Hld

variable {n : ℕ} {A : AdjTree n} {s : Hld} {u v x z : Fin n} {ask : ℕ → ℤ → ℤ → Exec ℤ}

/-! ## Steps to the root chain -/

/-- the parent of the head of the chain -/
def above (s : Hld) (x : ℤ) : ℤ := s.kth (s.head x) 0

/-- from `x`, `t` steps lead to the chain of node 0, and fewer do not -/
def StepsToRoot (s : Hld) (x : ℤ) (t : ℕ) : Prop :=
  s.head (s.above^[t] x) = s.head 0 ∧ ∀ j, j < t → s.head (s.above^[j] x) ≠ s.head 0

/-- the chain of node 0 is the one of level 0 -/
theorem Laid.head_root_iff (h : Laid A s) (v : Fin n) : s.head v = s.head 0 ↔ A.rooted.level v = 0 := by
  have hroot : s.head 0 = (A.root : ℕ) := by
    have h0 := (h.placed A.root).head
    have hself : A.rooted.head A.root = A.root := A.rooted.head_root
    rw [hself] at h0
    exact h0
  rw [hroot, (h.placed v).head, level_eq_zero]
  exact ⟨node_ext, fun he => by rw [he, A.rooted_root]⟩

theorem Laid.above_eq (h : Laid A s) (hv : A.rooted.head v ≠ A.root) :
    s.above v = (A.rooted.parent (A.rooted.head v) : ℕ) := by
  rw [above, (h.placed v).head, h.kth_parent hv]

/-- each step takes off one level -/
theorem Laid.above_iterate (h : Laid A s) (v : Fin n) (t : ℕ) (ht : t ≤ A.rooted.level v) :
    ∃ w : Fin n, s.above^[t] v = (w : ℕ) ∧ A.rooted.level w + t = A.rooted.level v := by
  induction t with
  | zero => exact ⟨v, rfl, rfl⟩
  | succ t ih =>
    obtain ⟨w, hw, hlevel⟩ := ih (by omega)
    have hhead : A.rooted.head w ≠ A.root := by
      intro he
      have := level_eq_zero.2 he
      omega
    have hclimb := level_climb hhead
    refine ⟨A.rooted.parent (A.rooted.head w), ?_, by omega⟩
    calc s.above^[t + 1] v = s.above (s.above^[t] v) := Function.iterate_succ_apply' _ _ _
      _ = s.above w := by rw [hw]
      _ = (A.rooted.parent (A.rooted.head w) : ℕ) := h.above_eq hhead

/-- **The number of steps** to the chain of node 0 is the number of light edges. -/
theorem stepsToRoot_iff (h : Laid A s) (v : Fin n) (t : ℕ) : StepsToRoot s v t ↔ t = A.rooted.level v := by
  have hbefore : ∀ j, j ≤ A.rooted.level v → (s.head (s.above^[j] v) = s.head 0 ↔ j = A.rooted.level v) := by
    intro j hj
    obtain ⟨w, hw, hlevel⟩ := h.above_iterate v j hj
    rw [hw, h.head_root_iff]
    omega
  refine ⟨?_, ?_⟩
  · intro hcase
    obtain ⟨hlast, hfirst⟩ := hcase
    by_contra hne
    rcases lt_or_gt_of_ne hne with hlt | hgt
    · exact hne ((hbefore t hlt.le).1 hlast)
    · exact hfirst _ hgt ((hbefore _ le_rfl).2 rfl)
  · rintro rfl
    exact ⟨(hbefore _ le_rfl).2 rfl, fun j hj he => absurd ((hbefore j hj.le).1 he) (by omega)⟩

theorem two_pow_steps (h : Laid A s) (v : Fin n) {t : ℕ} (ht : StepsToRoot s v t) : 2 ^ (t + 1) - 1 ≤ n := by
  have hpow := A.rooted.two_pow_level v
  rw [← (stepsToRoot_iff h v t).1 ht, Fintype.card_fin] at hpow
  omega

theorem Laid.level_le (h : Laid A s) (v : Fin n) : A.rooted.level v ≤ s.logN := by
  have hlog := A.rooted.level_le_log v
  rwa [Fintype.card_fin, ← h.logN_eq] at hlog

/-! ## The loops -/

/-- `ask` answers whenever both positions are in range -/
def AnswersRange (n : ℕ) (ask : ℕ → ℤ → ℤ → Exec ℤ) : Prop :=
  ∀ (k : ℕ) (l r : ℤ), 0 ≤ l → l < n → 0 ≤ r → r < n → ∃ q, ask k l r = .ok q

theorem AnswersRange.pos (h : AnswersRange n ask) (A : AdjTree n) (k : ℕ) (u v : Fin n) :
    ∃ q, ask k (A.rooted.pos u) (A.rooted.pos v) = .ok q :=
  h k _ _ (Int.natCast_nonneg _) (pos_lt_n A u) (Int.natCast_nonneg _) (pos_lt_n A v)

/-- **A climbing loop** towards the chain of `x` takes at most one iteration for each light edge above `u`. -/
theorem climbLoop_bound (h : Laid A s) (hask : AnswersRange n ask) (hz : A.rooted.head z = A.rooted.head x) (m : ℕ)
    (u : Fin n) (hzu : A.rooted.Anc z u) (hm : A.rooted.level u ≤ m) (res : ℤ) :
    ∃ r, climbLoop s ask x (m + 1) u res = .ok r := by
  induction m generalizing u res with
  | zero =>
    -- level 0 is the root chain, and above it there is nothing
    have hroot : A.rooted.head u = A.rooted.root := level_eq_zero.1 (by omega)
    have hheads : A.rooted.head u = A.rooted.head x := by
      by_contra hne
      exact (anc_above_head hz hzu hne).1 hroot
    exact ⟨_, climbLoop_stop h ask hheads 0 res⟩
  | succ m ih =>
    by_cases hheads : A.rooted.head u = A.rooted.head x
    · exact ⟨_, climbLoop_stop h ask hheads (m + 1) res⟩
    · obtain ⟨hroot, hzp⟩ := anc_above_head hz hzu hheads
      have hlevel := level_climb hroot
      obtain ⟨q, hq⟩ := hask.pos A (m + 1) u (A.rooted.head u)
      obtain ⟨r, hr⟩ := ih (A.rooted.parent (A.rooted.head u)) hzp (by omega) (res + q)
      refine ⟨r, ?_⟩
      rw [climbLoop_step h ask hheads hroot, hq, ok_bind, hr]

/-- **The loop of `query_path_old`** takes at most one iteration for each light edge above `u` or `v`. -/
theorem oldLoop_bound (h : Laid A s) (hask : AnswersRange n ask) (m : ℕ) (u v : Fin n)
    (hm : A.rooted.level u + A.rooted.level v ≤ m) (res : ℤ) : ∃ r, oldLoopWith s ask (m + 1) u v res = .ok r := by
  induction m generalizing u v res with
  | zero =>
    have hu : A.rooted.head u = A.rooted.root := level_eq_zero.1 (by omega)
    have hv : A.rooted.head v = A.rooted.root := level_eq_zero.1 (by omega)
    exact ⟨_, oldLoop_stop h ask (hu.trans hv.symm) 0 res⟩
  | succ m ih =>
    by_cases hheads : A.rooted.head u = A.rooted.head v
    · exact ⟨_, oldLoop_stop h ask hheads (m + 1) res⟩
    · obtain ⟨a, b, hne, hd, huv⟩ := exists_climber A.rooted hheads
      have hroot : A.rooted.head a ≠ A.rooted.root := fun he => hne (head_eq_of_anc (he ▸ Anc.root _ b) hd)
      have hlevel := level_climb hroot
      have hsum : A.rooted.level a + A.rooted.level b ≤ m + 1 := by
        rcases huv with ⟨rfl, rfl⟩ | ⟨rfl, rfl, -⟩ <;> omega
      obtain ⟨q, hq⟩ := hask.pos A (m + 1) (A.rooted.head a) a
      obtain ⟨r, hr⟩ := ih (A.rooted.parent (A.rooted.head a)) b (by omega) (res + q)
      refine ⟨r, ?_⟩
      rw [oldLoop_step h ask hne hd huv, hq, ok_bind, hr]

/-- **Bounds of the loops.** After `dfs(0)` and `decompose(0, 0)`, a node that is `t` steps from the chain of node 0 needs
`2 ^ (t + 1) - 1` nodes; so the loops of `query_path` take at most `log_n` iterations each, and the loop of
`query_path_old` at most `2 * log_n`, whatever the queries answer. -/
theorem climb_bounds (A : AdjTree n) (vals : ℤ → ℤ) (mem : Hld) (h : (A.load vals mem).ZeroRow) :
    ∃ s, Returns (fun k => decomposeRoot k (A.load vals mem)) s ∧ s.logN = Nat.log 2 n ∧
      (∀ v : Fin n, (∃ t, StepsToRoot s v t) ∧ ∀ t, StepsToRoot s v t → 2 ^ (t + 1) - 1 ≤ n) ∧
      ∀ ask, AnswersRange n ask → ∀ (u v : Fin n) (res : ℤ),
        (∃ x, lca s u v = .ok x ∧ (∃ r, climbLoop s ask x (s.logN + 1) u res = .ok r) ∧
          ∃ r, climbLoop s ask x (s.logN + 1) v res = .ok r) ∧
        ∃ r, oldLoopWith s ask (2 * s.logN + 1) u v res = .ok r := by
  obtain ⟨s, hs, hl, -⟩ := decomposeRoot_laid h
  refine ⟨s, hs, hl.logN_eq, fun v => ⟨⟨_, (stepsToRoot_iff hl v _).2 rfl⟩, fun t => two_pow_steps hl v⟩, ?_⟩
  intro ask hask u v res
  have hw := A.rooted.isLca_lca u v
  have hhead : A.rooted.head (A.rooted.lca u v) = A.rooted.head (A.rooted.pivot s.logN u v) :=
    (head_pivot hl.card_lt u v).symm
  have hu := hl.level_le u
  have hv := hl.level_le v
  refine ⟨⟨_, hl.lca_eq u v, ?_, ?_⟩, oldLoop_bound hl hask _ u v (by omega) res⟩
  · exact climbLoop_bound hl hask hhead _ u hw.left hu res
  · exact climbLoop_bound hl hask hhead _ v hw.right hv res

/-- on the long path `log_n` is 2, and from 5 and 6 the loop of `query_path_old` ends within four iterations -/
theorem climb_bounds_longPath :
    ∃ s, Returns (fun k => decomposeRoot k (longPath.load (fun _ => 0) AdjTree.zeroMemory)) s ∧
      (∃ t, StepsToRoot s 6 t ∧ 2 ^ (t + 1) - 1 ≤ 7) ∧
      ∃ r, oldLoopWith s (fun _ _ _ => .ok 0) 5 (5 : Fin 7) (6 : Fin 7) 0 = .ok r := by
  obtain ⟨s, hs, hlog, hsteps, hloops⟩ := climb_bounds longPath _ _ (longPath.rootZero_zeroMemory fun _ => 0).kth
  have hask : AnswersRange 7 fun _ _ _ => .ok 0 := fun _ _ _ _ _ _ _ => ⟨0, rfl⟩
  obtain ⟨⟨t, ht⟩, hbound⟩ := hsteps 6
  have hold := (hloops _ hask 5 6 0).2
  rw [hlog] at hold
  exact ⟨s, hs, ⟨t, ht, hbound t ht⟩, hold⟩

end Hld

end HeavyLight
