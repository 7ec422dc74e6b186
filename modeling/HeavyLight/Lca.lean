/-
What `lca` returns: the pivot of the binary lifting over the `log_n` columns of `kth`.

- `Rows A s`: what `lca` reads, the depths and the rows of ancestors.
- `liftLoop_spec`, `jumpLoop_spec`: the two loops. `lca_spec`: `lca(u, v)` returns the pivot.
- `Laid.lca_eq`: the same when the depth of the root is not zero, since only differences of depths matter.
- `lca_correct_iff`: when that is the lowest common ancestor. `lca_overshoots`: a tree of seven nodes where it is not.
- `lca_on_path`: it is always on the path, and on the chain of the lowest common ancestor.
-/
import HeavyLight.Lifting
import HeavyLight.Preprocess

namespace HeavyLight

open ParentTree

namespace Hld

variable {n : ℕ} {A : AdjTree n} {s : Hld} {u v w : Fin n} {vals : ℤ → ℤ} {mem : Hld} {cur : Fin n → ℤ}

/-- what `lca` reads -/
structure Rows (A : AdjTree n) (s : Hld) : Prop where
  n_eq : s.n = n
  logN_eq : s.logN = Nat.log 2 n
  kth : ∀ (w : Fin n) (i : ℕ), i < s.logN → s.kth w i = (A.rooted.up (2 ^ i) w : ℕ)
  depth : ∀ w : Fin n, s.depth w = A.rooted.depth w

theorem Ready.rows (h : Ready A cur s) : Rows A s :=
  ⟨h.n_eq, h.logN_eq, fun w i hi => (h.finished w).row i hi (Or.inr h.zeroRow), fun w => by
    rw [(h.finished w).depth, h.depth_zero, zero_add]⟩

theorem dfs_rows (h : (A.load vals mem).RootZero) :
    ∃ s, Returns (fun k => dfs k 0 (A.load vals mem)) s ∧ Rows A s := by
  have he : Entered A (A.load vals mem) {A.root} A.root := entered_load (closed_root h.kth) rfl
  obtain ⟨s, hs, hf, hfin⟩ := dfs_root he (root_not_nbr h.kth)
  have hz : s.ZeroRow := (hf.zeroRow (A := A) fun h => h rfl).2 h.kth
  have hd : s.depth 0 = 0 := (hf.depth_zero (A := A) fun h => h rfl).trans h.depth
  exact ⟨s, hs, hf.n_eq, hf.logN_eq, fun w i hi => (hfin w).row i hi (Or.inr hz), fun w => by
    rw [(hfin w).depth, hd, zero_add]⟩

theorem Rows.card_lt (h : Rows A s) : Fintype.card (Fin n) < 2 ^ (s.logN + 1) := by
  rw [Fintype.card_fin, h.logN_eq]
  exact Nat.lt_pow_succ_log_self (by omega) n

/-! ## The two loops -/

/-- **The first loop** lifts `u` by the low bits of the difference. -/
theorem liftLoop_spec (h : Rows A s) (d : ℕ) (m : ℕ) (hm : m ≤ s.logN) (u : Fin n) :
    liftLoop s d m u = .ok ((A.rooted.up (d % 2 ^ m) u : ℕ) : ℤ) := by
  induction m generalizing u with
  | zero => rw [liftLoop, pow_zero, Nat.mod_one, up_zero]
  | succ m ih =>
    have hbit : d % 2 ^ (m + 1) = d % 2 ^ m + 2 ^ m * (d.testBit m).toNat := by
      rw [Nat.mod_pow_succ, Nat.toNat_testBit]
    have htest : (d : ℤ).testBit m = d.testBit m := rfl
    rw [liftLoop, htest, hbit]
    cases d.testBit m with
    | false =>
      rw [if_neg (by simp), ih (by omega)]
      simp
    | true =>
      rw [if_pos rfl, readKth_node h.n_eq u (by omega), ok_bind, h.kth u m (by omega), ih (by omega), ← up_add]
      simp

/-- **The second loop** lifts both nodes as long as their ancestors differ: to the last difference, or to the end of its
columns. -/
theorem jumpLoop_spec (h : Rows A s) (m : ℕ) (hm : m ≤ s.logN) (u v : Fin n) (hne : u ≠ v) :
    ∃ j, j < 2 ^ m ∧ jumpLoop s m u v = .ok ((A.rooted.up j u : ℕ) : ℤ) ∧ A.rooted.up j u ≠ A.rooted.up j v ∧
      (j + 1 = 2 ^ m ∨ A.rooted.up (j + 1) u = A.rooted.up (j + 1) v) := by
  induction m generalizing u v with
  | zero => exact ⟨0, by simp, rfl, hne, Or.inl rfl⟩
  | succ m ih =>
    have hread : jumpLoop s (m + 1) u v =
        if A.rooted.up (2 ^ m) u ≠ A.rooted.up (2 ^ m) v then
          jumpLoop s m (A.rooted.up (2 ^ m) u : ℕ) (A.rooted.up (2 ^ m) v : ℕ) else jumpLoop s m u v := by
      rw [jumpLoop, readKth_node h.n_eq u (by omega), ok_bind, readKth_node h.n_eq v (by omega), ok_bind,
        h.kth u m (by omega), h.kth v m (by omega)]
      simp only [ne_eq, Nat.cast_inj, Fin.val_inj]
    have hpow := Nat.two_pow_pos m
    by_cases hup : A.rooted.up (2 ^ m) u = A.rooted.up (2 ^ m) v
    · rw [hread, if_neg (not_not.2 hup)]
      obtain ⟨j, hj, hrun, hdiff, hlast⟩ := ih (by omega) u v hne
      refine ⟨j, by rw [pow_succ]; omega, hrun, hdiff, Or.inr ?_⟩
      rcases hlast with hlast | hlast
      · rw [hlast]; exact hup
      · exact hlast
    · rw [hread, if_pos hup]
      obtain ⟨j, hj, hrun, hdiff, hlast⟩ := ih (by omega) _ _ hup
      rw [← up_add] at hrun
      rw [← up_add, ← up_add] at hdiff hlast
      refine ⟨j + 2 ^ m, by rw [pow_succ]; omega, hrun, hdiff, ?_⟩
      rcases hlast with hlast | hlast
      · left; rw [pow_succ]; omega
      · right; rw [show j + 2 ^ m + 1 = j + 1 + 2 ^ m by omega]; exact hlast

/-! ## The whole function -/

theorem lcaFrom_spec (h : Rows A s) (hd : A.rooted.depth v ≤ A.rooted.depth u) :
    lcaFrom s u v = .ok ((A.rooted.pivotFrom s.logN u v : ℕ) : ℤ) := by
  have hsub : s.depth u - s.depth v = ((A.rooted.depth u - A.rooted.depth v : ℕ) : ℤ) := by
    rw [h.depth, h.depth, Nat.cast_sub hd]
  -- `u` is first lifted to `x`
  obtain ⟨x, hx⟩ : ∃ x, x = A.rooted.up ((A.rooted.depth u - A.rooted.depth v) % 2 ^ s.logN) u := ⟨_, rfl⟩
  rw [lcaFrom, readCell_node h.n_eq u, ok_bind, readCell_node h.n_eq v, ok_bind, hsub, liftLoop_spec h _ _ le_rfl,
    ok_bind, ← hx]
  by_cases hxv : x = v
  · have hvu : A.rooted.Anc v u := hxv ▸ hx ▸ Anc.of_up _ _ _
    rw [pivotFrom_of_anc hvu, if_pos (by rw [hxv]), hxv]
    rfl
  · obtain ⟨j, hj, hrun, hdiff, hlast⟩ := jumpLoop_spec h s.logN le_rfl x v hxv
    have hlog : 0 < s.logN := by
      rw [h.logN_eq]
      exact Nat.log_pos (by omega) (one_lt_of_ne hxv)
    have hkth : s.kth (A.rooted.up j x : ℕ) 0 = (A.rooted.up (j + 1) x : ℕ) := by
      have hrow := h.kth (A.rooted.up j x) 0 hlog
      rw [Nat.cast_zero, pow_zero, ← up_add, add_comm 1 j] at hrow
      exact hrow
    have hread : readKth s (A.rooted.up j x : ℕ) 0 = .ok (s.kth (A.rooted.up j x : ℕ) 0) :=
      readKth_node h.n_eq (A.rooted.up j x) (i := 0) hlog
    have hne : ((x : ℕ) : ℤ) ≠ (v : ℕ) := node_ne hxv
    rw [if_neg hne, hrun, ok_bind, hread, hkth, pivotFrom_of_last h.card_lt hd hx hj hdiff hlast]

theorem lca_spec (h : Rows A s) (u v : Fin n) : lca s u v = .ok ((A.rooted.pivot s.logN u v : ℕ) : ℤ) := by
  unfold lca
  rw [readCell_node h.n_eq u, ok_bind, readCell_node h.n_eq v, ok_bind, h.depth, h.depth, pivot]
  simp only [Nat.cast_lt]
  split_ifs with hd
  · exact lcaFrom_spec h hd.le
  · exact lcaFrom_spec h (not_lt.1 hd)

/-! ## Any depth at the root -/

theorem liftLoop_depth (s : Hld) (depth : ℤ → ℤ) (diff : ℤ) (m : ℕ) (x : ℤ) :
    liftLoop { s with depth := depth } diff m x = liftLoop s diff m x := by
  induction m generalizing x with
  | zero => rfl
  | succ m ih =>
    simp only [liftLoop, ih]
    rfl

theorem jumpLoop_depth (s : Hld) (depth : ℤ → ℤ) (m : ℕ) (x y : ℤ) :
    jumpLoop { s with depth := depth } m x y = jumpLoop s m x y := by
  induction m generalizing x y with
  | zero => rfl
  | succ m ih =>
    simp only [jumpLoop, ih]
    rfl

/-- only differences of depths matter to `lca` -/
theorem lca_shift (hn : s.n = n) (d : ℤ) (u v : Fin n) :
    lca { s with depth := fun x => s.depth x - d } u v = lca s u v := by
  have hread : ∀ (depth : ℤ → ℤ) (w : Fin n), readCell s.n depth w = .ok (depth w) := fun _ w => readCell_node hn w
  unfold lca lcaFrom
  simp only [hread, ok_bind, sub_lt_sub_iff_right, sub_sub_sub_cancel_right, liftLoop_depth, jumpLoop_depth]
  rfl

/-- the states after `dfs` and `decompose`, up to the depth of the root -/
theorem Laid.rows (h : Laid A s) : Rows A { s with depth := fun x => s.depth x - s.depth 0 } := by
  refine ⟨h.n_eq, h.logN_eq, fun w i hi => (h.finished w).row i hi (Or.inr h.zeroRow), fun w => ?_⟩
  dsimp only
  rw [(h.finished w).depth, add_sub_cancel_left]

theorem Laid.lca_eq (h : Laid A s) (u v : Fin n) : lca s u v = .ok ((A.rooted.pivot s.logN u v : ℕ) : ℤ) := by
  rw [← lca_shift h.n_eq (s.depth 0) u v]
  exact lca_spec h.rows u v

theorem Laid.card_lt (h : Laid A s) : Fintype.card (Fin n) < 2 ^ (s.logN + 1) := h.rows.card_lt

/-! ## The lowest common ancestor -/

theorem dfs_lca (h : (A.load vals mem).RootZero) (u v : Fin n) :
    Returns (fun k => do
      let s ← dfs k 0 (A.load vals mem)
      lca s u v) (A.rooted.pivot (Nat.log 2 n) u v : ℕ) := by
  obtain ⟨s, hs, hrows⟩ := dfs_rows h
  refine hs.bind (Returns.of_forall fun _ => ?_)
  rw [lca_spec hrows, hrows.logN_eq]

/-- **When `lca(u, v)` is the lowest common ancestor**: unless the depths differ by `2 ^ log_n` or more and neither node is
above the other. -/
theorem lca_correct_iff (A : AdjTree n) (vals : ℤ → ℤ) (mem : Hld) (h : (A.load vals mem).RootZero) (u v : Fin n) :
    Returns (fun k => do
      let s ← dfs k 0 (A.load vals mem)
      lca s u v) (A.rooted.lca u v : ℕ) ↔
    (A.rooted.depth u < A.rooted.depth v + 2 ^ Nat.log 2 n ∧ A.rooted.depth v < A.rooted.depth u + 2 ^ Nat.log 2 n) ∨
      A.rooted.Anc u v ∨ A.rooted.Anc v u := by
  rw [← pivot_eq_lca_iff]
  refine ⟨?_, ?_⟩
  · intro hr
    have he := (dfs_lca h u v).unique hr
    exact node_ext he
  · intro he
    rw [← he]
    exact dfs_lca h u v

/-- at nodes 5 and 6 of the long path the condition fails -/
theorem lca_correct_iff_longPath :
    Returns (fun k => do
      let s ← dfs k 0 (longPath.load (fun _ => 0) AdjTree.zeroMemory)
      lca s (5 : Fin 7) (6 : Fin 7)) (longPath.rooted.lca 5 6 : ℕ) ↔ False := by
  have h := lca_correct_iff longPath (fun _ => 0) AdjTree.zeroMemory (longPath.rootZero_zeroMemory _) 5 6
  have hcond : ¬ ((longPathTree.depth 5 < longPathTree.depth 6 + 2 ^ Nat.log 2 7 ∧
      longPathTree.depth 6 < longPathTree.depth 5 + 2 ^ Nat.log 2 7) ∨
      longPathTree.Anc 5 6 ∨ longPathTree.Anc 6 5) := by decide
  rw [rooted_longPath] at h ⊢
  exact h.trans (iff_false_intro hcond)

/-- **`lca` overshoots** on the long path: the lowest common ancestor of 5 and 6 is 0, and `lca(5, 6)` is 1. -/
theorem lca_overshoots :
    longPath.rooted.IsLca 0 5 6 ∧
      Returns (fun k => do
        let s ← dfs k 0 (longPath.load (fun _ => 0) AdjTree.zeroMemory)
        lca s (5 : Fin 7) (6 : Fin 7)) 1 := by
  have hrun := dfs_lca (longPath.rootZero_zeroMemory fun _ => 0) 5 6
  rw [rooted_longPath] at hrun ⊢
  have hpivot : longPathTree.pivot (Nat.log 2 7) 5 6 = 1 := by decide
  rw [hpivot] at hrun
  exact ⟨⟨by decide, by decide, by decide⟩, hrun⟩

/-- **`lca(u, v)` is on the path** from `u` to `v`, on the chain of the lowest common ancestor, for any difference of
depths. -/
theorem lca_on_path (A : AdjTree n) (vals : ℤ → ℤ) (mem : Hld) (h : (A.load vals mem).RootZero) {u v : Fin n}
    {p : A.graph.Walk u v} (hp : p.IsPath) :
    ∃ (s : Hld) (x : Fin n), Returns (fun k => preprocess k n (A.load vals mem)) s ∧ lca s u v = .ok ((x : ℕ) : ℤ) ∧
      x ∈ p.support ∧ ∀ w, A.rooted.IsLca w u v → s.head x = s.head w := by
  obtain ⟨s, hs, hr, -⟩ := preprocess_ready h
  have hcard := hr.rows.card_lt
  refine ⟨s, A.rooted.pivot s.logN u v, hs, lca_spec hr.rows u v, ?_, fun w hw => ?_⟩
  · exact (A.mem_support hp).2 (pivot_mem_path hcard u v)
  · rw [(hr.placed _).head, (hr.placed w).head, head_pivot hcard, lca_eq hw]

/-- on the long path, from 5 to 6 -/
theorem lca_on_path_longPath :
    ∃ p : longPath.graph.Walk 5 6, p.IsPath ∧
      ∃ (s : Hld) (x : Fin 7), Returns (fun k => preprocess k 7 (longPath.load (fun _ => 0) AdjTree.zeroMemory)) s ∧
        lca s (5 : Fin 7) (6 : Fin 7) = .ok ((x : ℕ) : ℤ) ∧ x ∈ p.support ∧
        ∀ w, longPath.rooted.IsLca w 5 6 → s.head x = s.head w := by
  obtain ⟨p, hp, -⟩ := longPath.isTree.existsUnique_path 5 6
  exact ⟨p, hp, lca_on_path longPath _ _ (longPath.rootZero_zeroMemory fun _ => 0) hp⟩

end Hld

end HeavyLight
