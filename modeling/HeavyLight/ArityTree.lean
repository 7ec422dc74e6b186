/-
Trees numbered breadth first with `k` children for each node: the parent of node `c` is `(c - 1) / k`. A general library.

- `parentOf k c`, `childrenOf k N v`, `nbrsOf k N v`: the parent, and the children and neighbours of `v` among the nodes
  below `N`, the parent first.
- `nbrsOf_add`: what one more node adds to the lists.
- `arityTree`: the tree on `0, ..., n`, for any `n`. `nbrs_arityTree`: its lists are those of `nbrsOf`.
- `geom_le_pow`: a tree of height `h` has at most `(1 + k * (k - 1)) ^ h` nodes.
-/
import HeavyLight.AdjTree

namespace HeavyLight

/-! ## Lists of neighbours -/

/-- the parent of node `c`, for `c` other than 0 -/
def parentOf (k c : ℕ) : ℕ := (c - 1) / k

/-- the children of `v` below `N` -/
def childrenOf (k N v : ℕ) : List ℕ := (List.range N).filter fun c => c ≠ 0 ∧ parentOf k c = v

/-- the neighbours of `v` when the nodes below `N` are attached -/
def nbrsOf (k N v : ℕ) : List ℕ := (if v = 0 ∨ N ≤ v then [] else [parentOf k v]) ++ childrenOf k N v

variable {k N v c : ℕ}

theorem parentOf_lt (hc : c ≠ 0) : parentOf k c < c := by
  have := Nat.div_le_self (c - 1) k
  rw [parentOf]
  omega

theorem parentOf_eq {p l : ℕ} (hl : l < k) : parentOf k (1 + p * k + l) = p := by
  rw [parentOf, Nat.add_assoc, Nat.add_sub_cancel_left, Nat.add_comm, Nat.add_mul_div_right _ _ (by omega),
    Nat.div_eq_of_lt hl, Nat.zero_add]

theorem childrenOf_succ (hN : N ≠ 0) :
    childrenOf k (N + 1) v = childrenOf k N v ++ if parentOf k N = v then [N] else [] := by
  unfold childrenOf
  rw [List.range_succ, List.filter_append]
  congr 1
  split_ifs with h <;> simp [hN, h]

theorem childrenOf_eq_nil (h : N ≤ v) : childrenOf k N v = [] := by
  apply List.filter_eq_nil_iff.2
  intro c hc
  rw [List.mem_range] at hc
  simp only [decide_eq_true_eq, not_and]
  intro h0 hp
  have := parentOf_lt (k := k) h0
  omega

/-- only nodes below `N` have neighbours, and they are below `N` -/
theorem mem_nbrsOf (h : c ∈ nbrsOf k N v) : v < N ∧ c < N := by
  rcases List.mem_append.1 h with h | h
  · split_ifs at h with hv
    · cases h
    · rw [not_or, not_le] at hv
      have := parentOf_lt (k := k) hv.1
      rw [List.mem_singleton] at h
      omega
  · simp only [childrenOf, List.mem_filter, List.mem_range, decide_eq_true_eq] at h
    have := parentOf_lt (k := k) h.2.1
    omega

/-- attaching node `N` appends it to the list of its parent, and the parent to its own -/
theorem nbrsOf_add (hN : N ≠ 0) : nbrsOf k (N + 1) v =
    nbrsOf k N v ++ (if parentOf k N = v then [N] else []) ++ if v = N then [parentOf k N] else [] := by
  have hlt := parentOf_lt (k := k) hN
  simp only [nbrsOf, childrenOf_succ hN]
  by_cases hv : v = N
  · rw [if_neg (show ¬ (v = 0 ∨ N + 1 ≤ v) by omega), if_pos (show v = 0 ∨ N ≤ v by omega),
      childrenOf_eq_nil hv.ge, if_neg (show ¬ parentOf k N = v by omega), if_pos hv, hv]
    rfl
  · have hcond : (v = 0 ∨ N + 1 ≤ v) ↔ (v = 0 ∨ N ≤ v) := by omega
    simp only [hcond, if_neg hv, List.append_nil, List.append_assoc]

/-- the lists of neighbours as the program holds them -/
def adjOf (k N : ℕ) (x : ℤ) : List ℤ := if 0 ≤ x then (nbrsOf k N x.toNat).map fun c : ℕ => (c : ℤ) else []

@[simp] theorem adjOf_coe (k N v : ℕ) : adjOf k N v = (nbrsOf k N v).map fun c : ℕ => (c : ℤ) := by
  unfold adjOf
  rw [if_pos (Int.natCast_nonneg v), Int.toNat_natCast]

/-! ## The tree -/

theorem parentOf_le (k c : ℕ) : parentOf k c ≤ c := (Nat.div_le_self _ _).trans (Nat.sub_le _ _)

theorem parentOf_lt_succ (k n : ℕ) (v : Fin (n + 1)) : parentOf k v < n + 1 := (parentOf_le k v).trans_lt v.isLt

/-- the parent of a node of the tree; node 0 is its own -/
def parentNode (k n : ℕ) (v : Fin (n + 1)) : Fin (n + 1) := ⟨parentOf k v, parentOf_lt_succ k n v⟩

@[simp] theorem coe_parentNode (k n : ℕ) (v : Fin (n + 1)) : (parentNode k n v : ℕ) = parentOf k v := rfl

theorem parentNode_zero (k n : ℕ) : parentNode k n 0 = 0 := Fin.ext (Nat.le_zero.1 (parentOf_le k 0))

theorem parentNode_lt (k n : ℕ) (v : Fin (n + 1)) (hv : v ≠ 0) : parentNode k n v < v :=
  parentOf_lt fun h => hv (Fin.ext h)

/-- the tree on `0, ..., n` with `(c - 1) / k` the parent of `c` -/
def arityTree (k n : ℕ) : ParentTree (Fin (n + 1)) :=
  ParentTree.numbered (parentNode k n) (parentNode_zero k n) (parentNode_lt k n)

theorem children_arityTree (k n : ℕ) (v : Fin (n + 1)) :
    ((arityTree k n).children v).map (fun u : Fin (n + 1) => (u : ℕ)) = childrenOf k (n + 1) v := by
  have hchildren : (arityTree k n).children v =
      (List.finRange (n + 1)).filter ((fun c => decide (c ≠ 0 ∧ parentOf k c = v)) ∘ Fin.val) := by
    apply List.filter_congr
    intro u _
    simp only [Function.comp_apply, Fin.ext_iff, ne_eq, Fin.val_zero, coe_parentNode]
  rw [hchildren, ← List.filter_map, List.map_coe_finRange_eq_range, childrenOf]

theorem nbrs_arityTree (k n : ℕ) (v : Fin (n + 1)) :
    ((AdjTree.ofParentTree (arityTree k n)).nbrs v).map (fun u : Fin (n + 1) => (u : ℕ)) = nbrsOf k (n + 1) v := by
  have hroot : v = (arityTree k n).root ↔ (v : ℕ) = 0 ∨ n + 1 ≤ v := by
    have hr : (arityTree k n).root = 0 := rfl
    rw [hr, Fin.ext_iff, Fin.val_zero]
    omega
  unfold nbrsOf
  rw [← children_arityTree, AdjTree.ofParentTree]
  simp only [hroot]
  split_ifs <;> rfl

theorem nbrsOf_eq_nil (h : N ≤ v) : nbrsOf k N v = [] :=
  List.eq_nil_iff_forall_not_mem.2 fun _ hc => absurd (mem_nbrsOf hc).1 (by omega)

/-- the lists of the tree are those of `nbrsOf` -/
theorem adj_arityTree (k n : ℕ) : (AdjTree.ofParentTree (arityTree k n)).adj = adjOf k (n + 1) := by
  funext x
  rw [AdjTree.adj, adjOf]
  by_cases hx : 0 ≤ x ∧ x < (n + 1 : ℕ)
  · rw [dif_pos hx, if_pos hx.1, ← nbrs_arityTree k n ⟨x.toNat, by omega⟩, List.map_map]
    rfl
  · rw [dif_neg hx]
    split_ifs with h0
    · rw [nbrsOf_eq_nil (show n + 1 ≤ x.toNat by omega), List.map_nil]
    · rfl

/-! ## Sizes -/

/-- a tree of height `h` with `k` children for each node has at most `(1 + k * (k - 1)) ^ h` nodes -/
theorem geom_le_pow (hk : 2 ≤ k) (h : ℕ) : ∑ i ∈ Finset.range (h + 1), k ^ i ≤ (1 + k * (k - 1)) ^ h := by
  induction h with
  | zero => simp
  | succ h ih =>
    have hpos : 0 < (1 + k * (k - 1)) ^ h := by positivity
    have hfactor : k + 1 ≤ 1 + k * (k - 1) := by
      rw [add_comm]
      exact Nat.add_le_add_left (Nat.le_mul_of_pos_right k (by omega)) 1
    calc ∑ i ∈ Finset.range (h + 1 + 1), k ^ i = k * ∑ i ∈ Finset.range (h + 1), k ^ i + 1 := by
          rw [Finset.sum_range_succ', pow_zero, Finset.mul_sum]
          simp only [pow_succ']
      _ ≤ k * (1 + k * (k - 1)) ^ h + (1 + k * (k - 1)) ^ h := Nat.add_le_add (Nat.mul_le_mul_left k ih) hpos
      _ = (1 + k * (k - 1)) ^ h * (k + 1) := by ring
      _ ≤ (1 + k * (k - 1)) ^ (h + 1) := by
          rw [pow_succ]
          exact Nat.mul_le_mul_left _ hfactor

end HeavyLight
