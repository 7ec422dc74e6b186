/-
What `preprocess` does with memory as `malloc` leaves it. `dfs(0)` takes the cell `kth[0][0]`, which nothing writes, for
the parent of node 0.

- `NodeCells n kth depth`: contents of `kth` and `depth` with a node number in every cell.
- `decompose_sizes`, `buildSt_sizes`: the later stages keep the sizes that `dfs` leaves.
- `preprocess_treeArrays_iff`: the arrays are those of the rooted tree exactly when `kth[0][0]` is no neighbour of node 0.
- `ContentIndependent`: the results are those of the rooted tree for any two contents. `content_dependent`: this holds of
  no tree with an edge; `edge_zeros_ones` has two contents for the smallest tree.
-/
import HeavyLight.QueryPath

namespace HeavyLight

open ParentTree

namespace Hld

variable {n : ℕ} {A : AdjTree n} {s s' : Hld} {vals : ℤ → ℤ} {mem : Hld}

/-- every cell of the rows of `kth` and of `depth` is a node number -/
structure NodeCells (n : ℕ) (kth : ℤ → ℤ → ℤ) (depth : ℤ → ℤ) : Prop where
  kth : ∀ (x : Fin n) (i : ℕ), i < Nat.log 2 n → ∃ y : Fin n, kth x i = (y : ℕ)
  depth : ∀ x : Fin n, ∃ y : Fin n, depth x = (y : ℕ)

/-- memory with other contents of `kth` and `depth` -/
def withCells (mem : Hld) (kth : ℤ → ℤ → ℤ) (depth : ℤ → ℤ) : Hld := { mem with kth := kth, depth := depth }

/-! ## The stages after `dfs` -/

theorem visit_sizes {v h : ℤ} (hs : visit v h s = .ok s') : s'.sizes = s.sizes := by
  rw [visit, bind_eq_ok] at hs
  obtain ⟨head, -, hs⟩ := hs
  rw [bind_eq_ok] at hs
  obtain ⟨pos, -, hs⟩ := hs
  cases hs
  rfl

theorem decompose_sizes (k : ℕ) : ∀ (v h : ℤ) (s s' : Hld), decompose k v h s = .ok s' → s'.sizes = s.sizes := by
  induction k with
  | zero =>
    intro v h s s' hs
    cases hs
  | succ k ih =>
    intro v h s s' hs
    rw [decompose, bind_eq_ok] at hs
    obtain ⟨s₁, h₁, hs⟩ := hs
    rw [bind_eq_ok] at hs
    obtain ⟨c, -, hs⟩ := hs
    -- the loop over the neighbours, from any state `s₂` with the sizes of `s`
    have hloop : ∀ s₂ : Hld, s₂.sizes = s.sizes → (do
        let us ← readCell s₂.n s₂.adj v
        us.foldlM (decomposeChild (decompose k) v) s₂) = .ok s' → s'.sizes = s.sizes := by
      intro s₂ h₂ hr
      rw [bind_eq_ok] at hr
      obtain ⟨us, -, hr⟩ := hr
      refine foldlM_preserves (P := fun t : Hld => t.sizes = s.sizes) (fun t u t' ht hb => ?_) us h₂ hr
      rw [decomposeChild, bind_eq_ok] at hb
      obtain ⟨b, -, hb⟩ := hb
      cases b with
      | false => cases hb; exact ht
      | true => exact (ih u u t t' hb).trans ht
    have h₁' := visit_sizes h₁
    split_ifs at hs with hc
    · rw [bind_eq_ok] at hs
      obtain ⟨s₂, h₂, hs⟩ := hs
      exact hloop s₂ ((ih c h s₁ s₂ h₂).trans h₁') hs
    · exact hloop s₁ h₁' hs

theorem buildSt_sizes {k m : ℕ} (hs : buildSt k m s = .ok s') : s'.sizes = s.sizes := by
  rw [buildSt, bind_eq_ok] at hs
  obtain ⟨d, -, hs⟩ := hs
  rw [bind_eq_ok] at hs
  obtain ⟨st, -, hs⟩ := hs
  cases hs
  rfl

/-- the sizes that `preprocess` leaves are those that `dfs` leaves -/
theorem preprocess_sizes {s₁ : Hld} (h₁ : Returns (fun k => dfs k 0 { s with curPos := 0 }) s₁)
    (hs : Returns (fun k => preprocess k n s) s') : s'.sizes = s₁.sizes := by
  have hrest : Returns (fun k => do
      let s ← decompose k 0 0 s₁
      buildSt k n s) s' := h₁.of_bind hs
  obtain ⟨N, hN⟩ := hrest
  have hr := hN N le_rfl
  rw [bind_eq_ok] at hr
  obtain ⟨s₂, h₂, h₃⟩ := hr
  exact (buildSt_sizes h₃).trans (decompose_sizes N 0 0 s₁ s₂ h₂)

/-! ## Any contents -/

theorem entered_cells {kth : ℤ → ℤ → ℤ} {depth : ℤ → ℤ} (h : NodeCells n kth depth) :
    Entered A (A.load vals (withCells mem kth depth)) Set.univ A.root := by
  refine entered_load (fun x _ i hi => ?_) (Set.mem_univ _)
  obtain ⟨y, hy⟩ := h.kth x i hi
  exact ⟨y, Set.mem_univ y, hy⟩

/-- **When the arrays are right.** From contents with a node number in every cell, `preprocess` leaves the arrays of the
rooted tree exactly when `kth[0][0]` is no neighbour of node 0. -/
theorem preprocess_treeArrays_iff (A : AdjTree n) (vals : ℤ → ℤ) (mem : Hld) {kth : ℤ → ℤ → ℤ}
    {depth : ℤ → ℤ} (h : NodeCells n kth depth) :
    (∃ s, Returns (fun k => preprocess k n (A.load vals (withCells mem kth depth))) s ∧ TreeArrays A s) ↔
      ∀ u ∈ A.nbrs A.root, kth 0 0 ≠ (u : ℕ) := by
  have he : Entered A (A.load vals (withCells mem kth depth)) Set.univ A.root := entered_cells h
  refine ⟨?_, ?_⟩
  · rintro ⟨s, hs, harr⟩ u hu hk
    have he' : Entered A { A.load vals (withCells mem kth depth) with curPos := 0 } Set.univ A.root :=
      ⟨he.n_eq, he.adj_eq, he.logN_pos, he.closed, he.mem, he.rows, he.depth⟩
    obtain ⟨s₁, hs₁, hsize⟩ := dfs_root_skip he' hu hk
    have hroot := harr.sizes A.root
    rw [preprocess_sizes hs₁ hs, ← A.rooted_root, A.rooted.size_root, Fintype.card_fin] at hroot
    exact absurd hroot hsize.ne
  · intro h0
    obtain ⟨s, hs, -, -, -, -, -, hfin, hplaced, -⟩ := preprocess_spec he h0
    exact ⟨s, hs, fun w => (hfin w).heavy, fun w => (hplaced w).head, fun w => (hplaced w).pos, fun w => (hfin w).sizes⟩

/-- for any two contents of `kth` and `depth` with a node number in every cell, `preprocess` leaves the same arrays and
the same results of `query_path`, and they are those of the rooted tree -/
def ContentIndependent (A : AdjTree n) (vals : ℤ → ℤ) (mem : Hld) : Prop :=
  ∀ kth depth kth' depth', NodeCells n kth depth → NodeCells n kth' depth' →
    ∃ s s', Returns (fun k => preprocess k n (A.load vals (withCells mem kth depth))) s ∧
      Returns (fun k => preprocess k n (A.load vals (withCells mem kth' depth'))) s' ∧
      TreeArrays A s ∧ TreeArrays A s' ∧
      ∀ (u v : Fin n) (p : A.graph.Walk u v), p.IsPath →
        Returns (fun k => queryPath k s u v) (p.support.map fun w : Fin n => vals w).sum ∧
        Returns (fun k => queryPath k s' u v) (p.support.map fun w : Fin n => vals w).sum

/-- **`preprocess` depends on the memory**, whatever the tree, the values and the rest of the memory; the arrays are right
for those contents in which `kth[0][0]` is no neighbour of node 0. What `query_path` returns for the others is left out. -/
theorem content_dependent (A : AdjTree n) (hn : 2 ≤ n) (vals : ℤ → ℤ) (mem : Hld) :
    ¬ ContentIndependent A vals mem ∧
      ∀ kth depth, NodeCells n kth depth →
        ((∃ s, Returns (fun k => preprocess k n (A.load vals (withCells mem kth depth))) s ∧ TreeArrays A s) ↔
          ∀ u ∈ A.nbrs A.root, kth 0 0 ≠ (u : ℕ)) := by
  refine ⟨fun hind => ?_, fun _ _ h => preprocess_treeArrays_iff A vals mem h⟩
  -- node 0 has a neighbour; the cells of the contents all hold its number
  obtain ⟨u, hu⟩ : ∃ u, u ∈ A.nbrs A.root := by
    have hne : (⟨1, by omega⟩ : Fin n) ≠ A.root := fun he => absurd (congrArg Fin.val he) one_ne_zero
    obtain ⟨c, hc, -⟩ := (Anc.root A.rooted ⟨1, by omega⟩).child_toward hne.symm
    exact ⟨c, A.root_nbr_iff.2 hc⟩
  have hcells : NodeCells n (fun _ _ => ((u : ℕ) : ℤ)) (fun _ => ((u : ℕ) : ℤ)) :=
    ⟨fun _ _ _ => ⟨u, rfl⟩, fun _ => ⟨u, rfl⟩⟩
  obtain ⟨s, -, hs, -, harr, -⟩ := hind _ _ _ _ hcells hcells
  exact (preprocess_treeArrays_iff A vals mem hcells).1 ⟨s, hs, harr⟩ u hu rfl

/-- on two nodes and an edge -/
theorem content_dependent_edge :
    ¬ ContentIndependent edge (fun _ => 1) AdjTree.zeroMemory ∧
      ∀ kth depth, NodeCells 2 kth depth →
        ((∃ s, Returns (fun k => preprocess k 2 (edge.load (fun _ => 1) (withCells AdjTree.zeroMemory kth depth))) s ∧
          TreeArrays edge s) ↔ ∀ u ∈ edge.nbrs edge.root, kth 0 0 ≠ (u : ℕ)) :=
  content_dependent edge le_rfl _ _

/-- **Two contents of the memory** on two nodes and an edge: with zeros `preprocess` leaves the arrays of the tree, with
ones it does not. -/
theorem edge_zeros_ones :
    (∃ s, Returns (fun k => preprocess k 2
        (edge.load (fun _ => 1) (withCells AdjTree.zeroMemory (fun _ _ => 0) fun _ => 0))) s ∧ TreeArrays edge s) ∧
      NodeCells 2 (fun _ _ => 1) (fun _ => 1) ∧
      ¬ ∃ s, Returns (fun k => preprocess k 2
        (edge.load (fun _ => 1) (withCells AdjTree.zeroMemory (fun _ _ => 1) fun _ => 1))) s ∧ TreeArrays edge s := by
  have hzeros : NodeCells 2 (fun _ _ => 0) (fun _ => 0) := ⟨fun _ _ _ => ⟨0, rfl⟩, fun _ => ⟨0, rfl⟩⟩
  have hones : NodeCells 2 (fun _ _ => 1) (fun _ => 1) := ⟨fun _ _ _ => ⟨1, rfl⟩, fun _ => ⟨1, rfl⟩⟩
  rw [preprocess_treeArrays_iff edge _ _ hzeros, preprocess_treeArrays_iff edge _ _ hones]
  exact ⟨by decide, hones, by decide⟩

end Hld

end HeavyLight
