/-
`parallel_preprocess` of `parallel_hld.cpp`, with the iterations of the `parallel_for` of `build_st` in any order.

- `parBuildSt`, `parallelPreprocess`: the functions, for a given order of the iterations. `dfs` and `decompose` are those
  of `serial_hld.cpp`, word for word, and the segment tree is that of `serial_st.hpp`.
- `parBuildSt_spec`: the state that `build_st` leaves does not depend on the order.
- `parallel_preprocess_serial`: it is the state that `preprocess` leaves.
-/
import HeavyLight.Preprocess

namespace HeavyLight

namespace Hld

/-- `build_st(n)`, with the iterations of its `parallel_for` in the order of a list -/
def parBuildSt (order : List ℤ) (k n : ℕ) (s : Hld) : Exec Hld := do
  let dfsValues ← order.foldlM (scatter s) (Vec.zeros n)
  let st ← SegmentTree.new k dfsValues
  return { s with st := st }

def parallelPreprocess (order : List ℤ) (k n : ℕ) (s : Hld) : Exec Hld := do
  let s := { s with curPos := 0 }
  let s ← dfs k 0 s
  let s ← decompose k 0 0 s
  parBuildSt order k n s

variable {n : ℕ} {A : AdjTree n} {s : Hld} {vals : ℤ → ℤ} {mem : Hld}

theorem parallelPreprocess_eq (order : List ℤ) (k n : ℕ) (s : Hld) : parallelPreprocess order k n s = (do
    let s ← decomposeRoot k s
    parBuildSt order k n s) := by
  unfold parallelPreprocess decomposeRoot
  rw [bind_assoc]

/-- the serial loop is one of the orders -/
theorem parBuildSt_indices (k n : ℕ) (s : Hld) : parBuildSt (indices n) k n s = buildSt k n s := rfl

/-- **The segment tree.** Where the positions are those of the rooted tree, every order of the iterations leaves the
segment tree over the same vector. -/
theorem parBuildSt_spec (hn : s.n = n) (hpos : ∀ w, Placed A s w) :
    ∃ d st, Scattered A s.values d ∧ Returns (fun k => SegmentTree.new k d) st ∧
      ∀ order : List ℤ, order.Perm (indices n) → Returns (fun k => parBuildSt order k n s) { s with st := st } := by
  obtain ⟨d, -, hscat⟩ := scatter_order hn hpos (List.Perm.refl (indices n))
  obtain ⟨st, hst, -⟩ := SegmentTree.new_represents d (hscat.size.symm ▸ A.pos)
  refine ⟨d, st, hscat, hst, fun order horder => ?_⟩
  obtain ⟨d', hd', hscat'⟩ := scatter_order hn hpos horder
  obtain rfl : d' = d := hscat'.unique hscat
  refine Returns.congr (hst.map (g := fun st => { s with st := st })) fun k => ?_
  unfold parBuildSt
  rw [hd', ok_bind]

/-- **Parallel preprocessing.** From a zero row of the root, every order of the iterations leaves the state that the
serial preprocessing leaves. -/
theorem parallel_preprocess_serial (A : AdjTree n) (vals : ℤ → ℤ) (mem : Hld) (h : (A.load vals mem).ZeroRow) :
    ∃ s, Returns (fun k => preprocess k n (A.load vals mem)) s ∧ ∀ order : List ℤ, order.Perm (indices n) →
      Returns (fun k => parallelPreprocess order k n (A.load vals mem)) s := by
  obtain ⟨s, hs, hlaid, -⟩ := decomposeRoot_laid h
  obtain ⟨d, st, -, -, hbuild⟩ := parBuildSt_spec hlaid.n_eq hlaid.placed
  have hserial := (hbuild _ (List.Perm.refl _)).congr fun k => (parBuildSt_indices k n s).symm
  refine ⟨{ s with st := st }, ?_, fun order horder => ?_⟩
  · exact (hs.bind hserial).congr fun k => preprocess_eq k n _
  · exact (hs.bind (hbuild order horder)).congr fun k => parallelPreprocess_eq order k n _

/-- the iterations in the reverse order -/
theorem parallel_preprocess_serial_longPath :
    (longPath.load (fun x => x) AdjTree.zeroMemory).ZeroRow ∧
      ∃ s, Returns (fun k => preprocess k 7 (longPath.load (fun x => x) AdjTree.zeroMemory)) s ∧
        Returns (fun k =>
          parallelPreprocess [6, 5, 4, 3, 2, 1, 0] k 7 (longPath.load (fun x => x) AdjTree.zeroMemory)) s := by
  have h : (longPath.load (fun x => x) AdjTree.zeroMemory).ZeroRow := fun _ _ => rfl
  obtain ⟨s, hs, hpar⟩ := parallel_preprocess_serial longPath _ _ h
  exact ⟨h, s, hs, hpar [6, 5, 4, 3, 2, 1, 0] (by decide)⟩

end Hld

end HeavyLight
