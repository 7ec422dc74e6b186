/-
Paths of a rooted tree as sets of nodes, and sums over them. A general library over `ParentTree`.

- `seg a v`: the nodes from `a` down to `v`; `path u v`: the nodes between `u` and `v`.
- `sum_seg_split`, `sum_seg_parent`: a downward path cut at a node, and cut above a node.
- `sum_path_split`: a path cut at one of its nodes, which is counted on both sides; `sum_path_climb` cuts off an end.
- `sum_seg_pos`, `sum_path_chain`: on one heavy path, the sum over nodes is the sum over positions.
- `IsLanding y u x`: `y` is the lowest ancestor of `u` on the heavy path of `x`; `sum_landing` splits the path from `u`
  to `x` there.
-/
import HeavyLight.HeavyPath
import Mathlib.Algebra.BigOperators.Intervals
import Mathlib.Order.Interval.Finset.Basic

namespace HeavyLight.ParentTree

variable {V : Type*} [Fintype V] [DecidableEq V]

/-- the nodes from `a` down to `v` -/
def seg (T : ParentTree V) (a v : V) : Finset V := Finset.univ.filter fun x => T.Anc a x ∧ T.Anc x v

/-- the nodes between `u` and `v`: above one of them and not above their lowest common ancestor -/
def path (T : ParentTree V) (u v : V) : Finset V :=
  Finset.univ.filter fun x => (T.Anc x u ∨ T.Anc x v) ∧ T.Anc (T.lca u v) x

variable {T : ParentTree V} {a h u v w x y z : V} {M : Type*} [AddCommMonoid M]

@[simp] theorem mem_seg : x ∈ T.seg a v ↔ T.Anc a x ∧ T.Anc x v := by simp [seg]

@[simp] theorem seg_self (T : ParentTree V) (v : V) : T.seg v v = {v} := by
  ext x
  rw [mem_seg, Finset.mem_singleton]
  refine ⟨?_, ?_⟩
  · exact fun h => h.2.antisymm h.1
  · rintro rfl
    exact ⟨Anc.refl T _, Anc.refl T _⟩

theorem mem_path : x ∈ T.path u v ↔ (T.Anc x u ∨ T.Anc x v) ∧ T.Anc (T.lca u v) x := by simp [path]

omit [Fintype V] in
theorem lca_eq (hw : T.IsLca w u v) : T.lca u v = w := (T.isLca_lca u v).unique hw

omit [Fintype V] in
theorem lca_comm (T : ParentTree V) (u v : V) : T.lca u v = T.lca v u := lca_eq (T.isLca_lca v u).symm

omit [Fintype V] in
theorem lca_of_anc (ha : T.Anc u v) : T.lca u v = u := lca_eq (IsLca.of_anc ha)

theorem path_comm (T : ParentTree V) (u v : V) : T.path u v = T.path v u := by
  ext x
  rw [mem_path, mem_path, lca_comm, or_comm]

theorem path_of_anc (ha : T.Anc a v) : T.path a v = T.seg a v := by
  ext x
  rw [mem_path, mem_seg, lca_of_anc ha]
  refine ⟨?_, ?_⟩
  · intro hcase
    rcases hcase with ⟨hx | hx, hax⟩
    · exact ⟨hax, hx.trans ha⟩
    · exact ⟨hax, hx⟩
  · intro hcase
    obtain ⟨hax, hx⟩ := hcase
    exact ⟨Or.inr hx, hax⟩

/-! ## Cutting a path -/

omit [Fintype V] in
/-- a sum over two sets that share one element, which is counted twice -/
theorem sum_union_of_inter_singleton (f : V → M) {s t r : Finset V} (hu : s ∪ t = r) (hi : s ∩ t = {x}) :
    ∑ i ∈ r, f i + f x = ∑ i ∈ s, f i + ∑ i ∈ t, f i := by
  rw [← hu, ← Finset.sum_union_inter, hi, Finset.sum_singleton]

/-- the part of a downward path below and including `h`, and the part down to the parent of `h` -/
theorem sum_seg_parent (f : V → M) (hh : h ≠ T.root) (ha : T.Anc a (T.parent h)) (hu : T.Anc h u) :
    ∑ i ∈ T.seg a u, f i = ∑ i ∈ T.seg a (T.parent h), f i + ∑ i ∈ T.seg h u, f i := by
  have hdisj : Disjoint (T.seg a (T.parent h)) (T.seg h u) := by
    rw [Finset.disjoint_left]
    intro z h1 h2
    rw [mem_seg] at h1 h2
    exact not_anc_of_child (T.mem_children_parent hh) (h2.1.trans h1.2)
  rw [← Finset.sum_union hdisj]
  congr 1
  ext z
  simp only [Finset.mem_union, mem_seg]
  refine ⟨?_, ?_⟩
  · intro hcase
    obtain ⟨h1, h2⟩ := hcase
    rcases h2.total hu with hz | hz
    · by_cases hzh : z = h
      · exact Or.inr ⟨hzh ▸ Anc.refl T _, h2⟩
      · exact Or.inl ⟨h1, hz.anc_parent hzh⟩
    · exact Or.inr ⟨hz, h2⟩
  · intro hcase
    rcases hcase with ⟨h1, h2⟩ | ⟨h1, h2⟩
    · exact ⟨h1, h2.trans ((Anc.parent T h).trans hu)⟩
    · exact ⟨ha.trans ((Anc.parent T h).trans h1), h2⟩

/-- **A path cut at a node above its first end.** -/
theorem sum_path_split_left (f : V → M) (hx : T.Anc x u) (hwx : T.Anc (T.lca u v) x) :
    ∑ i ∈ T.path u v, f i + f x = ∑ i ∈ T.path u x, f i + ∑ i ∈ T.path x v, f i := by
  have hw := T.isLca_lca u v
  have hxv : T.lca x v = T.lca u v :=
    lca_eq ⟨hwx, hw.right, fun y hyx hyv => hw.lowest y (hyx.trans hx) hyv⟩
  rw [path_comm T u x, path_of_anc hx]
  apply sum_union_of_inter_singleton f
  · ext z
    simp only [Finset.mem_union, mem_seg, mem_path, hxv]
    refine ⟨?_, ?_⟩
    · intro hcase
      rcases hcase with ⟨h1, h2⟩ | ⟨h1 | h1, h2⟩
      · exact ⟨Or.inl h2, hwx.trans h1⟩
      · exact ⟨Or.inl (h1.trans hx), h2⟩
      · exact ⟨Or.inr h1, h2⟩
    · intro hcase
      rcases hcase with ⟨h1 | h1, h2⟩
      · rcases h1.total hx with hz | hz
        · exact Or.inr ⟨Or.inl hz, h2⟩
        · exact Or.inl ⟨hz, h1⟩
      · exact Or.inr ⟨Or.inr h1, h2⟩
  · ext z
    simp only [Finset.mem_inter, mem_seg, mem_path, hxv, Finset.mem_singleton]
    refine ⟨?_, ?_⟩
    · intro hcase
      rcases hcase with ⟨⟨h1, h2⟩, h3 | h3, -⟩
      · exact h3.antisymm h1
      · -- `z`, and so `x`, is a common ancestor
        have hxw := hw.lowest x hx (h1.trans h3)
        have hzw := hw.lowest z h2 h3
        exact (hzw.trans hwx).antisymm h1
    · rintro rfl
      exact ⟨⟨Anc.refl T _, hx⟩, Or.inl (Anc.refl T _), hwx⟩

/-- **A path cut at any of its nodes.** -/
theorem sum_path_split (f : V → M) (hx : x ∈ T.path u v) :
    ∑ i ∈ T.path u v, f i + f x = ∑ i ∈ T.path u x, f i + ∑ i ∈ T.path x v, f i := by
  obtain ⟨hx | hx, hwx⟩ := mem_path.1 hx
  · exact sum_path_split_left f hx hwx
  · rw [lca_comm] at hwx
    rw [path_comm T u v, sum_path_split_left f hx hwx, add_comm, path_comm T x u, path_comm T v x]

omit [Fintype V] in
/-- above a node `h` that is not above `v`, the lowest common ancestor is the same -/
theorem lca_climb (hu : T.Anc h u) (hv : ¬ T.Anc h v) : T.lca (T.parent h) v = T.lca u v := by
  have hw := T.isLca_lca u v
  refine lca_eq ⟨?_, hw.right, fun y hy hyv => hw.lowest y (hy.trans ((Anc.parent T h).trans hu)) hyv⟩
  rcases hw.left.total hu with hz | hz
  · exact hz.anc_parent fun he => hv (he ▸ hw.right)
  · exact absurd (hz.trans hw.right) hv

/-- **A path with its part below and including `h` cut off**, where `h` is above its first end only. -/
theorem sum_path_climb (f : V → M) (hu : T.Anc h u) (hv : ¬ T.Anc h v) :
    ∑ i ∈ T.path u v, f i = ∑ i ∈ T.seg h u, f i + ∑ i ∈ T.path (T.parent h) v, f i := by
  have hh : h ≠ T.root := fun he => hv (he ▸ Anc.root T v)
  have hlca := lca_climb hu hv
  have hw := T.isLca_lca u v
  have hwh : T.Anc (T.lca u v) (T.parent h) := hlca ▸ (T.isLca_lca (T.parent h) v).left
  have hdisj : Disjoint (T.seg h u) (T.path (T.parent h) v) := by
    rw [Finset.disjoint_left]
    intro z h1 h2
    rw [mem_seg] at h1
    rcases (mem_path.1 h2).1 with h3 | h3
    · exact not_anc_of_child (T.mem_children_parent hh) (h1.1.trans h3)
    · exact hv (h1.1.trans h3)
  rw [← Finset.sum_union hdisj]
  congr 1
  ext z
  simp only [Finset.mem_union, mem_seg, mem_path, hlca]
  refine ⟨?_, ?_⟩
  · intro hcase
    rcases hcase with ⟨h1 | h1, h2⟩
    · rcases h1.total hu with hz | hz
      · by_cases hzh : z = h
        · exact Or.inl ⟨hzh ▸ Anc.refl T _, h1⟩
        · exact Or.inr ⟨Or.inl (hz.anc_parent hzh), h2⟩
      · exact Or.inl ⟨hz, h1⟩
    · exact Or.inr ⟨Or.inr h1, h2⟩
  · intro hcase
    rcases hcase with ⟨h1, h2⟩ | ⟨h1 | h1, h2⟩
    · exact ⟨Or.inl h2, hwh.trans ((Anc.parent T h).trans h1)⟩
    · exact ⟨Or.inl (h1.trans ((Anc.parent T h).trans hu)), h2⟩
    · exact ⟨Or.inr h1, h2⟩

/-! ## Sums by position on one heavy path -/

/-- the nodes of a downward path on one heavy path are the nodes at consecutive positions -/
theorem sum_seg_pos (f : V → M) (arr : ℤ → M) (harr : ∀ v, arr (T.pos v) = f v) (hh : T.head u = T.head v)
    (ha : T.Anc u v) : ∑ i ∈ T.seg u v, f i = ∑ i ∈ Finset.Icc (T.pos u : ℤ) (T.pos v), arr i := by
  refine Finset.sum_bij (fun x _ => (T.pos x : ℤ)) ?_ ?_ ?_ ?_
  · intro x hx
    obtain ⟨h1, h2⟩ := mem_seg.1 hx
    have h3 := (pos_sub h1).1
    have h4 := (pos_sub h2).1
    rw [Finset.mem_Icc]
    omega
  · intro x _ y _ hxy
    exact T.pos_injective (Int.ofNat.inj hxy)
  · intro i hi
    rw [Finset.mem_Icc] at hi
    -- the node at position `i` is so far above `v`
    have h1 := pos_chain hh ha
    have h2 := ha.depth_le
    have hx : T.Anc (T.up (T.pos v - i.toNat) v) v := Anc.of_up T _ _
    have hd := T.depth_up (T.pos v - i.toNat) v
    have hux : T.Anc u (T.up (T.pos v - i.toNat) v) := ha.of_depth_le hx (by omega)
    have h3 := pos_chain (chain_of_same_head hh hux hx) hx
    exact ⟨_, mem_seg.2 ⟨hux, hx⟩, by omega⟩
  · intro x _
    exact (harr x).symm

/-- the same for a path between two nodes of one heavy path, in either order -/
theorem sum_path_chain (f : V → M) (arr : ℤ → M) (harr : ∀ v, arr (T.pos v) = f v) (hh : T.head u = T.head v) :
    ∑ i ∈ T.path u v, f i =
      ∑ i ∈ Finset.Icc (min (T.pos u) (T.pos v) : ℤ) (max (T.pos u) (T.pos v)), arr i := by
  rcases le_total (T.pos u) (T.pos v) with hp | hp
  · have ha := (anc_iff_pos_le hh).2 hp
    rw [path_of_anc ha, sum_seg_pos f arr harr hh ha, min_eq_left (by omega), max_eq_right (by omega)]
  · have ha := (anc_iff_pos_le hh.symm).2 hp
    rw [path_comm, path_of_anc ha, sum_seg_pos f arr harr hh.symm ha, min_eq_right (by omega),
      max_eq_left (by omega)]

/-! ## Landing on a heavy path -/

/-- `y` is the lowest ancestor of `u` on the heavy path of `x` -/
structure IsLanding (T : ParentTree V) (y u x : V) : Prop where
  anc : T.Anc y u
  head : T.head y = T.head x
  lowest : ∀ z, T.Anc z u → T.head z = T.head x → T.Anc z y

theorem IsLanding.self (hh : T.head u = T.head x) : T.IsLanding u u x := ⟨Anc.refl T u, hh, fun _ hz _ => hz⟩

/-- from a node off the heavy path of `x`, the landing is that of the parent of its head -/
theorem IsLanding.climb (hne : T.head u ≠ T.head x) (hy : T.IsLanding y (T.parent (T.head u)) x) :
    T.IsLanding y u x := by
  refine ⟨hy.anc.trans ((Anc.parent T _).trans (T.head_anc u)), hy.head, fun z hz hzx => ?_⟩
  refine hy.lowest z ?_ hzx
  -- `z` is above the head of `u`: otherwise it would be on the heavy path of `u`
  rcases hz.total (T.head_anc u) with h | h
  · refine h.anc_parent fun he => hne ?_
    rw [he, head_head] at hzx
    exact hzx
  · exact absurd ((chain_between h hz).symm.trans hzx) hne

/-- from a node off the heavy path of `x` but below it, the head is not the root, and its parent is still below -/
theorem anc_above_head (hz : T.head z = T.head x) (hzu : T.Anc z u) (hne : T.head u ≠ T.head x) :
    T.head u ≠ T.root ∧ T.Anc z (T.parent (T.head u)) := by
  have hoff : ¬ T.Anc (T.head u) z := fun ha => hne ((chain_between ha hzu).symm.trans hz)
  refine ⟨fun he => hoff (he ▸ Anc.root T z), ?_⟩
  have ha := ((T.head_anc u).total hzu).resolve_left hoff
  exact ha.anc_parent fun he => hoff (he ▸ Anc.refl T _)

/-- the landing is below `x` exactly when the way down to `u` goes through the heavy child of `x` -/
theorem IsLanding.below_iff (hy : T.IsLanding y u x) :
    T.pos x < T.pos y ↔ ∃ c, T.heavy x = some c ∧ T.Anc c u := by
  refine ⟨?_, ?_⟩
  · intro hlt
    have hxy : T.Anc x y := (anc_iff_pos_le hy.head.symm).2 hlt.le
    have hne : x ≠ y := fun he => by rw [he] at hlt; omega
    obtain ⟨c, hc, hcy⟩ := hxy.child_toward hne
    have hhead : T.head c = T.head x := (chain_of_same_head hy.head.symm (Anc.of_child hc) hcy).trans hy.head
    refine ⟨c, ?_, hcy.trans hy.anc⟩
    rcases T.head_cases c with he | ⟨_, hheavy, _⟩
    · -- a head below `x` is not the head of `x`
      have h1 := (T.head_anc x).depth_le
      have h2 := T.depth_of_child hc
      rw [← hhead, he] at h1
      omega
    · rwa [T.parent_of_child hc] at hheavy
  · intro hcase
    obtain ⟨c, hc, hcu⟩ := hcase
    have hcy := hy.lowest c hcu (head_of_heavy hc)
    have h1 := pos_of_heavy hc
    have h2 := (pos_sub hcy).1
    omega

/-- the landing is on the path -/
theorem IsLanding.mem_path (hy : T.IsLanding y u x) : y ∈ T.path u x := by
  refine ParentTree.mem_path.2 ⟨Or.inl hy.anc, ?_⟩
  have hw := T.isLca_lca u x
  rcases hy.anc.total hw.left with h | h
  · -- a common ancestor below `y` and above `x` is on the heavy path, so it is `y`
    exact hy.lowest _ hw.left (chain_of_same_head hy.head h hw.right)
  · exact h

/-- **The path from `u` to `x`, cut at the landing**: straight up to the landing, then along the heavy path. -/
theorem sum_landing (f : V → M) (hy : T.IsLanding y u x) :
    ∑ i ∈ T.path u x, f i + f y = ∑ i ∈ T.seg y u, f i + ∑ i ∈ T.path y x, f i := by
  rw [sum_path_split f hy.mem_path, path_comm T u y, path_of_anc hy.anc]

end HeavyLight.ParentTree
