/-
Lowest common ancestors by binary lifting with levels `0` to `L - 1`, where the tree has fewer than `2 ^ (L + 1)` nodes.
A general library over `ParentTree`.

- `up_eq_iff`: two nodes of one depth have equal ancestors at distance `k` exactly from their lowest common ancestor on.
- `lca_near`: two nodes of one depth that differ are less than `2 ^ L` below their lowest common ancestor.
- `pivot L u v`: the node the lifting ends on. It is the lowest common ancestor, except for a depth difference of `2 ^ L`
  or more, where it is the ancestor of the deeper node at the depth of the other.
- `pivot_mem_path`, `head_pivot`: the pivot is on the path, and on the heavy path of the lowest common ancestor.
- `pivot_eq_lca_iff`: when it is the lowest common ancestor.
-/
import HeavyLight.TreePath

namespace HeavyLight.ParentTree

variable {V : Type*} [Fintype V] [DecidableEq V] {T : ParentTree V} {L k : ℕ} {a u v w x y : V}

/-! ## Depths and sizes -/

/-- the nodes from `a` down to `v` are in the subtree of `a` -/
theorem depth_lt_size (h : T.Anc a v) : T.depth v < T.depth a + T.size a := by
  induction a using T.ascend with
  | step a ih =>
    by_cases hav : a = v
    · rw [hav]
      have := T.size_pos v
      omega
    · obtain ⟨c, hc, hcv⟩ := h.child_toward hav
      have h1 := ih c hc hcv
      have h2 := T.depth_of_child hc
      have h3 := size_child_lt hc
      omega

omit [Fintype V] in
/-- two nodes of one depth have equal ancestors at distance `k` exactly from their lowest common ancestor on -/
theorem up_eq_iff (hd : T.depth u = T.depth v) : T.up k u = T.up k v ↔ T.depth u - T.depth (T.lca u v) ≤ k := by
  have hw := T.isLca_lca u v
  refine ⟨?_, ?_⟩
  · intro h
    have hle := (hw.lowest _ (Anc.of_up T k u) (h ▸ Anc.of_up T k v)).depth_le
    rw [depth_up] at hle
    omega
  · intro h
    obtain ⟨j, rfl⟩ : ∃ j, k = j + (T.depth u - T.depth (T.lca u v)) := ⟨_, (Nat.sub_add_cancel h).symm⟩
    rw [up_add, up_add, hw.left.up_eq, hd, hw.right.up_eq]

/-- **Two branches fill the tree.** Nodes on two branches below their lowest common ancestor are not both far below it. -/
theorem lca_near (hu : ¬ T.Anc u v) (hv : ¬ T.Anc v u) :
    T.depth u + T.depth v < 2 * T.depth (T.lca u v) + Fintype.card V := by
  have hw := T.isLca_lca u v
  have hwu : T.lca u v ≠ u := fun h => hu (h ▸ hw.right)
  have hwv : T.lca u v ≠ v := fun h => hv (h ▸ hw.left)
  obtain ⟨b, hb, hbu⟩ := hw.left.child_toward hwu
  obtain ⟨c, hc, hcv⟩ := hw.right.child_toward hwv
  have hbc : b ≠ c := by
    rintro rfl
    exact not_anc_of_child hb (hw.lowest b hbu hcv)
  have h1 := size_add_lt hb hc hbc
  have h2 := T.size_le_card (T.lca u v)
  have h3 := depth_lt_size hbu
  have h4 := depth_lt_size hcv
  have h5 := T.depth_of_child hb
  have h6 := T.depth_of_child hc
  omega

/-! ## The pivot -/

/-- the end of the lifting from `u`, the deeper node, and `v` -/
def pivotFrom (T : ParentTree V) (L : ℕ) (u v : V) : V :=
  if T.depth u - T.depth v < 2 ^ L then T.lca u v else T.up (T.depth u - T.depth v) u

/-- the node the lifting ends on -/
def pivot (T : ParentTree V) (L : ℕ) (u v : V) : V :=
  if T.depth u < T.depth v then T.pivotFrom L v u else T.pivotFrom L u v

omit [Fintype V] in
/-- the pivot does not depend on the order of the nodes -/
theorem pivot_comm (u v : V) : T.pivot L u v = T.pivot L v u := by
  unfold pivot
  split_ifs with h1 h2 h2
  · omega
  · rfl
  · rfl
  · have hd : T.depth u = T.depth v := by omega
    unfold pivotFrom
    rw [hd, Nat.sub_self, if_pos (Nat.two_pow_pos L), if_pos (Nat.two_pow_pos L), lca_comm]

omit [Fintype V] in
/-- what holds of `pivotFrom` for the deeper node first holds of `pivot` -/
theorem pivot_cases {P : V → V → V → Prop} (hsymm : ∀ u v x, P v u x → P u v x)
    (h : ∀ u v, T.depth v ≤ T.depth u → P u v (T.pivotFrom L u v)) (u v : V) : P u v (T.pivot L u v) := by
  unfold pivot
  split_ifs with hd
  · exact hsymm u v _ (h v u hd.le)
  · exact h u v (not_lt.1 hd)

omit [Fintype V] [DecidableEq V] in
/-- the lifting that overshoots ends at the depth of `v` -/
theorem depth_up_sub (h : T.depth v ≤ T.depth u) : T.depth (T.up (T.depth u - T.depth v) u) = T.depth v := by
  rw [depth_up]
  omega

omit [Fintype V] in
theorem pivotFrom_of_anc (h : T.Anc v u) : T.pivotFrom L u v = v := by
  unfold pivotFrom
  split_ifs
  · rw [lca_comm, lca_of_anc h]
  · exact h.up_eq

/-- **The end of the lifting.** `x` is `u` lifted by the low bits of the depth difference; `j` is the last distance below
`2 ^ L` at which `x` and `v` have different ancestors. The parent of that ancestor of `x` is the pivot. -/
theorem pivotFrom_of_last (hL : Fintype.card V < 2 ^ (L + 1)) (hd : T.depth v ≤ T.depth u)
    (hx : x = T.up ((T.depth u - T.depth v) % 2 ^ L) u) (hk : k < 2 ^ L) (hdiff : T.up k x ≠ T.up k v)
    (hlast : k + 1 = 2 ^ L ∨ T.up (k + 1) x = T.up (k + 1) v) : T.up (k + 1) x = T.pivotFrom L u v := by
  have hxu : T.Anc x u := hx ▸ Anc.of_up T _ _
  have hdu := T.depth_lt_card u
  rw [pow_succ] at hL
  unfold pivotFrom
  split_ifs with h
  · -- `x` has the depth of `v`, and the last difference is right below the lowest common ancestor
    rw [Nat.mod_eq_of_lt h] at hx
    have hdx : T.depth x = T.depth v := hx ▸ depth_up_sub hd
    have hw := T.isLca_lca u v
    have hwx : T.Anc (T.lca u v) x := hw.left.of_depth_le hxu (hdx ▸ hw.right.depth_le)
    have hlca : T.lca x v = T.lca u v := lca_eq ⟨hwx, hw.right, fun y hy hyv => hw.lowest y (hy.trans hxu) hyv⟩
    rw [Ne, up_eq_iff hdx, hlca] at hdiff
    rw [up_eq_iff hdx, hlca] at hlast
    have hnot : ¬ T.Anc x v := fun ha => hdiff (by rw [← hlca, lca_of_anc ha]; omega)
    have hnot' : ¬ T.Anc v x := fun ha => hdiff (by rw [← hlca, lca_comm, lca_of_anc ha]; omega)
    have hnear := lca_near hnot hnot'
    rw [hlca] at hnear
    have hk1 : k + 1 = T.depth x - T.depth (T.lca u v) := by omega
    rw [hk1, hwx.up_eq]
  · -- `x` is `2 ^ L` deeper than `v`, so all ancestors below that distance differ
    have hmod : (T.depth u - T.depth v) % 2 ^ L = T.depth u - T.depth v - 2 ^ L := by
      rw [Nat.mod_eq_sub_mod (by omega), Nat.mod_eq_of_lt (by omega)]
    have hdx : T.depth x = T.depth v + 2 ^ L := by
      rw [hx, hmod, depth_up]
      omega
    have hk1 : k + 1 = 2 ^ L := by
      rcases hlast with hlast | hlast
      · exact hlast
      · have := congrArg T.depth hlast
        rw [depth_up, depth_up] at this
        omega
    rw [hk1, hx, ← up_add, hmod, Nat.add_sub_cancel' (by omega)]

/-- with more than half of all nodes below `x` every edge above `x` is heavy -/
theorem head_eq_root (hx : Fintype.card V < 2 * T.size x) : T.head x = T.root := by
  induction x using T.descend with
  | root => exact T.head_root
  | step x hne ih =>
    have hheavy := heavy_of_majority (T.mem_children_parent hne) hx
    have hsize := T.size_le (Anc.parent T x)
    rw [head_of_heavy hheavy]
    exact ih (by omega)

theorem pivotFrom_spec (hL : Fintype.card V < 2 ^ (L + 1)) (hd : T.depth v ≤ T.depth u) :
    T.pivotFrom L u v ∈ T.path u v ∧ T.head (T.pivotFrom L u v) = T.head (T.lca u v) := by
  have hw := T.isLca_lca u v
  unfold pivotFrom
  split_ifs with h
  · exact ⟨mem_path.2 ⟨Or.inl hw.left, Anc.refl T _⟩, rfl⟩
  · -- the subtree of the pivot has the long way down to `u`, so more than half of all nodes
    have hx : T.Anc (T.up (T.depth u - T.depth v) u) u := Anc.of_up T _ _
    have hdx := depth_up_sub hd
    have hwx : T.Anc (T.lca u v) (T.up (T.depth u - T.depth v) u) := by
      apply hw.left.of_depth_le hx
      rw [hdx]
      exact hw.right.depth_le
    have hsize := depth_lt_size hx
    have hmany : Fintype.card V < 2 * T.size (T.up (T.depth u - T.depth v) u) := by
      rw [pow_succ] at hL
      omega
    have hle := T.size_le hwx
    refine ⟨mem_path.2 ⟨Or.inl hx, hwx⟩, ?_⟩
    rw [head_eq_root hmany, head_eq_root (by omega)]

/-- the pivot is on the path -/
theorem pivot_mem_path (hL : Fintype.card V < 2 ^ (L + 1)) (u v : V) : T.pivot L u v ∈ T.path u v :=
  pivot_cases (P := fun u v x => x ∈ T.path u v) (fun u v x h => by rwa [path_comm])
    (fun _ _ hd => (pivotFrom_spec hL hd).1) u v

/-- the pivot is on the heavy path of the lowest common ancestor -/
theorem head_pivot (hL : Fintype.card V < 2 ^ (L + 1)) (u v : V) : T.head (T.pivot L u v) = T.head (T.lca u v) :=
  pivot_cases (P := fun u v x => T.head x = T.head (T.lca u v)) (fun u v x h => by rwa [lca_comm])
    (fun _ _ hd => (pivotFrom_spec hL hd).2) u v

omit [Fintype V] in
/-- **When the pivot is the lowest common ancestor**: unless the depths differ by `2 ^ L` or more and neither node is above
the other. -/
theorem pivot_eq_lca_iff (u v : V) : T.pivot L u v = T.lca u v ↔
    (T.depth u < T.depth v + 2 ^ L ∧ T.depth v < T.depth u + 2 ^ L) ∨ T.Anc u v ∨ T.Anc v u := by
  refine pivot_cases (P := fun u v x => x = T.lca u v ↔
    (T.depth u < T.depth v + 2 ^ L ∧ T.depth v < T.depth u + 2 ^ L) ∨ T.Anc u v ∨ T.Anc v u) ?_ ?_ u v
  · intro u v x h
    rw [T.lca_comm u v, h]
    tauto
  · intro u v hd
    unfold pivotFrom
    split_ifs with h
    · have : T.depth u < T.depth v + 2 ^ L ∧ T.depth v < T.depth u + 2 ^ L := by omega
      simp [this]
    · have hfar : ¬ (T.depth u < T.depth v + 2 ^ L ∧ T.depth v < T.depth u + 2 ^ L) := by omega
      have hx : T.Anc (T.up (T.depth u - T.depth v) u) u := Anc.of_up T _ _
      have hdx := depth_up_sub hd
      have hw := T.isLca_lca u v
      have hpow := Nat.two_pow_pos L
      refine ⟨?_, ?_⟩
      · -- at the depth of `v` an ancestor of `v` is `v`
        intro he
        rw [he] at hx hdx
        have hwv := hw.right.eq_of_depth hdx.ge
        exact Or.inr (Or.inr (hwv ▸ hx))
      · intro hcase
        rcases hcase with hc | ha | ha
        · exact absurd hc hfar
        · have := ha.depth_le
          omega
        · rw [ha.up_eq, lca_comm, lca_of_anc ha]

end HeavyLight.ParentTree
