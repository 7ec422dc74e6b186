/-
Rooted trees given by a parent function, with the children of each node in some order. A general library: the nodes are
any type, finite where sizes are counted.

- `ParentTree V`: root, parent, depth and ordered children, with their consistency as fields.
- `up k v`: the `k`-th ancestor of `v`, or the root when `v` is less than `k` deep.
- `Anc a v`: `a` is `v` or above it. Ancestry is a partial order in which the ancestors of a node form a chain.
- `sub v`, `size v`: the subtree of `v` and its number of nodes; `size_eq` is one plus the sizes of the children.
- `descend`, `ascend`: induction from the root down and from the leaves up.
- `IsLca`, `lca`: the lowest common ancestor.
-/
import Mathlib.Tactic
import Mathlib.Data.Fintype.Card
import Mathlib.Algebra.BigOperators.Group.Finset.Basic

namespace HeavyLight

/-- a rooted tree with ordered children -/
@[ext] structure ParentTree (V : Type*) where
  root : V
  /-- the parent; the root is its own -/
  parent : V → V
  depth : V → ℕ
  children : V → List V
  parent_root : parent root = root
  depth_root : depth root = 0
  depth_parent : ∀ v, v ≠ root → depth v = depth (parent v) + 1
  children_nodup : ∀ v, (children v).Nodup
  mem_children : ∀ u v, u ∈ children v ↔ u ≠ root ∧ parent u = v

namespace ParentTree

variable {V : Type*} (T : ParentTree V)

/-! ## Ancestors by distance -/

/-- the `k`-th ancestor, or the root -/
def up (k : ℕ) (v : V) : V := T.parent^[k] v

@[simp] theorem up_zero (v : V) : T.up 0 v = v := rfl

theorem up_succ (k : ℕ) (v : V) : T.up (k + 1) v = T.up k (T.parent v) := Function.iterate_succ_apply _ _ _

theorem up_succ' (k : ℕ) (v : V) : T.up (k + 1) v = T.parent (T.up k v) := Function.iterate_succ_apply' _ _ _

theorem up_add (j k : ℕ) (v : V) : T.up (j + k) v = T.up j (T.up k v) := Function.iterate_add_apply _ _ _ _

theorem depth_parent_eq (v : V) : T.depth (T.parent v) = T.depth v - 1 := by
  by_cases hv : v = T.root
  · rw [hv, T.parent_root, T.depth_root]
  · rw [T.depth_parent v hv]; rfl

theorem depth_up (k : ℕ) (v : V) : T.depth (T.up k v) = T.depth v - k := by
  induction k with
  | zero => rfl
  | succ k ih => rw [up_succ', depth_parent_eq, ih]; omega

theorem eq_root_of_depth {v : V} (h : T.depth v = 0) : v = T.root := by
  by_contra hv
  have := T.depth_parent v hv
  omega

/-- lifting by the depth or more ends at the root -/
theorem up_of_depth_le {k : ℕ} {v : V} (h : T.depth v ≤ k) : T.up k v = T.root :=
  T.eq_root_of_depth (by rw [depth_up]; omega)

@[simp] theorem up_root (k : ℕ) : T.up k T.root = T.root := T.up_of_depth_le (by rw [T.depth_root]; omega)

theorem depth_pos {v : V} (h : v ≠ T.root) : 0 < T.depth v := by
  rw [T.depth_parent v h]; omega

theorem ne_root_of_child {u v : V} (h : u ∈ T.children v) : u ≠ T.root := ((T.mem_children u v).1 h).1

theorem parent_of_child {u v : V} (h : u ∈ T.children v) : T.parent u = v := ((T.mem_children u v).1 h).2

theorem depth_of_child {u v : V} (h : u ∈ T.children v) : T.depth u = T.depth v + 1 := by
  rw [T.depth_parent u (T.ne_root_of_child h), T.parent_of_child h]

theorem mem_children_parent {v : V} (h : v ≠ T.root) : v ∈ T.children (T.parent v) := (T.mem_children _ _).2 ⟨h, rfl⟩

/-- induction from the root down -/
theorem descend {P : V → Prop} (root : P T.root) (step : ∀ v, v ≠ T.root → P (T.parent v) → P v) (v : V) : P v := by
  induction hd : T.depth v generalizing v with
  | zero => rw [T.eq_root_of_depth hd]; exact root
  | succ d ih =>
    have hv : v ≠ T.root := fun h => by rw [h, T.depth_root] at hd; omega
    have := T.depth_parent v hv
    exact step v hv (ih _ (by omega))

/-! ## Ancestry -/

/-- `a` is `v` or above it -/
def Anc (a v : V) : Prop := ∃ k, T.up k v = a

variable {T} {a b c u v w : V}

theorem Anc.refl (T : ParentTree V) (v : V) : T.Anc v v := ⟨0, rfl⟩

theorem Anc.trans (h₁ : T.Anc a b) (h₂ : T.Anc b c) : T.Anc a c := by
  obtain ⟨j, rfl⟩ := h₁
  obtain ⟨k, rfl⟩ := h₂
  exact ⟨j + k, T.up_add j k c⟩

theorem Anc.of_up (T : ParentTree V) (k : ℕ) (v : V) : T.Anc (T.up k v) v := ⟨k, rfl⟩

theorem Anc.parent (T : ParentTree V) (v : V) : T.Anc (T.parent v) v := ⟨1, rfl⟩

theorem Anc.root (T : ParentTree V) (v : V) : T.Anc T.root v := ⟨T.depth v, T.up_of_depth_le le_rfl⟩

theorem Anc.of_child (h : u ∈ T.children v) : T.Anc v u := T.parent_of_child h ▸ Anc.parent T u

theorem Anc.depth_le (h : T.Anc a v) : T.depth a ≤ T.depth v := by
  obtain ⟨k, rfl⟩ := h
  rw [depth_up]; omega

/-- an ancestor is the one at its depth -/
theorem anc_iff : T.Anc a v ↔ T.up (T.depth v - T.depth a) v = a := by
  refine ⟨?_, ?_⟩
  · intro hcase
    obtain ⟨k, rfl⟩ := hcase
    rw [depth_up]
    by_cases hk : k ≤ T.depth v
    · congr 1; omega
    · rw [T.up_of_depth_le (v := v) (k := k) (by omega)]
      exact T.up_of_depth_le (by omega)
  · intro h
    exact ⟨_, h⟩

theorem Anc.up_eq (h : T.Anc a v) : T.up (T.depth v - T.depth a) v = a := anc_iff.1 h

instance [DecidableEq V] (a v : V) : Decidable (T.Anc a v) := decidable_of_iff _ anc_iff.symm

theorem Anc.eq_of_depth (h : T.Anc a v) (hd : T.depth v ≤ T.depth a) : a = v := by
  have := h.up_eq
  rwa [Nat.sub_eq_zero_of_le hd, up_zero, eq_comm] at this

theorem Anc.antisymm (h₁ : T.Anc a b) (h₂ : T.Anc b a) : a = b := h₁.eq_of_depth h₂.depth_le

theorem Anc.depth_lt (h : T.Anc a v) (hne : a ≠ v) : T.depth a < T.depth v := by
  by_contra hd
  exact hne (h.eq_of_depth (by omega))

/-- the ancestors of a node form a chain -/
theorem Anc.of_depth_le (ha : T.Anc a v) (hb : T.Anc b v) (h : T.depth a ≤ T.depth b) : T.Anc a b := by
  have hda := ha.depth_le
  have hdb := hb.depth_le
  refine ⟨T.depth b - T.depth a, ?_⟩
  rw [← hb.up_eq, ← up_add, hb.up_eq]
  calc T.up (T.depth b - T.depth a + (T.depth v - T.depth b)) v = T.up (T.depth v - T.depth a) v := by congr 1; omega
    _ = a := ha.up_eq

theorem Anc.total (ha : T.Anc a v) (hb : T.Anc b v) : T.Anc a b ∨ T.Anc b a := by
  rcases le_total (T.depth a) (T.depth b) with h | h
  · exact Or.inl (ha.of_depth_le hb h)
  · exact Or.inr (hb.of_depth_le ha h)

/-- an ancestor is the node itself or an ancestor of the parent -/
theorem anc_cases (hv : v ≠ T.root) : T.Anc a v ↔ a = v ∨ T.Anc a (T.parent v) := by
  refine ⟨?_, ?_⟩
  · intro hcase
    rcases hcase with ⟨_ | k, rfl⟩
    · exact Or.inl rfl
    · exact Or.inr ⟨k, (T.up_succ k v).symm⟩
  · intro hcase
    rcases hcase with rfl | h
    · exact Anc.refl T _
    · exact h.trans (Anc.parent T v)

theorem anc_root_iff : T.Anc a T.root ↔ a = T.root := by
  refine ⟨?_, ?_⟩
  · rintro ⟨k, rfl⟩; exact T.up_root k
  · rintro rfl; exact Anc.refl T _

theorem Anc.anc_parent (h : T.Anc a v) (hne : a ≠ v) : T.Anc a (T.parent v) := by
  by_cases hv : v = T.root
  · subst hv; exact absurd (anc_root_iff.1 h) hne
  · exact ((anc_cases hv).1 h).resolve_left hne

/-- below `a` and not `a` itself: below one of its children -/
theorem Anc.child_toward (h : T.Anc a v) (hne : a ≠ v) : ∃ c ∈ T.children a, T.Anc c v := by
  have hd := h.depth_lt hne
  refine ⟨T.up (T.depth v - T.depth a - 1) v, (T.mem_children _ _).2 ⟨fun hr => ?_, ?_⟩, Anc.of_up T _ _⟩
  · have := T.depth_up (T.depth v - T.depth a - 1) v
    rw [hr, T.depth_root] at this
    omega
  · rw [← up_succ']
    calc T.up (T.depth v - T.depth a - 1 + 1) v = T.up (T.depth v - T.depth a) v := by congr 1; omega
      _ = a := h.up_eq

theorem anc_iff_child : T.Anc a v ↔ a = v ∨ ∃ c ∈ T.children a, T.Anc c v := by
  refine ⟨?_, ?_⟩
  · intro h
    by_cases hne : a = v
    · exact Or.inl hne
    · exact Or.inr (h.child_toward hne)
  · intro hcase
    rcases hcase with rfl | ⟨c, hc, h⟩
    · exact Anc.refl T _
    · exact (Anc.of_child hc).trans h

/-- the subtrees of two children are disjoint -/
theorem child_unique (hb : b ∈ T.children a) (hc : c ∈ T.children a) (hbv : T.Anc b v) (hcv : T.Anc c v) : b = c :=
  (hbv.of_depth_le hcv (by rw [T.depth_of_child hb, T.depth_of_child hc])).eq_of_depth
    (by rw [T.depth_of_child hb, T.depth_of_child hc])

theorem not_anc_of_child (hc : c ∈ T.children a) : ¬ T.Anc c a := fun h => by
  have := h.depth_le
  rw [T.depth_of_child hc] at this
  omega

theorem child_ne_parent (hu : u ∈ T.children v) : u ≠ T.parent v := by
  intro he
  have h1 := T.depth_of_child hu
  have h2 := T.depth_parent_eq v
  rw [← he] at h2
  omega

/-! ## Subtrees -/

section Finite

variable [Fintype V] [DecidableEq V]

/-- the subtree of `v` -/
def sub (T : ParentTree V) (v : V) : Finset V := Finset.univ.filter (T.Anc v)

/-- the number of nodes in the subtree of `v` -/
def size (T : ParentTree V) (v : V) : ℕ := (T.sub v).card

@[simp] theorem mem_sub : w ∈ T.sub v ↔ T.Anc v w := by simp [sub]

theorem sub_root (T : ParentTree V) : T.sub T.root = Finset.univ := by
  ext w; simp [Anc.root]

theorem size_root (T : ParentTree V) : T.size T.root = Fintype.card V := by rw [size, sub_root, Finset.card_univ]

theorem size_pos (T : ParentTree V) (v : V) : 0 < T.size v :=
  Finset.card_pos.2 ⟨v, mem_sub.2 (Anc.refl T v)⟩

theorem sub_subset (h : T.Anc a v) : T.sub v ⊆ T.sub a := fun _ hw => mem_sub.2 (h.trans (mem_sub.1 hw))

theorem size_le (h : T.Anc a v) : T.size v ≤ T.size a := Finset.card_le_card (sub_subset h)

theorem size_le_card (T : ParentTree V) (v : V) : T.size v ≤ Fintype.card V := Finset.card_le_univ _

/-- the subtree of `v` is `v` and the subtrees of its children -/
theorem sub_eq (T : ParentTree V) (v : V) : T.sub v = insert v ((T.children v).toFinset.biUnion T.sub) := by
  ext w
  simp only [mem_sub, Finset.mem_insert, Finset.mem_biUnion, List.mem_toFinset]
  rw [anc_iff_child, eq_comm]

theorem size_eq (T : ParentTree V) (v : V) : T.size v = 1 + ((T.children v).map T.size).sum := by
  have hnot : v ∉ (T.children v).toFinset.biUnion T.sub := by
    simp only [Finset.mem_biUnion, List.mem_toFinset, mem_sub]
    intro hcase
    obtain ⟨c, hc, h⟩ := hcase
    exact not_anc_of_child hc h
  have hdisj : ∀ b ∈ (T.children v).toFinset, ∀ c ∈ (T.children v).toFinset, b ≠ c → Disjoint (T.sub b) (T.sub c) := by
    intro b hb c hc hne
    rw [Finset.disjoint_left]
    intro w hbw hcw
    rw [List.mem_toFinset] at hb hc
    exact hne (child_unique hb hc (mem_sub.1 hbw) (mem_sub.1 hcw))
  rw [size, sub_eq, Finset.card_insert_of_notMem hnot, Finset.card_biUnion hdisj, add_comm,
    List.sum_toFinset _ (T.children_nodup v)]
  rfl

theorem size_child_lt (hc : c ∈ T.children v) : T.size c < T.size v := by
  rw [size_eq T v]
  have := List.single_le_sum (l := (T.children v).map T.size) (fun _ _ => Nat.zero_le _) _ (List.mem_map_of_mem hc)
  omega

/-- two children together are smaller than their parent -/
theorem size_add_lt (hb : b ∈ T.children v) (hc : c ∈ T.children v) (hne : b ≠ c) : T.size b + T.size c < T.size v := by
  have hdisj : Disjoint (T.sub b) (T.sub c) := by
    rw [Finset.disjoint_left]
    intro w hbw hcw
    exact hne (child_unique hb hc (mem_sub.1 hbw) (mem_sub.1 hcw))
  have hsub : T.sub b ∪ T.sub c ⊆ (T.sub v).erase v := by
    intro w hw
    rw [Finset.mem_erase, mem_sub]
    rcases Finset.mem_union.1 hw with h | h
    · exact ⟨fun he => not_anc_of_child hb (he ▸ mem_sub.1 h), (Anc.of_child hb).trans (mem_sub.1 h)⟩
    · exact ⟨fun he => not_anc_of_child hc (he ▸ mem_sub.1 h), (Anc.of_child hc).trans (mem_sub.1 h)⟩
  have hcard := Finset.card_le_card hsub
  rw [Finset.card_union_of_disjoint hdisj, Finset.card_erase_of_mem (mem_sub.2 (Anc.refl T v))] at hcard
  have := T.size_pos v
  simp only [size] at this ⊢
  omega

/-- induction from the leaves up -/
theorem ascend (T : ParentTree V) {P : V → Prop} (step : ∀ v, (∀ c ∈ T.children v, P c) → P v) (v : V) : P v := by
  induction hs : T.size v using Nat.strong_induction_on generalizing v with
  | _ s ih => exact step v fun c hc => ih _ (hs ▸ size_child_lt hc) c rfl

end Finite

/-- the nodes on the way from `v` up to the root are pairwise different -/
theorem depth_lt_card [Fintype V] (T : ParentTree V) (v : V) : T.depth v < Fintype.card V := by
  have hinj : Set.InjOn (fun k => T.up k v) (Finset.range (T.depth v + 1)) := by
    intro j hj k hk hjk
    simp only [Finset.coe_range, Set.mem_Iio] at hj hk
    have := congrArg T.depth hjk
    simp only [depth_up] at this
    omega
  have := Finset.card_le_card_of_injOn (t := Finset.univ) (fun k => T.up k v) (fun _ _ => Finset.mem_univ _) hinj
  rw [Finset.card_range, Finset.card_univ] at this
  omega

/-! ## Lowest common ancestors -/

/-- `w` is the lowest common ancestor of `u` and `v` -/
structure IsLca (T : ParentTree V) (w u v : V) : Prop where
  left : T.Anc w u
  right : T.Anc w v
  lowest : ∀ x, T.Anc x u → T.Anc x v → T.Anc x w

theorem IsLca.symm (h : T.IsLca w u v) : T.IsLca w v u := ⟨h.right, h.left, fun x hv hu => h.lowest x hu hv⟩

theorem IsLca.unique {w' : V} (h : T.IsLca w u v) (h' : T.IsLca w' u v) : w = w' :=
  (h'.lowest w h.left h.right).antisymm (h.lowest w' h'.left h'.right)

theorem IsLca.of_anc (h : T.Anc u v) : T.IsLca u u v := ⟨Anc.refl T u, h, fun _ hx _ => hx⟩

theorem exists_common (T : ParentTree V) (u v : V) : ∃ k, T.Anc (T.up k u) v :=
  ⟨T.depth u, by rw [T.up_of_depth_le le_rfl]; exact Anc.root T v⟩

/-- the lowest ancestor of `u` that is an ancestor of `v` -/
def lca [DecidableEq V] (T : ParentTree V) (u v : V) : V := T.up (Nat.find (T.exists_common u v)) u

theorem isLca_lca [DecidableEq V] (T : ParentTree V) (u v : V) : T.IsLca (T.lca u v) u v := by
  refine ⟨Anc.of_up T _ _, Nat.find_spec (T.exists_common u v), fun x hu hv => ?_⟩
  have hk : Nat.find (T.exists_common u v) ≤ T.depth u - T.depth x :=
    Nat.find_min' _ (by rw [hu.up_eq]; exact hv)
  apply hu.of_depth_le (Anc.of_up T _ _)
  have := hu.depth_le
  rw [depth_up]
  omega

/-! ## Trees with the parent before the child -/

section Numbered

variable {n : ℕ} {par : Fin (n + 1) → Fin (n + 1)}

theorem iterate_le (hpar : ∀ v, v ≠ 0 → par v < v) (h0 : par 0 = 0) (k : ℕ) (v : Fin (n + 1)) :
    (par^[k] v : ℕ) ≤ v - k := by
  induction k with
  | zero => exact le_rfl
  | succ k ih =>
    rw [Function.iterate_succ_apply']
    by_cases hv : par^[k] v = 0
    · rw [hv, h0]; exact Nat.zero_le _
    · have h1 : (par (par^[k] v) : ℕ) < par^[k] v := hpar _ hv
      omega

/-- the tree on `0, ..., n` in which the parent of each node other than 0 has a smaller number -/
def numbered (par : Fin (n + 1) → Fin (n + 1)) (h0 : par 0 = 0) (hpar : ∀ v, v ≠ 0 → par v < v) :
    ParentTree (Fin (n + 1)) where
  root := 0
  parent := par
  depth v := (List.range (n + 1)).countP fun k => par^[k] v ≠ 0
  children v := (List.finRange (n + 1)).filter fun u => u ≠ 0 ∧ par u = v
  parent_root := h0
  depth_root := by
    rw [List.countP_eq_zero]
    intro k _
    simp [Function.iterate_fixed h0]
  depth_parent v hv := by
    -- the last of the `n + 1` ancestors of the parent is the root
    have hlast : par^[n] (par v) = 0 := by
      have h1 := iterate_le hpar h0 n (par v)
      have h2 : (par v : ℕ) < v := hpar v hv
      exact Fin.ext (by rw [Fin.val_zero]; omega)
    have hright : (List.range (n + 1)).countP (fun k => par^[k] (par v) ≠ 0) =
        (List.range n).countP fun k => par^[k] (par v) ≠ 0 := by
      rw [List.range_succ, List.countP_append, List.countP_singleton, hlast]
      simp
    rw [hright, List.range_succ_eq_map, List.countP_cons, List.countP_map]
    simp only [Function.iterate_zero_apply, hv, ne_eq, not_false_eq_true, decide_true, if_true]
    rfl
  children_nodup v := (List.nodup_finRange _).filter _
  mem_children u v := by simp

end Numbered

end ParentTree

end HeavyLight
