/-
Heavy paths of a rooted tree with ordered children, and the depth-first numbering that visits the heavy child first. A
general library over `ParentTree`.

- `heavy v`: the first child of `v` with the largest subtree, if `v` has children.
- `head v`: the topmost node reached from `v` by going to the parent while the node is its parent's heavy child.
- `order v`: the children of `v`, the heavy one first; `pos v`: the number of nodes visited before `v`.
- `heavy_of_majority`: a child with more than half of all nodes below it is the heavy child.
- `chain_between`, `chain_comparable`: nodes with one head lie on one downward path, and so does all between them.
- `FollowsHeavy p`: numberings in which a heavy child comes right after its parent; `FollowsHeavy.mem_range` says which
  nodes lie between a head and a node of its path.
- `pos_of_heavy`, `pos_chain`: a heavy path occupies consecutive positions.
- `reach_iff`, `head_eq_iff_reach`: the nodes reached by going up a heavy path, and the head as the topmost one.
- `level v`: the number of light edges above `v`. `size_level`, `level_le_log`: sizes double with each of them, so there
  are at most logarithmically many.
- `image_pos_sub`, `pos_injective`: a subtree occupies the interval `[pos v, pos v + size v)`, and `pos` is a bijection
  onto `[0, card V)`.
-/
import HeavyLight.ParentTree

namespace HeavyLight.ParentTree

variable {V : Type*} [Fintype V] [DecidableEq V]

/-! ## The heavy child -/

/-- the better of the best child so far and the next one; the earlier one wins a tie -/
def heavier (T : ParentTree V) : Option V → V → Option V
  | none, u => some u
  | some b, u => if T.size b < T.size u then some u else some b

/-- the first of the nodes `us` with the largest subtree -/
def heavyOf (T : ParentTree V) (us : List V) : Option V := us.foldl T.heavier none

/-- the heavy child of `v` -/
def heavy (T : ParentTree V) (v : V) : Option V := T.heavyOf (T.children v)

variable {T : ParentTree V} {a b c u v w x y : V}

theorem heavyOf_concat (us : List V) (u : V) : T.heavyOf (us ++ [u]) = T.heavier (T.heavyOf us) u := by
  simp [heavyOf]

theorem heavyOf_spec (us : List V) :
    (T.heavyOf us = none ∧ us = []) ∨ ∃ c ∈ us, T.heavyOf us = some c ∧ ∀ u ∈ us, T.size u ≤ T.size c := by
  induction us using List.reverseRecOn with
  | nil => exact Or.inl ⟨rfl, rfl⟩
  | append_singleton us u ih =>
    right
    rw [heavyOf_concat]
    rcases ih with ⟨h, rfl⟩ | ⟨c, hc, h, hmax⟩
    · exact ⟨u, by simp, by rw [h]; rfl, by simp⟩
    · rw [h]
      by_cases hlt : T.size c < T.size u
      · refine ⟨u, by simp, by simp [heavier, hlt], fun x hx => ?_⟩
        rcases List.mem_append.1 hx with hx | hx
        · exact (hmax x hx).trans hlt.le
        · rw [List.mem_singleton.1 hx]
      · refine ⟨c, by simp [hc], by simp [heavier, hlt], fun x hx => ?_⟩
        rcases List.mem_append.1 hx with hx | hx
        · exact hmax x hx
        · rw [List.mem_singleton.1 hx]; omega

/-- the nodes before the best one are smaller, those after it at most as large -/
theorem heavyOf_split {us : List V} (h : T.heavyOf us = some c) :
    ∃ pre post, us = pre ++ c :: post ∧ (∀ u ∈ pre, T.size u < T.size c) ∧ ∀ u ∈ post, T.size u ≤ T.size c := by
  induction us using List.reverseRecOn generalizing c with
  | nil => cases h
  | append_singleton us u ih =>
    rw [heavyOf_concat] at h
    rcases T.heavyOf_spec us with ⟨hb, rfl⟩ | ⟨b, -, hb, hmax⟩
    · rw [hb] at h
      obtain rfl : u = c := Option.some.inj h
      exact ⟨[], [], rfl, by simp, by simp⟩
    · rw [hb] at h
      unfold heavier at h
      dsimp only at h
      split_ifs at h with hlt
      · obtain rfl : u = c := Option.some.inj h
        exact ⟨us, [], rfl, fun x hx => (hmax x hx).trans_lt hlt, by simp⟩
      · obtain rfl : b = c := Option.some.inj h
        obtain ⟨pre, post, hsplit, hpre, hpost⟩ := ih hb
        refine ⟨pre, post ++ [u], by rw [hsplit, List.append_assoc]; rfl, hpre, fun x hx => ?_⟩
        rcases List.mem_append.1 hx with hx | hx
        · exact hpost x hx
        · rw [List.mem_singleton.1 hx]
          omega

/-- a node that no later one exceeds stays the best -/
theorem heavyOf_cons {us : List V} (h : ∀ u ∈ us, T.size u ≤ T.size c) : T.heavyOf (c :: us) = some c := by
  induction us using List.reverseRecOn with
  | nil => rfl
  | append_singleton us u ih =>
    have hus : T.heavyOf (c :: us) = some c := ih fun x hx => h x (List.mem_append_left _ hx)
    have hu : ¬ T.size c < T.size u := (h u (by simp)).not_gt
    rw [← List.cons_append, heavyOf_concat, hus]
    exact if_neg hu

theorem heavy_eq_none : T.heavy v = none ↔ T.children v = [] := by
  refine ⟨?_, ?_⟩
  · intro h
    rcases T.heavyOf_spec (T.children v) with ⟨_, hc⟩ | ⟨c, _, hc, _⟩
    · exact hc
    · rw [heavy, hc] at h; cases h
  · intro h; rw [heavy, h]; rfl

theorem heavy_mem (h : T.heavy v = some c) : c ∈ T.children v := by
  rcases T.heavyOf_spec (T.children v) with ⟨hn, _⟩ | ⟨d, hd, hs, _⟩
  · rw [heavy, hn] at h; cases h
  · rw [heavy, hs] at h; cases h; exact hd

theorem heavy_max (h : T.heavy v = some c) (hu : u ∈ T.children v) : T.size u ≤ T.size c := by
  rcases T.heavyOf_spec (T.children v) with ⟨hn, _⟩ | ⟨d, _, hs, hmax⟩
  · rw [heavy, hn] at h; cases h
  · rw [heavy, hs] at h; cases h; exact hmax u hu

theorem exists_heavy (h : u ∈ T.children v) : ∃ c, T.heavy v = some c := by
  cases hc : T.heavy v with
  | some c => exact ⟨c, rfl⟩
  | none => rw [heavy_eq_none] at hc; rw [hc] at h; cases h

/-- a child with more than half of all nodes is heavy: no sibling has as many -/
theorem heavy_of_majority (hu : u ∈ T.children v) (h : Fintype.card V < 2 * T.size u) : T.heavy v = some u := by
  obtain ⟨c, hc⟩ := exists_heavy hu
  by_contra hne
  have hcu : c ≠ u := fun he => hne (he ▸ hc)
  have h1 := heavy_max hc hu
  have h2 := size_add_lt (heavy_mem hc) hu hcu
  have h3 := T.size_le_card v
  omega

/-! ## Heads of heavy paths -/

/-- `v` starts a heavy path -/
def IsHead (T : ParentTree V) (v : V) : Prop := v = T.root ∨ T.heavy (T.parent v) ≠ some v

instance (v : V) : Decidable (T.IsHead v) := inferInstanceAs (Decidable (v = T.root ∨ T.heavy (T.parent v) ≠ some v))

theorem exists_isHead (T : ParentTree V) (v : V) : ∃ k, T.IsHead (T.up k v) :=
  ⟨T.depth v, Or.inl (T.up_of_depth_le le_rfl)⟩

/-- the head of the heavy path through `v` -/
def head (T : ParentTree V) (v : V) : V := T.up (Nat.find (T.exists_isHead v)) v

theorem isHead_head (T : ParentTree V) (v : V) : T.IsHead (T.head v) := Nat.find_spec (T.exists_isHead v)

theorem head_anc (T : ParentTree V) (v : V) : T.Anc (T.head v) v := Anc.of_up T _ _

theorem head_of_isHead (h : T.IsHead v) : T.head v = v := by
  have : Nat.find (T.exists_isHead v) = 0 := (Nat.find_eq_zero _).2 h
  unfold head
  rw [this, up_zero]

theorem not_isHead (h : T.heavy (T.parent v) = some v) : ¬ T.IsHead v := by
  intro hcase
  rcases hcase with rfl | hne
  · exact T.ne_root_of_child (heavy_mem h) rfl
  · exact hne h

theorem head_of_heavy (h : T.heavy v = some c) : T.head c = T.head v := by
  have hp : T.parent c = v := T.parent_of_child (heavy_mem h)
  have hnot : ¬ T.IsHead c := not_isHead (by rw [hp, h])
  have hfind : Nat.find (T.exists_isHead c) = Nat.find (T.exists_isHead v) + 1 := by
    rw [Nat.find_eq_iff]
    refine ⟨?_, fun j hj => ?_⟩
    · rw [up_succ, hp]; exact Nat.find_spec (T.exists_isHead v)
    · rcases j with _ | j
      · exact hnot
      · rw [up_succ, hp]; exact Nat.find_min (T.exists_isHead v) (by omega)
  rw [head, hfind, up_succ, hp]; rfl

@[simp] theorem head_root (T : ParentTree V) : T.head T.root = T.root := head_of_isHead (Or.inl rfl)

@[simp] theorem head_head (T : ParentTree V) (v : V) : T.head (T.head v) = T.head v := head_of_isHead (T.isHead_head v)

/-- a node is a head or the heavy child of its parent, with its parent's head -/
theorem head_cases (T : ParentTree V) (v : V) :
    T.head v = v ∨ (v ≠ T.root ∧ T.heavy (T.parent v) = some v ∧ T.head v = T.head (T.parent v)) := by
  by_cases h : T.IsHead v
  · exact Or.inl (head_of_isHead h)
  · rw [IsHead, not_or, not_not] at h
    exact Or.inr ⟨h.1, h.2, head_of_heavy h.2⟩

/-- everything between a node and the head of its path is on the path -/
theorem chain_between (h : T.Anc (T.head v) x) (hx : T.Anc x v) : T.head x = T.head v := by
  induction v using T.descend with
  | root => rw [anc_root_iff.1 hx]
  | step v hv ih =>
    rcases T.head_cases v with he | ⟨_, _, he⟩
    · rw [he] at h; rw [h.antisymm hx]
    · by_cases hxv : x = v
      · rw [hxv]
      · rw [he] at h ⊢; exact ih h (hx.anc_parent hxv)

/-- a node with the head of `v` and above `v` has only nodes of the path between -/
theorem chain_of_same_head (h : T.head u = T.head v) (hux : T.Anc u x) (hx : T.Anc x v) : T.head x = T.head v :=
  chain_between ((h ▸ T.head_anc u).trans hux) hx

theorem eq_of_head_of_depth (h : T.head u = T.head v) (hd : T.depth u = T.depth v) : u = v := by
  induction u using T.descend generalizing v with
  | root =>
    rw [T.depth_root] at hd
    exact (T.eq_root_of_depth hd.symm).symm
  | step u hu ih =>
    have hhead := (T.head_anc v).depth_le
    have hhead' := (T.head_anc u).depth_le
    rcases T.head_cases u with hu' | ⟨_, hup, hu'⟩
    · exact hu'.symm.trans (h.trans ((T.head_anc v).eq_of_depth (by rw [← h, hu', hd])))
    rcases T.head_cases v with hv' | ⟨hv, hvp, hv'⟩
    · exact ((T.head_anc u).eq_of_depth (by rw [h, hv', hd])).symm.trans (h.trans hv')
    -- both are heavy children of one parent
    have hpar : T.parent u = T.parent v := by
      apply ih (by rw [← hu', h, hv'])
      rw [depth_parent_eq, depth_parent_eq, hd]
    rw [hpar, hvp] at hup
    exact (Option.some.inj hup).symm

/-- of two nodes on one heavy path the shallower is an ancestor of the deeper -/
theorem chain_comparable (h : T.head u = T.head v) (hd : T.depth u ≤ T.depth v) : T.Anc u v := by
  have hx : T.Anc (T.up (T.depth v - T.depth u) v) v := Anc.of_up T _ _
  have hdx : T.depth (T.up (T.depth v - T.depth u) v) = T.depth u := by rw [depth_up]; omega
  have hh : T.head (T.up (T.depth v - T.depth u) v) = T.head v := by
    refine chain_between ((T.head_anc v).of_depth_le hx ?_) hx
    rw [hdx, ← h]
    exact (T.head_anc u).depth_le
  rw [eq_of_head_of_depth (h.trans hh.symm) hdx.symm]
  exact hx

/-- a head that is an ancestor of `v` and at most as high as the head of `v` is the head of `v` -/
theorem head_eq_of_anc (ha : T.Anc (T.head u) v) (hd : T.depth (T.head v) ≤ T.depth (T.head u)) :
    T.head u = T.head v := by
  have := chain_between ((T.head_anc v).of_depth_le ha hd) ha
  rwa [head_head] at this

/-! ## Going up a heavy path -/

/-- the step from the heavy child `v` of `p` up to `p` -/
def HeavyStep (T : ParentTree V) (v p : V) : Prop := T.heavy p = some v

/-- **The nodes above `v` on its heavy path** are those reached by going up while the node is a heavy child. -/
theorem reach_iff : Relation.ReflTransGen T.HeavyStep v x ↔ T.head x = T.head v ∧ T.Anc x v := by
  refine ⟨?_, ?_⟩
  · intro h
    induction h with
    | refl => exact ⟨rfl, Anc.refl T v⟩
    | tail _ hstep ih =>
      have hstep : T.heavy _ = some _ := hstep
      exact ⟨(head_of_heavy hstep).symm.trans ih.1, (Anc.of_child (heavy_mem hstep)).trans ih.2⟩
  · intro hcase
    obtain ⟨hh, ha⟩ := hcase
    induction v using T.descend with
    | root => rw [anc_root_iff.1 ha]
    | step v hv ih =>
      by_cases hxv : x = v
      · rw [hxv]
      rcases T.head_cases v with hv' | ⟨_, hheavy, hv'⟩
      · -- a head has nothing of its path above it
        have hxh : T.Anc v x := hv' ▸ hh ▸ T.head_anc x
        exact absurd (ha.antisymm hxh) hxv
      · exact Relation.ReflTransGen.head hheavy (ih (hh.trans hv') (ha.anc_parent hxv))

/-- **The head is the topmost node reached.** -/
theorem reach_head (v : V) : Relation.ReflTransGen T.HeavyStep v (T.head v) :=
  reach_iff.2 ⟨T.head_head v, T.head_anc v⟩

theorem head_of_reach (h : Relation.ReflTransGen T.HeavyStep v x) : Relation.ReflTransGen T.HeavyStep x (T.head v) :=
  (reach_iff.1 h).1 ▸ reach_head x

/-- **Two nodes have one head** exactly when one is reached from the other. -/
theorem head_eq_iff_reach :
    T.head u = T.head v ↔ Relation.ReflTransGen T.HeavyStep u v ∨ Relation.ReflTransGen T.HeavyStep v u := by
  refine ⟨?_, ?_⟩
  · intro h
    rcases le_total (T.depth u) (T.depth v) with hd | hd
    · exact Or.inr (reach_iff.2 ⟨h, chain_comparable h hd⟩)
    · exact Or.inl (reach_iff.2 ⟨h.symm, chain_comparable h.symm hd⟩)
  · intro hcase
    rcases hcase with h | h
    · exact (reach_iff.1 h).1.symm
    · exact (reach_iff.1 h).1

/-! ## Light edges -/

/-- the number of light edges on the way from the root down to `v` -/
def level (T : ParentTree V) (v : V) : ℕ := ∑ k ∈ Finset.range (T.depth v), if T.IsHead (T.up k v) then 1 else 0

theorem level_root (T : ParentTree V) : T.level T.root = 0 := by simp [level, T.depth_root]

theorem level_eq (hv : v ≠ T.root) : T.level v = T.level (T.parent v) + if T.IsHead v then 1 else 0 := by
  rw [level, T.depth_parent v hv, Finset.sum_range_succ', up_zero]
  simp only [up_succ]
  rfl

/-- all nodes of a heavy path have one level -/
theorem level_head (T : ParentTree V) (v : V) : T.level (T.head v) = T.level v := by
  induction v using T.descend with
  | root => rw [head_root]
  | step v hv ih =>
    rcases T.head_cases v with he | ⟨-, hheavy, he⟩
    · rw [he]
    · rw [he, ih, level_eq hv, if_neg (not_isHead hheavy), add_zero]

/-- going above a heavy path takes off one level -/
theorem level_climb (h : T.head v ≠ T.root) : T.level v = T.level (T.parent (T.head v)) + 1 := by
  rw [← level_head, level_eq h, if_pos (T.isHead_head v)]

theorem level_eq_zero : T.level v = 0 ↔ T.head v = T.root := by
  refine ⟨?_, ?_⟩
  · intro h
    by_contra hne
    have := level_climb hne
    omega
  · intro h
    rw [← level_head, h, level_root]

/-- a light child has less than half of the nodes below its parent -/
theorem size_light (hv : v ≠ T.root) (h : T.IsHead v) : 2 * T.size v + 1 ≤ T.size (T.parent v) := by
  have hmem := T.mem_children_parent hv
  obtain ⟨c, hc⟩ := exists_heavy hmem
  have hne : c ≠ v := fun he => h.resolve_left hv (he ▸ hc)
  have h1 := heavy_max hc hmem
  have h2 := size_add_lt (heavy_mem hc) hmem hne
  omega

/-- **Light edges.** The size at least doubles with each light edge on the way up. -/
theorem size_level (T : ParentTree V) (v : V) : (T.size v + 1) * 2 ^ T.level v ≤ Fintype.card V + 1 := by
  induction v using T.descend with
  | root => rw [level_root, pow_zero, mul_one, size_root]
  | step v hv ih =>
    rw [level_eq hv]
    split_ifs with hhead
    · have hsize := size_light hv hhead
      calc (T.size v + 1) * 2 ^ (T.level (T.parent v) + 1) = (2 * T.size v + 2) * 2 ^ T.level (T.parent v) := by ring
        _ ≤ (T.size (T.parent v) + 1) * 2 ^ T.level (T.parent v) := Nat.mul_le_mul_right _ (by omega)
        _ ≤ Fintype.card V + 1 := ih
    · have hsize := T.size_le (Anc.parent T v)
      exact (Nat.mul_le_mul_right _ (by omega)).trans ih

theorem two_pow_level (T : ParentTree V) (v : V) : 2 ^ (T.level v + 1) ≤ Fintype.card V + 1 := by
  have h1 := T.size_pos v
  calc 2 ^ (T.level v + 1) = 2 * 2 ^ T.level v := pow_succ' 2 _
    _ ≤ (T.size v + 1) * 2 ^ T.level v := Nat.mul_le_mul_right _ (by omega)
    _ ≤ Fintype.card V + 1 := T.size_level v

/-- the number of light edges above a node is at most the logarithm of the number of nodes -/
theorem level_le_log (T : ParentTree V) (v : V) : T.level v ≤ Nat.log 2 (Fintype.card V) := by
  have h1 := T.two_pow_level v
  have h2 := Nat.one_le_two_pow (n := T.level v)
  rw [pow_succ] at h1
  exact Nat.le_log_of_pow_le (by omega) (by omega)

/-! ## Numberings that follow the heavy paths -/

/-- in the numbering `p` each heavy child comes right after its parent -/
def FollowsHeavy (T : ParentTree V) (p : V → ℤ) : Prop := ∀ v c, T.heavy v = some c → p c = p v + 1

/-- down a heavy path the numbers grow with the depth -/
theorem FollowsHeavy.chain {p : V → ℤ} (hp : T.FollowsHeavy p) (h : T.head u = T.head v) (ha : T.Anc u v) :
    p v + T.depth u = p u + T.depth v := by
  induction v using T.descend with
  | root => rw [anc_root_iff.1 ha]
  | step v hv ih =>
    by_cases huv : u = v
    · rw [huv]
    have hup := ha.anc_parent huv
    rcases T.head_cases v with hv' | ⟨_, hheavy, hv'⟩
    · -- `v` is a head, so `u`, with the same head, cannot be above it
      have := (T.head_anc u).depth_le
      have := ha.depth_lt huv
      rw [h, hv'] at *
      omega
    · have h1 := ih (h.trans hv') hup
      have h2 := hp _ _ hheavy
      have h3 := T.depth_parent v hv
      omega

/-- the numbers from the head of a path to one of its nodes are those of the nodes between -/
theorem FollowsHeavy.mem_range {p : V → ℤ} (hp : T.FollowsHeavy p) (hinj : Function.Injective p) (v w : V) :
    (p (T.head v) ≤ p w ∧ p w ≤ p v) ↔ T.head w = T.head v ∧ T.Anc w v := by
  have hdepth := (T.head_anc v).depth_le
  have hhead := hp.chain (T.head_head v) (T.head_anc v)
  refine ⟨?_, ?_⟩
  · intro hcase
    obtain ⟨hl, hr⟩ := hcase
    -- the node of the path with the number of `w`
    obtain ⟨k, hk⟩ := Int.eq_ofNat_of_zero_le (show 0 ≤ p v - p w by omega)
    have hx : T.Anc (T.up k v) v := Anc.of_up T k v
    have hd := T.depth_up k v
    have hsame : T.head (T.up k v) = T.head v :=
      chain_between ((T.head_anc v).of_depth_le hx (by omega)) hx
    have hnum := hp.chain hsame hx
    have hw : T.up k v = w := hinj (by omega)
    rw [← hw]
    exact ⟨hsame, hx⟩
  · intro hcase
    obtain ⟨hsame, hw⟩ := hcase
    have h1 := hp.chain hsame hw
    have h2 := hw.depth_le
    have h3 := (T.head_anc w).depth_le
    rw [hsame] at h3
    omega

/-! ## Sums before an element of a list -/

/-- the sum of `f` over the elements before the first `a` -/
def sumBefore (f : V → ℕ) : List V → V → ℕ
  | [], _ => 0
  | x :: xs, a => if x = a then 0 else f x + sumBefore f xs a

omit [Fintype V] in
theorem sumBefore_append (f : V → ℕ) (pre post : List V) (h : a ∉ pre) :
    sumBefore f (pre ++ a :: post) a = (pre.map f).sum := by
  induction pre with
  | nil => simp [sumBefore]
  | cons x pre ih =>
    rw [List.mem_cons, not_or] at h
    simp [sumBefore, Ne.symm h.1, ih h.2]

omit [Fintype V] in
theorem sumBefore_add_le (f : V → ℕ) (l : List V) (h : a ∈ l) : sumBefore f l a + f a ≤ (l.map f).sum := by
  induction l with
  | nil => cases h
  | cons x l ih =>
    by_cases hx : x = a
    · subst hx; simp [sumBefore]
    · have := ih ((List.mem_cons.1 h).resolve_left (Ne.symm hx))
      simp only [sumBefore, if_neg hx, List.map_cons, List.sum_cons]
      omega

omit [Fintype V] in
/-- of two elements one comes first, and then the other has it among those before -/
theorem sumBefore_lt (f : V → ℕ) (l : List V) (ha : a ∈ l) (hb : b ∈ l) (hne : a ≠ b) :
    sumBefore f l a + f a ≤ sumBefore f l b ∨ sumBefore f l b + f b ≤ sumBefore f l a := by
  induction l with
  | nil => cases ha
  | cons x l ih =>
    by_cases hxa : x = a
    · subst hxa; left; simp [sumBefore, hne]
    by_cases hxb : x = b
    · subst hxb; right; simp [sumBefore, hxa]
    rcases ih ((List.mem_cons.1 ha).resolve_left (Ne.symm hxa)) ((List.mem_cons.1 hb).resolve_left (Ne.symm hxb))
      with h | h
    · left; simp only [sumBefore, if_neg hxa, if_neg hxb]; omega
    · right; simp only [sumBefore, if_neg hxa, if_neg hxb]; omega

/-! ## Positions -/

/-- the children other than the heavy one, in order -/
def lights (T : ParentTree V) (v : V) : List V := (T.children v).filter fun u => T.heavy v ≠ some u

/-- the children of `v` in the order of the visit: the heavy one first -/
def order (T : ParentTree V) (v : V) : List V := (T.heavy v).toList ++ T.lights v

theorem mem_lights : u ∈ T.lights v ↔ u ∈ T.children v ∧ T.heavy v ≠ some u := by
  unfold lights
  rw [List.mem_filter, decide_eq_true_eq]

/-- a light child is the head of its path -/
theorem head_of_light (h : u ∈ T.lights v) : T.head u = u := by
  refine head_of_isHead (Or.inr ?_)
  rw [T.parent_of_child (mem_lights.1 h).1]
  exact (mem_lights.1 h).2

theorem mem_order : u ∈ T.order v ↔ u ∈ T.children v := by
  unfold order
  rw [List.mem_append, mem_lights, Option.mem_toList]
  refine ⟨?_, ?_⟩
  · intro hcase
    rcases hcase with h | h
    · exact heavy_mem h
    · exact h.1
  · intro h
    by_cases hu : T.heavy v = some u
    · exact Or.inl hu
    · exact Or.inr ⟨h, hu⟩

theorem order_nodup (T : ParentTree V) (v : V) : (T.order v).Nodup := by
  unfold order
  rw [List.nodup_append]
  refine ⟨Option.toList_nodup _, (T.children_nodup v).filter _, fun a ha b hb hab => ?_⟩
  subst hab
  exact (mem_lights.1 hb).2 (Option.mem_toList.1 ha)

theorem sum_order (T : ParentTree V) (v : V) : ((T.order v).map T.size).sum = ((T.children v).map T.size).sum :=
  (((List.perm_ext_iff_of_nodup (T.order_nodup v) (T.children_nodup v)).2 fun _ => mem_order).map T.size).sum_eq

theorem sum_order_lt (T : ParentTree V) (v : V) : ((T.order v).map T.size).sum + 1 = T.size v := by
  rw [sum_order, size_eq T v]; omega

/-- the number of nodes in the subtrees of the siblings visited before `v` -/
def offset (T : ParentTree V) (v : V) : ℕ := sumBefore T.size (T.order (T.parent v)) v

/-- the position of `v`: the number of nodes visited before it -/
def pos (T : ParentTree V) (v : V) : ℕ := ∑ k ∈ Finset.range (T.depth v), (1 + T.offset (T.up k v))

@[simp] theorem pos_root (T : ParentTree V) : T.pos T.root = 0 := by simp [pos, T.depth_root]

theorem pos_eq (hv : v ≠ T.root) : T.pos v = T.pos (T.parent v) + 1 + T.offset v := by
  rw [pos, T.depth_parent v hv, Finset.sum_range_succ', up_zero]
  simp only [up_succ]
  rw [add_assoc]; rfl

theorem pos_child (hc : c ∈ T.children v) : T.pos c = T.pos v + 1 + sumBefore T.size (T.order v) c := by
  rw [pos_eq (T.ne_root_of_child hc), offset, T.parent_of_child hc]

/-- the heavy child comes right after its parent -/
theorem pos_of_heavy (h : T.heavy v = some c) : T.pos c = T.pos v + 1 := by
  have : sumBefore T.size (T.order v) c = 0 := by simp [order, h, sumBefore]
  rw [pos_child (heavy_mem h), this]

theorem pos_child_range (hc : c ∈ T.children v) :
    T.pos v < T.pos c ∧ T.pos c + T.size c ≤ T.pos v + T.size v := by
  have h1 := pos_child hc
  have h2 := sumBefore_add_le T.size (T.order v) (mem_order.2 hc)
  have h3 := T.sum_order_lt v
  omega

/-- the positions of a subtree lie in the interval of its root -/
theorem pos_sub (h : T.Anc v w) : T.pos v ≤ T.pos w ∧ T.pos w + T.size w ≤ T.pos v + T.size v := by
  induction w using T.descend with
  | root => rw [anc_root_iff.1 h]; exact ⟨le_rfl, le_rfl⟩
  | step w hw ih =>
    by_cases hvw : v = w
    · subst hvw; exact ⟨le_rfl, le_rfl⟩
    · obtain ⟨h1, h2⟩ := ih (h.anc_parent hvw)
      obtain ⟨h3, h4⟩ := pos_child_range (T.mem_children_parent hw)
      omega

theorem pos_lt (h : T.Anc v w) (hne : v ≠ w) : T.pos v < T.pos w := by
  obtain ⟨c, hc, hcw⟩ := h.child_toward hne
  have h1 := (pos_child_range hc).1
  have h2 := (pos_sub hcw).1
  omega

theorem pos_injective (T : ParentTree V) : Function.Injective T.pos := by
  intro w w' h
  by_contra hne
  obtain ⟨hl, hr, hlow⟩ := T.isLca_lca w w'
  by_cases hw : T.lca w w' = w
  · have := pos_lt (hw ▸ hr) hne
    omega
  by_cases hw' : T.lca w w' = w'
  · have := pos_lt (hw' ▸ hl) (Ne.symm hne)
    omega
  -- the two nodes lie below different children of their lowest common ancestor
  obtain ⟨c, hc, hcw⟩ := hl.child_toward hw
  obtain ⟨c', hc', hcw'⟩ := hr.child_toward hw'
  have hcc : c ≠ c' := by
    rintro rfl
    exact not_anc_of_child hc (hlow c hcw hcw')
  have h1 := pos_child hc
  have h2 := pos_child hc'
  have h3 := pos_sub hcw
  have h4 := pos_sub hcw'
  have h5 := T.size_pos w
  have h6 := T.size_pos w'
  rcases sumBefore_lt T.size (T.order (T.lca w w')) (mem_order.2 hc) (mem_order.2 hc') hcc with h7 | h7 <;> omega

theorem pos_lt_card (T : ParentTree V) (v : V) : T.pos v < Fintype.card V := by
  have h1 := (pos_sub (Anc.root T v)).2
  have h2 := T.size_pos v
  rw [pos_root, size_root] at h1
  omega

/-- **A subtree occupies an interval.** -/
theorem image_pos_sub (T : ParentTree V) (v : V) :
    (T.sub v).image T.pos = Finset.Ico (T.pos v) (T.pos v + T.size v) := by
  apply Finset.eq_of_subset_of_card_le
  · intro i hi
    obtain ⟨w, hw, rfl⟩ := Finset.mem_image.1 hi
    obtain ⟨h1, h2⟩ := pos_sub (mem_sub.1 hw)
    have h3 := T.size_pos w
    rw [Finset.mem_Ico]
    omega
  · rw [Nat.card_Ico, Finset.card_image_of_injective _ T.pos_injective, size]
    omega

/-- every position is taken -/
theorem exists_pos {i : ℕ} (h : i < Fintype.card V) (T : ParentTree V) : ∃ v, T.pos v = i := by
  have hinj : Function.Injective fun v => (⟨T.pos v, T.pos_lt_card v⟩ : Fin (Fintype.card V)) := by
    intro v w hvw
    exact T.pos_injective (Fin.mk.inj hvw)
  have hsurj := ((Fintype.bijective_iff_injective_and_card _).2 ⟨hinj, (Fintype.card_fin _).symm⟩).2
  obtain ⟨v, hv⟩ := hsurj ⟨i, h⟩
  exact ⟨v, congrArg Fin.val hv⟩

/-- down a heavy path positions grow with the depth -/
theorem pos_chain (h : T.head u = T.head v) (ha : T.Anc u v) : T.pos v + T.depth u = T.pos u + T.depth v := by
  have hp : T.FollowsHeavy fun v => (T.pos v : ℤ) := by
    intro v c hc
    have := pos_of_heavy hc
    dsimp only
    omega
  have := hp.chain h ha
  omega

/-- on one heavy path the order of positions is the order of depths -/
theorem anc_iff_pos_le (h : T.head u = T.head v) : T.Anc u v ↔ T.pos u ≤ T.pos v := by
  refine ⟨?_, ?_⟩
  · exact fun ha => (pos_sub ha).1
  · intro hp
    rcases le_total (T.depth u) (T.depth v) with hd | hd
    · exact chain_comparable h hd
    · have ha := chain_comparable h.symm hd
      have hv := T.pos_injective (le_antisymm hp (pos_sub ha).1)
      exact hv ▸ Anc.refl T u

end HeavyLight.ParentTree
