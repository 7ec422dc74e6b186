/-
Depths along lists of neighbours, and the levels of the tree in which `(c - 1) / k` is the parent of node `c`. A general
library over `ArityTree`.

- `Reached adj d c`, `AtDepth adj d c`: node `c` is `d` steps from node 0, and no fewer.
- `InLevel k d c`: `c` is at least `1 + k + ... + k ^ (d - 1)` and below the next sum. `inLevel_succ`: the parent is one
  level up.
- `atDepth_adjOf`: the nodes at depth `d` are those of level `d`.
- `HoldsTree k N adj`: the lists are those of the tree on `0, ..., N - 1`. `holdsTree_adjOf`: the lists `adjOf k N` are.
-/
import HeavyLight.ArityTree

namespace HeavyLight

/-! ## Depths -/

/-- `c` is `d` steps along the lists from node 0 -/
def Reached (adj : ℤ → List ℤ) : ℕ → ℤ → Prop
  | 0, c => c = 0
  | d + 1, c => ∃ p, Reached adj d p ∧ c ∈ adj p

/-- and no fewer: `d` is the depth of `c` -/
def AtDepth (adj : ℤ → List ℤ) (d : ℕ) (c : ℤ) : Prop := Reached adj d c ∧ ∀ e < d, ¬ Reached adj e c

/-! ## Levels -/

/-- the number of nodes of the levels below `d` -/
def levelStart (k d : ℕ) : ℕ := ∑ i ∈ Finset.range d, k ^ i

/-- the nodes of level `d` -/
def InLevel (k d c : ℕ) : Prop := levelStart k d ≤ c ∧ c < levelStart k (d + 1)

instance (k d c : ℕ) : Decidable (InLevel k d c) := inferInstanceAs (Decidable (_ ∧ _))

variable {k N d e c v : ℕ}

theorem levelStart_succ (k d : ℕ) : levelStart k (d + 1) = 1 + levelStart k d * k := by
  rw [levelStart, Finset.sum_range_succ', pow_zero, add_comm, levelStart, Finset.sum_mul]
  simp only [pow_succ]

theorem levelStart_mono (k : ℕ) : Monotone (levelStart k) := by
  intro d e h
  exact Finset.sum_le_sum_of_subset (Finset.range_mono h)

theorem inLevel_zero : InLevel k 0 c ↔ c = 0 := by
  have h1 : levelStart k 1 = 1 := by simp [levelStart]
  rw [InLevel, h1, levelStart, Finset.sum_range_zero]
  omega

/-- the parent is one level up -/
theorem inLevel_succ (hk : 1 ≤ k) : InLevel k (d + 1) c ↔ c ≠ 0 ∧ InLevel k d (parentOf k c) := by
  have hlow : levelStart k d ≤ parentOf k c ↔ levelStart k d * k ≤ c - 1 := Nat.le_div_iff_mul_le hk
  have hhigh : parentOf k c < levelStart k (d + 1) ↔ c - 1 < levelStart k (d + 1) * k := Nat.div_lt_iff_lt_mul hk
  rw [InLevel, InLevel, hlow, hhigh, levelStart_succ k d, levelStart_succ k (d + 1), levelStart_succ k d]
  omega

/-- a node is in one level -/
theorem InLevel.unique (hk : 1 ≤ k) (hd : InLevel k d c) (he : InLevel k e c) : d = e := by
  induction d generalizing e c with
  | zero =>
    obtain rfl := inLevel_zero.1 hd
    cases e with
    | zero => rfl
    | succ e => exact absurd rfl ((inLevel_succ hk).1 he).1
  | succ d ih =>
    obtain ⟨hc, hd⟩ := (inLevel_succ hk).1 hd
    cases e with
    | zero => exact absurd (inLevel_zero.1 he) hc
    | succ e => rw [ih hd ((inLevel_succ hk).1 he).2]

theorem exists_level (hk : 1 ≤ k) (c : ℕ) : ∃ d, InLevel k d c := by
  induction c using Nat.strong_induction_on with
  | _ c ih =>
    by_cases hc : c = 0
    · exact ⟨0, inLevel_zero.2 hc⟩
    · obtain ⟨d, hd⟩ := ih (parentOf k c) (parentOf_lt hc)
      exact ⟨d + 1, (inLevel_succ hk).2 ⟨hc, hd⟩⟩

/-! ## Neighbours -/

theorem mem_childrenOf : c ∈ childrenOf k N v ↔ c < N ∧ c ≠ 0 ∧ parentOf k c = v := by
  simp [childrenOf]

/-- the neighbours of a node are its parent and its children -/
theorem mem_nbrsOf_iff : c ∈ nbrsOf k N v ↔
    v < N ∧ c < N ∧ ((v ≠ 0 ∧ c = parentOf k v) ∨ (c ≠ 0 ∧ v = parentOf k c)) := by
  have hparent : v ≠ 0 → parentOf k v < v := parentOf_lt
  have hchild : c ≠ 0 → parentOf k c < c := parentOf_lt
  have hmem : c ∈ nbrsOf k N v ↔ (¬ (v = 0 ∨ N ≤ v) ∧ c = parentOf k v) ∨ (c < N ∧ c ≠ 0 ∧ parentOf k c = v) := by
    unfold nbrsOf
    split_ifs with hv <;> simp [hv, mem_childrenOf]
  rw [hmem]
  omega

theorem nbrsOf_symm (h : c ∈ nbrsOf k N v) : v ∈ nbrsOf k N c := by
  rw [mem_nbrsOf_iff] at h ⊢
  omega

theorem childrenOf_nodup (k N v : ℕ) : (childrenOf k N v).Nodup := List.nodup_range.filter _

theorem nbrsOf_nodup (k N v : ℕ) : (nbrsOf k N v).Nodup := by
  unfold nbrsOf
  split_ifs with hv
  · exact childrenOf_nodup k N v
  · refine List.nodup_cons.2 ⟨?_, childrenOf_nodup k N v⟩
    -- the parent of the parent is above the parent
    intro hcase
    have hmem := mem_childrenOf.1 hcase
    have h1 := parentOf_lt (k := k) hmem.2.1
    have h2 := parentOf_lt (k := k) (c := v) (by omega)
    omega

/-- the children are the neighbours with larger numbers -/
theorem filter_nbrsOf (k N v : ℕ) : (nbrsOf k N v).filter (fun c => v < c) = childrenOf k N v := by
  have hchildren : (childrenOf k N v).filter (fun c => v < c) = childrenOf k N v := by
    apply List.filter_eq_self.2
    intro c hc
    obtain ⟨-, h0, rfl⟩ := mem_childrenOf.1 hc
    exact decide_eq_true (parentOf_lt h0)
  unfold nbrsOf
  rw [List.filter_append, hchildren]
  split_ifs with hv
  · rfl
  · have hlt := parentOf_lt (k := k) (c := v) (by omega)
    have hparent : [parentOf k v].filter (fun c => v < c) = [] := by simpa using hlt.le
    rw [hparent, List.nil_append]

/-- a node has at most `k` children -/
theorem length_childrenOf_le (hk : 1 ≤ k) (N v : ℕ) : (childrenOf k N v).length ≤ k := by
  have hsub : (childrenOf k N v).toFinset ⊆ Finset.Ioc (v * k) (v * k + k) := by
    intro c hc
    rw [List.mem_toFinset, mem_childrenOf] at hc
    have hlow : v * k ≤ c - 1 := (Nat.le_div_iff_mul_le hk).1 hc.2.2.ge
    have hhigh : c - 1 < (v + 1) * k := (Nat.div_lt_iff_lt_mul hk).1 (Nat.lt_succ_of_le hc.2.2.le)
    rw [Nat.succ_mul] at hhigh
    rw [Finset.mem_Ioc]
    omega
  calc (childrenOf k N v).length = (childrenOf k N v).toFinset.card :=
        (List.toFinset_card_of_nodup (childrenOf_nodup k N v)).symm
    _ ≤ (Finset.Ioc (v * k) (v * k + k)).card := Finset.card_le_card hsub
    _ = k := by rw [Nat.card_Ioc, Nat.add_sub_cancel_left]

/-! ## Depths and levels -/

theorem mem_adjOf {a b : ℤ} (h : b ∈ adjOf k N a) : ∃ v c : ℕ, a = v ∧ b = c ∧ c ∈ nbrsOf k N v := by
  unfold adjOf at h
  split_ifs at h with ha
  · obtain ⟨c, hc, rfl⟩ := List.mem_map.1 h
    exact ⟨a.toNat, c, by omega, rfl, hc⟩
  · cases h

theorem mem_adjOf_coe : ((c : ℕ) : ℤ) ∈ adjOf k N v ↔ c ∈ nbrsOf k N v := by
  rw [adjOf_coe]
  exact List.mem_map_of_injective Nat.cast_injective

/-- a step along the lists goes at most one level down -/
theorem InLevel.step (hk : 1 ≤ k) (hv : InLevel k d v) (hc : c ∈ nbrsOf k N v) : ∃ e ≤ d + 1, InLevel k e c := by
  rcases (mem_nbrsOf_iff.1 hc).2.2 with ⟨h0, rfl⟩ | ⟨h0, rfl⟩
  · cases d with
    | zero => exact absurd (inLevel_zero.1 hv) h0
    | succ d => exact ⟨d, by omega, ((inLevel_succ hk).1 hv).2⟩
  · exact ⟨d + 1, le_rfl, (inLevel_succ hk).2 ⟨h0, hv⟩⟩

/-- what is reached in `d` steps lies in the levels up to `d` -/
theorem Reached.inLevel (hk : 1 ≤ k) (hN : 0 < N) {x : ℤ} (h : Reached (adjOf k N) d x) :
    ∃ c : ℕ, x = c ∧ c < N ∧ ∃ e ≤ d, InLevel k e c := by
  induction d generalizing x with
  | zero => exact ⟨0, h, hN, 0, le_rfl, inLevel_zero.2 rfl⟩
  | succ d ih =>
    obtain ⟨p, hp, hx⟩ := h
    obtain ⟨v, rfl, -, e, hed, he⟩ := ih hp
    obtain ⟨v', c, hv', rfl, hc⟩ := mem_adjOf hx
    obtain rfl : v = v' := Nat.cast_injective hv'
    obtain ⟨e', he', hlev⟩ := he.step hk hc
    exact ⟨c, rfl, (mem_nbrsOf hc).2, e', by omega, hlev⟩

/-- a node of level `d` is reached in `d` steps -/
theorem InLevel.reached (hk : 1 ≤ k) (hc : c < N) (h : InLevel k d c) : Reached (adjOf k N) d c := by
  induction d generalizing c with
  | zero => exact congrArg Nat.cast (inLevel_zero.1 h)
  | succ d ih =>
    obtain ⟨h0, hp⟩ := (inLevel_succ hk).1 h
    have hlt := parentOf_lt (k := k) h0
    refine ⟨(parentOf k c : ℕ), ih (by omega) hp, mem_adjOf_coe.2 (mem_nbrsOf_iff.2 ?_)⟩
    exact ⟨by omega, hc, Or.inr ⟨h0, rfl⟩⟩

/-- **Depths are levels.** -/
theorem atDepth_adjOf (hk : 1 ≤ k) (hN : 0 < N) : AtDepth (adjOf k N) d c ↔ c < N ∧ InLevel k d c := by
  have hlevel : ∀ {e : ℕ}, Reached (adjOf k N) e c → c < N ∧ ∃ e' ≤ e, InLevel k e' c := by
    intro e h
    obtain ⟨c', hc', hlt, hcase⟩ := h.inLevel hk hN
    obtain rfl : c = c' := Nat.cast_injective hc'
    exact ⟨hlt, hcase⟩
  refine ⟨?_, ?_⟩
  · intro h
    obtain ⟨hlt, e, hed, he⟩ := hlevel h.1
    rcases Nat.lt_or_eq_of_le hed with hlt' | rfl
    · exact absurd (he.reached hk hlt) (h.2 e hlt')
    · exact ⟨hlt, he⟩
  · intro h
    refine ⟨h.2.reached hk h.1, fun e he hr => ?_⟩
    obtain ⟨-, e', he', hlev⟩ := hlevel hr
    have := hlev.unique hk h.2
    omega

/-! ## The tree in the lists -/

/-- the lists hold the tree on `0, ..., N - 1` in which `(c - 1) / k` is the parent of `c`, and nothing else -/
structure HoldsTree (k N : ℕ) (adj : ℤ → List ℤ) : Prop where
  nodes : ∀ a b : ℤ, b ∈ adj a → (0 ≤ a ∧ a < N) ∧ 0 ≤ b ∧ b < N
  /-- the nodes connected to node 0 -/
  attached : ∀ c : ℕ, (∃ d, Reached adj d c) ↔ c < N
  /-- the only edge of a node to a smaller one -/
  parent : ∀ c : ℕ, 1 ≤ c → c < N → ∀ p : ℕ, p < c → ((p : ℤ) ∈ adj c ↔ p = (c - 1) / k)
  /-- an edge is in the lists of both its nodes, once -/
  once : ∀ a b : ℤ, b ∈ adj a → (adj a).count b = 1 ∧ (adj b).count a = 1
  children : ∀ v : ℕ, ((adj v).filter fun c => (v : ℤ) < c).length ≤ k
  empty : ∀ v : ℕ, N ≤ v → adj v = []

theorem count_adjOf (h : c ∈ nbrsOf k N v) : (adjOf k N v).count (c : ℤ) = 1 := by
  rw [adjOf_coe]
  apply List.count_eq_one_of_mem
  · exact (nbrsOf_nodup k N v).map Nat.cast_injective
  · exact List.mem_map_of_mem h

theorem holdsTree_adjOf (hk : 1 ≤ k) (hN : 0 < N) : HoldsTree k N (adjOf k N) := by
  refine ⟨?_, ?_, ?_, ?_, ?_, ?_⟩
  · intro a b h
    obtain ⟨v, c, rfl, rfl, hc⟩ := mem_adjOf h
    have := mem_nbrsOf hc
    omega
  · intro c
    refine ⟨?_, ?_⟩
    · intro hcase
      obtain ⟨d, hd⟩ := hcase
      obtain ⟨c', hc', hlt, -⟩ := hd.inLevel hk hN
      rwa [Nat.cast_injective hc']
    · intro hc
      obtain ⟨d, hd⟩ := exists_level hk c
      exact ⟨d, hd.reached hk hc⟩
  · intro c h1 hc p hp
    have hchild : p ≠ 0 → parentOf k p < p := parentOf_lt
    rw [mem_adjOf_coe, mem_nbrsOf_iff, ← parentOf]
    omega
  · intro a b h
    obtain ⟨v, c, rfl, rfl, hc⟩ := mem_adjOf h
    exact ⟨count_adjOf hc, count_adjOf (nbrsOf_symm hc)⟩
  · intro v
    have hfilter : (adjOf k N v).filter (fun c => (v : ℤ) < c) = (childrenOf k N v).map fun c : ℕ => (c : ℤ) := by
      rw [adjOf_coe, List.filter_map, ← filter_nbrsOf]
      simp only [Function.comp_def, Nat.cast_lt]
    rw [hfilter, List.length_map]
    exact length_childrenOf_le hk N v
  · intro v hv
    rw [adjOf_coe, nbrsOf_eq_nil hv, List.map_nil]

end HeavyLight
