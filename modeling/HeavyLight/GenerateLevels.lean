/-
The shape of the trees that `generate_tree` makes: parents, edges and attached nodes for any number of rounds, and the
rounds against the levels.

- `generate_tree_shape`: it makes the tree with parent `(c - 1) / k` on the nodes below `min n ((1 + k * (k - 1)) ^ h)`.
- `LevelByLevel n k h adj`: each of the `h` rounds attaches one level of the tree.
- `levelByLevel_of_counts`, `not_levelByLevel`: the numbers of nodes after each round decide.
- `generate_tree_levels_iff`: when the rounds are the levels. `eight_nodes_skip`: eight nodes of a binary tree.
-/
import HeavyLight.GenerateTree
import HeavyLight.Levels

namespace HeavyLight

open Gen

variable {n k h i : ℕ} {adj : ℤ → List ℤ}

theorem attached_pos (hn : 1 ≤ n) (k h : ℕ) : 0 < min n ((1 + k * (k - 1)) ^ h) := by
  have hpow : 0 < (1 + k * (k - 1)) ^ h := by positivity
  omega

/-- **The generated tree.** `generate_tree` returns without a fault, and the lists hold the tree with `k` children for
each node on the nodes below `min n ((1 + k * (k - 1)) ^ h)`. -/
theorem generate_tree_shape (n k h : ℕ) (hn : 1 ≤ n) (hk : 1 ≤ k) (hint : n * k < 2 ^ 31) :
    ∃ adj, generateTree (fun _ => []) n k h = .ok adj ∧ HoldsTree k (min n ((1 + k * (k - 1)) ^ h)) adj := by
  exact ⟨_, generateTree_spec hn hk hint h, holdsTree_adjOf hk (attached_pos hn k h)⟩

/-- three rounds stop in the middle of a round -/
theorem generate_tree_shape_ternary :
    ∃ adj, generateTree (fun _ => []) 40 3 3 = .ok adj ∧ HoldsTree 3 40 adj ∧ (12 : ℤ) ∈ adj 39 := by
  obtain ⟨adj, hadj, hshape⟩ := generate_tree_shape 40 3 3 (by decide) (by decide) (by decide)
  have hshape : HoldsTree 3 40 adj := hshape
  exact ⟨adj, hadj, hshape, (hshape.parent 39 (by decide) (by decide) 12 (by decide)).2 rfl⟩

/-! ## Rounds and levels -/

/-- each of the rounds of `generate_tree` attaches one level of the tree that it leaves in the lists -/
structure LevelByLevel (n k h : ℕ) (adj : ℤ → List ℤ) : Prop where
  /-- the nodes attached in round `i` are those at depth `i + 1` -/
  level : ∀ i < h, ∃ g g', rounds n k i start = .ok g ∧ round n k g = .ok g' ∧
    ∀ c : ℕ, (g.numNodes ≤ c ∧ c < g'.numNodes) ↔ AtDepth adj (i + 1) c
  height : ∀ c d : ℕ, AtDepth adj d c → d ≤ h
  count : {c : ℕ | ∃ d, AtDepth adj d c}.ncard = min n (∑ i ∈ Finset.range (h + 1), k ^ i)

/-- the number of attached nodes before and after a round -/
theorem round_counts (hn : 1 ≤ n) (hk : 1 ≤ k) (hint : n * k < 2 ^ 31) (i : ℕ) :
    ∃ g g', rounds n k i start = .ok g ∧ round n k g = .ok g' ∧ g.numNodes = min n ((1 + k * (k - 1)) ^ i) ∧
      g'.numNodes = min n ((1 + k * (k - 1)) ^ (i + 1)) := by
  obtain ⟨p, g, hg, hatt, hnum⟩ := rounds_start hn hk hint i
  obtain ⟨p', g', hg', -, hnum'⟩ := round_spec hk hint hatt
  refine ⟨g, g', hg, hg', hnum, ?_⟩
  have hb : 0 < 1 + k * (k - 1) := by omega
  rw [hnum', hnum, min_min_mul hb, pow_succ]

/-- every attached node has a depth -/
theorem ncard_atDepth (hk : 1 ≤ k) {N : ℕ} (hN : 0 < N) : {c : ℕ | ∃ d, AtDepth (adjOf k N) d c}.ncard = N := by
  have hset : {c : ℕ | ∃ d, AtDepth (adjOf k N) d c} = ((Finset.range N : Finset ℕ) : Set ℕ) := by
    ext c
    rw [Set.mem_ofPred_eq, Finset.coe_range, Set.mem_Iio]
    refine ⟨?_, ?_⟩
    · intro hcase
      obtain ⟨d, hd⟩ := hcase
      exact ((atDepth_adjOf hk hN).1 hd).1
    · intro hc
      obtain ⟨d, hd⟩ := exists_level hk c
      exact ⟨d, (atDepth_adjOf hk hN).2 ⟨hc, hd⟩⟩
  rw [hset, Set.ncard_coe_finset, Finset.card_range]

/-- **One level in each round**, when after each of them the nodes of one more level are attached. -/
theorem levelByLevel_of_counts (hn : 1 ≤ n) (hk : 1 ≤ k) (hint : n * k < 2 ^ 31)
    (hcounts : ∀ i ≤ h, min n ((1 + k * (k - 1)) ^ i) = min n (levelStart k (i + 1))) :
    LevelByLevel n k h (adjOf k (min n ((1 + k * (k - 1)) ^ h))) := by
  have hpos := attached_pos hn k h
  refine ⟨fun i hi => ?_, fun c d hd => ?_, ?_⟩
  · obtain ⟨g, g', hg, hg', hnum, hnum'⟩ := round_counts hn hk hint i
    refine ⟨g, g', hg, hg', fun c => ?_⟩
    have hmono : levelStart k (i + 1 + 1) ≤ levelStart k (h + 1) := levelStart_mono k (by omega)
    rw [atDepth_adjOf hk hpos, hnum, hnum', hcounts i (by omega), hcounts (i + 1) (by omega), hcounts h le_rfl, InLevel]
    omega
  · obtain ⟨hc, hlow, -⟩ := (atDepth_adjOf hk hpos).1 hd
    rw [hcounts h le_rfl] at hc
    by_contra hlt
    have hmono : levelStart k (h + 1) ≤ levelStart k d := levelStart_mono k (by omega)
    omega
  · rw [ncard_atDepth hk hpos, hcounts h le_rfl, levelStart]

/-- **A round that goes on to the next level**: it attaches the first node of that level. -/
theorem not_levelByLevel (hn : 1 ≤ n) (hk : 1 ≤ k) (hint : n * k < 2 ^ 31) (hi : i < h)
    (hlow : (1 + k * (k - 1)) ^ i ≤ levelStart k (i + 2))
    (hhigh : levelStart k (i + 2) < min n ((1 + k * (k - 1)) ^ (i + 1))) :
    ¬ LevelByLevel n k h (adjOf k (min n ((1 + k * (k - 1)) ^ h))) := by
  intro hlevel
  obtain ⟨g, g', hg, hg', hiff⟩ := hlevel.level i hi
  obtain ⟨g₁, g₁', hg₁, hg₁', hnum, hnum'⟩ := round_counts hn hk hint i
  obtain rfl := Except.ok.inj (hg.symm.trans hg₁)
  obtain rfl := Except.ok.inj (hg'.symm.trans hg₁')
  have hpos := attached_pos hn k h
  have hdepth := (hiff (levelStart k (i + 2))).1 ⟨by omega, by omega⟩
  have hbelow := ((atDepth_adjOf hk hpos).1 hdepth).2.2
  exact absurd hbelow (lt_irrefl _)

/-- the rounds follow the levels for these `n`, `k` and `h` -/
theorem counts_of_small (hn : 1 ≤ n) (hk : 2 ≤ k) (hsmall : h = 0 ∨ n ≤ k + 1 ∨ (k = 2 ∧ (h = 1 ∨ n ≤ 7))) :
    ∀ i ≤ h, min n ((1 + k * (k - 1)) ^ i) = min n (levelStart k (i + 1)) := by
  have h1 : levelStart k 1 = 1 := by simp [levelStart]
  have h2 : levelStart k 2 = 1 + k := by rw [levelStart_succ, h1, Nat.one_mul]
  have hb : k + 1 ≤ 1 + k * (k - 1) := by
    have := Nat.le_mul_of_pos_right k (show 0 < k - 1 by omega)
    omega
  intro i hi
  rcases i with _ | i
  · rw [h1, pow_zero]
  · have hpow : 1 + k * (k - 1) ≤ (1 + k * (k - 1)) ^ (i + 1) := Nat.le_self_pow (Nat.succ_ne_zero i) _
    have hstart : levelStart k 2 ≤ levelStart k (i + 1 + 1) := levelStart_mono k (by omega)
    rcases hsmall with rfl | hnk | ⟨rfl, hcase⟩
    · omega
    · -- all nodes are attached
      rw [min_eq_left (by omega), min_eq_left (by omega)]
    · rcases i with _ | i
      · rw [h2, zero_add, pow_one]
      · -- nine nodes fit after two rounds, and seven of them are in the first three levels
        have hn7 : n ≤ 7 := hcase.resolve_left (by omega)
        have hpow2 : (1 + 2 * (2 - 1)) ^ 2 ≤ (1 + 2 * (2 - 1)) ^ (i + 1 + 1) :=
          Nat.pow_le_pow_right (by decide) (by omega)
        have hstart3 : levelStart 2 3 ≤ levelStart 2 (i + 1 + 1 + 1) := levelStart_mono 2 (by omega)
        have h3 : levelStart 2 3 = 7 := by decide
        rw [min_eq_left (by omega), min_eq_left (by omega)]

/-- **When the rounds are the levels.** -/
theorem generate_tree_levels_iff (n k h : ℕ) (hn : 1 ≤ n) (hk : 2 ≤ k) (hint : n * k < 2 ^ 31) :
    ∃ adj, generateTree (fun _ => []) n k h = .ok adj ∧
      (LevelByLevel n k h adj ↔ h = 0 ∨ n ≤ k + 1 ∨ (k = 2 ∧ (h = 1 ∨ n ≤ 7))) := by
  have hk1 : 1 ≤ k := by omega
  refine ⟨_, generateTree_spec hn hk1 hint h, ?_, ?_⟩
  · intro hlevel
    by_contra hcase
    simp only [not_or, not_and] at hcase
    obtain ⟨h0, hnk, hbin⟩ := hcase
    by_cases hk2 : k = 2
    · -- the second round of a binary tree attaches node 7, the first one at depth 3
      subst hk2
      have hn7 := hbin rfl
      have h3 : levelStart 2 3 = 7 := by decide
      refine not_levelByLevel (i := 1) hn hk1 hint (by omega) (by rw [h3]; decide) ?_ hlevel
      rw [h3]
      omega
    · -- the first round attaches node `k + 1`, the first one at depth 2
      have h2 : levelStart k 2 = 1 + k := by simp [levelStart, Finset.sum_range_succ]
      have hmul : k * 2 ≤ k * (k - 1) := Nat.mul_le_mul_left k (by omega)
      refine not_levelByLevel (i := 0) hn hk1 hint (by omega) ?_ ?_ hlevel
      · rw [pow_zero, h2]
        omega
      · rw [zero_add, zero_add, pow_one, h2]
        omega
  · intro hsmall
    exact levelByLevel_of_counts hn hk1 hint (counts_of_small hn hk hsmall)

/-- a full binary tree of three levels -/
theorem generate_tree_levels_iff_seven :
    ∃ adj, generateTree (fun _ => []) 7 2 2 = .ok adj ∧ LevelByLevel 7 2 2 adj := by
  obtain ⟨adj, hadj, hiff⟩ := generate_tree_levels_iff 7 2 2 (by decide) (by decide) (by decide)
  exact ⟨adj, hadj, hiff.2 (Or.inr (Or.inr ⟨rfl, Or.inr le_rfl⟩))⟩

/-- **Eight nodes in two rounds.** The second round attaches node 7 at depth 3. -/
theorem eight_nodes_skip : ∃ adj, generateTree (fun _ => []) 8 2 2 = .ok adj ∧ AtDepth adj 3 7 ∧
    {c : ℕ | ∃ d, AtDepth adj d c}.ncard = 8 ∧ min 8 (∑ i ∈ Finset.range (2 + 1), 2 ^ i) = 7 ∧
    ¬ LevelByLevel 8 2 2 adj := by
  have h3 : levelStart 2 3 = 7 := by decide
  refine ⟨_, generateTree_spec (by decide) (by decide) (by decide) 2, ?_, ?_, by decide, ?_⟩
  · exact (atDepth_adjOf (c := 7) (by decide) (by decide)).2 ⟨by decide, by decide⟩
  · exact ncard_atDepth (by decide) (by decide)
  · exact not_levelByLevel (i := 1) (by decide) (by decide) (by decide) (by decide) (by rw [h3]; decide) (by decide)

end HeavyLight
