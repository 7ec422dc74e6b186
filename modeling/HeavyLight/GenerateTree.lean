/-
The tree generator of `tree.cpp` and the preprocessing of what it generates.

- `Gen`: the locals of `generate_tree` and the lists it fills. `generateTree`: its rounds, in each of which parents come
  from the front of a queue and children go to its end.
- `ends`: what `add_child` adds to a list.
- `Attached n k p g`: the state after `p` parents have left the queue. `expand_spec`, `levelLoop_spec`, `round_spec`,
  `rounds_spec`: one parent, the parents of a round, a round, all rounds.
- `rounds_start`, `generateTree_spec`: the nodes below `min n ((1 + k * (k - 1)) ^ h)` are attached, in the tree `arityTree`.
- `generate_tree_spans_iff`: when the generated tree has all `n` nodes, so that `preprocess` numbers every node.
-/
import HeavyLight.ArityTree
import HeavyLight.Preprocess

namespace HeavyLight

open ParentTree

/-! ## The program -/

/-- the locals of `generate_tree`, with the lists it fills -/
structure Gen where
  adj : ℤ → List ℤ
  numNodes : ℕ
  q : List ℕ

namespace Gen

/-- `add_child`, on lists for `n` nodes -/
def addChild (n : ℕ) (adj : ℤ → List ℤ) (parent child : ℕ) : Exec (ℤ → List ℤ) := do
  let us ← readCell n adj parent
  let adj ← writeCell n adj parent (us ++ [(child : ℤ)])
  let us ← readCell n adj child
  writeCell n adj child (us ++ [(parent : ℤ)])

/-- the body of the loop over the children of `parent` -/
def attach (n parent : ℕ) (g : Gen) : Exec Gen := do
  let child := g.numNodes
  let adj ← addChild n g.adj parent child
  return { adj := adj, numNodes := child + 1, q := g.q ++ [child] }

/-- the loop over the children of `parent`, with `m` iterations left: `l < k && num_nodes < n` -/
def attachLoop (n parent : ℕ) : ℕ → Gen → Exec Gen
  | 0, g => .ok g
  | m + 1, g =>
    if g.numNodes < n then do
      let g ← attach n parent g
      attachLoop n parent m g
    else .ok g

/-- the body of the loop over the parents of a round -/
def expand (n k : ℕ) (g : Gen) : Exec Gen :=
  match g.q with
  | [] => .error .emptyQueue
  | parent :: q => attachLoop n parent k { g with q := q }

/-- the loop over the parents of a round, with `m` iterations left -/
def levelLoop (n k : ℕ) : ℕ → Gen → Exec Gen
  | 0, g => .ok g
  | m + 1, g => do
    let g ← expand n k g
    levelLoop n k m g

/-- a round: `level_size = min(num_nodes * k, n) - num_nodes` parents -/
def round (n k : ℕ) (g : Gen) : Exec Gen := do
  let bound ← checkInt (g.numNodes * k)
  levelLoop n k (min bound n - g.numNodes) g

/-- `h` rounds -/
def rounds (n k : ℕ) : ℕ → Gen → Exec Gen
  | 0, g => .ok g
  | h + 1, g => do
    let g ← round n k g
    rounds n k h g

end Gen

open Gen

/-- `generate_tree`: the lists it leaves -/
def generateTree (adj : ℤ → List ℤ) (n k h : ℕ) : Exec (ℤ → List ℤ) :=
  if n = 0 ∨ k = 0 then .ok adj
  else do
    let g ← rounds n k h { adj := adj, numNodes := 1, q := [0] }
    return g.adj

namespace Gen

variable {n k h m p N : ℕ} {g : Gen}

/-! ## One child -/

/-- what an edge adds to the list of `x` -/
def ends (x : ℤ) (parent child : ℕ) : List ℤ :=
  (if x = parent then [(child : ℤ)] else []) ++ if x = child then [(parent : ℤ)] else []

theorem addChild_ok {adj : ℤ → List ℤ} {parent child : ℕ} (hp : parent < n) (hc : child < n) :
    addChild n adj parent child = .ok fun x => adj x ++ ends x parent child := by
  unfold addChild
  rw [readCell_ok (by omega) (by omega), ok_bind, writeCell_ok (by omega) (by omega), ok_bind,
    readCell_ok (by omega) (by omega), ok_bind, writeCell_ok (by omega) (by omega)]
  congr 1
  funext x
  by_cases hx : x = child
  · subst hx
    rw [Function.update_self, Function.update_apply, ends, if_pos rfl]
    by_cases hcp : (child : ℤ) = parent
    · rw [if_pos hcp, if_pos hcp, hcp, List.append_assoc]
    · rw [if_neg hcp, if_neg hcp, List.nil_append]
  · rw [Function.update_of_ne hx, Function.update_apply, ends, if_neg hx, List.append_nil]
    by_cases hxp : x = parent
    · rw [if_pos hxp, if_pos hxp, hxp]
    · rw [if_neg hxp, if_neg hxp, List.append_nil]

theorem addChild_spec (h0 : N ≠ 0) (hN : N < n) :
    addChild n (adjOf k N) (parentOf k N) N = .ok (adjOf k (N + 1)) := by
  have hlt := parentOf_lt (k := k) h0
  rw [addChild_ok (hlt.trans hN) hN]
  congr 1
  funext x
  by_cases hx : 0 ≤ x
  · obtain ⟨v, rfl⟩ := Int.eq_ofNat_of_zero_le hx
    have hcomm : parentOf k N = v ↔ v = parentOf k N := eq_comm
    simp only [ends, Nat.cast_inj, adjOf_coe, nbrsOf_add h0, List.map_append, List.append_assoc, hcomm]
    split_ifs <;> rfl
  · rw [ends, if_neg (by omega), if_neg (by omega), adjOf, adjOf, if_neg hx, if_neg hx, List.nil_append,
      List.nil_append]

theorem attach_spec (hadj : g.adj = adjOf k g.numNodes) (h0 : g.numNodes ≠ 0) (hn : g.numNodes < n) :
    attach n (parentOf k g.numNodes) g =
      .ok { adj := adjOf k (g.numNodes + 1), numNodes := g.numNodes + 1, q := g.q ++ [g.numNodes] } := by
  rw [attach, hadj, addChild_spec h0 hn, ok_bind]
  rfl

/-! ## One parent -/

/-- the state after `p` parents have left the queue -/
structure Attached (n k p : ℕ) (g : Gen) : Prop where
  le : p ≤ n
  num : g.numNodes = min n (1 + p * k)
  adj : g.adj = adjOf k g.numNodes
  queue : g.q = List.range' p (g.numNodes - p)

/-- the loop over the children of `p`, from the point where `m` of them are missing -/
theorem attachLoop_spec (hp : p < n) (hm : m ≤ k) (hnum : g.numNodes = min n (1 + (p + 1) * k - m))
    (hpn : p < g.numNodes) (hadj : g.adj = adjOf k g.numNodes) (hq : g.q = List.range' (p + 1) (g.numNodes - (p + 1))) :
    ∃ g', attachLoop n p m g = .ok g' ∧ Attached n k (p + 1) g' := by
  have hmul : (p + 1) * k = p * k + k := Nat.succ_mul p k
  induction m generalizing g with
  | zero => exact ⟨g, rfl, hp, hnum, hadj, hq⟩
  | succ m ih =>
    unfold attachLoop
    by_cases hn : g.numNodes < n
    · -- the next child is the node `1 + p * k + l` with `l < k`
      have hchild : g.numNodes = 1 + p * k + (k - (m + 1)) := by omega
      have hparent : parentOf k g.numNodes = p := by
        rw [hchild]
        exact parentOf_eq (by omega)
      have hattach := attach_spec hadj (by omega) hn
      rw [hparent] at hattach
      rw [if_pos hn, hattach, ok_bind]
      apply ih (by omega)
      · dsimp only
        omega
      · dsimp only
        omega
      · rfl
      · have hlen : g.numNodes + 1 - (p + 1) = g.numNodes - (p + 1) + 1 := by omega
        have hlast : p + 1 + (g.numNodes - (p + 1)) = g.numNodes := by omega
        rw [hq, hlen, List.range'_1_concat, hlast]
    · rw [if_neg hn]
      exact ⟨g, rfl, hp, by omega, hadj, hq⟩

/-- **One parent.** It leaves the queue, and its children enter it. -/
theorem expand_spec (hk : 1 ≤ k) (h : Attached n k p g) (hp : p < n) :
    ∃ g', expand n k g = .ok g' ∧ Attached n k (p + 1) g' := by
  have hmul : (p + 1) * k = p * k + k := Nat.succ_mul p k
  have hle : p ≤ p * k := Nat.le_mul_of_pos_right p hk
  have hnum := h.num
  have hlen : g.numNodes - p = g.numNodes - (p + 1) + 1 := by omega
  have hqueue : g.q = p :: List.range' (p + 1) (g.numNodes - (p + 1)) := by
    rw [h.queue, hlen, List.range'_succ]
  unfold expand
  rw [hqueue]
  apply attachLoop_spec hp le_rfl
  · dsimp only
    omega
  · dsimp only
    omega
  · exact h.adj
  · rfl

/-! ## Rounds -/

theorem levelLoop_spec (hk : 1 ≤ k) (h : Attached n k p g) (hm : p + m ≤ n) :
    ∃ g', levelLoop n k m g = .ok g' ∧ Attached n k (p + m) g' := by
  induction m generalizing p g with
  | zero => exact ⟨g, rfl, h⟩
  | succ m ih =>
    obtain ⟨g₁, hg₁, h₁⟩ := expand_spec hk h (by omega)
    obtain ⟨g₂, hg₂, h₂⟩ := ih h₁ (by omega)
    refine ⟨g₂, ?_, ?_⟩
    · rw [levelLoop, hg₁, ok_bind, hg₂]
    · rwa [show p + (m + 1) = p + 1 + m by omega]

/-- the number of nodes after a round of `min (N * k) n - N` parents -/
theorem round_num (hk : 1 ≤ k) (hN : N = min n (1 + p * k)) :
    min n (1 + (p + (min (N * k) n - N)) * k) = min n (N * (1 + k * (k - 1))) := by
  have hmul := Nat.add_mul p (min (N * k) n - N) k
  have hle : N ≤ N * k := Nat.le_mul_of_pos_right N hk
  rcases le_total (N * k) n with hfit | hfit
  · rw [min_eq_left hfit] at hmul ⊢
    have hgrow : N * (1 + k * (k - 1)) = N + (N * k - N) * k := by
      rw [← Nat.mul_sub_one]
      ring
    omega
  · -- the last round
    rw [min_eq_right hfit] at hmul ⊢
    have hrest : n - N ≤ (n - N) * k := Nat.le_mul_of_pos_right _ hk
    have hall : N * k ≤ N * (1 + k * (k - 1)) := by
      apply Nat.mul_le_mul_left
      obtain ⟨j, rfl⟩ := Nat.exists_eq_add_of_le' hk
      have : j ≤ (j + 1) * j := Nat.le_mul_of_pos_left j (Nat.succ_pos j)
      rw [Nat.add_sub_cancel]
      omega
    omega

/-- **One round.** The number of attached nodes grows by the factor `1 + k * (k - 1)`, up to `n`. -/
theorem round_spec (hk : 1 ≤ k) (hint : n * k < 2 ^ 31) (h : Attached n k p g) :
    ∃ p' g', round n k g = .ok g' ∧ Attached n k p' g' ∧ g'.numNodes = min n (g.numNodes * (1 + k * (k - 1))) := by
  have hnum := h.num
  have hle : p ≤ p * k := Nat.le_mul_of_pos_right p hk
  have hpn := h.le
  have hfit : g.numNodes * k < 2 ^ 31 := (Nat.mul_le_mul_right k (by omega)).trans_lt hint
  obtain ⟨g', hg', h'⟩ := levelLoop_spec (m := min (g.numNodes * k) n - g.numNodes) hk h (by omega)
  refine ⟨_, g', ?_, h', ?_⟩
  · unfold round
    rw [checkInt_ok hfit, ok_bind, hg']
  · rw [h'.num, round_num hk hnum]

theorem min_min_mul {x b : ℕ} (hb : 0 < b) : min n (min n x * b) = min n (x * b) := by
  have h1 : n ≤ n * b := Nat.le_mul_of_pos_right n hb
  rcases le_total n x with hx | hx
  · have h2 := Nat.mul_le_mul_right b hx
    rw [min_eq_left hx]
    omega
  · rw [min_eq_right hx]

/-- **All rounds.** -/
theorem rounds_spec (hk : 1 ≤ k) (hint : n * k < 2 ^ 31) (h : ℕ) (hg : Attached n k p g) :
    ∃ p' g', rounds n k h g = .ok g' ∧ Attached n k p' g' ∧
      g'.numNodes = min n (g.numNodes * (1 + k * (k - 1)) ^ h) := by
  induction h generalizing p g with
  | zero =>
    refine ⟨p, g, rfl, hg, ?_⟩
    have := hg.num
    rw [pow_zero, Nat.mul_one]
    omega
  | succ h ih =>
    obtain ⟨p₁, g₁, hr₁, h₁, hnum₁⟩ := round_spec hk hint hg
    obtain ⟨p₂, g₂, hr₂, h₂, hnum₂⟩ := ih h₁
    refine ⟨p₂, g₂, ?_, h₂, ?_⟩
    · rw [rounds, hr₁, ok_bind, hr₂]
    · have hb : 0 < (1 + k * (k - 1)) ^ h := by positivity
      rw [hnum₂, hnum₁, min_min_mul hb, pow_succ', Nat.mul_assoc]

/-- the locals before the first round, with empty lists -/
def start : Gen := { adj := fun _ => [], numNodes := 1, q := [0] }

theorem attached_start (k : ℕ) (hn : 1 ≤ n) : Attached n k 0 start := by
  have hempty : (fun _ => []) = adjOf k 1 := by
    funext x
    unfold adjOf
    split_ifs
    · by_cases hx : x.toNat = 0
      · simp [nbrsOf, childrenOf, hx]
      · rw [nbrsOf_eq_nil (by omega), List.map_nil]
    · rfl
  refine ⟨Nat.zero_le n, ?_, hempty, rfl⟩
  simp [start, hn]

/-- **The first rounds.** -/
theorem rounds_start (hn : 1 ≤ n) (hk : 1 ≤ k) (hint : n * k < 2 ^ 31) (h : ℕ) :
    ∃ p g, rounds n k h start = .ok g ∧ Attached n k p g ∧ g.numNodes = min n ((1 + k * (k - 1)) ^ h) := by
  obtain ⟨p, g, hg, hatt, hnum⟩ := rounds_spec hk hint h (attached_start k hn)
  refine ⟨p, g, hg, hatt, ?_⟩
  rw [hnum, start, Nat.one_mul]

end Gen

/-- **What `generate_tree` leaves**: the lists of the nodes below `min n ((1 + k * (k - 1)) ^ h)`. -/
theorem generateTree_spec {n k : ℕ} (hn : 1 ≤ n) (hk : 1 ≤ k) (hint : n * k < 2 ^ 31) (h : ℕ) :
    generateTree (fun _ => []) n k h = .ok (adjOf k (min n ((1 + k * (k - 1)) ^ h))) := by
  obtain ⟨p, g, hg, hatt, hnum⟩ := rounds_start hn hk hint h
  unfold generateTree
  rw [if_neg (by omega), ← start, hg, ok_bind, ← hnum, ← hatt.adj]
  rfl

/-! ## The tree for `preprocess` -/

/-- every node is connected to node 0 by the lists, and from zero root cells `preprocess` numbers the nodes from 0 to
`n - 1` -/
structure Spans (n : ℕ) (adj : ℤ → List ℤ) : Prop where
  connected : ∀ v : Fin n, Relation.ReflTransGen (fun a b => b ∈ adj a) 0 (v : ℕ)
  positions : ∀ (vals : ℤ → ℤ) (mem : Hld),
    Hld.RootZero { Hld.allocAll n mem with adj := adj, values := vals } →
      ∃ s, Returns (fun f => Hld.preprocess f n { Hld.allocAll n mem with adj := adj, values := vals }) s ∧
        Set.BijOn s.pos (Set.Ico 0 n) (Set.Ico 0 n)

/-- the lists of all nodes connect them -/
theorem spans_adjOf (k n : ℕ) : Spans (n + 1) (adjOf k (n + 1)) := by
  refine ⟨?_, ?_⟩
  · intro v
    obtain ⟨v, hv⟩ := v
    dsimp only
    induction v using Nat.strong_induction_on with
    | _ v ih =>
      by_cases h0 : v = 0
      · rw [h0]
        exact .refl
      · have hlt := parentOf_lt (k := k) h0
        apply (ih (parentOf k v) hlt (by omega)).tail
        rw [adjOf_coe, List.mem_map]
        refine ⟨v, List.mem_append.2 (Or.inr ?_), rfl⟩
        simp [childrenOf, hv, h0]
  · intro vals mem hz
    rw [← adj_arityTree] at hz ⊢
    obtain ⟨s, hs, hready, -⟩ := Hld.preprocess_ready (A := AdjTree.ofParentTree (arityTree k n)) hz
    exact ⟨s, hs, hready.bijOn_pos⟩

/-- a node without neighbours is not connected -/
theorem not_spans_adjOf {k n N : ℕ} (h0 : 0 < N) (h : N < n) : ¬ Spans n (adjOf k N) := by
  intro hspans
  have hconn := hspans.connected ⟨N, h⟩
  rcases Relation.ReflTransGen.cases_tail hconn with heq | ⟨a, -, ha⟩
  · dsimp only at heq
    omega
  · unfold adjOf at ha
    split_ifs at ha
    · obtain ⟨c, hc, hcN⟩ := List.mem_map.1 ha
      have := (mem_nbrsOf hc).2
      dsimp only at hcN
      omega
    · cases ha

/-- **When the generated tree has all its nodes**, of those with room for `n` nodes: unless each node has one child. -/
theorem generate_tree_spans_iff (n k h : ℕ) (hn : 1 ≤ n) (hk : 1 ≤ k) (hroom : n ≤ ∑ i ∈ Finset.range (h + 1), k ^ i)
    (hint : n * k < 2 ^ 31) :
    ∃ adj, generateTree (fun _ => []) n k h = .ok adj ∧ (Spans n adj ↔ 2 ≤ k ∨ n = 1) := by
  refine ⟨_, generateTree_spec hn hk hint h, ?_⟩
  by_cases hk2 : 2 ≤ k
  · have hall : min n ((1 + k * (k - 1)) ^ h) = n := min_eq_left (hroom.trans (geom_le_pow hk2 h))
    obtain ⟨m, rfl⟩ := Nat.exists_eq_add_of_le' hn
    rw [hall]
    exact iff_of_true (spans_adjOf k m) (Or.inl hk2)
  · -- one child for each node: node 0 alone is attached
    obtain rfl : k = 1 := by omega
    have hone : min n ((1 + 1 * (1 - 1)) ^ h) = 1 := by simp [hn]
    rw [hone]
    by_cases hn1 : n = 1
    · rw [hn1]
      exact iff_of_true (spans_adjOf 1 0) (Or.inr rfl)
    · exact iff_of_false (not_spans_adjOf Nat.one_pos (by omega)) (by omega)

theorem generate_tree_spans_iff_binary :
    ∃ adj, generateTree (fun _ => []) 3 2 1 = .ok adj ∧ Spans 3 adj := by
  obtain ⟨adj, hadj, hiff⟩ := generate_tree_spans_iff 3 2 1 (by decide) (by decide) (by decide) (by decide)
  exact ⟨adj, hadj, hiff.2 (Or.inl le_rfl)⟩

/-- **A path of two nodes** is not generated: node 1 stays alone. -/
theorem path_not_generated :
    2 ≤ ∑ i ∈ Finset.range (1 + 1), 1 ^ i ∧ ∃ adj, generateTree (fun _ => []) 2 1 1 = .ok adj ∧ ¬ Spans 2 adj :=
  ⟨by decide, _, generateTree_spec (by decide) (by decide) (by decide) 1, not_spans_adjOf Nat.one_pos (by decide)⟩

end HeavyLight
