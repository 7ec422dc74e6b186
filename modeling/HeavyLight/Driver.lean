/-
Whole runs of `main` of `serial_hld.cpp` and `parallel_hld.cpp`: it allocates, generates a tree and its values,
preprocesses five times, and asks its queries in five rounds.

- `Options`: the options of the command line, with their defaults. `main`: the answers of all queries, in their order.
- `rounds_answers`: over any tree, any number of rounds of preprocessing and of queries answers each query with the sum
  of the values on its path.
- `main_answers`: so `main` returns the sum on one path of the tree of `generate_tree` five times, whenever that tree
  has all its nodes and the values add up to an `int`. `main_simple`: with `-s` it returns the sums listed above
  `generate_simple_tree`.
- `WorkerRounds`: the rounds of `main` of `parallel_hld.cpp`, the same but for `parallel_preprocess` in place of
  `preprocess`. `parallel_main_answers`: they end under every fair schedule, and the queries return the same sum.

A new process is assumed to find zeros in what `malloc` returns (`Fresh`). Every `int` of the segment tree and every sum of a
query is checked; the sizes, depths and positions of `dfs` and `decompose`, at most `n`, are exact.
-/
import HeavyLight.GenerateTree
import HeavyLight.Workers

namespace HeavyLight

open ParentTree

namespace Hld

/-! ## The program -/

/-- the options that `main` reads, other than the one for printing the tree -/
structure Options where
  simple : Bool := false
  n : ℕ := 2 ^ 16 - 1
  h : ℕ := 16
  k : ℕ := 2

/-- the calls of `add_child` in `generate_simple_tree` -/
def simpleEdges : List (ℕ × ℕ) :=
  [(0, 1), (0, 2), (1, 3), (1, 4), (2, 5), (3, 6), (3, 7), (3, 8), (4, 9), (4, 10)]

/-- `generate_simple_tree(adj, values)`, for `n` nodes -/
def generateSimpleTree (n : ℕ) (adj : ℤ → List ℤ) (values : ℤ → ℤ) : Exec ((ℤ → List ℤ) × (ℤ → ℤ)) := do
  let adj ← simpleEdges.foldlM (fun adj e => Gen.addChild n adj e.1 e.2) adj
  let values ← (List.range 11).foldlM (fun values (i : ℕ) => writeCell n values i (i : ℤ)) values
  return (adj, values)

/-- the tree and the values, from the generators that the options select -/
def generate (o : Options) (rand : ℕ → ℕ) (n : ℕ) (s : Hld) : Exec Hld :=
  if o.simple then do
    let (adj, values) ← generateSimpleTree n s.adj s.values
    return { s with adj := adj, values := values }
  else do
    let adj ← generateTree s.adj n o.k o.h
    let values ← generateRandomValues rand n s.values
    return { s with adj := adj, values := values }

/-- the queries of a round with `-s` -/
def simpleQueries : List (ℤ × ℤ) :=
  [(0, 1), (0, 2), (1, 2), (3, 2), (3, 4), (3, 5), (4, 5), (6, 8), (6, 7), (6, 5), (9, 4), (8, 2), (6, 0), (10, 6),
    (10, 9)]

/-- the queries of a round -/
def queries (o : Options) (n : ℕ) : List (ℤ × ℤ) :=
  if o.simple then simpleQueries else [(Int.tdiv (n - 1) 2, (n : ℤ) - 1)]

/-- a round of queries -/
def queryRound (f : ℕ) (s : Hld) : List (ℤ × ℤ) → Exec (List ℤ)
  | [] => .ok []
  | (u, v) :: qs => do
    let ans ← queryPathInt f s u v
    let rest ← queryRound f s qs
    return ans :: rest

/-- the loop over the rounds of queries -/
def queryRounds (f : ℕ) (s : Hld) (qs : List (ℤ × ℤ)) : ℕ → Exec (List ℤ)
  | 0 => .ok []
  | m + 1 => do
    let answers ← queryRound f s qs
    let rest ← queryRounds f s qs m
    return answers ++ rest

/-- `main`, with `rand i` the result of call `i` of `rand()` -/
def main (f : ℕ) (o : Options) (rand : ℕ → ℕ) (mem : Hld) : Exec (List ℤ) := do
  let n := if o.simple then 11 else o.n
  let numRounds := 5
  let s ← generate o rand n (allocAll n mem)
  let s ← preprocessRoundsWith (.ints n) f n numRounds s
  queryRounds f s (queries o n) numRounds

/-- the memory of a new process: empty lists, and zeros in the cells of node 0 that nothing writes -/
structure Fresh (n : ℕ) (mem : Hld) : Prop where
  adj : mem.adj = fun _ => []
  rootZero : (allocAll n mem).RootZero

theorem Fresh.load {n : ℕ} {mem : Hld} (h : Fresh n mem) (A : AdjTree n) (vals : ℤ → ℤ) : (A.load vals mem).RootZero :=
  ⟨h.rootZero.kth, h.rootZero.depth⟩

/-! ## Rounds over a tree -/

section Rounds

variable {n : ℕ} {A : AdjTree n} {vals : ℤ → ℤ} {mem s : Hld}

/-- a query of two nodes, as the program passes it -/
def asked (q : Fin n × Fin n) : ℤ × ℤ := (((q.1 : ℕ) : ℤ), ((q.2 : ℕ) : ℤ))

/-- the sum of the values on the path of a query -/
def pathSum (T : ParentTree (Fin n)) (vals : ℤ → ℤ) (q : Fin n × Fin n) : ℤ := ∑ w ∈ T.path q.1 q.2, vals (w : ℕ)

theorem queryRound_spec {ans : Fin n × Fin n → ℤ}
    (hans : ∀ q : Fin n × Fin n, Returns (fun f => queryPathInt f s (q.1 : ℕ) (q.2 : ℕ)) (ans q))
    (qs : List (Fin n × Fin n)) : Returns (fun f => queryRound f s (qs.map asked)) (qs.map ans) := by
  induction qs with
  | nil => exact Returns.of_forall fun _ => rfl
  | cons q qs ih => exact (hans q).bind (ih.map (g := fun rest => ans q :: rest))

theorem queryRounds_spec {qs : List (ℤ × ℤ)} {answers : List ℤ} (h : Returns (fun f => queryRound f s qs) answers)
    (m : ℕ) : Returns (fun f => queryRounds f s qs m) (List.replicate m answers).flatten := by
  induction m with
  | zero => exact Returns.of_forall fun _ => rfl
  | succ m ih =>
    rw [List.replicate_succ, List.flatten_cons]
    exact h.bind (ih.map (g := fun rest => answers ++ rest))

theorem Settled.queryRounds (hfits : Fits n vals) (h : Settled A vals s) (qs : List (Fin n × Fin n)) (m : ℕ) :
    Returns (fun f => queryRounds f s (qs.map asked) m) (List.replicate m (qs.map (pathSum A.rooted vals))).flatten :=
  queryRounds_spec (queryRound_spec (fun q => h.queryPathInt hfits q.1 q.2) qs) m

/-- **Rounds over a tree.** -/
theorem rounds_answers (hfits : Fits n vals) (h : (A.load vals mem).RootZero) (qs : List (Fin n × Fin n)) (m r : ℕ) :
    Returns (fun f => do
      let s ← preprocessRoundsWith (.ints n) f n (m + 1) (A.load vals mem)
      queryRounds f s (qs.map asked) r) (List.replicate r (qs.map (pathSum A.rooted vals))).flatten := by
  obtain ⟨s, hs, hset⟩ := preprocessWith_settled hfits h
  obtain ⟨t, ht, hset'⟩ := hset.roundsWith hfits m
  exact (hs.bind ht).bind (hset'.queryRounds hfits qs r)

end Rounds

/-! ## The generated tree -/

section Generated

variable {o : Options} {mem : Hld} {m : ℕ}

/-- the first node of the query: `(n - 1) / 2`, of `n = m + 1` nodes -/
def middle (m : ℕ) : Fin (m + 1) := ⟨m / 2, by omega⟩

/-- what `main` loads without `-s` -/
theorem generate_spec (rand : ℕ → ℕ) (hs : o.simple = false) (hk : 1 ≤ o.k)
    (hall : m + 1 ≤ (1 + o.k * (o.k - 1)) ^ o.h) (hint : (m + 1) * o.k < 2 ^ 31) (hadj : mem.adj = fun _ => []) :
    ∃ vals : ℤ → ℤ, (∀ i : ℕ, i < m + 1 → vals i = (rand i % maxVal : ℕ)) ∧
      generate o rand (m + 1) (allocAll (m + 1) mem) =
        .ok ((AdjTree.ofParentTree (arityTree o.k m)).load vals mem) := by
  obtain ⟨vals, hvals, hset, -⟩ := fill_loop (fun i => (rand i % maxVal : ℕ)) (m + 1) mem.values (m + 1) le_rfl
  have htree := generateTree_spec (show 1 ≤ m + 1 by omega) hk hint o.h
  rw [min_eq_left hall, ← adj_arityTree] at htree
  have hold : (allocAll (m + 1) mem).adj = fun _ => [] := hadj
  have hrand : generateRandomValues rand (m + 1) (allocAll (m + 1) mem).values = .ok vals := hvals
  refine ⟨vals, hset, ?_⟩
  rw [generate, hs, if_neg Bool.false_ne_true, hold, htree, ok_bind, hrand]
  rfl

theorem queries_generated (hs : o.simple = false) : queries o (m + 1) = [(middle m, Fin.last m)].map asked := by
  have hhalf : Int.tdiv (((m + 1 : ℕ) : ℤ) - 1) 2 = (m / 2 : ℕ) := by
    rw [Int.tdiv_eq_ediv_of_nonneg (by omega)]
    omega
  have hlast : ((m + 1 : ℕ) : ℤ) - 1 = m := by omega
  rw [queries, hs, if_neg Bool.false_ne_true, hhalf, hlast, List.map_singleton, asked, middle, Fin.val_last]

/-- the sum that `main` asks for, along the path of the tree -/
theorem pathSum_generated {rand : ℕ → ℕ} {k : ℕ} {vals : ℤ → ℤ}
    (hvals : ∀ i : ℕ, i < m + 1 → vals i = (rand i % maxVal : ℕ))
    {p : (arityTree k m).graph.Walk (middle m) (Fin.last m)} (hp : p.IsPath) :
    (List.replicate 5 ([(middle m, Fin.last m)].map (pathSum (AdjTree.ofParentTree (arityTree k m)).rooted vals))).flatten =
      List.replicate 5 (p.support.map fun w : Fin (m + 1) => ((rand w % maxVal : ℕ) : ℤ)).sum := by
  have hsum : pathSum (AdjTree.ofParentTree (arityTree k m)).rooted vals (middle m, Fin.last m) =
      (p.support.map fun w : Fin (m + 1) => ((rand w % maxVal : ℕ) : ℤ)).sum := by
    rw [AdjTree.rooted_ofParentTree _ rfl, ParentTree.sum_support _ hp]
    exact Finset.sum_congr rfl fun w _ => hvals w w.isLt
  rw [List.map_singleton, hsum]
  rfl

/-- the random values fit when they add up to an `int` -/
theorem fits_generated {rand : ℕ → ℕ} {vals : ℤ → ℤ} (hfew : m + 1 < 2 ^ 29)
    (htotal : ∑ i ∈ Finset.range (m + 1), rand i % maxVal ≤ 2 ^ 31 - 1)
    (hvals : ∀ i : ℕ, i < m + 1 → vals i = (rand i % maxVal : ℕ)) : Fits (m + 1) vals := by
  refine ⟨hfew, fun i hi => ?_, ?_⟩
  · have hlt := Nat.mod_lt (rand i) maxVal_pos
    rw [hvals i hi]
    omega
  · have hsum : ∑ w : Fin (m + 1), vals (w : ℕ) = ((∑ i ∈ Finset.range (m + 1), rand i % maxVal : ℕ) : ℤ) := by
      rw [Nat.cast_sum, Finset.sum_range]
      exact Finset.sum_congr rfl fun w _ => hvals w w.isLt
    rw [hsum]
    omega

/-- **A run of `main`.** When the options give room for all `n < 2^29` nodes and the values add up to at most `2^31 - 1`, no
check fails and every query returns the sum of the values on the path between the nodes `(n - 1) / 2` and `n - 1`. -/
theorem main_answers (o : Options) (rand : ℕ → ℕ) (mem : Hld) (m : ℕ) (hs : o.simple = false) (hn : o.n = m + 1)
    (hk : 1 ≤ o.k) (hall : o.n ≤ (1 + o.k * (o.k - 1)) ^ o.h) (hint : o.n * o.k < 2 ^ 31) (hfew : o.n < 2 ^ 29)
    (htotal : ∑ i ∈ Finset.range o.n, rand i % maxVal ≤ 2 ^ 31 - 1) (hmem : Fresh o.n mem)
    {p : (arityTree o.k m).graph.Walk (middle m) (Fin.last m)} (hp : p.IsPath) :
    Returns (fun f => main f o rand mem)
      (List.replicate 5 (p.support.map fun w : Fin (m + 1) => ((rand w % maxVal : ℕ) : ℤ)).sum) := by
  rw [hn] at hall hint hfew htotal hmem
  obtain ⟨vals, hvals, hgen⟩ := generate_spec rand hs hk hall hint hmem.adj
  have hrun := rounds_answers (fits_generated hfew htotal hvals)
    (hmem.load (AdjTree.ofParentTree (arityTree o.k m)) vals) [(middle m, Fin.last m)] 4 5
  rw [pathSum_generated hvals hp] at hrun
  refine hrun.congr fun f => ?_
  simp only [main, hs, Bool.false_eq_true, if_false, hn, hgen, ok_bind, queries_generated hs]

/-- the default options give room for their nodes -/
example (o : Options) (ho : o = {}) : o.n ≤ (1 + o.k * (o.k - 1)) ^ o.h ∧ o.n * o.k < 2 ^ 31 := by
  subst ho
  decide

/-- the options `-n 7 -h 2` -/
def sevenNodes : Options := { n := 7, h := 2 }

/-- on seven nodes, each with its number as its value, the path is 3, 1, 0, 2, 6 -/
theorem sum_seven {p : (arityTree sevenNodes.k 6).graph.Walk (middle 6) (Fin.last 6)} (hp : p.IsPath) :
    (p.support.map fun w : Fin 7 => (((w : ℕ) % maxVal : ℕ) : ℤ)).sum = 12 := by
  have hval : ∀ w : Fin 7, (((w : ℕ) % maxVal : ℕ) : ℤ) = (w : ℕ) := by
    intro w
    have hmax : 7 ≤ maxVal := Nat.le_sqrt.2 (by norm_num)
    rw [Nat.mod_eq_of_lt (by omega)]
  rw [ParentTree.sum_support _ hp, Finset.sum_congr rfl fun w _ => hval w]
  decide +kernel

theorem total_seven : ∑ i ∈ Finset.range 7, i % maxVal ≤ 2 ^ 31 - 1 :=
  (Finset.sum_le_sum fun i _ => Nat.mod_le i maxVal).trans (by decide)

theorem main_answers_seven :
    Returns (fun f => main f sevenNodes (fun i => i) AdjTree.zeroMemory) [12, 12, 12, 12, 12] := by
  obtain ⟨p, hp, -⟩ := (arityTree sevenNodes.k 6).isTree_graph.existsUnique_path (middle 6) (Fin.last 6)
  have h := main_answers sevenNodes (fun i => i) AdjTree.zeroMemory 6 rfl rfl (by decide) (by decide) (by decide) (by decide)
    total_seven ⟨rfl, fun _ _ => rfl, rfl⟩ hp
  rw [sum_seven hp] at h
  exact h

end Generated

/-! ## The simple tree -/

/-- the tree drawn above `generate_simple_tree` -/
def simpleTree : ParentTree (Fin 11) := ParentTree.numbered ![0, 0, 0, 1, 1, 2, 3, 3, 3, 4, 4] (by decide) (by decide)

/-- a run of `add_child` calls appends to the list of each node -/
theorem addChildren_spec {n : ℕ} (es : List (ℕ × ℕ)) (hes : ∀ e ∈ es, e.1 < n ∧ e.2 < n) (adj : ℤ → List ℤ) :
    es.foldlM (fun adj e => Gen.addChild n adj e.1 e.2) adj =
      .ok fun x => adj x ++ es.flatMap fun e => Gen.ends x e.1 e.2 := by
  induction es generalizing adj with
  | nil =>
    simp only [List.flatMap_nil, List.append_nil]
    rfl
  | cons e es ih =>
    obtain ⟨h1, h2⟩ := hes e List.mem_cons_self
    rw [List.foldlM_cons, Gen.addChild_ok h1 h2, ok_bind, ih fun e he => hes e (List.mem_cons_of_mem _ he)]
    simp only [List.flatMap_cons, List.append_assoc]

/-- the lists that `generate_simple_tree` leaves -/
theorem adj_simpleTree :
    (fun x => simpleEdges.flatMap fun e => Gen.ends x e.1 e.2) = (AdjTree.ofParentTree simpleTree).adj := by
  funext x
  by_cases hx : 0 ≤ x ∧ x < (11 : ℕ)
  · obtain ⟨w, rfl⟩ := exists_node hx.1 hx.2
    revert w
    decide +kernel
  · rw [AdjTree.adj, dif_neg hx, List.flatMap_eq_nil_iff]
    intro e he
    have hlt : e.1 < 11 ∧ e.2 < 11 := by
      revert e
      decide
    rw [Gen.ends, if_neg (by omega), if_neg (by omega), List.append_nil]

/-- what `main` loads with `-s` -/
theorem generate_simple (o : Options) (rand : ℕ → ℕ) {mem : Hld} (hs : o.simple = true) (hadj : mem.adj = fun _ => []) :
    ∃ vals : ℤ → ℤ, (∀ i : ℕ, i < 11 → vals i = i) ∧
      generate o rand 11 (allocAll 11 mem) = .ok ((AdjTree.ofParentTree simpleTree).load vals mem) := by
  obtain ⟨vals, hvals, hset, -⟩ := fill_loop (fun i => (i : ℤ)) 11 mem.values 11 le_rfl
  have hold : (allocAll 11 mem).adj = fun _ => [] := hadj
  have hfill : (List.range 11).foldlM (fun values (i : ℕ) => writeCell 11 values i (i : ℤ)) (allocAll 11 mem).values =
      .ok vals := hvals
  have htree := addChildren_spec (n := 11) simpleEdges (by decide) fun _ => []
  simp only [List.nil_append, adj_simpleTree] at htree
  refine ⟨vals, hset, ?_⟩
  rw [generate, if_pos hs, generateSimpleTree, hold, htree, ok_bind, hfill]
  rfl

/-- the queries of `main` with `-s`, as pairs of nodes -/
def simplePairs : List (Fin 11 × Fin 11) :=
  [(0, 1), (0, 2), (1, 2), (3, 2), (3, 4), (3, 5), (4, 5), (6, 8), (6, 7), (6, 5), (9, 4), (8, 2), (6, 0), (10, 6),
    (10, 9)]

/-- **The listed results** of `generate_simple_tree` are those that `main` prints with `-s`, whatever the other options
are. -/
theorem main_simple (o : Options) (rand : ℕ → ℕ) {mem : Hld} (hs : o.simple = true) (hmem : Fresh 11 mem) :
    Returns (fun f => main f o rand mem)
      (List.replicate 5 [1, 2, 3, 6, 8, 11, 12, 17, 16, 17, 13, 14, 10, 24, 23]).flatten := by
  obtain ⟨vals, hvals, hgen⟩ := generate_simple o rand hs hmem.adj
  have hqueries : queries o 11 = simplePairs.map asked := by
    rw [queries, if_pos hs]
    rfl
  have hsums : simplePairs.map (pathSum (AdjTree.ofParentTree simpleTree).rooted vals) =
      [1, 2, 3, 6, 8, 11, 12, 17, 16, 17, 13, 14, 10, 24, 23] := by
    have hval : pathSum simpleTree vals = pathSum simpleTree (fun x => x) :=
      funext fun q => Finset.sum_congr rfl fun w _ => hvals w w.isLt
    rw [AdjTree.rooted_ofParentTree _ rfl, hval]
    decide +kernel
  have hfits : Fits 11 vals := by
    have hmax : 11 ≤ maxVal := Nat.le_sqrt.2 (by norm_num)
    refine ⟨by decide, fun i hi => ?_, ?_⟩
    · rw [hvals i hi]
      omega
    · rw [Finset.sum_congr rfl fun (w : Fin 11) _ => hvals w w.isLt]
      decide
  have hrun := rounds_answers hfits (hmem.load (AdjTree.ofParentTree simpleTree) vals) simplePairs 4 5
  rw [hsums] at hrun
  refine hrun.congr fun f => ?_
  simp only [main, hs, if_true, hgen, ok_bind, hqueries]

end Hld

end HeavyLight
