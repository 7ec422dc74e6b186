/-
`query_path_parallel`: the two climbing loops of `query_path` in the branches of a `par_do`, in any interleaving.

- `Stmt`, `Branch`: the statements of a branch, each one atomic step, and its variables, with the bounds it has passed to
  `st->query`. The branches share nothing that either of them writes.
- `climb_runs`: a branch gets to its last statement on the chain of `lca_uv`, like the loops of `query_path`.
- `left_runs`, `right_runs_below`, `right_runs_above`, `right_never_ends`: what the branches add up to. The last query of the
  right branch is meant to leave out the pivot `x`; when its range is empty its bounds are swapped, and it takes in `x` and
  the node after it.
- `query_path_parallel_iff`: when the result is that of `query_path`.
-/
import HeavyLight.ForkJoin
import HeavyLight.QueryPath

namespace HeavyLight

open ParentTree HeapIntervals

namespace Hld

/-! ## The program -/

/-- the statements of a branch: the loop test, the addition and the climb in the loop body, the addition after the loop -/
inductive Stmt where
  | test
  | add
  | climb
  | last

/-- the variables of a branch, and the bounds it has passed to `st->query` -/
structure Branch where
  node : ℤ
  res : ℤ
  asked : List (ℤ × ℤ)

/-- `res += st->query(l, r)` -/
def Branch.add (k : ℕ) (s : Hld) (b : Branch) (l r : ℤ) : Exec Branch := do
  let q ← s.st.query k l r
  return { b with res := b.res + q, asked := (l, r) :: b.asked }

/-- the statements of a branch, with the bounds of its queries: `chain pos[u] pos[head[u]]` in the loop and
`rest pos[lca_uv] pos[u]` after it -/
def branchBody (chain rest : ℤ → ℤ → ℤ × ℤ) (k : ℕ) (s : Hld) (lcaUv : ℤ) : Body Stmt Branch
  | .test, b => do
    let hu ← readCell s.n s.head b.node
    let hl ← readCell s.n s.head lcaUv
    return (b, .call (if hu ≠ hl then .add else .last))
  | .add, b => do
    let pu ← readCell s.n s.pos b.node
    let hu ← readCell s.n s.head b.node
    let ph ← readCell s.n s.pos hu
    let b ← b.add k s (chain pu ph).1 (chain pu ph).2
    return (b, .call .climb)
  | .climb, b => do
    let hu ← readCell s.n s.head b.node
    let p ← readKth s hu 0
    return ({ b with node := p }, .call .test)
  | .last, b => do
    let pl ← readCell s.n s.pos lcaUv
    let pu ← readCell s.n s.pos b.node
    let b ← b.add k s (rest pl pu).1 (rest pl pu).2
    return (b, .done)

/-- the branch of `u`: `query(pos[u], pos[head[u]])`, then `query(pos[lca_uv], pos[u])` -/
def leftBody : ℕ → Hld → ℤ → Body Stmt Branch := branchBody (fun pu ph => (pu, ph)) (fun pl pu => (pl, pu))

/-- the branch of `v`: `query(pos[head[v]], pos[v])`, then `query(pos[lca_uv] + 1, pos[v])` -/
def rightBody : ℕ → Hld → ℤ → Body Stmt Branch := branchBody (fun pv ph => (ph, pv)) (fun pl pv => (pl + 1, pv))

structure Branches where
  left : Branch
  right : Branch

/-- the statements of the two branches -/
def branchesBody (k : ℕ) (s : Hld) (lcaUv : ℤ) : Body (Stmt ⊕ Stmt) Branches
  | .inl c, b => do
    let r ← leftBody k s lcaUv c b.left
    return ({ b with left := r.1 }, r.2.map .inl)
  | .inr c, b => do
    let r ← rightBody k s lcaUv c b.right
    return ({ b with right := r.1 }, r.2.map .inr)

/-- every run of `query_path_parallel(u, v)` gets to the end of its `par_do` with `P` -/
def ParallelRuns (k : ℕ) (s : Hld) (u v : ℤ) (P : Branches → Prop) : Prop :=
  let (u, v) := if u > v then (v, u) else (u, v)
  ∃ lcaUv, lca s u v = .ok lcaUv ∧
    AllRuns (branchesBody k s lcaUv) P (.par (.call (.inl .test)) (.call (.inr .test))) ⟨⟨u, 0, []⟩, ⟨v, 0, []⟩⟩

/-- `return left_res + right_res` -/
def Branches.result (b : Branches) : ℤ := b.left.res + b.right.res

/-- the bounds passed to `st->query` are positions -/
def InRange (n : ℕ) (asked : List (ℤ × ℤ)) : Prop := ∀ q ∈ asked, (0 ≤ q.1 ∧ q.1 < n) ∧ 0 ≤ q.2 ∧ q.2 < n

/-- in every run `query_path_parallel(u, v)` ends, with positions as bounds of its queries and the result of
`query_path(u, v)` -/
def ParallelAgrees (s : Hld) (u v : ℤ) : Prop :=
  ∃ r, Returns (fun k => queryPath k s u v) r ∧
    ∃ N, ∀ k, N ≤ k → ParallelRuns k s u v fun b =>
      b.result = r ∧ InRange s.n b.left.asked ∧ InRange s.n b.right.asked

variable {n : ℕ} {A : AdjTree n} {s : Hld} {u v w x y z : Fin n} {vals : ℤ → ℤ} {mem : Hld} {cur : Fin n → ℤ}
  {asked : List (ℤ × ℤ)}

/-! ## A branch -/

theorem InRange.cons (h : InRange n asked) {q : ℤ × ℤ} (h1 : 0 ≤ q.1 ∧ q.1 < n) (h2 : 0 ≤ q.2 ∧ q.2 < n) :
    InRange n (q :: asked) := by
  intro r hr
  rcases List.mem_cons.1 hr with rfl | hr
  · exact ⟨h1, h2⟩
  · exact h r hr

/-- **A branch gets to its last statement** at the landing of its node on the chain of `x`. -/
theorem climb_runs (h : Ready A cur s) (chain rest : ℤ → ℤ → ℤ × ℤ)
    (hchain : ∀ u, Returns (fun k => s.st.query k (chain (A.rooted.pos u) (A.rooted.pos (A.rooted.head u))).1
      (chain (A.rooted.pos u) (A.rooted.pos (A.rooted.head u))).2) (∑ i ∈ A.rooted.seg (A.rooted.head u) u, cur i))
    (hrange : ∀ u v : Fin n, InRange n [chain (A.rooted.pos u) (A.rooted.pos v)])
    (hz : A.rooted.head z = A.rooted.head x) (u : Fin n) (hzu : A.rooted.Anc z u) (res : ℤ) (hasked : InRange n asked) :
    ∃ (y : Fin n) (res' : ℤ) (asked' : List (ℤ × ℤ)), A.rooted.IsLanding y u x ∧
      res' + cur y = res + ∑ i ∈ A.rooted.seg y u, cur i ∧ InRange n asked' ∧
      ∃ N, ∀ k, N ≤ k → ∀ P, AllRuns (branchBody chain rest k s x) P (.call .test) ⟨u, res, asked⟩ ↔
        AllRuns (branchBody chain rest k s x) P (.call .last) ⟨y, res', asked'⟩ := by
  induction hm : A.rooted.depth u using Nat.strong_induction_on generalizing u res asked with
  | _ m ih =>
    by_cases hheads : A.rooted.head u = A.rooted.head x
    · refine ⟨u, res, asked, IsLanding.self hheads, by simp, hasked, 0, fun k _ P => allRuns_call ?_⟩
      simp only [branchBody, readCell_node h.n_eq, ok_bind, (h.placed _).head, hheads]
      rw [if_neg (fun hne => hne rfl)]
      rfl
    · obtain ⟨hroot, hzp⟩ := anc_above_head hz hzu hheads
      have hdepth := (A.rooted.head_anc u).depth_le
      have hdepth' := A.rooted.depth_parent _ hroot
      obtain ⟨M, hM⟩ := hchain u
      obtain ⟨y, res', asked', hland, hres, hasked', N, hN⟩ := ih _ (by omega) (A.rooted.parent (A.rooted.head u)) hzp
        (res + ∑ i ∈ A.rooted.seg (A.rooted.head u) u, cur i)
        (hasked.cons (hrange u (A.rooted.head u) _ List.mem_cons_self).1
          (hrange u (A.rooted.head u) _ List.mem_cons_self).2) rfl
      refine ⟨y, res', asked', hland.climb hheads, ?_, hasked', max M N, fun k hk P => ?_⟩
      · rw [hres, sum_seg_parent cur hroot hland.anc (A.rooted.head_anc u)]
        ring
      -- one iteration: the test, the addition, the climb
      have hadd := hM k (by omega)
      have h₁ : branchBody chain rest k s x .test ⟨u, res, asked⟩ = .ok (⟨u, res, asked⟩, .call .add) := by
        simp only [branchBody, readCell_node h.n_eq, ok_bind, (h.placed _).head, if_pos (node_ne hheads)]
        rfl
      have h₂ : branchBody chain rest k s x .add ⟨u, res, asked⟩ =
          .ok (⟨u, res + ∑ i ∈ A.rooted.seg (A.rooted.head u) u, cur i,
            chain (A.rooted.pos u) (A.rooted.pos (A.rooted.head u)) :: asked⟩, .call .climb) := by
        simp only [branchBody, Branch.add, readCell_node h.n_eq, ok_bind, (h.placed _).head, (h.placed _).pos, hadd]
        rfl
      have h₃ : ∀ res asked, branchBody chain rest k s x .climb ⟨u, res, asked⟩ =
          .ok (⟨(A.rooted.parent (A.rooted.head u) : ℕ), res, asked⟩, .call .test) := by
        intro res asked
        simp only [branchBody, readCell_node h.n_eq, ok_bind, (h.placed _).head, h.readKth_parent hroot]
        rfl
      rw [allRuns_call h₁, allRuns_call h₂, allRuns_call (h₃ _ _)]
      exact hN k (by omega) P

/-- the last statement of a branch whose query returns -/
theorem last_runs (h : Ready A cur s) (chain rest : ℤ → ℤ → ℤ × ℤ) {q : ℤ} (res : ℤ)
    (hq : Returns (fun k => s.st.query k (rest (A.rooted.pos x) (A.rooted.pos y)).1
      (rest (A.rooted.pos x) (A.rooted.pos y)).2) q)
    (hrange : InRange n [rest (A.rooted.pos x) (A.rooted.pos y)]) (hasked : InRange n asked) :
    ∃ N, ∀ k, N ≤ k → AllRuns (branchBody chain rest k s x) (fun b => b.res = res + q ∧ InRange n b.asked)
      (.call .last) ⟨y, res, asked⟩ := by
  obtain ⟨N, hN⟩ := hq
  refine ⟨N, fun k hk => ?_⟩
  have hadd := hN k hk
  have hbody : branchBody chain rest k s x .last ⟨y, res, asked⟩ =
      .ok (⟨y, res + q, rest (A.rooted.pos x) (A.rooted.pos y) :: asked⟩, .done) := by
    simp only [branchBody, Branch.add, readCell_node h.n_eq, ok_bind, (h.placed _).pos, hadd]
    rfl
  rw [allRuns_call hbody, allRuns_done]
  exact ⟨rfl, hasked.cons (hrange _ List.mem_cons_self).1 (hrange _ List.mem_cons_self).2⟩

/-! ## The last query of the right branch -/

/-- with the landing below `x` it leaves out `x` -/
theorem query_rest_below (h : Ready A cur s) (hh : A.rooted.head y = A.rooted.head x)
    (hlt : A.rooted.pos x < A.rooted.pos y) :
    Returns (fun k => s.st.query k (A.rooted.pos x + 1) (A.rooted.pos y)) (∑ i ∈ A.rooted.path y x, cur i - cur x) := by
  obtain ⟨a, hrep, ha⟩ := h.sums
  have hy := pos_lt_n A y
  have hq := SegmentTree.query_represents hrep (l := A.rooted.pos x + 1) (r := A.rooted.pos y) (by omega) (by omega)
    (by omega) (by omega)
  have hsum : ∑ i ∈ A.rooted.path y x, cur i - cur x =
      ∑ i ∈ Finset.Icc (min (A.rooted.pos x + 1 : ℤ) (A.rooted.pos y)) (max (A.rooted.pos x + 1) (A.rooted.pos y)), a i := by
    have hsplit := sum_split a (A.rooted.pos x) (A.rooted.pos y) (A.rooted.pos x)
    rw [sum_path_chain cur a ha hh, min_eq_right (by omega), max_eq_left (by omega), ← hsplit, min_eq_right (by omega),
      max_eq_right (by omega), Finset.Icc_self, Finset.sum_singleton, ha, min_eq_left (by omega), max_eq_right (by omega)]
    ring
  rw [hsum]
  exact hq

/-- otherwise its bounds are swapped, and it takes in `x` and the node `z` after it -/
theorem query_rest_above (h : Ready A cur s) (hh : A.rooted.head y = A.rooted.head x)
    (hle : A.rooted.pos y ≤ A.rooted.pos x) (hz : A.rooted.pos z = A.rooted.pos x + 1) :
    Returns (fun k => s.st.query k (A.rooted.pos x + 1) (A.rooted.pos y)) (∑ i ∈ A.rooted.path y x, cur i + cur z) := by
  obtain ⟨a, hrep, ha⟩ := h.sums
  have hzn := pos_lt_n A z
  have hq := SegmentTree.query_represents hrep (l := A.rooted.pos x + 1) (r := A.rooted.pos y) (by omega) (by omega)
    (by omega) (by omega)
  have hsum : ∑ i ∈ A.rooted.path y x, cur i + cur z =
      ∑ i ∈ Finset.Icc (min (A.rooted.pos x + 1 : ℤ) (A.rooted.pos y)) (max (A.rooted.pos x + 1) (A.rooted.pos y)), a i := by
    have hsplit := sum_split a (A.rooted.pos y) (A.rooted.pos x + 1) (A.rooted.pos x)
    have hcur : cur z = a (A.rooted.pos x + 1) := by rw [← ha z, hz, Nat.cast_succ]
    rw [sum_path_chain cur a ha hh, min_eq_left (by omega), max_eq_right (by omega), min_eq_right (by omega),
      max_eq_left (by omega), ← hsplit, min_eq_right (by omega), max_eq_right (by omega), Finset.Icc_self,
      Finset.sum_singleton, hcur]
  rw [hsum]
  exact hq

/-- with `x` on the last position it never returns -/
theorem query_rest_never (h : Ready A cur s) (hlast : A.rooted.pos x + 1 = n) (k : ℕ) (q : ℤ) :
    s.st.query k (A.rooted.pos x + 1) (A.rooted.pos y) ≠ .ok q := by
  obtain ⟨a, hrep, -⟩ := h.sums
  exact SegmentTree.query_ne_ok hrep (le_max_of_le_left (by omega)) k q

/-! ## The two branches -/

theorem inRange_nil : InRange n [] := fun _ hq => absurd hq List.not_mem_nil

theorem inRange_pair (A : AdjTree n) (u v : Fin n) :
    InRange n [(((A.rooted.pos u : ℕ) : ℤ), ((A.rooted.pos v : ℕ) : ℤ))] :=
  inRange_nil.cons ⟨Int.natCast_nonneg _, pos_lt_n A u⟩ ⟨Int.natCast_nonneg _, pos_lt_n A v⟩

/-- **The left branch** adds up the path from `u` to `x`. -/
theorem left_runs (h : Ready A cur s) (hz : A.rooted.head z = A.rooted.head x) (hzu : A.rooted.Anc z u) :
    ∃ N, ∀ k, N ≤ k → AllRuns (leftBody k s x)
      (fun b => b.res = ∑ i ∈ A.rooted.path u x, cur i ∧ InRange n b.asked) (.call .test) ⟨u, 0, []⟩ := by
  obtain ⟨y, r, l, hland, hr, hl, N, hN⟩ := climb_runs h (fun pu ph => (pu, ph)) (fun pl pu => (pl, pu))
    h.answersChains.head' (inRange_pair A) hz u hzu 0 inRange_nil
  obtain ⟨M, hM⟩ := last_runs h (fun pu ph => (pu, ph)) (fun pl pu => (pl, pu)) r (query_chain h hland.head.symm)
    (inRange_pair A x y) hl
  refine ⟨max N M, fun k hk => (hN k (by omega) _).2 ((hM k (by omega)).mono fun b hb => ⟨?_, hb.2⟩)⟩
  have hsum := sum_landing cur hland
  rw [hb.1, A.rooted.path_comm x y]
  linarith

/-- **The right branch** gets to its last statement at the landing `y` of `v`; what is left of the path to add is the sum
from `y` to `x`. -/
theorem right_climbs (h : Ready A cur s) (hz : A.rooted.head z = A.rooted.head x) (hzv : A.rooted.Anc z v) :
    ∃ (y : Fin n) (r : ℤ) (l : List (ℤ × ℤ)), A.rooted.IsLanding y v x ∧
      r + ∑ i ∈ A.rooted.path y x, cur i = ∑ i ∈ A.rooted.path v x, cur i ∧ InRange n l ∧
      ∃ N, ∀ k, N ≤ k → ∀ P, AllRuns (rightBody k s x) P (.call .test) ⟨v, 0, []⟩ ↔
        AllRuns (rightBody k s x) P (.call .last) ⟨y, r, l⟩ := by
  obtain ⟨y, r, l, hland, hr, hl, hN⟩ := climb_runs h (fun pv ph => (ph, pv)) (fun pl pv => (pl + 1, pv))
    h.answersChains.head (fun u v => inRange_pair A v u) hz v hzv 0 inRange_nil
  refine ⟨y, r, l, hland, ?_, hl, hN⟩
  have hsum := sum_landing cur hland
  linarith

/-- the way from `v` up to `x` comes from the heavy child of `x` -/
def FromHeavy (A : AdjTree n) (x v : Fin n) : Prop := ∃ c, A.rooted.heavy x = some c ∧ A.rooted.Anc c v

/-- coming from the heavy child, the right branch leaves out `x` -/
theorem right_runs_below (h : Ready A cur s) (hz : A.rooted.head z = A.rooted.head x) (hzv : A.rooted.Anc z v)
    (hc : FromHeavy A x v) :
    ∃ N, ∀ k, N ≤ k → AllRuns (rightBody k s x)
      (fun b => b.res = ∑ i ∈ A.rooted.path v x, cur i - cur x ∧ InRange n b.asked) (.call .test) ⟨v, 0, []⟩ := by
  obtain ⟨y, r, l, hland, hr, hl, N, hN⟩ := right_climbs h hz hzv
  have hlt := hland.below_iff.2 hc
  have hy := pos_lt_n A y
  obtain ⟨M, hM⟩ := last_runs h (fun pv ph => (ph, pv)) (fun pl pv => (pl + 1, pv)) r (query_rest_below h hland.head hlt)
    (inRange_nil.cons ⟨by omega, by omega⟩ ⟨Int.natCast_nonneg _, hy⟩) hl
  refine ⟨max N M, fun k hk => (hN k (by omega) _).2 ((hM k (by omega)).mono fun b hb => ⟨?_, hb.2⟩)⟩
  rw [hb.1, ← hr]
  ring

/-- otherwise it takes in `x` and the node `w` after it -/
theorem right_runs_above (h : Ready A cur s) (hz : A.rooted.head z = A.rooted.head x) (hzv : A.rooted.Anc z v)
    (hc : ¬ FromHeavy A x v) (hw : A.rooted.pos w = A.rooted.pos x + 1) :
    ∃ N, ∀ k, N ≤ k → AllRuns (rightBody k s x)
      (fun b => b.res = ∑ i ∈ A.rooted.path v x, cur i + cur w ∧ InRange n b.asked) (.call .test) ⟨v, 0, []⟩ := by
  obtain ⟨y, r, l, hland, hr, hl, N, hN⟩ := right_climbs h hz hzv
  have hle : A.rooted.pos y ≤ A.rooted.pos x := not_lt.1 fun hlt => hc (hland.below_iff.1 hlt)
  have hwn := pos_lt_n A w
  obtain ⟨M, hM⟩ := last_runs h (fun pv ph => (ph, pv)) (fun pl pv => (pl + 1, pv)) r
    (query_rest_above h hland.head hle hw)
    (inRange_nil.cons ⟨by omega, by omega⟩ ⟨Int.natCast_nonneg _, pos_lt_n A y⟩) hl
  refine ⟨max N M, fun k hk => (hN k (by omega) _).2 ((hM k (by omega)).mono fun b hb => ⟨?_, hb.2⟩)⟩
  rw [hb.1, ← hr]
  ring

/-- with no node after `x` it does not end -/
theorem right_never_ends (h : Ready A cur s) (hz : A.rooted.head z = A.rooted.head x) (hzv : A.rooted.Anc z v)
    (hlast : A.rooted.pos x + 1 = n) :
    ∃ N, ∀ k, N ≤ k → ∀ P, ¬ AllRuns (rightBody k s x) P (.call .test) ⟨v, 0, []⟩ := by
  obtain ⟨y, r, l, -, -, -, N, hN⟩ := right_climbs h hz hzv
  refine ⟨N, fun k hk P hrun => ?_⟩
  rw [hN k hk P] at hrun
  cases hq : s.st.query k (A.rooted.pos x + 1) (A.rooted.pos y) with
  | ok q => exact query_rest_never h hlast k q hq
  | error e =>
    refine not_allRuns_call (e := e) ?_ hrun
    simp only [rightBody, branchBody, Branch.add, readCell_node h.n_eq, ok_bind, (h.placed _).pos, hq, error_bind]

/-! ## Both branches -/

theorem embeds_left (k : ℕ) (s : Hld) (lcaUv : ℤ) : Embeds (leftBody k s lcaUv) (branchesBody k s lcaUv) Sum.inl
    Branches.left (fun b bs => { bs with left := b }) := ⟨fun _ => rfl, fun _ _ => rfl, fun _ _ => rfl⟩

theorem embeds_right (k : ℕ) (s : Hld) (lcaUv : ℤ) : Embeds (rightBody k s lcaUv) (branchesBody k s lcaUv) Sum.inr
    Branches.right (fun b bs => { bs with right := b }) := ⟨fun _ => rfl, fun _ _ => rfl, fun _ _ => rfl⟩

theorem parallelRuns_iff {k : ℕ} {P : Branches → Prop} (hle : u ≤ v) (hlca : lca s u v = .ok ((x : ℕ) : ℤ)) :
    ParallelRuns k s u v P ↔ AllRuns (branchesBody k s x) P (.par (.call (.inl .test)) (.call (.inr .test)))
      ⟨⟨u, 0, []⟩, ⟨v, 0, []⟩⟩ := by
  have hnle : ¬ ((u : ℕ) : ℤ) > (v : ℕ) := by
    have : (u : ℕ) ≤ v := hle
    omega
  simp only [ParallelRuns, if_neg hnle, hlca, Except.ok.injEq, exists_eq_left']

/-- when each branch has one result in all its runs, they agree with `query_path` if the sum is its result -/
theorem parallelAgrees_iff_sum (hn : s.n = n) (hle : u ≤ v) (hlca : lca s u v = .ok ((x : ℕ) : ℤ)) {l r q : ℤ}
    (hq : Returns (fun k => queryPath k s u v) q)
    (hleft : ∃ N, ∀ k, N ≤ k → AllRuns (leftBody k s x) (fun b => b.res = l ∧ InRange n b.asked) (.call .test) ⟨u, 0, []⟩)
    (hright : ∃ N, ∀ k, N ≤ k →
      AllRuns (rightBody k s x) (fun b => b.res = r ∧ InRange n b.asked) (.call .test) ⟨v, 0, []⟩) :
    ParallelAgrees s u v ↔ l + r = q := by
  obtain ⟨N₁, hN₁⟩ := hleft
  obtain ⟨N₂, hN₂⟩ := hright
  have hall : ∀ k, max N₁ N₂ ≤ k → AllRuns (branchesBody k s x)
      (fun b => (b.left.res = l ∧ InRange n b.left.asked) ∧ b.right.res = r ∧ InRange n b.right.asked)
      (.par (.call (.inl .test)) (.call (.inr .test))) ⟨⟨u, 0, []⟩, ⟨v, 0, []⟩⟩ := fun k hk =>
    allRuns_par_embeds (embeds_left k s x) (embeds_right k s x) (fun _ _ => rfl) (fun _ _ => rfl)
      (hN₁ k (by omega)) (hN₂ k (by omega)) rfl rfl
  refine ⟨?_, ?_⟩
  · intro hcase
    obtain ⟨q', hq', N, hN⟩ := hcase
    have h₁ := (parallelRuns_iff hle hlca).1 (hN (max N (max N₁ N₂)) (le_max_left _ _))
    obtain ⟨b, ⟨hb, -⟩, ⟨hl, -⟩, hr, -⟩ := h₁.exists_final (hall _ (le_max_right _ _))
    rw [← hl, ← hr, hq.unique hq']
    exact hb
  · intro he
    refine ⟨q, hq, max N₁ N₂, fun k hk => (parallelRuns_iff hle hlca).2 ((hall k hk).mono fun b hb => ⟨?_, ?_, ?_⟩)⟩
    · rw [Branches.result, hb.1.1, hb.2.1, he]
    · exact hn ▸ hb.1.2
    · exact hn ▸ hb.2.2

/-- **`query_path_parallel`** from `u` to `v` in the order of their numbers, with the pivot `x`. -/
theorem parallelAgrees_ordered (h : Ready A cur s) (hvals : ∀ w : Fin n, s.values w = cur w) (hle : u ≤ v)
    (hx : x = A.rooted.pivot s.logN u v) :
    ParallelAgrees s u v ↔ FromHeavy A x v ∨ ∃ w, A.rooted.pos w = A.rooted.pos x + 1 ∧ cur x + cur w = 0 := by
  have hq := queryPath_spec h u v
  rw [hvals, sub_self, add_zero] at hq
  have hlca := lca_spec h.rows u v
  rw [← hx] at hlca
  have hcard := h.rows.card_lt
  have hhead : A.rooted.head (A.rooted.lca u v) = A.rooted.head x := hx ▸ (head_pivot hcard u v).symm
  have hw := A.rooted.isLca_lca u v
  have hsum := sum_path_split cur (hx ▸ pivot_mem_path hcard u v : x ∈ A.rooted.path u v)
  rw [A.rooted.path_comm x v] at hsum
  have hleft := left_runs h hhead hw.left
  by_cases hc : FromHeavy A x v
  · rw [parallelAgrees_iff_sum h.n_eq hle hlca hq hleft (right_runs_below h hhead hw.right hc)]
    exact iff_of_true (by linarith) (Or.inl hc)
  have hxn := pos_lt_n A x
  by_cases hlast : A.rooted.pos x + 1 = n
  · -- no run gets past the last query of the right branch
    apply iff_of_false
    · intro hcase
      obtain ⟨r, -, N, hN⟩ := hcase
      obtain ⟨M, hM⟩ := right_never_ends h hhead hw.right hlast
      have hrun := (parallelRuns_iff hle hlca).1 (hN (max N M) (le_max_left _ _))
      exact hM (max N M) (le_max_right _ _) _ (hrun.of_par_right (u := .call .test) (embeds_right _ s x))
    · intro hcase
      rcases hcase with hc' | ⟨w, hw, -⟩
      · exact hc hc'
      · have := pos_lt_n A w
        omega
  · obtain ⟨w, hw'⟩ := exists_pos (i := A.rooted.pos x + 1) (by rw [Fintype.card_fin]; omega) A.rooted
    rw [parallelAgrees_iff_sum h.n_eq hle hlca hq hleft (right_runs_above h hhead hw.right hc hw')]
    refine ⟨?_, ?_⟩
    · intro he
      exact Or.inr ⟨w, hw', by linarith⟩
    · intro hcase
      rcases hcase with hc' | ⟨w', hw'', he⟩
      · exact absurd hc' hc
      · rw [A.rooted.pos_injective (hw''.trans hw'.symm)] at he
        linarith

/-- for nodes in any order, with the larger number for the right branch -/
theorem parallelAgrees_iff (h : Ready A cur s) (hvals : ∀ w : Fin n, s.values w = cur w) (u v : Fin n)
    (hx : x = A.rooted.pivot s.logN u v) :
    ParallelAgrees s u v ↔
      FromHeavy A x (max u v) ∨ ∃ w, A.rooted.pos w = A.rooted.pos x + 1 ∧ cur x + cur w = 0 := by
  rcases le_or_gt u v with hle | hlt
  · rw [max_eq_right hle]
    exact parallelAgrees_ordered h hvals hle hx
  · rw [max_eq_left hlt.le, ← parallelAgrees_ordered h hvals hlt.le (hx.trans (pivot_comm u v))]
    have h1 : ((u : ℕ) : ℤ) > (v : ℕ) := by
      have : (v : ℕ) < u := hlt
      omega
    have h2 : ¬ ((v : ℕ) : ℤ) > (u : ℕ) := by omega
    simp only [ParallelAgrees, ParallelRuns, queryPath, if_pos h1, if_neg h2]

/-- **When `query_path_parallel` agrees with `query_path`** after preprocessing, in every interleaving of its branches.
With `x` the pivot: when the node with the larger number is below the heavy child of `x`, or there is a node on the position
after `x` and the values of the two add up to zero. -/
theorem query_path_parallel_iff (A : AdjTree n) (vals : ℤ → ℤ) (mem : Hld) (h : (A.load vals mem).RootZero)
    (u v x : Fin n) (hx : x = A.rooted.pivot (Nat.log 2 n) u v) :
    ∃ s, Returns (fun k => preprocess k n (A.load vals mem)) s ∧
      (ParallelAgrees s u v ↔
        FromHeavy A x (max u v) ∨ ∃ w, A.rooted.pos w = A.rooted.pos x + 1 ∧ vals (x : ℕ) + vals (w : ℕ) = 0) := by
  obtain ⟨s, hs, hr, hv⟩ := preprocess_ready h
  rw [← hr.logN_eq] at hx
  exact ⟨s, hs, parallelAgrees_iff hr (fun w => by rw [hv]) u v hx⟩

/-- node 0 with the children 1 and 2 -/
def cherryTree : ParentTree (Fin 3) := ParentTree.numbered ![0, 0, 0] (by decide) (by decide)

def cherry : AdjTree 3 := AdjTree.ofParentTree cherryTree

theorem rooted_cherry : cherry.rooted = cherryTree := AdjTree.rooted_ofParentTree cherryTree rfl

/-- from 0 to its heavy child 1 -/
theorem query_path_parallel_iff_cherry :
    ∃ s, Returns (fun k => preprocess k 3 (cherry.load (fun _ => 1) AdjTree.zeroMemory)) s ∧
      ParallelAgrees s (0 : Fin 3) (1 : Fin 3) := by
  have hx : 0 = cherry.rooted.pivot (Nat.log 2 3) 0 1 := by
    rw [rooted_cherry]
    decide +kernel
  obtain ⟨s, hs, hiff⟩ :=
    query_path_parallel_iff cherry _ _ (cherry.rootZero_zeroMemory fun _ => 1) 0 1 0 hx
  refine ⟨s, hs, hiff.2 (Or.inl ⟨1, ?_⟩)⟩
  rw [rooted_cherry]
  decide +kernel

/-- **The empty range** on node 0 with the children 1 and 2, all of value 1: from 0 to the light child 2 the right branch
ends on the lowest common ancestor, and no run agrees with `query_path`. -/
theorem cherry_disagrees :
    ∃ s, Returns (fun k => preprocess k 3 (cherry.load (fun _ => 1) AdjTree.zeroMemory)) s ∧
      ¬ ParallelAgrees s (0 : Fin 3) (2 : Fin 3) := by
  obtain ⟨s, hs, hr, hv⟩ := preprocess_ready (cherry.rootZero_zeroMemory fun _ => 1)
  have hx : 0 = cherry.rooted.pivot s.logN 0 2 := by
    rw [rooted_cherry, hr.logN_eq]
    decide +kernel
  refine ⟨s, hs, fun hagree => ?_⟩
  rcases (parallelAgrees_iff hr (fun w => by rw [hv]) 0 2 hx).1 hagree with hc | ⟨w, -, hw⟩
  · rw [FromHeavy, rooted_cherry] at hc
    revert hc
    decide +kernel
  · norm_num at hw

end Hld

end HeavyLight
