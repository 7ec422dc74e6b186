/-
The path queries after preprocessing and any run of updates.

- `query_chain`: a segment-tree query between two nodes of one chain is the sum over the tree path between them.
  `AnswersChains A cur ask`: `ask` does the same.
- `queryPathOldWith`, `queryPathWith`: the two queries with a parameter `ask` for `st->query`.
- `oldLoop_spec`: the loop of `query_path_old`; `res` plus the sum over the rest of the path is constant.
- `climbLoop_spec`: a climbing loop of `query_path` ends where the path reaches the chain of `lca_uv`.
- `queryPathOld_spec`, `queryPath_spec`: the results. `query_path` subtracts `values[lca_uv]`, which no update writes.
- `query_path_old_sum`: `query_path_old` is the sum of the current values, after any run of updates.
- `query_path_sum`: `query_path` is that sum in the state `preprocess` leaves.
- `query_path_updated_iff`: after updates it is that sum exactly when the pivot of the path has its original value.
-/
import HeavyLight.Lca

namespace HeavyLight

open ParentTree

namespace Hld

variable {n : ℕ} {A : AdjTree n} {s : Hld} {u v w x y : Fin n} {vals : ℤ → ℤ} {mem : Hld} {cur : Fin n → ℤ}

/-! ## Chains -/

/-- **A query on one chain**, in either order of the bounds. -/
theorem query_chain (h : Ready A cur s) (hh : A.rooted.head u = A.rooted.head v) :
    Returns (fun k => s.st.query k (A.rooted.pos u) (A.rooted.pos v)) (∑ i ∈ A.rooted.path u v, cur i) := by
  obtain ⟨a, hrep, ha⟩ := h.sums
  rw [sum_path_chain cur a ha hh]
  exact SegmentTree.query_represents hrep (Int.natCast_nonneg _) (pos_lt_n A u) (Int.natCast_nonneg _) (pos_lt_n A v)

/-- a query function that answers every query on one chain with the sum over the tree path -/
def AnswersChains (A : AdjTree n) (cur : Fin n → ℤ) (ask : ℕ → ℤ → ℤ → Exec ℤ) : Prop :=
  ∀ u v : Fin n, A.rooted.head u = A.rooted.head v →
    Returns (fun k => ask k (A.rooted.pos u) (A.rooted.pos v)) (∑ i ∈ A.rooted.path u v, cur i)

theorem Ready.answersChains (h : Ready A cur s) : AnswersChains A cur fun k => s.st.query k :=
  fun _ _ hh => query_chain h hh

/-- the query of the chain from its head down to `u` -/
theorem AnswersChains.head {ask : ℕ → ℤ → ℤ → Exec ℤ} (h : AnswersChains A cur ask) (u : Fin n) :
    Returns (fun k => ask k (A.rooted.pos (A.rooted.head u)) (A.rooted.pos u))
      (∑ i ∈ A.rooted.seg (A.rooted.head u) u, cur i) := by
  rw [← path_of_anc (A.rooted.head_anc u)]
  exact h _ _ (A.rooted.head_head u)

theorem AnswersChains.head' {ask : ℕ → ℤ → ℤ → Exec ℤ} (h : AnswersChains A cur ask) (u : Fin n) :
    Returns (fun k => ask k (A.rooted.pos u) (A.rooted.pos (A.rooted.head u)))
      (∑ i ∈ A.rooted.seg (A.rooted.head u) u, cur i) := by
  rw [← path_of_anc (A.rooted.head_anc u), path_comm]
  exact h _ _ (A.rooted.head_head u).symm

theorem Laid.readKth_parent (h : Laid A s) (hv : v ≠ A.root) :
    readKth s v 0 = .ok ((A.rooted.parent v : ℕ) : ℤ) := by
  have hread : readKth s v 0 = .ok (s.kth v 0) := readKth_node h.n_eq v (i := 0) (h.logN_pos (one_lt_of_ne hv))
  rw [hread, h.kth_parent hv]

theorem Ready.readKth_parent (h : Ready A cur s) (hv : v ≠ A.root) :
    readKth s v 0 = .ok ((A.rooted.parent v : ℕ) : ℤ) := h.laid.readKth_parent hv

theorem Laid.depth_lt (h : Laid A s) (u v : Fin n) : s.depth u < s.depth v ↔ A.rooted.depth u < A.rooted.depth v := by
  rw [(h.finished u).depth, (h.finished v).depth]
  omega

/-! ## Loops with any query function -/

/-- the loop of `query_path_old` with `ask` for `st->query` -/
def oldLoopWith (s : Hld) (ask : ℕ → ℤ → ℤ → Exec ℤ) : ℕ → ℤ → ℤ → ℤ → Exec (ℤ × ℤ × ℤ)
  | 0, _, _, _ => .error .outOfFuel
  | k + 1, u, v, res => do
    let hu ← readCell s.n s.head u
    let hv ← readCell s.n s.head v
    if hu ≠ hv then
      let du ← readCell s.n s.depth hu
      let dv ← readCell s.n s.depth hv
      let (u, v) := if du < dv then (v, u) else (u, v)
      let h ← readCell s.n s.head u
      let ph ← readCell s.n s.pos h
      let pu ← readCell s.n s.pos u
      let q ← ask k ph pu
      let p ← readKth s h 0
      oldLoopWith s ask k p v (res + q)
    else return (u, v, res)

/-- `query_path_old` with `ask` for `st->query` -/
def queryPathOldWith (ask : ℕ → ℤ → ℤ → Exec ℤ) (k : ℕ) (s : Hld) (u v : ℤ) : Exec ℤ := do
  let (u, v, res) ← oldLoopWith s ask k u v 0
  let du ← readCell s.n s.depth u
  let dv ← readCell s.n s.depth v
  let (u, v) := if du > dv then (v, u) else (u, v)
  let pu ← readCell s.n s.pos u
  let pv ← readCell s.n s.pos v
  let q ← ask k pu pv
  return res + q

/-- `query_path` with `ask` for `st->query` -/
def queryPathWith (ask : ℕ → ℤ → ℤ → Exec ℤ) (k : ℕ) (s : Hld) (u v : ℤ) : Exec ℤ := do
  let (u, v) := if u > v then (v, u) else (u, v)
  let lcaUv ← lca s u v
  let (u, res) ← climbLoop s (fun k pu ph => ask k pu ph) lcaUv k u 0
  let pu ← readCell s.n s.pos u
  let pl ← readCell s.n s.pos lcaUv
  let q ← ask k pu pl
  let res := res + q
  let (v, res) ← climbLoop s (fun k pv ph => ask k ph pv) lcaUv k v res
  let pv ← readCell s.n s.pos v
  let q ← ask k pv pl
  let x ← readCell s.n s.values lcaUv
  return res + (q - x)

theorem oldLoop_eq (s : Hld) (k : ℕ) :
    ∀ u v res : ℤ, oldLoop s k u v res = oldLoopWith s (fun k => s.st.query k) k u v res := by
  induction k with
  | zero =>
    intro u v res
    rfl
  | succ k ih =>
    intro u v res
    simp only [oldLoop, oldLoopWith, ih]

theorem queryPathOld_eq (k : ℕ) (s : Hld) (u v : ℤ) :
    queryPathOld k s u v = queryPathOldWith (fun k => s.st.query k) k s u v := by
  unfold queryPathOld queryPathOldWith
  rw [oldLoop_eq]

theorem queryPath_eq (k : ℕ) (s : Hld) (u v : ℤ) :
    queryPath k s u v = queryPathWith (fun k => s.st.query k) k s u v := rfl

/-! ## The old query -/

/-- **One iteration** of the loop of `query_path_old`: `a`, the node whose chain starts lower, goes above its chain. -/
theorem oldLoop_step (h : Laid A s) (ask : ℕ → ℤ → ℤ → Exec ℤ) {a b : Fin n}
    (hne : A.rooted.head a ≠ A.rooted.head b)
    (hd : A.rooted.depth (A.rooted.head b) ≤ A.rooted.depth (A.rooted.head a))
    (huv : (u = a ∧ v = b) ∨ (u = b ∧ v = a ∧ A.rooted.depth (A.rooted.head b) < A.rooted.depth (A.rooted.head a)))
    (k : ℕ) (res : ℤ) :
    oldLoopWith s ask (k + 1) u v res = (do
      let q ← ask k (A.rooted.pos (A.rooted.head a)) (A.rooted.pos a)
      oldLoopWith s ask k (A.rooted.parent (A.rooted.head a) : ℕ) b (res + q)) := by
  have hroot : A.rooted.head a ≠ A.root := fun he => hne (head_eq_of_anc (he ▸ Anc.root A.rooted b) hd)
  have hpick : (if s.depth (A.rooted.head u : ℕ) < s.depth (A.rooted.head v : ℕ) then (((v : ℕ) : ℤ), ((u : ℕ) : ℤ))
      else (((u : ℕ) : ℤ), ((v : ℕ) : ℤ))) = (((a : ℕ) : ℤ), ((b : ℕ) : ℤ)) := by
    rw [if_congr (h.depth_lt _ _) rfl rfl]
    rcases huv with ⟨rfl, rfl⟩ | ⟨rfl, rfl, hlt⟩
    · rw [if_neg (by omega)]
    · rw [if_pos (by omega)]
  have hheads : A.rooted.head u ≠ A.rooted.head v := by
    rcases huv with ⟨rfl, rfl⟩ | ⟨rfl, rfl, -⟩
    · exact hne
    · exact hne.symm
  rw [oldLoopWith, readCell_node h.n_eq u, ok_bind, readCell_node h.n_eq v, ok_bind, (h.placed u).head,
    (h.placed v).head, if_pos (node_ne hheads), readCell_node h.n_eq (A.rooted.head u), ok_bind,
    readCell_node h.n_eq (A.rooted.head v), ok_bind, hpick]
  simp only [readCell_node h.n_eq, ok_bind, (h.placed _).head, (h.placed _).pos, h.readKth_parent hroot]

/-- on one chain the loop ends -/
theorem oldLoop_stop (h : Laid A s) (ask : ℕ → ℤ → ℤ → Exec ℤ) (hheads : A.rooted.head u = A.rooted.head v) (k : ℕ)
    (res : ℤ) : oldLoopWith s ask (k + 1) u v res = .ok (((u : ℕ) : ℤ), ((v : ℕ) : ℤ), res) := by
  rw [oldLoopWith, readCell_node h.n_eq u, ok_bind, readCell_node h.n_eq v, ok_bind, (h.placed u).head,
    (h.placed v).head, hheads, if_neg (fun hne => hne rfl)]
  rfl

/-- the node `a` that climbs in the next iteration, and the other node `b` -/
theorem exists_climber (T : ParentTree (Fin n)) (hheads : T.head u ≠ T.head v) :
    ∃ a b, T.head a ≠ T.head b ∧ T.depth (T.head b) ≤ T.depth (T.head a) ∧
      ((u = a ∧ v = b) ∨ (u = b ∧ v = a ∧ T.depth (T.head b) < T.depth (T.head a))) := by
  by_cases hlt : T.depth (T.head u) < T.depth (T.head v)
  · exact ⟨v, u, hheads.symm, hlt.le, Or.inr ⟨rfl, rfl, hlt⟩⟩
  · exact ⟨u, v, hheads, not_lt.1 hlt, Or.inl ⟨rfl, rfl⟩⟩

/-- **The loop** of `query_path_old` ends with both nodes on one chain, and `res` and the sum over the rest of the path
add up to the same as before. -/
theorem oldLoop_spec (h : Laid A s) {ask : ℕ → ℤ → ℤ → Exec ℤ} (hask : AnswersChains A cur ask) (u v : Fin n)
    (res : ℤ) : ∃ (u' v' : Fin n) (res' : ℤ),
      Returns (fun k => oldLoopWith s ask k u v res) (((u' : ℕ) : ℤ), ((v' : ℕ) : ℤ), res') ∧
      A.rooted.head u' = A.rooted.head v' ∧
      res' + ∑ i ∈ A.rooted.path u' v', cur i = res + ∑ i ∈ A.rooted.path u v, cur i := by
  induction hm : A.rooted.depth u + A.rooted.depth v using Nat.strong_induction_on generalizing u v res with
  | _ m ih =>
    by_cases hheads : A.rooted.head u = A.rooted.head v
    · exact ⟨u, v, res, Returns.succ (Returns.of_forall fun k => oldLoop_stop h ask hheads k res), hheads, rfl⟩
    · obtain ⟨a, b, hne, hd, huv⟩ := exists_climber A.rooted hheads
      have hsum : ∑ i ∈ A.rooted.path u v, cur i = ∑ i ∈ A.rooted.path a b, cur i := by
        rcases huv with ⟨rfl, rfl⟩ | ⟨rfl, rfl, -⟩
        · rfl
        · rw [path_comm]
      have hm' : A.rooted.depth a + A.rooted.depth b = m := by
        rcases huv with ⟨rfl, rfl⟩ | ⟨rfl, rfl, -⟩ <;> omega
      -- the head of `a` is not above `b`, so the path goes through the parent of the head
      have hnot : ¬ A.rooted.Anc (A.rooted.head a) b := fun ha => hne (head_eq_of_anc ha hd)
      have hroot : A.rooted.head a ≠ A.rooted.root := fun he => hnot (he ▸ Anc.root _ b)
      have hsplit := sum_path_climb cur (A.rooted.head_anc a) hnot
      have hdepth := (A.rooted.head_anc a).depth_le
      have hdepth' := A.rooted.depth_parent _ hroot
      obtain ⟨u', v', res', hrun, hh, hres⟩ := ih _ (by omega) (A.rooted.parent (A.rooted.head a)) b
        (res + ∑ i ∈ A.rooted.seg (A.rooted.head a) a, cur i) rfl
      refine ⟨u', v', res', Returns.succ (Returns.congr ((hask.head a).bind hrun)
        fun k => oldLoop_step h ask hne hd huv k res), hh, ?_⟩
      rw [hres, hsum, hsplit]
      ring

/-- **`query_path_old`** is the sum over the path. -/
theorem queryPathOldWith_spec (h : Laid A s) {ask : ℕ → ℤ → ℤ → Exec ℤ} (hask : AnswersChains A cur ask) (u v : Fin n) :
    Returns (fun k => queryPathOldWith ask k s u v) (∑ i ∈ A.rooted.path u v, cur i) := by
  obtain ⟨u', v', res, hrun, hh, hres⟩ := oldLoop_spec h hask u v 0
  have hquery : Returns (fun k => if A.rooted.depth v' < A.rooted.depth u' then
      ask k (A.rooted.pos v') (A.rooted.pos u') else ask k (A.rooted.pos u') (A.rooted.pos v'))
      (∑ i ∈ A.rooted.path u' v', cur i) := by
    split_ifs
    · rw [path_comm]
      exact hask _ _ hh.symm
    · exact hask _ _ hh
  rw [zero_add] at hres
  rw [← hres]
  refine hrun.bind (Returns.congr (hquery.map (g := fun q => res + q)) fun k => ?_)
  simp only [readCell_node h.n_eq, ok_bind, gt_iff_lt, h.depth_lt]
  split_ifs <;> simp only [readCell_node h.n_eq, ok_bind, (h.placed _).pos]

theorem queryPathOld_spec (h : Ready A cur s) (u v : Fin n) :
    Returns (fun k => queryPathOld k s u v) (∑ i ∈ A.rooted.path u v, cur i) :=
  (queryPathOldWith_spec h.laid h.answersChains u v).congr fun k => queryPathOld_eq k s u v

/-! ## The climbing loops -/

/-- **One iteration** of a climbing loop. -/
theorem climbLoop_step (h : Laid A s) (ask : ℕ → ℤ → ℤ → Exec ℤ) (hne : A.rooted.head u ≠ A.rooted.head x)
    (hroot : A.rooted.head u ≠ A.root) (k : ℕ) (res : ℤ) :
    climbLoop s ask x (k + 1) u res = (do
      let q ← ask k (A.rooted.pos u) (A.rooted.pos (A.rooted.head u))
      climbLoop s ask x k (A.rooted.parent (A.rooted.head u) : ℕ) (res + q)) := by
  rw [climbLoop, readCell_node h.n_eq u, ok_bind, readCell_node h.n_eq x, ok_bind, (h.placed u).head,
    (h.placed x).head, if_pos (node_ne hne)]
  simp only [readCell_node h.n_eq, ok_bind, (h.placed _).pos, h.readKth_parent hroot]

/-- on the chain of `x` the loop ends -/
theorem climbLoop_stop (h : Laid A s) (ask : ℕ → ℤ → ℤ → Exec ℤ) (hheads : A.rooted.head u = A.rooted.head x) (k : ℕ)
    (res : ℤ) : climbLoop s ask x (k + 1) u res = .ok (((u : ℕ) : ℤ), res) := by
  rw [climbLoop, readCell_node h.n_eq u, ok_bind, readCell_node h.n_eq x, ok_bind, (h.placed u).head,
    (h.placed x).head, hheads, if_neg (fun hne => hne rfl)]
  rfl

/-- **A climbing loop** ends where the way up from `u` reaches the chain of `x`, and adds everything below that chain. -/
theorem climbLoop_spec (h : Laid A s) (ask : ℕ → ℤ → ℤ → Exec ℤ)
    (hask : ∀ u, Returns (fun k => ask k (A.rooted.pos u) (A.rooted.pos (A.rooted.head u)))
      (∑ i ∈ A.rooted.seg (A.rooted.head u) u, cur i))
    {z : Fin n} (hz : A.rooted.head z = A.rooted.head x) (u : Fin n) (hzu : A.rooted.Anc z u) (res : ℤ) :
    ∃ (y : Fin n) (res' : ℤ), Returns (fun k => climbLoop s ask x k u res) (((y : ℕ) : ℤ), res') ∧
      A.rooted.IsLanding y u x ∧ res' + cur y = res + ∑ i ∈ A.rooted.seg y u, cur i := by
  induction hm : A.rooted.depth u using Nat.strong_induction_on generalizing u res with
  | _ m ih =>
    by_cases hheads : A.rooted.head u = A.rooted.head x
    · refine ⟨u, res, Returns.succ (Returns.of_forall fun k => climbLoop_stop h ask hheads k res),
        IsLanding.self hheads, ?_⟩
      rw [seg_self, Finset.sum_singleton]
    · -- the node `z` on the chain of `x` is above the chain of `u`
      obtain ⟨hroot, hzp⟩ := anc_above_head hz hzu hheads
      have hdepth := (A.rooted.head_anc u).depth_le
      have hdepth' := A.rooted.depth_parent _ hroot
      obtain ⟨y, res', hrun, hland, hres⟩ := ih _ (by omega) (A.rooted.parent (A.rooted.head u)) hzp
        (res + ∑ i ∈ A.rooted.seg (A.rooted.head u) u, cur i) rfl
      refine ⟨y, res', Returns.succ (Returns.congr ((hask u).bind hrun)
        fun k => climbLoop_step h ask hheads hroot k res), hland.climb hheads, ?_⟩
      rw [hres, sum_seg_parent cur hroot hland.anc (A.rooted.head_anc u)]
      ring

/-! ## The query -/

/-- **`query_path`** from `u` to `v` in the order of their numbers, with the pivot `x`: the sum over the path, with the
current value of `x` in place of `values[x]`. -/
theorem queryPath_ordered (h : Laid A s) {ask : ℕ → ℤ → ℤ → Exec ℤ} (hask : AnswersChains A cur ask) (hle : u ≤ v) :
    Returns (fun k => queryPathWith ask k s u v) (∑ i ∈ A.rooted.path u v, cur i +
      (cur (A.rooted.pivot s.logN u v) - s.values (A.rooted.pivot s.logN u v : ℕ))) := by
  obtain ⟨x, hx⟩ : ∃ x, x = A.rooted.pivot s.logN u v := ⟨_, rfl⟩
  have hmem : x ∈ A.rooted.path u v := hx ▸ pivot_mem_path h.card_lt u v
  have hhead : A.rooted.head (A.rooted.lca u v) = A.rooted.head x := hx ▸ (head_pivot h.card_lt u v).symm
  have hw := A.rooted.isLca_lca u v
  obtain ⟨y, r₁, hrun₁, hland₁, hr₁⟩ := climbLoop_spec h (fun k pu ph => ask k pu ph) hask.head' hhead u hw.left 0
  obtain ⟨z, r₂, hrun₂, hland₂, hr₂⟩ := climbLoop_spec h (fun k pv ph => ask k ph pv) hask.head hhead v hw.right
    (r₁ + ∑ i ∈ A.rooted.path y x, cur i)
  have hq₁ := hask _ _ hland₁.head
  have hq₂ := hask _ _ hland₂.head
  -- the two sides share the pivot
  have hsum : r₂ + (∑ i ∈ A.rooted.path z x, cur i - s.values (x : ℕ)) =
      ∑ i ∈ A.rooted.path u v, cur i + (cur x - s.values (x : ℕ)) := by
    have h1 := sum_landing cur hland₁
    have h2 := sum_landing cur hland₂
    have h3 := sum_path_split cur hmem
    rw [A.rooted.path_comm x v] at h3
    linarith
  rw [← hx, ← hsum]
  have hnle : ¬ ((u : ℕ) : ℤ) > (v : ℕ) := by
    have : (u : ℕ) ≤ v := hle
    omega
  have hstart : ∀ k, queryPathWith ask k s u v = (do
      let r ← climbLoop s (fun k pu ph => ask k pu ph) x k u 0
      let pu ← readCell s.n s.pos r.1
      let q ← ask k pu (A.rooted.pos x)
      let r ← climbLoop s (fun k pv ph => ask k ph pv) x k v (r.2 + q)
      let pv ← readCell s.n s.pos r.1
      let q ← ask k pv (A.rooted.pos x)
      return r.2 + (q - s.values (x : ℕ))) := by
    intro k
    unfold queryPathWith
    rw [if_neg hnle]
    simp only [h.lca_eq, ← hx, readCell_node h.n_eq, ok_bind, (h.placed _).pos]
  refine Returns.congr (hrun₁.bind ?_) hstart
  simp only [readCell_node h.n_eq, ok_bind, (h.placed _).pos]
  refine hq₁.bind (hrun₂.bind ?_)
  simp only [readCell_node h.n_eq, ok_bind, (h.placed _).pos]
  exact hq₂.map (g := fun q => r₂ + (q - s.values (x : ℕ)))

/-- `query_path` first orders its nodes -/
theorem queryPathWith_swap (ask : ℕ → ℤ → ℤ → Exec ℤ) (k : ℕ) (hlt : v < u) :
    queryPathWith ask k s u v = queryPathWith ask k s v u := by
  have h1 : ((u : ℕ) : ℤ) > (v : ℕ) := by
    have : (v : ℕ) < u := hlt
    omega
  rw [queryPathWith, queryPathWith, if_pos h1, if_neg (by omega)]

/-- **`query_path`** for nodes in any order. -/
theorem queryPathWith_spec (h : Laid A s) {ask : ℕ → ℤ → ℤ → Exec ℤ} (hask : AnswersChains A cur ask) (u v : Fin n) :
    Returns (fun k => queryPathWith ask k s u v) (∑ i ∈ A.rooted.path u v, cur i +
      (cur (A.rooted.pivot s.logN u v) - s.values (A.rooted.pivot s.logN u v : ℕ))) := by
  rcases le_or_gt u v with hle | hlt
  · exact queryPath_ordered h hask hle
  · rw [path_comm, pivot_comm]
    exact (queryPath_ordered h hask hlt.le).congr fun k => queryPathWith_swap ask k hlt

theorem queryPath_spec (h : Ready A cur s) (u v : Fin n) :
    Returns (fun k => queryPath k s u v) (∑ i ∈ A.rooted.path u v, cur i +
      (cur (A.rooted.pivot s.logN u v) - s.values (A.rooted.pivot s.logN u v : ℕ))) :=
  (queryPathWith_spec h.laid h.answersChains u v).congr fun k => queryPath_eq k s u v

/-! ## Runs of the program -/

/-- **`query_path_old` after any run of updates** terminates and returns the sum of the current values along the path. -/
theorem query_path_old_sum (A : AdjTree n) (vals : ℤ → ℤ) (mem : Hld) (h : (A.load vals mem).RootZero)
    (ups : List (Fin n × ℤ)) {u v : Fin n} {p : A.graph.Walk u v} (hp : p.IsPath) :
    Returns (fun k => do
      let s ← run k A vals mem ups
      queryPathOld k s u v) (p.support.map (current (fun w => vals w) ups)).sum := by
  obtain ⟨s, hs, hr, -⟩ := run_ready h ups
  rw [A.sum_support _ hp]
  exact hs.bind (queryPathOld_spec hr u v)

/-- on the long path with the numbers of the nodes as values, 5 to 6 after `update_node(3, 10)` -/
theorem query_path_old_sum_longPath :
    Returns (fun k => do
      let s ← run k longPath (fun i => i) AdjTree.zeroMemory [(3, 10)]
      queryPathOld k s (5 : Fin 7) (6 : Fin 7)) 28 := by
  obtain ⟨p, hp, -⟩ := longPath.isTree.existsUnique_path 5 6
  have h := query_path_old_sum longPath _ _ (longPath.rootZero_zeroMemory fun i => i) [(3, 10)] hp
  have hsum : ∑ i ∈ longPathTree.path 5 6, current (fun w : Fin 7 => ((w : ℕ) : ℤ)) [(3, 10)] i = 28 := by decide +kernel
  rw [longPath.sum_support _ hp, rooted_longPath, hsum] at h
  exact h

/-- **`query_path` after preprocessing** terminates and returns the sum of the values along the path, each node counted
once, for every tree and any depths. -/
theorem query_path_sum (A : AdjTree n) (vals : ℤ → ℤ) (mem : Hld) (h : (A.load vals mem).RootZero) {u v : Fin n}
    {p : A.graph.Walk u v} (hp : p.IsPath) :
    Returns (fun k => do
      let s ← preprocess k n (A.load vals mem)
      queryPath k s u v) (p.support.map fun w : Fin n => vals w).sum := by
  obtain ⟨s, hs, hr, hv⟩ := preprocess_ready h
  have hq := queryPath_spec hr u v
  rw [hv, sub_self, add_zero] at hq
  rw [A.sum_support _ hp]
  exact hs.bind hq

/-- on the long path, where `lca(5, 6)` overshoots, 5 to 6 -/
theorem query_path_sum_longPath :
    Returns (fun k => do
      let s ← preprocess k 7 (longPath.load (fun i => i) AdjTree.zeroMemory)
      queryPath k s (5 : Fin 7) (6 : Fin 7)) 21 := by
  obtain ⟨p, hp, -⟩ := longPath.isTree.existsUnique_path 5 6
  have h := query_path_sum longPath _ _ (longPath.rootZero_zeroMemory fun i => i) hp
  have hsum : ∑ i ∈ longPathTree.path 5 6, ((i : ℕ) : ℤ) = 21 := by decide +kernel
  rw [longPath.sum_support _ hp, rooted_longPath, hsum] at h
  exact h

/-- `query_path` after a run of updates -/
theorem run_queryPath (h : (A.load vals mem).RootZero) (ups : List (Fin n × ℤ)) (u v : Fin n) :
    Returns (fun k => do
      let s ← run k A vals mem ups
      queryPath k s u v) (∑ i ∈ A.rooted.path u v, current (fun w => vals w) ups i +
        (current (fun w => vals w) ups (A.rooted.pivot (Nat.log 2 n) u v) -
          vals (A.rooted.pivot (Nat.log 2 n) u v : ℕ))) := by
  obtain ⟨s, hs, hr, hv⟩ := run_ready h ups
  have hq := queryPath_spec hr u v
  rw [hv, hr.logN_eq] at hq
  exact hs.bind hq

/-- **When `query_path` is right after updates.** After any run of updates it returns the sum of the current values along
the path, and so the result of `query_path_old`, exactly when the pivot of the path has its original value. -/
theorem query_path_updated_iff (A : AdjTree n) (vals : ℤ → ℤ) (mem : Hld) (h : (A.load vals mem).RootZero)
    (ups : List (Fin n × ℤ)) {u v : Fin n} {p : A.graph.Walk u v} (hp : p.IsPath) :
    (Returns (fun k => do
        let s ← run k A vals mem ups
        queryPath k s u v) (p.support.map (current (fun w => vals w) ups)).sum ∧
      ∃ q, Returns (fun k => do
          let s ← run k A vals mem ups
          queryPath k s u v) q ∧
        Returns (fun k => do
          let s ← run k A vals mem ups
          queryPathOld k s u v) q) ↔
    current (fun w => vals w) ups (A.rooted.pivot (Nat.log 2 n) u v) = vals (A.rooted.pivot (Nat.log 2 n) u v : ℕ) := by
  have hnew := run_queryPath h ups u v
  obtain ⟨s, hs, hr, -⟩ := run_ready h ups
  have hold : Returns (fun k => do
      let s ← run k A vals mem ups
      queryPathOld k s u v) (∑ i ∈ A.rooted.path u v, current (fun w => vals w) ups i) :=
    hs.bind (queryPathOld_spec hr u v)
  rw [A.sum_support _ hp]
  refine ⟨?_, ?_⟩
  · intro hcase
    obtain ⟨hq, -⟩ := hcase
    have := hnew.unique hq
    linarith
  · intro he
    rw [he, sub_self, add_zero] at hnew
    exact ⟨hnew, _, hnew, hold⟩

/-- on the long path, 5 to 6 after `update_node(3, 10)`, which leaves the pivot 1 alone -/
theorem query_path_updated_iff_longPath :
    (Returns (fun k => do
        let s ← run k longPath (fun i => i) AdjTree.zeroMemory [(3, 10)]
        queryPath k s (5 : Fin 7) (6 : Fin 7)) 28 ∧
      ∃ q, Returns (fun k => do
          let s ← run k longPath (fun i => i) AdjTree.zeroMemory [(3, 10)]
          queryPath k s (5 : Fin 7) (6 : Fin 7)) q ∧
        Returns (fun k => do
          let s ← run k longPath (fun i => i) AdjTree.zeroMemory [(3, 10)]
          queryPathOld k s (5 : Fin 7) (6 : Fin 7)) q) := by
  obtain ⟨p, hp, -⟩ := longPath.isTree.existsUnique_path 5 6
  have h := query_path_updated_iff longPath _ _ (longPath.rootZero_zeroMemory fun i => i) [(3, 10)] hp
  have hsum : ∑ i ∈ longPathTree.path 5 6, current (fun w : Fin 7 => ((w : ℕ) : ℤ)) [(3, 10)] i = 28 := by decide +kernel
  have hpivot : current (fun w : Fin 7 => ((w : ℕ) : ℤ)) [(3, 10)] (longPathTree.pivot (Nat.log 2 7) 5 6) =
      (longPathTree.pivot (Nat.log 2 7) 5 6 : ℕ) := by decide
  rw [longPath.sum_support _ hp, rooted_longPath, hsum] at h
  exact h.2 hpivot

/-- every query is right exactly when no node has a new value -/
theorem query_path_updated_all_iff (h : (A.load vals mem).RootZero) (ups : List (Fin n × ℤ)) :
    (∀ u v : Fin n, Returns (fun k => do
        let s ← run k A vals mem ups
        queryPath k s u v) (∑ i ∈ A.rooted.path u v, current (fun w => vals w) ups i)) ↔
      ∀ w : Fin n, current (fun w => vals w) ups w = vals w := by
  refine ⟨?_, ?_⟩
  · intro hall w
    have hself : A.rooted.pivot (Nat.log 2 n) w w = w := by
      have hiff := (pivot_eq_lca_iff (T := A.rooted) (L := Nat.log 2 n) w w).2 (Or.inr (Or.inl (Anc.refl _ w)))
      rw [hiff, lca_of_anc (Anc.refl _ w)]
    have hq := (run_queryPath h ups w w).unique (hall w w)
    rw [hself] at hq
    linarith
  · intro hsame u v
    have hq := run_queryPath h ups u v
    rwa [hsame, sub_self, add_zero] at hq

/-- two nodes and an edge -/
def edgeTree : ParentTree (Fin 2) := ParentTree.numbered ![0, 0] (by decide) (by decide)

def edge : AdjTree 2 := AdjTree.ofParentTree edgeTree

theorem rooted_edge : edge.rooted = edgeTree := AdjTree.rooted_ofParentTree edgeTree rfl

/-- **A stale value.** On two nodes of value 1, after `update_node(0, 5)` the path from 0 to 1 has the sum 6, and
`query_path(0, 1)` returns 10. -/
theorem query_path_stale :
    (∀ p : edge.graph.Walk 0 1, p.IsPath → (p.support.map (current (fun _ => 1) [(0, 5)])).sum = 6) ∧
      Returns (fun k => do
        let s ← run k edge (fun _ => 1) AdjTree.zeroMemory [(0, 5)]
        queryPath k s (0 : Fin 2) (1 : Fin 2)) 10 := by
  have hrun := run_queryPath (edge.rootZero_zeroMemory fun _ => 1) [(0, 5)] 0 1
  rw [rooted_edge] at hrun
  refine ⟨?_, ?_⟩
  · intro p hp
    rw [edge.sum_support _ hp, rooted_edge]
    decide +kernel
  · have hval : ∑ i ∈ edgeTree.path 0 1, current (fun _ : Fin 2 => (1 : ℤ)) [(0, 5)] i +
        (current (fun _ : Fin 2 => (1 : ℤ)) [(0, 5)] (edgeTree.pivot (Nat.log 2 2) 0 1) - 1) = 10 := by decide +kernel
    rw [hval] at hrun
    exact hrun

end Hld

end HeavyLight
