/-
The arrays that `dfs(0)` leaves, and the cells of `kth` it reads on the way, for memory in which the row of node 0 is zero
and the other contents are arbitrary.

- `dfs_arrays`: parents, depths, sizes and heavy children, in terms of distances and of the order of the lists.
- `DfsReads k v s t x i`: the call `dfs v` in state `s` reads the cell `kth[x][i]` in state `t`.
- `DfsReads.kth_up`: each such cell is in the table and holds the ancestor at distance `2 ^ i` when it is read.
- `kth_ancestors`: the rows that `dfs(0)` leaves, and every read of the call.
-/
import HeavyLight.Preprocess

namespace HeavyLight

open ParentTree

namespace Hld

variable {n : ℕ} {A : AdjTree n} {s s' t : Hld} {D : Set (Fin n)} {u v : Fin n} {vals : ℤ → ℤ} {mem : Hld}

/-! ## Final arrays -/

/-- `dfs 0` from a zero row of the root finishes every node and leaves that row -/
theorem dfs_finished (h : (A.load vals mem).ZeroRow) :
    ∃ s, Returns (fun k => dfs k 0 (A.load vals mem)) s ∧ s.logN = Nat.log 2 n ∧ s.ZeroRow ∧
      s.depth 0 = mem.depth 0 ∧ ∀ w, Finished A s w := by
  obtain ⟨s, hs, hf, hfin⟩ := dfs_root (entered_load (closed_root h) rfl) (root_not_nbr h)
  have hroot : ¬ (A.root ≠ A.root) := fun hne => hne rfl
  exact ⟨s, hs, hf.logN_eq, (hf.zeroRow hroot).2 h, hf.depth_zero hroot, hfin⟩

/-- the parent of `v`: the neighbour one step closer to node 0 -/
theorem parent_closer (hv : v ≠ A.root) :
    A.graph.Adj v (A.rooted.parent v) ∧ A.graph.dist A.root v = A.graph.dist A.root (A.rooted.parent v) + 1 := by
  refine ⟨?_, A.rooted.depth_parent v hv⟩
  rw [← A.graph_rooted, ParentTree.adj_iff_children]
  exact Or.inr ⟨hv, rfl⟩

/-- the heavy child is the first of the largest children -/
theorem Finished.heavy_first (h : Finished A s v) (hv : A.rooted.children v ≠ []) :
    ∃ (c : Fin n) (pre post : List (Fin n)), A.rooted.children v = pre ++ c :: post ∧ s.heavy v = (c : ℕ) ∧
      (∀ u ∈ pre, A.rooted.size u < A.rooted.size c) ∧ ∀ u ∈ post, A.rooted.size u ≤ A.rooted.size c := by
  cases hc : A.rooted.heavy v with
  | none => exact absurd (heavy_eq_none.1 hc) hv
  | some c =>
    obtain ⟨pre, post, hsplit, hpre, hpost⟩ := heavyOf_split hc
    exact ⟨c, pre, post, hsplit, by rw [h.heavy, hc, heavyId], hpre, hpost⟩

theorem Finished.heavy_none (h : Finished A s v) : s.heavy v = -1 ↔ A.rooted.children v = [] := by
  rw [h.heavy, ← heavy_eq_none]
  exact heavyId_injective.eq_iff (b := none)

/-- **The arrays of `dfs(0)`.** The cells of `depth` are exact integers: where `depth[0]` is within `n` of `INT_MAX`, the
source overflows. -/
theorem dfs_arrays (A : AdjTree n) (vals : ℤ → ℤ) (mem : Hld) (h : (A.load vals mem).ZeroRow) :
    ∃ s, Returns (fun k => dfs k 0 (A.load vals mem)) s ∧ ∀ v : Fin n,
      (v ≠ A.root → ∃ p : Fin n, s.kth v 0 = (p : ℕ) ∧ A.graph.Adj v p ∧
        A.graph.dist A.root v = A.graph.dist A.root p + 1) ∧
      s.depth v = s.depth 0 + A.graph.dist A.root v ∧ s.depth 0 = mem.depth 0 ∧
      s.sizes v = (A.rooted.sub v).card ∧
      (s.heavy v = -1 ↔ A.rooted.children v = []) ∧
      (A.rooted.children v ≠ [] → ∃ (c : Fin n) (pre post : List (Fin n)),
        A.rooted.children v = pre ++ c :: post ∧ s.heavy v = (c : ℕ) ∧
        (∀ u ∈ pre, (A.rooted.sub u).card < (A.rooted.sub c).card) ∧
        ∀ u ∈ post, (A.rooted.sub u).card ≤ (A.rooted.sub c).card) := by
  obtain ⟨s, hs, hlog, -, hdepth, hfin⟩ := dfs_finished h
  refine ⟨s, hs, fun v => ⟨?_, (hfin v).depth, hdepth, (hfin v).sizes, (hfin v).heavy_none, (hfin v).heavy_first⟩⟩
  intro hv
  have hcols : 1 < n → 0 < s.logN := fun hn => hlog.symm ▸ Nat.log_pos (by omega) hn
  exact ⟨A.rooted.parent v, (hfin v).kth_parent hcols hv, parent_closer hv⟩

/-- the row of node 0 in zero memory is zero -/
theorem dfs_arrays_longPath : (longPath.load (fun x => x) AdjTree.zeroMemory).ZeroRow ∧
    ∃ s, Returns (fun k => dfs k 0 (longPath.load (fun x => x) AdjTree.zeroMemory)) s ∧ s.sizes 0 = 7 := by
  have h : (longPath.load (fun x => x) AdjTree.zeroMemory).ZeroRow := fun _ _ => rfl
  obtain ⟨s, hs, harr⟩ := dfs_arrays longPath _ _ h
  refine ⟨h, s, hs, ?_⟩
  have hsize := (harr longPath.root).2.2.2.1
  rw [rooted_longPath] at hsize
  exact hsize

/-! ## More fuel -/

theorem dfsChild_covers {f g : ℤ → Hld → Exec Hld} (hfg : ∀ u s, Covers (g u s) (f u s)) (v : ℤ) (s : Hld) (u : ℤ) :
    Covers (dfsChild g v s u) (dfsChild f v s u) := by
  unfold dfsChild
  refine (Covers.refl _).bind fun p => Covers.ite ?_ (Covers.refl _)
  exact (Covers.refl _).bind fun s₁ => (hfg u s₁).bind fun s₂ => Covers.refl _

theorem dfs_covers (k : ℕ) : ∀ (v : ℤ) (s : Hld), Covers (dfs (k + 1) v s) (dfs k v s) := by
  induction k with
  | zero =>
    intro v s
    exact Covers.error _ _
  | succ k ih =>
    intro v s
    rw [dfs, dfs]
    exact (Covers.refl _).bind fun s₁ => (Covers.refl _).bind fun us => Covers.foldlM (dfsChild_covers ih v) us s₁

/-- a loop that returns with some fuel returns -/
theorem returns_loop {k : ℕ} {v : ℤ} {us : List ℤ} (h : us.foldlM (dfsChild (dfs k) v) s = .ok s') :
    Returns (fun k => us.foldlM (dfsChild (dfs k) v) s) s' :=
  Returns.of_ok (f := fun k => us.foldlM (dfsChild (dfs k) v) s)
    (fun j => Covers.foldlM (dfsChild_covers (dfs_covers j) v) us s) h

/-! ## Reads -/

/-- in the call `dfs v` in state `s`, with fuel `k` for the calls below, the loop body for `u` starts in state `t` -/
def AtNbr (k : ℕ) (v : ℤ) (s : Hld) (u : ℤ) (t : Hld) : Prop :=
  ∃ (s₁ : Hld) (pre post : List ℤ), initNode v s = .ok s₁ ∧ readCell s₁.n s₁.adj v = .ok (pre ++ u :: post) ∧
    pre.foldlM (dfsChild (dfs k) v) s₁ = .ok t

/-- and `u` passes the test `u != kth[v][0]` -/
def EntersNbr (k : ℕ) (v : ℤ) (s : Hld) (u : ℤ) (t : Hld) : Prop :=
  AtNbr k v s u t ∧ ∃ p, readKth t v 0 = .ok p ∧ u ≠ p

/-- the call `dfs v` in state `s` reads the cell `kth[x][i]` in state `t` -/
inductive DfsReads : ℕ → ℤ → Hld → Hld → ℤ → ℤ → Prop where
  /-- `kth[v][0]` in the test -/
  | test {k v s u t} : AtNbr k v s u t → DfsReads (k + 1) v s t v 0
  /-- `kth[u][i]` for column `i + 1` of the row of `u` -/
  | column {k v s u t t₁ t₂} {i : ℕ} : EntersNbr k v s u t → writeKth t u 0 v = .ok t₁ → i < t₁.logN - 1 →
      fillRow u i t₁ = .ok t₂ → DfsReads (k + 1) v s t₂ u i
  /-- `kth[kth[u][i]][i]` for that column -/
  | jump {k v s u t t₁ t₂ q} {i : ℕ} : EntersNbr k v s u t → writeKth t u 0 v = .ok t₁ → i < t₁.logN - 1 →
      fillRow u i t₁ = .ok t₂ → readKth t₂ u i = .ok q → DfsReads (k + 1) v s t₂ q i
  /-- a read of the call for `u` -/
  | call {k v s u t t₁ t' x i} : EntersNbr k v s u t → enterChild v t u = .ok t₁ → DfsReads k u t₁ t' x i →
      DfsReads (k + 1) v s t' x i

/-- what the loop has done when it reaches a neighbour -/
theorem AtNbr.inv {k : ℕ} {x : ℤ} (h : AtNbr k v s x t) (he : Entered A s D v) :
    ∃ u ∈ A.nbrs v, x = (u : ℕ) ∧ ∃ pre, LoopInv A s t D v pre := by
  obtain ⟨s₁, pre, post, hinit, hadj, hloop⟩ := h
  obtain ⟨s₁', hinit', hinv⟩ := initNode_spec he
  obtain rfl : s₁' = s₁ := Except.ok.inj (hinit'.symm.trans hinit)
  have hsplit : (A.nbrs v).map (fun u : Fin n => ((u : ℕ) : ℤ)) = pre ++ x :: post :=
    Except.ok.inj ((hinv.adj he).symm.trans hadj)
  obtain ⟨us, us', hus, rfl, hrest⟩ := List.map_eq_append_iff.1 hsplit
  obtain ⟨u, vs, rfl, rfl, -⟩ := List.map_eq_cons_iff.1 hrest
  have hmem : ∀ w ∈ us, w ∈ A.nbrs v := fun w hw => hus ▸ List.mem_append_left _ hw
  have hnodup : us.Nodup := ((hus ▸ A.nodup v).sublist (List.sublist_append_left _ _))
  obtain ⟨t', ht', hinv'⟩ := loop_spec he us (fun w _ _ => dfs_spec w) (fun w hw => he.child_of_nbr (hmem w hw))
    (fun w hw => A.ne_of_nbr (hmem w hw)) hnodup s₁' [] (by simp) hinv
  obtain rfl : t' = t := ht'.unique (returns_loop hloop)
  exact ⟨u, by rw [hus]; simp, rfl, _, hinv'⟩

/-- and what holds when that neighbour is a child -/
theorem EntersNbr.inv {k : ℕ} {x : ℤ} (h : EntersNbr k v s x t) (he : Entered A s D v) :
    ∃ u ∈ A.rooted.children v, x = (u : ℕ) ∧ ∃ pre, LoopInv A s t D v pre := by
  obtain ⟨hat, p, hp, hne⟩ := h
  obtain ⟨u, hu, rfl, pre, hinv⟩ := hat.inv he
  have hev := hinv.entered he
  refine ⟨u, hev.child_of_nbr hu ?_, rfl, pre, hinv⟩
  have hread : readKth t v 0 = .ok (t.kth v 0) := hev.readKth_zero (one_lt_of_ne (A.ne_of_nbr hu))
  rw [Except.ok.inj (hread.symm.trans hp)]
  exact Ne.symm hne

theorem LoopInv.zeroRow {s₀ : Hld} {pre : List (Fin n)} (h : LoopInv A s₀ s D v pre) (hz : s₀.ZeroRow) : s.ZeroRow := by
  have hroot : ¬ ∃ c ∈ pre, A.rooted.Anc c A.root := h.not_below (Anc.root A.rooted v)
  exact (h.frame.zeroRow hroot).2 hz

/-- the two cells read for column `i + 1` of the row of a child: the columns filled so far are final, and so is the row
of the ancestor at distance `2 ^ i` -/
theorem fillRow_reads {t₁ t₂ : Hld} {i : ℕ} (he : Entered A t D v) (hz : t.ZeroRow) (hu : u ∈ A.rooted.children v)
    (hw : writeKth t u 0 v = .ok t₁) (hi : i < t₁.logN - 1) (hfill : fillRow u i t₁ = .ok t₂) :
    i < t.logN ∧ readKth t₂ u i = .ok (t₂.kth u i) ∧ t₂.kth u i = (A.rooted.up (2 ^ i) u : ℕ) ∧
      t₂.kth (A.rooted.up (2 ^ i) u : ℕ) i = (A.rooted.up (2 ^ i) (A.rooted.up (2 ^ i) u) : ℕ) := by
  have hlog : t₁.logN ≤ t.logN := by
    obtain ⟨s₁, -, hw', hlog, -⟩ := fillChild_run he hu 0 (he.logN_child hu)
    rw [Except.ok.inj (hw.symm.trans hw'), hlog]
  obtain ⟨s₁, row, hw', -, hfill', hrow0, -, hrec⟩ := fillChild_run he hu i (by omega)
  obtain rfl : s₁ = t₁ := Except.ok.inj (hw'.symm.trans hw)
  have ht₂ : t₂ = { t with kth := Function.update t.kth u row } := Except.ok.inj (hfill.symm.trans hfill')
  have hn : t₂.n = n := by
    rw [ht₂]
    exact he.n_eq
  have hlog₂ : t₂.logN = t.logN := by rw [ht₂]
  have hkth : t₂.kth = Function.update t.kth u row := by rw [ht₂]
  refine ⟨by omega, readKth_node hn u (by omega), ?_, ?_⟩
  · rw [hkth, Function.update_self]
    exact row_up (m := i) (by omega) hrow0 hrec hu he.rows i le_rfl (Or.inr hz)
  · rw [hkth, Function.update_of_ne (node_ne (up_pow_ne hu i))]
    exact he.rows _ (anc_up_pow hu i) i (by omega) (Or.inr hz)

/-- **Reads.** With the rows above `v` final and the row of the root zero, every cell of `kth` that the call `dfs v` reads
is in the table and holds the ancestor at distance `2 ^ i`. -/
theorem DfsReads.kth_up {k : ℕ} {x₀ x i : ℤ} (h : DfsReads k x₀ s t x i) :
    ∀ (v : Fin n) (D : Set (Fin n)), x₀ = (v : ℕ) → Entered A s D v → s.ZeroRow →
      ∃ (w : Fin n) (j : ℕ), x = (w : ℕ) ∧ i = j ∧ j < s.logN ∧ t.kth w j = (A.rooted.up (2 ^ j) w : ℕ) := by
  induction h with
  | test hat =>
    rintro v D rfl he hz
    obtain ⟨u, hu, -, pre, hinv⟩ := hat.inv he
    have hev := hinv.entered he
    have hlog := hev.logN_pos (one_lt_of_ne (A.ne_of_nbr hu))
    refine ⟨v, 0, rfl, rfl, hinv.frame.logN_eq ▸ hlog, ?_⟩
    exact hev.rows v (Anc.refl _ v) 0 hlog (Or.inr (hinv.zeroRow hz))
  | column henter hw hi hfill =>
    rintro v D rfl he hz
    obtain ⟨u, hu, rfl, pre, hinv⟩ := henter.inv he
    obtain ⟨hlt, -, hself, -⟩ := fillRow_reads (hinv.entered he) (hinv.zeroRow hz) hu hw hi hfill
    exact ⟨u, _, rfl, rfl, hinv.frame.logN_eq ▸ hlt, hself⟩
  | jump henter hw hi hfill hq =>
    rintro v D rfl he hz
    obtain ⟨u, hu, rfl, pre, hinv⟩ := henter.inv he
    obtain ⟨hlt, hread, hself, hnext⟩ := fillRow_reads (hinv.entered he) (hinv.zeroRow hz) hu hw hi hfill
    refine ⟨A.rooted.up (2 ^ _) u, _, ?_, rfl, hinv.frame.logN_eq ▸ hlt, hnext⟩
    rw [← hself]
    exact Except.ok.inj (hq.symm.trans hread)
  | call henter hchild _ ih =>
    -- the row of the child is written before the call for it
    rintro v D rfl he hz
    obtain ⟨u, hu, rfl, pre, hinv⟩ := henter.inv he
    obtain ⟨t₁, ht₁, hf, he₁⟩ := enterChild_spec (hinv.entered he) hu
    obtain rfl := Except.ok.inj (ht₁.symm.trans hchild)
    have hroot : ¬ (A.root = u) := fun heq => A.rooted.ne_root_of_child hu heq.symm
    obtain ⟨w, j, hx, hi, hj, hk⟩ := ih u _ rfl he₁ ((hf.zeroRow hroot).2 (hinv.zeroRow hz))
    rw [hf.logN_eq, hinv.frame.logN_eq] at hj
    exact ⟨w, j, hx, hi, hj, hk⟩

/-- **The rows of `dfs(0)`.** Every row holds the ancestors at distances `2 ^ i`, and so does every cell that the call
reads, at the moment it reads it. -/
theorem kth_ancestors (A : AdjTree n) (vals : ℤ → ℤ) (mem : Hld) (h : (A.load vals mem).ZeroRow) :
    (∃ s, Returns (fun k => dfs k 0 (A.load vals mem)) s ∧ ∀ (u : Fin n) (i : ℕ), i < Nat.log 2 n →
      s.kth u i = (A.rooted.up (2 ^ i) u : ℕ) ∧ (A.graph.dist A.root u < 2 ^ i → s.kth u i = 0)) ∧
    ∀ (k : ℕ) (t : Hld) (x i : ℤ), DfsReads k 0 (A.load vals mem) t x i →
      ∃ (w : Fin n) (j : ℕ), x = (w : ℕ) ∧ i = j ∧ j < Nat.log 2 n ∧ t.kth w j = (A.rooted.up (2 ^ j) w : ℕ) := by
  refine ⟨?_, ?_⟩
  · obtain ⟨s, hs, hlog, hz, -, hfin⟩ := dfs_finished h
    refine ⟨s, hs, fun u i hi => ?_⟩
    have hcell : s.kth u i = (A.rooted.up (2 ^ i) u : ℕ) := (hfin u).row i (hlog.symm ▸ hi) (Or.inr hz)
    refine ⟨hcell, fun hd => ?_⟩
    rw [hcell, A.rooted.up_of_depth_le hd.le]
    rfl
  · intro k t x i hreads
    exact hreads.kth_up A.root {A.root} rfl (entered_load (closed_root h) rfl) h

/-- in the path 0, 1, 2, 3, 4, 5 node 3 is two steps above node 5 -/
theorem kth_ancestors_longPath :
    (∃ s, Returns (fun k => dfs k 0 (longPath.load (fun x => x) AdjTree.zeroMemory)) s ∧ s.kth 5 1 = 3) ∧
    ∃ t, DfsReads 1 0 (longPath.load (fun x => x) AdjTree.zeroMemory) t 0 0 ∧ t.kth 0 0 = 0 := by
  obtain ⟨⟨s, hs, hrows⟩, hreads⟩ := kth_ancestors longPath (fun x => x) AdjTree.zeroMemory fun _ _ => rfl
  refine ⟨⟨s, hs, ?_⟩, ?_⟩
  · have hrow := (hrows 5 1 (by decide)).1
    rw [rooted_longPath] at hrow
    exact hrow
  · have htest : DfsReads 1 0 (longPath.load (fun x => x) AdjTree.zeroMemory) _ 0 0 :=
      .test ⟨_, [], _, rfl, rfl, rfl⟩
    obtain ⟨w, j, hw, hj, -, hk⟩ := hreads 1 _ 0 0 htest
    obtain rfl : w = longPath.root := node_ext hw.symm
    have hup : longPath.rooted.up (2 ^ j) longPath.root = longPath.root := longPath.rooted.up_root _
    rw [hup, ← hj] at hk
    exact ⟨_, htest, hk⟩

end Hld

end HeavyLight
