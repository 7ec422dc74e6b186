/-
The state that `preprocess` leaves.

- `decomposeRoot_spec`: what `dfs` and `decompose` leave; `Laid A s` is that state for zero root cells of `kth`.
- `scatterLoop_spec`, `scatter_order`: the loop of `build_st` writes every value to its position, and leaves the same
  vector (`Scattered`) in any order.
- `preprocess_spec`: from memory in which `kth[0][0]` is no neighbour of node 0, `dfs`, `decompose` and `build_st` leave
  the arrays of the rooted tree and a segment tree over the values.
- `Ready A cur s`: the invariant of the states reached after preprocessing, with `cur` the values in the segment tree.
  `preprocess_ready` establishes it from zero root cells, `updateNode_ready` and `updateNodes_ready` keep it.
-/
import HeavyLight.Decompose
import HeavyLight.SegmentTreeSpec

namespace HeavyLight

open ParentTree

namespace Hld

variable {n : ℕ} {A : AdjTree n} {s s' : Hld} {D : Set (Fin n)} {vals : ℤ → ℤ} {mem : Hld} {cur : Fin n → ℤ}

/-! ## Searching and decomposing -/

/-- the statements of `preprocess` before `build_st` -/
def decomposeRoot (k : ℕ) (s : Hld) : Exec Hld := do
  let s := { s with curPos := 0 }
  let s ← dfs k 0 s
  decompose k 0 0 s

theorem preprocess_eq (k n : ℕ) (s : Hld) : preprocess k n s = (do
    let s ← decomposeRoot k s
    buildSt k n s) := by
  unfold preprocess decomposeRoot
  rw [bind_assoc]

/-- **`dfs` and `decompose`** from memory in which `kth[0][0]` is no neighbour of node 0. -/
theorem decomposeRoot_spec (he : Entered A s D A.root) (h0 : ∀ u ∈ A.nbrs A.root, s.kth 0 0 ≠ (u : ℕ)) :
    ∃ s', Returns (fun k => decomposeRoot k s) s' ∧ s'.n = n ∧ s'.logN = s.logN ∧ s'.adj = A.adj ∧
      s'.values = s.values ∧ s'.kth 0 = s.kth 0 ∧ s'.depth 0 = s.depth 0 ∧ (∀ w, Finished A s' w) ∧
      (∀ w, Placed A s' w) ∧ s'.curPos = n := by
  have he' : Entered A { s with curPos := 0 } D A.root :=
    ⟨he.n_eq, he.adj_eq, he.logN_pos, he.closed, he.mem, he.rows, he.depth⟩
  obtain ⟨s₁, hs₁, hf, hfin, hsearched⟩ := dfs_searched he' h0
  have hkth : s₁.kth 0 = s.kth 0 := hf.kth_node (w := A.root) (fun h => h rfl)
  have hroot : A.rooted.pos A.root = 0 := A.rooted.pos_root
  have hcur : s₁.curPos = A.rooted.pos A.root := by
    rw [hf.rest, hroot]
    rfl
  obtain ⟨s₂, hs₂, hlay, hcur₂, hplaced⟩ := decompose_spec A.root s₁ hsearched hcur
  have hhead : A.rooted.head A.root = A.root := A.rooted.head_root
  have hsize : A.rooted.size A.root = n := A.rooted.size_root.trans (Fintype.card_fin n)
  rw [hhead] at hs₂
  refine ⟨s₂, hs₁.bind hs₂, hlay.n_eq.trans hsearched.n_eq, ?_, hlay.adj_eq.trans hsearched.adj_eq, ?_, ?_, ?_, ?_,
    fun w => hplaced w (Anc.root _ w), ?_⟩
  · rw [hlay.rest, hf.rest]
  · rw [hlay.rest, hf.rest]
  · rw [hlay.rest]; exact hkth
  · rw [hlay.rest]; exact hf.depth_zero (A := A) (fun h => h rfl)
  · intro w
    have h := hfin w
    rw [hlay.rest]
    exact ⟨h.sizes, h.heavy, h.row, h.depth⟩
  · rw [hcur₂, hroot, hsize]
    simp

/-! ## Building the segment tree -/

theorem indices_eq (n : ℕ) : indices n = (List.finRange n).map fun w : Fin n => ((w : ℕ) : ℤ) := by
  have h := List.ofFn_eq_map (f := fun w : Fin n => ((w : ℕ) : ℤ))
  rw [indices, ← h]
  refine List.ext_getElem (by simp) fun i h1 h2 => by simp

theorem pos_lt_n (A : AdjTree n) (v : Fin n) : ((A.rooted.pos v : ℕ) : ℤ) < n := by
  have := A.rooted.pos_lt_card v
  rw [Fintype.card_fin] at this
  omega

/-- **The scatter loop.** With the positions `p` in range and pairwise different, each node of the list has its value at
its position; the other cells keep their contents. -/
theorem scatterLoop_spec (hn : s.n = n) {p : Fin n → ℤ} (hp : ∀ w : Fin n, s.pos w = p w)
    (hrange : ∀ w, 0 ≤ p w ∧ p w < n) (hinj : Function.Injective p) (ws : List (Fin n)) (d : Vec ℤ) (hd : d.size = n) :
    ∃ d', (ws.map fun w : Fin n => ((w : ℕ) : ℤ)).foldlM (scatter s) d = .ok d' ∧ d'.size = n ∧
      (∀ w ∈ ws, d'.cell (p w) = s.values w) ∧
      ∀ x : ℤ, (∀ w ∈ ws, x ≠ p w) → d'.cell x = d.cell x := by
  induction ws generalizing d with
  | nil => exact ⟨d, rfl, hd, by simp, fun _ _ => rfl⟩
  | cons w ws ih =>
    obtain ⟨h0, h1⟩ := hrange w
    have hbody : scatter s d w = .ok { d with cell := Function.update d.cell (p w) (s.values w) } := by
      rw [scatter, readCell_node hn w, ok_bind, readCell_node hn w, ok_bind, hp w, Vec.set_ok h0 (by omega)]
    obtain ⟨d', hd', hsize, hmem, hkeep⟩ := ih { d with cell := Function.update d.cell (p w) (s.values w) } hd
    refine ⟨d', ?_, hsize, ?_, ?_⟩
    · rw [List.map_cons, List.foldlM_cons, hbody, ok_bind, hd']
    · intro x hx
      by_cases hws : x ∈ ws
      · exact hmem x hws
      · -- a position written by no later iteration
        obtain rfl : x = w := (List.mem_cons.1 hx).resolve_right hws
        rw [hkeep]
        · exact Function.update_self _ _ _
        · intro y hy he
          exact hws (hinj he ▸ hy)
    · intro x hx
      rw [hkeep x fun y hy => hx y (List.mem_cons_of_mem _ hy)]
      exact Function.update_of_ne (hx w List.mem_cons_self) _ _

/-- the vector of the values in the order of the positions; the cells it does not have are zero -/
structure Scattered (A : AdjTree n) (vals : ℤ → ℤ) (d : Vec ℤ) : Prop where
  size : d.size = n
  cell : ∀ w : Fin n, d.cell (A.rooted.pos w) = vals w
  outside : ∀ x : ℤ, ¬ (0 ≤ x ∧ x < n) → d.cell x = 0

/-- the positions cover the vector, so there is only one -/
theorem Scattered.unique {d d' : Vec ℤ} (h : Scattered A vals d) (h' : Scattered A vals d') : d = d' := by
  have hcell : d.cell = d'.cell := by
    funext x
    by_cases hx : 0 ≤ x ∧ x < n
    · obtain ⟨w, hw⟩ := exists_pos (show x.toNat < Fintype.card (Fin n) by rw [Fintype.card_fin]; omega) A.rooted
      have hxw : x = (A.rooted.pos w : ℕ) := by omega
      rw [hxw, h.cell, h'.cell]
    · rw [h.outside x hx, h'.outside x hx]
  obtain ⟨size, cell⟩ := d
  obtain ⟨size', cell'⟩ := d'
  obtain rfl : size = n := h.size
  obtain rfl : size' = size := h'.size
  rw [show cell = cell' from hcell]

/-- **Any order.** The iterations of the scatter loop leave the same vector in every order. -/
theorem scatter_order (hn : s.n = n) (hpos : ∀ w, Placed A s w) {order : List ℤ} (horder : order.Perm (indices n)) :
    ∃ d, order.foldlM (scatter s) (Vec.zeros n) = .ok d ∧ Scattered A s.values d := by
  have hinj : Function.Injective fun w => ((A.rooted.pos w : ℕ) : ℤ) :=
    fun _ _ he => A.rooted.pos_injective (Int.ofNat.inj he)
  have hid : ∀ x ∈ order, ((A.ofInt x : ℕ) : ℤ) = x := by
    intro x hx
    have hx := horder.mem_iff.1 hx
    rw [indices_eq, List.mem_map] at hx
    obtain ⟨w, -, rfl⟩ := hx
    rw [A.ofInt_coe]
  have hnodes : (order.map A.ofInt).map (fun w : Fin n => ((w : ℕ) : ℤ)) = order := by
    calc (order.map A.ofInt).map (fun w : Fin n => ((w : ℕ) : ℤ))
        = order.map fun x => ((A.ofInt x : ℕ) : ℤ) := by rw [List.map_map]; rfl
      _ = order.map id := List.map_congr_left hid
      _ = order := List.map_id order
  have hmem : ∀ w, w ∈ order.map A.ofInt := by
    intro w
    refine List.mem_map.2 ⟨(w : ℕ), horder.mem_iff.2 ?_, A.ofInt_coe w⟩
    rw [indices_eq]
    exact List.mem_map.2 ⟨w, List.mem_finRange w, rfl⟩
  obtain ⟨d, hd, hsize, hcell, hkeep⟩ := scatterLoop_spec hn (fun w => (hpos w).pos)
    (fun w => ⟨Int.natCast_nonneg _, pos_lt_n A w⟩) hinj (order.map A.ofInt) (Vec.zeros n) rfl
  rw [hnodes] at hd
  refine ⟨d, hd, hsize, fun w => hcell w (hmem w), fun x hx => ?_⟩
  -- no position lies outside the vector
  rw [hkeep x]
  · rfl
  · rintro w - rfl
    exact hx ⟨Int.natCast_nonneg _, pos_lt_n A w⟩

/-- the segment tree holds the value `cur w` of each node at its position -/
def Sums (A : AdjTree n) (cur : Fin n → ℤ) (s : Hld) : Prop :=
  ∃ a : ℤ → ℤ, s.st.Represents n a ∧ ∀ w, a (A.rooted.pos w) = cur w

theorem buildSt_spec (hn : s.n = n) (hpos : ∀ w, Placed A s w) :
    ∃ st, Returns (fun k => buildSt k n s) { s with st := st } ∧ Sums A (fun w => s.values w) { s with st := st } := by
  obtain ⟨d, hd, hscat⟩ := scatter_order hn hpos (List.Perm.refl (indices n))
  obtain ⟨st, hst, hrep⟩ := SegmentTree.new_represents d (hscat.size.symm ▸ A.pos)
  rw [hscat.size] at hrep
  refine ⟨st, ?_, d.cell, hrep, hscat.cell⟩
  refine Returns.congr (hst.map (g := fun st => { s with st := st })) fun k => ?_
  unfold buildSt
  rw [hd, ok_bind]

/-! ## The whole preprocessing -/

/-- the arrays that `preprocess` fills, for the tree rooted at node 0 -/
structure TreeArrays (A : AdjTree n) (s : Hld) : Prop where
  heavy : ∀ w : Fin n, s.heavy w = heavyId (A.rooted.heavy w)
  head : ∀ w : Fin n, s.head w = (A.rooted.head w : ℕ)
  pos : ∀ w : Fin n, s.pos w = A.rooted.pos w
  sizes : ∀ w : Fin n, s.sizes w = A.rooted.size w

/-- **Preprocessing** from memory in which `kth[0][0]` is no neighbour of node 0. -/
theorem preprocess_spec (he : Entered A s D A.root) (h0 : ∀ u ∈ A.nbrs A.root, s.kth 0 0 ≠ (u : ℕ)) :
    ∃ s', Returns (fun k => preprocess k n s) s' ∧ s'.n = n ∧ s'.logN = s.logN ∧ s'.values = s.values ∧
      s'.kth 0 = s.kth 0 ∧ s'.depth 0 = s.depth 0 ∧ (∀ w, Finished A s' w) ∧ (∀ w, Placed A s' w) ∧
      Sums A (fun w => s.values w) s' := by
  obtain ⟨s₂, hs₂, hn, hlog, -, hvals, hkth, hdepth, hfin, hplaced, -⟩ := decomposeRoot_spec he h0
  obtain ⟨st, hst, hsums⟩ := buildSt_spec hn hplaced
  refine ⟨{ s₂ with st := st }, ?_, hn, hlog, hvals, hkth, hdepth, ?_, ?_, hvals ▸ hsums⟩
  · exact (hs₂.bind hst).congr fun k => preprocess_eq k n s
  · exact fun w => ⟨(hfin w).sizes, (hfin w).heavy, (hfin w).row, (hfin w).depth⟩
  · exact fun w => ⟨(hplaced w).head, (hplaced w).pos⟩

/-! ## Reachable states -/

/-- the states after `dfs` and `decompose` from zero root cells of `kth`, with any depth at the root -/
structure Laid (A : AdjTree n) (s : Hld) : Prop where
  n_eq : s.n = n
  logN_eq : s.logN = Nat.log 2 n
  zeroRow : s.ZeroRow
  finished : ∀ w, Finished A s w
  placed : ∀ w, Placed A s w

/-- the states after preprocessing from zero root cells, with `cur` the values in the segment tree -/
structure Ready (A : AdjTree n) (cur : Fin n → ℤ) (s : Hld) : Prop where
  n_eq : s.n = n
  logN_eq : s.logN = Nat.log 2 n
  zeroRow : s.ZeroRow
  depth_zero : s.depth 0 = 0
  finished : ∀ w, Finished A s w
  placed : ∀ w, Placed A s w
  sums : Sums A cur s

theorem entered_load (hD : Closed (A.load vals mem) D) (h0 : A.root ∈ D) : Entered A (A.load vals mem) D A.root :=
  entered_root rfl rfl (fun hn => Nat.log_pos (by omega) hn) hD h0

/-- the table has columns when there are two nodes -/
theorem Laid.logN_pos (h : Laid A s) (hn : 1 < n) : 0 < s.logN := h.logN_eq ▸ Nat.log_pos (by omega) hn

theorem Laid.kth_parent (h : Laid A s) {v : Fin n} (hv : v ≠ A.root) : s.kth v 0 = (A.rooted.parent v : ℕ) :=
  (h.finished v).kth_parent h.logN_pos hv

theorem Ready.laid (h : Ready A cur s) : Laid A s := ⟨h.n_eq, h.logN_eq, h.zeroRow, h.finished, h.placed⟩

/-- node 0 is not its own neighbour -/
theorem root_not_nbr (h : (A.load vals mem).ZeroRow) : ∀ u ∈ A.nbrs A.root, (A.load vals mem).kth 0 0 ≠ (u : ℕ) := by
  intro u hu hk
  have hne : u ≠ A.root := A.rooted.ne_root_of_child (A.root_nbr_iff.1 hu)
  have hz : (A.load vals mem).kth 0 0 = 0 := h 0 (Nat.log_pos (by omega) (one_lt_of_ne hne))
  rw [hz] at hk
  exact hne (node_ext hk.symm)

theorem decomposeRoot_laid (h : (A.load vals mem).ZeroRow) :
    ∃ s, Returns (fun k => decomposeRoot k (A.load vals mem)) s ∧ Laid A s ∧ s.curPos = n := by
  have he : Entered A (A.load vals mem) {A.root} A.root := entered_load (closed_root h) rfl
  obtain ⟨s, hs, hn, hlog, -, -, hkth, -, hfin, hplaced, hcur⟩ := decomposeRoot_spec he (root_not_nbr h)
  refine ⟨s, hs, ⟨hn, hlog, ?_, hfin, hplaced⟩, hcur⟩
  intro i hi
  rw [hlog] at hi
  rw [hkth]
  exact h i hi

theorem preprocess_ready (h : (A.load vals mem).RootZero) :
    ∃ s, Returns (fun k => preprocess k n (A.load vals mem)) s ∧ Ready A (fun w => vals w) s ∧ s.values = vals := by
  have he : Entered A (A.load vals mem) {A.root} A.root := entered_load (closed_root h.kth) rfl
  obtain ⟨s, hs, hn, hlog, hvals, hkth, hdepth, hfin, hplaced, hsums⟩ := preprocess_spec he (root_not_nbr h.kth)
  refine ⟨s, hs, ⟨hn, hlog, ?_, hdepth.trans h.depth, hfin, hplaced, hsums⟩, hvals⟩
  intro i hi
  rw [hlog] at hi
  rw [hkth]
  exact h.kth i hi

/-- the positions are a bijection from the nodes onto `0, ..., n - 1` -/
theorem Laid.bijOn_pos (h : Laid A s) : Set.BijOn s.pos (Set.Ico 0 n) (Set.Ico 0 n) := by
  refine ⟨fun x hx => ?_, fun x hx y hy hxy => ?_, fun i hi => ?_⟩
  · obtain ⟨w, rfl⟩ := exists_node hx.1 hx.2
    rw [(h.placed w).pos]
    exact ⟨Int.natCast_nonneg _, pos_lt_n A w⟩
  · obtain ⟨w, rfl⟩ := exists_node hx.1 hx.2
    obtain ⟨w', rfl⟩ := exists_node hy.1 hy.2
    rw [(h.placed w).pos, (h.placed w').pos] at hxy
    rw [A.rooted.pos_injective (Int.ofNat.inj hxy)]
  · obtain ⟨j, rfl⟩ := exists_node hi.1 hi.2
    obtain ⟨w, hw⟩ := exists_pos (show (j : ℕ) < Fintype.card (Fin n) by rw [Fintype.card_fin]; exact j.isLt) A.rooted
    exact ⟨w, by rw [Set.mem_Ico]; omega, by rw [(h.placed w).pos, hw]⟩

theorem Ready.bijOn_pos (h : Ready A cur s) : Set.BijOn s.pos (Set.Ico 0 n) (Set.Ico 0 n) := h.laid.bijOn_pos

/-- **An update.** `update_node` changes the value of its node in the segment tree, and no other part of the state. -/
theorem updateNode_ready (h : Ready A cur s) (w : Fin n) (val : ℤ) :
    ∃ st, Returns (fun k => updateNode k s w val) { s with st := st } ∧
      Ready A (Function.update cur w val) { s with st := st } := by
  obtain ⟨a, hrep, ha⟩ := h.sums
  obtain ⟨st, hst, hrep'⟩ := SegmentTree.update_represents hrep (Int.natCast_nonneg _) (pos_lt_n A w) val
  refine ⟨st, ?_, ⟨h.n_eq, h.logN_eq, h.zeroRow, h.depth_zero, ?_, ?_, _, hrep', fun x => ?_⟩⟩
  · refine Returns.congr (hst.map (g := fun st => { s with st := st })) fun k => ?_
    unfold updateNode
    rw [readCell_node h.n_eq w, ok_bind, (h.placed w).pos]
  · exact fun x => ⟨(h.finished x).sizes, (h.finished x).heavy, (h.finished x).row, (h.finished x).depth⟩
  · exact fun x => ⟨(h.placed x).head, (h.placed x).pos⟩
  · by_cases hx : x = w
    · rw [hx, Function.update_self, Function.update_self]
    · have hp : ((A.rooted.pos x : ℕ) : ℤ) ≠ A.rooted.pos w := fun he => hx (A.rooted.pos_injective (Int.ofNat.inj he))
      rw [Function.update_of_ne hx, Function.update_of_ne hp, ha]

/-- the values after a run of updates: the last value passed for a node, or its original value -/
def current (vals : Fin n → ℤ) (ups : List (Fin n × ℤ)) : Fin n → ℤ :=
  ups.foldl (fun cur p => Function.update cur p.1 p.2) vals

/-- the arguments of the calls of a run of updates -/
def calls (ups : List (Fin n × ℤ)) : List (ℤ × ℤ) := ups.map fun p => (((p.1 : ℕ) : ℤ), p.2)

/-- **A run of updates.** -/
theorem updateNodes_ready (ups : List (Fin n × ℤ)) (h : Ready A cur s) :
    ∃ st, Returns (fun k => updateNodes k s (calls ups)) { s with st := st } ∧
      Ready A (current cur ups) { s with st := st } := by
  induction ups generalizing s cur with
  | nil => exact ⟨s.st, Returns.foldlM_nil, h⟩
  | cons p ups ih =>
    obtain ⟨st₁, hst₁, h₁⟩ := updateNode_ready h p.1 p.2
    obtain ⟨st₂, hst₂, h₂⟩ := ih h₁
    exact ⟨st₂, Returns.foldlM_cons hst₁ hst₂, h₂⟩

/-- preprocessing, then a run of updates -/
def run (k : ℕ) (A : AdjTree n) (vals : ℤ → ℤ) (mem : Hld) (ups : List (Fin n × ℤ)) : Exec Hld := do
  let s ← preprocess k n (A.load vals mem)
  updateNodes k s (calls ups)

theorem run_ready (h : (A.load vals mem).RootZero) (ups : List (Fin n × ℤ)) :
    ∃ s, Returns (fun k => run k A vals mem ups) s ∧ Ready A (current (fun w => vals w) ups) s ∧ s.values = vals := by
  obtain ⟨s, hs, hr, hv⟩ := preprocess_ready h
  obtain ⟨st, hst, hr'⟩ := updateNodes_ready ups hr
  exact ⟨_, hs.bind hst, hr', hv⟩

end Hld

end HeavyLight
