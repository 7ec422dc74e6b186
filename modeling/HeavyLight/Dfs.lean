/-
What `dfs` computes. Everything is proved for memory with any contents: a cell of `kth` is read only in rows of a set of
nodes closed under the cells of the rows (`Closed`), which for a zero row of the root is the set of nodes entered so far.

- `fillRow_spec`, `enterChild_spec`, `foldChild_spec`: one lemma for each part of the loop body. `ChildRow` is what the
  filled row of a child holds.
- `RowOk s w`: the row of `w` holds the ancestors at distances `2 ^ i`; those that saturate at the root only when the row
  of the root is zero.
- `Finished s w`: size, heavy child, row and depth of `w` are final. `Frame`: everything else is unchanged.
- `loop_spec`, `dfs_spec`: `dfs v` finishes exactly the nodes below `v`.
- `dfs_root`: `dfs 0` from memory whose cell `kth[0][0]` is no neighbour of node 0 finishes every node.
-/
import HeavyLight.AdjTree

namespace HeavyLight

open ParentTree

namespace Hld

variable {n : ℕ} {A : AdjTree n} {s s' s'' : Hld} {D : Set (Fin n)} {u v w : Fin n}

/-! ## Cells of the table -/

theorem readCell_node {α : Type} {m : ℕ} {a : ℤ → α} (hm : m = n) (v : Fin n) : readCell m a v = .ok (a v) :=
  readCell_ok (by omega) (by omega)

theorem writeCell_node {α : Type} {m : ℕ} {a : ℤ → α} {x : α} (hm : m = n) (v : Fin n) :
    writeCell m a v x = .ok (Function.update a v x) :=
  writeCell_ok (by omega) (by omega)

theorem readKth_node (hn : s.n = n) (v : Fin n) {i : ℕ} (hi : i < s.logN) : readKth s v i = .ok (s.kth v i) := by
  unfold readKth
  rw [readCell_node hn, ok_bind]
  exact readCell_ok (by omega) (by omega)

theorem writeKth_node (hn : s.n = n) (v : Fin n) {i : ℕ} (hi : i < s.logN) (x : ℤ) :
    writeKth s v i x = .ok { s with kth := Function.update s.kth v (Function.update (s.kth v) i x) } := by
  have hcol : writeCell s.logN (s.kth v) (i : ℤ) x = .ok (Function.update (s.kth v) i x) :=
    writeCell_ok (by omega) (by omega)
  unfold writeKth
  rw [readCell_node hn, ok_bind, hcol, ok_bind, writeCell_node hn, ok_bind]
  rfl

/-- the rows of the nodes in `D` hold nodes in `D` -/
def Closed (s : Hld) (D : Set (Fin n)) : Prop := ∀ x ∈ D, ∀ i : ℕ, i < s.logN → ∃ y ∈ D, s.kth x i = (y : ℕ)

/-- column `m + 1` of the row of `u` is column `m` of the row of `y`, the node in column `m` -/
theorem fillRow_succ (hn : s.n = n) (u : Fin n) {m : ℕ} (hm : m + 1 < s.logN) {row : ℤ → ℤ} {y z : Fin n}
    (hrow : fillRow u m s = .ok { s with kth := Function.update s.kth u row }) (hy : row m = (y : ℕ))
    (hz : Function.update s.kth u row y m = (z : ℕ)) :
    fillRow u (m + 1) s =
      .ok { s with kth := Function.update s.kth u (Function.update row ((m : ℤ) + 1) (z : ℕ)) } := by
  obtain ⟨t, ht⟩ : ∃ t : Hld, t = { s with kth := Function.update s.kth u row } := ⟨_, rfl⟩
  have hnt : t.n = n := by rw [ht]; exact hn
  have hlt : t.logN = s.logN := by rw [ht]
  have hp : t.kth u m = (y : ℕ) := by rw [ht]; simpa using hy
  have hq : t.kth y m = (z : ℕ) := by rw [ht]; exact hz
  have hw := writeKth_node hnt u (hlt.symm ▸ hm) (z : ℕ)
  rw [Nat.cast_succ] at hw
  rw [fillRow, hrow, ← ht, ok_bind, readKth_node hnt u (show m < t.logN by omega), ok_bind, hp,
    readKth_node hnt y (show m < t.logN by omega), ok_bind, hq, hw, ht]
  simp only [Function.update_self, Function.update_idem]

/-- which leaves the columns up to `m` of every row as they are -/
theorem update_row_column (kth : ℤ → ℤ → ℤ) (u : ℤ) (row : ℤ → ℤ) {m i : ℕ} (hi : i ≤ m) (z x : ℤ) :
    Function.update kth u (Function.update row ((m : ℤ) + 1) z) x i = Function.update kth u row x i := by
  by_cases hx : x = u
  · rw [hx, Function.update_self, Function.update_self, Function.update_of_ne (by omega)]
  · rw [Function.update_of_ne hx, Function.update_of_ne hx]

/-- **Filling a row.** With `kth[u][0]` in a closed set, the loop fills columns `1` to `m` of the row of `u` with nodes of
the set, by the doubling recurrence, and writes nothing else. -/
theorem fillRow_spec (hn : s.n = n) (hD : Closed s D) (u : Fin n) (h0 : ∃ y ∈ D, s.kth u 0 = (y : ℕ)) (m : ℕ)
    (hm : m < s.logN) :
    ∃ row, fillRow u m s = .ok { s with kth := Function.update s.kth u row } ∧ row 0 = s.kth u 0 ∧
      (∀ i : ℕ, i ≤ m → ∃ y ∈ D, row i = (y : ℕ)) ∧
      ∀ i : ℕ, i < m → row (i + 1) = Function.update s.kth u row (row i) i := by
  induction m with
  | zero =>
    refine ⟨s.kth u, ?_, rfl, fun i hi => ?_, fun i hi => by omega⟩
    · rw [fillRow, Function.update_eq_self]
    · obtain rfl : i = 0 := by omega
      exact h0
  | succ m ih =>
    obtain ⟨row, hrow, hrow0, hmem, hrec⟩ := ih (by omega)
    obtain ⟨y, hy, hym⟩ := hmem m le_rfl
    -- the cell read for column `m + 1` is in the set, also when it lies in the row being written
    obtain ⟨z, hz, hzq⟩ : ∃ z ∈ D, Function.update s.kth u row y m = (z : ℕ) := by
      by_cases hyu : y = u
      · subst hyu
        rw [Function.update_self]
        exact ⟨y, hy, hym⟩
      · rw [Function.update_of_ne (by omega)]
        exact hD y hy m (by omega)
    have hcol : ∀ i : ℕ, i ≤ m → Function.update row ((m : ℤ) + 1) (z : ℕ) i = row i := fun i hi =>
      Function.update_of_ne (by omega) _ _
    refine ⟨_, fillRow_succ hn u hm hrow hym hzq, ?_, ?_, ?_⟩
    · rw [Function.update_of_ne (by omega), hrow0]
    · intro i hi
      by_cases him : i = m + 1
      · subst him
        exact ⟨z, hz, by rw [Nat.cast_succ, Function.update_self]⟩
      · rw [hcol i (by omega)]
        exact hmem i (by omega)
    · intro i hi
      by_cases him : i = m
      · subst him
        rw [Function.update_self, hcol i le_rfl, update_row_column _ _ _ le_rfl, hym, hzq]
      · have := hcol (i + 1) (by omega)
        rw [Nat.cast_succ] at this
        rw [this, hrec i (by omega), hcol i (by omega), update_row_column _ _ _ (by omega)]

/-! ## Final contents -/

/-- the row of the root is zero -/
def ZeroRow (s : Hld) : Prop := ∀ i : ℕ, i < s.logN → s.kth 0 i = 0

/-- the row of `w` holds the ancestors of `w` at distances `2 ^ i` -/
def RowOk (A : AdjTree n) (s : Hld) (w : Fin n) : Prop :=
  ∀ i : ℕ, i < s.logN → 2 ^ i ≤ A.rooted.depth w ∨ s.ZeroRow → s.kth w i = (A.rooted.up (2 ^ i) w : ℕ)

/-- `heavy[v]` for a heavy child or none -/
def heavyId : Option (Fin n) → ℤ
  | none => -1
  | some c => (c : ℕ)

theorem heavyId_injective : Function.Injective (heavyId (n := n)) := by
  intro a b h
  cases a <;> cases b <;> simp only [heavyId] at h
  · rfl
  · omega
  · omega
  · rw [node_ext h]

/-- the arrays of `dfs` are final at `w` -/
structure Finished (A : AdjTree n) (s : Hld) (w : Fin n) : Prop where
  sizes : s.sizes w = A.rooted.size w
  heavy : s.heavy w = heavyId (A.rooted.heavy w)
  row : RowOk A s w
  depth : s.depth w = s.depth 0 + A.rooted.depth w

/-- the first cell of a final row is the parent -/
theorem Finished.kth_parent (h : Finished A s v) (hlog : 1 < n → 0 < s.logN) (hv : v ≠ A.root) :
    s.kth v 0 = (A.rooted.parent v : ℕ) :=
  h.row 0 (hlog (one_lt_of_ne hv)) (Or.inl (A.rooted.depth_pos hv))

/-- from `s` to `s'` only `kth` and `depth` change, at nodes in `P`, and `sizes` and `heavy`, at nodes in `Q` -/
structure Frame (s s' : Hld) (P Q : Fin n → Prop) : Prop where
  rest : s' = { s with kth := s'.kth, depth := s'.depth, sizes := s'.sizes, heavy := s'.heavy }
  kth : ∀ x : ℤ, (∀ w, P w → x ≠ (w : ℕ)) → s'.kth x = s.kth x
  depth : ∀ x : ℤ, (∀ w, P w → x ≠ (w : ℕ)) → s'.depth x = s.depth x
  sizes : ∀ x : ℤ, (∀ w, Q w → x ≠ (w : ℕ)) → s'.sizes x = s.sizes x
  heavy : ∀ x : ℤ, (∀ w, Q w → x ≠ (w : ℕ)) → s'.heavy x = s.heavy x

namespace Frame

variable {P Q P' Q' : Fin n → Prop}

theorem n_eq (h : Frame s s' P Q) : s'.n = s.n := by rw [h.rest]

theorem logN_eq (h : Frame s s' P Q) : s'.logN = s.logN := by rw [h.rest]

theorem adj_eq (h : Frame s s' P Q) : s'.adj = s.adj := by rw [h.rest]

theorem trans (h : Frame s s' P Q) (h' : Frame s' s'' P Q) : Frame s s'' P Q := by
  refine ⟨?_, fun x hx => (h'.kth x hx).trans (h.kth x hx), fun x hx => (h'.depth x hx).trans (h.depth x hx),
    fun x hx => (h'.sizes x hx).trans (h.sizes x hx), fun x hx => (h'.heavy x hx).trans (h.heavy x hx)⟩
  have h1 := h'.rest
  rw [h.rest] at h1
  exact h1

theorem mono (h : Frame s s' P Q) (hP : ∀ w, P w → P' w) (hQ : ∀ w, Q w → Q' w) : Frame s s' P' Q' :=
  ⟨h.rest, fun x hx => h.kth x fun w hw => hx w (hP w hw), fun x hx => h.depth x fun w hw => hx w (hP w hw),
    fun x hx => h.sizes x fun w hw => hx w (hQ w hw), fun x hx => h.heavy x fun w hw => hx w (hQ w hw)⟩

theorem kth_node (h : Frame s s' P Q) (hw : ¬ P w) : s'.kth w = s.kth w :=
  h.kth _ fun x hx he => hw (by rwa [node_ext he])

theorem depth_node (h : Frame s s' P Q) (hw : ¬ P w) : s'.depth w = s.depth w :=
  h.depth _ fun x hx he => hw (by rwa [node_ext he])

theorem sizes_node (h : Frame s s' P Q) (hw : ¬ Q w) : s'.sizes w = s.sizes w :=
  h.sizes _ fun x hx he => hw (by rwa [node_ext he])

theorem heavy_node (h : Frame s s' P Q) (hw : ¬ Q w) : s'.heavy w = s.heavy w :=
  h.heavy _ fun x hx he => hw (by rwa [node_ext he])

theorem zeroRow (h : Frame s s' P Q) (hr : ¬ P A.root) : s'.ZeroRow ↔ s.ZeroRow := by
  have hk := h.kth_node hr
  rw [A.coe_root] at hk
  rw [ZeroRow, ZeroRow, hk, h.logN_eq]

theorem depth_zero (h : Frame s s' P Q) (hr : ¬ P A.root) : s'.depth 0 = s.depth 0 := h.depth_node hr

theorem rowOk (h : Frame s s' P Q) (hr : ¬ P A.root) (hw : ¬ P w) (hok : RowOk A s w) : RowOk A s' w := by
  intro i hi hor
  rw [h.kth_node hw]
  rw [h.logN_eq] at hi
  rw [h.zeroRow hr] at hor
  exact hok i hi hor

theorem finished (h : Frame s s' P Q) (hr : ¬ P A.root) (hP : ¬ P w) (hQ : ¬ Q w) (hf : Finished A s w) :
    Finished A s' w := by
  refine ⟨?_, ?_, h.rowOk hr hP hf.row, ?_⟩
  · rw [h.sizes_node hQ, hf.sizes]
  · rw [h.heavy_node hQ, hf.heavy]
  · rw [h.depth_node hP, h.depth_zero hr, hf.depth]

/-- a closed set stays closed when no row in it changes -/
theorem closed (h : Frame s s' P Q) (hD : Closed s D) (hP : ∀ w ∈ D, ¬ P w) : Closed s' D := by
  intro x hx i hi
  rw [h.kth_node (hP x hx)]
  rw [h.logN_eq] at hi
  exact hD x hx i hi

end Frame

/-- a write to the size and the heavy child of one node -/
theorem Frame.of_write (s : Hld) (v : Fin n) (a b : ℤ) : Frame s { s with
    sizes := Function.update s.sizes v a, heavy := Function.update s.heavy v b }
    (fun _ : Fin n => False) (fun w => w = v) :=
  ⟨rfl, fun _ _ => rfl, fun _ _ => rfl, fun _ hx => Function.update_of_ne (hx v rfl) _ _,
    fun _ hx => Function.update_of_ne (hx v rfl) _ _⟩

/-! ## The parts of the loop body -/

/-- the state in which `dfs v` is called -/
structure Entered (A : AdjTree n) (s : Hld) (D : Set (Fin n)) (v : Fin n) : Prop where
  n_eq : s.n = n
  adj_eq : s.adj = A.adj
  logN_pos : 1 < n → 0 < s.logN
  closed : Closed s D
  mem : v ∈ D
  rows : ∀ w, A.rooted.Anc w v → RowOk A s w
  depth : s.depth v = s.depth 0 + A.rooted.depth v

theorem Entered.kth_parent (h : Entered A s D v) (hv : v ≠ A.root) : s.kth v 0 = (A.rooted.parent v : ℕ) := by
  exact h.rows v (Anc.refl _ v) 0 (h.logN_pos (one_lt_of_ne hv)) (Or.inl (A.rooted.depth_pos hv))

/-- with two nodes the cell tested in the loop is in the table -/
theorem Entered.readKth_zero (h : Entered A s D v) (hn : 1 < n) : readKth s v 0 = .ok (s.kth v 0) :=
  readKth_node h.n_eq v (i := 0) (h.logN_pos hn)

/-- below the root it holds no child -/
theorem Entered.not_child (h : Entered A s D v) (hv : v ≠ A.root) : ∀ u ∈ A.rooted.children v, s.kth v 0 ≠ (u : ℕ) := by
  intro u hu he
  rw [h.kth_parent hv] at he
  exact child_ne_parent hu (node_ext he).symm

/-- the table has columns when some node has a child -/
theorem Entered.logN_child (h : Entered A s D v) (hu : u ∈ A.rooted.children v) : 0 < s.logN :=
  h.logN_pos (one_lt_of_ne (A.rooted.ne_root_of_child hu))

/-- the contents of the row of the child `u` of `v` once it is filled: its parent, then the doubling recurrence -/
structure ChildRow (s : Hld) (D : Set (Fin n)) (v u : Fin n) (row : ℤ → ℤ) : Prop where
  first : row 0 = (v : ℕ)
  mem : ∀ i : ℕ, i < s.logN → ∃ y ∈ D, row i = (y : ℕ)
  next : ∀ i : ℕ, i + 1 < s.logN → row (i + 1) = Function.update s.kth u row (row i) i

/-- a child is not its own ancestor at distance `2 ^ i` -/
theorem up_pow_ne (hu : u ∈ A.rooted.children v) (i : ℕ) : A.rooted.up (2 ^ i) u ≠ u := by
  intro he
  have h1 := A.rooted.depth_pos (A.rooted.ne_root_of_child hu)
  have h2 := Nat.two_pow_pos i
  have h3 := A.rooted.depth_up (2 ^ i) u
  rw [he] at h3
  omega

/-- so that ancestor is the parent or above it -/
theorem anc_up_pow (hu : u ∈ A.rooted.children v) (i : ℕ) : A.rooted.Anc (A.rooted.up (2 ^ i) u) v :=
  A.rooted.parent_of_child hu ▸ (Anc.of_up _ _ _).anc_parent (up_pow_ne hu i)

/-- **The row of a child while it is filled.** After `kth[u][0] = v` and the columns up to `m`, the row of `u` starts with
`v` and follows the doubling recurrence that far. -/
theorem fillChild_run (h : Entered A s D v) (hu : u ∈ A.rooted.children v) (m : ℕ) (hm : m < s.logN) :
    ∃ (s₁ : Hld) (row : ℤ → ℤ), writeKth s u 0 v = .ok s₁ ∧ s₁.logN = s.logN ∧
      fillRow u m s₁ = .ok { s with kth := Function.update s.kth u row } ∧ row 0 = (v : ℕ) ∧
      (∀ i : ℕ, i ≤ m → ∃ y ∈ D, row i = (y : ℕ)) ∧
      ∀ i : ℕ, i < m → row (i + 1) = Function.update s.kth u row (row i) i := by
  have hlog := h.logN_child hu
  obtain ⟨s₁, hs₁⟩ : ∃ s₁, s₁ = { s with kth := Function.update s.kth u (Function.update (s.kth u) 0 (v : ℕ)) } :=
    ⟨_, rfl⟩
  have hwrite : writeKth s u 0 (v : ℕ) = .ok s₁ := by
    have := writeKth_node h.n_eq u (i := 0) hlog (v : ℕ)
    rw [hs₁]
    exact this
  have hn₁ : s₁.n = n := by
    rw [hs₁]
    exact h.n_eq
  have hlog₁ : s₁.logN = s.logN := by rw [hs₁]
  have hfirst : s₁.kth u 0 = (v : ℕ) := by rw [hs₁]; simp
  have hcells : ∀ (x : Fin n) (i : ℕ), x ≠ u ∨ i ≠ 0 → s₁.kth x i = s.kth x i := by
    intro x i hxi
    rw [hs₁]
    by_cases hx : x = u
    · simp [hx, hxi.resolve_left (not_not.2 hx)]
    · exact congrFun (Function.update_of_ne (by omega) _ _) _
  have hclosed : Closed s₁ D := by
    intro x hx i hi
    by_cases hxi : x ≠ u ∨ i ≠ 0
    · rw [hcells x i hxi]
      exact h.closed x hx i (hlog₁ ▸ hi)
    · obtain ⟨rfl, rfl⟩ : x = u ∧ i = 0 := by simpa using hxi
      exact ⟨v, h.mem, hfirst⟩
  obtain ⟨row, hfill, hrow0, hmem, hrec⟩ := fillRow_spec hn₁ hclosed u ⟨v, h.mem, hfirst⟩ m (by omega)
  have hkth : Function.update s₁.kth u row = Function.update s.kth u row := by rw [hs₁, Function.update_idem]
  refine ⟨s₁, row, hwrite, hlog₁, ?_, hrow0.trans hfirst, hmem, fun i hi => ?_⟩
  · rw [hfill, hkth, hs₁]
  · rw [hrec i hi, hkth]

/-- the statements of `enterChild` write the row and the depth of the child -/
theorem enterChild_run (h : Entered A s D v) (hu : u ∈ A.rooted.children v) :
    ∃ row, ChildRow s D v u row ∧ enterChild v s u = .ok { s with
      kth := Function.update s.kth u row, depth := Function.update s.depth u (s.depth v + 1) } := by
  have hlog := h.logN_child hu
  obtain ⟨s₁, row, hwrite, hlog₁, hfill, hrow0, hmem, hrec⟩ := fillChild_run h hu (s.logN - 1) (by omega)
  have hread : ∀ {m : ℕ} {a : ℤ → ℤ}, m = n → readCell m a v = .ok (a v) := fun hm => readCell_node hm v
  refine ⟨row, ⟨hrow0, fun i hi => hmem i (by omega), fun i hi => hrec i (by omega)⟩, ?_⟩
  unfold enterChild
  rw [hwrite, ok_bind, hlog₁, hfill, ok_bind]
  simp only [hread h.n_eq, ok_bind, writeCell_node h.n_eq u]
  rfl

/-- a row of `u` that starts with the parent and follows the doubling recurrence holds the ancestors of `u`, when the
rows above it do -/
theorem row_up {row : ℤ → ℤ} {m : ℕ} (hm : m < s.logN) (hfirst : row 0 = (v : ℕ))
    (hnext : ∀ i : ℕ, i < m → row (i + 1) = Function.update s.kth u row (row i) i) (hu : u ∈ A.rooted.children v)
    (hrows : ∀ w, A.rooted.Anc w v → RowOk A s w) (i : ℕ) (hi : i ≤ m)
    (hor : 2 ^ i ≤ A.rooted.depth u ∨ s.ZeroRow) : row i = (A.rooted.up (2 ^ i) u : ℕ) := by
  have hpar : A.rooted.parent u = v := A.rooted.parent_of_child hu
  induction i with
  | zero =>
    rw [Nat.cast_zero, hfirst, pow_zero, ← hpar]
    rfl
  | succ i ih =>
    -- column `i + 1` comes from the row of the ancestor at distance `2 ^ i`
    have hor' : 2 ^ i ≤ A.rooted.depth u ∨ s.ZeroRow :=
      hor.imp (fun hle => le_trans (Nat.pow_le_pow_right (by omega) (by omega)) hle) id
    have hcell := ih (by omega) hor'
    have hdepth := A.rooted.depth_up (2 ^ i) u
    have hne := up_pow_ne hu i
    have hanc := anc_up_pow hu i
    have hor₂ : 2 ^ i ≤ A.rooted.depth (A.rooted.up (2 ^ i) u) ∨ s.ZeroRow := by
      refine hor.imp (fun hle => ?_) id
      rw [pow_succ] at hle
      omega
    calc row ((i + 1 : ℕ) : ℤ) = s.kth (A.rooted.up (2 ^ i) u : ℕ) i := by
          rw [Nat.cast_succ, hnext i (by omega), hcell, Function.update_of_ne (by omega)]
      _ = (A.rooted.up (2 ^ i) (A.rooted.up (2 ^ i) u) : ℕ) := hrows _ hanc i (by omega) hor₂
      _ = (A.rooted.up (2 ^ (i + 1)) u : ℕ) := by rw [← up_add, ← two_mul, ← pow_succ']

theorem ChildRow.up {row : ℤ → ℤ} (h : ChildRow s D v u row) (hu : u ∈ A.rooted.children v)
    (hrows : ∀ w, A.rooted.Anc w v → RowOk A s w) (i : ℕ) (hi : i < s.logN)
    (hor : 2 ^ i ≤ A.rooted.depth u ∨ s.ZeroRow) : row i = (A.rooted.up (2 ^ i) u : ℕ) :=
  row_up (m := s.logN - 1) (by omega) h.first (fun i hi => h.next i (by omega)) hu hrows i (by omega) hor

/-- **Entering a child.** The row and the depth of the child are written, and nothing else. -/
theorem enterChild_spec (h : Entered A s D v) (hu : u ∈ A.rooted.children v) :
    ∃ s', enterChild v s u = .ok s' ∧ Frame s s' (· = u) (fun _ => False) ∧ Entered A s' (insert u D) u := by
  obtain ⟨row, hrow, hrun⟩ := enterChild_run h hu
  obtain ⟨s', hs'⟩ : ∃ s', s' = ({ s with
      kth := Function.update s.kth u row, depth := Function.update s.depth u (s.depth v + 1) } : Hld) := ⟨_, rfl⟩
  rw [← hs'] at hrun
  have hframe : Frame s s' (· = u) (fun _ => False) := by
    refine ⟨by rw [hs'], fun x hx => ?_, fun x hx => ?_, fun x _ => by rw [hs'], fun x _ => by rw [hs']⟩
    · rw [hs']
      exact Function.update_of_ne (hx u rfl) _ _
    · rw [hs']
      exact Function.update_of_ne (hx u rfl) _ _
  have hkth : s'.kth u = row := by rw [hs']; exact Function.update_self _ _ _
  have hroot : ¬ (A.root = u) := fun he => A.rooted.ne_root_of_child hu he.symm
  refine ⟨s', hrun, hframe, hframe.n_eq.trans h.n_eq, hframe.adj_eq.trans h.adj_eq, fun hn => ?_, ?_,
    Set.mem_insert _ _, ?_, ?_⟩
  · rw [hframe.logN_eq]
    exact h.logN_pos hn
  · -- the new row is in `D`, and a row of `D` is the old or the new one
    intro x hx i hi
    rw [hframe.logN_eq] at hi
    obtain ⟨y, hy, hk⟩ : ∃ y ∈ D, s'.kth x i = (y : ℕ) := by
      by_cases hxu : x = u
      · rw [hxu, hkth]
        exact hrow.mem i hi
      · rw [hframe.kth_node (w := x) hxu]
        exact h.closed x ((Set.mem_insert_iff.1 hx).resolve_left hxu) i hi
    exact ⟨y, Set.mem_insert_of_mem _ hy, hk⟩
  · intro w hw
    by_cases hwu : w = u
    · intro i hi hor
      rw [hframe.logN_eq] at hi
      rw [hframe.zeroRow hroot] at hor
      rw [hwu] at hor ⊢
      rw [hkth]
      exact hrow.up hu h.rows i hi hor
    · have hwv : A.rooted.Anc w v := A.rooted.parent_of_child hu ▸ hw.anc_parent hwu
      exact hframe.rowOk hroot hwu (h.rows w hwv)
  · have hdepth : s'.depth u = s.depth v + 1 := by rw [hs']; exact Function.update_self _ _ _
    rw [hframe.depth_zero hroot, hdepth, h.depth, A.rooted.depth_of_child hu, Nat.cast_succ]
    ring

/-- the test of `isHeavier` decides whether `u` replaces the heavy child so far -/
theorem isHeavier_spec (hn : s.n = n) {best : Option (Fin n)} (hu : s.sizes u = A.rooted.size u)
    (hbest : s.heavy v = heavyId best) (hsize : ∀ c, best = some c → s.sizes c = A.rooted.size c) :
    ∃ b, isHeavier s v u = .ok b ∧ A.rooted.heavier best u = if b then some u else best := by
  unfold isHeavier
  rw [readCell_node hn v, ok_bind, hbest]
  cases best with
  | none => exact ⟨true, rfl, rfl⟩
  | some c =>
    refine ⟨decide (A.rooted.size c < A.rooted.size u), ?_, by simp [heavier]⟩
    rw [heavyId, if_neg (by omega), readCell_node hn u, ok_bind, readCell_node hn c, ok_bind, hu, hsize c rfl]
    simp only [gt_iff_lt, Nat.cast_lt]
    rfl

/-- **Folding in a child.** The size of the child is added, and the better of the heavy child so far and the new child is
kept. -/
theorem foldChild_spec (hn : s.n = n) {best : Option (Fin n)} (huv : u ≠ v) (hu : s.sizes u = A.rooted.size u)
    (hbest : s.heavy v = heavyId best) (hsize : ∀ c, best = some c → c ≠ v ∧ s.sizes c = A.rooted.size c) :
    foldChild v s u = .ok { s with
      sizes := Function.update s.sizes v (s.sizes v + A.rooted.size u),
      heavy := Function.update s.heavy v (heavyId (A.rooted.heavier best u)) } := by
  obtain ⟨t, ht⟩ : ∃ t : Hld, t = { s with sizes := Function.update s.sizes v (s.sizes v + A.rooted.size u) } :=
    ⟨_, rfl⟩
  have hnt : t.n = n := by rw [ht]; exact hn
  have hheavy : t.heavy v = heavyId best := by rw [ht]; exact hbest
  have hsizes : ∀ c : Fin n, c ≠ v → t.sizes c = s.sizes c := by
    intro c hc
    rw [ht]
    exact Function.update_of_ne (by omega) _ _
  have hstart : foldChild v s u = (do
      if ← isHeavier t v u then
        let heavy ← writeCell t.n t.heavy v u
        return { t with heavy := heavy }
      else return t) := by
    unfold foldChild
    rw [readCell_node hn v, ok_bind, readCell_node hn u, ok_bind, writeCell_node hn v, ok_bind, hu, ht]
  obtain ⟨b, htest, hb⟩ := isHeavier_spec (A := A) hnt ((hsizes u huv).trans hu) hheavy fun c hc => by
    rw [hsizes c (hsize c hc).1, (hsize c hc).2]
  rw [hstart, htest, ok_bind, hb]
  cases b with
  | true =>
    rw [if_pos rfl, if_pos rfl, writeCell_node hnt v, ok_bind, ht]
    rfl
  | false =>
    have hsame : Function.update s.heavy v (heavyId best) = s.heavy := by rw [← hbest, Function.update_eq_self]
    rw [if_neg (by simp), if_neg (by simp), hsame, ht]
    rfl

/-! ## The loop over the neighbours -/

/-- what a call of `dfs v` does -/
def DfsSpec (A : AdjTree n) (v : Fin n) : Prop :=
  ∀ (s : Hld) (D : Set (Fin n)), Entered A s D v → (∀ u ∈ A.rooted.children v, s.kth v 0 ≠ (u : ℕ)) →
    ∃ s', Returns (fun k => dfs k v s) s' ∧
      Frame s s' (fun w => A.rooted.Anc v w ∧ w ≠ v) (fun w => A.rooted.Anc v w) ∧
      (∀ w, A.rooted.Anc v w → Finished A s' w) ∧ Closed s' (D ∪ {w | A.rooted.Anc v w})

/-- the state of the loop of `dfs v`, called in state `s₀`, once the children in `pre` are done -/
structure LoopInv (A : AdjTree n) (s₀ s : Hld) (D : Set (Fin n)) (v : Fin n) (pre : List (Fin n)) : Prop where
  children : ∀ c ∈ pre, c ∈ A.rooted.children v
  frame : Frame s₀ s (fun w => ∃ c ∈ pre, A.rooted.Anc c w) (fun w => w = v ∨ ∃ c ∈ pre, A.rooted.Anc c w)
  sizes : s.sizes v = 1 + ((pre.map A.rooted.size).sum : ℕ)
  heavy : s.heavy v = heavyId (A.rooted.heavyOf pre)
  finished : ∀ c ∈ pre, ∀ w, A.rooted.Anc c w → Finished A s w
  closed : Closed s (D ∪ {w | ∃ c ∈ pre, A.rooted.Anc c w})

variable {s₀ : Hld} {pre : List (Fin n)}

theorem LoopInv.not_below (h : LoopInv A s₀ s D v pre) (hw : A.rooted.Anc w v) :
    ¬ ∃ c ∈ pre, A.rooted.Anc c w := by
  intro hcase
  obtain ⟨c, hc, hcw⟩ := hcase
  exact not_anc_of_child (h.children c hc) (hcw.trans hw)

theorem LoopInv.entered (h : LoopInv A s₀ s D v pre) (he : Entered A s₀ D v) :
    Entered A s (D ∪ {w | ∃ c ∈ pre, A.rooted.Anc c w}) v := by
  have hroot : ¬ ∃ c ∈ pre, A.rooted.Anc c A.root := h.not_below (Anc.root A.rooted v)
  refine ⟨h.frame.n_eq.trans he.n_eq, h.frame.adj_eq.trans he.adj_eq, ?_, h.closed, Or.inl he.mem, ?_, ?_⟩
  · rw [h.frame.logN_eq]; exact he.logN_pos
  · intro w hw
    exact h.frame.rowOk hroot (h.not_below hw) (he.rows w hw)
  · rw [h.frame.depth_node (h.not_below (Anc.refl _ v)), h.frame.depth_zero hroot, he.depth]

/-- the nodes below the children in `pre` and below `u`, once `u` is done -/
theorem below_concat (D : Set (Fin n)) (pre : List (Fin n)) (u : Fin n) :
    insert u (D ∪ {w | ∃ c ∈ pre, A.rooted.Anc c w}) ∪ {w | A.rooted.Anc u w} =
      D ∪ {w | ∃ c ∈ pre ++ [u], A.rooted.Anc c w} := by
  ext w
  simp only [Set.mem_union, Set.mem_insert_iff, Set.mem_ofPred_eq, List.mem_append, List.mem_singleton]
  refine ⟨?_, ?_⟩
  · intro hcase
    rcases hcase with (rfl | hw | ⟨c, hc, hcw⟩) | hw
    · exact Or.inr ⟨w, Or.inr rfl, Anc.refl _ _⟩
    · exact Or.inl hw
    · exact Or.inr ⟨c, Or.inl hc, hcw⟩
    · exact Or.inr ⟨u, Or.inr rfl, hw⟩
  · intro hcase
    rcases hcase with hw | ⟨c, hc | rfl, hcw⟩
    · exact Or.inl (Or.inr (Or.inl hw))
    · exact Or.inl (Or.inr (Or.inr ⟨c, hc, hcw⟩))
    · exact Or.inr hcw

/-- the children stay finished while the subtree of the next child `u` is searched -/
theorem LoopInv.finished_concat (h : LoopInv A s₀ s D v pre) (hu : u ∈ A.rooted.children v) (hpre : u ∉ pre)
    (hf : Frame s s' (fun w => A.rooted.Anc u w) (fun w => A.rooted.Anc u w))
    (hfin : ∀ w, A.rooted.Anc u w → Finished A s' w) :
    ∀ c ∈ pre ++ [u], ∀ w, A.rooted.Anc c w → Finished A s' w := by
  intro c hc w hcw
  have hroot : ¬ A.rooted.Anc u A.root := fun hr => A.rooted.ne_root_of_child hu (anc_root_iff.1 hr)
  rcases List.mem_append.1 hc with hc | hc
  · -- nodes below a finished child are not below `u`
    have hnot : ¬ A.rooted.Anc u w := fun huw => hpre (child_unique hu (h.children c hc) huw hcw ▸ hc)
    exact hf.finished hroot hnot hnot (h.finished c hc w hcw)
  · rw [List.mem_singleton.1 hc] at hcw
    exact hfin w hcw

/-- the heavy child among finished children has its size -/
theorem best_size (hchild : ∀ c ∈ pre, c ∈ A.rooted.children v) (hfin : ∀ c ∈ pre, ∀ w, A.rooted.Anc c w → Finished A s w)
    {c : Fin n} (hc : A.rooted.heavyOf pre = some c) : c ≠ v ∧ s.sizes c = A.rooted.size c := by
  rcases A.rooted.heavyOf_spec pre with ⟨hnone, -⟩ | ⟨d, hd, hsome, -⟩
  · rw [hnone] at hc
    cases hc
  · obtain rfl : d = c := Option.some.inj (hsome.symm.trans hc)
    refine ⟨?_, (hfin d hd d (Anc.refl _ _)).sizes⟩
    intro he
    exact not_anc_of_child (hchild d hd) (he ▸ Anc.refl _ _)

/-- **Folding in the next child** `u`, from the state in which its subtree is finished. -/
theorem LoopInv.fold (h : LoopInv A s₀ s D v pre) (hu : u ∈ A.rooted.children v) (hpre : u ∉ pre) (hn : s.n = n)
    (hf : Frame s s' (fun w => A.rooted.Anc u w) (fun w => A.rooted.Anc u w))
    (hfin : ∀ w, A.rooted.Anc u w → Finished A s' w)
    (hD : Closed s' (insert u (D ∪ {w | ∃ c ∈ pre, A.rooted.Anc c w}) ∪ {w | A.rooted.Anc u w})) :
    ∃ s'', foldChild v s' u = .ok s'' ∧ LoopInv A s₀ s'' D v (pre ++ [u]) := by
  have hvu : ¬ A.rooted.Anc u v := not_anc_of_child hu
  have huv : u ≠ v := fun he => hvu (he ▸ Anc.refl _ _)
  have hall := h.finished_concat hu hpre hf hfin
  have hchildren : ∀ c ∈ pre ++ [u], c ∈ A.rooted.children v := by
    intro c hc
    rcases List.mem_append.1 hc with hc | hc
    · exact h.children c hc
    · rw [List.mem_singleton.1 hc]
      exact hu
  have hheavy : s'.heavy v = heavyId (A.rooted.heavyOf pre) := by rw [hf.heavy_node hvu, h.heavy]
  have hsizes : s'.sizes v = 1 + ((pre.map A.rooted.size).sum : ℕ) := by rw [hf.sizes_node hvu, h.sizes]
  have hfold := foldChild_spec (A := A) (hf.n_eq.trans hn) huv (hfin u (Anc.refl _ _)).sizes hheavy
    fun c hc => best_size h.children (fun c hc => hall c (List.mem_append_left _ hc)) hc
  obtain ⟨s'', hs''⟩ : ∃ s'', s'' = ({ s' with
      sizes := Function.update s'.sizes v (s'.sizes v + A.rooted.size u),
      heavy := Function.update s'.heavy v (heavyId (A.rooted.heavier (A.rooted.heavyOf pre) u)) } : Hld) := ⟨_, rfl⟩
  rw [← hs''] at hfold
  have hf' : Frame s' s'' (fun _ : Fin n => False) (fun w => w = v) := by
    rw [hs'']
    exact Frame.of_write s' v _ _
  refine ⟨s'', hfold, hchildren, ?_, ?_, ?_, ?_, ?_⟩
  · refine (h.frame.mono ?_ ?_).trans ((hf.mono ?_ ?_).trans (hf'.mono (fun _ => False.elim) fun _ => Or.inl))
    · intro w hcase
      obtain ⟨c, hc, hcw⟩ := hcase
      exact ⟨c, List.mem_append_left _ hc, hcw⟩
    · rintro w (hw | ⟨c, hc, hcw⟩)
      · exact Or.inl hw
      · exact Or.inr ⟨c, List.mem_append_left _ hc, hcw⟩
    · intro w hw
      exact ⟨u, by simp, hw⟩
    · intro w hw
      exact Or.inr ⟨u, by simp, hw⟩
  · rw [hs'']
    simp only [Function.update_self, hsizes, List.map_append, List.sum_append, List.map_singleton,
      List.sum_singleton, Nat.cast_add]
    ring
  · rw [hs'', heavyOf_concat]
    exact Function.update_self _ _ _
  · intro c hc w hcw
    have hwv : ¬ w = v := fun he => not_anc_of_child (hchildren c hc) (he ▸ hcw)
    exact hf'.finished (fun h => h) (fun h => h) hwv (hall c hc w hcw)
  · rw [← below_concat]
    exact hf'.closed hD fun _ _ h => h

/-- **One child.** The loop body on a child that is not done yet finishes its subtree. -/
theorem dfsChild_spec (h : LoopInv A s₀ s D v pre) (he : Entered A s₀ D v) (hu : u ∈ A.rooted.children v)
    (hpre : u ∉ pre) (hk : s₀.kth v 0 ≠ (u : ℕ)) (hspec : DfsSpec A u) :
    ∃ s', Returns (fun k => dfsChild (dfs k) v s u) s' ∧ LoopInv A s₀ s' D v (pre ++ [u]) := by
  have hev := h.entered he
  -- the three calls of the loop body
  obtain ⟨s₁, hs₁, hf₁, he₁⟩ := enterChild_spec hev hu
  obtain ⟨s₂, hs₂, hf₂, hfin₂, hD₂⟩ := hspec s₁ _ he₁ (he₁.not_child (A.rooted.ne_root_of_child hu))
  have hf₁₂ : Frame s s₂ (fun w => A.rooted.Anc u w) (fun w => A.rooted.Anc u w) :=
    (hf₁.mono (fun w hw => hw ▸ Anc.refl _ _) (fun _ => False.elim)).trans
      (hf₂.mono (fun w hw => hw.1) (fun _ => id))
  obtain ⟨s₃, hs₃, hinv⟩ := h.fold hu hpre hev.n_eq hf₁₂ hfin₂ hD₂
  have hread : readKth s v 0 = .ok (s.kth v 0) :=
    hev.readKth_zero (one_lt_of_ne (A.rooted.ne_root_of_child hu))
  have hrun : ∀ k, dfsChild (dfs k) v s u = dfs k u s₁ >>= fun s => foldChild v s u := by
    intro k
    unfold dfsChild
    rw [hread, ok_bind, h.frame.kth_node (h.not_below (Anc.refl _ v)), if_pos (Ne.symm hk), hs₁, ok_bind]
  exact ⟨s₃, Returns.congr (hs₂.bind (Returns.of_forall fun _ => hs₃)) hrun, hinv⟩

/-- **The loop.** Over neighbours `us`, all those other than `kth[v][0]` are finished in turn. -/
theorem loop_spec (he : Entered A s₀ D v) (us : List (Fin n)) (hspec : ∀ u ∈ us, u ∈ A.rooted.children v → DfsSpec A u)
    (hus : ∀ u ∈ us, s₀.kth v 0 ≠ (u : ℕ) → u ∈ A.rooted.children v) (hne : ∀ u ∈ us, u ≠ v) (hnodup : us.Nodup) :
    ∀ (s : Hld) (pre : List (Fin n)), (∀ u ∈ us, u ∉ pre) → LoopInv A s₀ s D v pre →
      ∃ s', Returns (fun k => (us.map fun u : Fin n => ((u : ℕ) : ℤ)).foldlM (dfsChild (dfs k) v) s) s' ∧
        LoopInv A s₀ s' D v (pre ++ us.filter fun u : Fin n => s₀.kth v 0 ≠ (u : ℕ)) := by
  induction us with
  | nil =>
    intro s pre _ h
    exact ⟨s, Returns.foldlM_nil, by simpa using h⟩
  | cons u us ih =>
    intro s pre hpre h
    have ih' := ih (fun x hx => hspec x (List.mem_cons_of_mem _ hx)) (fun x hx => hus x (List.mem_cons_of_mem _ hx))
      (fun x hx => hne x (List.mem_cons_of_mem _ hx)) (List.nodup_cons.1 hnodup).2
    by_cases hk : s₀.kth v 0 = (u : ℕ)
    · -- the neighbour in `kth[v][0]` is skipped
      obtain ⟨s', hs', hinv⟩ := ih' s pre (fun x hx => hpre x (List.mem_cons_of_mem _ hx)) h
      have hread : readKth s v 0 = .ok (s.kth v 0) :=
        (h.entered he).readKth_zero (one_lt_of_ne (hne u List.mem_cons_self))
      have hskip : ∀ k, dfsChild (dfs k) v s u = .ok s := by
        intro k
        unfold dfsChild
        rw [hread, ok_bind, h.frame.kth_node (h.not_below (Anc.refl _ v)), hk, if_neg (by simp)]
        rfl
      refine ⟨s', Returns.foldlM_cons (Returns.of_forall hskip) hs', ?_⟩
      rw [List.filter_cons, if_neg (by simpa using hk)]
      exact hinv
    · have hu := hus u List.mem_cons_self hk
      obtain ⟨s₁, hs₁, h₁⟩ := dfsChild_spec h he hu (hpre u List.mem_cons_self) hk (hspec u List.mem_cons_self hu)
      have hpre₁ : ∀ x ∈ us, x ∉ pre ++ [u] := by
        intro x hx hmem
        rcases List.mem_append.1 hmem with hmem | hmem
        · exact hpre x (List.mem_cons_of_mem _ hx) hmem
        · rw [List.mem_singleton.1 hmem] at hx
          exact (List.nodup_cons.1 hnodup).1 hx
      obtain ⟨s', hs', hinv⟩ := ih' s₁ (pre ++ [u]) hpre₁ h₁
      refine ⟨s', Returns.foldlM_cons hs₁ hs', ?_⟩
      rw [List.filter_cons, if_pos (by simpa using hk)]
      simpa using hinv

/-! ## The whole search -/

theorem initNode_run (hn : s.n = n) (v : Fin n) : initNode v s = .ok { s with
    sizes := Function.update s.sizes v 1, heavy := Function.update s.heavy v (-1) } := by
  unfold initNode
  rw [writeCell_node hn v, ok_bind, writeCell_node hn v, ok_bind]
  rfl

/-- the first two statements of `dfs v` start the loop -/
theorem initNode_spec (he : Entered A s D v) : ∃ s₁, initNode v s = .ok s₁ ∧ LoopInv A s s₁ D v [] := by
  obtain ⟨s₁, hs₁⟩ : ∃ s₁, s₁ = ({ s with
      sizes := Function.update s.sizes v 1, heavy := Function.update s.heavy v (-1) } : Hld) := ⟨_, rfl⟩
  have hinit : initNode v s = .ok s₁ := by rw [initNode_run he.n_eq v, hs₁]
  have hf : Frame s s₁ (fun _ : Fin n => False) (fun w => w = v) := by
    rw [hs₁]
    exact Frame.of_write s v _ _
  refine ⟨s₁, hinit, by simp, hf.mono (fun _ => False.elim) (fun _ => Or.inl), ?_, ?_, by simp, ?_⟩
  · rw [hs₁]; simp
  · rw [hs₁]; exact Function.update_self _ _ _
  · exact hf.closed (by simpa using he.closed) fun _ _ h => h

theorem LoopInv.adj (h : LoopInv A s₀ s D v pre) (he : Entered A s₀ D v) :
    readCell s.n s.adj v = .ok ((A.nbrs v).map fun u : Fin n => ((u : ℕ) : ℤ)) := by
  rw [readCell_node (h.frame.n_eq.trans he.n_eq) v, h.frame.adj_eq, he.adj_eq, A.adj_coe]

/-- a neighbour other than `kth[v][0]` is a child -/
theorem Entered.child_of_nbr (he : Entered A s D v) (hu : u ∈ A.nbrs v) (hk : s.kth v 0 ≠ (u : ℕ)) :
    u ∈ A.rooted.children v := by
  rcases A.nbr_cases hu with hc | ⟨hv, rfl⟩
  · exact hc
  · exact absurd (he.kth_parent hv) hk

/-- **A call of `dfs v`**, given what the calls for the children do: it runs the loop to the end of the neighbours. -/
theorem dfs_loop (he : Entered A s D v) (hspec : ∀ u ∈ A.rooted.children v, DfsSpec A u) :
    ∃ s', Returns (fun k => dfs k v s) s' ∧
      LoopInv A s s' D v ((A.nbrs v).filter fun u : Fin n => s.kth v 0 ≠ (u : ℕ)) := by
  obtain ⟨s₁, hinit, hinv₁⟩ := initNode_spec he
  obtain ⟨s', hs', hinv⟩ := loop_spec he (A.nbrs v) (fun u _ => hspec u) (fun _ => he.child_of_nbr)
    (fun _ => A.ne_of_nbr) (A.nodup v) s₁ [] (by simp) hinv₁
  refine ⟨s', Returns.succ (Returns.congr hs' fun k => ?_), hinv⟩
  rw [dfs, hinit, ok_bind, hinv₁.adj he, ok_bind]

/-- once all children are done, everything below `v` is finished -/
theorem LoopInv.done (h : LoopInv A s₀ s D v (A.rooted.children v)) (he : Entered A s₀ D v) :
    Frame s₀ s (fun w => A.rooted.Anc v w ∧ w ≠ v) (fun w => A.rooted.Anc v w) ∧
      (∀ w, A.rooted.Anc v w → Finished A s w) ∧ Closed s (D ∪ {w | A.rooted.Anc v w}) := by
  have hev := h.entered he
  refine ⟨h.frame.mono ?_ ?_, ?_, ?_⟩
  · intro w hcase
    obtain ⟨c, hc, hcw⟩ := hcase
    refine ⟨(Anc.of_child hc).trans hcw, ?_⟩
    rintro rfl
    exact not_anc_of_child hc hcw
  · rintro w (rfl | ⟨c, hc, hcw⟩)
    · exact Anc.refl _ _
    · exact (Anc.of_child hc).trans hcw
  · intro w hw
    rcases anc_iff_child.1 hw with rfl | ⟨c, hc, hcw⟩
    · refine ⟨?_, h.heavy, hev.rows v (Anc.refl _ v), hev.depth⟩
      rw [h.sizes, A.rooted.size_eq v, Nat.cast_add, Nat.cast_one]
    · exact h.finished c hc w hcw
  · refine fun x hx i hi => ?_
    have hx' : x ∈ D ∪ {w | ∃ c ∈ A.rooted.children v, A.rooted.Anc c w} := by
      rcases hx with hx | hx
      · exact Or.inl hx
      · rcases anc_iff_child.1 hx with rfl | hx
        · exact Or.inl he.mem
        · exact Or.inr hx
    obtain ⟨y, hy, hk⟩ := h.closed x hx' i hi
    refine ⟨y, hy.imp id ?_, hk⟩
    intro hcase
    obtain ⟨c, hc, hcy⟩ := hcase
    exact (Anc.of_child hc).trans hcy

/-- the neighbours that the loop of `dfs v` does not skip are the children -/
theorem Entered.filter_nbrs (he : Entered A s D v) (hv : ∀ u ∈ A.rooted.children v, s.kth v 0 ≠ (u : ℕ)) :
    ((A.nbrs v).filter fun u : Fin n => s.kth v 0 ≠ (u : ℕ)) = A.rooted.children v := by
  rw [A.children_rooted]
  apply List.filter_congr
  intro u hu
  rcases A.nbr_cases hu with hc | ⟨hr, rfl⟩
  · have h1 : u ≠ A.rooted.parent v := by
      rw [A.children_rooted, List.mem_filter] at hc
      exact of_decide_eq_true hc.2
    simp only [h1, hv u hc, ne_eq, not_false_eq_true]
  · simp [he.kth_parent hr]

/-- **What `dfs v` does.** It finishes the nodes below `v` and changes nothing else. -/
theorem dfs_spec (v : Fin n) : DfsSpec A v := by
  refine A.rooted.ascend (fun v ih => ?_) v
  intro s D he hv
  obtain ⟨s', hs', hinv⟩ := dfs_loop he ih
  rw [he.filter_nbrs hv] at hinv
  exact ⟨s', hs', hinv.done he⟩

theorem closed_root (h : ZeroRow s) : Closed s {A.root} := by
  rintro x rfl i hi
  exact ⟨A.root, rfl, h i hi⟩

theorem entered_root (hn : s.n = n) (hadj : s.adj = A.adj) (hlog : 1 < n → 0 < s.logN) (hD : Closed s D)
    (h0 : A.root ∈ D) : Entered A s D A.root := by
  refine ⟨hn, hadj, hlog, hD, h0, ?_, ?_⟩
  · intro w hw i hi hor
    obtain rfl : w = A.root := anc_root_iff.1 hw
    have hdepth : A.rooted.depth A.root = 0 := A.rooted.depth_root
    rw [hdepth] at hor
    have hz : s.ZeroRow := hor.resolve_left (by have := Nat.two_pow_pos i; omega)
    have hup : A.rooted.up (2 ^ i) A.root = A.root := A.rooted.up_root _
    rw [hup]
    exact hz i hi
  · have hdepth : A.rooted.depth A.root = 0 := A.rooted.depth_root
    rw [hdepth]
    simp

/-- **`dfs 0`** from memory in which `kth[0][0]` is no neighbour of node 0: every node is finished. -/
theorem dfs_root (he : Entered A s D A.root) (h0 : ∀ u ∈ A.nbrs A.root, s.kth 0 0 ≠ (u : ℕ)) :
    ∃ s', Returns (fun k => dfs k 0 s) s' ∧ Frame s s' (fun w => w ≠ A.root) (fun _ => True) ∧
      ∀ w, Finished A s' w := by
  obtain ⟨s', hs', hf, hfin, -⟩ := dfs_spec A.root s D he fun u hu => h0 u (A.root_nbr_iff.2 hu)
  exact ⟨s', hs', hf.mono (fun _ h => h.2) fun _ _ => trivial, fun w => hfin w (Anc.root _ w)⟩

/-- **`dfs 0` with a neighbour of node 0 in `kth[0][0]`** never enters that neighbour, and the size it leaves for the root
is too small. -/
theorem dfs_root_skip (he : Entered A s D A.root) {c : Fin n} (hc : c ∈ A.nbrs A.root) (h0 : s.kth 0 0 = (c : ℕ)) :
    ∃ s', Returns (fun k => dfs k 0 s) s' ∧ s'.sizes 0 < n := by
  obtain ⟨s', hs', hinv⟩ := dfs_loop he fun u _ => dfs_spec u
  refine ⟨s', hs', ?_⟩
  have hsize : s'.sizes 0 = 1 + ((((A.nbrs A.root).filter fun u : Fin n => s.kth 0 0 ≠ (u : ℕ)).map
      A.rooted.size).sum : ℕ) := hinv.sizes
  have hsub : ((A.nbrs A.root).filter fun u : Fin n => s.kth 0 0 ≠ (u : ℕ)).Sublist ((A.nbrs A.root).erase c) := by
    rw [(A.nodup A.root).erase_eq_filter]
    apply List.monotone_filter_right _
    intro u hu
    have hu := of_decide_eq_true hu
    rw [bne_iff_ne]
    rintro rfl
    exact hu h0
  have hle := (hsub.map A.rooted.size).sum_le_sum fun _ _ => Nat.zero_le _
  have herase := List.sum_map_erase A.rooted.size hc
  have hall : A.rooted.size A.root = 1 + ((A.nbrs A.root).map A.rooted.size).sum := by
    have hperm : (A.rooted.children A.root).Perm (A.nbrs A.root) :=
      (List.perm_ext_iff_of_nodup (A.rooted.children_nodup _) (A.nodup _)).2 fun u => A.root_nbr_iff.symm
    rw [A.rooted.size_eq A.root, (hperm.map A.rooted.size).sum_eq]
  have hn : A.rooted.size A.root = n := A.rooted.size_root.trans (Fintype.card_fin n)
  have hpos := A.rooted.size_pos c
  omega

end Hld

end HeavyLight
