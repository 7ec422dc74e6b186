/-
Overflow of the sums that `SegmentTree::build` stores, for the values of `generate_random_values`.

- `generateRandomValues`: each value is `rand() % max_val`; `generateRandomValues_iff` says which arrays it can fill.
- `Arith.sums`: every sum of two cells is checked to fit in an `int`; `Arith.ints n` checks index expressions too.
- `newWith_returns_iff`: over cells that are not negative the constructor returns under such checks exactly when the
  total of the array fits. The root holds the total, and no other slot holds more.
- `build_st_overflow_iff`: so `build_st` is free of overflow exactly when the values add up to at most `2 ^ 31 - 1`, in
  whatever order `pos` lays them out. `million_overflows`: a million values of half the largest one do not.
-/
import HeavyLight.IntBounds
import HeavyLight.Preprocess

namespace HeavyLight

open HeapIntervals

/-! ## The values -/

/-- `int max_val = sqrt(__INT32_MAX__)` -/
def maxVal : ℕ := Nat.sqrt (2 ^ 31 - 1)

/-- `generate_random_values(values, n)`, with `rand i` the result of call `i` of `rand()` -/
def generateRandomValues (rand : ℕ → ℕ) (n : ℕ) (values : ℤ → ℤ) : Exec (ℤ → ℤ) :=
  (List.range n).foldlM (fun values (i : ℕ) => writeCell n values i ((rand i % maxVal : ℕ) : ℤ)) values

theorem maxVal_pos : 0 < maxVal := Nat.sqrt_pos.2 (by norm_num)

theorem maxVal_lt : maxVal < 2 ^ 31 := by
  have := Nat.sqrt_le_self (2 ^ 31 - 1)
  unfold maxVal
  omega

/-- the cells written by the first `m` iterations of a loop that stores `val i` in cell `i` -/
theorem fill_loop (val : ℕ → ℤ) (n : ℕ) (values : ℤ → ℤ) (m : ℕ) (hm : m ≤ n) :
    ∃ values', (List.range m).foldlM (fun values (i : ℕ) => writeCell n values i (val i)) values = .ok values' ∧
      (∀ i : ℕ, i < m → values' i = val i) ∧ ∀ x : ℤ, (∀ i : ℕ, i < m → x ≠ i) → values' x = values x := by
  induction m with
  | zero => exact ⟨values, rfl, fun i hi => by omega, fun _ _ => rfl⟩
  | succ m ih =>
    obtain ⟨values', hrun, hset, hkeep⟩ := ih (by omega)
    refine ⟨Function.update values' m (val m), ?_, fun i hi => ?_, fun x hx => ?_⟩
    · rw [List.range_succ, List.foldlM_append, hrun, ok_bind, List.foldlM_cons, writeCell_ok (by omega) (by omega)]
      rfl
    · by_cases him : i = m
      · rw [him, Function.update_self]
      · rw [Function.update_of_ne (by omega), hset i (by omega)]
    · rw [Function.update_of_ne (hx m (by omega)), hkeep x fun i hi => hx i (by omega)]

/-- **The arrays that `generate_random_values` can fill** are those with every value in `[0, max_val - 1]`. -/
theorem generateRandomValues_iff (n : ℕ) (values values' : ℤ → ℤ) :
    (∃ rand, generateRandomValues rand n values = .ok values') ↔
      (∀ i : ℕ, i < n → 0 ≤ values' i ∧ values' i ≤ maxVal - 1) ∧
        ∀ x : ℤ, (∀ i : ℕ, i < n → x ≠ i) → values' x = values x := by
  have hpos := maxVal_pos
  refine ⟨?_, ?_⟩
  · intro hcase
    obtain ⟨rand, hrun⟩ := hcase
    obtain ⟨w, hw, hset, hkeep⟩ := fill_loop (fun i => (rand i % maxVal : ℕ)) n values n le_rfl
    obtain rfl : w = values' := Except.ok.inj (hw.symm.trans hrun)
    refine ⟨fun i hi => ?_, hkeep⟩
    have := Nat.mod_lt (rand i) hpos
    rw [hset i hi]
    omega
  · intro hcase
    obtain ⟨hrange, hsame⟩ := hcase
    obtain ⟨w, hw, hset, hkeep⟩ := fill_loop (fun i => ((values' i).toNat % maxVal : ℕ)) n values n le_rfl
    refine ⟨fun i => (values' i).toNat, hw.trans (congrArg _ ?_)⟩
    funext x
    by_cases hx : ∃ i : ℕ, i < n ∧ x = i
    · obtain ⟨i, hi, rfl⟩ := hx
      obtain ⟨h0, h1⟩ := hrange i hi
      rw [hset i hi, Nat.mod_eq_of_lt (by omega)]
      omega
    · have hout : ∀ i : ℕ, i < n → x ≠ i := fun i hi he => hx ⟨i, hi, he⟩
      rw [hkeep x hout, hsame x hout]

/-! ## Checked sums -/

namespace SegmentTree

/-- exact arithmetic in which every sum of two cells is checked -/
def Arith.sums : Arith ℤ := { (Arith.exact : Arith ℤ) with add := fun a b => checkedInt (a + b) }

/-- arithmetic in which index expressions, slots and sums of two cells are checked -/
def Arith.ints (n : ℤ) : Arith ℤ := { (Arith.machine n : Arith ℤ) with add := fun a b => checkedInt (a + b) }

theorem sums_safeFor (n : ℤ) : Arith.sums.SafeFor n :=
  ⟨rfl, rfl, rfl, fun _ _ _ _ => rfl, fun _ _ _ _ _ => rfl, fun _ _ _ _ _ => rfl, fun _ _ _ _ _ => rfl,
    fun _ _ _ _ _ => rfl⟩

theorem ints_safeFor {n : ℤ} (h0 : 0 < n) (h1 : n < 2 ^ 29) : (Arith.ints n).SafeFor n := by
  obtain ⟨size, slots, last, slot, sum, left, right, next⟩ := machine_safeFor (α := ℤ) h0 h1
  exact ⟨size, slots, last, slot, sum, left, right, next⟩

theorem sums_sound : Arith.sums.Sound :=
  ⟨fun _ _ h => (Except.ok.inj h).symm, fun _ _ h => (Except.ok.inj h).symm, fun _ _ _ h => (checkedInt_eq_ok h).1⟩

theorem machine_sound (n : ℤ) : (Arith.machine n : Arith ℤ).Sound := by
  refine ⟨fun _ _ h => (checkedInt_eq_ok h).1, fun x y h => ?_, fun _ _ _ h => (Except.ok.inj h).symm⟩
  have hslot : (if 1 ≤ x ∧ x < 4 * n then (.ok x : Exec ℤ) else .error .outOfBounds) = .ok y := h
  split_ifs at hslot
  exact (Except.ok.inj hslot).symm

theorem ints_sound (n : ℤ) : (Arith.ints n).Sound :=
  ⟨(machine_sound n).index, (machine_sound n).slot, fun _ _ _ h => (checkedInt_eq_ok h).1⟩

section Sums

variable {o : Arith ℤ} {arr : Vec ℤ}

/-- a stored sum has passed its check -/
theorem joinWith_fits (hadd : ∀ a b, o.add a b = checkedInt (a + b)) {v : ℤ} (hv : o.slot v = .ok v)
    {tree tree' : Vec ℤ} (hrun : joinWith o v tree = .ok tree') : tree'.cell v < 2 ^ 31 := by
  unfold joinWith at hrun
  simp only [bind_eq_ok, hadd, hv] at hrun
  obtain ⟨l, hl, l', hl', a, ha, r, hr, r', hr', b, hb, x, hx, w, hw, hset⟩ := hrun
  obtain ⟨hsum, -, hlt⟩ := checkedInt_eq_ok hx
  obtain rfl := Except.ok.inj hw
  rw [Vec.cell_of_set hset, hsum]
  exact hlt

/-- the total of the array is stored in slot 1, as a sum when there are two cells or more -/
theorem newWith_total (hsafe : o.SafeFor arr.size) (hsound : o.Sound) (hadd : ∀ a b, o.add a b = checkedInt (a + b))
    (hn : 1 < arr.size) {st : SegmentTree ℤ} (hrun : Returns (fun k => newWith o k arr) st) :
    ∑ i ∈ Finset.Icc 0 ((arr.size : ℤ) - 1), arr.cell i < 2 ^ 31 := by
  -- the run is one of the constructor itself
  have hnew : Returns (fun k => new k arr) st := by
    obtain ⟨N, hN⟩ := hrun
    exact ⟨N, fun k hk => hsound.newWith_ok (hN k hk)⟩
  obtain ⟨st', hst', hrep⟩ := new_represents arr (by omega)
  obtain rfl := hnew.unique hst'
  rw [← hrep.holds 1 0 _ (.self _ _ _)]
  obtain ⟨N, hN⟩ := hrun
  have hlast : newWith o (N + 1) arr = .ok st := hN (N + 1) (by omega)
  unfold newWith at hlast
  rw [hsafe.size, ok_bind, hsafe.slots, ok_bind, hsafe.last, ok_bind, bind_eq_ok] at hlast
  obtain ⟨tree, htree, hst⟩ := hlast
  obtain rfl := Except.ok.inj hst
  unfold buildWith at htree
  rw [if_neg (by omega)] at htree
  simp only [bind_eq_ok] at htree
  obtain ⟨-, -, -, -, -, -, -, -, -, -, tree', -, hjoin⟩ := htree
  exact joinWith_fits hadd hsafe.below.slot_self hjoin

/-- **When the constructor overflows.** Over cells in `[0, 2 ^ 31)`, with every sum checked, it returns exactly when the
total of the array fits in an `int`. -/
theorem newWith_returns_iff (hsafe : o.SafeFor arr.size) (hsound : o.Sound)
    (hadd : ∀ a b, o.add a b = checkedInt (a + b)) (hn : 0 < arr.size)
    (hcell : ∀ i : ℤ, 0 ≤ i → i < arr.size → 0 ≤ arr.cell i ∧ arr.cell i < 2 ^ 31) :
    (∃ st, Returns (fun k => newWith o k arr) st) ↔ ∑ i ∈ Finset.Icc 0 ((arr.size : ℤ) - 1), arr.cell i < 2 ^ 31 := by
  refine ⟨?_, ?_⟩
  · intro hcase
    obtain ⟨st, hrun⟩ := hcase
    by_cases hone : arr.size = 1
    · -- a single cell is not added to anything
      rw [hone, Nat.cast_one, sub_self, Finset.Icc_self, Finset.sum_singleton]
      exact (hcell 0 le_rfl (by omega)).2
    · exact newWith_total hsafe hsound hadd (by omega) hrun
  · intro htotal
    obtain ⟨st, hst, -⟩ := newWith_spec o arr hn hsafe fun w x y hb hlt => by
      obtain ⟨h1, -, h2⟩ := hb.within le_rfl (by omega)
      have hsub : Finset.Icc x y ⊆ Finset.Icc 0 ((arr.size : ℤ) - 1) := Finset.Icc_subset_Icc h1 h2
      have hle : ∑ i ∈ Finset.Icc x y, arr.cell i ≤ ∑ i ∈ Finset.Icc 0 ((arr.size : ℤ) - 1), arr.cell i := by
        apply Finset.sum_le_sum_of_subset_of_nonneg hsub
        intro i hi _
        rw [Finset.mem_Icc] at hi
        exact (hcell i hi.1 (by omega)).1
      have hnonneg : 0 ≤ ∑ i ∈ Finset.Icc x y, arr.cell i := by
        apply Finset.sum_nonneg
        intro i hi
        rw [Finset.mem_Icc] at hi
        exact (hcell i (by omega) (by omega)).1
      rw [hadd, sum_halves arr.cell h1 hlt]
      exact checkedInt_ok (by omega) (by omega)
    exact ⟨st, hst⟩

end Sums

end SegmentTree

/-! ## Building the segment tree -/

namespace Hld

open SegmentTree

variable {n : ℕ} {s : Hld}

/-- `build_st(n)`, with the segment tree over other arithmetic -/
def buildStWith (o : Arith ℤ) (k n : ℕ) (s : Hld) : Exec Hld := do
  let dfsValues ← (indices n).foldlM (scatter s) (Vec.zeros n)
  let st ← SegmentTree.newWith o k dfsValues
  return { s with st := st }

theorem buildStWith_exact (k n : ℕ) (s : Hld) : buildStWith .exact k n s = buildSt k n s := by
  unfold buildStWith buildSt
  simp only [newWith_exact]

/-- the array that `build_st` lays out holds each value once, whatever the positions -/
theorem scatter_total (hn : s.n = n) (hpos : Set.BijOn s.pos (Set.Ico 0 n) (Set.Ico 0 n))
    (hvals : ∀ i : ℕ, i < n → 0 ≤ s.values i ∧ s.values i ≤ maxVal - 1) :
    ∃ d, (indices n).foldlM (scatter s) (Vec.zeros n) = .ok d ∧ d.size = n ∧
      (∀ i : ℤ, 0 ≤ i → i < n → 0 ≤ d.cell i ∧ d.cell i < 2 ^ 31) ∧
      ∑ i ∈ Finset.Icc 0 ((n : ℤ) - 1), d.cell i = ∑ w : Fin n, s.values w := by
  have hmem : ∀ w : Fin n, ((w : ℕ) : ℤ) ∈ Set.Ico (0 : ℤ) n := fun w => by
    rw [Set.mem_Ico]
    omega
  have hinj : Function.Injective fun w : Fin n => s.pos w := fun w w' he => node_ext (hpos.injOn (hmem w) (hmem w') he)
  have hrange : ∀ w : Fin n, 0 ≤ s.pos w ∧ s.pos w < n := fun w => Set.mem_Ico.1 (hpos.mapsTo (hmem w))
  have hsurj : ∀ i : ℤ, 0 ≤ i → i < n → ∃ w : Fin n, s.pos w = i := by
    intro i h0 h1
    obtain ⟨x, hx, hxi⟩ := hpos.surjOn (Set.mem_Ico.2 ⟨h0, h1⟩)
    obtain ⟨j, rfl⟩ := Int.eq_ofNat_of_zero_le (Set.mem_Ico.1 hx).1
    have hj := (Set.mem_Ico.1 hx).2
    exact ⟨⟨j, by omega⟩, hxi⟩
  obtain ⟨d, hd, hsize, hcell, -⟩ :=
    scatterLoop_spec hn (fun _ => rfl) hrange hinj (List.finRange n) (Vec.zeros n) rfl
  refine ⟨d, by rw [indices_eq]; exact hd, hsize, ?_, ?_⟩
  · intro i h0 h1
    obtain ⟨w, rfl⟩ := hsurj i h0 h1
    rw [hcell w (List.mem_finRange w)]
    have hw := hvals w w.isLt
    have hmax := maxVal_lt
    omega
  · symm
    apply Finset.sum_nbij fun w : Fin n => s.pos w
    · intro w _
      rw [Finset.mem_Icc]
      have := hrange w
      omega
    · exact hinj.injOn
    · intro i hi
      rw [Finset.mem_coe, Finset.mem_Icc] at hi
      obtain ⟨w, hw⟩ := hsurj i hi.1 (by omega)
      exact ⟨w, by simp, hw⟩
    · intro w _
      rw [hcell w (List.mem_finRange w)]

/-- under checked sums `build_st` returns exactly when the total of the values fits -/
theorem buildStWith_returns_iff {o : Arith ℤ} (hsafe : o.SafeFor n) (hsound : o.Sound)
    (hadd : ∀ a b, o.add a b = checkedInt (a + b)) (h0 : 0 < n) (hn : s.n = n)
    (hpos : Set.BijOn s.pos (Set.Ico 0 n) (Set.Ico 0 n))
    (hvals : ∀ i : ℕ, i < n → 0 ≤ s.values i ∧ s.values i ≤ maxVal - 1) :
    (∃ s', Returns (fun k => buildStWith o k n s) s') ↔ ∑ w : Fin n, s.values w ≤ 2 ^ 31 - 1 := by
  obtain ⟨d, hd, hsize, hcell, htotal⟩ := scatter_total hn hpos hvals
  have hsafe' : o.SafeFor d.size := hsize.symm ▸ hsafe
  have hiff := newWith_returns_iff hsafe' hsound hadd (by omega) (hsize.symm ▸ hcell)
  rw [hsize, htotal] at hiff
  have hrun : ∀ k, buildStWith o k n s = (do
      let st ← SegmentTree.newWith o k d
      return { s with st := st }) := by
    intro k
    unfold buildStWith
    rw [hd, ok_bind]
  have hle : ∑ w : Fin n, s.values w ≤ 2 ^ 31 - 1 ↔ ∑ w : Fin n, s.values w < 2 ^ 31 := by omega
  rw [hle, ← hiff]
  refine ⟨?_, ?_⟩
  · intro hcase
    obtain ⟨s', N, hN⟩ := hcase
    refine ⟨s'.st, N, fun k hk => ?_⟩
    have hk : buildStWith o k n s = .ok s' := hN k hk
    rw [hrun, bind_eq_ok] at hk
    obtain ⟨st, hst, hs'⟩ := hk
    rw [← Except.ok.inj hs']
    exact hst
  · intro hcase
    obtain ⟨st, hst⟩ := hcase
    exact ⟨_, (hst.map (g := fun st => { s with st := st })).congr hrun⟩

/-- **When `build_st` overflows.** For values in `[0, max_val - 1]` laid out by any bijection `pos`, no sum of
`SegmentTree::build` leaves the range of `int` exactly when the total of the values is at most `2 ^ 31 - 1`. Below
`2 ^ 29` nodes the same holds with the index arithmetic checked as well. -/
theorem build_st_overflow_iff (h0 : 0 < n) (hn : s.n = n) (hpos : Set.BijOn s.pos (Set.Ico 0 n) (Set.Ico 0 n))
    (hvals : ∀ i : ℕ, i < n → 0 ≤ s.values i ∧ s.values i ≤ maxVal - 1) :
    ((∃ s', Returns (fun k => buildStWith .sums k n s) s') ↔ ∑ w : Fin n, s.values w ≤ 2 ^ 31 - 1) ∧
      (n < 2 ^ 29 → ((∃ s', Returns (fun k => buildStWith (.ints n) k n s) s') ↔
        ∑ w : Fin n, s.values w ≤ 2 ^ 31 - 1)) := by
  refine ⟨buildStWith_returns_iff (sums_safeFor n) sums_sound (fun _ _ => rfl) h0 hn hpos hvals, fun hlt => ?_⟩
  exact buildStWith_returns_iff (ints_safeFor (by omega) (by omega)) (ints_sound n) (fun _ _ => rfl) h0 hn hpos hvals

/-- `n` nodes with the positions 0 to `n - 1` and one value for all -/
def constantValues (n x : ℕ) : Hld := { AdjTree.zeroMemory with n := n, pos := fun i => i, values := fun _ => x }

theorem constantValues_total (n x : ℕ) : ∑ w : Fin n, (constantValues n x).values w = n * x := by
  unfold constantValues
  simp

theorem constantValues_range {x : ℕ} (n : ℕ) (hx : (x + 1) * (x + 1) ≤ 2 ^ 31 - 1) :
    ∀ i : ℕ, i < n → 0 ≤ (constantValues n x).values i ∧ (constantValues n x).values i ≤ maxVal - 1 := by
  have hmax : x + 1 ≤ maxVal := Nat.le_sqrt.2 hx
  intro i _
  unfold constantValues
  dsimp only
  omega

/-- on 65535 nodes with the value 23170 the total fits -/
theorem build_st_overflow_iff_default :
    ∃ s', Returns (fun k => buildStWith (.ints 65535) k 65535 (constantValues 65535 23170)) s' := by
  have h := build_st_overflow_iff (n := 65535) (s := constantValues 65535 23170) (by norm_num) rfl (Set.bijOn_id _)
    (constantValues_range 65535 (by norm_num))
  rw [constantValues_total] at h
  exact (h.2 (by norm_num)).2 (by norm_num)

/-- **A million nodes overflow.** With the value 23170 at each of 1000000 nodes, a sum of `build` leaves the range. -/
theorem million_overflows :
    (∀ i : ℕ, i < 1000000 → 0 ≤ (constantValues 1000000 23170).values i ∧
      (constantValues 1000000 23170).values i ≤ maxVal - 1) ∧
    Set.BijOn (constantValues 1000000 23170).pos (Set.Ico 0 (1000000 : ℕ)) (Set.Ico 0 (1000000 : ℕ)) ∧
    ¬ ∃ s', Returns (fun k => buildStWith .sums k 1000000 (constantValues 1000000 23170)) s' := by
  have hrange := constantValues_range (x := 23170) 1000000 (by norm_num)
  refine ⟨hrange, Set.bijOn_id _, ?_⟩
  have h := buildStWith_returns_iff (sums_safeFor (1000000 : ℕ)) sums_sound (fun _ _ => rfl) (by norm_num) rfl
    (Set.bijOn_id _) hrange
  rw [constantValues_total] at h
  rw [h]
  norm_num

end Hld

end HeavyLight
