/-
The whole `tree` vector of a segment tree, over every commutative monoid of cells. It is determined by the array: the
slots of the heap hold its sums, and the others the zeros of `resize`.

- `Canonical st n a`: `st` represents the array `a` and is zero elsewhere; `Canonical.ext`: there is one such tree.
- `new_canonical`, `update_canonical`, `updates_canonical`: the constructor and the updates give it.
- `PathTo idx v tl tr w`: `w` is on the way from slot `v` down to the leaf of `idx`; `update_frame`: an update writes no
  other slot.
- `updates_eq_new`: after any run of updates the tree is the one built from the updated array.
-/
import HeavyLight.SegmentTreeSpec

namespace HeavyLight.SegmentTree

open HeapIntervals

/-! ## The slots that an update writes -/

/-- the slots from slot `v`, which covers `[tl, tr]`, down to the leaf of `idx`, as `update` goes -/
inductive PathTo (idx : ℤ) : ℤ → ℤ → ℤ → ℤ → Prop where
  | self (v tl tr : ℤ) : PathTo idx v tl tr v
  | left {v tl tr w : ℤ} : tl < tr → idx ≤ mid tl tr → PathTo idx (2 * v) tl (mid tl tr) w → PathTo idx v tl tr w
  | right {v tl tr w : ℤ} :
      tl < tr → mid tl tr < idx → PathTo idx (2 * v + 1) (mid tl tr + 1) tr w → PathTo idx v tl tr w

/-- a slot whose interval contains `idx` is on the path to `idx` -/
theorem PathTo.of_below {idx v tl tr w x y : ℤ} (hb : Below v tl tr w x y) (h0 : 0 ≤ tl) (h : tl ≤ tr) (hx : x ≤ idx)
    (hy : idx ≤ y) : PathTo idx v tl tr w := by
  induction hb with
  | self => exact .self _ _ _
  | left hlt hb ih =>
    have hm := le_mid h0 h
    have hw := hb.within h0 hm
    exact .left hlt (by omega) (ih h0 hm hx hy)
  | right hlt hb ih =>
    have hm := le_mid h0 h
    have hm' := mid_lt h0 hlt
    have hw := hb.within (by omega) (by omega)
    exact .right hlt (by omega) (ih (by omega) (by omega) hx hy)

/-! ## The tree of an array -/

section Canonical

variable {α : Type} [AddCommMonoid α] {st st' : SegmentTree α} {n : ℤ} {a a' : ℤ → α}

/-- `st` is the tree of the array `a`: its other slots are zero -/
structure Canonical (st : SegmentTree α) (n : ℤ) (a : ℤ → α) : Prop extends Represents st n a where
  unused : ∀ w, (∀ x y, ¬ Below 1 0 (n - 1) w x y) → st.tree.cell w = 0

/-- **One tree for one array.** -/
theorem Canonical.ext (h : Canonical st n a) (h' : Canonical st' n a') (ha : ∀ i, 0 ≤ i → i < n → a i = a' i) :
    st = st' := by
  have hpos := h.pos
  have hn : st.n = st'.n := h.n_eq.trans h'.n_eq.symm
  have hsize : st.tree.size = st'.tree.size := by
    have := h.size_eq
    have := h'.size_eq
    omega
  have hcell : st.tree.cell = st'.tree.cell := by
    funext w
    by_cases hw : ∃ x y, Below 1 0 (n - 1) w x y
    · obtain ⟨x, y, hb⟩ := hw
      obtain ⟨h1, -, h2⟩ := hb.within le_rfl (by omega)
      rw [h.holds w x y hb, h'.holds w x y hb]
      apply Finset.sum_congr rfl
      intro i hi
      rw [Finset.mem_Icc] at hi
      exact ha i (by omega) (by omega)
    · have hout : ∀ x y, ¬ Below 1 0 (n - 1) w x y := fun x y hb => hw ⟨x, y, hb⟩
      rw [h.unused w hout, h'.unused w hout]
  obtain ⟨m, size, cell⟩ := st
  obtain ⟨m', size', cell'⟩ := st'
  dsimp only at hn hsize hcell
  rw [hn, hsize, hcell]

theorem new_canonical (arr : Vec α) (hn : 0 < arr.size) :
    ∃ st, Returns (fun k => new k arr) st ∧ Canonical st arr.size arr.cell := by
  obtain ⟨st, hst, hrep, hf⟩ := new_spec arr hn
  exact ⟨st, hst, hrep, hf.cell⟩

theorem update_canonical (h : Canonical st n a) {idx : ℤ} (h0 : 0 ≤ idx) (h1 : idx < n) (val : α) :
    ∃ st', Returns (fun k => update k st idx val) st' ∧ Canonical st' n (Function.update a idx val) := by
  obtain ⟨st', hst', hrep, hf⟩ := update_spec h.toRepresents h0 h1 val
  exact ⟨st', hst', hrep, fun w hw => (hf.cell w hw).trans (h.unused w hw)⟩

theorem updates_canonical (h : Canonical st n a) (ups : List (ℤ × α)) (hups : ∀ p ∈ ups, 0 ≤ p.1 ∧ p.1 < n) :
    ∃ st', Returns (fun k => updates k st ups) st' ∧ Canonical st' n (assign a ups) :=
  updates_run (P := fun st a => Canonical st n a) (fun _ _ _ val h h0 h1 => update_canonical h h0 h1 val) h ups hups

/-- two runs of updates that assign the same array end in the same tree -/
theorem updates_congr (h : Canonical st n a) {ups ups' : List (ℤ × α)} (hups : ∀ p ∈ ups, 0 ≤ p.1 ∧ p.1 < n)
    (hups' : ∀ p ∈ ups', 0 ≤ p.1 ∧ p.1 < n) (he : assign a ups = assign a ups') :
    ∃ st', Returns (fun k => updates k st ups) st' ∧ Returns (fun k => updates k st ups') st' := by
  obtain ⟨st₁, hst₁, h₁⟩ := updates_canonical h ups hups
  obtain ⟨st₂, hst₂, h₂⟩ := updates_canonical h ups' hups'
  obtain rfl : st₁ = st₂ := h₁.ext h₂ fun i _ _ => by rw [he]
  exact ⟨st₁, hst₁, hst₂⟩

/-- **The frame of an update**: the slots off the path to its index keep their contents. -/
theorem update_frame (h : Represents st n a) {idx : ℤ} (h0 : 0 ≤ idx) (h1 : idx < n) (val : α) :
    ∃ st', Returns (fun k => update k st idx val) st' ∧
      ∀ w, ¬ PathTo idx 1 0 (n - 1) w → st'.tree.cell w = st.tree.cell w := by
  have hpos := h.pos
  obtain ⟨st', hst', hrep, hf⟩ := update_spec h h0 h1 val
  refine ⟨st', hst', fun w hw => ?_⟩
  by_cases hbelow : ∃ x y, Below 1 0 (n - 1) w x y
  · -- the sum over an interval without `idx` is the old one
    obtain ⟨x, y, hb⟩ := hbelow
    rw [hrep.holds w x y hb, h.holds w x y hb]
    apply Finset.sum_congr rfl
    intro i hi
    rw [Finset.mem_Icc] at hi
    apply Function.update_of_ne
    rintro rfl
    exact hw (PathTo.of_below hb le_rfl (by omega) hi.1 hi.2)
  · exact hf.cell w fun x y hb => hbelow ⟨x, y, hb⟩

/-- **Updates rebuild the tree.** From a non-empty array, after any run of updates in range, the tree is the one that the
constructor makes from the updated array, slot by slot. From there updates at different indices commute, a later update
at an index overwrites an earlier one, and an update changes no slot off the path from the root to the leaf of its
index. -/
theorem updates_eq_new (arr : Vec α) (hn : 0 < arr.size) (ups : List (ℤ × α))
    (hups : ∀ p ∈ ups, 0 ≤ p.1 ∧ p.1 < arr.size) :
    ∃ st, Returns (fun k => do
        let st ← new k arr
        updates k st ups) st ∧
      st.tree.size = 4 * arr.size ∧
      Returns (fun k => new k ⟨arr.size, assign arr.cell ups⟩) st ∧
      (∀ (i j : ℤ) (x y : α), 0 ≤ i ∧ i < arr.size → 0 ≤ j ∧ j < arr.size → i ≠ j →
        ∃ st', Returns (fun k => updates k st [(i, x), (j, y)]) st' ∧
          Returns (fun k => updates k st [(j, y), (i, x)]) st') ∧
      (∀ (i : ℤ) (x y : α), 0 ≤ i ∧ i < arr.size →
        ∃ st', Returns (fun k => updates k st [(i, x), (i, y)]) st' ∧ Returns (fun k => updates k st [(i, y)]) st') ∧
      ∀ (i : ℤ) (x : α), 0 ≤ i ∧ i < arr.size → ∃ st', Returns (fun k => update k st i x) st' ∧
        ∀ w, ¬ PathTo i 1 0 (arr.size - 1) w → st'.tree.cell w = st.tree.cell w := by
  obtain ⟨st₀, hst₀, h₀⟩ := new_canonical arr hn
  obtain ⟨st, hst, h⟩ := updates_canonical h₀ ups hups
  obtain ⟨st₁, hst₁, h₁⟩ := new_canonical ⟨arr.size, assign arr.cell ups⟩ hn
  obtain rfl : st₁ = st := h₁.ext h fun _ _ _ => rfl
  refine ⟨st₁, hst₀.bind hst, ?_, hst₁, ?_, ?_, ?_⟩
  · have := h.size_eq
    omega
  · intro i j x y hi hj hij
    refine updates_congr h (by simp [hi, hj]) (by simp [hi, hj]) ?_
    exact Function.update_comm hij _ _ _
  · intro i x y hi
    refine updates_congr h (by simp [hi]) (by simp [hi]) ?_
    exact Function.update_idem _ _ _
  · intro i x hi
    exact update_frame h.toRepresents hi.1 hi.2 x

/-- the array of `serial_st_test.cpp`: 1, 3, 5, 7, 9, 11, then `update(2, 6)` -/
theorem updates_eq_new_six_cells :
    ∃ st : SegmentTree ℤ, Returns (fun k => do
        let st ← new k ⟨6, fun i => 2 * i + 1⟩
        updates k st [(2, 6)]) st ∧
      Returns (fun k => new k ⟨6, assign (fun i => 2 * i + 1) [(2, 6)]⟩) st := by
  obtain ⟨st, hst, -, hnew, -⟩ :=
    updates_eq_new (⟨6, fun i => 2 * i + 1⟩ : Vec ℤ) (by decide) [(2, 6)] (by simp)
  exact ⟨st, hst, hnew⟩

end Canonical

end HeavyLight.SegmentTree
