/-
The segment tree over 32-bit words, whose addition wraps around.

- `ofInt_sum`: the word of a sum is the sum of the words, because reduction modulo `2 ^ w` is a ring map.
- `toInt_sum`: so a sum of words, read as a signed number, is exact whenever the exact sum fits, whatever the partial
  sums do.
- `query_wrapped`: a query is exact whenever its own range sum fits, with any slots of the tree wrapped.
-/
import HeavyLight.SegmentTreeSpec
import Mathlib.Data.BitVec

namespace HeavyLight

/-! ## Sums of words -/

section Words

variable {ι : Type*} {w : ℕ}

/-- the word of a sum is the sum of the words -/
theorem ofInt_sum (s : Finset ι) (f : ι → ℤ) : BitVec.ofInt w (∑ i ∈ s, f i) = ∑ i ∈ s, BitVec.ofInt w (f i) :=
  map_sum (Int.castRingHom (BitVec w)) f s

/-- **A sum of words** is the word of the exact sum. -/
theorem sum_words (s : Finset ι) (f : ι → BitVec w) : ∑ i ∈ s, f i = BitVec.ofInt w (∑ i ∈ s, (f i).toInt) := by
  rw [ofInt_sum]
  apply Finset.sum_congr rfl
  intro i _
  rw [BitVec.ofInt_toInt]

/-- a sum of words is exact when the exact sum fits -/
theorem toInt_sum (s : Finset ι) (f : ι → BitVec w) (h0 : -2 ^ w ≤ 2 * ∑ i ∈ s, (f i).toInt)
    (h1 : 2 * ∑ i ∈ s, (f i).toInt < 2 ^ w) : (∑ i ∈ s, f i).toInt = ∑ i ∈ s, (f i).toInt := by
  rw [sum_words, BitVec.toInt_ofInt]
  apply Int.bmod_eq_of_le_mul_two
  · push_cast
    omega
  · push_cast
    omega

end Words

/-! ## Queries over words -/

namespace SegmentTree

/-- **Wrap-around does not show.** Over 32-bit words with wrapping addition, built from a non-empty array and after any
run of updates in range, `query(l, r)` is the exact sum of the current array over the range whenever that sum fits in 32
bits. Nothing is asked of the sums in the slots. -/
theorem query_wrapped (arr : Vec (BitVec 32)) (hn : 0 < arr.size) (ups : List (ℤ × BitVec 32))
    (hups : ∀ p ∈ ups, 0 ≤ p.1 ∧ p.1 < arr.size) (l r : ℤ) (hl : 0 ≤ l ∧ l < arr.size)
    (hr : 0 ≤ r ∧ r < arr.size)
    (hfit : -2 ^ 31 ≤ ∑ i ∈ Finset.Icc (min l r) (max l r), (assign arr.cell ups i).toInt ∧
      ∑ i ∈ Finset.Icc (min l r) (max l r), (assign arr.cell ups i).toInt < 2 ^ 31) :
    ∃ x : BitVec 32, Returns (fun k => do
        let st ← new k arr
        let st ← updates k st ups
        query k st l r) x ∧
      x.toInt = ∑ i ∈ Finset.Icc (min l r) (max l r), (assign arr.cell ups i).toInt := by
  obtain ⟨st, hst, hrep⟩ := new_represents arr hn
  obtain ⟨st', hst', hrep'⟩ := updates_represents hrep ups hups
  refine ⟨_, hst.bind (hst'.bind (query_represents hrep' hl.1 hl.2 hr.1 hr.2)), ?_⟩
  apply toInt_sum
  · omega
  · omega

/-- the cells `2 ^ 31 - 1`, 1, -1 and, after `update(3, 7)`, 7: the slot over `[0, 1]` wraps, `query(0, 2)` adds it to
cell 2 and is exact -/
theorem query_wrapped_four_cells :
    ∃ x : BitVec 32, Returns (fun k => do
        let st ← new k ⟨4, fun i => if i = 0 then 2147483647 else if i = 1 then 1 else -1⟩
        let st ← updates k st [(3, 7)]
        query k st 0 2) x ∧
      x.toInt = 2147483647 := by
  have hsum : ∑ i ∈ Finset.Icc (min 0 2) (max 0 2),
      (assign (fun i : ℤ => if i = 0 then (2147483647 : BitVec 32) else if i = 1 then 1 else -1) [(3, 7)] i).toInt =
        2147483647 := by decide +kernel
  have h := query_wrapped ⟨4, fun i => if i = 0 then 2147483647 else if i = 1 then 1 else -1⟩ (by decide) [(3, 7)]
    (by simp) 0 2 (by decide) (by decide) (by rw [hsum]; decide)
  rwa [hsum] at h

end SegmentTree

end HeavyLight
