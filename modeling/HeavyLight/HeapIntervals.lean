/-
Intervals halved over the slots of an implicit binary heap: slot `v` covers an interval of integers `[tl, tr]`, its
children `2 v` and `2 v + 1` cover the two halves. Nothing here is about a particular program.

- `mid`: the midpoint, with a division that truncates toward zero.
- `halving`: induction over an interval and its halves.
- `Below v tl tr w x y`: with slot `v` covering `[tl, tr]`, slot `w` of its subtree covers `[x, y]`.
- `Below.disjoint`: the two subtrees below a slot share no slot.
- `Below.lt_four_mul`: over `[0, n - 1]` from slot 1, every slot is below `4 n`.
- `sum_split`: a sum over an interval clipped at a midpoint.
-/
import Mathlib.Tactic
import Mathlib.Algebra.BigOperators.Intervals
import Mathlib.Order.Interval.Finset.Basic

namespace HeavyLight.HeapIntervals

/-- the midpoint of `[tl, tr]`, rounded toward zero -/
def mid (tl tr : ℤ) : ℤ := (tl + tr).tdiv 2

theorem mid_eq {tl tr : ℤ} (h0 : 0 ≤ tl) (h : tl ≤ tr) : mid tl tr = (tl + tr) / 2 :=
  Int.tdiv_eq_ediv_of_nonneg (by omega)

theorem le_mid {tl tr : ℤ} (h0 : 0 ≤ tl) (h : tl ≤ tr) : tl ≤ mid tl tr := by
  rw [mid_eq h0 h]; omega

theorem mid_lt {tl tr : ℤ} (h0 : 0 ≤ tl) (h : tl < tr) : mid tl tr < tr := by
  rw [mid_eq h0 h.le]; omega

/-- induction over an interval of natural numbers and its two halves -/
theorem halving {P : ℤ → ℤ → Prop} (leaf : ∀ i, 0 ≤ i → P i i)
    (node : ∀ tl tr, 0 ≤ tl → tl < tr → P tl (mid tl tr) → P (mid tl tr + 1) tr → P tl tr) {tl tr : ℤ}
    (h0 : 0 ≤ tl) (h : tl ≤ tr) : P tl tr := by
  induction hd : (tr - tl).toNat using Nat.strong_induction_on generalizing tl tr with
  | _ d ih =>
    rcases h.eq_or_lt with rfl | hlt
    · exact leaf tl h0
    · have h1 := le_mid h0 h
      have h2 := mid_lt h0 hlt
      exact node tl tr h0 hlt (ih _ (by omega) h0 h1 rfl) (ih _ (by omega) (by omega) (by omega) rfl)

/-! ## Slots below a slot -/

/-- with slot `v` covering `[tl, tr]`, slot `w` in its subtree covers `[x, y]` -/
inductive Below : ℤ → ℤ → ℤ → ℤ → ℤ → ℤ → Prop where
  | self (v tl tr : ℤ) : Below v tl tr v tl tr
  | left {v tl tr w x y : ℤ} : tl < tr → Below (2 * v) tl (mid tl tr) w x y → Below v tl tr w x y
  | right {v tl tr w x y : ℤ} : tl < tr → Below (2 * v + 1) (mid tl tr + 1) tr w x y → Below v tl tr w x y

namespace Below

variable {v tl tr w x y : ℤ}

theorem leaf_iff : Below v tl tl w x y ↔ w = v ∧ x = tl ∧ y = tl := by
  refine ⟨?_, ?_⟩
  · intro h
    cases h with
    | self => exact ⟨rfl, rfl, rfl⟩
    | left h => omega
    | right h => omega
  · intro hcase
    obtain ⟨rfl, rfl, rfl⟩ := hcase
    exact .self _ _ _

theorem node_iff (h : tl < tr) : Below v tl tr w x y ↔
    (w = v ∧ x = tl ∧ y = tr) ∨ Below (2 * v) tl (mid tl tr) w x y ∨ Below (2 * v + 1) (mid tl tr + 1) tr w x y := by
  refine ⟨?_, ?_⟩
  · intro hb
    cases hb with
    | self => exact Or.inl ⟨rfl, rfl, rfl⟩
    | left _ hb => exact Or.inr (Or.inl hb)
    | right _ hb => exact Or.inr (Or.inr hb)
  · intro hcase
    rcases hcase with ⟨rfl, rfl, rfl⟩ | hb | hb
    · exact .self _ _ _
    · exact .left h hb
    · exact .right h hb

/-- the children of a slot below are below -/
theorem child_left (hb : Below v tl tr w x y) (h : x < y) : Below v tl tr (2 * w) x (mid x y) := by
  induction hb with
  | self => exact .left h (.self _ _ _)
  | left hlt _ ih => exact .left hlt (ih h)
  | right hlt _ ih => exact .right hlt (ih h)

theorem child_right (hb : Below v tl tr w x y) (h : x < y) : Below v tl tr (2 * w + 1) (mid x y + 1) y := by
  induction hb with
  | self => exact .right h (.self _ _ _)
  | left hlt _ ih => exact .left hlt (ih h)
  | right hlt _ ih => exact .right hlt (ih h)

/-- the interval of a slot below lies in the interval above it -/
theorem within (hb : Below v tl tr w x y) (h0 : 0 ≤ tl) (h : tl ≤ tr) : tl ≤ x ∧ x ≤ y ∧ y ≤ tr := by
  induction hb with
  | self => exact ⟨le_rfl, h, le_rfl⟩
  | left hlt _ ih =>
    have h1 := le_mid h0 h
    have h2 := mid_lt h0 hlt
    obtain ⟨a, b, c⟩ := ih h0 h1
    exact ⟨a, b, by omega⟩
  | right hlt _ ih =>
    have h1 := le_mid h0 h
    have h2 := mid_lt h0 hlt
    obtain ⟨a, b, c⟩ := ih (by omega) (by omega)
    exact ⟨by omega, b, c⟩

/-- `d` levels below slot `v` are the slots from `v * 2 ^ d` on -/
theorem level (hb : Below v tl tr w x y) : ∃ d : ℕ, v * 2 ^ d ≤ w ∧ w < (v + 1) * 2 ^ d := by
  induction hb with
  | self => exact ⟨0, by omega, by omega⟩
  | left _ _ ih =>
    obtain ⟨d, h1, h2⟩ := ih
    have hp : (0 : ℤ) < 2 ^ d := by positivity
    exact ⟨d + 1, by rw [pow_succ]; linarith, by rw [pow_succ]; linarith⟩
  | right _ _ ih =>
    obtain ⟨d, h1, h2⟩ := ih
    have hp : (0 : ℤ) < 2 ^ d := by positivity
    exact ⟨d + 1, by rw [pow_succ]; linarith, by rw [pow_succ]; linarith⟩

theorem le (hb : Below v tl tr w x y) (hv : 1 ≤ v) : v ≤ w := by
  obtain ⟨d, h1, -⟩ := hb.level
  have hp : (1 : ℤ) ≤ 2 ^ d := one_le_pow₀ (by norm_num)
  nlinarith

/-- the subtrees of the two children of a slot share no slot -/
theorem disjoint {tl' tr' x' y' : ℤ} (hv : 1 ≤ v) (h1 : Below (2 * v) tl tr w x y)
    (h2 : Below (2 * v + 1) tl' tr' w x' y') : False := by
  obtain ⟨d, hd1, hd2⟩ := h1.level
  obtain ⟨e, he1, he2⟩ := h2.level
  rcases lt_trichotomy d e with hde | rfl | hde
  · -- `w` is left of level `e` of the right subtree
    have hp : (2 : ℤ) ^ d ≤ 2 ^ e := pow_le_pow_right₀ (by norm_num) hde.le
    nlinarith
  · linarith
  · -- two copies of level `e` of the right subtree still end before level `d` of the left one
    have hp : (2 : ℤ) ^ (e + 1) ≤ 2 ^ d := pow_le_pow_right₀ (by norm_num) hde
    have hq : (0 : ℤ) < 2 ^ e := by positivity
    rw [pow_succ] at hp
    nlinarith

/-- a slot with an interval of more than one element has room `M`; the bound halves with the interval -/
theorem lt_of_room {M : ℤ} (hb : Below v tl tr w x y) (h0 : 0 ≤ tl) (h : tl ≤ tr)
    (hroom : (v + 1) * (tr - tl) ≤ M) (hv : 1 ≤ v) : w = v ∨ w < 2 * M := by
  induction hb with
  | self => exact Or.inl rfl
  | @left v tl tr w x y hlt _ ih =>
    have h1 := le_mid h0 h
    have hm := mid_eq h0 h
    have hhalf : 2 * (mid tl tr - tl) ≤ tr - tl := by omega
    have hM : v + 1 ≤ M := by nlinarith
    rcases ih h0 h1 (by nlinarith) (by omega) with h | h
    · exact Or.inr (by omega)
    · exact Or.inr h
  | @right v tl tr w x y hlt _ ih =>
    have h1 := le_mid h0 h
    have h2 := mid_lt h0 hlt
    have hm := mid_eq h0 h
    have hhalf : 2 * (tr - (mid tl tr + 1)) ≤ tr - tl := by omega
    have hM : v + 1 ≤ M := by nlinarith
    rcases ih (by omega) (by omega) (by nlinarith) (by omega) with h | h
    · exact Or.inr (by omega)
    · exact Or.inr h

/-- the slots over `[0, n - 1]` from slot 1 lie in `[1, 4 n)` -/
theorem lt_four_mul {n : ℤ} (hn : 0 < n) (hb : Below 1 0 (n - 1) w x y) : 1 ≤ w ∧ w < 4 * n := by
  refine ⟨hb.le le_rfl, ?_⟩
  rcases hb.lt_of_room (M := 2 * (n - 1)) le_rfl (by omega) (by omega) le_rfl with h | h <;> omega

end Below

/-! ## Sums over clipped intervals -/

/-- a sum over `[l, r]`, split by clipping the interval at `m` -/
theorem sum_split {α : Type*} [AddCommMonoid α] (a : ℤ → α) (l r m : ℤ) :
    ∑ i ∈ Finset.Icc l (min r m), a i + ∑ i ∈ Finset.Icc (max l (m + 1)) r, a i = ∑ i ∈ Finset.Icc l r, a i := by
  have hd : Disjoint (Finset.Icc l (min r m)) (Finset.Icc (max l (m + 1)) r) := by
    rw [Finset.disjoint_left]
    intro i h1 h2
    simp only [Finset.mem_Icc] at h1 h2
    omega
  rw [← Finset.sum_union hd]
  congr 1
  ext i
  simp only [Finset.mem_union, Finset.mem_Icc]
  omega

/-- the sum over an interval is the sum over its two halves -/
theorem sum_halves {α : Type*} [AddCommMonoid α] (a : ℤ → α) {tl tr : ℤ} (h0 : 0 ≤ tl) (h : tl < tr) :
    ∑ i ∈ Finset.Icc tl (mid tl tr), a i + ∑ i ∈ Finset.Icc (mid tl tr + 1) tr, a i =
      ∑ i ∈ Finset.Icc tl tr, a i := by
  have h1 := le_mid h0 h.le
  have h2 := mid_lt h0 h
  have hs := sum_split a tl tr (mid tl tr)
  rwa [min_eq_right h2.le, max_eq_right (by omega)] at hs

end HeavyLight.HeapIntervals
