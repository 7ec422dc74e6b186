/-
The index arithmetic of the segment tree over fewer than `2 ^ 29` cells.

- `Arith.machine n`: every index expression is checked to fit in an `int`, and every slot to lie in `[1, 4 n)`; a check
  that fails stops the run.
- `machine_safeFor`: over `n` cells with `1 ≤ n < 2 ^ 29` no check fails.
- `machine_run`: the constructor, any run of updates and a query return under the checks.
-/
import HeavyLight.SegmentTreeSpec

namespace HeavyLight.SegmentTree

open HeapIntervals

/-- index expressions checked against the range of `int`, slots against `[1, 4 n)` -/
def Arith.machine {α : Type} [Add α] (n : ℤ) : Arith α where
  index := checkedInt
  slot v := if 1 ≤ v ∧ v < 4 * n then .ok v else .error .outOfBounds
  add a b := .ok (a + b)

/-- **No check fails** over fewer than `2 ^ 29` cells. -/
theorem machine_safeFor {α : Type} [Add α] {n : ℤ} (h0 : 0 < n) (h1 : n < 2 ^ 29) :
    (Arith.machine n : Arith α).SafeFor n := by
  have hslot : ∀ {w x y}, Below 1 0 (n - 1) w x y → 1 ≤ w ∧ w < 4 * n := fun hb => hb.lt_four_mul h0
  refine ⟨checkedInt_ok (by omega) (by omega), checkedInt_ok (by omega) (by omega),
    checkedInt_ok (by omega) (by omega), ?_, ?_, ?_, ?_, ?_⟩
  · intro w x y hb
    exact if_pos (hslot hb)
  · intro w x y hb hlt
    obtain ⟨h2, -, h3⟩ := hb.within le_rfl (by omega)
    exact checkedInt_ok (by omega) (by omega)
  · -- the children of a slot that is not a leaf are slots
    intro w x y hb hlt
    have hchild := hslot (hb.child_left hlt)
    exact checkedInt_ok (by omega) (by omega)
  · intro w x y hb hlt
    have hchild := hslot (hb.child_right hlt)
    exact checkedInt_ok (by omega) (by omega)
  · intro w x y hb hlt
    obtain ⟨h2, -, h3⟩ := hb.within le_rfl (by omega)
    have hm := le_mid (by omega) hlt.le
    have hm' := mid_lt (by omega) hlt
    exact checkedInt_ok (by omega) (by omega)

section Run

variable {α : Type}

/-- a run of `update` calls over other arithmetic -/
def updatesWith (o : Arith α) (k : ℕ) (st : SegmentTree α) (ups : List (ℤ × α)) : Exec (SegmentTree α) :=
  ups.foldlM (fun st p => updateWith o k st p.1 p.2) st

variable [AddCommMonoid α]

/-- **Slots and indices in range.** Over an array of `n` cells, `1 ≤ n < 2 ^ 29`, the constructor, any run of updates in
range and a query in range terminate, every slot they read or write is in `[1, 4 n)`, and every index expression fits in
an `int`: under the checks they return, and the query is the sum over its range. -/
theorem machine_run (arr : Vec α) (hn : 0 < arr.size) (hlt : arr.size < 2 ^ 29) (ups : List (ℤ × α))
    (hups : ∀ p ∈ ups, 0 ≤ p.1 ∧ p.1 < arr.size) (l r : ℤ) (hl : 0 ≤ l ∧ l < arr.size) (hr : 0 ≤ r ∧ r < arr.size) :
    Returns (fun k => do
      let st ← newWith (.machine arr.size) k arr
      let st ← updatesWith (.machine arr.size) k st ups
      queryWith (.machine arr.size) k st l r) (∑ i ∈ Finset.Icc (min l r) (max l r), assign arr.cell ups i) := by
  have hsafe : (Arith.machine arr.size : Arith α).SafeFor arr.size := machine_safeFor (by omega) (by omega)
  have hadds : ∀ a : ℤ → α, (Arith.machine arr.size : Arith α).Adds a 1 0 (arr.size - 1) :=
    fun a => .of_add (fun _ _ => rfl) le_rfl (by omega)
  obtain ⟨st, hst, hrep, -⟩ := newWith_spec (.machine arr.size) arr hn hsafe (hadds _)
  obtain ⟨st', hst', hrep'⟩ := updates_run (P := fun st a => Represents st arr.size a)
    (fun st a idx val h h0 h1 => by
      obtain ⟨st', hst', h', -⟩ := updateWith_spec (.machine arr.size) h h0 h1 val hsafe (hadds _)
      exact ⟨st', hst', h'⟩) hrep ups hups
  exact hst.bind (hst'.bind (queryWith_spec _ (.of_add fun _ _ => rfl) hrep' hsafe hl.1 hl.2 hr.1 hr.2))

/-- the array 1, 3, 5, 7, 9, 11, then `update(2, 6)` and `query(1, 3)` -/
theorem machine_run_six_cells :
    Returns (fun k => do
      let st ← newWith (.machine 6) k ⟨6, fun i => 2 * i + 1⟩
      let st ← updatesWith (.machine 6) k st [(2, 6)]
      queryWith (.machine 6) k st 1 3) (16 : ℤ) := by
  have hsum : ∑ i ∈ Finset.Icc (min 1 3) (max 1 3), assign (fun i : ℤ => 2 * i + 1) [(2, 6)] i = 16 := by decide
  rw [← hsum]
  exact machine_run ⟨6, fun i => 2 * i + 1⟩ (by decide) (by decide) [(2, 6)] (by simp) 1 3 (by decide) (by decide)

end Run

end HeavyLight.SegmentTree
