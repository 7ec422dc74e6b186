/-
`parallel_for` of `parlay/parallel.h`, and `parfor` of `parlay/scheduler.h` under it, as fork-join programs over the
iterations of a loop. `size_t` is `UInt64`, `long` is `Int64`; all arithmetic wraps around as in the source.

- `parallelFor`: the cases of one iteration, of a range within the granularity, and of `parfor`. `getGranularity` runs
  batches of iterations in order until the clock says that they took long enough; `parforRec` halves the rest.
- `parallelFor_spec`: it ends, and makes the iterations from `start` to `end` once each, for every granularity, every
  clock and every number of workers, with fewer pairs than iterations.
- `parallelFor_within`: within the granularity it is the sequential loop.
-/
import HeavyLight.Schedules

namespace HeavyLight

open Proc

/-! ## The functions -/

/-- `for (size_t i = start; i < end; i++) f(i);` -/
def serialFor (start stop : UInt64) : Proc ℕ := seqAll ((List.range' start.toNat (stop.toNat - start.toNat)).map call)

/-- `for (size_t i = 0; i < sz; i++) f(start + done + i);` -/
def batch (start fin sz : UInt64) : Proc ℕ :=
  seqAll (((List.range sz.toNat).map fun i => (start + fin + UInt64.ofNat i).toNat).map call)

/-- the loop of `get_granularity`, from its iteration `i` on, with the clock `ticks`; `fin` is the variable `done` -/
def getGranularity (ticks : ℕ → ℕ) (start stop : UInt64) : ℕ → ℕ → UInt64 → UInt64 → Exec (Proc ℕ × UInt64)
  | 0, _, _, _ => .error .outOfFuel
  | k + 1, i, sz, fin => do
    let rest := stop - (start + fin)
    let sz := if rest < sz then rest else sz
    let t := batch start fin sz
    let fin := fin + sz
    if ticks i < 1000 ∧ fin < stop - start then
      let (u, fin) ← getGranularity ticks start stop k (i + 1) (sz * 2) fin
      return (seq t u, fin)
    else return (t, fin)

/-- `parfor_` -/
def parforRec : ℕ → UInt64 → UInt64 → UInt64 → Exec (Proc ℕ)
  | 0, _, _, _ => .error .outOfFuel
  | k + 1, start, stop, granularity =>
    if stop - start ≤ granularity then .ok (serialFor start stop)
    else do
      let n := stop - start
      -- not in the middle
      let mid := start + 9 * (n + 1) / 16
      let t ← parforRec k start mid granularity
      let u ← parforRec k mid stop granularity
      return par t u

/-- `parfor` with `numThreads` workers; the division by zero that no worker leads to is a fault -/
def parfor (numThreads : UInt32) (ticks : ℕ → ℕ) (k : ℕ) (start stop granularity : UInt64) : Exec (Proc ℕ) :=
  if stop ≤ start then .ok done
  else if granularity = 0 then do
    let (t, fin) ← getGranularity ticks start stop k 0 1 0
    let parts := (128 * numThreads).toUInt64
    if parts = 0 then .error .divisionByZero
    else
      let share := (stop - start) / parts
      let granularity := if fin < share then share else fin
      let u ← parforRec k (start + fin) stop granularity
      return seq t u
  else parforRec k start stop granularity

/-- `parallel_for` -/
def parallelFor (numThreads : UInt32) (ticks : ℕ → ℕ) (k : ℕ) (start stop : UInt64) (granularity : Int64) :
    Exec (Proc ℕ) :=
  if start + 1 = stop then .ok (call start.toNat)
  else if stop - start ≤ granularity.toUInt64 then .ok (serialFor start stop)
  else if start < stop then parfor numThreads ticks k start stop granularity.toUInt64
  else .ok done

/-! ## The iterations -/

/-- the iterations from `start` to `stop` -/
def iterations (start stop : UInt64) : List ℕ := List.range' start.toNat (stop.toNat - start.toNat)

variable {start stop mid fin sz granularity : UInt64} {k : ℕ} {t u : Proc ℕ} {numThreads : UInt32}

theorem leaves_serialFor (start stop : UInt64) : (serialFor start stop).leaves = iterations start stop :=
  leaves_seqAll _

theorem leftDepth_serialFor (start stop : UInt64) : (serialFor start stop).leftDepth (fun _ => 0) = 0 :=
  leftDepth_seqAll _ fun _ _ => rfl

theorem pairs_serialFor (start stop : UInt64) : ((serialFor start stop).pairs fun _ => 0) = 0 :=
  pairs_eq_zero (leftDepth_serialFor start stop)

theorem iterations_append (h₁ : start ≤ mid) (h₂ : mid ≤ stop) :
    iterations start mid ++ iterations mid stop = iterations start stop := by
  rw [UInt64.le_iff_toNat_le] at h₁ h₂
  unfold iterations
  obtain ⟨a, ha⟩ := Nat.exists_eq_add_of_le h₁
  obtain ⟨b, hb⟩ := Nat.exists_eq_add_of_le h₂
  rw [hb, ha, Nat.add_sub_cancel_left, Nat.add_sub_cancel_left, List.range'_append_1, Nat.add_assoc,
    Nat.add_sub_cancel_left]

theorem iterations_one (h : start ≤ stop) (hone : start + 1 = stop) : iterations start stop = [start.toNat] := by
  have hle := UInt64.le_iff_toNat_le.1 h
  have hstart := start.toNat_lt
  have h1 : (1 : UInt64).toNat = 1 := rfl
  have hstop : stop.toNat = start.toNat + 1 := by
    rw [← hone, UInt64.toNat_add] at hle ⊢
    omega
  rw [iterations, hstop, Nat.add_sub_cancel_left]
  rfl

/-- a range with room for the arithmetic of `mid` -/
structure Loopable (start stop : UInt64) : Prop where
  le : start ≤ stop
  small : 9 * (stop.toNat - start.toNat + 1) < 2 ^ 64

namespace Loopable

theorem toNat_sub (h : Loopable start stop) : (stop - start).toNat = stop.toNat - start.toNat :=
  UInt64.toNat_sub_of_le _ _ h.le

theorem toNat_mid (h : Loopable start stop) :
    (start + 9 * (stop - start + 1) / 16).toNat = start.toNat + 9 * (stop.toNat - start.toNat + 1) / 16 := by
  have hsub := h.toNat_sub
  have hsmall := h.small
  have hle := UInt64.le_iff_toNat_le.1 h.le
  have hstop := stop.toNat_lt
  have h1 : (stop - start + 1).toNat = stop.toNat - start.toNat + 1 := by
    rw [UInt64.toNat_add, hsub]
    exact Nat.mod_eq_of_lt (by rw [UInt64.toNat_one]; omega)
  have h9 : (9 * (stop - start + 1)).toNat = 9 * (stop.toNat - start.toNat + 1) := by
    rw [UInt64.toNat_mul, h1]
    exact Nat.mod_eq_of_lt hsmall
  have h16 : (9 * (stop - start + 1) / 16).toNat = 9 * (stop.toNat - start.toNat + 1) / 16 := by
    rw [UInt64.toNat_div, h9]
    rfl
  rw [UInt64.toNat_add, h16]
  exact Nat.mod_eq_of_lt (by omega)

/-- a range of two or more iterations is split strictly inside, with at most two thirds of it on the left side -/
theorem mid_spec (h : Loopable start stop) (h2 : 2 ≤ stop.toNat - start.toNat)
    (hmid : mid = start + 9 * (stop - start + 1) / 16) :
    start < mid ∧ mid < stop ∧ 3 * (mid.toNat - start.toNat) ≤ 2 * (stop.toNat - start.toNat) := by
  have hle := UInt64.le_iff_toNat_le.1 h.le
  rw [UInt64.lt_iff_toNat_lt, UInt64.lt_iff_toNat_lt, hmid, h.toNat_mid, Nat.add_sub_cancel_left]
  generalize hn : stop.toNat - start.toNat = n at h2
  refine ⟨by omega, by omega, ?_⟩
  by_cases h6 : 6 ≤ n
  · omega
  · interval_cases n <;> decide

theorem mono (h : Loopable start stop) (h₁ : start ≤ mid) (h₂ : mid ≤ fin) (h₃ : fin ≤ stop) : Loopable mid fin := by
  have hsmall := h.small
  rw [UInt64.le_iff_toNat_le] at h₁ h₂ h₃
  exact ⟨UInt64.le_iff_toNat_le.2 h₂, by omega⟩

end Loopable

/-- **The halving recursion** makes the iterations of its range, once each. -/
theorem parforRec_spec (h : Loopable start stop) (hg : granularity ≠ 0) :
    ∃ t, Returns (fun k => parforRec k start stop granularity) t ∧ t.leaves = iterations start stop ∧
      (∀ j, (stop.toNat - start.toNat) * 2 ^ j ≤ granularity.toNat * 3 ^ j → t.leftDepth (fun _ => 0) ≤ j) ∧
      (t.pairs fun _ => 0) ≤ stop.toNat - start.toNat - 1 := by
  have hpos : 1 ≤ granularity.toNat := by
    have hne : granularity.toNat ≠ 0 := fun he => hg (UInt64.toNat_inj.1 he)
    omega
  induction hm : stop.toNat - start.toNat using Nat.strong_induction_on generalizing start stop with
  | _ m ih =>
    by_cases hle : stop - start ≤ granularity
    · refine ⟨serialFor start stop, Returns.succ (Returns.of_forall fun k => ?_), leaves_serialFor _ _, fun j _ => ?_, ?_⟩
      · rw [parforRec, if_pos hle]
      · rw [leftDepth_serialFor]
        exact Nat.zero_le j
      · rw [pairs_serialFor]
        exact Nat.zero_le _
    · have hsub := h.toNat_sub
      have h2 : 2 ≤ stop.toNat - start.toNat := by
        rw [UInt64.le_iff_toNat_le, hsub] at hle
        omega
      obtain ⟨mid, hmid⟩ : ∃ mid, mid = start + 9 * (stop - start + 1) / 16 := ⟨_, rfl⟩
      obtain ⟨hlow, hhigh, hthird⟩ := h.mid_spec h2 hmid
      have hl := UInt64.lt_iff_toNat_lt.1 hlow
      have hr := UInt64.lt_iff_toNat_lt.1 hhigh
      have hle₁ : start ≤ mid := UInt64.le_iff_toNat_le.2 hl.le
      have hle₂ : mid ≤ stop := UInt64.le_iff_toNat_le.2 hr.le
      obtain ⟨t, ht, hleaves, hdepth, hpairs⟩ := ih _ (by omega) (h.mono (UInt64.le_refl _) hle₁ hle₂) rfl
      obtain ⟨u, hu, hleaves', hdepth', hpairs'⟩ := ih _ (by omega) (h.mono hle₁ hle₂ (UInt64.le_refl _)) rfl
      have hrun := Returns.bind (g := fun k t => do return par t (← parforRec k mid stop granularity)) ht
        (hu.map (g := fun u => par t u))
      refine ⟨par t u, Returns.succ (hrun.congr fun k => ?_), ?_, fun j hj => ?_, ?_⟩
      · rw [parforRec, if_neg hle, hmid]
      · rw [leaves, hleaves, hleaves', iterations_append hle₁ hle₂]
      · -- the left side has two thirds of the range, the right side is in no left side more
        cases j with
        | zero =>
          rw [UInt64.le_iff_toNat_le, hsub] at hle
          omega
        | succ j =>
          have hleft : 3 * ((mid.toNat - start.toNat) * 2 ^ j) ≤ 3 * (granularity.toNat * 3 ^ j) := by
            calc 3 * ((mid.toNat - start.toNat) * 2 ^ j) = 3 * (mid.toNat - start.toNat) * 2 ^ j := by ring
              _ ≤ 2 * (stop.toNat - start.toNat) * 2 ^ j := Nat.mul_le_mul_right _ hthird
              _ = m * 2 ^ (j + 1) := by rw [hm]; ring
              _ ≤ granularity.toNat * 3 ^ (j + 1) := hj
              _ = 3 * (granularity.toNat * 3 ^ j) := by ring
          have hright : (stop.toNat - mid.toNat) * 2 ^ (j + 1) ≤ granularity.toNat * 3 ^ (j + 1) :=
            (Nat.mul_le_mul_right _ (by omega)).trans hj
          exact max_le (Nat.succ_le_succ (hdepth j (Nat.le_of_mul_le_mul_left hleft (by decide)))) (hdepth' _ hright)
      · -- each side has an iteration
        rw [pairs]
        omega

/-! ## The first iterations -/

theorem leaves_batch (h : Loopable start stop) (hf : fin.toNat + sz.toNat ≤ stop.toNat - start.toNat) :
    (batch start fin sz).leaves = List.range' (start.toNat + fin.toNat) sz.toNat := by
  have hstop := stop.toNat_lt
  have hle := UInt64.le_iff_toNat_le.1 h.le
  rw [batch, leaves_seqAll, List.range'_eq_map_range]
  refine List.map_congr_left fun i hi => ?_
  have hi := List.mem_range.1 hi
  rw [UInt64.toNat_add, UInt64.toNat_add, UInt64.toNat_ofNat', Nat.mod_eq_of_lt (by omega : i < 2 ^ 64),
    Nat.mod_eq_of_lt (by omega : start.toNat + fin.toNat < 2 ^ 64), Nat.mod_eq_of_lt (by omega)]

/-- **The batches** make iterations from the first one on, in order; `sz` is at most one more than the number made. -/
theorem getGranularity_spec (ticks : ℕ → ℕ) (h : Loopable start stop) (i : ℕ) (hsz : 1 ≤ sz.toNat ∧ sz.toNat ≤ fin.toNat + 1)
    (hfin : fin.toNat < stop.toNat - start.toNat) :
    ∃ t r, Returns (fun k => getGranularity ticks start stop k i sz fin) (t, r) ∧ fin.toNat < r.toNat ∧
      r.toNat ≤ stop.toNat - start.toNat ∧ t.leaves = List.range' (start.toNat + fin.toNat) (r.toNat - fin.toNat) ∧
      t.leftDepth (fun _ => 0) = 0 := by
  have hsub := h.toNat_sub
  have hsmall := h.small
  have hle := UInt64.le_iff_toNat_le.1 h.le
  have hstop := stop.toNat_lt
  induction hm : stop.toNat - start.toNat - fin.toNat using Nat.strong_induction_on generalizing i sz fin with
  | _ m ih =>
    have hadd : (start + fin).toNat = start.toNat + fin.toNat := by
      rw [UInt64.toNat_add]
      exact Nat.mod_eq_of_lt (by omega)
    have hrest : (stop - (start + fin)).toNat = stop.toNat - start.toNat - fin.toNat := by
      rw [UInt64.toNat_sub_of_le _ _ (UInt64.le_iff_toNat_le.2 (by omega)), hadd]
      omega
    -- the size of this batch
    obtain ⟨sz', hsz'⟩ : ∃ sz', sz' = if stop - (start + fin) < sz then stop - (start + fin) else sz := ⟨_, rfl⟩
    have hsz₁ : 1 ≤ sz'.toNat ∧ sz'.toNat ≤ fin.toNat + 1 ∧ fin.toNat + sz'.toNat ≤ stop.toNat - start.toNat := by
      rw [hsz']
      split_ifs with hlt
      · rw [UInt64.lt_iff_toNat_lt] at hlt
        omega
      · rw [UInt64.lt_iff_toNat_lt] at hlt
        omega
    have hfin' : (fin + sz').toNat = fin.toNat + sz'.toNat := by
      rw [UInt64.toNat_add]
      exact Nat.mod_eq_of_lt (by omega)
    have hbatch := leaves_batch h hsz₁.2.2
    have hserial : (batch start fin sz').leftDepth (fun _ => 0) = 0 := leftDepth_seqAll _ fun _ _ => rfl
    by_cases hcont : ticks i < 1000 ∧ fin + sz' < stop - start
    · have hlt := UInt64.lt_iff_toNat_lt.1 hcont.2
      have hdouble : (sz' * 2).toNat = 2 * sz'.toNat := by
        rw [UInt64.toNat_mul, Nat.mul_comm]
        exact Nat.mod_eq_of_lt (by
          have h2 : (2 : UInt64).toNat = 2 := rfl
          rw [h2]
          omega)
      obtain ⟨t, r, hrun, hlow, hhigh, hleaves, hdepth⟩ := ih (stop.toNat - start.toNat - (fin + sz').toNat) (by omega) (i + 1)
        (show 1 ≤ (sz' * 2).toNat ∧ (sz' * 2).toNat ≤ (fin + sz').toNat + 1 by omega) (by omega) rfl
      refine ⟨seq (batch start fin sz') t, r, Returns.succ ((hrun.map (g := fun q =>
        (seq (batch start fin sz') q.1, q.2))).congr fun k => ?_), by omega, hhigh, ?_, ?_⟩
      · rw [getGranularity, ← hsz', if_pos hcont]
      · obtain ⟨a, ha⟩ := Nat.exists_eq_add_of_le (show fin.toNat + sz'.toNat ≤ r.toNat by omega)
        rw [leaves, hbatch, hleaves, hfin', ← Nat.add_assoc, ha, Nat.add_sub_cancel_left, List.range'_append_1,
          Nat.add_assoc, Nat.add_sub_cancel_left]
      · rw [leftDepth, hserial, hdepth]
        rfl
    · refine ⟨batch start fin sz', fin + sz', Returns.succ (Returns.of_forall fun k => ?_), by omega, by omega, ?_, hserial⟩
      · rw [getGranularity, ← hsz', if_neg hcont]
        rfl
      · rw [hbatch, hfin', Nat.add_sub_cancel_left]

/-! ## The whole loop -/

theorem parfor_spec (ticks : ℕ → ℕ) (h : Loopable start stop) (granularity : UInt64)
    (hp : granularity = 0 → 128 * numThreads ≠ 0) :
    ∃ t, Returns (fun k => parfor numThreads ticks k start stop granularity) t ∧ t.leaves = iterations start stop ∧
      (∀ j, (stop.toNat - start.toNat) * 2 ^ j ≤ max 1 granularity.toNat * 3 ^ j → t.leftDepth (fun _ => 0) ≤ j) ∧
      (t.pairs fun _ => 0) ≤ stop.toNat - start.toNat - 1 := by
  have hle := UInt64.le_iff_toNat_le.1 h.le
  have hsub := h.toNat_sub
  have hstop := stop.toNat_lt
  by_cases hempty : stop ≤ start
  · refine ⟨done, Returns.of_forall fun k => if_pos hempty, ?_, fun j _ => Nat.zero_le j, Nat.zero_le _⟩
    have hle' := UInt64.le_iff_toNat_le.1 hempty
    rw [iterations, Nat.sub_eq_zero_of_le hle']
    rfl
  · by_cases hg : granularity = 0
    · have hlt : start.toNat < stop.toNat := by
        rw [UInt64.le_iff_toNat_le] at hempty
        omega
      have h1 : (1 : UInt64).toNat = 1 := rfl
      have h0 : (0 : UInt64).toNat = 0 := rfl
      obtain ⟨t, r, hrun, hlow, hhigh, hleaves, hserial⟩ := getGranularity_spec ticks h 0
        (show 1 ≤ (1 : UInt64).toNat ∧ (1 : UInt64).toNat ≤ (0 : UInt64).toNat + 1 by omega) (by omega)
      rw [h0, Nat.add_zero, Nat.sub_zero] at hleaves
      have hparts : (128 * numThreads).toUInt64 ≠ 0 := by
        intro he
        have he := congrArg UInt64.toNat he
        rw [UInt32.toNat_toUInt64] at he
        exact hp hg (UInt32.toNat_inj.1 he)
      obtain ⟨g, hg'⟩ : ∃ g, g = if r < (stop - start) / (128 * numThreads).toUInt64 then
        (stop - start) / (128 * numThreads).toUInt64 else r := ⟨_, rfl⟩
      have hg₀ : g ≠ 0 := by
        intro he
        rw [he] at hg'
        split_ifs at hg' with hlt'
        · rw [← hg', UInt64.lt_iff_toNat_lt] at hlt'
          omega
        · rw [← hg'] at hlow
          omega
      have hmid : (start + r).toNat = start.toNat + r.toNat := by
        rw [UInt64.toNat_add]
        exact Nat.mod_eq_of_lt (by omega)
      have hle₁ : start ≤ start + r := UInt64.le_iff_toNat_le.2 (by omega)
      have hle₂ : start + r ≤ stop := UInt64.le_iff_toNat_le.2 (by omega)
      obtain ⟨u, hu, hleaves', hdepth, hpairs⟩ := parforRec_spec (h.mono hle₁ hle₂ (UInt64.le_refl _)) hg₀
      have hall := Returns.bind (g := fun k (q : Proc ℕ × UInt64) => do
        return seq q.1 (← parforRec k (start + q.2) stop (if q.2 < (stop - start) / (128 * numThreads).toUInt64 then
          (stop - start) / (128 * numThreads).toUInt64 else q.2))) hrun (hg' ▸ hu.map (g := fun u => seq t u))
      refine ⟨seq t u, hall.congr fun k => ?_, ?_, fun j hj => ?_, ?_⟩
      · rw [parfor, if_neg hempty, if_pos hg]
        simp only [if_neg hparts]
      · have hfirst : iterations start (start + r) = List.range' start.toNat r.toNat := by
          rw [iterations, hmid, Nat.add_sub_cancel_left]
        rw [leaves, hleaves, hleaves', ← iterations_append hle₁ hle₂, hfirst]
      · rw [leftDepth, hserial]
        have hone : max 1 granularity.toNat ≤ g.toNat := by
          have hne : g.toNat ≠ 0 := fun he => hg₀ (UInt64.toNat_inj.1 he)
          rw [hg, UInt64.toNat_zero]
          omega
        refine max_le (Nat.zero_le j) (hdepth j ?_)
        exact (Nat.mul_le_mul_right _ (by omega)).trans (hj.trans (Nat.mul_le_mul_right _ hone))
      · rw [pairs, pairs_eq_zero hserial]
        omega
    · obtain ⟨t, ht, hleaves, hdepth, hpairs⟩ := parforRec_spec h hg
      refine ⟨t, ht.congr fun k => ?_, hleaves, fun j hj => hdepth j ?_, hpairs⟩
      · rw [parfor, if_neg hempty, if_neg hg]
      · have hne : granularity.toNat ≠ 0 := fun he => hg (UInt64.toNat_inj.1 he)
        rwa [Nat.max_eq_right (by omega)] at hj

/-- **The parallel loop.** On a range with room for the arithmetic, for every granularity and every clock, `parallel_for`
ends and makes the iterations from `start` to `end`, once each, in at most `j` left sides when the range is at most
(3/2)^j times the granularity, with fewer pairs than iterations; granularity 0 needs a number of workers to divide by. -/
theorem parallelFor_spec (ticks : ℕ → ℕ) (h : Loopable start stop) (granularity : Int64)
    (hp : granularity = 0 → 128 * numThreads ≠ 0) :
    ∃ t, Returns (fun k => parallelFor numThreads ticks k start stop granularity) t ∧
      t.leaves = iterations start stop ∧ (∀ j, (stop.toNat - start.toNat) * 2 ^ j ≤
        max 1 granularity.toUInt64.toNat * 3 ^ j → t.leftDepth (fun _ => 0) ≤ j) ∧
      (t.pairs fun _ => 0) ≤ stop.toNat - start.toNat - 1 := by
  by_cases hone : start + 1 = stop
  · refine ⟨call start.toNat, Returns.of_forall fun k => if_pos hone, ?_, fun j _ => Nat.zero_le j, Nat.zero_le _⟩
    rw [iterations_one h.le hone]
    rfl
  · by_cases hg : stop - start ≤ granularity.toUInt64
    · refine ⟨serialFor start stop, Returns.of_forall fun k => ?_, leaves_serialFor _ _, fun j _ => ?_, ?_⟩
      · rw [parallelFor, if_neg hone, if_pos hg]
      · rw [leftDepth_serialFor]
        exact Nat.zero_le j
      · rw [pairs_serialFor]
        exact Nat.zero_le _
    · by_cases hlt : start < stop
      · obtain ⟨t, ht, hleaves, hdepth, hpairs⟩ := parfor_spec ticks h granularity.toUInt64 fun hz =>
          hp (by rw [← granularity.toInt64_toUInt64, hz]; rfl)
        refine ⟨t, ht.congr fun k => ?_, hleaves, hdepth, hpairs⟩
        rw [parallelFor, if_neg hone, if_neg hg, if_pos hlt]
      · refine ⟨done, Returns.of_forall fun k => ?_, ?_, fun j _ => Nat.zero_le j, Nat.zero_le _⟩
        · rw [parallelFor, if_neg hone, if_neg hg, if_neg hlt]
        · rw [UInt64.lt_iff_toNat_lt] at hlt
          rw [iterations, Nat.sub_eq_zero_of_le (by omega)]
          rfl

/-- **Within the granularity** the loop is sequential. -/
theorem parallelFor_within (numThreads : UInt32) (ticks : ℕ → ℕ) (k : ℕ) (h : start ≤ stop) {granularity : Int64}
    (hg : stop - start ≤ granularity.toUInt64) :
    ∃ t, parallelFor numThreads ticks k start stop granularity = .ok t ∧
      (t = serialFor start stop ∨ t = call start.toNat ∧ iterations start stop = [start.toNat]) := by
  by_cases hone : start + 1 = stop
  · exact ⟨call start.toNat, if_pos hone, Or.inr ⟨rfl, iterations_one h hone⟩⟩
  · refine ⟨serialFor start stop, ?_, Or.inl rfl⟩
    rw [parallelFor, if_neg hone, if_pos hg]

end HeavyLight
