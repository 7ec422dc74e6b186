/-
How many left sides of pairs a fork-join program is in at a time. A general library over `JobTree`.

- `Bounded.steps`, `Keeps.leftDepth`: when no call is followed by more left sides than its own, runs do not add to them.
- `leftRun fs`: the left sides that a running job is in. `leftRun_le`: these are left sides of the program of job 0.
-/
import HeavyLight.JobTree
import HeavyLight.Schedules

namespace HeavyLight

open Proc

section LeftDepth

variable {C D σ : Type} {body : Body C σ} {next : C → Proc C} {d : C → ℕ} {t t' : Proc C} {s s' : σ}
  {J : ℕ → Proc C} {fs : List (Frame C)} {k : ℕ}

/-! ## Left sides along runs -/

/-- calls that are followed by no more left sides than their own -/
def Bounded (body : Body C σ) (d : C → ℕ) : Prop := ∀ c s s' t, body c s = .ok (s', t) → t.leftDepth d ≤ d c

theorem Bounded.step (h : Bounded body d) (hstep : Step body t s t' s') : t'.leftDepth d ≤ t.leftDepth d := by
  induction hstep with
  | call hc => exact h _ _ _ _ hc
  | seqStep _ ih => exact max_le_max ih le_rfl
  | seqDone => exact le_max_right _ _
  | parLeft _ ih => exact max_le_max (Nat.succ_le_succ ih) le_rfl
  | parRight _ ih => exact max_le_max le_rfl ih
  | parDone => exact Nat.zero_le _

/-- **Runs** do not add left sides. -/
theorem Bounded.steps (h : Bounded body d) (hsteps : Steps body (t, s) (t', s')) :
    t'.leftDepth (fun _ => 0) ≤ t.leftDepth d := by
  have hall : ∀ q : Proc C × σ, Steps body (t, s) q → q.1.leftDepth d ≤ t.leftDepth d := by
    intro q hq
    induction hq with
    | refl => exact le_rfl
    | tail _ hstep ih => exact (h.step hstep).trans ih
  exact (leftDepth_mono (fun c => Nat.zero_le (d c)) t').trans (hall _ hsteps)

/-- **Histories.** Nor do runs whose calls are followed by `next`. -/
theorem Keeps.leftDepth {body : Body D σ} {f : C → D} {inv : List C → σ → Prop} {x : Proc D} (h : Keeps body next f t inv)
    (hk : Cost next t k) (h0 : inv [] s) (hd : ∀ c, (next c).leftDepth d ≤ d c) (hsteps : Steps body (t.map f, s) (x, s')) :
    x.leftDepth (fun _ => 0) ≤ t.leftDepth d := by
  have hbounded : Bounded (bare next) d := by
    intro c _ _ t hc
    cases hc
    exact hd c
  have hall : ∀ q : Proc D × σ, Steps body (t.map f, s) q → ∃ u, q.1 = u.map f ∧ u.leftDepth d ≤ t.leftDepth d ∧
      Place next t inv u q.2 := by
    intro q hq
    induction hq with
    | refl => exact ⟨t, rfl, le_rfl, place_start hk h0⟩
    | @tail q q' _ hstep ih =>
      obtain ⟨u, hu, hle, hplace⟩ := ih
      rw [hu] at hstep
      obtain ⟨u', hx, hbare, hplace'⟩ := h.step hplace hstep
      exact ⟨u', hx, (hbounded.step hbare).trans hle, hplace'⟩
  obtain ⟨u, hx, hle, -⟩ := hall _ hsteps
  rw [show x = u.map f from hx, leftDepth_map]
  exact (leftDepth_mono (fun c => Nat.zero_le (d c)) u).trans hle

/-! ## Left sides of jobs -/

/-- the left sides that a running job is in, since it has waited -/
def leftRun : List (Frame C) → ℕ
  | [] => 0
  | .next _ :: fs => leftRun fs
  | .left _ :: fs => leftRun fs + 1
  | .right :: fs => leftRun fs
  | .wait _ :: _ => 0

theorem leftDepth_seg (d : C → ℕ) (J : ℕ → Proc C) (t : Proc C) (fs : List (Frame C)) :
    t.leftDepth d + leftRun fs ≤ (seg J t fs).leftDepth d := by
  induction fs generalizing t with
  | nil => exact le_rfl
  | cons f fs ih =>
    cases f with
    | next u => exact (Nat.add_le_add_right (le_max_left _ _) _).trans (ih (seq t u))
    | left j =>
      have hle : t.leftDepth d + 1 ≤ (par t (J j)).leftDepth d := le_max_left _ _
      have := ih (par t (J j))
      simp only [seg, leftRun]
      omega
    | right => exact (Nat.add_le_add_right (le_max_right _ _) _).trans (ih (par done t))
    | wait j =>
      have hle : t.leftDepth d ≤ (par t (J j)).leftDepth d := (Nat.le_succ _).trans (le_max_left _ _)
      have := ih (par t (J j))
      simp only [seg, leftRun]
      omega

theorem leftDepth_seg_ref (d : C → ℕ) (hk : k ∈ refs fs) (t : Proc C) :
    (J k).leftDepth d ≤ (seg J t fs).leftDepth d := by
  have hside : ∀ fs t, (J k).leftDepth d ≤ (seg J (par t (J k)) fs).leftDepth d := fun fs t =>
    (le_max_right _ _).trans ((Nat.le_add_right _ _).trans (leftDepth_seg d J (par t (J k)) fs))
  induction fs generalizing t with
  | nil => cases hk
  | cons f fs ih =>
    cases f with
    | next u => exact ih hk _
    | right => exact ih hk _
    | left j =>
      rcases List.mem_cons.1 hk with rfl | hk
      · exact hside fs t
      · exact ih hk _
    | wait j =>
      rcases List.mem_cons.1 hk with rfl | hk
      · exact hside fs t
      · exact ih hk _

/-- **Left sides.** Those that a job is in are left sides of the program of job 0. -/
theorem JobTree.Inv.leftRun_le {T : JobTree C} (h : T.Inv) (hJ : T.Rest J) (hk : T.job k = .running t fs) (d : C → ℕ) :
    leftRun fs ≤ (J 0).leftDepth d := by
  have hroot := h.lift_root hJ (p := fun t => leftRun fs ≤ t.leftDepth d)
    (fun hj t hp => hp.trans (leftDepth_seg_ref d hj t)) (k := k) (by rw [hk]; exact fun he => nomatch he)
  refine hroot ?_
  rw [hJ k, hk]
  exact (Nat.le_add_left _ _).trans (leftDepth_seg d J t fs)

end LeftDepth

end HeavyLight
