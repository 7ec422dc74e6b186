/-
What `decompose` computes once `dfs` is done: the heads of the heavy paths, and the positions in the order that visits the
heavy child first.

- `Searched A s`: what `decompose` reads, the heavy children and the parents.
- `Placed A s w`: `head` and `pos` are final at `w`. `Layout`: everything else is unchanged.
- `placeChild_spec`: one recursive call from the loop. `placeLoop_spec`: the loop over the neighbours.
- `decompose_spec`: `decompose v (head v)` places exactly the nodes below `v`, on the positions from `pos v` on.
-/
import HeavyLight.Dfs

namespace HeavyLight

open ParentTree

namespace Hld

variable {n : ℕ} {A : AdjTree n} {s s' s'' s₀ : Hld} {u v w c : Fin n} {pre post : List (Fin n)}

/-- what `decompose` reads of the arrays of `dfs` -/
structure Searched (A : AdjTree n) (s : Hld) : Prop where
  n_eq : s.n = n
  adj_eq : s.adj = A.adj
  logN_pos : 1 < n → 0 < s.logN
  heavy : ∀ v : Fin n, s.heavy v = heavyId (A.rooted.heavy v)
  parent : ∀ v : Fin n, v ≠ A.root → s.kth v 0 = (A.rooted.parent v : ℕ)
  root : ∀ u ∈ A.nbrs A.root, s.kth 0 0 ≠ (u : ℕ)

/-- `head` and `pos` are final at `w` -/
structure Placed (A : AdjTree n) (s : Hld) (w : Fin n) : Prop where
  head : s.head w = (A.rooted.head w : ℕ)
  pos : s.pos w = A.rooted.pos w

/-- from `s` to `s'` only `curPos`, and `head` and `pos` at nodes in `P`, change -/
structure Layout (s s' : Hld) (P : Fin n → Prop) : Prop where
  rest : s' = { s with head := s'.head, pos := s'.pos, curPos := s'.curPos }
  head : ∀ x : ℤ, (∀ w, P w → x ≠ (w : ℕ)) → s'.head x = s.head x
  pos : ∀ x : ℤ, (∀ w, P w → x ≠ (w : ℕ)) → s'.pos x = s.pos x

namespace Layout

variable {P Q : Fin n → Prop}

theorem n_eq (h : Layout s s' P) : s'.n = s.n := by rw [h.rest]

theorem adj_eq (h : Layout s s' P) : s'.adj = s.adj := by rw [h.rest]

theorem trans (h : Layout s s' P) (h' : Layout s' s'' P) : Layout s s'' P := by
  refine ⟨?_, fun x hx => (h'.head x hx).trans (h.head x hx), fun x hx => (h'.pos x hx).trans (h.pos x hx)⟩
  have h1 := h'.rest
  rw [h.rest] at h1
  exact h1

theorem mono (h : Layout s s' P) (hP : ∀ w, P w → Q w) : Layout s s' Q :=
  ⟨h.rest, fun x hx => h.head x fun w hw => hx w (hP w hw), fun x hx => h.pos x fun w hw => hx w (hP w hw)⟩

theorem placed (h : Layout s s' P) (hw : ¬ P w) (hp : Placed A s w) : Placed A s' w := by
  have hout : ∀ x, P x → ((w : ℕ) : ℤ) ≠ (x : ℕ) := by
    intro x hx he
    exact hw (by rwa [node_ext he])
  exact ⟨(h.head _ hout).trans hp.head, (h.pos _ hout).trans hp.pos⟩

theorem searched (h : Layout s s' P) (hs : Searched A s) : Searched A s' := by
  refine ⟨h.n_eq.trans hs.n_eq, h.adj_eq.trans hs.adj_eq, ?_, ?_, ?_, ?_⟩ <;> rw [h.rest]
  · exact hs.logN_pos
  · exact hs.heavy
  · exact hs.parent
  · exact hs.root

end Layout

/-- `dfs 0` leaves what `decompose` reads -/
theorem dfs_searched {D : Set (Fin n)} (he : Entered A s D A.root) (h0 : ∀ u ∈ A.nbrs A.root, s.kth 0 0 ≠ (u : ℕ)) :
    ∃ s', Returns (fun k => dfs k 0 s) s' ∧ Frame s s' (fun w => w ≠ A.root) (fun _ => True) ∧
      (∀ w, Finished A s' w) ∧ Searched A s' := by
  obtain ⟨s', hs', hf, hfin⟩ := dfs_root he h0
  have hlog : 1 < n → 0 < s'.logN := fun hn => hf.logN_eq ▸ he.logN_pos hn
  refine ⟨s', hs', hf, hfin, hf.n_eq.trans he.n_eq, hf.adj_eq.trans he.adj_eq, hlog, fun v => (hfin v).heavy, ?_, ?_⟩
  · intro v hv
    exact (hfin v).kth_parent hlog hv
  · have hkth : s'.kth 0 = s.kth 0 := hf.kth_node (w := A.root) (fun h => h rfl)
    rw [hkth]
    exact h0

/-! ## The light children -/

/-- the light children are picked from the neighbours in their order -/
theorem lights_nbrs (v : Fin n) : A.rooted.lights v = (A.nbrs v).filter fun u => u ∈ A.rooted.lights v := by
  conv_lhs => rw [lights, A.children_rooted, List.filter_filter]
  apply List.filter_congr
  intro u hu
  simp only [mem_lights, A.children_rooted, List.mem_filter, hu, true_and, decide_eq_true_eq, Bool.decide_and]
  rw [Bool.and_comm]

theorem isLight_spec (hs : Searched A s) (hu : u ∈ A.nbrs v) :
    isLight s v u = .ok (decide (u ∈ A.rooted.lights v)) := by
  have hlog : 0 < s.logN := hs.logN_pos (one_lt_of_ne (A.ne_of_nbr hu))
  have hread : readKth s v 0 = .ok (s.kth v 0) := readKth_node hs.n_eq v (i := 0) hlog
  unfold isLight
  rw [hread, ok_bind]
  rcases A.nbr_cases hu with hc | ⟨hv, rfl⟩
  · have hp : ((u : ℕ) : ℤ) ≠ s.kth v 0 := by
      intro he
      by_cases hv : v = A.root
      · subst hv
        exact hs.root u hu he.symm
      · rw [hs.parent v hv] at he
        exact child_ne_parent hc (node_ext he)
    have htest : ((u : ℕ) : ℤ) ≠ heavyId (A.rooted.heavy v) ↔ u ∈ A.rooted.lights v := by
      rw [mem_lights, show ((u : ℕ) : ℤ) = heavyId (some u) from rfl, heavyId_injective.ne_iff]
      exact ⟨fun h => ⟨hc, fun he => h he.symm⟩, fun h he => h.2 he.symm⟩
    rw [if_pos hp, readCell_node hs.n_eq v, ok_bind, hs.heavy, decide_eq_decide.2 htest]
    rfl
  · -- the parent is no child
    have hnot : A.rooted.parent v ∉ A.rooted.lights v := by
      intro hl
      exact child_ne_parent (mem_lights.1 hl).1 rfl
    rw [hs.parent v hv, if_neg (fun h => h rfl), decide_eq_false hnot]
    rfl

/-! ## The loop -/

/-- what a call of `decompose v (head v)` does -/
def DecomposeSpec (A : AdjTree n) (v : Fin n) : Prop :=
  ∀ s, Searched A s → s.curPos = A.rooted.pos v →
    ∃ s', Returns (fun k => decompose k v (A.rooted.head v : ℕ) s) s' ∧ Layout s s' (fun w => A.rooted.Anc v w) ∧
      s'.curPos = A.rooted.pos v + A.rooted.size v ∧ ∀ w, A.rooted.Anc v w → Placed A s' w

/-- the state of `decompose v`, called in state `s₀`, once `v` and the subtrees of `pre` are placed -/
structure PlaceInv (A : AdjTree n) (s₀ s : Hld) (v : Fin n) (pre : List (Fin n)) : Prop where
  layout : Layout s₀ s (fun w => A.rooted.Anc v w)
  curPos : s.curPos = A.rooted.pos v + 1 + ((pre.map A.rooted.size).sum : ℕ)
  self : Placed A s v
  below : ∀ c ∈ pre, ∀ w, A.rooted.Anc c w → Placed A s w

/-- **One subtree.** The call for the next child in the order places its subtree. -/
theorem placeChild_spec (h : PlaceInv A s₀ s v pre) (hs : Searched A s₀) (hord : A.rooted.order v = pre ++ c :: post)
    (hspec : DecomposeSpec A c) :
    ∃ s', Returns (fun k => decompose k c (A.rooted.head c : ℕ) s) s' ∧ PlaceInv A s₀ s' v (pre ++ [c]) := by
  have hchild : ∀ x ∈ pre ++ c :: post, x ∈ A.rooted.children v := fun x hx => mem_order.1 (hord ▸ hx)
  have hc : c ∈ A.rooted.children v := hchild c (by simp)
  have hnot : c ∉ pre := by
    intro hmem
    have hnodup := A.rooted.order_nodup v
    rw [hord, List.nodup_append] at hnodup
    exact hnodup.2.2 c hmem c List.mem_cons_self rfl
  have hpos : s.curPos = A.rooted.pos c := by
    rw [h.curPos, pos_child hc, hord, sumBefore_append _ _ _ hnot]
    push_cast
    ring
  obtain ⟨s', hs', hlay, hcur, hplaced⟩ := hspec s (h.layout.searched hs) hpos
  refine ⟨s', hs', h.layout.trans (hlay.mono fun w hw => (Anc.of_child hc).trans hw), ?_, ?_, ?_⟩
  · rw [hcur, ← hpos, h.curPos]
    simp only [List.map_append, List.map_singleton, List.sum_append, List.sum_singleton, Nat.cast_add]
    ring
  · exact hlay.placed (not_anc_of_child hc) h.self
  · intro x hx w hxw
    rcases List.mem_append.1 hx with hx | hx
    · refine hlay.placed (fun hcw => hnot ?_) (h.below x hx w hxw)
      rwa [child_unique hc (hchild x (by simp [hx])) hcw hxw]
    · rw [List.mem_singleton.1 hx] at hxw
      exact hplaced w hxw

/-- **The loop.** Over the neighbours `us` it places the subtrees of the light children among them. -/
theorem placeLoop_spec (hs : Searched A s₀) (us : List (Fin n)) (hus : ∀ u ∈ us, u ∈ A.nbrs v)
    (hspec : ∀ u ∈ A.rooted.children v, DecomposeSpec A u) :
    ∀ s pre, A.rooted.order v = pre ++ us.filter (fun u => u ∈ A.rooted.lights v) → PlaceInv A s₀ s v pre →
      ∃ s', Returns (fun k => (us.map fun u : Fin n => ((u : ℕ) : ℤ)).foldlM (decomposeChild (decompose k) v) s) s' ∧
        PlaceInv A s₀ s' v (A.rooted.order v) := by
  induction us with
  | nil =>
    intro s pre hord h
    rw [List.filter_nil, List.append_nil] at hord
    exact ⟨s, Returns.foldlM_nil, hord ▸ h⟩
  | cons u us ih =>
    intro s pre hord h
    have ih' := ih fun x hx => hus x (List.mem_cons_of_mem _ hx)
    have htest := isLight_spec (h.layout.searched hs) (hus u List.mem_cons_self)
    by_cases hu : u ∈ A.rooted.lights v
    · rw [List.filter_cons, if_pos (decide_eq_true hu)] at hord
      obtain ⟨s₁, hs₁, h₁⟩ := placeChild_spec h hs hord (hspec u (mem_lights.1 hu).1)
      obtain ⟨s', hs', hinv⟩ := ih' s₁ (pre ++ [u]) (by rw [hord, List.append_assoc]; rfl) h₁
      refine ⟨s', Returns.foldlM_cons (Returns.congr hs₁ fun k => ?_) hs', hinv⟩
      unfold decomposeChild
      rw [htest, ok_bind, if_pos (decide_eq_true hu), head_of_light hu]
    · rw [List.filter_cons, if_neg (by simpa using hu)] at hord
      obtain ⟨s', hs', hinv⟩ := ih' s pre hord h
      refine ⟨s', Returns.foldlM_cons (Returns.of_forall fun k => ?_) hs', hinv⟩
      unfold decomposeChild
      rw [htest, ok_bind, if_neg (by simpa using hu)]
      rfl

/-! ## The whole decomposition -/

theorem visit_spec (hs : Searched A s) (hcur : s.curPos = A.rooted.pos v) :
    ∃ s', visit v (A.rooted.head v : ℕ) s = .ok s' ∧ PlaceInv A s s' v [] := by
  obtain ⟨s', hs'⟩ : ∃ s', s' = ({ s with
      head := Function.update s.head v (A.rooted.head v : ℕ),
      pos := Function.update s.pos v s.curPos,
      curPos := s.curPos + 1 } : Hld) := ⟨_, rfl⟩
  refine ⟨s', ?_, ⟨by rw [hs'], ?_, ?_⟩, ?_, ⟨?_, ?_⟩, by simp⟩
  · unfold visit
    rw [writeCell_node hs.n_eq v, ok_bind, writeCell_node hs.n_eq v, ok_bind, hs']
    rfl
  · intro x hx
    rw [hs']
    exact Function.update_of_ne (hx v (Anc.refl _ v)) _ _
  · intro x hx
    rw [hs']
    exact Function.update_of_ne (hx v (Anc.refl _ v)) _ _
  · rw [hs', hcur]
    simp
  · rw [hs']
    exact Function.update_self _ _ _
  · rw [hs', hcur]
    exact Function.update_self _ _ _

/-- **What `decompose v (head v)` does.** The nodes below `v` get their heads and the positions of the visit order. -/
theorem decompose_spec (v : Fin n) : DecomposeSpec A v := by
  refine A.rooted.ascend (fun v ih => ?_) v
  intro s hs hcur
  obtain ⟨s₁, hs₁, h₁⟩ := visit_spec hs hcur
  have hsearched := h₁.layout.searched hs
  have hord : A.rooted.order v = (A.rooted.heavy v).toList ++ (A.nbrs v).filter fun u => u ∈ A.rooted.lights v := by
    unfold order
    rw [← lights_nbrs]
  -- the heavy child first
  obtain ⟨s₂, hs₂, h₂⟩ : ∃ s₂, Returns (fun k => if heavyId (A.rooted.heavy v) ≠ -1 then
      decompose k (heavyId (A.rooted.heavy v)) (A.rooted.head v : ℕ) s₁ else pure s₁) s₂ ∧
      PlaceInv A s s₂ v (A.rooted.heavy v).toList := by
    cases hheavy : A.rooted.heavy v with
    | none => exact ⟨s₁, Returns.of_forall fun _ => rfl, h₁⟩
    | some c =>
      rw [hheavy] at hord
      obtain ⟨s₂, hs₂, h₂⟩ := placeChild_spec h₁ hs hord (ih c (heavy_mem hheavy))
      rw [head_of_heavy hheavy] at hs₂
      refine ⟨s₂, Returns.congr hs₂ fun k => ?_, h₂⟩
      rw [heavyId, if_pos (by omega)]
  obtain ⟨s', hs', hinv⟩ := placeLoop_spec hs (A.nbrs v) (fun _ h => h) ih s₂ _ hord h₂
  have hloop : Returns (fun k => do
      let us ← readCell s₂.n s₂.adj v
      us.foldlM (decomposeChild (decompose k) v) s₂) s' := by
    have hs₂' := h₂.layout.searched hs
    apply Returns.congr hs'
    intro k
    rw [readCell_node hs₂'.n_eq v, hs₂'.adj_eq, A.adj_coe, ok_bind]
  refine ⟨s', Returns.succ (Returns.congr (Returns.bind (g := fun k s => do
      let us ← readCell s.n s.adj v
      us.foldlM (decomposeChild (decompose k) v) s) hs₂ hloop) fun k => ?_), hinv.layout, ?_, ?_⟩
  · rw [decompose, hs₁, ok_bind, readCell_node hsearched.n_eq v, hsearched.heavy, ok_bind]
    split_ifs <;> rfl
  · rw [hinv.curPos, add_assoc, ← A.rooted.sum_order_lt v]
    push_cast
    ring
  · intro w hw
    rcases anc_iff_child.1 hw with rfl | ⟨c, hc, hcw⟩
    · exact hinv.self
    · exact hinv.below c (mem_order.2 hc) w hcw

end Hld

end HeavyLight
