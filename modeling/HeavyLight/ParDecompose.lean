/-
`par_decompose`: the decomposition with the light children of each node in a `parallel_for`, in any interleaving.

- `parDecompose`: the calls and the iterations, each with the assignments `head[v] = h; pos[v] = cur_pos++` in one step.
- `plan`: the same control over the nodes of the rooted tree; its traces are the orders of the visits.
- `allRuns_iff_plan`: what holds at the end of all runs is what holds after the visits of every trace of the plan.
- `plan_nodup`: a trace visits each node once. `plan_chained`, `exists_broken`: when heavy children always come right after
  their parents, and a trace in which one does not.
- `par_decompose_intact_iff`: the trees whose chains stay intact in all runs.
-/
import HeavyLight.History
import HeavyLight.Lca

namespace HeavyLight

open ParentTree Proc

namespace Hld

/-! ## The program -/

/-- a call of `par_decompose(v, h)`, or the iteration for the neighbour `u` in the `parallel_for` of `v` -/
inductive DecomposeCall where
  | node (v h : ℤ)
  | iter (v u : ℤ)

/-- `par_decompose`, with all iterations of its loops in parallel; the visit of a node is one atomic step -/
def parDecompose : Body DecomposeCall Hld
  | .node v h, s => do
    let s ← visit v h s
    let c ← readCell s.n s.heavy v
    let us ← readCell s.n s.adj v
    return (s, .seq (if c ≠ -1 then .call (.node c h) else .done) (parAll (us.map fun u => .call (.iter v u))))
  | .iter v u, s => do
    if ← isLight s v u then return (s, .call (.node u u)) else return (s, .done)

variable {n : ℕ} {A : AdjTree n} {s : Hld} {u v w a b c : Fin n} {m : List (Fin n)} {vals : ℤ → ℤ} {mem : Hld}

/-- every chain lies on consecutive positions, and the range of positions of a path query is its part of the chain -/
structure ChainsIntact (A : AdjTree n) (s : Hld) : Prop where
  next : ∀ v c : Fin n, A.rooted.heavy v = some c → s.pos c = s.pos v + 1
  range : ∀ v w : Fin n, (s.pos (s.head v) ≤ s.pos w ∧ s.pos w ≤ s.pos v) ↔
    A.rooted.head w = A.rooted.head v ∧ A.rooted.Anc w v

/-! ## Control -/

/-- what follows a call, whatever `head` and `pos` hold -/
noncomputable def follow (A : AdjTree n) : DecomposeCall → Proc DecomposeCall
  | .node v h => .seq ((A.rooted.heavy (A.ofInt v)).elim .done fun c : Fin n => .call (.node (c : ℕ) h))
      (parAll ((A.nbrs (A.ofInt v)).map fun u : Fin n => .call (.iter (A.ofInt v : ℕ) (u : ℕ))))
  | .iter v u => if A.ofInt u ∈ A.rooted.lights (A.ofInt v) then
      .call (.node (A.ofInt u : ℕ) (A.ofInt u : ℕ)) else .done

/-- the assignments of a call -/
def assignments : DecomposeCall → Hld → Hld
  | .node v h, s => { s with
      head := Function.update s.head v h, pos := Function.update s.pos v s.curPos, curPos := s.curPos + 1 }
  | .iter _ _, s => s

/-- the calls that are made -/
def CallOk (A : AdjTree n) : DecomposeCall → Prop
  | .node v h => ∃ w : Fin n, v = (w : ℕ) ∧ h = (A.rooted.head w : ℕ)
  | .iter v u => ∃ w x : Fin n, x ∈ A.nbrs w ∧ v = (w : ℕ) ∧ u = (x : ℕ)

/-- what follows a call does not depend on the shared state -/
theorem control (A : AdjTree n) : Control parDecompose (follow A) assignments (CallOk A) (Searched A) := by
  refine ⟨?_, ?_, ?_⟩
  · intro c s hc hs
    cases c with
    | node v h =>
      obtain ⟨w, rfl, rfl⟩ := hc
      have hheavy := hs.heavy w
      simp only [parDecompose, visit, writeCell_node hs.n_eq, readCell_node hs.n_eq, ok_bind, pure, Except.pure, hheavy,
        hs.adj_eq, A.adj_coe, assignments, follow, A.ofInt_coe, List.map_map]
      cases A.rooted.heavy w with
      | none => rfl
      | some c =>
        rw [heavyId, if_pos (by omega)]
        rfl
    | iter v u =>
      obtain ⟨w, x, hx, rfl, rfl⟩ := hc
      simp only [parDecompose, isLight_spec hs hx, ok_bind, assignments, follow, A.ofInt_coe, decide_eq_true_eq]
      split_ifs <;> rfl
  · intro c s hc hs
    cases c with
    | node v h => exact ⟨hs.n_eq, hs.adj_eq, hs.logN_pos, hs.heavy, hs.parent, hs.root⟩
    | iter v u => exact hs
  · intro c hc
    cases c with
    | node v h =>
      obtain ⟨w, rfl, rfl⟩ := hc
      refine ⟨?_, ?_⟩
      · rw [A.ofInt_coe]
        cases hheavy : A.rooted.heavy w with
        | none => trivial
        | some c => exact ⟨c, rfl, by rw [head_of_heavy hheavy]⟩
      · apply all_parAll
        intro t ht
        obtain ⟨u, hu, rfl⟩ := List.mem_map.1 ht
        exact ⟨_, u, hu, rfl, rfl⟩
    | iter v u =>
      rw [follow]
      split_ifs with hl
      · exact ⟨_, rfl, by rw [head_of_light hl]⟩
      · trivial

/-- every call ends -/
theorem exists_cost (v : Fin n) : ∀ h : ℤ, ∃ k, Cost (follow A) (.call (.node (v : ℕ) h)) k := by
  refine A.rooted.ascend (P := fun v => ∀ h : ℤ, ∃ k, Cost (follow A) (.call (.node (v : ℕ) h)) k) (fun v ih => ?_) v
  intro h
  have hheavy : ∃ k, Cost (follow A) ((A.rooted.heavy v).elim .done fun c : Fin n => .call (.node (c : ℕ) h)) k := by
    cases hc : A.rooted.heavy v with
    | none => exact ⟨0, .done⟩
    | some c => exact ih c (heavy_mem hc) h
  have hiters : ∃ k, Cost (follow A) (parAll ((A.nbrs v).map fun u : Fin n => .call (.iter (v : ℕ) (u : ℕ)))) k := by
    apply exists_cost_parAll
    intro t ht
    obtain ⟨u, -, rfl⟩ := List.mem_map.1 ht
    by_cases hu : u ∈ A.rooted.lights v
    · obtain ⟨k, hk⟩ := ih u (mem_lights.1 hu).1 u
      refine ⟨k + 1, .call ?_⟩
      rw [follow, A.ofInt_coe, A.ofInt_coe, if_pos hu]
      exact hk
    · refine ⟨1, .call ?_⟩
      rw [follow, A.ofInt_coe, A.ofInt_coe, if_neg hu]
      exact .done
  obtain ⟨j, hj⟩ := hheavy
  obtain ⟨k, hk⟩ := hiters
  refine ⟨j + k + 1 + 1, .call ?_⟩
  rw [follow, A.ofInt_coe]
  exact hj.seq hk

/-! ## The plan -/

/-- the visits after that of `v`: the heavy subtree, then the light subtrees in parallel -/
noncomputable def plan (A : AdjTree n) (v : Fin n) : Proc (Fin n) :=
  .seq ((A.rooted.heavy v).elim .done .call)
    (parAll ((A.nbrs v).map fun u => if u ∈ A.rooted.lights v then .call u else .done))

/-- the node that a call visits -/
def visited (A : AdjTree n) : DecomposeCall → Option (Fin n)
  | .node v _ => some (A.ofInt v)
  | .iter _ _ => none

/-- the plan of a call -/
noncomputable def toPlan (A : AdjTree n) : DecomposeCall → Proc (Fin n)
  | .node v _ => .call (A.ofInt v)
  | .iter v u => if A.ofInt u ∈ A.rooted.lights (A.ofInt v) then .call (A.ofInt u) else .done

theorem hides (A : AdjTree n) : Hides (follow A) (plan A) (toPlan A) (visited A) := by
  intro c
  cases c with
  | node v h =>
    refine ⟨rfl, ?_⟩
    simp only [plan, follow, Proc.bind, bind_parAll, List.map_map]
    congr 1
    · cases A.rooted.heavy (A.ofInt v) with
      | none => rfl
      | some c => simp [Proc.bind, toPlan]
    · congr 1
      apply List.map_congr_left
      intro u _
      simp only [Function.comp_apply, Proc.bind, toPlan, A.ofInt_coe]
  | iter v u =>
    simp only [visited, toPlan, follow]
    split_ifs
    · simp [Proc.bind, toPlan]
    · rfl

/-- the state after the visits of a list of nodes -/
noncomputable def placeAll (A : AdjTree n) (m : List (Fin n)) (s : Hld) : Hld :=
  m.foldl (fun s (v : Fin n) => assignments (.node (v : ℕ) (A.rooted.head v : ℕ)) s) s

theorem foldl_assignments (l : List DecomposeCall) (hl : ∀ c ∈ l, CallOk A c) (s : Hld) :
    l.foldl (fun s c => assignments c s) s = placeAll A (l.filterMap (visited A)) s := by
  induction l generalizing s with
  | nil => rfl
  | cons c l ih =>
    have ih' := ih fun d hd => hl d (List.mem_cons_of_mem _ hd)
    cases c with
    | node v h =>
      obtain ⟨w, rfl, rfl⟩ := hl _ List.mem_cons_self
      rw [List.foldl_cons, ih', List.filterMap_cons_some (b := w) (by rw [visited, A.ofInt_coe])]
      rfl
    | iter v u =>
      rw [List.foldl_cons, ih', List.filterMap_cons_none rfl]
      rfl

/-- **Runs and orders of visits.** -/
theorem allRuns_iff_plan (hs : Searched A s) {P : Hld → Prop} :
    AllRuns parDecompose P (.call (.node 0 0)) s ↔
      ∀ m, Traces (plan A) (.call A.root) m → P (placeAll A m s) := by
  have hok : (Proc.call (DecomposeCall.node 0 0)).All (CallOk A) :=
    ⟨A.root, rfl, by rw [← A.rooted_root, A.rooted.head_root, A.rooted_root, A.coe_root]⟩
  obtain ⟨k, hk⟩ := exists_cost (A := A) A.root 0
  rw [A.coe_root] at hk
  have hroot : (Proc.call (DecomposeCall.node 0 0)).bind (toPlan A) = .call A.root := by
    rw [Proc.bind, toPlan, ← A.coe_root, A.ofInt_coe]
  rw [allRuns_iff_traces (control A) hok hs hk]
  refine ⟨?_, ?_⟩
  · intro h m hm
    rw [← hroot] at hm
    obtain ⟨l, hl, rfl⟩ := exists_trace_bind (hides A) hk hm
    rw [← foldl_assignments l (hl.all_ok (control A) hok)]
    exact h l hl
  · intro h l hl
    have hm := traces_bind (hides A) hl
    rw [hroot] at hm
    rw [foldl_assignments l (hl.all_ok (control A) hok)]
    exact h _ hm

/-! ## Orders of the visits -/

/-- a trace visits the node, and then the heavy subtree before the light ones -/
theorem traces_visit_iff : Traces (plan A) (.call v) m ↔
    ∃ l₁ l₂, m = v :: (l₁ ++ l₂) ∧ Traces (plan A) ((A.rooted.heavy v).elim .done .call) l₁ ∧
      Traces (plan A) (parAll ((A.rooted.lights v).map .call)) l₂ := by
  rw [traces_call_iff]
  refine ⟨?_, ?_⟩
  · intro hcase
    obtain ⟨m, rfl, h⟩ := hcase
    rw [plan] at h
    cases h with
    | seq h₁ h₂ =>
      rw [traces_parAll_filter (fun u => u ∈ A.rooted.lights v), ← lights_nbrs] at h₂
      exact ⟨_, _, rfl, h₁, h₂⟩
  · intro hcase
    obtain ⟨l₁, l₂, rfl, h₁, h₂⟩ := hcase
    rw [lights_nbrs, ← traces_parAll_filter (fun u => u ∈ A.rooted.lights v)] at h₂
    exact ⟨_, rfl, h₁.seq h₂⟩

/-- each node has an order of the visits below it -/
theorem exists_visits (A : AdjTree n) (v : Fin n) : ∃ m, Traces (plan A) (.call v) m := by
  obtain ⟨k, hk⟩ := exists_cost (A := A) v 0
  obtain ⟨l, hl⟩ := exists_trace hk
  have hm := traces_bind (hides A) hl
  rw [Proc.bind, toPlan, A.ofInt_coe] at hm
  exact ⟨_, hm⟩

/-- the light subtrees are visited without repetition when each of them is -/
theorem lights_visits (ih : ∀ c ∈ A.rooted.children v, ∀ m, Traces (plan A) (.call c) m →
    m.Nodup ∧ ∀ w, w ∈ m ↔ A.rooted.Anc c w) {us : List (Fin n)} (hus : ∀ u ∈ us, u ∈ A.rooted.children v)
    (hnodup : us.Nodup) (h : Traces (plan A) (parAll (us.map .call)) m) :
    m.Nodup ∧ ∀ w, w ∈ m ↔ ∃ u ∈ us, A.rooted.Anc u w := by
  exact traces_parAll_nodup (fun u hu l => ih u (hus u hu) l)
    (fun u hu x hx w huw hxw => child_unique (hus u hu) (hus x hx) huw hxw) hnodup h

/-- **Each node once.** The visits after a call for `v` are those of the nodes below `v`, each once. -/
theorem plan_nodup (v : Fin n) : ∀ m, Traces (plan A) (.call v) m → m.Nodup ∧ ∀ w, w ∈ m ↔ A.rooted.Anc v w := by
  refine A.rooted.ascend (P := fun v => ∀ m, Traces (plan A) (.call v) m →
    m.Nodup ∧ ∀ w, w ∈ m ↔ A.rooted.Anc v w) (fun v ih => ?_) v
  intro m hm
  obtain ⟨l₁, l₂, rfl, h₁, h₂⟩ := traces_visit_iff.1 hm
  have hheavy : l₁.Nodup ∧ ∀ w, w ∈ l₁ ↔ ∃ c ∈ (A.rooted.heavy v).toList, A.rooted.Anc c w := by
    cases hc : A.rooted.heavy v with
    | none =>
      rw [hc] at h₁
      cases h₁
      simp
    | some c =>
      rw [hc] at h₁
      obtain ⟨hn, hmem⟩ := ih c (heavy_mem hc) _ h₁
      exact ⟨hn, fun w => by simp [hmem]⟩
  have hlight := lights_visits ih (fun u hu => (mem_lights.1 hu).1) ((A.rooted.children_nodup v).filter _) h₂
  have hmem : ∀ w, w ∈ l₁ ++ l₂ ↔ ∃ c ∈ A.rooted.children v, A.rooted.Anc c w := by
    intro w
    rw [List.mem_append, hheavy.2, hlight.2]
    refine ⟨?_, ?_⟩
    · intro hcase
      rcases hcase with ⟨c, hc, hw⟩ | ⟨c, hc, hw⟩
      · exact ⟨c, mem_order.1 (List.mem_append.2 (Or.inl hc)), hw⟩
      · exact ⟨c, mem_order.1 (List.mem_append.2 (Or.inr hc)), hw⟩
    · intro hcase
      obtain ⟨c, hc, hw⟩ := hcase
      exact (List.mem_append.1 (mem_order.2 hc)).imp (fun h => ⟨c, h, hw⟩) fun h => ⟨c, h, hw⟩
  refine ⟨?_, ?_⟩
  · refine List.nodup_cons.2 ⟨fun hv => ?_, List.nodup_append.2 ⟨hheavy.1, hlight.1, ?_⟩⟩
    · obtain ⟨c, hc, hcv⟩ := (hmem v).1 hv
      exact not_anc_of_child hc hcv
    · rintro w hw₁ x hx rfl
      obtain ⟨c, hc, hcw⟩ := (hheavy.2 w).1 hw₁
      obtain ⟨u, hu, huw⟩ := (hlight.2 w).1 hx
      have hc := Option.mem_toList.1 hc
      obtain rfl := child_unique (heavy_mem hc) (mem_lights.1 hu).1 hcw huw
      exact (mem_lights.1 hu).2 hc
  · intro w
    rw [List.mem_cons, hmem, anc_iff_child, eq_comm]

/-! ## Trees whose chains stay intact -/

/-- where a node has several light children, they are leaves -/
def LightSiblingsLeaves (T : ParentTree (Fin n)) : Prop :=
  ∀ v, ∀ a ∈ T.lights v, ∀ b ∈ T.lights v, a ≠ b → T.children a = []

/-- every heavy child of the list comes right after its parent -/
def Chained (T : ParentTree (Fin n)) (m : List (Fin n)) : Prop :=
  ∀ v ∈ m, ∀ c, T.heavy v = some c → [v, c] <:+: m

/-- a visit of leaves only keeps every chain -/
theorem chained_of_leaves {T : ParentTree (Fin n)} (h : ∀ v ∈ m, T.children v = []) : Chained T m := by
  intro v hv c hc
  rw [heavy_eq_none.2 (h v hv)] at hc
  cases hc

theorem lights_chained (hgood : LightSiblingsLeaves A.rooted)
    (ih : ∀ c ∈ A.rooted.children v, ∀ m, Traces (plan A) (.call c) m → Chained A.rooted m)
    (h : Traces (plan A) (parAll ((A.rooted.lights v).map .call)) m) : Chained A.rooted m := by
  have hchild : ∀ u ∈ A.rooted.lights v, u ∈ A.rooted.children v := fun u hu => (mem_lights.1 hu).1
  have hnodup : (A.rooted.lights v).Nodup := (A.rooted.children_nodup v).filter _
  rcases hl : A.rooted.lights v with _ | ⟨a, _ | ⟨b, us⟩⟩
  · -- no light child
    rw [hl] at h
    cases h
    exact chained_of_leaves (by simp)
  · -- one light child
    rw [hl] at h
    cases h with
    | par h₁ h₂ hsh =>
      cases h₂
      rw [hsh.eq_of_nil_right]
      exact ih a (hchild a (by simp [hl])) _ h₁
  · -- several light children, all of them leaves
    have hleaf : ∀ u ∈ A.rooted.lights v, A.rooted.children u = [] := by
      intro u hu
      by_cases hua : u = a
      · subst hua
        rw [hl, List.nodup_cons, List.mem_cons, not_or] at hnodup
        exact hgood v u hu b (by simp [hl]) hnodup.1.1
      · exact hgood v u hu a (by simp [hl]) hua
    obtain ⟨-, hmem⟩ := lights_visits (fun c _ => plan_nodup c) hchild hnodup h
    apply chained_of_leaves
    intro w hw
    obtain ⟨u, hu, huw⟩ := (hmem w).1 hw
    rcases anc_iff_child.1 huw with rfl | ⟨c, hc, -⟩
    · exact hleaf _ hu
    · rw [hleaf u hu] at hc
      cases hc

/-- **Intact chains.** Where light siblings are leaves, every order of the visits keeps every chain. -/
theorem plan_chained (hgood : LightSiblingsLeaves A.rooted) (v : Fin n) :
    ∀ m, Traces (plan A) (.call v) m → Chained A.rooted m := by
  refine A.rooted.ascend (P := fun v => ∀ m, Traces (plan A) (.call v) m → Chained A.rooted m) (fun v ih => ?_) v
  intro m hm
  obtain ⟨l₁, l₂, rfl, h₁, h₂⟩ := traces_visit_iff.1 hm
  have hlight := lights_chained hgood ih h₂
  -- the heavy subtree, with the heavy child in front
  have hheavy : Chained A.rooted l₁ ∧ ∀ c, A.rooted.heavy v = some c → ∃ l, l₁ = c :: l := by
    cases hc : A.rooted.heavy v with
    | none =>
      rw [hc] at h₁
      cases h₁
      exact ⟨chained_of_leaves (by simp), by simp⟩
    | some c =>
      rw [hc] at h₁
      refine ⟨ih c (heavy_mem hc) _ h₁, fun c' hc' => ?_⟩
      obtain rfl := Option.some.inj hc'
      obtain ⟨l, hl, -⟩ := traces_call_iff.1 h₁
      exact ⟨l, hl⟩
  intro w hw c hc
  rcases List.mem_cons.1 hw with rfl | hw
  · obtain ⟨l, rfl⟩ := hheavy.2 c hc
    exact ⟨[], l ++ l₂, rfl⟩
  · have hin : [w, c] <:+: l₁ ++ l₂ := by
      rcases List.mem_append.1 hw with hw | hw
      · exact List.infix_append_of_infix_left (hheavy.1 w hw c hc)
      · exact List.infix_append_of_infix_right (hlight w hw c hc)
    exact hin.trans (List.suffix_cons v (l₁ ++ l₂)).isInfix

theorem exists_heavy_visits (A : AdjTree n) (v : Fin n) :
    ∃ l, Traces (plan A) ((A.rooted.heavy v).elim .done .call) l := by
  cases A.rooted.heavy v with
  | none => exact ⟨[], .done⟩
  | some c => exact exists_visits A c

/-- an order of the visits below a node is an unbroken part of an order of all visits -/
theorem exists_visits_unbroken (v : Fin n) :
    ∀ m, Traces (plan A) (.call v) m → ∃ l, Traces (plan A) (.call A.root) l ∧ m <:+: l := by
  refine A.rooted.descend (P := fun v => ∀ m, Traces (plan A) (.call v) m →
    ∃ l, Traces (plan A) (.call A.root) l ∧ m <:+: l) ?_ (fun v hv ih => ?_) v
  · intro m hm
    exact ⟨m, hm, List.infix_refl m⟩
  · intro m hm
    -- an order of the visits below the parent
    obtain ⟨l, hl, hin⟩ : ∃ l, Traces (plan A) (.call (A.rooted.parent v)) l ∧ m <:+: l := by
      have hv := A.rooted.mem_children_parent hv
      by_cases hheavy : A.rooted.heavy (A.rooted.parent v) = some v
      · obtain ⟨l₂, h₂⟩ := exists_trace_parAll (exists_visits A) (A.rooted.lights (A.rooted.parent v))
        have h₁ : Traces (plan A) ((A.rooted.heavy (A.rooted.parent v)).elim .done .call) m := by
          rw [hheavy]
          exact hm
        exact ⟨_, traces_visit_iff.2 ⟨m, l₂, rfl, h₁, h₂⟩, [A.rooted.parent v], l₂, rfl⟩
      · obtain ⟨l₁, h₁⟩ := exists_heavy_visits A (A.rooted.parent v)
        obtain ⟨l₂, h₂, hin⟩ := exists_trace_unbroken (exists_visits A) (mem_lights.2 ⟨hv, hheavy⟩) hm
        exact ⟨_, traces_visit_iff.2 ⟨l₁, l₂, rfl, h₁, h₂⟩,
          (List.infix_append_of_infix_right hin).trans (List.suffix_cons _ _).isInfix⟩
    obtain ⟨l', hl', hin'⟩ := ih l hl
    exact ⟨l', hl', hin.trans hin'⟩

theorem idxOf_next (hm : m.Nodup) (h : [a, b] <:+: m) : m.idxOf b = m.idxOf a + 1 := by
  obtain ⟨l₁, l₂, rfl⟩ := h
  rw [List.append_assoc] at hm ⊢
  obtain ⟨-, hn, hdisj⟩ := List.nodup_append.1 hm
  have ha : a ∉ l₁ := fun h => hdisj a h a (by simp) rfl
  have hb : b ∉ l₁ := fun h => hdisj b h b (by simp) rfl
  have hne : a ≠ b := by
    rintro rfl
    simp at hn
  rw [List.idxOf_append_of_notMem ha, List.idxOf_append_of_notMem hb]
  simp [List.idxOf_cons_ne _ hne]

/-- **A broken chain.** A light child that is no leaf and a light sibling give an order of the visits in which the sibling
comes between the child and its heavy child. -/
theorem exists_broken (hbad : ¬ LightSiblingsLeaves A.rooted) :
    ∃ m, Traces (plan A) (.call A.root) m ∧ ∃ a c, A.rooted.heavy a = some c ∧ m.idxOf c ≠ m.idxOf a + 1 := by
  unfold LightSiblingsLeaves at hbad
  push Not at hbad
  obtain ⟨v, a, ha, b, hb, hne, hchild⟩ := hbad
  obtain ⟨c, hc⟩ : ∃ c, A.rooted.heavy a = some c := by
    rw [← Option.ne_none_iff_exists', ne_eq, heavy_eq_none]
    exact hchild
  have hbc : b ≠ c := by
    rintro rfl
    have hav : a = v := by rw [← A.rooted.parent_of_child (heavy_mem hc), A.rooted.parent_of_child (mem_lights.1 hb).1]
    exact not_anc_of_child (mem_lights.1 ha).1 (hav ▸ Anc.refl _ a)
  obtain ⟨l₁, h₁⟩ := exists_heavy_visits A v
  obtain ⟨l₂, h₂, hin₂⟩ := exists_trace_adjacent (exists_visits A) ha hb hne
  obtain ⟨m, hm, hin⟩ := exists_visits_unbroken v _ (traces_visit_iff.2 ⟨l₁, l₂, rfl, h₁, h₂⟩)
  refine ⟨m, hm, a, c, hc, fun hnext => hbc ?_⟩
  have hab : [a, b] <:+: m :=
    ((List.infix_append_of_infix_right hin₂).trans (List.suffix_cons v (l₁ ++ l₂)).isInfix).trans hin
  have hbm : b ∈ m := hab.subset (by simp)
  obtain ⟨hn, -⟩ := plan_nodup A.root m hm
  exact (List.idxOf_inj hbm).1 ((idxOf_next hn hab).trans hnext.symm)

/-! ## Positions -/

/-- the visits of a list without repetitions number its nodes in the order of the list -/
theorem placeAll_spec (hm : m.Nodup) (s : Hld) :
    (placeAll A m s).curPos = s.curPos + m.length ∧
      ∀ w ∈ m, (placeAll A m s).head w = (A.rooted.head w : ℕ) ∧ (placeAll A m s).pos w = s.curPos + m.idxOf w := by
  induction m using List.reverseRecOn with
  | nil => simp [placeAll]
  | append_singleton m v ih =>
    obtain ⟨hn, -, hdisj⟩ := List.nodup_append.1 hm
    obtain ⟨hcur, hmem⟩ := ih hn
    have hstep : placeAll A (m ++ [v]) s =
        assignments (.node (v : ℕ) (A.rooted.head v : ℕ)) (placeAll A m s) := by
      rw [placeAll, List.foldl_concat]
      rfl
    have hv : v ∉ m := fun h => hdisj v h v (by simp) rfl
    rw [hstep]
    refine ⟨?_, fun w hw => ?_⟩
    · rw [assignments, hcur, List.length_append, List.length_singleton]
      push_cast
      ring
    · rcases List.mem_append.1 hw with hw | hw
      · have hne : ((w : ℕ) : ℤ) ≠ (v : ℕ) := by
          intro he
          exact hv (node_ext he ▸ hw)
        rw [List.idxOf_append_of_mem hw]
        exact ⟨(Function.update_of_ne hne _ _).trans (hmem w hw).1, (Function.update_of_ne hne _ _).trans (hmem w hw).2⟩
      · obtain rfl := List.mem_singleton.1 hw
        rw [List.idxOf_append_of_notMem hv, List.idxOf_cons_self, Nat.add_zero]
        exact ⟨Function.update_self _ _ _, (Function.update_self _ _ _).trans hcur⟩

/-- the positions keep the chains exactly when the order of the visits does -/
theorem chainsIntact_iff (hm : m.Nodup) (hall : ∀ w, w ∈ m) (s : Hld) :
    ChainsIntact A (placeAll A m s) ↔ ∀ v c, A.rooted.heavy v = some c → m.idxOf c = m.idxOf v + 1 := by
  have hpos : ∀ w : Fin n, (placeAll A m s).pos w = s.curPos + m.idxOf w := fun w => ((placeAll_spec hm s).2 w (hall w)).2
  have hhead : ∀ w : Fin n, (placeAll A m s).head w = (A.rooted.head w : ℕ) :=
    fun w => ((placeAll_spec hm s).2 w (hall w)).1
  refine ⟨?_, ?_⟩
  · intro h v c hc
    have := h.next v c hc
    rw [hpos, hpos] at this
    omega
  · intro h
    have hfollow : A.rooted.FollowsHeavy fun w => (placeAll A m s).pos w := by
      intro v c hc
      dsimp only
      rw [hpos, hpos, h v c hc]
      push_cast
      ring
    have hinj : Function.Injective fun w : Fin n => (placeAll A m s).pos w := by
      intro v w hvw
      dsimp only at hvw
      rw [hpos, hpos] at hvw
      exact (List.idxOf_inj (hall v)).1 (by omega)
    refine ⟨hfollow, fun v w => ?_⟩
    rw [hhead]
    exact hfollow.mem_range hinj v w

/-- **The decomposition** from what `dfs` leaves. -/
theorem allRuns_chainsIntact_iff (hs : Searched A s) :
    AllRuns parDecompose (ChainsIntact A) (.call (.node 0 0)) s ↔ LightSiblingsLeaves A.rooted := by
  rw [allRuns_iff_plan hs]
  have hall : ∀ m, Traces (plan A) (.call A.root) m → m.Nodup ∧ ∀ w, w ∈ m := by
    intro m hm
    obtain ⟨hn, hmem⟩ := plan_nodup A.root m hm
    exact ⟨hn, fun w => (hmem w).2 (Anc.root A.rooted w)⟩
  refine ⟨?_, ?_⟩
  · intro h
    by_contra hbad
    obtain ⟨m, hm, a, c, hc, hne⟩ := exists_broken hbad
    obtain ⟨hn, hmem⟩ := hall m hm
    exact hne ((chainsIntact_iff hn hmem s).1 (h m hm) a c hc)
  · intro hgood m hm
    obtain ⟨hn, hmem⟩ := hall m hm
    rw [chainsIntact_iff hn hmem]
    intro v c hc
    exact idxOf_next hn (plan_chained hgood A.root m hm v (hmem v) c hc)

/-- **When all interleavings keep the chains**: in the trees in which light siblings are leaves. -/
theorem par_decompose_intact_iff (A : AdjTree n) (vals : ℤ → ℤ) (mem : Hld) {D : Set (Fin n)}
    (hD : Closed (A.load vals mem) D) (h0 : A.root ∈ D)
    (hk : ∀ u ∈ A.nbrs A.root, (A.load vals mem).kth 0 0 ≠ (u : ℕ)) :
    ∃ s, Returns (fun k => dfs k 0 (A.load vals mem)) s ∧
      (AllRuns parDecompose (ChainsIntact A) (.call (.node 0 0)) s ↔ LightSiblingsLeaves A.rooted) := by
  obtain ⟨s, hs, -, -, hsearched⟩ := dfs_searched (entered_load hD h0) hk
  exact ⟨s, hs, allRuns_chainsIntact_iff hsearched⟩

theorem par_decompose_intact_iff_longPath :
    ∃ s, Returns (fun k => dfs k 0 (longPath.load (fun _ => 1) AdjTree.zeroMemory)) s ∧
      AllRuns parDecompose (ChainsIntact longPath) (.call (.node 0 0)) s := by
  have hz := longPath.rootZero_zeroMemory fun _ => 1
  obtain ⟨s, hs, hiff⟩ := par_decompose_intact_iff longPath (fun _ => 1) AdjTree.zeroMemory (closed_root hz.kth) rfl
    (root_not_nbr hz.kth)
  refine ⟨s, hs, hiff.2 ?_⟩
  rw [rooted_longPath, LightSiblingsLeaves]
  decide

/-- node 0 with the children 1, 2 and 3, of which 1 and 2 have a child each -/
def twoLightsTree : ParentTree (Fin 6) := ParentTree.numbered ![0, 0, 0, 0, 1, 2] (by decide) (by decide)

def twoLights : AdjTree 6 := AdjTree.ofParentTree twoLightsTree

/-- **A broken chain**: node 3 may come between 2 and its heavy child 5. -/
theorem twoLights_broken :
    ∃ s, Returns (fun k => dfs k 0 (twoLights.load (fun _ => 1) AdjTree.zeroMemory)) s ∧
      ¬ AllRuns parDecompose (ChainsIntact twoLights) (.call (.node 0 0)) s := by
  have hz := twoLights.rootZero_zeroMemory fun _ => 1
  obtain ⟨s, hs, -, -, hsearched⟩ := dfs_searched (entered_load (closed_root hz.kth) rfl) (root_not_nbr hz.kth)
  refine ⟨s, hs, ?_⟩
  have hrooted : twoLights.rooted = twoLightsTree := AdjTree.rooted_ofParentTree twoLightsTree rfl
  rw [allRuns_chainsIntact_iff hsearched, hrooted, LightSiblingsLeaves]
  decide

end Hld

end HeavyLight
