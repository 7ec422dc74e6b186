/-
Any largest child as the heavy child: the stages after a depth-first search that may break the ties between largest
children in any way, as `par_dfs` does.

- `AdjTree.reorder`: the same tree with its adjacency lists in another order.
- `HeavyChoice A`: a largest child for each node that has children. `front H`: the tree with that child first in the list
  of its parent; `heavy_front`: there it is the heavy child.
- `SameLights s adj`: the lists `adj` have the light neighbours of those of `s`, in the same order.
  `decompose_withAdj`: then `decompose` does the same with them.
- `SearchedAny A s`: what a search leaves with any largest children in `heavy`. `decompose_any`, `build_any`:
  `decompose(0, 0)` and `build_st` after it leave a state that is `Ready` for the tree `front H`.
- `par_dfs_sessions`: after any interleaving of `par_dfs(0)` and these stages, all calls have their answers.
-/
import HeavyLight.ParDfs
import HeavyLight.ParPreprocess
import HeavyLight.Session

namespace HeavyLight

open ParentTree

/-! ## Lists in another order -/

/-- the tree with its adjacency lists in another order -/
def AdjTree.reorder {n : ℕ} (A : AdjTree n) (nbrs : Fin n → List (Fin n)) (h : ∀ v, (nbrs v).Perm (A.nbrs v)) :
    AdjTree n where
  graph := A.graph
  isTree := A.isTree
  nbrs := nbrs
  nodup v := (h v).nodup_iff.2 (A.nodup v)
  mem_nbrs v u := (h v).mem_iff.trans (A.mem_nbrs v u)

variable {n : ℕ} {A : AdjTree n} {u v w : Fin n}

/-- a largest child for each node that has children -/
structure HeavyChoice (A : AdjTree n) where
  heavy : Fin n → Option (Fin n)
  leaf : ∀ v, heavy v = none → A.rooted.children v = []
  child : ∀ v c, heavy v = some c → c ∈ A.rooted.children v
  largest : ∀ v c, heavy v = some c → ∀ u ∈ A.rooted.children v, A.rooted.size u ≤ A.rooted.size c

namespace HeavyChoice

variable (H : HeavyChoice A)

/-- the list of `v` with the chosen child first -/
def nbrs (v : Fin n) : List (Fin n) :=
  match H.heavy v with
  | none => A.nbrs v
  | some c => c :: (A.nbrs v).erase c

theorem nbrs_none (h : H.heavy v = none) : H.nbrs v = A.nbrs v := by simp only [nbrs, h]

theorem nbrs_some {c : Fin n} (h : H.heavy v = some c) : H.nbrs v = c :: (A.nbrs v).erase c := by simp only [nbrs, h]

theorem perm_nbrs (v : Fin n) : (H.nbrs v).Perm (A.nbrs v) := by
  cases hc : H.heavy v with
  | none => rw [H.nbrs_none hc]
  | some c =>
    rw [H.nbrs_some hc]
    exact (List.perm_cons_erase (Hld.nbr_of_child (H.child v c hc))).symm

/-- the tree with the chosen children first -/
def front : AdjTree n := A.reorder H.nbrs H.perm_nbrs

theorem mem_children_front : u ∈ H.front.rooted.children v ↔ u ∈ A.rooted.children v := by
  rw [mem_children, mem_children]
  exact Iff.rfl

/-- the chosen child is the heavy one -/
theorem heavy_front (v : Fin n) : H.front.rooted.heavy v = H.heavy v := by
  cases hc : H.heavy v with
  | none =>
    rw [heavy_eq_none, List.eq_nil_iff_forall_not_mem]
    intro u hu
    rw [H.mem_children_front, H.leaf v hc] at hu
    cases hu
  | some c =>
    have hne : c ≠ A.rooted.parent v := child_ne_parent (H.child v c hc)
    have hchildren : H.front.rooted.children v =
        c :: ((A.nbrs v).erase c).filter fun u => u ≠ A.rooted.parent v := by
      rw [H.front.children_rooted]
      show (H.nbrs v).filter (fun u => u ≠ A.rooted.parent v) = _
      rw [H.nbrs_some hc, List.filter_cons_of_pos (by simpa using hne)]
    rw [ParentTree.heavy, hchildren]
    apply heavyOf_cons
    intro u hu
    refine H.largest v c hc u (H.mem_children_front.1 ?_)
    rw [hchildren]
    exact List.mem_cons_of_mem _ hu

/-- the light children keep their order -/
theorem lights_front (v : Fin n) :
    (A.nbrs v).filter (fun u => u ∈ H.front.rooted.lights v) =
      (H.nbrs v).filter fun u => u ∈ H.front.rooted.lights v := by
  cases hc : H.heavy v with
  | none => rw [H.nbrs_none hc]
  | some c =>
    have hlight : c ∉ H.front.rooted.lights v := by
      intro h
      exact (mem_lights.1 h).2 ((H.heavy_front v).trans hc)
    rw [H.nbrs_some hc, List.filter_cons_of_neg (by simpa using hlight), (A.nodup v).erase_eq_filter, List.filter_filter]
    refine List.filter_congr fun u _ => ?_
    have hu : u ∈ H.front.rooted.lights v → u ≠ c := fun h he => hlight (he ▸ h)
    by_cases h : u ∈ H.front.rooted.lights v
    · simp [h, hu h]
    · simp [h]

end HeavyChoice

namespace Hld

variable {s s' t : Hld} {vals : ℤ → ℤ} {mem : Hld}

/-! ## What `decompose` reads of the lists -/

/-- the result of the test for a light child -/
def lightIn (s : Hld) (v x : ℤ) : Bool :=
  match isLight s v x with
  | .ok b => b
  | .error _ => false

/-- the lists `adj` have the light neighbours of those of `s`, in the same order -/
structure SameLights (s : Hld) (adj : ℤ → List ℤ) : Prop where
  tests : ∀ v x : ℤ, x ∈ s.adj v ∨ x ∈ adj v → isLight s v x = .ok (lightIn s v x)
  lists : ∀ v : ℤ, (s.adj v).filter (lightIn s v) = (adj v).filter (lightIn s v)

/-- `decompose` writes `head`, `pos` and `cur_pos` only -/
def DecomposeFrame (s s' : Hld) : Prop := s' = { s with head := s'.head, pos := s'.pos, curPos := s'.curPos }

namespace DecomposeFrame

theorem refl (s : Hld) : DecomposeFrame s s := rfl

theorem trans (h : DecomposeFrame s s') (h' : DecomposeFrame s' t) : DecomposeFrame s t := by
  unfold DecomposeFrame at *
  rw [h'] at *
  rw [h]

theorem isLight_eq (h : DecomposeFrame s s') (v x : ℤ) : isLight s' v x = isLight s v x := by
  rw [show s' = _ from h]
  rfl

theorem sameLights (h : DecomposeFrame s s') {adj : ℤ → List ℤ} (hs : SameLights s adj) : SameLights s' adj := by
  have hlight : lightIn s' = lightIn s := by
    funext v x
    simp only [lightIn, h.isLight_eq]
  have hadj : s'.adj = s.adj := by rw [show s' = _ from h]
  refine ⟨fun v x hx => ?_, fun v => ?_⟩
  · rw [hadj] at hx
    rw [h.isLight_eq, hlight]
    exact hs.tests v x hx
  · rw [hadj, hlight]
    exact hs.lists v

end DecomposeFrame

theorem visit_frame {v h : ℤ} (hs : visit v h s = .ok s') : DecomposeFrame s s' := by
  unfold visit at hs
  simp only [bind_eq_ok] at hs
  obtain ⟨head, -, pos, -, hs⟩ := hs
  cases hs
  rfl

theorem decomposeChild_frame {f : ℤ → ℤ → Hld → Exec Hld} (hf : ∀ v h s s', f v h s = .ok s' → DecomposeFrame s s')
    {v x : ℤ} (hs : decomposeChild f v s x = .ok s') : DecomposeFrame s s' := by
  unfold decomposeChild at hs
  obtain ⟨b, -, hs⟩ := bind_eq_ok.1 hs
  split_ifs at hs
  · exact hf _ _ _ _ hs
  · cases hs
    exact .refl s

/-- the call for the heavy child -/
def decomposeHeavy (f : ℤ → ℤ → Hld → Exec Hld) (c h : ℤ) (s : Hld) : Exec Hld := if c ≠ -1 then f c h s else .ok s

theorem decompose_succ (k : ℕ) (v h : ℤ) (s : Hld) : decompose (k + 1) v h s = (do
    let s ← visit v h s
    let c ← readCell s.n s.heavy v
    let s ← decomposeHeavy (decompose k) c h s
    let us ← readCell s.n s.adj v
    us.foldlM (decomposeChild (decompose k) v) s) := by
  rw [decompose]
  refine bind_congr fun s => bind_congr fun c => ?_
  unfold decomposeHeavy
  split_ifs <;> rfl

theorem decomposeHeavy_frame {f : ℤ → ℤ → Hld → Exec Hld} (hf : ∀ v h s s', f v h s = .ok s' → DecomposeFrame s s')
    {c h : ℤ} (hs : decomposeHeavy f c h s = .ok s') : DecomposeFrame s s' := by
  unfold decomposeHeavy at hs
  split_ifs at hs
  · exact hf _ _ _ _ hs
  · cases hs
    exact .refl s

theorem decompose_frame (k : ℕ) : ∀ (v h : ℤ) (s s' : Hld), decompose k v h s = .ok s' → DecomposeFrame s s' := by
  induction k with
  | zero =>
    intro v h s s' hs
    cases hs
  | succ k ih =>
    intro v h s s' hs
    rw [decompose_succ] at hs
    simp only [bind_eq_ok] at hs
    obtain ⟨s₁, h₁, c, -, s₂, h₂, us, -, hs⟩ := hs
    refine ((visit_frame h₁).trans (decomposeHeavy_frame ih h₂)).trans ?_
    exact foldlM_preserves (P := fun t => DecomposeFrame s₂ t)
      (fun t x t' ht hx => ht.trans (decomposeChild_frame ih hx)) us (.refl s₂) hs

/-! ## `decompose` with other lists -/

/-- the state with other adjacency lists -/
def withAdj (adj : ℤ → List ℤ) (s : Hld) : Hld := { s with adj := adj }

/-- a loop that does nothing for the elements without `p` is the loop over the others -/
theorem foldlM_filter {σ β : Type} {Inv : σ → Prop} {body : σ → β → Exec σ} {p : β → Bool} (xs : List β)
    (hkeep : ∀ s x s', Inv s → body s x = .ok s' → Inv s')
    (hskip : ∀ s, ∀ x ∈ xs, Inv s → p x = false → body s x = .ok s) {s : σ} (h : Inv s) :
    xs.foldlM body s = (xs.filter p).foldlM body s := by
  induction xs generalizing s with
  | nil => rfl
  | cons x xs ih =>
    have ih' := fun {s} => ih (s := s) fun s y hy => hskip s y (List.mem_cons_of_mem _ hy)
    by_cases hx : p x = true
    · rw [List.filter_cons_of_pos hx, List.foldlM_cons, List.foldlM_cons]
      cases hb : body s x with
      | error e => rfl
      | ok s' => exact ih' (hkeep s x s' h hb)
    · rw [List.filter_cons_of_neg hx, List.foldlM_cons, hskip s x List.mem_cons_self h (by simpa using hx), ok_bind]
      exact ih' h

/-- a loop on states that correspond -/
theorem foldlM_map {σ τ β : Type} {Inv : σ → Prop} {body : σ → β → Exec σ} {body' : τ → β → Exec τ} (g : σ → τ)
    (hkeep : ∀ s x s', Inv s → body s x = .ok s' → Inv s')
    (hbody : ∀ s x, Inv s → body' (g s) x = (body s x).map g) (xs : List β) {s : σ} (h : Inv s) :
    xs.foldlM body' (g s) = (xs.foldlM body s).map g := by
  induction xs generalizing s with
  | nil => rfl
  | cons x xs ih =>
    rw [List.foldlM_cons, List.foldlM_cons, hbody s x h]
    cases hb : body s x with
    | error e => rfl
    | ok s' => exact ih (hkeep s x s' h hb)

/-- the loop of `decompose` passes over all but the light neighbours -/
theorem decomposeLoop_filter {f : ℤ → ℤ → Hld → Exec Hld} (hf : ∀ v h s s', f v h s = .ok s' → DecomposeFrame s s')
    {v : ℤ} {us : List ℤ} (hus : ∀ x ∈ us, isLight s v x = .ok (lightIn s v x)) :
    us.foldlM (decomposeChild f v) s = (us.filter (lightIn s v)).foldlM (decomposeChild f v) s := by
  refine foldlM_filter (p := lightIn s v) us (fun t x t' (ht : DecomposeFrame s t) hx =>
    ht.trans (decomposeChild_frame hf hx)) (fun t x hx ht hp => ?_) (.refl s)
  unfold decomposeChild
  rw [ht.isLight_eq, hus x hx, hp]
  rfl

section WithAdj

variable {adj : ℤ → List ℤ} {f : ℤ → ℤ → Hld → Exec Hld}

/-- `f` does the same with the lists `adj` -/
def Commutes (f : ℤ → ℤ → Hld → Exec Hld) (adj : ℤ → List ℤ) : Prop :=
  ∀ (v h : ℤ) (s : Hld), SameLights s adj → f v h (withAdj adj s) = (f v h s).map (withAdj adj)

theorem visit_withAdj (v h : ℤ) (s : Hld) : visit v h (withAdj adj s) = (visit v h s).map (withAdj adj) := by
  unfold visit
  rw [show writeCell (withAdj adj s).n (withAdj adj s).head v h = writeCell s.n s.head v h from rfl,
    show writeCell (withAdj adj s).n (withAdj adj s).pos v (withAdj adj s).curPos = writeCell s.n s.pos v s.curPos from rfl]
  cases writeCell s.n s.head v h with
  | error e => rfl
  | ok head =>
    cases writeCell s.n s.pos v s.curPos with
    | error e => rfl
    | ok pos => rfl

theorem decomposeHeavy_withAdj (hc : Commutes f adj) (c h : ℤ) (hs : SameLights s adj) :
    decomposeHeavy f c h (withAdj adj s) = (decomposeHeavy f c h s).map (withAdj adj) := by
  unfold decomposeHeavy
  split_ifs
  · exact hc c h s hs
  · rfl

theorem decomposeChild_withAdj (hc : Commutes f adj) (v x : ℤ) (hs : SameLights s adj) :
    decomposeChild f v (withAdj adj s) x = (decomposeChild f v s x).map (withAdj adj) := by
  unfold decomposeChild
  rw [show isLight (withAdj adj s) v x = isLight s v x from rfl]
  cases isLight s v x with
  | error e => rfl
  | ok b =>
    cases b with
    | false => rfl
    | true => exact hc x x s hs

theorem decomposeLoop_withAdj (hf : ∀ v h s s', f v h s = .ok s' → DecomposeFrame s s') (hc : Commutes f adj) (v : ℤ)
    (hs : SameLights s adj) : (adj v).foldlM (decomposeChild f v) (withAdj adj s) =
      ((s.adj v).foldlM (decomposeChild f v) s).map (withAdj adj) := by
  have hlight : lightIn (withAdj adj s) v = lightIn s v := rfl
  calc (adj v).foldlM (decomposeChild f v) (withAdj adj s)
      = ((adj v).filter (lightIn s v)).foldlM (decomposeChild f v) (withAdj adj s) :=
        decomposeLoop_filter hf fun x hx => hs.tests v x (Or.inr hx)
    _ = (((adj v).filter (lightIn s v)).foldlM (decomposeChild f v) s).map (withAdj adj) :=
        foldlM_map (withAdj adj)
          (fun t x t' (ht : SameLights t adj) hx => (decomposeChild_frame hf hx).sameLights ht)
          (fun t x ht => decomposeChild_withAdj hc v x ht) _ hs
    _ = ((s.adj v).foldlM (decomposeChild f v) s).map (withAdj adj) := by
        rw [← hs.lists v, ← decomposeLoop_filter hf fun x hx => hs.tests v x (Or.inl hx)]

/-- **Other lists.** With lists that have the same light neighbours in the same order, `decompose` does the same. -/
theorem decompose_withAdj (k : ℕ) : Commutes (decompose k) adj := by
  induction k with
  | zero => exact fun v h s _ => rfl
  | succ k ih =>
    intro v h s hs
    rw [decompose_succ, decompose_succ, visit_withAdj]
    cases h₁ : visit v h s with
    | error e => rfl
    | ok s₁ =>
      have hs₁ := (visit_frame h₁).sameLights hs
      show (readCell s₁.n s₁.heavy v >>= fun c => decomposeHeavy (decompose k) c h (withAdj adj s₁) >>= fun s =>
        readCell s.n s.adj v >>= fun us => us.foldlM (decomposeChild (decompose k) v) s) = Except.map _
          (readCell s₁.n s₁.heavy v >>= fun c => decomposeHeavy (decompose k) c h s₁ >>= fun s =>
        readCell s.n s.adj v >>= fun us => us.foldlM (decomposeChild (decompose k) v) s)
      cases readCell s₁.n s₁.heavy v with
      | error e => rfl
      | ok c =>
        rw [ok_bind, ok_bind, decomposeHeavy_withAdj ih c h hs₁]
        cases h₂ : decomposeHeavy (decompose k) c h s₁ with
        | error e => rfl
        | ok s₂ =>
          have hs₂ := (decomposeHeavy_frame (decompose_frame k) h₂).sameLights hs₁
          show (readCell s₂.n adj v >>= fun us => us.foldlM (decomposeChild (decompose k) v) (withAdj adj s₂)) =
            Except.map _ (readCell s₂.n s₂.adj v >>= fun us => us.foldlM (decomposeChild (decompose k) v) s₂)
          unfold readCell
          split_ifs
          · exact decomposeLoop_withAdj (decompose_frame k) ih v hs₂
          · rfl

end WithAdj

/-! ## After the search -/

/-- what a depth-first search leaves with the children of `H` in `heavy` -/
structure SearchedAny (A : AdjTree n) (H : HeavyChoice A) (s : Hld) : Prop where
  n_eq : s.n = n
  logN_eq : s.logN = Nat.log 2 n
  adj_eq : s.adj = A.adj
  zeroRow : s.ZeroRow
  row : ∀ w : Fin n, RowOk A s w
  depth : ∀ w : Fin n, s.depth w = s.depth 0 + A.rooted.depth w
  sizes : ∀ w : Fin n, s.sizes w = A.rooted.size w
  heavy : ∀ w : Fin n, s.heavy w = heavyId (H.heavy w)

namespace SearchedAny

variable {H : HeavyChoice A}

theorem finished (h : SearchedAny A H s) (w : Fin n) : Finished H.front s w :=
  ⟨h.sizes w, (h.heavy w).trans (congrArg heavyId (H.heavy_front w)).symm, h.row w, h.depth w⟩

theorem searched (h : SearchedAny A H s) : Searched H.front (withAdj H.front.adj s) := by
  have hlog : 1 < n → 0 < s.logN := fun hn => h.logN_eq ▸ Nat.log_pos (by omega) hn
  refine ⟨h.n_eq, rfl, hlog, fun v => (h.finished v).heavy, fun v hv => (h.finished v).kth_parent hlog hv, ?_⟩
  intro u hu hk
  have hne : u ≠ A.root := A.ne_of_nbr ((H.perm_nbrs A.root).mem_iff.1 hu)
  have hzero : s.kth 0 0 = 0 := h.zeroRow 0 (hlog (one_lt_of_ne hne))
  exact hne (node_ext (hk.symm.trans hzero))

theorem sameLights (h : SearchedAny A H s) : SameLights s H.front.adj := by
  have htest : ∀ v u : Fin n, u ∈ A.nbrs v →
      isLight s v u = .ok (decide (u ∈ H.front.rooted.lights v)) := by
    intro v u hu
    have hspec := isLight_spec h.searched ((H.perm_nbrs v).mem_iff.2 hu)
    exact hspec
  have hlight : ∀ v u : Fin n, u ∈ A.nbrs v → lightIn s v u = decide (u ∈ H.front.rooted.lights v) := by
    intro v u hu
    simp only [lightIn, htest v u hu]
  have hnode : ∀ v x : ℤ, x ∈ s.adj v ∨ x ∈ H.front.adj v → ∃ (w u : Fin n), v = (w : ℕ) ∧ x = (u : ℕ) ∧ u ∈ A.nbrs w := by
    intro v x hx
    rw [h.adj_eq] at hx
    rcases hx with hx | hx
    · exact A.mem_adj hx
    · obtain ⟨w, u, hw, hu, hmem⟩ := H.front.mem_adj hx
      exact ⟨w, u, hw, hu, (H.perm_nbrs w).mem_iff.1 hmem⟩
  refine ⟨fun v x hx => ?_, fun v => ?_⟩
  · obtain ⟨w, u, rfl, rfl, hu⟩ := hnode v x hx
    rw [htest w u hu, hlight w u hu]
  · by_cases hv : 0 ≤ v ∧ v < n
    · obtain ⟨w, rfl⟩ := exists_node hv.1 hv.2
      rw [h.adj_eq, A.adj_coe, H.front.adj_coe, List.filter_map, List.filter_map]
      congr 1
      calc (A.nbrs w).filter (lightIn s w ∘ fun u : Fin n => ((u : ℕ) : ℤ))
          = (A.nbrs w).filter fun u => u ∈ H.front.rooted.lights w := List.filter_congr fun u hu => hlight w u hu
        _ = (H.nbrs w).filter fun u => u ∈ H.front.rooted.lights w := H.lights_front w
        _ = (H.nbrs w).filter (lightIn s w ∘ fun u : Fin n => ((u : ℕ) : ℤ)) :=
            (List.filter_congr fun u hu => hlight w u ((H.perm_nbrs w).mem_iff.1 hu)).symm
    · rw [h.adj_eq, AdjTree.adj, AdjTree.adj, dif_neg hv, dif_neg hv]

/-- **The decomposition** after any search. -/
theorem decompose_any (h : SearchedAny A H s) (hcur : s.curPos = 0) :
    ∃ s', Returns (fun k => decompose k 0 0 s) s' ∧ DecomposeFrame s s' ∧ ∀ w, Placed H.front s' w := by
  have hroot : H.front.rooted.pos H.front.root = 0 := H.front.rooted.pos_root
  have hhead : H.front.rooted.head H.front.root = H.front.root := H.front.rooted.head_root
  obtain ⟨t, ⟨N, hN⟩, hlay, -, hplaced⟩ := decompose_spec H.front.root _ h.searched (by
    rw [hroot]
    exact hcur)
  rw [hhead] at hN
  have hrun : ∀ k, N ≤ k → decompose k 0 0 s = .ok (withAdj s.adj t) := by
    intro k hk
    have hcomm : (decompose k 0 0 s).map (withAdj H.front.adj) = .ok t :=
      (decompose_withAdj k 0 0 s h.sameLights).symm.trans (hN k hk)
    cases hres : decompose k 0 0 s with
    | error e =>
      rw [hres] at hcomm
      cases hcomm
    | ok s' =>
      rw [hres] at hcomm
      have hadj : s'.adj = s.adj := by rw [decompose_frame k 0 0 s s' hres]
      rw [← Except.ok.inj hcomm, ← hadj]
      rfl
  refine ⟨withAdj s.adj t, ⟨N, hrun⟩, decompose_frame N 0 0 s _ (hrun N le_rfl), fun w => ?_⟩
  have hw := hplaced w (Anc.root _ w)
  exact ⟨hw.head, hw.pos⟩

/-- **The stages after any search.** `decompose(0, 0)` and `build_st`, in any order of its iterations, leave a state that is
ready for the tree with the chosen children first. -/
theorem build_any (h : SearchedAny A H s) (hcur : s.curPos = 0) (hdepth : s.depth 0 = 0) {order : List ℤ}
    (horder : order.Perm (indices n)) :
    ∃ s', Returns (fun k => do
        let s ← decompose k 0 0 s
        parBuildSt order k n s) s' ∧ Ready H.front (fun w => s.values w) s' ∧ s'.values = s.values := by
  obtain ⟨s₁, hs₁, hframe, hplaced⟩ := h.decompose_any hcur
  have hrest : s₁ = _ := hframe
  have hn : s₁.n = n := by
    rw [hrest]
    exact h.n_eq
  obtain ⟨d, st, hd, hst, hbuild⟩ := parBuildSt_spec hn hplaced
  obtain ⟨st', hst', hrep⟩ := SegmentTree.new_represents d (hd.size.symm ▸ A.pos)
  obtain rfl : st' = st := hst'.unique hst
  rw [hd.size] at hrep
  refine ⟨{ s₁ with st := st' }, hs₁.bind (hbuild order horder), ⟨hn, ?_, ?_, ?_, ?_, ?_, d.cell, hrep, ?_⟩, ?_⟩
  · rw [hrest]
    exact h.logN_eq
  · rw [hrest]
    exact h.zeroRow
  · rw [hrest]
    exact hdepth
  · intro w
    have hw := h.finished w
    rw [hrest]
    exact ⟨hw.sizes, hw.heavy, hw.row, hw.depth⟩
  · exact fun w => ⟨(hplaced w).head, (hplaced w).pos⟩
  · intro w
    rw [hd.cell, hrest]
  · rw [hrest]

end SearchedAny

/-! ## After the parallel search -/

/-- the choice of the heavy children in a run of `par_dfs` -/
theorem Searches.exists_choice {s₀ : Hld} (h : Searches A s₀ s) :
    ∃ H : HeavyChoice A, ∀ w : Fin n, s.heavy w = heavyId (H.heavy w) := by
  choose us hus hheavy using h.heavy
  refine ⟨⟨fun v => A.rooted.heavyOf (us v), fun v hv => ?_, fun v c hc => ?_, fun v c hc u hu => ?_⟩, hheavy⟩
  · rcases A.rooted.heavyOf_spec (us v) with ⟨-, hnil⟩ | ⟨c, -, hsome, -⟩
    · exact (hnil ▸ hus v).nil_eq.symm
    · rw [hsome] at hv
      cases hv
  · rcases A.rooted.heavyOf_spec (us v) with ⟨hnone, -⟩ | ⟨b, hb, hsome, -⟩
    · rw [hnone] at hc
      cases hc
    · obtain rfl : b = c := Option.some.inj (hsome.symm.trans hc)
      exact (hus v).mem_iff.1 hb
  · rcases A.rooted.heavyOf_spec (us v) with ⟨hnone, -⟩ | ⟨b, -, hsome, hmax⟩
    · rw [hnone] at hc
      cases hc
    · obtain rfl : b = c := Option.some.inj (hsome.symm.trans hc)
      exact hmax u ((hus v).mem_iff.2 hu)

/-- the answers do not depend on the order of the lists -/
theorem answers_front (H : HeavyChoice A) (vals cur : Fin n → ℤ) (cs : List (Call n)) :
    answers H.front vals cur cs = answers A vals cur cs := by
  induction cs generalizing cur with
  | nil => rfl
  | cons c cs ih =>
    have hanswer : c.answer H.front vals cur = c.answer A vals cur := by cases c <;> rfl
    rw [answers, answers, ih, hanswer]

/-- **Sessions after a parallel search.** From zero root cells, after any interleaving of the set-ups and folds of
`par_dfs(0)`, each of them atomic, then `decompose(0, 0)` and `build_st` in any order of its iterations, any calls return with
the answers of the serial program, with every check in place. -/
theorem par_dfs_sessions (A : AdjTree n) (vals : ℤ → ℤ) (mem : Hld) (h : (A.load vals mem).RootZero) (cs : List (Call n)) :
    AllRuns parDfs (fun t => ∀ order : List ℤ, order.Perm (indices n) → ∃ s, Returns (fun k => do
        let s ← decompose k 0 0 t
        let s ← parBuildSt order k n s
        session (fun k s c => c.runIn k s) k cs s) (s, answers A (fun w => vals w) (fun w => vals w) cs))
      (.call (.node 0)) { A.load vals mem with curPos := 0 } := by
  have he : Entered A (A.load vals mem) {A.root} A.root := entered_load (closed_root h.kth) rfl
  have h₀ : Start A { A.load vals mem with curPos := 0 } :=
    ⟨⟨he.n_eq, he.adj_eq, he.logN_pos, he.closed, he.mem, he.rows, he.depth⟩, h.kth⟩
  refine (parDfs_searches h₀).mono fun t ht order horder => ?_
  obtain ⟨H, hH⟩ := ht.exists_choice
  have hroot : ¬ (A.root ≠ A.root) := fun hne => hne rfl
  have hany : SearchedAny A H t := ⟨ht.frame.n_eq, ht.frame.logN_eq, ht.frame.adj_eq,
    (ht.frame.zeroRow hroot).2 h.kth, ht.row, ht.depth, ht.sizes, hH⟩
  have hcur : t.curPos = 0 := by rw [ht.frame.rest]
  have hvals : t.values = vals := by
    rw [ht.frame.rest]
    rfl
  obtain ⟨s₁, hs₁, hr, hv⟩ := hany.build_any hcur ((ht.frame.depth_zero hroot).trans h.depth) horder
  rw [hvals] at hr hv
  obtain ⟨s₂, hs₂, -⟩ := session_spec cs hr
  rw [hv, answers_front] at hs₂
  refine ⟨s₂, (hs₁.bind hs₂).congr fun k => ?_⟩
  rw [bind_assoc]

/-- on the long path: an update, both queries and `lca`, with the iterations of `build_st` in the reverse order -/
theorem par_dfs_sessions_longPath : (longPath.load (fun i => i) AdjTree.zeroMemory).RootZero ∧
    AllRuns parDfs (fun t => ∃ s, Returns (fun k => do
        let s ← decompose k 0 0 t
        let s ← parBuildSt [6, 5, 4, 3, 2, 1, 0] k 7 s
        session (fun k s c => c.runIn k s) k [.updateNode (n := 7) 3 10, .queryPathOld 5 6, .queryPath 5 6, .lca 5 6] s)
        (s, [28, 28, 1])) (.call (.node 0)) { longPath.load (fun i => i) AdjTree.zeroMemory with curPos := 0 } := by
  have h := longPath.rootZero_zeroMemory fun i => i
  refine ⟨h, (par_dfs_sessions longPath _ _ h
    [.updateNode 3 10, .queryPathOld 5 6, .queryPath 5 6, .lca 5 6]).mono fun t ht => ?_⟩
  obtain ⟨s, hs⟩ := ht [6, 5, 4, 3, 2, 1, 0] (by decide)
  have hpivot : longPathTree.pivot (Nat.log 2 7) 5 6 = 1 := by decide
  have hsum : ∑ i ∈ longPathTree.path 5 6, Function.update (fun w : Fin 7 => ((w : ℕ) : ℤ)) 3 10 i = 28 := by
    decide +kernel
  simp only [answers, Call.answer, Call.after, rooted_longPath, hpivot, hsum] at hs
  exact ⟨s, hs⟩

end Hld

end HeavyLight
