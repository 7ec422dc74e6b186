/-
`par_dfs`: the depth-first search with the neighbours of each node in a `parallel_for`, in any interleaving.

- `parDfs`: the calls and the iterations. The initialisation of a node, the set-up of a child and the fold of a finished
  child are one step each.
- `dfsPlan`: the same control over the nodes of the rooted tree. `Needs`, `Within`: which calls must come before a call,
  and the calls below a node. `traces_node`: a trace makes each call below its node once, after the calls it needs.
- `Progress A s₀ p s`: the arrays after the calls `p`. `node_step`, `child_step`, `fold_step`: each call keeps it.
- `par_dfs_serial`: every interleaving leaves the rows, depths and sizes of the serial `dfs`, and a largest child in
  `heavy`. `par_dfs_heavy_any`: it can be any of the largest.
-/
import HeavyLight.History
import HeavyLight.DfsArrays

namespace HeavyLight

open ParentTree Proc

/-- a call of `par_dfs(v)`; the iteration for the neighbour `u` in the `parallel_for` of `v`; its statements after the
call for `u` -/
inductive DfsCall (V : Type) where
  | node (v : V)
  | child (v u : V)
  | fold (v u : V)
deriving DecidableEq

namespace Hld

/-! ## The program -/

/-- `par_dfs`, with all iterations of its loops in parallel; a set-up and a fold are one atomic step each -/
def parDfs : Body (DfsCall ℤ) Hld
  | .node v, s => do
    let s ← initNode v s
    let us ← readCell s.n s.adj v
    return (s, parAll (us.map fun u => .call (.child v u)))
  | .child v u, s => do
    let p ← readKth s v 0
    if u ≠ p then
      let s ← enterChild v s u
      return (s, .seq (.call (.node u)) (.call (.fold v u)))
    else return (s, .done)
  | .fold v u, s => do
    let s ← foldChild v s u
    return (s, .done)

variable {n : ℕ} {A : AdjTree n} {s s₀ : Hld} {u v w x : Fin n} {d e : DfsCall (Fin n)}
  {p q l m : List (DfsCall (Fin n))} {vals : ℤ → ℤ} {mem : Hld}

/-! ## Control -/

/-- what follows a call -/
noncomputable def dfsPlan (A : AdjTree n) : DfsCall (Fin n) → Proc (DfsCall (Fin n))
  | .node v => parAll ((A.nbrs v).map fun u => .call (.child v u))
  | .child v u =>
    if u ≠ A.rooted.root ∧ A.rooted.parent u = v then .seq (.call (.node u)) (.call (.fold v u)) else .done
  | .fold _ _ => .done

theorem dfsPlan_child (hu : u ∈ A.rooted.children v) :
    dfsPlan A (.child v u) = .seq (.call (.node u)) (.call (.fold v u)) := if_pos ((A.rooted.mem_children u v).1 hu)

theorem dfsPlan_parent (hu : u ∉ A.rooted.children v) : dfsPlan A (.child v u) = .done :=
  if_neg fun h => hu ((A.rooted.mem_children u v).2 h)

/-- a call of the program -/
def toInt : DfsCall (Fin n) → DfsCall ℤ
  | .node v => .node (v : ℕ)
  | .child v u => .child (v : ℕ) (u : ℕ)
  | .fold v u => .fold (v : ℕ) (u : ℕ)

/-- every call ends -/
theorem exists_dfs_cost (v : Fin n) : ∃ k, Cost (dfsPlan A) (.call (.node v)) k := by
  refine A.rooted.ascend (P := fun v => ∃ k, Cost (dfsPlan A) (.call (.node v)) k) (fun v ih => ?_) v
  have hiters : ∃ k, Cost (dfsPlan A) (parAll ((A.nbrs v).map fun u => .call (.child v u))) k := by
    apply exists_cost_parAll
    intro t ht
    obtain ⟨u, -, rfl⟩ := List.mem_map.1 ht
    by_cases hu : u ∈ A.rooted.children v
    · obtain ⟨k, hk⟩ := ih u hu
      refine ⟨k + 1 + 1 + 1, .call ?_⟩
      rw [dfsPlan_child hu]
      exact hk.seq (.call .done)
    · refine ⟨1, .call ?_⟩
      rw [dfsPlan_parent hu]
      exact .done
  obtain ⟨k, hk⟩ := hiters
  exact ⟨k + 1, .call hk⟩

/-! ## Orders of the calls -/

/-- the second call must come before the first -/
inductive Needs (T : ParentTree (Fin n)) : DfsCall (Fin n) → DfsCall (Fin n) → Prop where
  /-- a node is searched once its parent has set it up -/
  | setUp {w : Fin n} : w ≠ T.root → Needs T (.node w) (.child (T.parent w) w)
  | iter {w c : Fin n} : Needs T (.child w c) (.node w)
  | self {w c : Fin n} : Needs T (.fold w c) (.node w)
  | searched {w c : Fin n} : Needs T (.fold w c) (.node c)
  /-- a child is folded in once its own children are -/
  | below {w c b : Fin n} : b ∈ T.children c → Needs T (.fold w c) (.fold c b)

/-- the node that a call works for -/
def host : DfsCall (Fin n) → Fin n
  | .node v => v
  | .child v _ => v
  | .fold v _ => v

/-- the calls below `v` -/
def Within (A : AdjTree n) (v : Fin n) : DfsCall (Fin n) → Prop
  | .node w => A.rooted.Anc v w
  | .child w u => A.rooted.Anc v w ∧ u ∈ A.nbrs w
  | .fold w u => A.rooted.Anc v w ∧ u ∈ A.rooted.children w

/-- the calls of the iteration of `v` for `u` -/
def InIter (A : AdjTree n) (v u : Fin n) (d : DfsCall (Fin n)) : Prop :=
  d = .child v u ∨ (u ∈ A.rooted.children v ∧ (Within A u d ∨ d = .fold v u))

theorem Within.anc (h : Within A v d) : A.rooted.Anc v (host d) := by
  cases d with
  | node w => exact h
  | child w u => exact h.1
  | fold w u => exact h.1

theorem nbr_of_child (h : u ∈ A.rooted.children v) : u ∈ A.nbrs v := by
  rw [A.children_rooted] at h
  exact List.mem_of_mem_filter h

theorem within_iff : Within A v d ↔ d = .node v ∨ ∃ u ∈ A.nbrs v, InIter A v u d := by
  refine ⟨?_, ?_⟩
  · intro h
    rcases anc_iff_child.1 h.anc with hv | ⟨c, hc, hcv⟩
    · -- a call that works for `v`
      cases d with
      | node w => exact Or.inl (congrArg _ hv.symm)
      | child w u =>
        obtain rfl : v = w := hv
        exact Or.inr ⟨u, h.2, Or.inl rfl⟩
      | fold w u =>
        obtain rfl : v = w := hv
        exact Or.inr ⟨u, nbr_of_child h.2, Or.inr ⟨h.2, Or.inr rfl⟩⟩
    · refine Or.inr ⟨c, nbr_of_child hc, Or.inr ⟨hc, Or.inl ?_⟩⟩
      cases d with
      | node w => exact hcv
      | child w u => exact ⟨hcv, h.2⟩
      | fold w u => exact ⟨hcv, h.2⟩
  · rintro (rfl | ⟨u, hu, rfl | ⟨hc, hw | rfl⟩⟩)
    · exact Anc.refl _ _
    · exact ⟨Anc.refl _ _, hu⟩
    · have hanc := (Anc.of_child hc).trans hw.anc
      cases d with
      | node w => exact hanc
      | child w x => exact ⟨hanc, hw.2⟩
      | fold w x => exact ⟨hanc, hw.2⟩
    · exact ⟨Anc.refl _ _, hc⟩

/-- an iteration makes its own calls -/
theorem inIter_unique (h : InIter A v u d) (h' : InIter A v x d) : u = x := by
  -- the calls below a child do not work for `v`
  have hbelow : ∀ c ∈ A.rooted.children v, Within A c d → host d ≠ v := by
    intro c hc hw hv
    exact not_anc_of_child hc (hv ▸ hw.anc)
  rcases h with rfl | ⟨hu, hw | rfl⟩
  · rcases h' with h | ⟨hx, hw' | h⟩
    · cases h
      rfl
    · exact absurd rfl (hbelow x hx hw')
    · cases h
  · rcases h' with rfl | ⟨hx, hw' | rfl⟩
    · exact absurd rfl (hbelow u hu hw)
    · exact child_unique hu hx hw.anc hw'.anc
    · exact absurd rfl (hbelow u hu hw)
  · rcases h' with h | ⟨hx, hw' | h⟩
    · cases h
    · exact absurd rfl (hbelow x hx hw')
    · cases h
      rfl

/-- a trace of a call for `v` makes each call below `v` once, after the calls it needs -/
structure TraceOk (A : AdjTree n) (v : Fin n) (l : List (DfsCall (Fin n))) : Prop where
  nodup : l.Nodup
  mem : ∀ d, d ∈ l ↔ Within A v d
  guarded : ∀ E : Set (DfsCall (Fin n)), (∀ e, Needs A.rooted (.node v) e → e ∈ E) → Guarded (Needs A.rooted) E l

/-- and so does a trace of an iteration -/
structure IterOk (A : AdjTree n) (v u : Fin n) (l : List (DfsCall (Fin n))) : Prop where
  nodup : l.Nodup
  mem : ∀ d, d ∈ l ↔ InIter A v u d
  guarded : ∀ E : Set (DfsCall (Fin n)), .node v ∈ E → Guarded (Needs A.rooted) E l

/-- for a child: the set-up, the calls below the child, and the fold -/
theorem TraceOk.iter (hl : TraceOk A u l) (hu : u ∈ A.rooted.children v) :
    IterOk A v u (.child v u :: (l ++ [.fold v u])) := by
  have hpar : A.rooted.parent u = v := A.rooted.parent_of_child hu
  have hout : ∀ d ∈ l, host d ≠ v := by
    rintro d hd rfl
    exact not_anc_of_child hu ((hl.mem d).1 hd).anc
  refine ⟨?_, ?_, ?_⟩
  · rw [List.nodup_cons, List.nodup_append]
    refine ⟨?_, hl.nodup, List.nodup_singleton _, ?_⟩
    · intro hmem
      rcases List.mem_append.1 hmem with hmem | hmem
      · exact hout _ hmem rfl
      · cases List.mem_singleton.1 hmem
    · rintro d hd e he rfl
      rw [List.mem_singleton.1 he] at hd
      exact hout _ hd rfl
  · intro d
    simp only [List.mem_cons, List.mem_append, List.not_mem_nil, or_false, hl.mem, InIter, hu, true_and]
  · intro E hE
    refine ⟨?_, Guarded.append (hl.guarded _ ?_) ⟨?_, trivial⟩⟩
    · intro e he
      cases he
      exact hE
    · intro e he
      cases he
      rw [hpar]
      exact Set.mem_insert _ _
    · intro e he
      cases he with
      | self => exact Or.inl (Or.inr hE)
      | searched => exact Or.inr ((hl.mem _).2 (Anc.refl _ _))
      | below hc => exact Or.inr ((hl.mem _).2 ⟨Anc.refl _ _, hc⟩)

/-- for the parent: the test only -/
theorem iterOk_parent (hu : u ∉ A.rooted.children v) : IterOk A v u [.child v u] := by
  refine ⟨List.nodup_singleton _, ?_, ?_⟩
  · intro d
    simp only [List.mem_singleton, InIter, hu, false_and, or_false]
  · intro E hE
    refine ⟨?_, trivial⟩
    intro e he
    cases he
    exact hE

theorem traces_iter (ih : ∀ c ∈ A.rooted.children v, ∀ l, Traces (dfsPlan A) (.call (.node c)) l → TraceOk A c l)
    (h : Traces (dfsPlan A) (.call (.child v u)) l) : IterOk A v u l := by
  obtain ⟨m, rfl, hm⟩ := traces_call_iff.1 h
  by_cases hu : u ∈ A.rooted.children v
  · rw [dfsPlan_child hu] at hm
    cases hm with
    | seq h₁ h₂ =>
      obtain ⟨m₂, rfl, hm₂⟩ := traces_call_iff.1 h₂
      cases hm₂
      exact (ih u hu _ h₁).iter hu
  · rw [dfsPlan_parent hu] at hm
    cases hm
    exact iterOk_parent hu

/-- **The calls of a trace.** -/
theorem traces_node (v : Fin n) : ∀ l, Traces (dfsPlan A) (.call (.node v)) l → TraceOk A v l := by
  refine A.rooted.ascend (P := fun v => ∀ l, Traces (dfsPlan A) (.call (.node v)) l → TraceOk A v l) (fun v ih => ?_) v
  intro l hl
  obtain ⟨m, rfl, hm⟩ := traces_call_iff.1 hl
  obtain ⟨hnodup, hmem⟩ := traces_parAll_nodup
    (fun u _ l h => ⟨(traces_iter ih h).nodup, (traces_iter ih h).mem⟩)
    (fun u _ x _ d => inIter_unique) (A.nodup v) hm
  refine ⟨List.nodup_cons.2 ⟨?_, hnodup⟩, fun d => ?_, fun E hE => ⟨hE, ?_⟩⟩
  · intro hv
    obtain ⟨u, -, h | ⟨hu, h | h⟩⟩ := (hmem _).1 hv
    · cases h
    · exact not_anc_of_child hu h.anc
    · cases h
  · rw [List.mem_cons, hmem, within_iff]
  · refine Guarded.parAll ?_ hm
    intro t ht l hl
    obtain ⟨u, -, rfl⟩ := List.mem_map.1 ht
    exact (traces_iter ih hl).guarded _ (Set.mem_insert _ _)

/-! ## Histories -/

/-- the calls made so far, in some run -/
structure Past (A : AdjTree n) (p : List (DfsCall (Fin n))) : Prop where
  nodup : p.Nodup
  within : ∀ d ∈ p, Within A A.root d
  closed : ∀ d ∈ p, ∀ e, Needs A.rooted d e → e ∈ p

theorem TraceOk.past (h : TraceOk A A.root (p ++ q)) : Past A p := by
  have hguard : Guarded (Needs A.rooted) ∅ p := by
    refine (h.guarded ∅ fun e he => ?_).left
    cases he with
    | setUp hr => exact absurd rfl hr
  exact ⟨(List.nodup_append.1 h.nodup).1, fun d hd => (h.mem d).1 (List.mem_append_left _ hd),
    fun d hd e he => hguard.closed hd he⟩

theorem TraceOk.past_all (h : TraceOk A A.root l) : Past A l := by
  rw [← List.append_nil l] at h
  exact h.past

/-- the next call is a new one, and the calls it needs have been made -/
structure NextCall (A : AdjTree n) (p : List (DfsCall (Fin n))) (d : DfsCall (Fin n)) : Prop where
  new : d ∉ p
  within : Within A A.root d
  needs : ∀ e, Needs A.rooted d e → e ∈ p

theorem TraceOk.next (h : TraceOk A A.root (p ++ d :: q)) : NextCall A p d := by
  refine ⟨fun hd => ?_, (h.mem d).1 (by simp), fun e he => ?_⟩
  · exact (List.nodup_append.1 h.nodup).2.2 d hd d List.mem_cons_self rfl
  · refine ((h.guarded ∅ fun e he => ?_).before he).resolve_left fun hE => hE
    cases he with
    | setUp hr => exact absurd rfl hr

/-- the row and the depth of `w` have been written -/
def Seen (A : AdjTree n) (p : List (DfsCall (Fin n))) (w : Fin n) : Prop :=
  w = A.root ∨ .child (A.rooted.parent w) w ∈ p

/-- a call for `w` comes after its set-up -/
theorem Past.seen (h : Past A p) (hw : .node w ∈ p) : Seen A p w := by
  by_cases hr : w = A.root
  · exact Or.inl hr
  · exact Or.inr (h.closed _ hw _ (.setUp hr))

/-- and so after those of the nodes above it -/
theorem Past.seen_anc (h : Past A p) (hw : Seen A p w) (hx : A.rooted.Anc x w) : Seen A p x := by
  refine A.rooted.descend (P := fun w => Seen A p w → A.rooted.Anc x w → Seen A p x) ?_ ?_ w hw hx
  · intro hr hx
    rwa [anc_root_iff.1 hx]
  · intro w hw ih hseen hx
    rcases (anc_cases hw).1 hx with rfl | hx
    · exact hseen
    · have hchild : .child (A.rooted.parent w) w ∈ p := hseen.resolve_left hw
      exact ih (h.seen (h.closed _ hchild _ .iter)) hx

/-- the child that a call folds into `v` -/
def folded (v : Fin n) : DfsCall (Fin n) → Option (Fin n)
  | .fold w u => if w = v then some u else none
  | _ => none

theorem folded_eq_some : folded v d = some u ↔ d = .fold v u := by
  cases d with
  | fold w x =>
    simp only [folded]
    split_ifs with hw <;> simp [hw]
  | _ => simp [folded]

/-- the children folded into `v`, in the order of the folds -/
def folds (p : List (DfsCall (Fin n))) (v : Fin n) : List (Fin n) := p.filterMap (folded v)

theorem mem_folds : u ∈ folds p v ↔ .fold v u ∈ p := by
  simp [folds, List.mem_filterMap, folded_eq_some]

theorem folds_concat (p : List (DfsCall (Fin n))) (d : DfsCall (Fin n)) (v : Fin n) :
    folds (p ++ [d]) v = folds p v ++ (folded v d).toList := by
  unfold folds
  rw [List.filterMap_append]
  cases h : folded v d with
  | none => rw [List.filterMap_cons_none h]; rfl
  | some u => rw [List.filterMap_cons_some h]; rfl

theorem folds_nodup (h : p.Nodup) (v : Fin n) : (folds p v).Nodup := by
  refine h.filterMap fun d e u hd he => ?_
  rw [folded_eq_some.1 (Option.mem_def.1 hd), folded_eq_some.1 (Option.mem_def.1 he)]

/-- once all children of `v` are folded in, they are those of the tree, in some order -/
theorem Past.folds_perm (h : Past A p) (hall : ∀ u ∈ A.rooted.children v, .fold v u ∈ p) :
    (folds p v).Perm (A.rooted.children v) := by
  refine (List.perm_ext_iff_of_nodup (folds_nodup h.nodup v) (A.rooted.children_nodup v)).2 fun u => ?_
  rw [mem_folds]
  exact ⟨fun hu => (h.within _ hu).2, hall u⟩

/-! ## The arrays after some calls -/

/-- the arrays after the calls `p`, from the state `s₀` -/
structure Progress (A : AdjTree n) (s₀ : Hld) (p : List (DfsCall (Fin n))) (s : Hld) : Prop where
  frame : Frame s₀ s (fun w => w ≠ A.root) (fun _ => True)
  row : ∀ w : Fin n, Seen A p w → RowOk A s w
  depth : ∀ w : Fin n, Seen A p w → s.depth w = s.depth 0 + A.rooted.depth w
  sizes : ∀ v : Fin n, .node v ∈ p → s.sizes v = 1 + (((folds p v).map A.rooted.size).sum : ℕ)
  heavy : ∀ v : Fin n, .node v ∈ p → s.heavy v = heavyId (A.rooted.heavyOf (folds p v))

/-- the state in which `par_dfs(0)` is called -/
structure Start (A : AdjTree n) (s₀ : Hld) : Prop where
  entered : Entered A s₀ {A.root} A.root
  zeroRow : s₀.ZeroRow

theorem Progress.init (h₀ : Start A s₀) : Progress A s₀ [] s₀ := by
  have hroot : ∀ w, Seen A [] w → w = A.root := by
    rintro w (hw | hw)
    · exact hw
    · cases hw
  refine ⟨⟨rfl, fun _ _ => rfl, fun _ _ => rfl, fun _ _ => rfl, fun _ _ => rfl⟩, ?_, ?_, by simp, by simp⟩
  · intro w hw
    exact h₀.entered.rows w (hroot w hw ▸ Anc.refl _ _)
  · intro w hw
    rw [hroot w hw]
    exact h₀.entered.depth

theorem Progress.zeroRow (h : Progress A s₀ p s) (h₀ : Start A s₀) : s.ZeroRow :=
  (h.frame.zeroRow fun hr => hr rfl).2 h₀.zeroRow

/-- what a set-up below `v` finds -/
theorem Progress.entered (h : Progress A s₀ p s) (h₀ : Start A s₀) (hp : Past A p) (hv : Seen A p v) :
    Entered A s {w | Seen A p w} v := by
  refine ⟨h.frame.n_eq.trans h₀.entered.n_eq, h.frame.adj_eq.trans h₀.entered.adj_eq, ?_, ?_, hv, ?_, h.depth v hv⟩
  · intro hn
    rw [h.frame.logN_eq]
    exact h₀.entered.logN_pos hn
  · intro w hw i hi
    exact ⟨_, hp.seen_anc hw (Anc.of_up _ _ _), h.row w hw i hi (Or.inr (h.zeroRow h₀))⟩
  · intro w hw
    exact h.row w (hp.seen_anc hv hw)

/-- once all children of `u` are folded in, its size is final -/
theorem Progress.size_done (h : Progress A s₀ p s) (hp : Past A p) (hu : .node u ∈ p)
    (hall : ∀ c ∈ A.rooted.children u, .fold u c ∈ p) : s.sizes u = A.rooted.size u := by
  rw [h.sizes u hu, ((hp.folds_perm hall).map A.rooted.size).sum_eq, A.rooted.size_eq u, Nat.cast_add, Nat.cast_one]

/-- so the size of a folded child is -/
theorem Progress.size_folded (h : Progress A s₀ p s) (hp : Past A p) (hu : .fold v u ∈ p) :
    s.sizes u = A.rooted.size u :=
  h.size_done hp (hp.closed _ hu _ .searched) fun _ hc => hp.closed _ hu _ (.below hc)

/-! ## One call -/

/-- what a call does after the calls `p` -/
def CallSpec (A : AdjTree n) (s₀ : Hld) (p : List (DfsCall (Fin n))) (s : Hld) (d : DfsCall (Fin n)) : Prop :=
  ∃ s', parDfs (toInt d) s = .ok (s', (dfsPlan A d).map toInt) ∧ Progress A s₀ (p ++ [d]) s'

/-- a call other than a set-up sets up no row -/
theorem seen_concat (hd : ∀ v u : Fin n, d ≠ .child v u) : Seen A (p ++ [d]) w ↔ Seen A p w := by
  unfold Seen
  simp [(hd _ _).symm]

/-- a call that writes only the size and the heavy child of `v` -/
theorem Progress.write (h : Progress A s₀ p s) (hd : ∀ w x : Fin n, d ≠ .child w x) {a b : ℤ}
    (ha : a = 1 + (((folds (p ++ [d]) v).map A.rooted.size).sum : ℕ))
    (hb : b = heavyId (A.rooted.heavyOf (folds (p ++ [d]) v)))
    (hother : ∀ w, w ≠ v → d ≠ .node w ∧ folded w d = none) :
    Progress A s₀ (p ++ [d]) { s with
      sizes := Function.update s.sizes v a, heavy := Function.update s.heavy v b } := by
  have hf := Frame.of_write s v a b
  refine ⟨h.frame.trans (hf.mono (fun _ => False.elim) fun _ _ => trivial), ?_, ?_, ?_, ?_⟩
  · intro w hw
    exact hf.rowOk (fun h => h) (fun h => h) (h.row w ((seen_concat hd).1 hw))
  · intro w hw
    exact h.depth w ((seen_concat hd).1 hw)
  · intro w hw
    by_cases hwv : w = v
    · rw [hwv]
      exact (Function.update_self _ _ _).trans ha
    · obtain ⟨hnode, hnone⟩ := hother w hwv
      have hwp : .node w ∈ p := by simpa [hnode.symm] using hw
      rw [hf.sizes_node hwv, h.sizes w hwp, folds_concat, hnone, Option.toList_none, List.append_nil]
  · intro w hw
    by_cases hwv : w = v
    · rw [hwv]
      exact (Function.update_self _ _ _).trans hb
    · obtain ⟨hnode, hnone⟩ := hother w hwv
      have hwp : .node w ∈ p := by simpa [hnode.symm] using hw
      rw [hf.heavy_node hwv, h.heavy w hwp, folds_concat, hnone, Option.toList_none, List.append_nil]

/-- **The initialisation of a node.** -/
theorem Progress.node_step (h : Progress A s₀ p s) (h₀ : Start A s₀) (hp : Past A p) (hd : NextCall A p (.node v)) :
    CallSpec A s₀ p s (.node v) := by
  have hn : s.n = n := h.frame.n_eq.trans h₀.entered.n_eq
  have hadj : s.adj = A.adj := h.frame.adj_eq.trans h₀.entered.adj_eq
  -- nothing has been folded into `v` yet
  have hnone : folds (p ++ [.node v]) v = [] := by
    apply List.eq_nil_iff_forall_not_mem.2
    intro u hu
    rw [mem_folds, List.mem_append, List.mem_singleton] at hu
    rcases hu with hu | hu
    · exact hd.new (hp.closed _ hu _ .self)
    · cases hu
  refine ⟨_, ?_, h.write (v := v) (a := 1) (b := -1) (fun _ _ h => by cases h) ?_ ?_ ?_⟩
  · simp only [toInt, parDfs, initNode_run hn, ok_bind, readCell_node hn, hadj, A.adj_coe, List.map_map]
    simp only [dfsPlan, Proc.map, bind_parAll, List.map_map]
    rfl
  · rw [hnone]
    rfl
  · rw [hnone]
    rfl
  · intro w hw
    refine ⟨?_, rfl⟩
    intro he
    cases he
    exact hw rfl

/-- **The fold of a finished child.** -/
theorem Progress.fold_step (h : Progress A s₀ p s) (h₀ : Start A s₀) (hp : Past A p) (hd : NextCall A p (.fold v u)) :
    CallSpec A s₀ p s (.fold v u) := by
  have hn : s.n = n := h.frame.n_eq.trans h₀.entered.n_eq
  have hu : u ∈ A.rooted.children v := hd.within.2
  have hv : .node v ∈ p := hd.needs _ .self
  have hsize : s.sizes u = A.rooted.size u :=
    h.size_done hp (hd.needs _ .searched) fun _ hc => hd.needs _ (.below hc)
  -- the heavy child so far is a folded one, so its size is final
  have hbest : ∀ c, A.rooted.heavyOf (folds p v) = some c → c ≠ v ∧ s.sizes c = A.rooted.size c := by
    intro c hc
    rcases A.rooted.heavyOf_spec (folds p v) with ⟨hnone, -⟩ | ⟨b, hb, hsome, -⟩
    · rw [hnone] at hc
      cases hc
    · obtain rfl : b = c := Option.some.inj (hsome.symm.trans hc)
      have hfold := mem_folds.1 hb
      exact ⟨A.ne_of_nbr (nbr_of_child (hp.within _ hfold).2), h.size_folded hp hfold⟩
  have hfolds : folds (p ++ [.fold v u]) v = folds p v ++ [u] := by
    rw [folds_concat, folded_eq_some.2 rfl, Option.toList_some]
  have hrun := foldChild_spec (A := A) hn (A.ne_of_nbr (nbr_of_child hu)) hsize (h.heavy v hv) hbest
  refine ⟨_, ?_, h.write (v := v) (a := s.sizes v + A.rooted.size u)
    (b := heavyId (A.rooted.heavier (A.rooted.heavyOf (folds p v)) u)) (fun _ _ h => by cases h) ?_ ?_ ?_⟩
  · simp only [toInt, parDfs, hrun, ok_bind, dfsPlan, Proc.map]
    rfl
  · rw [hfolds, h.sizes v hv, List.map_append, List.sum_append, List.map_singleton, List.sum_singleton, Nat.cast_add]
    ring
  · rw [hfolds, heavyOf_concat]
  · intro w hw
    exact ⟨by simp, if_neg (Ne.symm hw)⟩

/-- a set-up sets up one row -/
theorem seen_child (h : Seen A (p ++ [.child v u]) w) : Seen A p w ∨ (w = u ∧ u ∈ A.rooted.children v) := by
  by_cases hr : w = A.root
  · exact Or.inl (Or.inl hr)
  · rcases List.mem_append.1 (h.resolve_left hr) with hw | hw
    · exact Or.inl (Or.inr hw)
    · cases List.mem_singleton.1 hw
      exact Or.inr ⟨rfl, A.rooted.mem_children_parent hr⟩

/-- a call for the iteration of `v` folds nothing in and initialises no node -/
theorem folds_child (p : List (DfsCall (Fin n))) (v u w : Fin n) : folds (p ++ [.child v u]) w = folds p w := by
  rw [folds_concat]
  exact List.append_nil _

theorem node_mem_child (h : .node w ∈ p ++ [.child v u]) : .node w ∈ p := by
  simpa using h

/-- the set-up of the child `u` -/
theorem Progress.setUp_step (h : Progress A s₀ p s) (h₀ : Start A s₀) (he : Entered A s {w | Seen A p w} v)
    (hu : u ∈ A.rooted.children v) : CallSpec A s₀ p s (.child v u) := by
  have hread : readKth s v 0 = .ok (s.kth v 0) := he.readKth_zero (one_lt_of_ne (A.rooted.ne_root_of_child hu))
  have hne : ((u : ℕ) : ℤ) ≠ s.kth v 0 := by
    by_cases hv : v = A.root
    · have hzero : s.kth v 0 = 0 := by
        rw [hv]
        exact h.zeroRow h₀ 0 (he.logN_child hu)
      rw [hzero, ← A.coe_root]
      exact node_ne (A.rooted.ne_root_of_child hu)
    · exact (he.not_child hv u hu).symm
  obtain ⟨s', hs', hf, he'⟩ := enterChild_spec he hu
  have hroot : ¬ (A.root = u) := fun heq => A.rooted.ne_root_of_child hu heq.symm
  refine ⟨s', ?_, h.frame.trans (hf.mono ?_ fun _ => False.elim), ?_, ?_, ?_, ?_⟩
  · simp only [toInt, parDfs, hread, ok_bind, if_pos hne, hs', dfsPlan_child hu]
    rfl
  · rintro w rfl
    exact A.rooted.ne_root_of_child hu
  · intro w hw
    by_cases hwu : w = u
    · rw [hwu]
      exact he'.rows u (Anc.refl _ _)
    · exact hf.rowOk hroot hwu (h.row w ((seen_child hw).resolve_right fun hcase => hwu hcase.1))
  · intro w hw
    by_cases hwu : w = u
    · rw [hwu]
      exact he'.depth
    · rw [hf.depth_node hwu, hf.depth_zero hroot]
      exact h.depth w ((seen_child hw).resolve_right fun hcase => hwu hcase.1)
  · intro w hw
    rw [hf.sizes_node (w := w) (fun h => h), folds_child, h.sizes w (node_mem_child hw)]
  · intro w hw
    rw [hf.heavy_node (w := w) (fun h => h), folds_child, h.heavy w (node_mem_child hw)]

/-- the neighbour in `kth[v][0]` is the parent, and nothing is written for it -/
theorem Progress.parent_step (h : Progress A s₀ p s) (he : Entered A s {w | Seen A p w} v) (hnbr : u ∈ A.nbrs v)
    (hu : u ∉ A.rooted.children v) : CallSpec A s₀ p s (.child v u) := by
  have hread : readKth s v 0 = .ok (s.kth v 0) := he.readKth_zero (one_lt_of_ne (A.ne_of_nbr hnbr))
  obtain ⟨hv, hpar⟩ := (A.nbr_cases hnbr).resolve_left hu
  have heq : ((u : ℕ) : ℤ) = s.kth v 0 := by rw [he.kth_parent hv, hpar]
  have hseen : ∀ w, Seen A (p ++ [.child v u]) w → Seen A p w := fun w hw =>
    (seen_child hw).resolve_right fun hcase => hu hcase.2
  refine ⟨s, ?_, h.frame, fun w hw => h.row w (hseen w hw), fun w hw => h.depth w (hseen w hw), ?_, ?_⟩
  · simp only [toInt, parDfs, hread, ok_bind, if_neg (not_not.2 heq), dfsPlan_parent hu]
    rfl
  · intro w hw
    rw [folds_child, h.sizes w (node_mem_child hw)]
  · intro w hw
    rw [folds_child, h.heavy w (node_mem_child hw)]

/-- **An iteration up to the call for the child.** -/
theorem Progress.child_step (h : Progress A s₀ p s) (h₀ : Start A s₀) (hp : Past A p) (hd : NextCall A p (.child v u)) :
    CallSpec A s₀ p s (.child v u) := by
  have he := h.entered h₀ hp (hp.seen (hd.needs _ .iter))
  by_cases hu : u ∈ A.rooted.children v
  · exact h.setUp_step h₀ he hu
  · exact h.parent_step he hd.within.2 hu

/-- **Each call.** -/
theorem Progress.step (h : Progress A s₀ p s) (h₀ : Start A s₀) (hp : Past A p) (hd : NextCall A p d) :
    CallSpec A s₀ p s d := by
  cases d with
  | node v => exact h.node_step h₀ hp hd
  | child v u => exact h.child_step h₀ hp hd
  | fold v u => exact h.fold_step h₀ hp hd

/-! ## Whole runs -/

/-- the arrays after all calls -/
structure Searches (A : AdjTree n) (s₀ s : Hld) : Prop where
  frame : Frame s₀ s (fun w => w ≠ A.root) (fun _ => True)
  row : ∀ w : Fin n, RowOk A s w
  depth : ∀ w : Fin n, s.depth w = s.depth 0 + A.rooted.depth w
  sizes : ∀ v : Fin n, s.sizes v = A.rooted.size v
  /-- the first of the largest children, in some order of the children -/
  heavy : ∀ v : Fin n, ∃ us : List (Fin n), us.Perm (A.rooted.children v) ∧ s.heavy v = heavyId (A.rooted.heavyOf us)

theorem Progress.done (h : Progress A s₀ l s) (hl : TraceOk A A.root l) : Searches A s₀ s := by
  have hp : Past A l := hl.past_all
  have hnode : ∀ v, .node v ∈ l := fun v => (hl.mem _).2 (Anc.root _ v)
  have hfold : ∀ v, ∀ u ∈ A.rooted.children v, .fold v u ∈ l := fun v u hu => (hl.mem _).2 ⟨Anc.root _ v, hu⟩
  exact ⟨h.frame, fun w => h.row w (hp.seen (hnode w)), fun w => h.depth w (hp.seen (hnode w)),
    fun v => h.size_done hp (hnode v) (hfold v), fun v => ⟨_, hp.folds_perm (hfold v), h.heavy v (hnode v)⟩⟩

/-- the calls of every trace keep `Progress` -/
theorem parDfs_keeps (h₀ : Start A s₀) :
    Keeps parDfs (dfsPlan A) toInt (.call (.node A.root)) (Progress A s₀) := by
  intro p d q s hl h
  have htrace := traces_node A.root _ hl
  exact h.step h₀ htrace.past htrace.next

/-- **Every interleaving.** -/
theorem parDfs_searches (h₀ : Start A s₀) : AllRuns parDfs (Searches A s₀) (.call (.node 0)) s₀ := by
  obtain ⟨k, hk⟩ := exists_dfs_cost (A := A) A.root
  refine allRuns_of_history (f := toInt) hk (parDfs_keeps h₀) (fun l s hl h => ?_) (Progress.init h₀)
  exact h.done (traces_node A.root l hl)

/-- the arrays `t` of a parallel search against those of the serial search `s` -/
structure SearchedAlike (A : AdjTree n) (s t : Hld) : Prop where
  kth : ∀ (v : Fin n) (i : ℕ), i < Nat.log 2 n → t.kth v i = s.kth v i
  depth : ∀ v : Fin n, t.depth v = s.depth v
  sizes : ∀ v : Fin n, t.sizes v = s.sizes v
  leaf : ∀ v : Fin n, t.heavy v = -1 ↔ A.rooted.children v = []
  heavy : ∀ v : Fin n, A.rooted.children v ≠ [] → ∃ c ∈ A.rooted.children v, t.heavy v = (c : ℕ) ∧
    ∀ u ∈ A.rooted.children v, (A.rooted.sub u).card ≤ (A.rooted.sub c).card

/-- **The parallel search.** From a zero row of the root, every interleaving of `par_dfs(0)` leaves the rows, depths and
sizes of the serial search, and a child of maximum subtree size in `heavy`. -/
theorem par_dfs_serial (A : AdjTree n) (vals : ℤ → ℤ) (mem : Hld) (h : (A.load vals mem).ZeroRow) :
    ∃ s, Returns (fun k => dfs k 0 (A.load vals mem)) s ∧
      AllRuns parDfs (SearchedAlike A s) (.call (.node 0)) (A.load vals mem) := by
  obtain ⟨s, hs, hlog, hz, hdepth, hfin⟩ := dfs_finished h
  have h₀ : Start A (A.load vals mem) := ⟨entered_load (closed_root h) rfl, h⟩
  refine ⟨s, hs, (parDfs_searches h₀).mono fun t ht => ?_⟩
  have hroot : ¬ (A.root ≠ A.root) := fun hne => hne rfl
  have hlog' : t.logN = Nat.log 2 n := ht.frame.logN_eq
  have hz' : t.ZeroRow := (ht.frame.zeroRow hroot).2 h
  have hdepth' : t.depth 0 = s.depth 0 := (ht.frame.depth_zero hroot).trans hdepth.symm
  refine ⟨fun v i hi => ?_, fun v => ?_, fun v => ?_, fun v => ?_, fun v hv => ?_⟩
  · rw [ht.row v i (hlog'.symm ▸ hi) (Or.inr hz'), (hfin v).row i (hlog.symm ▸ hi) (Or.inr hz)]
  · rw [ht.depth v, (hfin v).depth, hdepth']
  · rw [ht.sizes v, (hfin v).sizes]
  · obtain ⟨us, hus, hheavy⟩ := ht.heavy v
    rw [hheavy]
    rcases A.rooted.heavyOf_spec us with ⟨hnone, rfl⟩ | ⟨c, hc, hsome, -⟩
    · rw [hnone]
      exact iff_of_true rfl hus.nil_eq.symm
    · rw [hsome, heavyId]
      refine iff_of_false (by omega) fun hnil => ?_
      rw [hnil] at hus
      rw [hus.eq_nil] at hc
      cases hc
  · obtain ⟨us, hus, hheavy⟩ := ht.heavy v
    rcases A.rooted.heavyOf_spec us with ⟨-, rfl⟩ | ⟨c, hc, hsome, hmax⟩
    · exact absurd hus.nil_eq.symm hv
    · refine ⟨c, hus.mem_iff.1 hc, by rw [hheavy, hsome, heavyId], fun u hu => ?_⟩
      exact hmax u (hus.mem_iff.2 hu)

theorem par_dfs_serial_longPath : (longPath.load (fun x => x) AdjTree.zeroMemory).ZeroRow ∧
    ∃ s, Returns (fun k => dfs k 0 (longPath.load (fun x => x) AdjTree.zeroMemory)) s ∧
      AllRuns parDfs (SearchedAlike longPath s) (.call (.node 0))
        (longPath.load (fun x => x) AdjTree.zeroMemory) := by
  have h : (longPath.load (fun x => x) AdjTree.zeroMemory).ZeroRow := fun _ _ => rfl
  exact ⟨h, par_dfs_serial longPath _ _ h⟩

/-! ## Schedules -/

theorem traces_child (hu : u ∈ A.rooted.children v) (hl : Traces (dfsPlan A) (.call (.node u)) l) :
    Traces (dfsPlan A) (.call (.child v u)) (.child v u :: (l ++ [.fold v u])) := by
  refine .call ?_
  rw [dfsPlan_child hu]
  exact hl.seq (.call .done)

theorem exists_dfs_trace (A : AdjTree n) (d : DfsCall (Fin n)) : ∃ l, Traces (dfsPlan A) (.call d) l := by
  have hnode : ∀ v, ∃ l, Traces (dfsPlan A) (.call (.node v)) l := by
    intro v
    obtain ⟨k, hk⟩ := exists_dfs_cost (A := A) v
    exact exists_trace hk
  cases d with
  | node v => exact hnode v
  | child v u =>
    by_cases hu : u ∈ A.rooted.children v
    · obtain ⟨l, hl⟩ := hnode u
      exact ⟨_, traces_child hu hl⟩
    · refine ⟨[.child v u], .call ?_⟩
      rw [dfsPlan_parent hu]
      exact .done
  | fold v u => exact ⟨[.fold v u], .call .done⟩

/-- the iteration of `v` for any child can run before all others, with any trace below the child -/
theorem exists_child_first (hu : u ∈ A.rooted.children v) (hl : Traces (dfsPlan A) (.call (.node u)) l) :
    ∃ m, Traces (dfsPlan A) (.call (.node v)) (.node v :: .child v u :: (l ++ .fold v u :: m)) := by
  have hmem : .child v u ∈ (A.nbrs v).map (DfsCall.child v) := List.mem_map_of_mem (nbr_of_child hu)
  obtain ⟨m, hm⟩ := exists_trace_start (exists_dfs_trace A) hmem (traces_child hu hl)
  rw [List.map_map, List.cons_append, List.append_assoc] at hm
  exact ⟨m, .call hm⟩

theorem folds_iter (l m : List (DfsCall (Fin n))) (v u w : Fin n) :
    folds (.node v :: .child v u :: (l ++ .fold v u :: m)) w =
      folds l w ++ if v = w then u :: folds m w else folds m w := by
  unfold folds
  rw [List.filterMap_cons_none rfl, List.filterMap_cons_none rfl, List.filterMap_append]
  congr 1
  split_ifs with h
  · exact List.filterMap_cons_some (folded_eq_some.2 (congrArg (DfsCall.fold · u) h))
  · exact List.filterMap_cons_none (if_neg h)

/-- any child of `v` can be folded in before the others -/
theorem exists_fold_first {c : Fin n} (hc : c ∈ A.rooted.children v) (r : Fin n) (hr : A.rooted.Anc r v) :
    ∃ l us, Traces (dfsPlan A) (.call (.node r)) l ∧ folds l v = c :: us := by
  refine A.rooted.ascend (P := fun r => A.rooted.Anc r v →
    ∃ l us, Traces (dfsPlan A) (.call (.node r)) l ∧ folds l v = c :: us) (fun r ih hr => ?_) r hr
  rcases anc_iff_child.1 hr with hrv | ⟨u, hu, huv⟩
  · rw [hrv]
    obtain ⟨l, hl⟩ := exists_dfs_trace A (.node c)
    obtain ⟨m, hm⟩ := exists_child_first hc hl
    -- no call below the child folds into `v`
    have hnone : folds l v = [] := by
      apply List.eq_nil_iff_forall_not_mem.2
      intro x hx
      exact not_anc_of_child hc (((traces_node c l hl).mem _).1 (mem_folds.1 hx)).anc
    exact ⟨_, _, hm, by rw [folds_iter, hnone, if_pos rfl, List.nil_append]⟩
  · obtain ⟨l, us, hl, hfolds⟩ := ih u hu huv
    obtain ⟨m, hm⟩ := exists_child_first hu hl
    have hne : r ≠ v := fun he => not_anc_of_child hu (he ▸ huv)
    exact ⟨_, us ++ folds m v, hm, by rw [folds_iter, hfolds, if_neg hne, List.cons_append]⟩

/-- **Any largest child.** For each child of `v` of maximum subtree size some interleaving of `par_dfs(0)` leaves it in
`heavy`. -/
theorem par_dfs_heavy_any (A : AdjTree n) (vals : ℤ → ℤ) (mem : Hld) (h : (A.load vals mem).ZeroRow) {v c : Fin n}
    (hc : c ∈ A.rooted.children v) (hmax : ∀ u ∈ A.rooted.children v, A.rooted.size u ≤ A.rooted.size c) :
    ∃ t, Steps parDfs (.call (.node 0), A.load vals mem) (Proc.done, t) ∧ t.heavy v = (c : ℕ) := by
  have h₀ : Start A (A.load vals mem) := ⟨entered_load (closed_root h) rfl, h⟩
  obtain ⟨l, us, hl, hfolds⟩ := exists_fold_first hc A.root (Anc.root _ v)
  obtain ⟨t, ht, hprog⟩ := exists_run_of_history (parDfs_keeps h₀) hl (Progress.init h₀)
  have htrace := traces_node A.root l hl
  have hp : Past A l := htrace.past_all
  refine ⟨t, ht, ?_⟩
  rw [hprog.heavy v ((htrace.mem _).2 (Anc.root _ v)), hfolds]
  -- no child that is folded in later is larger
  have hfirst : A.rooted.heavyOf (c :: us) = some c := by
    refine A.rooted.heavyOf_cons fun u hu => hmax u ?_
    have hu' : u ∈ folds l v := hfolds ▸ List.mem_cons_of_mem _ hu
    exact (hp.within _ (mem_folds.1 hu')).2
  rw [hfirst, heavyId]

end Hld

end HeavyLight
