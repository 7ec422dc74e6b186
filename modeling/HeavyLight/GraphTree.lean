/-
Rooted trees and tree graphs. A general library: a parent function gives a tree graph, and a tree graph with a root and
ordered neighbours gives a parent function back.

- `graph T`: the edges between nodes and their parents; `isTree_graph`: it is a tree.
- `support_path`: in that graph, the nodes of the path from `u` to `v` are `T.path u v`, each once.
- `ofGraph`: the rooted tree of a tree graph, with the parent of a node its neighbour closer to the root; its graph is
  the graph (`graph_ofGraph`), and `ofGraph_eq` recovers a rooted tree from its own graph.
-/
import HeavyLight.TreePath
import Mathlib.Combinatorics.SimpleGraph.Acyclic

namespace HeavyLight.ParentTree

variable {V : Type*}

/-! ## The graph of a rooted tree -/

/-- the undirected edges between nodes and their parents -/
def graph (T : ParentTree V) : SimpleGraph V where
  Adj u v := (u ≠ T.root ∧ T.parent u = v) ∨ (v ≠ T.root ∧ T.parent v = u)
  symm := ⟨fun _ _ h => h.symm⟩
  loopless := ⟨fun v h => by
    have h : v ≠ T.root ∧ T.parent v = v := h.elim id id
    have := T.depth_parent v h.1
    rw [h.2] at this
    omega⟩

variable {T : ParentTree V} {a u v w x : V}

theorem graph_adj : T.graph.Adj u v ↔ (u ≠ T.root ∧ T.parent u = v) ∨ (v ≠ T.root ∧ T.parent v = u) := Iff.rfl

theorem adj_parent (hv : v ≠ T.root) : T.graph.Adj v (T.parent v) := Or.inl ⟨hv, rfl⟩

theorem adj_iff_children : T.graph.Adj v u ↔ u ∈ T.children v ∨ (v ≠ T.root ∧ u = T.parent v) := by
  rw [graph_adj, mem_children, or_comm, eq_comm (a := T.parent v)]

theorem reachable_root (T : ParentTree V) (v : V) : T.graph.Reachable v T.root := by
  induction v using T.descend with
  | root => exact SimpleGraph.Reachable.refl _
  | step v hv ih => exact (adj_parent hv).reachable.trans ih

theorem connected_graph (T : ParentTree V) : T.graph.Connected where
  preconnected u v := (T.reachable_root u).trans (T.reachable_root v).symm
  nonempty := ⟨T.root⟩

/-- every edge is the edge of one node to its parent -/
theorem edgeSet_graph (T : ParentTree V) :
    T.graph.edgeSet = (fun v => s(v, T.parent v)) '' {v | v ≠ T.root} := by
  ext e
  induction e using Sym2.ind with
  | _ u v =>
    simp only [SimpleGraph.mem_edgeSet, graph_adj, Set.mem_image, Set.mem_ofPred_eq, Sym2.eq_iff]
    refine ⟨?_, ?_⟩
    · intro hcase
      rcases hcase with ⟨h, rfl⟩ | ⟨h, rfl⟩
      · exact ⟨u, h, Or.inl ⟨rfl, rfl⟩⟩
      · exact ⟨v, h, Or.inr ⟨rfl, rfl⟩⟩
    · intro hcase
      rcases hcase with ⟨w, h, ⟨rfl, rfl⟩ | ⟨rfl, rfl⟩⟩
      · exact Or.inl ⟨h, rfl⟩
      · exact Or.inr ⟨h, rfl⟩

theorem edge_injOn (T : ParentTree V) : Set.InjOn (fun v => s(v, T.parent v)) {v | v ≠ T.root} := by
  intro u hu v hv h
  rcases Sym2.eq_iff.1 h with ⟨h, -⟩ | ⟨h1, h2⟩
  · exact h
  · -- each would be the parent of the other
    have hd1 := T.depth_parent u hu
    have hd2 := T.depth_parent v hv
    rw [h2] at hd1
    rw [← h1] at hd2
    omega

theorem isTree_graph [Finite V] (T : ParentTree V) : T.graph.IsTree := by
  refine SimpleGraph.isTree_iff_connected_and_card.2 ⟨T.connected_graph, ?_⟩
  have hcard : Nat.card T.graph.edgeSet = Set.ncard {v | v ≠ T.root} := by
    rw [edgeSet_graph, ← T.edge_injOn.ncard_image]
    rfl
  have hcompl : {v | v ≠ T.root} = {T.root}ᶜ := by ext v; simp
  rw [hcard, hcompl, ← Set.ncard_add_ncard_compl {T.root}, Set.ncard_singleton, add_comm]

/-! ## Paths in the graph -/

section Path

variable [Fintype V] [DecidableEq V]

/-- straight up from a node to an ancestor -/
theorem exists_up_path (T : ParentTree V) (ha : T.Anc a u) :
    ∃ p : T.graph.Walk u a, p.IsPath ∧ ∀ x, x ∈ p.support ↔ x ∈ T.seg a u := by
  induction u using T.descend with
  | root =>
    obtain rfl := anc_root_iff.1 ha
    refine ⟨.nil, by simp, fun x => ?_⟩
    simp only [SimpleGraph.Walk.support_nil, List.mem_singleton, mem_seg]
    exact ⟨fun h => h ▸ ⟨Anc.refl T _, Anc.refl T _⟩, fun h => anc_root_iff.1 h.2⟩
  | step u hu ih =>
    by_cases hau : a = u
    · subst hau
      refine ⟨.nil, by simp, fun x => ?_⟩
      simp only [SimpleGraph.Walk.support_nil, List.mem_singleton, mem_seg]
      exact ⟨fun h => h ▸ ⟨Anc.refl T _, Anc.refl T _⟩, fun h => h.2.antisymm h.1⟩
    obtain ⟨p, hp, hsup⟩ := ih (ha.anc_parent hau)
    have hnot : u ∉ p.support := by
      rw [hsup, mem_seg]
      exact fun h => not_anc_of_child (T.mem_children_parent hu) h.2
    refine ⟨.cons (adj_parent hu) p, hp.cons hnot, fun x => ?_⟩
    simp only [SimpleGraph.Walk.support_cons, List.mem_cons, hsup, mem_seg]
    refine ⟨?_, ?_⟩
    · intro hcase
      rcases hcase with rfl | ⟨h1, h2⟩
      · exact ⟨ha, Anc.refl T _⟩
      · exact ⟨h1, h2.trans (Anc.parent T u)⟩
    · intro hcase
      obtain ⟨h1, h2⟩ := hcase
      by_cases hxu : x = u
      · exact Or.inl hxu
      · exact Or.inr ⟨h1, h2.anc_parent hxu⟩

/-- up to the lowest common ancestor and down again is a path, through the nodes of `T.path u v` -/
theorem exists_path (T : ParentTree V) (u v : V) :
    ∃ p : T.graph.Walk u v, p.IsPath ∧ ∀ x, x ∈ p.support ↔ x ∈ T.path u v := by
  have hw := T.isLca_lca u v
  obtain ⟨p, hp, hps⟩ := T.exists_up_path hw.left
  obtain ⟨q, hq, hqs⟩ := T.exists_up_path hw.right
  refine ⟨p.append q.reverse, ?_, fun x => ?_⟩
  · rw [SimpleGraph.Walk.isPath_def, SimpleGraph.Walk.support_append, List.nodup_append]
    have hnodup : q.reverse.support.Nodup := hq.reverse.support_nodup
    refine ⟨hp.support_nodup, hnodup.sublist (List.tail_sublist _), fun x hx y hy hxy => ?_⟩
    -- a node on both ways up is the lowest common ancestor, which is not repeated
    subst hxy
    have hxq : x ∈ q.support := by
      have := List.mem_of_mem_tail hy
      rwa [SimpleGraph.Walk.support_reverse, List.mem_reverse] at this
    rw [hps, mem_seg] at hx
    rw [hqs, mem_seg] at hxq
    obtain rfl : x = T.lca u v := (hw.lowest x hx.2 hxq.2).antisymm hx.1
    rw [← SimpleGraph.Walk.cons_tail_support q.reverse, List.nodup_cons] at hnodup
    exact hnodup.1 hy
  · rw [SimpleGraph.Walk.mem_support_append_iff, SimpleGraph.Walk.support_reverse, List.mem_reverse, hps, hqs,
      mem_seg, mem_seg, mem_path]
    refine ⟨?_, ?_⟩
    · intro hcase
      rcases hcase with ⟨h1, h2⟩ | ⟨h1, h2⟩
      · exact ⟨Or.inl h2, h1⟩
      · exact ⟨Or.inr h2, h1⟩
    · intro hcase
      rcases hcase with ⟨h1 | h1, h2⟩
      · exact Or.inl ⟨h2, h1⟩
      · exact Or.inr ⟨h2, h1⟩

/-- **The nodes of the path of the graph are the nodes of the path of the tree.** -/
theorem support_path {p : T.graph.Walk u v} (hp : p.IsPath) : p.support.toFinset = T.path u v := by
  obtain ⟨q, hq, hqs⟩ := T.exists_path u v
  obtain rfl : p = q := (T.isTree_graph.existsUnique_path u v).unique hp hq
  ext x
  rw [List.mem_toFinset, hqs]

/-- the sum along the path of the graph, each node once -/
theorem sum_support {M : Type*} [AddCommMonoid M] (f : V → M) {p : T.graph.Walk u v} (hp : p.IsPath) :
    (p.support.map f).sum = ∑ x ∈ T.path u v, f x := by
  rw [← support_path hp, List.sum_toFinset f hp.support_nodup]

end Path

/-! ## The rooted tree of a tree graph -/

section OfGraph

variable {G : SimpleGraph V}

/-- every node but the root has exactly one neighbour closer to the root -/
theorem exists_closer (hG : G.IsTree) {r v : V} (hv : v ≠ r) : ∃ u, G.Adj v u ∧ G.dist r v = G.dist r u + 1 := by
  obtain ⟨p, -, hlen⟩ := hG.connected.exists_path_of_dist r v
  have hnil : ¬ p.Nil := SimpleGraph.Walk.not_nil_of_ne hv.symm
  have hadj := p.adj_penultimate hnil
  refine ⟨p.penultimate, hadj.symm, ?_⟩
  have h1 := G.dist_le p.dropLast
  rw [SimpleGraph.Walk.length_dropLast, hlen] at h1
  have hpos := SimpleGraph.Walk.not_nil_iff_lt_length.1 hnil
  rcases hG.dist_eq_dist_add_one_of_adj r hadj with h | h <;> omega

theorem closer_unique (hG : G.IsTree) {r v u u' : V} (hu : G.Adj v u) (hd : G.dist r v = G.dist r u + 1)
    (hu' : G.Adj v u') (hd' : G.dist r v = G.dist r u' + 1) : u = u' := by
  obtain ⟨p, hp, hpl⟩ := hG.connected.exists_path_of_dist r u
  obtain ⟨q, hq, hql⟩ := hG.connected.exists_path_of_dist r u'
  obtain ⟨s, hs, hsl⟩ := hG.connected.exists_path_of_dist r v
  -- a shortest path to a neighbour closer to the root does not pass through `v`
  have hnot : ∀ {w : V} (t : G.Walk r w), t.length = G.dist r w → G.dist r v = G.dist r w + 1 → v ∉ t.support := by
    classical
    intro w t ht hw hmem
    have h1 := G.dist_le (t.takeUntil v hmem)
    have h2 := t.length_takeUntil_le_length hmem
    omega
  have hup : u ∈ s.support :=
    hG.isAcyclic.mem_support_of_ne_mem_support_of_adj_of_isPath hs hp hu (hnot p hpl hd)
  have huq : u' ∈ s.support :=
    hG.isAcyclic.mem_support_of_ne_mem_support_of_adj_of_isPath hs hq hu' (hnot q hql hd')
  exact (hG.isAcyclic.eq_penultimate_of_adj_end hs hu hup).trans
    (hG.isAcyclic.eq_penultimate_of_adj_end hs hu' huq).symm

variable [DecidableEq V]

open Classical in
/-- the neighbour closer to the root; the root is its own -/
noncomputable def closer (hG : G.IsTree) (r v : V) : V := if hv : v = r then r else (exists_closer hG hv).choose

theorem closer_root (hG : G.IsTree) (r : V) : closer hG r r = r := by simp [closer]

theorem closer_spec (hG : G.IsTree) {r v : V} (hv : v ≠ r) :
    G.Adj v (closer hG r v) ∧ G.dist r v = G.dist r (closer hG r v) + 1 := by
  rw [closer, dif_neg hv]
  exact (exists_closer hG hv).choose_spec

theorem eq_closer (hG : G.IsTree) {r v u : V} (hu : G.Adj v u) (hd : G.dist r v = G.dist r u + 1) :
    closer hG r v = u := by
  have hv : v ≠ r := by rintro rfl; simp at hd
  exact closer_unique hG (closer_spec hG hv).1 (closer_spec hG hv).2 hu hd

/-- of two neighbours one is the parent of the other -/
theorem closer_of_adj (hG : G.IsTree) {r u v : V} (h : G.Adj u v) :
    (u ≠ r ∧ closer hG r u = v) ∨ (v ≠ r ∧ closer hG r v = u) := by
  rcases hG.dist_eq_dist_add_one_of_adj r h with hd | hd
  · exact Or.inl ⟨fun hu => by subst hu; simp at hd, eq_closer hG h hd⟩
  · exact Or.inr ⟨fun hv => by subst hv; simp at hd, eq_closer hG h.symm hd⟩

/-- the rooted tree of a tree graph; the children of a node are its other neighbours in the given order -/
noncomputable def ofGraph (hG : G.IsTree) (r : V) (nbrs : V → List V) (hnodup : ∀ v, (nbrs v).Nodup)
    (hnbrs : ∀ v u, u ∈ nbrs v ↔ G.Adj v u) : ParentTree V where
  root := r
  parent := closer hG r
  depth := G.dist r
  children v := (nbrs v).filter fun u => u ≠ closer hG r v
  parent_root := closer_root hG r
  depth_root := by simp
  depth_parent v hv := (closer_spec hG hv).2
  children_nodup v := (hnodup v).filter _
  mem_children u v := by
    rw [List.mem_filter, hnbrs, decide_eq_true_eq]
    refine ⟨?_, ?_⟩
    · intro hcase
      obtain ⟨hadj, hne⟩ := hcase
      rcases closer_of_adj hG (r := r) hadj with ⟨_, h⟩ | h
      · exact absurd h.symm hne
      · exact h
    · intro hcase
      obtain ⟨hu, rfl⟩ := hcase
      obtain ⟨hadj, hd⟩ := closer_spec hG hu
      refine ⟨hadj.symm, fun he => ?_⟩
      by_cases hv : closer hG r u = r
      · rw [hv, closer_root] at he
        exact hu he
      · have := (closer_spec hG hv).2
        rw [← he] at this
        omega

theorem graph_ofGraph (hG : G.IsTree) (r : V) (nbrs : V → List V) (hnodup : ∀ v, (nbrs v).Nodup)
    (hnbrs : ∀ v u, u ∈ nbrs v ↔ G.Adj v u) : (ofGraph hG r nbrs hnodup hnbrs).graph = G := by
  ext u v
  refine ⟨?_, ?_⟩
  · intro hcase
    rcases hcase with ⟨hu, rfl⟩ | ⟨hv, rfl⟩
    · exact (closer_spec hG hu).1
    · exact (closer_spec hG hv).1.symm
  · exact closer_of_adj hG

end OfGraph

/-! ## Recovering a rooted tree from its graph -/

theorem depth_le_length {p : T.graph.Walk u v} : T.depth v ≤ T.depth u + p.length := by
  induction p with
  | nil => simp
  | cons hadj p ih =>
    rw [SimpleGraph.Walk.length_cons]
    rcases hadj with ⟨hu, rfl⟩ | ⟨hw, rfl⟩
    · have := T.depth_parent _ hu
      omega
    · have := T.depth_parent _ hw
      omega

theorem dist_graph (T : ParentTree V) (v : V) : T.graph.dist T.root v = T.depth v := by
  have hle : ∀ v, T.graph.dist T.root v ≤ T.depth v := by
    intro v
    induction v using T.descend with
    | root => simp
    | step v hv ih =>
      have h1 := T.connected_graph.dist_triangle (u := T.root) (v := T.parent v) (w := v)
      have h2 : T.graph.dist (T.parent v) v = 1 := SimpleGraph.dist_eq_one_iff_adj.2 (adj_parent hv).symm
      have h3 := T.depth_parent v hv
      omega
  obtain ⟨p, hp⟩ := T.connected_graph.exists_walk_length_eq_dist T.root v
  have hge := depth_le_length (p := p)
  rw [T.depth_root, hp] at hge
  have := hle v
  omega

/-- a rooted tree is the rooted tree of its graph -/
theorem ofGraph_eq [Finite V] [DecidableEq V] (T : ParentTree V) (nbrs : V → List V) (hnodup : ∀ v, (nbrs v).Nodup)
    (hnbrs : ∀ v u, u ∈ nbrs v ↔ T.graph.Adj v u)
    (hchildren : ∀ v, T.children v = (nbrs v).filter fun u => u ≠ T.parent v) :
    ofGraph T.isTree_graph T.root nbrs hnodup hnbrs = T := by
  have hparent : closer T.isTree_graph T.root = T.parent := by
    funext v
    by_cases hv : v = T.root
    · rw [hv, closer_root, T.parent_root]
    · exact eq_closer _ (adj_parent hv) (by rw [dist_graph, dist_graph, T.depth_parent v hv])
  refine ParentTree.ext rfl hparent (funext T.dist_graph) (funext fun v => ?_)
  rw [hchildren v]
  simp only [ofGraph, hparent]

end HeavyLight.ParentTree
