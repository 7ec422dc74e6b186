/-
The inputs of the program: undirected trees on `0, ..., n - 1` with adjacency lists in any order, and the memory that
holds one.

- `AdjTree n`: a tree graph on `Fin n` with the neighbours of each node listed once, in some order.
- `rooted A`: the tree rooted at node 0, with the children in the order of the lists.
- `ofParentTree T`: the input made from a rooted tree, the parent first in each list; its rooted tree is `T` again.
- `load A vals mem`: the state of the program once `alloc_all` has run on memory with contents `mem` and the tree and
  the values are stored. `RootZero` says that the cells of node 0 in `kth` and `depth`, which nothing writes, are zero.
-/
import HeavyLight.GraphTree
import HeavyLight.Hld

namespace HeavyLight

/-- an undirected tree on `0, ..., n - 1` with its adjacency lists -/
structure AdjTree (n : ℕ) where
  graph : SimpleGraph (Fin n)
  isTree : graph.IsTree
  nbrs : Fin n → List (Fin n)
  nodup : ∀ v, (nbrs v).Nodup
  mem_nbrs : ∀ v u, u ∈ nbrs v ↔ graph.Adj v u

/-- nodes with the same number are the same -/
theorem node_ext {n : ℕ} {u v : Fin n} (h : ((u : ℕ) : ℤ) = (v : ℕ)) : u = v := Fin.ext (Int.ofNat.inj h)

/-- a number in range is a node -/
theorem exists_node {n : ℕ} {x : ℤ} (h0 : 0 ≤ x) (h1 : x < n) : ∃ w : Fin n, x = (w : ℕ) := by
  obtain ⟨c, rfl⟩ := Int.eq_ofNat_of_zero_le h0
  exact ⟨⟨c, Int.ofNat_lt.1 h1⟩, rfl⟩

/-- with two nodes there are at least two -/
theorem one_lt_of_ne {n : ℕ} {u v : Fin n} (h : u ≠ v) : 1 < n := by
  have := Fin.val_ne_of_ne h
  omega

theorem node_ne {n : ℕ} {u v : Fin n} (h : u ≠ v) : ((u : ℕ) : ℤ) ≠ (v : ℕ) := fun he => h (node_ext he)

namespace AdjTree

variable {n : ℕ} (A : AdjTree n)

theorem pos (A : AdjTree n) : 0 < n := by
  obtain ⟨v⟩ := A.isTree.connected.nonempty
  exact v.pos

/-- node 0 -/
def root : Fin n := ⟨0, A.pos⟩

@[simp] theorem coe_root : ((A.root : ℕ) : ℤ) = 0 := rfl

/-- the tree rooted at node 0 -/
noncomputable def rooted : ParentTree (Fin n) :=
  ParentTree.ofGraph A.isTree A.root A.nbrs A.nodup A.mem_nbrs

@[simp] theorem rooted_root : A.rooted.root = A.root := rfl

theorem graph_rooted : A.rooted.graph = A.graph := ParentTree.graph_ofGraph _ _ _ _ _

theorem children_rooted (v : Fin n) : A.rooted.children v = (A.nbrs v).filter fun u => u ≠ A.rooted.parent v := rfl

/-- the depth is the distance to node 0 -/
theorem dist_root (v : Fin n) : A.graph.dist A.root v = A.rooted.depth v := rfl

theorem ne_of_nbr {u v : Fin n} (h : u ∈ A.nbrs v) : u ≠ v := by
  intro he
  rw [A.mem_nbrs, he] at h
  exact A.graph.irrefl h

/-- a neighbour that is not the parent is a child -/
theorem nbr_cases {u v : Fin n} (h : u ∈ A.nbrs v) :
    u ∈ A.rooted.children v ∨ (v ≠ A.root ∧ u = A.rooted.parent v) := by
  rw [← A.rooted_root, ← ParentTree.adj_iff_children, graph_rooted, ← A.mem_nbrs]
  exact h

theorem root_nbr_iff {u : Fin n} : u ∈ A.nbrs A.root ↔ u ∈ A.rooted.children A.root := by
  rw [A.mem_nbrs, ← A.graph_rooted, ParentTree.adj_iff_children]
  simp

/-- the sum along a path of the graph is the sum along the path of the rooted tree -/
theorem sum_support (f : Fin n → ℤ) {u v : Fin n} {p : A.graph.Walk u v} (hp : p.IsPath) :
    (p.support.map f).sum = ∑ x ∈ A.rooted.path u v, f x := by
  have hgen : ∀ (G : SimpleGraph (Fin n)) (p : G.Walk u v), G = A.rooted.graph → p.IsPath →
      (p.support.map f).sum = ∑ x ∈ A.rooted.path u v, f x := by
    rintro _ p rfl hp
    exact ParentTree.sum_support f hp
  exact hgen _ p A.graph_rooted.symm hp

/-- the nodes of a path of the graph are the nodes of the path of the rooted tree -/
theorem mem_support {u v x : Fin n} {p : A.graph.Walk u v} (hp : p.IsPath) :
    x ∈ p.support ↔ x ∈ A.rooted.path u v := by
  have hgen : ∀ (G : SimpleGraph (Fin n)) (p : G.Walk u v), G = A.rooted.graph → p.IsPath →
      (x ∈ p.support ↔ x ∈ A.rooted.path u v) := by
    rintro _ p rfl hp
    rw [← ParentTree.support_path hp, List.mem_toFinset]
  exact hgen _ p A.graph_rooted.symm hp

/-! ## Inputs from rooted trees -/

/-- the input made from a rooted tree: in each list the parent comes first -/
def ofParentTree (T : ParentTree (Fin n)) : AdjTree n where
  graph := T.graph
  isTree := T.isTree_graph
  nbrs v := if v = T.root then T.children v else T.parent v :: T.children v
  nodup v := by
    split_ifs with hv
    · exact T.children_nodup v
    · exact List.nodup_cons.2 ⟨fun h => ParentTree.child_ne_parent h rfl, T.children_nodup v⟩
  mem_nbrs v u := by
    rw [ParentTree.adj_iff_children]
    split_ifs with hv
    · simp [hv]
    · simp [hv, or_comm]

/-- a rooted tree is the rooted tree of the input made from it -/
theorem rooted_ofParentTree (T : ParentTree (Fin n)) (h0 : (T.root : ℕ) = 0) : (ofParentTree T).rooted = T := by
  have hroot : (ofParentTree T).root = T.root := Fin.ext h0.symm
  have hfilter : ∀ v, (T.children v).filter (fun u => u ≠ T.parent v) = T.children v := fun v =>
    List.filter_eq_self.2 fun u hu => decide_eq_true (ParentTree.child_ne_parent hu)
  unfold rooted
  rw [hroot]
  apply ParentTree.ofGraph_eq T _ _ _
  intro v
  simp only [ofParentTree]
  split_ifs with hv
  · exact (hfilter v).symm
  · rw [List.filter_cons, if_neg (by simp), hfilter]

/-! ## Memory -/

/-- the node of a number -/
def ofInt (x : ℤ) : Fin n := if h : 0 ≤ x ∧ x < n then ⟨x.toNat, by omega⟩ else A.root

@[simp] theorem ofInt_coe (v : Fin n) : A.ofInt v = v := by
  have h : (0 : ℤ) ≤ (v : ℕ) ∧ ((v : ℕ) : ℤ) < n := by omega
  rw [ofInt, dif_pos h]
  rfl

/-- `adj[x]` -/
def adj (x : ℤ) : List ℤ :=
  if h : 0 ≤ x ∧ x < n then (A.nbrs ⟨x.toNat, by omega⟩).map fun u : Fin n => ((u : ℕ) : ℤ) else []

theorem adj_coe (v : Fin n) : A.adj v = (A.nbrs v).map fun u : Fin n => ((u : ℕ) : ℤ) := by
  have h : (0 : ℤ) ≤ (v : ℕ) ∧ ((v : ℕ) : ℤ) < n := by omega
  rw [adj, dif_pos h]
  rfl

/-- the lists hold neighbours of nodes -/
theorem mem_adj {x y : ℤ} (h : x ∈ A.adj y) : ∃ v u : Fin n, y = (v : ℕ) ∧ x = (u : ℕ) ∧ u ∈ A.nbrs v := by
  unfold adj at h
  split_ifs at h with hy
  · obtain ⟨v, rfl⟩ := exists_node hy.1 hy.2
    obtain ⟨u, hu, rfl⟩ := List.mem_map.1 h
    exact ⟨v, u, rfl, rfl, hu⟩
  · cases h

/-- the state once `alloc_all` has run and the tree and the values are stored -/
def load (vals : ℤ → ℤ) (mem : Hld) : Hld := { Hld.allocAll n mem with adj := A.adj, values := vals }

/-- memory of zeros -/
def zeroMemory : Hld where
  n := 0
  logN := 0
  adj _ := []
  heavy _ := 0
  head _ := 0
  pos _ := 0
  depth _ := 0
  sizes _ := 0
  values _ := 0
  kth _ _ := 0
  st := ⟨0, Vec.zeros 0⟩
  curPos := 0

end AdjTree

/-- the cells of node 0 in `kth` and `depth` are zero -/
structure Hld.RootZero (s : Hld) : Prop where
  kth : ∀ i : ℕ, i < s.logN → s.kth 0 i = 0
  depth : s.depth 0 = 0

theorem AdjTree.rootZero_zeroMemory {n : ℕ} (A : AdjTree n) (vals : ℤ → ℤ) :
    (A.load vals AdjTree.zeroMemory).RootZero := ⟨fun _ _ => rfl, rfl⟩

/-! ## A small input -/

namespace Hld

/-- the path 0, 1, 2, 3, 4, 5 and a second child 6 of node 0 -/
def longPathTree : ParentTree (Fin 7) := ParentTree.numbered ![0, 0, 1, 2, 3, 4, 0] (by decide) (by decide)

def longPath : AdjTree 7 := AdjTree.ofParentTree longPathTree

theorem rooted_longPath : longPath.rooted = longPathTree := AdjTree.rooted_ofParentTree longPathTree rfl

end Hld

end HeavyLight
