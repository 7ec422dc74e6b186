/-
The chains and the positions that `dfs` and `decompose` lay out, from memory whose root cells of `kth` are zero.

- `HeavyStep A s v p`: `p` is the parent of `v`, and `heavy[p]` is `v`. `Climb` is any number of such steps.
- `decompose_chains`: `head[v]` is the topmost node that `v` climbs to, two nodes have one head exactly when one climbs to
  the other, and a chain has consecutive positions from its head down.
- `decompose_positions`: the positions are a bijection onto `0, ..., n - 1`, in which a subtree is an interval that starts
  with its root.
-/
import HeavyLight.Preprocess

namespace HeavyLight

open ParentTree

namespace Hld

variable {n : ℕ} {A : AdjTree n} {s : Hld} {u v x : Fin n} {vals : ℤ → ℤ} {mem : Hld}

/-! ## Chains -/

/-- the step from `v` to its parent `p`, taken when `v` is the heavy child of `p` -/
def HeavyStep (A : AdjTree n) (s : Hld) (v p : Fin n) : Prop := v ∈ A.rooted.children p ∧ s.heavy p = (v : ℕ)

/-- `v` climbs to `x`: by going to the parent while the node is its parent's heavy child -/
def Climb (A : AdjTree n) (s : Hld) : Fin n → Fin n → Prop := Relation.ReflTransGen (HeavyStep A s)

theorem heavyStep_iff (h : Laid A s) : HeavyStep A s v x ↔ A.rooted.HeavyStep v x := by
  unfold HeavyStep ParentTree.HeavyStep
  rw [(h.finished x).heavy, show ((v : ℕ) : ℤ) = heavyId (some v) from rfl, heavyId_injective.eq_iff]
  exact ⟨fun hcase => hcase.2, fun hheavy => ⟨heavy_mem hheavy, hheavy⟩⟩

theorem climb_iff (h : Laid A s) : Climb A s v x ↔ Relation.ReflTransGen A.rooted.HeavyStep v x := by
  have hstep : HeavyStep A s = A.rooted.HeavyStep := by
    funext v x
    exact propext (heavyStep_iff h)
  unfold Climb
  rw [hstep]

/-- the nodes that `v` climbs to have the positions before that of `v`, in the order of depth -/
theorem pos_of_climb (h : Laid A s) (hc : Climb A s v x) : s.pos v + A.rooted.depth x = s.pos x + A.rooted.depth v := by
  obtain ⟨hh, ha⟩ := reach_iff.1 ((climb_iff h).1 hc)
  have := pos_chain hh ha
  rw [(h.placed v).pos, (h.placed x).pos]
  omega

/-- **Heads, chains and positions.** After `dfs(0)` and `decompose(0, 0)` from `cur_pos = 0` and zero root cells of `kth`:
`head[v]` is the topmost node that `v` climbs to; two nodes have one head exactly when one climbs to the other; and the
nodes that `v` climbs to, from `head[v]` down to `v`, have consecutive positions in the order of depth. -/
theorem decompose_chains (A : AdjTree n) (vals : ℤ → ℤ) (mem : Hld) (h : (A.load vals mem).ZeroRow) :
    ∃ s, Returns (fun k => decomposeRoot k (A.load vals mem)) s ∧
      (∀ v : Fin n, s.heavy v = heavyId (A.rooted.heavy v)) ∧
      (∀ v : Fin n, ∃ t : Fin n, s.head v = (t : ℕ) ∧ Climb A s v t ∧ (∀ x, Climb A s v x → Climb A s x t) ∧
        (∀ x, Climb A s v x → s.pos x = s.pos t + (A.graph.dist A.root x - A.graph.dist A.root t)) ∧
        ∀ i, s.pos t ≤ i → i ≤ s.pos v → ∃ x, Climb A s v x ∧ s.pos x = i) ∧
      ∀ u v : Fin n, s.head u = s.head v ↔ Climb A s u v ∨ Climb A s v u := by
  obtain ⟨s, hs, hl, -⟩ := decomposeRoot_laid h
  refine ⟨s, hs, fun v => (hl.finished v).heavy, fun v => ?_, fun u v => ?_⟩
  · have htop : Climb A s v (A.rooted.head v) := (climb_iff hl).2 (reach_head v)
    refine ⟨A.rooted.head v, (hl.placed v).head, htop, fun x hx => ?_, fun x hx => ?_, fun i h0 h1 => ?_⟩
    · exact (climb_iff hl).2 (head_of_reach ((climb_iff hl).1 hx))
    · have h1 := pos_of_climb hl hx
      have h2 := pos_of_climb hl htop
      rw [A.dist_root, A.dist_root]
      omega
    · -- the node of the chain at distance `pos[v] - i` above `v`
      have h2 := pos_of_climb hl htop
      obtain ⟨k, hk⟩ := Int.eq_ofNat_of_zero_le (show 0 ≤ s.pos v - i by omega)
      have hup : A.rooted.Anc (A.rooted.up k v) v := Anc.of_up _ k v
      have hdepth := A.rooted.depth_up k v
      have hdepth' := (A.rooted.head_anc v).depth_le
      have hhead := chain_between ((A.rooted.head_anc v).of_depth_le hup (by omega)) hup
      have hx : Climb A s v (A.rooted.up k v) := (climb_iff hl).2 (reach_iff.2 ⟨hhead, hup⟩)
      have h3 := pos_of_climb hl hx
      exact ⟨_, hx, by omega⟩
  · rw [(hl.placed u).head, (hl.placed v).head, climb_iff hl, climb_iff hl, ← head_eq_iff_reach, Nat.cast_inj,
      Fin.val_inj]

/-- on the path 0, ..., 5 with the second child 6 of node 0, from memory of zeros -/
theorem decompose_chains_longPath :
    ∃ s, Returns (fun k => decomposeRoot k (longPath.load (fun _ => 0) AdjTree.zeroMemory)) s ∧
      ∀ u v : Fin 7, s.head u = s.head v ↔ Climb longPath s u v ∨ Climb longPath s v u := by
  obtain ⟨s, hs, -, -, hheads⟩ := decompose_chains longPath _ _ (longPath.rootZero_zeroMemory fun _ => 0).kth
  exact ⟨s, hs, hheads⟩

/-! ## Positions -/

/-- **Positions.** After `dfs(0)` and `decompose(0, 0)` from `cur_pos = 0` and zero root cells of `kth`: `cur_pos` is `n`,
`pos` is a bijection from the nodes onto `0, ..., n - 1`, a node comes before everything below it, and the subtree of `v`
has the positions from `pos[v]` to `pos[v] + sizes[v] - 1`. -/
theorem decompose_positions (A : AdjTree n) (vals : ℤ → ℤ) (mem : Hld) (h : (A.load vals mem).ZeroRow) :
    ∃ s, Returns (fun k => decomposeRoot k (A.load vals mem)) s ∧ s.curPos = n ∧
      Set.BijOn s.pos (Set.Ico 0 n) (Set.Ico 0 n) ∧
      (∀ v w : Fin n, A.rooted.Anc v w → v ≠ w → s.pos v < s.pos w) ∧
      ∀ v : Fin n, (fun w : Fin n => s.pos w) '' {w | A.rooted.Anc v w} = Set.Ico (s.pos v) (s.pos v + s.sizes v) := by
  obtain ⟨s, hs, hl, hcur⟩ := decomposeRoot_laid h
  refine ⟨s, hs, hcur, hl.bijOn_pos, fun v w hvw hne => ?_, fun v => ?_⟩
  · rw [(hl.placed v).pos, (hl.placed w).pos, Nat.cast_lt]
    exact pos_lt hvw hne
  · ext i
    have himage := A.rooted.image_pos_sub v
    simp only [Finset.ext_iff, Finset.mem_image, mem_sub, Finset.mem_Ico] at himage
    simp only [Set.mem_image, Set.mem_ofPred_eq, Set.mem_Ico, (hl.placed _).pos, (hl.finished v).sizes]
    refine ⟨?_, ?_⟩
    · intro hcase
      obtain ⟨w, hw, rfl⟩ := hcase
      have := (himage _).1 ⟨w, hw, rfl⟩
      omega
    · intro hcase
      obtain ⟨k, rfl⟩ := Int.eq_ofNat_of_zero_le (show 0 ≤ i by omega)
      obtain ⟨w, hw, hk⟩ := (himage k).2 (by omega)
      exact ⟨w, hw, by rw [hk]⟩

/-- on the path 0, ..., 5 with the second child 6 of node 0, from memory of zeros -/
theorem decompose_positions_longPath :
    ∃ s, Returns (fun k => decomposeRoot k (longPath.load (fun _ => 0) AdjTree.zeroMemory)) s ∧ s.curPos = (7 : ℕ) := by
  obtain ⟨s, hs, hcur, -⟩ := decompose_positions longPath _ _ (longPath.rootZero_zeroMemory fun _ => 0).kth
  exact ⟨s, hs, hcur⟩

end Hld

end HeavyLight
