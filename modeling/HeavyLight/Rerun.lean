/-
Preprocessing over old contents: the state that `preprocess` leaves does not depend on what the arrays held before, so
that the rounds of `main` after the first change nothing.

- `SameCells`, `SameState s s'`: two arrays, two states, with the same contents in every cell they have.
- `SameState.lca`, `SameState.queryPath`, `SameState.queryPathOld`: the same results in both, for any arguments.
- `Settled A vals s`: what `preprocess` leaves. `Settled.sameState`: there is one such state, up to cells outside the
  arrays.
- `preprocess_settled`: from any contents with zero root cells, among them those of a settled state.
- `preprocessRounds`: the rounds of `main`. `preprocess_rounds`: any contents and any number of rounds.
-/
import HeavyLight.ParPreprocess
import HeavyLight.QueryPath

namespace HeavyLight

open ParentTree

/-! ## Equal contents -/

/-- the same contents in the cells of an array -/
def SameCells {α : Type} (size : ℕ) (a a' : ℤ → α) : Prop := ∀ x : ℤ, 0 ≤ x → x < size → a' x = a x

theorem SameCells.readCell {α : Type} {size : ℕ} {a a' : ℤ → α} (h : SameCells size a a') (x : ℤ) :
    readCell size a' x = readCell size a x := by
  unfold HeavyLight.readCell
  split_ifs with hx
  · rw [h x hx.1 hx.2]
  · rfl

namespace Hld

/-- the same contents in every array, and the same segment tree -/
structure SameState (s s' : Hld) : Prop where
  n_eq : s'.n = s.n
  logN_eq : s'.logN = s.logN
  adj_eq : s'.adj = s.adj
  values_eq : s'.values = s.values
  st_eq : s'.st = s.st
  curPos_eq : s'.curPos = s.curPos
  heavy : SameCells s.n s.heavy s'.heavy
  head : SameCells s.n s.head s'.head
  pos : SameCells s.n s.pos s'.pos
  depth : SameCells s.n s.depth s'.depth
  sizes : SameCells s.n s.sizes s'.sizes
  kth : ∀ x : ℤ, 0 ≤ x → x < s.n → SameCells s.logN (s.kth x) (s'.kth x)

variable {n : ℕ} {A : AdjTree n} {s s' : Hld} {vals : ℤ → ℤ} {mem : Hld}

/-! ## Reading the same cells -/

namespace SameState

theorem readKth (h : SameState s s') (u i : ℤ) : readKth s' u i = readKth s u i := by
  unfold Hld.readKth
  by_cases hu : 0 ≤ u ∧ u < s.n
  · rw [h.n_eq, readCell_ok hu.1 hu.2, readCell_ok hu.1 hu.2, ok_bind, ok_bind, h.logN_eq]
    exact (h.kth u hu.1 hu.2).readCell i
  · have hnone : ∀ a : ℤ → ℤ → ℤ, readCell s.n a u = .error .outOfBounds := fun a => if_neg hu
    rw [h.n_eq, hnone, hnone]
    rfl

theorem liftLoop (h : SameState s s') (diff : ℤ) (m : ℕ) (u : ℤ) : liftLoop s' diff m u = liftLoop s diff m u := by
  induction m generalizing u with
  | zero => rfl
  | succ m ih =>
    unfold Hld.liftLoop
    simp only [h.readKth, ih]

theorem jumpLoop (h : SameState s s') (m : ℕ) (u v : ℤ) : jumpLoop s' m u v = jumpLoop s m u v := by
  induction m generalizing u v with
  | zero => rfl
  | succ m ih =>
    unfold Hld.jumpLoop
    simp only [h.readKth, ih]

theorem lcaFrom (h : SameState s s') (u v : ℤ) : lcaFrom s' u v = lcaFrom s u v := by
  unfold Hld.lcaFrom
  simp only [h.n_eq, h.logN_eq, h.depth.readCell, h.liftLoop, h.jumpLoop, h.readKth]

theorem lca (h : SameState s s') (u v : ℤ) : lca s' u v = lca s u v := by
  unfold Hld.lca
  simp only [h.n_eq, h.depth.readCell, h.lcaFrom]

theorem climbLoop (h : SameState s s') (ask : ℕ → ℤ → ℤ → Exec ℤ) (x : ℤ) (k : ℕ) (u res : ℤ) :
    climbLoop s' ask x k u res = climbLoop s ask x k u res := by
  induction k generalizing u res with
  | zero => rfl
  | succ k ih =>
    unfold Hld.climbLoop
    simp only [h.n_eq, h.head.readCell, h.pos.readCell, h.readKth, ih]

theorem oldLoop (h : SameState s s') (k : ℕ) (u v res : ℤ) : oldLoop s' k u v res = oldLoop s k u v res := by
  induction k generalizing u v res with
  | zero => rfl
  | succ k ih =>
    unfold Hld.oldLoop
    simp only [h.n_eq, h.head.readCell, h.depth.readCell, h.pos.readCell, h.st_eq, h.readKth, ih]

/-- **The same results.** -/
theorem queryPath (h : SameState s s') (k : ℕ) (u v : ℤ) : queryPath k s' u v = queryPath k s u v := by
  unfold Hld.queryPath
  simp only [h.n_eq, h.lca, h.climbLoop, h.pos.readCell, h.values_eq, h.st_eq]

theorem queryPathOld (h : SameState s s') (k : ℕ) (u v : ℤ) : queryPathOld k s' u v = queryPathOld k s u v := by
  unfold Hld.queryPathOld
  simp only [h.n_eq, h.oldLoop, h.depth.readCell, h.pos.readCell, h.st_eq]

end SameState

/-! ## What preprocessing leaves -/

/-- the states after `preprocess` with the values `vals`, from zero root cells -/
structure Settled (A : AdjTree n) (vals : ℤ → ℤ) (s : Hld) : Prop where
  n_eq : s.n = n
  logN_eq : s.logN = Nat.log 2 n
  adj_eq : s.adj = A.adj
  values_eq : s.values = vals
  curPos_eq : s.curPos = n
  zeroRow : s.ZeroRow
  depth_zero : s.depth 0 = 0
  finished : ∀ w, Finished A s w
  placed : ∀ w, Placed A s w
  built : ∃ d, Scattered A vals d ∧ Returns (fun k => SegmentTree.new k d) s.st

/-- what holds at the nodes holds at the cells -/
theorem sameCells_of_nodes {α : Type} {a a' : ℤ → α} (h : ∀ w : Fin n, a' w = a w) : SameCells n a a' := by
  intro x h0 h1
  obtain ⟨w, rfl⟩ := exists_node h0 h1
  exact h w

/-- **One state.** -/
theorem Settled.sameState (h : Settled A vals s) (h' : Settled A vals s') : SameState s s' := by
  have hn := h.n_eq
  have hst : s'.st = s.st := by
    obtain ⟨d, hd, hst⟩ := h.built
    obtain ⟨d', hd', hst'⟩ := h'.built
    obtain rfl := hd.unique hd'
    exact hst'.unique hst
  refine ⟨h'.n_eq.trans hn.symm, h'.logN_eq.trans h.logN_eq.symm, h'.adj_eq.trans h.adj_eq.symm,
    h'.values_eq.trans h.values_eq.symm, hst, h'.curPos_eq.trans h.curPos_eq.symm, ?_, ?_, ?_, ?_, ?_, ?_⟩
  · rw [hn]
    exact sameCells_of_nodes fun w => by rw [(h'.finished w).heavy, (h.finished w).heavy]
  · rw [hn]
    exact sameCells_of_nodes fun w => by rw [(h'.placed w).head, (h.placed w).head]
  · rw [hn]
    exact sameCells_of_nodes fun w => by rw [(h'.placed w).pos, (h.placed w).pos]
  · rw [hn]
    exact sameCells_of_nodes fun w => by
      rw [(h'.finished w).depth, (h.finished w).depth, h'.depth_zero, h.depth_zero]
  · rw [hn]
    exact sameCells_of_nodes fun w => by rw [(h'.finished w).sizes, (h.finished w).sizes]
  · -- the rows, column by column
    intro x h0 h1 i hi0 hi1
    obtain ⟨w, rfl⟩ := exists_node h0 (hn ▸ h1)
    obtain ⟨j, rfl⟩ := Int.eq_ofNat_of_zero_le hi0
    have hj : j < s.logN := by omega
    have hj' : j < s'.logN := by rw [h'.logN_eq, ← h.logN_eq]; exact hj
    rw [(h'.finished w).row j hj' (Or.inr h'.zeroRow), (h.finished w).row j hj (Or.inr h.zeroRow)]

/-- **Preprocessing over any contents** with zero root cells. -/
theorem preprocess_settled (h : (A.load vals mem).RootZero) :
    ∃ s, Returns (fun k => preprocess k n (A.load vals mem)) s ∧ Settled A vals s := by
  have he : Entered A (A.load vals mem) {A.root} A.root := entered_load (closed_root h.kth) rfl
  obtain ⟨s, hs, hn, hlog, hadj, hvals, hkth, hdepth, hfin, hplaced, hcur⟩ :=
    decomposeRoot_spec he (root_not_nbr h.kth)
  have hvals : s.values = vals := hvals
  obtain ⟨d, st, hd, hst, hbuild⟩ := parBuildSt_spec hn hplaced
  rw [hvals] at hd
  have hrun := (hs.bind (hbuild _ (List.Perm.refl _))).congr fun k => preprocess_eq k n (A.load vals mem)
  refine ⟨{ s with st := st }, hrun, hn, hlog, hadj, hvals, hcur, ?_, hdepth.trans h.depth, ?_, ?_, d, hd, hst⟩
  · intro i hi
    have hi : i < (A.load vals mem).logN := hlog ▸ hi
    have hrow : s.kth 0 i = 0 := by rw [hkth, h.kth i hi]
    exact hrow
  · exact fun w => ⟨(hfin w).sizes, (hfin w).heavy, (hfin w).row, (hfin w).depth⟩
  · exact fun w => ⟨(hplaced w).head, (hplaced w).pos⟩

/-- a settled state is an input again, with its contents as the old ones -/
theorem Settled.load (h : Settled A vals s) : A.load vals s = s := by
  rw [AdjTree.load, allocAll, ← h.adj_eq, ← h.values_eq, ← h.logN_eq]
  have hn := h.n_eq
  subst hn
  rfl

theorem Settled.rootZero (h : Settled A vals s) : (A.load vals s).RootZero := by
  rw [h.load]
  exact ⟨h.zeroRow, h.depth_zero⟩

/-- and preprocessing it settles it once more -/
theorem Settled.preprocess (h : Settled A vals s) :
    ∃ s', Returns (fun k => preprocess k n s) s' ∧ Settled A vals s' := by
  have hrun := preprocess_settled h.rootZero
  rwa [h.load] at hrun

/-! ## Rounds -/

/-- the loop of `main` over its rounds of preprocessing -/
def preprocessRounds (k n : ℕ) : ℕ → Hld → Exec Hld
  | 0, s => .ok s
  | m + 1, s => do
    let s ← preprocess k n s
    preprocessRounds k n m s

/-- any number of rounds leaves a settled state settled -/
theorem Settled.rounds (h : Settled A vals s) (m : ℕ) :
    ∃ s', Returns (fun k => preprocessRounds k n m s) s' ∧ Settled A vals s' := by
  induction m generalizing s with
  | zero => exact ⟨s, Returns.of_forall fun _ => rfl, h⟩
  | succ m ih =>
    obtain ⟨s₁, hs₁, h₁⟩ := h.preprocess
    obtain ⟨s₂, hs₂, h₂⟩ := ih h₁
    exact ⟨s₂, hs₁.bind hs₂, h₂⟩

/-- **Old contents and rounds.** From two memories with zero root cells and any other contents, `preprocess` leaves the
same state; and after more rounds the state and the result of every query are those of the first round. -/
theorem preprocess_rounds (A : AdjTree n) (vals : ℤ → ℤ) (mem mem' : Hld) (h : (A.load vals mem).RootZero)
    (h' : (A.load vals mem').RootZero) :
    ∃ s s', Returns (fun k => preprocess k n (A.load vals mem)) s ∧
      Returns (fun k => preprocess k n (A.load vals mem')) s' ∧ SameState s s' ∧
      ∀ m, ∃ t, Returns (fun k => preprocessRounds k n (m + 1) (A.load vals mem)) t ∧ SameState s t ∧
        ∀ (k : ℕ) (u v : ℤ), lca t u v = lca s u v ∧ queryPath k t u v = queryPath k s u v ∧
          queryPathOld k t u v = queryPathOld k s u v := by
  obtain ⟨s, hs, hset⟩ := preprocess_settled h
  obtain ⟨s', hs', hset'⟩ := preprocess_settled h'
  refine ⟨s, s', hs, hs', hset.sameState hset', fun m => ?_⟩
  obtain ⟨t, ht, hset₁⟩ := hset.rounds m
  have hsame : SameState s t := hset.sameState hset₁
  exact ⟨t, hs.bind ht, hsame, fun k u v => ⟨hsame.lca u v, hsame.queryPath k u v, hsame.queryPathOld k u v⟩⟩

/-- memory with zero root cells and old contents everywhere else -/
def oldMemory : Hld := { AdjTree.zeroMemory with
  heavy := fun _ => 3, head := fun _ => 9, pos := fun _ => -4, sizes := fun x => x, curPos := 5
  depth := fun x => if x = 0 then 0 else 8, kth := fun x i => if x = 0 then 0 else x + i }

/-- the five rounds of `main` over old contents, and one round over zeros -/
theorem preprocess_rounds_longPath :
    (longPath.load (fun x => x) oldMemory).RootZero ∧
      ∃ s s' t, Returns (fun k => preprocess k 7 (longPath.load (fun x => x) oldMemory)) s ∧
        Returns (fun k => preprocess k 7 (longPath.load (fun x => x) AdjTree.zeroMemory)) s' ∧ SameState s s' ∧
        Returns (fun k => preprocessRounds k 7 5 (longPath.load (fun x => x) oldMemory)) t ∧ SameState s t := by
  have h : (longPath.load (fun x => x) oldMemory).RootZero := ⟨fun _ _ => rfl, rfl⟩
  have h' : (longPath.load (fun x => x) AdjTree.zeroMemory).RootZero := longPath.rootZero_zeroMemory _
  obtain ⟨s, s', hs, hs', hsame, hrounds⟩ := preprocess_rounds longPath (fun x => x) _ _ h h'
  obtain ⟨t, ht, hst, -⟩ := hrounds 4
  exact ⟨h, s, s', t, hs, hs', hsame, ht, hst⟩

end Hld

end HeavyLight
