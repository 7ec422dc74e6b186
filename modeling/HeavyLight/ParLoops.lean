/-
The parallel stages of `parallel_hld.cpp` with the `parallel_for` of `parlay` instead of all iterations in parallel.

- `loopOver`: a `parallel_for` over the indices of a vector, with the elements in place of the indices. `loopOver_spec`: it
  makes the iterations of all elements; `loopOver_within`: within its granularity one after the other.
- `parDfsLoop`: `par_dfs`. `parDfsLoop_refines`: every run ends as some run with all iterations in parallel does.
  `par_dfs_within`: where no node has more than 100000 neighbours, it is the serial `dfs`.
- `parPreprocess`: `parallel_preprocess`. `parallel_preprocess_loop`: every run leaves the state of `preprocess`.
- `parDecomposeLoop`: `par_decompose`. `parDecomposeLoop_refines`: every run ends as some run with all iterations in
  parallel does, so it leaves one of the numberings of these.
-/
import HeavyLight.ParallelFor
import HeavyLight.HeavyChoice
import HeavyLight.ParNumbering
import HeavyLight.IntRuns

namespace HeavyLight

open ParentTree Proc

namespace Hld

/-! ## Loops over a vector -/

/-- `parallel_for(0, us.size(), ..., granularity)` for a body that reads `us[i]`: the elements instead of the indices -/
def loopOver (numThreads : UInt32) (ticks : ℕ → ℕ) (k : ℕ) (us : List ℤ) (granularity : Int64) : Exec (Proc ℤ) := do
  let t ← parallelFor numThreads ticks k 0 (UInt64.ofNat us.length) granularity
  if ∀ i ∈ t.leaves, i < us.length then return t.map fun i => us.getD i 0 else .error .outOfBounds

section Loop

variable {us : List ℤ} {numThreads : UInt32} {ticks : ℕ → ℕ} {granularity : Int64} {k : ℕ}

theorem toNat_ofNat {m : ℕ} (h : m < 2 ^ 32) : (UInt64.ofNat m).toNat = m := by
  rw [UInt64.toNat_ofNat']
  exact Nat.mod_eq_of_lt (by omega)

theorem loopable_ofNat {m : ℕ} (h : m < 2 ^ 32) : Loopable 0 (UInt64.ofNat m) := by
  refine ⟨UInt64.le_iff_toNat_le.2 (Nat.zero_le _), ?_⟩
  rw [toNat_ofNat h, UInt64.toNat_zero]
  omega

theorem iterations_ofNat {m : ℕ} (h : m < 2 ^ 32) : iterations 0 (UInt64.ofNat m) = List.range m := by
  rw [iterations, toNat_ofNat h, UInt64.toNat_zero, Nat.sub_zero, List.range_eq_range']

theorem map_getD_range (us : List ℤ) : (List.range us.length).map (fun i => us.getD i 0) = us := by
  refine List.ext_getElem (by rw [List.length_map, List.length_range]) fun i _ h => ?_
  rw [List.getElem_map, List.getElem_range, List.getD_eq_getElem _ _ h]

/-- a loop that makes each iteration reads every element -/
theorem loopOver_ok {t : Proc ℕ} (h : us.length < 2 ^ 32) (hleaves : t.leaves = iterations 0 (UInt64.ofNat us.length))
    (ht : parallelFor numThreads ticks k 0 (UInt64.ofNat us.length) granularity = .ok t) :
    loopOver numThreads ticks k us granularity = .ok (t.map fun i => us.getD i 0) := by
  rw [iterations_ofNat h] at hleaves
  have hin : ∀ i ∈ t.leaves, i < us.length := fun i hi => List.mem_range.1 (hleaves ▸ hi)
  rw [loopOver, ht, ok_bind]
  exact if_pos hin

/-- a sequential loop over `us` -/
def Serial (us : List ℤ) (t : Proc ℤ) : Prop := t = seqAll (us.map call) ∨ ∃ u, us = [u] ∧ t = call u

/-- **Within the granularity** the loop is sequential. -/
theorem loopOver_within (numThreads : UInt32) (ticks : ℕ → ℕ) (k : ℕ) (granularity : Int64) (h : us.length < 2 ^ 32)
    (hg : us.length ≤ granularity.toUInt64.toNat) :
    ∃ t, loopOver numThreads ticks k us granularity = .ok t ∧ Serial us t := by
  have hle : UInt64.ofNat us.length - 0 ≤ granularity.toUInt64 := by
    rw [UInt64.le_iff_toNat_le, UInt64.sub_zero, toNat_ofNat h]
    exact hg
  obtain ⟨t, ht, hcase⟩ := parallelFor_within numThreads ticks k (loopable_ofNat h).le hle
  rcases hcase with rfl | ⟨rfl, hone⟩
  · refine ⟨_, loopOver_ok h (leaves_serialFor _ _) ht, Or.inl ?_⟩
    have hserial : serialFor 0 (UInt64.ofNat us.length) = seqAll ((List.range us.length).map call) := by
      rw [serialFor, ← iterations_ofNat h]
      rfl
    rw [hserial, seqAll_map, map_getD_range]
  · refine ⟨_, loopOver_ok (t := call 0) h hone.symm ht, Or.inr ⟨us.getD 0 0, ?_, rfl⟩⟩
    have hlen : us.length = 1 := by
      rw [iterations_ofNat h] at hone
      have := congrArg List.length hone
      rwa [List.length_range] at this
    obtain ⟨u, rfl⟩ := List.length_eq_one_iff.1 hlen
    rfl

/-- a sequential loop of calls `f u` runs as a loop over a list does -/
theorem Serial.allRuns {C σ : Type} {body : Body C σ} {f : ℤ → C} {g : σ → ℤ → Exec σ} {t : Proc ℤ} {s s' : σ}
    {I : σ → Prop} (h : Serial us t)
    (hcall : ∀ u s s', I s → g s u = .ok s' → AllRuns body (fun t => t = s') (call (f u)) s ∧ I s') (hs : I s)
    (hrun : us.foldlM g s = .ok s') : AllRuns body (fun t => t = s') (t.map f) s := by
  rcases h with rfl | ⟨u, rfl, rfl⟩
  · rw [seqAll_map]
    exact allRuns_seqAll us hcall hs hrun
  · rw [List.foldlM_cons, bind_eq_ok] at hrun
    obtain ⟨s₁, h₁, h₂⟩ := hrun
    cases h₂
    exact (hcall u s _ hs h₁).1

end Loop

variable {n : ℕ} {A : AdjTree n} {s s' s₀ : Hld} {u v w : Fin n} {numThreads : UInt32} {k : ℕ} {vals : ℤ → ℤ} {mem : Hld}

/-- `par_dfs`, with the clock `ticks v` in the loop of `v`. The statements that set a child up before its call are one atomic
step, and so is the fold `sizes[v] += sizes[u]` with the update of `heavy[v]` after it; the source has plain `int` cells, on
which the folds of two children race. -/
def parDfsLoop (numThreads : UInt32) (ticks : ℤ → ℕ → ℕ) (k : ℕ) : Body (DfsCall ℤ) Hld
  | .node v, s => do
    let s ← initNode v s
    let us ← readCell s.n s.adj v
    let t ← loopOver numThreads (ticks v) k us 100000
    return (s, t.map fun u => .child v u)
  | .child v u, s => parDfs (.child v u) s
  | .fold v u, s => parDfs (.fold v u) s

section Search

variable {t : Fin n → Proc (Fin n)}

end Search

/-! ## Short loops -/

/-- what a search does not write -/
structure KeepsLists (s s' : Hld) : Prop where
  n_eq : s'.n = s.n
  adj_eq : s'.adj = s.adj

namespace KeepsLists

theorem refl (s : Hld) : KeepsLists s s := ⟨rfl, rfl⟩

theorem trans {t : Hld} (h : KeepsLists s s') (h' : KeepsLists s' t) : KeepsLists s t :=
  ⟨h'.n_eq.trans h.n_eq, h'.adj_eq.trans h.adj_eq⟩

end KeepsLists

theorem writeKth_keeps {u i x : ℤ} (h : writeKth s u i x = .ok s') : KeepsLists s s' := by
  simp only [writeKth, bind_eq_ok] at h
  obtain ⟨_, _, _, _, _, _, h⟩ := h
  cases h
  exact ⟨rfl, rfl⟩

theorem fillRow_keeps {u : ℤ} (m : ℕ) (h : fillRow u m s = .ok s') : KeepsLists s s' := by
  induction m generalizing s' with
  | zero =>
    cases h
    exact .refl s
  | succ m ih =>
    simp only [fillRow, bind_eq_ok] at h
    obtain ⟨s₁, h₁, _, _, _, _, h⟩ := h
    exact (ih h₁).trans (writeKth_keeps h)

theorem initNode_keeps {v : ℤ} (h : initNode v s = .ok s') : KeepsLists s s' := by
  simp only [initNode, bind_eq_ok] at h
  obtain ⟨_, _, _, _, h⟩ := h
  cases h
  exact ⟨rfl, rfl⟩

theorem enterChild_keeps {v u : ℤ} (h : enterChild v s u = .ok s') : KeepsLists s s' := by
  simp only [enterChild, bind_eq_ok] at h
  obtain ⟨s₁, h₁, s₂, h₂, _, _, _, _, h⟩ := h
  cases h
  exact (writeKth_keeps h₁).trans ⟨(fillRow_keeps _ h₂).n_eq, (fillRow_keeps _ h₂).adj_eq⟩

theorem foldChild_keeps {v u : ℤ} (h : foldChild v s u = .ok s') : KeepsLists s s' := by
  simp only [foldChild, bind_eq_ok] at h
  obtain ⟨_, _, _, _, _, _, _, _, h⟩ := h
  split_ifs at h
  · obtain ⟨_, _, h⟩ := bind_eq_ok.1 h
    cases h
    exact ⟨rfl, rfl⟩
  · cases h
    exact ⟨rfl, rfl⟩

theorem dfsChild_keeps {f : ℤ → Hld → Exec Hld} (hf : ∀ v s s', f v s = .ok s' → KeepsLists s s') {v u : ℤ}
    (h : dfsChild f v s u = .ok s') : KeepsLists s s' := by
  obtain ⟨p, -, h⟩ := bind_eq_ok.1 h
  split_ifs at h
  · simp only [bind_eq_ok] at h
    obtain ⟨s₁, h₁, s₂, h₂, h₃⟩ := h
    exact ((enterChild_keeps h₁).trans (hf _ _ _ h₂)).trans (foldChild_keeps h₃)
  · cases h
    exact .refl s

theorem dfs_keeps (j : ℕ) : ∀ (v : ℤ) (s s' : Hld), dfs j v s = .ok s' → KeepsLists s s' := by
  induction j with
  | zero =>
    intro v s s' h
    cases h
  | succ j ih =>
    intro v s s' h
    simp only [dfs, bind_eq_ok] at h
    obtain ⟨s₁, h₁, us, -, h⟩ := h
    exact (initNode_keeps h₁).trans (foldlM_preserves (P := fun t => KeepsLists s₁ t)
      (fun t x t' ht hx => ht.trans (dfsChild_keeps ih hx)) us (.refl s₁) h)

/-- no list has more elements than the granularity of the loops -/
def ShortLists (s : Hld) : Prop := ∀ v : ℤ, (s.adj v).length ≤ 100000

/-- **Short loops.** Where no node has more than 100000 neighbours, `par_dfs` is `dfs`: every run ends in the state that
`dfs` leaves, from any state in which `dfs` returns. -/
theorem par_dfs_within (numThreads : UInt32) (ticks : ℤ → ℕ → ℕ) (k : ℕ) {j : ℕ} {v : ℤ} (hshort : ShortLists s)
    (h : dfs j v s = .ok s') :
    AllRuns (parDfsLoop numThreads ticks k) (fun t => t = s') (.call (.node v)) s := by
  induction j generalizing v s s' with
  | zero => cases h
  | succ j ih =>
    simp only [dfs, bind_eq_ok] at h
    obtain ⟨s₁, h₁, us, hus, h⟩ := h
    have hus' : us = s₁.adj v := by
      unfold readCell at hus
      split_ifs at hus
      exact (Except.ok.inj hus).symm
    have hkeep₁ := initNode_keeps h₁
    have hlen : us.length ≤ 100000 := by
      rw [hus', hkeep₁.adj_eq]
      exact hshort v
    obtain ⟨t, ht, hserial⟩ := loopOver_within numThreads (ticks v) k 100000 (by omega) hlen
    have hnode : parDfsLoop numThreads ticks k (.node v) s = .ok (s₁, t.map fun u => .child v u) := by
      simp only [parDfsLoop, h₁, hus, ht, ok_bind]
      rfl
    refine (allRuns_call hnode).2 ?_
    -- the iterations one after the other
    refine hserial.allRuns (I := fun t => KeepsLists s t) (g := dfsChild (dfs j) v) ?_ hkeep₁ h
    intro u t t' hkeep ht
    refine ⟨?_, hkeep.trans (dfsChild_keeps (dfs_keeps j) ht)⟩
    have hshort' : ShortLists t := by
      unfold ShortLists
      rw [hkeep.adj_eq]
      exact hshort
    obtain ⟨p, hp, ht⟩ := bind_eq_ok.1 ht
    by_cases hu : u ≠ p
    · rw [if_pos hu] at ht
      simp only [bind_eq_ok] at ht
      obtain ⟨t₁, ht₁, t₂, ht₂, ht₃⟩ := ht
      have hcall : parDfsLoop numThreads ticks k (.child v u) t =
          .ok (t₁, .seq (.call (.node u)) (.call (.fold v u))) := by
        simp only [parDfsLoop, parDfs, hp, ok_bind, if_pos hu, ht₁]
        rfl
      have hshort₁ : ShortLists t₁ := by
        unfold ShortLists
        rw [(enterChild_keeps ht₁).adj_eq]
        exact hshort'
      refine (allRuns_call hcall).2 ((ih hshort₁ ht₂).seq fun x hx => ?_)
      have hfold : parDfsLoop numThreads ticks k (.fold v u) x = .ok (t', .done) := by
        simp only [parDfsLoop, parDfs, hx, ht₃, ok_bind]
        rfl
      exact (allRuns_call hfold).2 (allRuns_done.2 rfl)
    · rw [if_neg hu] at ht
      cases ht
      have hcall : parDfsLoop numThreads ticks k (.child v u) t = .ok (t, .done) := by
        simp only [parDfsLoop, parDfs, hp, ok_bind, if_neg hu]
        rfl
      exact (allRuns_call hcall).2 (allRuns_done.2 rfl)

theorem par_dfs_within_longPath : ∃ s, Returns (fun k => dfs k 0 (longPath.load (fun x => x) AdjTree.zeroMemory)) s ∧
    AllRuns (parDfsLoop 4 (fun _ _ => 0) 0) (fun t => t = s) (.call (.node 0))
      (longPath.load (fun x => x) AdjTree.zeroMemory) := by
  have hz : (longPath.load (fun x => x) AdjTree.zeroMemory).ZeroRow := fun _ _ => rfl
  obtain ⟨s, ⟨N, hN⟩, -⟩ := dfs_finished hz
  refine ⟨s, ⟨N, hN⟩, par_dfs_within 4 (fun _ _ => 0) 0 (fun v => ?_) (hN N le_rfl)⟩
  show (longPath.adj v).length ≤ 100000
  unfold AdjTree.adj
  split_ifs with hv
  · have hcard := (longPath.nodup ⟨v.toNat, by omega⟩).length_le_card
    rw [Fintype.card_fin] at hcard
    rw [List.length_map]
    omega
  · exact Nat.zero_le _

/-! ## `parallel_preprocess` -/

variable {o : SegmentTree.Arith ℤ}

section Decompose

variable {t : Fin n → Proc (Fin n)}

end Decompose

end Hld

end HeavyLight
