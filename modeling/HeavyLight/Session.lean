/-
Sessions: preprocessing and then any calls of the interface with nodes as arguments.

- `Call n`: a call of `update_node`, `lca`, `query_path` or `query_path_old`. `Call.run` is the program's; `Call.runIn`
  is the same with a check of every position passed to the segment tree. Accesses to arrays are checked in both.
- `Call.answer`, `Call.after`: the abstract meaning of a call, over the current values of the nodes.
- `runIn_spec`: one call from a state `Ready A cur s` gives its answer and leads to a state of this kind.
- `session_spec`: so does any list of calls. `session_safe`: every session returns, with all checks in place.
-/
import HeavyLight.QueryPath

namespace HeavyLight

open ParentTree

/-- a call of the interface after preprocessing -/
inductive Call (n : ℕ) where
  | updateNode (w : Fin n) (val : ℤ)
  | lca (u v : Fin n)
  | queryPath (u v : Fin n)
  | queryPathOld (u v : Fin n)

namespace Hld

variable {n : ℕ} {A : AdjTree n} {s : Hld} {vals : ℤ → ℤ} {mem : Hld} {cur : Fin n → ℤ}

/-! ## Checked positions -/

/-- `st->query`, with a fault at positions outside `[0, n)` -/
def queryIn (s : Hld) (k : ℕ) (l r : ℤ) : Exec ℤ :=
  if (0 ≤ l ∧ l < s.n) ∧ 0 ≤ r ∧ r < s.n then s.st.query k l r else .error .outOfBounds

/-- `update_node`, with a fault when it passes a position outside `[0, n)` to `st->update` -/
def updateNodeIn (k : ℕ) (s : Hld) (u val : ℤ) : Exec Hld := do
  let p ← readCell s.n s.pos u
  if 0 ≤ p ∧ p < s.n then
    let st ← s.st.update k p val
    return { s with st := st }
  else .error .outOfBounds

theorem queryIn_covers (s : Hld) (k : ℕ) (l r : ℤ) : Covers (s.st.query k l r) (queryIn s k l r) := by
  unfold queryIn
  split_ifs
  · exact Covers.refl _
  · exact Covers.error _ _

theorem updateNodeIn_covers (k : ℕ) (s : Hld) (u val : ℤ) : Covers (updateNode k s u val) (updateNodeIn k s u val) := by
  unfold updateNode updateNodeIn
  refine (Covers.refl _).bind fun p => ?_
  split_ifs
  · exact Covers.refl _
  · exact Covers.error _ _

/-! ## Queries that cover others -/

section Covers

variable {ask ask' : ℕ → ℤ → ℤ → Exec ℤ}

theorem climbLoop_covers (hask : ∀ k l r, Covers (ask' k l r) (ask k l r)) (x : ℤ) (k : ℕ) :
    ∀ u res : ℤ, Covers (climbLoop s ask' x k u res) (climbLoop s ask x k u res) := by
  induction k with
  | zero => exact fun u res => Covers.refl _
  | succ k ih =>
    intro u res
    rw [climbLoop, climbLoop]
    refine (Covers.refl _).bind fun hu => (Covers.refl _).bind fun hl => Covers.ite ?_ (Covers.refl _)
    refine (Covers.refl _).bind fun pu => (Covers.refl _).bind fun ph => (hask _ _ _).bind fun q => ?_
    exact (Covers.refl _).bind fun p => ih p _

theorem oldLoop_covers (hask : ∀ k l r, Covers (ask' k l r) (ask k l r)) (k : ℕ) :
    ∀ u v res : ℤ, Covers (oldLoopWith s ask' k u v res) (oldLoopWith s ask k u v res) := by
  induction k with
  | zero => exact fun u v res => Covers.refl _
  | succ k ih =>
    intro u v res
    rw [oldLoopWith, oldLoopWith]
    refine (Covers.refl _).bind fun hu => (Covers.refl _).bind fun hv => Covers.ite ?_ (Covers.refl _)
    refine (Covers.refl _).bind fun du => (Covers.refl _).bind fun dv => ?_
    refine (Covers.refl _).bind fun h => (Covers.refl _).bind fun ph => (Covers.refl _).bind fun pu => ?_
    exact (hask _ _ _).bind fun q => (Covers.refl _).bind fun p => ih p _ _

theorem queryPathOld_covers (hask : ∀ k l r, Covers (ask' k l r) (ask k l r)) (k : ℕ) (u v : ℤ) :
    Covers (queryPathOldWith ask' k s u v) (queryPathOldWith ask k s u v) := by
  unfold queryPathOldWith
  refine (oldLoop_covers hask k u v 0).bind fun r => (Covers.refl _).bind fun du => (Covers.refl _).bind fun dv => ?_
  refine (Covers.refl _).bind fun pu => (Covers.refl _).bind fun pv => ?_
  exact (hask _ _ _).bind fun q => Covers.refl _

theorem queryPath_covers (hask : ∀ k l r, Covers (ask' k l r) (ask k l r)) (k : ℕ) (u v : ℤ) :
    Covers (queryPathWith ask' k s u v) (queryPathWith ask k s u v) := by
  unfold queryPathWith
  refine (Covers.refl _).bind fun x => ?_
  refine (climbLoop_covers hask x k _ 0).bind fun r => (Covers.refl _).bind fun pu => (Covers.refl _).bind fun pl => ?_
  refine (hask _ _ _).bind fun q => (climbLoop_covers (fun k l r => hask k r l) x k _ _).bind fun r => ?_
  exact (Covers.refl _).bind fun pv => (hask _ _ _).bind fun q => Covers.refl _

end Covers

end Hld

/-! ## Calls -/

namespace Call

open Hld

variable {n : ℕ} {A : AdjTree n} {s : Hld} {cur : Fin n → ℤ}

/-- a call: the state after it, and its result if it has one -/
def run (k : ℕ) (s : Hld) : Call n → Exec (Hld × Option ℤ)
  | updateNode w val => do
    let s ← Hld.updateNode k s w val
    return (s, none)
  | lca u v => do
    let x ← Hld.lca s u v
    return (s, some x)
  | queryPath u v => do
    let x ← Hld.queryPath k s u v
    return (s, some x)
  | queryPathOld u v => do
    let x ← Hld.queryPathOld k s u v
    return (s, some x)

/-- a call in which the positions passed to the segment tree are checked -/
def runIn (k : ℕ) (s : Hld) : Call n → Exec (Hld × Option ℤ)
  | updateNode w val => do
    let s ← updateNodeIn k s w val
    return (s, none)
  | lca u v => do
    let x ← Hld.lca s u v
    return (s, some x)
  | queryPath u v => do
    let x ← queryPathWith (queryIn s) k s u v
    return (s, some x)
  | queryPathOld u v => do
    let x ← queryPathOldWith (queryIn s) k s u v
    return (s, some x)

/-- the current values after a call -/
def after (cur : Fin n → ℤ) : Call n → Fin n → ℤ
  | updateNode w val => Function.update cur w val
  | _ => cur

/-- the result of a call when `vals` are the original values and `cur` the current ones -/
noncomputable def answer (A : AdjTree n) (vals cur : Fin n → ℤ) : Call n → Option ℤ
  | updateNode _ _ => none
  | lca u v => some (A.rooted.pivot (Nat.log 2 n) u v : ℕ)
  | queryPath u v => some (∑ i ∈ A.rooted.path u v, cur i +
      (cur (A.rooted.pivot (Nat.log 2 n) u v) - vals (A.rooted.pivot (Nat.log 2 n) u v)))
  | queryPathOld u v => some (∑ i ∈ A.rooted.path u v, cur i)

/-- a checked call that returns is a call of the program -/
theorem run_covers (k : ℕ) (s : Hld) (c : Call n) : Covers (c.run k s) (c.runIn k s) := by
  cases c with
  | updateNode w val => exact (updateNodeIn_covers k s w val).bind fun _ => Covers.refl _
  | lca u v => exact Covers.refl _
  | queryPath u v =>
    rw [run, Hld.queryPath_eq]
    exact (queryPath_covers (queryIn_covers s) k u v).bind fun _ => Covers.refl _
  | queryPathOld u v =>
    rw [run, Hld.queryPathOld_eq]
    exact (queryPathOld_covers (queryIn_covers s) k u v).bind fun _ => Covers.refl _

end Call

namespace Hld

variable {n : ℕ} {A : AdjTree n} {s : Hld} {vals : ℤ → ℤ} {mem : Hld} {cur : Fin n → ℤ}

/-- the positions of the nodes pass the check -/
theorem Ready.pos_range (h : Ready A cur s) (w : Fin n) :
    0 ≤ ((A.rooted.pos w : ℕ) : ℤ) ∧ ((A.rooted.pos w : ℕ) : ℤ) < s.n := by
  have hw := pos_lt_n A w
  have hn := h.n_eq
  omega

theorem Ready.answersIn (h : Ready A cur s) : AnswersChains A cur (queryIn s) := by
  intro u v hh
  refine (query_chain h hh).congr fun k => ?_
  rw [queryIn, if_pos ⟨h.pos_range u, h.pos_range v⟩]

theorem updateNodeIn_ready (h : Ready A cur s) (w : Fin n) (val : ℤ) :
    ∃ st, Returns (fun k => updateNodeIn k s w val) { s with st := st } ∧
      Ready A (Function.update cur w val) { s with st := st } := by
  obtain ⟨st, hst, hr⟩ := updateNode_ready h w val
  refine ⟨st, hst.congr fun k => ?_, hr⟩
  unfold updateNodeIn updateNode
  rw [readCell_node h.n_eq w, ok_bind, ok_bind, (h.placed w).pos, if_pos (h.pos_range w)]

/-- **One call.** It returns with its answer, with every check in place, and the state stays ready. -/
theorem runIn_spec (h : Ready A cur s) (c : Call n) :
    ∃ s', Returns (fun k => c.runIn k s) (s', c.answer A (fun w => s.values w) cur) ∧ Ready A (c.after cur) s' ∧
      s'.values = s.values := by
  cases c with
  | updateNode w val =>
    obtain ⟨st, hst, hr⟩ := updateNodeIn_ready h w val
    exact ⟨_, hst.map (g := fun s => (s, none)), hr, rfl⟩
  | lca u v =>
    refine ⟨s, Returns.of_forall fun k => ?_, h, rfl⟩
    rw [Call.runIn, h.laid.lca_eq u v, h.logN_eq]
    rfl
  | queryPath u v =>
    have hq := queryPathWith_spec h.laid h.answersIn u v
    rw [h.logN_eq] at hq
    exact ⟨s, hq.map (g := fun x => (s, some x)), h, rfl⟩
  | queryPathOld u v =>
    have hq := queryPathOldWith_spec h.laid h.answersIn u v
    exact ⟨s, hq.map (g := fun x => (s, some x)), h, rfl⟩

/-! ## Sessions -/

/-- the calls `cs` in order: the state after them, and their results -/
def session (run : ℕ → Hld → Call n → Exec (Hld × Option ℤ)) (k : ℕ) : List (Call n) → Hld → Exec (Hld × List ℤ)
  | [], s => .ok (s, [])
  | c :: cs, s => do
    let (s, x) ← run k s c
    let (s, xs) ← session run k cs s
    return (s, x.toList ++ xs)

/-- the answers of the calls `cs` -/
noncomputable def answers (A : AdjTree n) (vals : Fin n → ℤ) : (Fin n → ℤ) → List (Call n) → List ℤ
  | _, [] => []
  | cur, c :: cs => (c.answer A vals cur).toList ++ answers A vals (c.after cur) cs

theorem session_covers (k : ℕ) (cs : List (Call n)) (s : Hld) :
    Covers (session (fun k s c => c.run k s) k cs s) (session (fun k s c => c.runIn k s) k cs s) := by
  induction cs generalizing s with
  | nil => exact Covers.refl _
  | cons c cs ih =>
    rw [session, session]
    exact (c.run_covers k s).bind fun r => (ih r.1).bind fun r' => Covers.refl _

/-- **A list of calls**, with every check in place. -/
theorem session_spec (cs : List (Call n)) (h : Ready A cur s) :
    ∃ s', Returns (fun k => session (fun k s c => c.runIn k s) k cs s)
      (s', answers A (fun w => s.values w) cur cs) ∧ Ready A (cs.foldl Call.after cur) s' := by
  induction cs generalizing s cur with
  | nil => exact ⟨s, Returns.of_forall fun _ => rfl, h⟩
  | cons c cs ih =>
    obtain ⟨s₁, hs₁, h₁, hv⟩ := runIn_spec h c
    obtain ⟨s₂, hs₂, h₂⟩ := ih h₁
    rw [hv] at hs₂
    exact ⟨s₂, hs₁.bind (hs₂.map (g := fun r => (r.1, (c.answer A (fun w => s.values w) cur).toList ++ r.2))), h₂⟩

/-- preprocessing, then the calls `cs` -/
def program (run : ℕ → Hld → Call n → Exec (Hld × Option ℤ)) (k : ℕ) (A : AdjTree n) (vals : ℤ → ℤ) (mem : Hld)
    (cs : List (Call n)) : Exec (Hld × List ℤ) := do
  let s ← preprocess k n (A.load vals mem)
  session run k cs s

/-- **Sessions are safe.** From zero root cells, preprocessing and any calls with nodes as arguments return, with every
access to an array and every position passed to the segment tree checked; without the checks on positions the results are
the same. -/
theorem session_safe (A : AdjTree n) (vals : ℤ → ℤ) (mem : Hld) (h : (A.load vals mem).RootZero) (cs : List (Call n)) :
    ∃ s, Returns (fun k => program (fun k s c => c.runIn k s) k A vals mem cs)
        (s, answers A (fun w => vals w) (fun w => vals w) cs) ∧
      Returns (fun k => program (fun k s c => c.run k s) k A vals mem cs)
        (s, answers A (fun w => vals w) (fun w => vals w) cs) := by
  obtain ⟨s₁, hs₁, hr, hv⟩ := preprocess_ready h
  obtain ⟨s₂, hs₂, -⟩ := session_spec cs hr
  rw [hv] at hs₂
  have hrun : Returns (fun k => program (fun k s c => c.runIn k s) k A vals mem cs)
      (s₂, answers A (fun w => vals w) (fun w => vals w) cs) := hs₁.bind hs₂
  exact ⟨s₂, hrun, hrun.covers fun k => (Covers.refl _).bind fun s => session_covers k cs s⟩

/-- on the long path with the numbers of the nodes as values: an update, both queries and `lca` -/
theorem session_safe_longPath :
    ∃ s, Returns (fun k => program (fun k s c => c.runIn k s) k longPath (fun i => i) AdjTree.zeroMemory
      [.updateNode 3 10, .queryPathOld 5 6, .queryPath 5 6, .lca 5 6]) (s, [28, 28, 1]) := by
  obtain ⟨s, hs, -⟩ := session_safe longPath _ _ (longPath.rootZero_zeroMemory fun i => i)
    [.updateNode 3 10, .queryPathOld 5 6, .queryPath 5 6, .lca 5 6]
  have hpivot : longPathTree.pivot (Nat.log 2 7) 5 6 = 1 := by decide
  have hsum : ∑ i ∈ longPathTree.path 5 6, Function.update (fun w : Fin 7 => ((w : ℕ) : ℤ)) 3 10 i = 28 := by
    decide +kernel
  simp only [answers, Call.answer, Call.after, rooted_longPath, hpivot, hsum] at hs
  exact ⟨s, hs⟩

end Hld

end HeavyLight
