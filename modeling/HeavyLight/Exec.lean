/-
Execution of C++ functions as pure functions: results that may be a fault, fuel for recursion and unbounded loops,
and arrays with checked access.

- `Exec α`: the result of a call, either a value or a `Fault`. An access outside an array is a fault, and so is a
  recursion or loop that uses up its fuel. `checkInt`, `checkedInt`: a value that does not fit in an `int` is a fault.
- `Returns f a`: for every large enough fuel `f` gives `a`. This is total correctness: the call terminates, without
  a fault, and its value is `a`. A call that faults or does not terminate returns nothing.
- `Covers y x`: what `x` returns, `y` returns; kept by binds, tests and loops over lists.
- `readCell`, `writeCell`: access to cell `i` of an array of `size` cells. The contents of an array are a function on
  all of `ℤ`, so what `malloc` leaves in it can be any function.
- `Vec`: a `std::vector`, its size and its cells.
-/
import Mathlib.Tactic

namespace HeavyLight

/-! ## Results -/

/-- what can go wrong in a call -/
inductive Fault where
  | outOfBounds
  | emptyQueue
  | intOverflow
  | divisionByZero
  | outOfFuel
deriving DecidableEq, Repr

abbrev Exec (α : Type) := Except Fault α

/-- total correctness of a call with fuel: it terminates without a fault and returns `a` -/
def Returns {α : Type} (f : ℕ → Exec α) (a : α) : Prop := ∃ N, ∀ k, N ≤ k → f k = .ok a

section Returns

variable {α β : Type} {f : ℕ → Exec α} {a b : α}

theorem Returns.of_forall (h : ∀ k, f k = .ok a) : Returns f a := ⟨0, fun k _ => h k⟩

theorem Returns.unique (ha : Returns f a) (hb : Returns f b) : a = b := by
  obtain ⟨N, hN⟩ := ha
  obtain ⟨M, hM⟩ := hb
  have h := (hN (max N M) (le_max_left _ _)).symm.trans (hM (max N M) (le_max_right _ _))
  exact Except.ok.inj h

/-- one unit of fuel spent on entering a call does not matter -/
theorem Returns.succ (h : Returns (fun k => f (k + 1)) a) : Returns f a := by
  obtain ⟨N, hN⟩ := h
  refine ⟨N + 1, fun k hk => ?_⟩
  obtain ⟨j, rfl⟩ : ∃ j, k = j + 1 := ⟨k - 1, by omega⟩
  exact hN j (by omega)

theorem Returns.bind {g : ℕ → α → Exec β} {c : β} (hf : Returns f a) (hg : Returns (fun k => g k a) c) :
    Returns (fun k => f k >>= g k) c := by
  obtain ⟨N, hN⟩ := hf
  obtain ⟨M, hM⟩ := hg
  refine ⟨max N M, fun k hk => ?_⟩
  show f k >>= g k = _
  rw [hN k (by omega)]
  exact hM k (by omega)

theorem Returns.map {g : α → β} (hf : Returns f a) : Returns (fun k => do return g (← f k)) (g a) :=
  Returns.bind (g := fun _ x => pure (g x)) hf (Returns.of_forall fun _ => rfl)

/-- a call that returns has returned from its first part -/
theorem Returns.of_bind {g : ℕ → α → Exec β} {c : β} (hf : Returns f a) (h : Returns (fun k => f k >>= g k) c) :
    Returns (fun k => g k a) c := by
  obtain ⟨N, hN⟩ := hf
  obtain ⟨M, hM⟩ := h
  refine ⟨max N M, fun k hk => ?_⟩
  have h : f k >>= g k = _ := hM k (by omega)
  rw [hN k (by omega)] at h
  exact h

theorem Returns.congr {g : ℕ → Exec α} (h : Returns f a) (hfg : ∀ k, g k = f k) : Returns g a := by
  rwa [show g = f from funext hfg]

/-- a loop over a list: one step for the first element, then the loop over the rest -/
theorem Returns.foldlM_cons {σ : Type} {body : ℕ → σ → β → Exec σ} {x : β} {xs : List β} {s s' s'' : σ}
    (hx : Returns (fun k => body k s x) s') (hxs : Returns (fun k => xs.foldlM (body k) s') s'') :
    Returns (fun k => (x :: xs).foldlM (body k) s) s'' := by
  simp only [List.foldlM_cons]
  exact hx.bind hxs

theorem Returns.foldlM_nil {σ : Type} {body : ℕ → σ → β → Exec σ} {s : σ} :
    Returns (fun k => ([] : List β).foldlM (body k) s) s :=
  Returns.of_forall fun _ => rfl

end Returns

@[simp] theorem ok_bind {α β : Type} (a : α) (g : α → Exec β) : ((Except.ok a : Exec α) >>= g) = g a := rfl

@[simp] theorem error_bind {α β : Type} (e : Fault) (g : α → Exec β) :
    ((Except.error e : Exec α) >>= g) = .error e := rfl

theorem bind_eq_ok {α β : Type} {x : Exec α} {g : α → Exec β} {b : β} :
    (x >>= g) = .ok b ↔ ∃ a, x = .ok a ∧ g a = .ok b := by
  cases x <;> simp

/-- a loop over a list keeps what its body keeps -/
theorem foldlM_preserves {σ β : Type} {P : σ → Prop} {body : σ → β → Exec σ}
    (hbody : ∀ s x s', P s → body s x = .ok s' → P s') (xs : List β) {s s' : σ} (h : P s)
    (hs' : xs.foldlM body s = .ok s') : P s' := by
  induction xs generalizing s with
  | nil =>
    cases hs'
    exact h
  | cons x xs ih =>
    rw [List.foldlM_cons, bind_eq_ok] at hs'
    obtain ⟨s₁, h₁, h₂⟩ := hs'
    exact ih (hbody s x s₁ h h₁) h₂

/-- what `x` returns, `y` returns -/
def Covers {α : Type} (y x : Exec α) : Prop := ∀ a, x = .ok a → y = .ok a

namespace Covers

variable {α β : Type} {x x' y y' : Exec α}

theorem refl (x : Exec α) : Covers x x := fun _ h => h

theorem error (x : Exec α) (e : Fault) : Covers x (.error e) := by
  intro a h
  cases h

theorem bind {f g : α → Exec β} (hx : Covers y x) (hf : ∀ a, Covers (g a) (f a)) : Covers (y >>= g) (x >>= f) := by
  intro b h
  rw [bind_eq_ok] at h ⊢
  obtain ⟨a, ha, hb⟩ := h
  exact ⟨a, hx a ha, hf a b hb⟩

theorem ite {p : Prop} [Decidable p] (hx : Covers x' x) (hy : Covers y' y) :
    Covers (if p then x' else y') (if p then x else y) := by
  split_ifs
  · exact hx
  · exact hy

theorem foldlM {σ : Type} {f g : σ → β → Exec σ} (hf : ∀ s x, Covers (g s x) (f s x)) (xs : List β) (s : σ) :
    Covers (xs.foldlM g s) (xs.foldlM f s) := by
  induction xs generalizing s with
  | nil => exact refl _
  | cons x xs ih =>
    rw [List.foldlM_cons, List.foldlM_cons]
    exact (hf s x).bind ih

end Covers

/-- a call that returns with some fuel, and with one unit more whenever it returns, returns with any fuel from there -/
theorem Returns.of_ok {α : Type} {f : ℕ → Exec α} (hmono : ∀ k, Covers (f (k + 1)) (f k)) {k : ℕ} {a : α}
    (h : f k = .ok a) : Returns f a := by
  refine ⟨k, fun j hj => ?_⟩
  induction j, hj using Nat.le_induction with
  | base => exact h
  | succ j _ ih => exact hmono j a ih

theorem Returns.covers {α : Type} {f g : ℕ → Exec α} {a : α} (h : Returns f a) (hfg : ∀ k, Covers (g k) (f k)) :
    Returns g a := by
  obtain ⟨N, hN⟩ := h
  exact ⟨N, fun k hk => hfg k a (hN k hk)⟩

/-- a value `x ≥ 0` computed as an `int` -/
def checkInt (x : ℕ) : Exec ℕ := if x < 2 ^ 31 then .ok x else .error .intOverflow

theorem checkInt_ok {x : ℕ} (h : x < 2 ^ 31) : checkInt x = .ok x := if_pos h

/-- a value computed as an `int` -/
def checkedInt (x : ℤ) : Exec ℤ := if -2 ^ 31 ≤ x ∧ x < 2 ^ 31 then .ok x else .error .intOverflow

theorem checkedInt_ok {x : ℤ} (h0 : -2 ^ 31 ≤ x) (h1 : x < 2 ^ 31) : checkedInt x = .ok x := if_pos ⟨h0, h1⟩

theorem checkedInt_eq_ok {x y : ℤ} (h : checkedInt x = .ok y) : y = x ∧ -2 ^ 31 ≤ x ∧ x < 2 ^ 31 := by
  unfold checkedInt at h
  split_ifs at h with hx
  exact ⟨(Except.ok.inj h).symm, hx⟩

/-! ## Arrays -/

/-- `a[i]` in an array of `size` cells -/
def readCell {α : Type} (size : ℕ) (a : ℤ → α) (i : ℤ) : Exec α :=
  if 0 ≤ i ∧ i < size then .ok (a i) else .error .outOfBounds

/-- `a[i] = x` in an array of `size` cells -/
def writeCell {α : Type} (size : ℕ) (a : ℤ → α) (i : ℤ) (x : α) : Exec (ℤ → α) :=
  if 0 ≤ i ∧ i < size then .ok (Function.update a i x) else .error .outOfBounds

section Cells

variable {α : Type} {size : ℕ} {a : ℤ → α} {i : ℤ} {x : α}

theorem readCell_ok (h0 : 0 ≤ i) (h1 : i < size) : readCell size a i = .ok (a i) := if_pos ⟨h0, h1⟩

theorem writeCell_ok (h0 : 0 ≤ i) (h1 : i < size) : writeCell size a i x = .ok (Function.update a i x) :=
  if_pos ⟨h0, h1⟩

end Cells

/-- a `std::vector`; the cells outside `[0, size)` are never reached -/
structure Vec (α : Type) where
  size : ℕ
  cell : ℤ → α

namespace Vec

variable {α : Type}

/-- a vector of `size` value-initialised cells, as the constructor and `resize` make it -/
def zeros [Zero α] (size : ℕ) : Vec α := ⟨size, fun _ => 0⟩

def get (v : Vec α) (i : ℤ) : Exec α := readCell v.size v.cell i

def set (v : Vec α) (i : ℤ) (x : α) : Exec (Vec α) := do
  let cell ← writeCell v.size v.cell i x
  return { v with cell := cell }

theorem get_ok {v : Vec α} {i : ℤ} (h0 : 0 ≤ i) (h1 : i < v.size) : v.get i = .ok (v.cell i) := readCell_ok h0 h1

theorem set_ok {v : Vec α} {i : ℤ} {x : α} (h0 : 0 ≤ i) (h1 : i < v.size) :
    v.set i x = .ok { v with cell := Function.update v.cell i x } := by
  simp only [set, writeCell_ok h0 h1, ok_bind]
  rfl

theorem cell_of_set {v v' : Vec α} {i : ℤ} {x : α} (h : v.set i x = .ok v') : v'.cell i = x := by
  unfold set writeCell at h
  split_ifs at h with hi
  · cases h
    exact Function.update_self _ _ _
  · cases h

end Vec

end HeavyLight
