/-
The segment tree of `serial_st.cpp`, over any type of cell with an addition. `int` cells are exact integers (`ℤ`) or
machine words, by the choice of the type.

- `new`, `build`, `query`, `update`: the methods, with the recursive ones under the names `build`, `queryFrom` and
  `updateFrom`. Each call takes fuel, which a recursion that does not end uses up.
- `Arith`: how the methods compute their `int` values, as checks that may stop a run. `newWith`, `queryWith` and
  `updateWith` are the methods over such arithmetic; over `Arith.exact` they are the methods themselves.
- `Arith.Sound.newWith_ok`: a check may stop a run, and does nothing else.
-/
import HeavyLight.Exec
import HeavyLight.HeapIntervals

namespace HeavyLight

open HeapIntervals

/-! ## Model -/

structure SegmentTree (α : Type) where
  n : ℤ
  tree : Vec α

namespace SegmentTree

section Model

variable {α : Type} [Add α]

/-- `SegmentTree::build`, on the `tree` vector of the object under construction -/
def build (arr : Vec α) : ℕ → ℤ → ℤ → ℤ → Vec α → Exec (Vec α)
  | 0, _, _, _, _ => .error .outOfFuel
  | k + 1, v, tl, tr, tree =>
    if tl = tr then do
      tree.set v (← arr.get tl)
    else do
      let tm := mid tl tr
      let tree ← build arr k (2 * v) tl tm tree
      let tree ← build arr k (2 * v + 1) (tm + 1) tr tree
      tree.set v ((← tree.get (2 * v)) + (← tree.get (2 * v + 1)))

/-- the constructor: `tree.resize(4 * n)`, then `build(arr, 1, 0, n - 1)` -/
def new [Zero α] (k : ℕ) (arr : Vec α) : Exec (SegmentTree α) := do
  let tree ← build arr k 1 0 (arr.size - 1) (Vec.zeros (4 * arr.size))
  return ⟨arr.size, tree⟩

/-- the recursive `SegmentTree::query` -/
def queryFrom [Zero α] (tree : Vec α) : ℕ → ℤ → ℤ → ℤ → ℤ → ℤ → Exec α
  | 0, _, _, _, _, _ => .error .outOfFuel
  | k + 1, v, tl, tr, l, r =>
    if l > r then .ok 0
    else if l = tl ∧ r = tr then tree.get v
    else do
      let tm := mid tl tr
      let a ← queryFrom tree k (2 * v) tl tm l (min r tm)
      let b ← queryFrom tree k (2 * v + 1) (tm + 1) tr (max l (tm + 1)) r
      return a + b

/-- the public `SegmentTree::query`: swaps reversed bounds -/
def query [Zero α] (k : ℕ) (st : SegmentTree α) (l r : ℤ) : Exec α :=
  if l > r then queryFrom st.tree k 1 0 (st.n - 1) r l else queryFrom st.tree k 1 0 (st.n - 1) l r

/-- the recursive `SegmentTree::update` -/
def updateFrom : ℕ → ℤ → ℤ → ℤ → ℤ → α → Vec α → Exec (Vec α)
  | 0, _, _, _, _, _, _ => .error .outOfFuel
  | k + 1, v, tl, tr, idx, val, tree =>
    if tl = tr then tree.set v val
    else do
      let tm := mid tl tr
      let tree ←
        if idx ≤ tm then updateFrom k (2 * v) tl tm idx val tree
        else updateFrom k (2 * v + 1) (tm + 1) tr idx val tree
      tree.set v ((← tree.get (2 * v)) + (← tree.get (2 * v + 1)))

/-- the public `SegmentTree::update` -/
def update (k : ℕ) (st : SegmentTree α) (idx : ℤ) (val : α) : Exec (SegmentTree α) := do
  let tree ← updateFrom k 1 0 (st.n - 1) idx val st.tree
  return { st with tree := tree }

end Model

/-! ## The methods over other arithmetic -/

/-- how the methods compute: the value of an index expression, the slot of an access to `tree`, the sum of two cells -/
structure Arith (α : Type) where
  index : ℤ → Exec ℤ
  slot : ℤ → Exec ℤ
  add : α → α → Exec α

/-- exact arithmetic -/
def Arith.exact {α : Type} [Add α] : Arith α := ⟨.ok, .ok, fun a b => .ok (a + b)⟩

section With

variable {α : Type} (o : Arith α)

/-- `(tl + tr) / 2` -/
def midWith (tl tr : ℤ) : Exec ℤ := do
  let sum ← o.index (tl + tr)
  return sum.tdiv 2

/-- `2 * v + 1` -/
def rightWith (v : ℤ) : Exec ℤ := do
  let l ← o.index (2 * v)
  o.index (l + 1)

/-- `tree[v] = tree[2 * v] + tree[2 * v + 1]` -/
def joinWith (v : ℤ) (tree : Vec α) : Exec (Vec α) := do
  let l ← o.index (2 * v)
  let a ← tree.get (← o.slot l)
  let r ← rightWith o v
  let b ← tree.get (← o.slot r)
  let x ← o.add a b
  tree.set (← o.slot v) x

/-- `build` -/
def buildWith (arr : Vec α) : ℕ → ℤ → ℤ → ℤ → Vec α → Exec (Vec α)
  | 0, _, _, _, _ => .error .outOfFuel
  | k + 1, v, tl, tr, tree =>
    if tl = tr then do
      tree.set (← o.slot v) (← arr.get tl)
    else do
      let tm ← midWith o tl tr
      let tree ← buildWith arr k (← o.index (2 * v)) tl tm tree
      let tree ← buildWith arr k (← rightWith o v) (← o.index (tm + 1)) tr tree
      joinWith o v tree

/-- the constructor -/
def newWith [Zero α] (k : ℕ) (arr : Vec α) : Exec (SegmentTree α) := do
  let n ← o.index arr.size
  let slots ← o.index (4 * n)
  let tree ← buildWith o arr k 1 0 (← o.index (n - 1)) (Vec.zeros slots.toNat)
  return ⟨n, tree⟩

/-- the recursive `query` -/
def queryFromWith [Zero α] (tree : Vec α) : ℕ → ℤ → ℤ → ℤ → ℤ → ℤ → Exec α
  | 0, _, _, _, _, _ => .error .outOfFuel
  | k + 1, v, tl, tr, l, r =>
    if l > r then .ok 0
    else if l = tl ∧ r = tr then do
      tree.get (← o.slot v)
    else do
      let tm ← midWith o tl tr
      let a ← queryFromWith tree k (← o.index (2 * v)) tl tm l (min r tm)
      let m ← o.index (tm + 1)
      let b ← queryFromWith tree k (← rightWith o v) m tr (max l m) r
      o.add a b

/-- the public `query` -/
def queryWith [Zero α] (k : ℕ) (st : SegmentTree α) (l r : ℤ) : Exec α := do
  let last ← o.index (st.n - 1)
  if l > r then queryFromWith o st.tree k 1 0 last r l else queryFromWith o st.tree k 1 0 last l r

/-- the recursive `update` -/
def updateFromWith : ℕ → ℤ → ℤ → ℤ → ℤ → α → Vec α → Exec (Vec α)
  | 0, _, _, _, _, _, _ => .error .outOfFuel
  | k + 1, v, tl, tr, idx, val, tree =>
    if tl = tr then do
      tree.set (← o.slot v) val
    else do
      let tm ← midWith o tl tr
      let tree ←
        if idx ≤ tm then do
          updateFromWith k (← o.index (2 * v)) tl tm idx val tree
        else do
          updateFromWith k (← rightWith o v) (← o.index (tm + 1)) tr idx val tree
      joinWith o v tree

/-- the public `update` -/
def updateWith (k : ℕ) (st : SegmentTree α) (idx : ℤ) (val : α) : Exec (SegmentTree α) := do
  let tree ← updateFromWith o k 1 0 (← o.index (st.n - 1)) idx val st.tree
  return { st with tree := tree }

end With

/-! ## Exact arithmetic -/

section Exact

variable {α : Type} [Add α]

theorem buildWith_exact (arr : Vec α) (k : ℕ) (v tl tr : ℤ) (tree : Vec α) :
    buildWith .exact arr k v tl tr tree = build arr k v tl tr tree := by
  induction k generalizing v tl tr tree with
  | zero => rfl
  | succ k ih =>
    unfold buildWith build
    split_ifs with h
    · rfl
    · simp only [midWith, rightWith, joinWith, Arith.exact, ok_bind, mid, ← ih]
      rfl

theorem newWith_exact [Zero α] (k : ℕ) (arr : Vec α) : newWith .exact k arr = new k arr := by
  have hsize : (4 * (arr.size : ℤ)).toNat = 4 * arr.size := by omega
  unfold newWith new
  simp only [Arith.exact, ok_bind, hsize]
  rw [← buildWith_exact]
  rfl

theorem queryFromWith_exact [Zero α] (tree : Vec α) (k : ℕ) (v tl tr l r : ℤ) :
    queryFromWith .exact tree k v tl tr l r = queryFrom tree k v tl tr l r := by
  induction k generalizing v tl tr l r with
  | zero => rfl
  | succ k ih =>
    unfold queryFromWith queryFrom
    split_ifs with h1 h2
    · rfl
    · rfl
    · simp only [midWith, rightWith, Arith.exact, ok_bind, mid, ← ih]
      rfl

theorem queryWith_exact [Zero α] (k : ℕ) (st : SegmentTree α) (l r : ℤ) :
    queryWith .exact k st l r = query k st l r := by
  unfold queryWith query
  simp only [← queryFromWith_exact]
  rfl

theorem updateFromWith_exact (k : ℕ) (v tl tr idx : ℤ) (val : α) (tree : Vec α) :
    updateFromWith .exact k v tl tr idx val tree = updateFrom k v tl tr idx val tree := by
  induction k generalizing v tl tr tree with
  | zero => rfl
  | succ k ih =>
    unfold updateFromWith updateFrom
    split_ifs with h
    · rfl
    · simp only [midWith, rightWith, joinWith, Arith.exact, ok_bind, mid, ← ih]
      rfl

theorem updateWith_exact (k : ℕ) (st : SegmentTree α) (idx : ℤ) (val : α) :
    updateWith .exact k st idx val = update k st idx val := by
  unfold updateWith update
  simp only [← updateFromWith_exact]
  rfl

end Exact

/-! ## Checks -/

section Sound

variable {α : Type} [Add α] {o : Arith α}

/-- what the arithmetic computes is right, when it computes anything -/
structure Arith.Sound (o : Arith α) : Prop where
  index : ∀ x y, o.index x = .ok y → y = x
  slot : ∀ x y, o.slot x = .ok y → y = x
  add : ∀ a b c, o.add a b = .ok c → c = a + b

theorem Arith.Sound.rightWith_ok (h : o.Sound) {v r : ℤ} (hr : rightWith o v = .ok r) : r = 2 * v + 1 := by
  unfold rightWith at hr
  rw [bind_eq_ok] at hr
  obtain ⟨l, hl, hr⟩ := hr
  rw [h.index _ _ hr, h.index _ _ hl]

theorem Arith.Sound.midWith_ok (h : o.Sound) {tl tr m : ℤ} (hm : midWith o tl tr = .ok m) : m = mid tl tr := by
  unfold midWith at hm
  rw [bind_eq_ok] at hm
  obtain ⟨sum, hsum, hm⟩ := hm
  cases hm
  rw [h.index _ _ hsum]
  rfl

theorem Arith.Sound.joinWith_ok (h : o.Sound) {v : ℤ} {tree tree' : Vec α} (hrun : joinWith o v tree = .ok tree') :
    (do tree.set v ((← tree.get (2 * v)) + (← tree.get (2 * v + 1)))) = .ok tree' := by
  unfold joinWith at hrun
  simp only [bind_eq_ok] at hrun ⊢
  obtain ⟨l, hl, l', hl', a, ha, r, hr, r', hr', b, hb, x, hx, w, hw, hset⟩ := hrun
  rw [h.slot _ _ hl', h.index _ _ hl] at ha
  rw [h.slot _ _ hr', h.rightWith_ok hr] at hb
  rw [h.slot _ _ hw, h.add _ _ _ hx] at hset
  exact ⟨a, ha, b, hb, hset⟩

/-- **A check may stop a run, and does nothing else.** -/
theorem Arith.Sound.buildWith_ok (h : o.Sound) {arr : Vec α} {k : ℕ} {v tl tr : ℤ} {tree tree' : Vec α}
    (hrun : buildWith o arr k v tl tr tree = .ok tree') : build arr k v tl tr tree = .ok tree' := by
  induction k generalizing v tl tr tree tree' with
  | zero => cases hrun
  | succ k ih =>
    unfold buildWith at hrun
    unfold build
    split_ifs at hrun ⊢ with htl
    · rw [bind_eq_ok] at hrun
      obtain ⟨w, hw, hrun⟩ := hrun
      rwa [h.slot _ _ hw] at hrun
    · simp only [bind_eq_ok] at hrun ⊢
      obtain ⟨tm, hm, l, hl, t₁, ht₁, r, hr, m, hm', t₂, ht₂, hjoin⟩ := hrun
      rw [h.index _ _ hl, h.midWith_ok hm] at ht₁
      rw [h.rightWith_ok hr, h.index _ _ hm', h.midWith_ok hm] at ht₂
      have := h.joinWith_ok hjoin
      simp only [bind_eq_ok] at this
      exact ⟨t₁, ih ht₁, t₂, ih ht₂, this⟩

theorem Arith.Sound.newWith_ok [Zero α] (h : o.Sound) {arr : Vec α} {k : ℕ} {st : SegmentTree α}
    (hrun : newWith o k arr = .ok st) : new k arr = .ok st := by
  have hsize : (4 * (arr.size : ℤ)).toNat = 4 * arr.size := by omega
  unfold newWith at hrun
  unfold new
  simp only [bind_eq_ok] at hrun ⊢
  obtain ⟨n, hn, m, hm, last, hlast, tree, htree, hst⟩ := hrun
  rw [h.index _ _ hm, h.index _ _ hlast, h.index _ _ hn, hsize] at htree
  rw [h.index _ _ hn] at hst
  exact ⟨tree, h.buildWith_ok htree, hst⟩

end Sound

end SegmentTree

end HeavyLight
