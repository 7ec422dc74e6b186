/-
Heavy-light decomposition as in `serial_hld.cpp`: the global arrays and the functions that fill and read them.

- `Hld`: the globals. Every array is a function on all of `ℤ`, read and written only through `readCell` and
  `writeCell`, which fault outside the allocated cells. `int` cells are exact integers.
- `allocAll`: sets the sizes and leaves every array with whatever it held before.
- `dfs`, `decompose`, `buildSt`, `preprocess`: the preprocessing. `dfs` and `decompose` recurse, so they take fuel.
- `lca`: binary lifting over the `log_n` columns of `kth`.
- `queryPathOld`, `queryPath`, `updateNode`: the queries and the update.
-/
import HeavyLight.SegmentTree
import Mathlib.Data.Int.Bitwise

namespace HeavyLight

/-- the globals of `serial_hld.cpp` -/
structure Hld where
  n : ℕ
  logN : ℕ
  /-- adjacency list representation of the tree -/
  adj : ℤ → List ℤ
  /-- the heavy child of each node, `-1` for none -/
  heavy : ℤ → ℤ
  /-- the head of the chain of each node -/
  head : ℤ → ℤ
  /-- the position of each node in the segment tree array -/
  pos : ℤ → ℤ
  depth : ℤ → ℤ
  sizes : ℤ → ℤ
  values : ℤ → ℤ
  /-- the rows of ancestors; `kth u 0` is the parent of `u` -/
  kth : ℤ → ℤ → ℤ
  st : SegmentTree ℤ
  curPos : ℤ

namespace Hld

/-- `alloc_all`: `n` cells for each array, `log_n` cells for each row of `kth`, with their old contents -/
def allocAll (n : ℕ) (mem : Hld) : Hld := { mem with n := n, logN := Nat.log 2 n }

/-- `kth[u][i]` -/
def readKth (s : Hld) (u i : ℤ) : Exec ℤ := do
  let row ← readCell s.n s.kth u
  readCell s.logN row i

/-- `kth[u][i] = x` -/
def writeKth (s : Hld) (u i x : ℤ) : Exec Hld := do
  let row ← readCell s.n s.kth u
  let row ← writeCell s.logN row i x
  let kth ← writeCell s.n s.kth u row
  return { s with kth := kth }

/-! ## Depth-first search -/

/-- the loop of `dfs` that fills columns `1` to `m` of the row of `u` -/
def fillRow (u : ℤ) : ℕ → Hld → Exec Hld
  | 0, s => .ok s
  | i + 1, s => do
    let s ← fillRow u i s
    let p ← readKth s u i
    let q ← readKth s p i
    writeKth s u (i + 1) q

/-- the test `heavy[v] == -1 || sizes[u] > sizes[heavy[v]]` -/
def isHeavier (s : Hld) (v u : ℤ) : Exec Bool := do
  let c ← readCell s.n s.heavy v
  if c = -1 then return true
  else do
    let a ← readCell s.n s.sizes u
    let b ← readCell s.n s.sizes c
    return a > b

/-- the set-up of a child `u` of `v` before the recursive call: its row of `kth` and its depth -/
def enterChild (v : ℤ) (s : Hld) (u : ℤ) : Exec Hld := do
  let s ← writeKth s u 0 v
  let s ← fillRow u (s.logN - 1) s
  let d ← readCell s.n s.depth v
  let depth ← writeCell s.n s.depth u (d + 1)
  return { s with depth := depth }

/-- what `v` takes from its finished child `u`: the size, and perhaps a new heavy child -/
def foldChild (v : ℤ) (s : Hld) (u : ℤ) : Exec Hld := do
  let a ← readCell s.n s.sizes v
  let b ← readCell s.n s.sizes u
  let sizes ← writeCell s.n s.sizes v (a + b)
  let s := { s with sizes := sizes }
  if ← isHeavier s v u then
    let heavy ← writeCell s.n s.heavy v u
    return { s with heavy := heavy }
  else return s

/-- the body of the loop of `dfs` over the neighbours `u` of `v` -/
def dfsChild (dfs : ℤ → Hld → Exec Hld) (v : ℤ) (s : Hld) (u : ℤ) : Exec Hld := do
  let p ← readKth s v 0
  if u ≠ p then
    let s ← enterChild v s u
    let s ← dfs u s
    foldChild v s u
  else return s

/-- the first two statements of `dfs` -/
def initNode (v : ℤ) (s : Hld) : Exec Hld := do
  let sizes ← writeCell s.n s.sizes v 1
  let heavy ← writeCell s.n s.heavy v (-1)
  return { s with sizes := sizes, heavy := heavy }

/-- parent, depth, subtree size and heavy child of each node below `v` -/
def dfs : ℕ → ℤ → Hld → Exec Hld
  | 0, _, _ => .error .outOfFuel
  | k + 1, v, s => do
    let s ← initNode v s
    let us ← readCell s.n s.adj v
    us.foldlM (dfsChild (dfs k) v) s

/-! ## Decomposition -/

/-- `head[v] = h; pos[v] = cur_pos++;` -/
def visit (v h : ℤ) (s : Hld) : Exec Hld := do
  let head ← writeCell s.n s.head v h
  let pos ← writeCell s.n s.pos v s.curPos
  return { s with head := head, pos := pos, curPos := s.curPos + 1 }

/-- the test `u != kth[v][0] && u != heavy[v]` for a light child -/
def isLight (s : Hld) (v u : ℤ) : Exec Bool := do
  let p ← readKth s v 0
  if u ≠ p then
    let c ← readCell s.n s.heavy v
    return u ≠ c
  else return false

/-- the body of the loop of `decompose` over the neighbours `u` of `v` -/
def decomposeChild (decompose : ℤ → ℤ → Hld → Exec Hld) (v : ℤ) (s : Hld) (u : ℤ) : Exec Hld := do
  if ← isLight s v u then decompose u u s else return s

/-- the chain heads and positions of the nodes below `v`, with `v` in the chain of `h` -/
def decompose : ℕ → ℤ → ℤ → Hld → Exec Hld
  | 0, _, _, _ => .error .outOfFuel
  | k + 1, v, h, s => do
    let s ← visit v h s
    let c ← readCell s.n s.heavy v
    let s ← if c ≠ -1 then decompose k c h s else pure s
    let us ← readCell s.n s.adj v
    us.foldlM (decomposeChild (decompose k) v) s

/-! ## The segment tree and the whole preprocessing -/

/-- `dfs_values[pos[i]] = values[i]` -/
def scatter (s : Hld) (dfsValues : Vec ℤ) (i : ℤ) : Exec (Vec ℤ) := do
  let p ← readCell s.n s.pos i
  let x ← readCell s.n s.values i
  dfsValues.set p x

/-- the indices `0` to `n - 1` of a loop -/
def indices (n : ℕ) : List ℤ := (List.range n).map fun i : ℕ => (i : ℤ)

/-- `build_st(n)`: the segment tree over the node values in the order of the positions -/
def buildSt (k n : ℕ) (s : Hld) : Exec Hld := do
  let dfsValues ← (indices n).foldlM (scatter s) (Vec.zeros n)
  let st ← SegmentTree.new k dfsValues
  return { s with st := st }

def preprocess (k n : ℕ) (s : Hld) : Exec Hld := do
  let s := { s with curPos := 0 }
  let s ← dfs k 0 s
  let s ← decompose k 0 0 s
  buildSt k n s

/-! ## Lowest common ancestor -/

/-- the first loop of `lca`, over the bits `m - 1` to `0` of `diff`: `if ((1 << i) & diff) u = kth[u][i]` -/
def liftLoop (s : Hld) (diff : ℤ) : ℕ → ℤ → Exec ℤ
  | 0, u => .ok u
  | i + 1, u => do
    if diff.testBit i then
      let p ← readKth s u i
      liftLoop s diff i p
    else liftLoop s diff i u

/-- the second loop of `lca`, over the columns `m - 1` to `0`; its result is the last `u` -/
def jumpLoop (s : Hld) : ℕ → ℤ → ℤ → Exec ℤ
  | 0, u, _ => .ok u
  | i + 1, u, v => do
    let p ← readKth s u i
    let q ← readKth s v i
    if p ≠ q then jumpLoop s i p q else jumpLoop s i u v

/-- `lca` from the point where `u` is at least as deep as `v` -/
def lcaFrom (s : Hld) (u v : ℤ) : Exec ℤ := do
  let du ← readCell s.n s.depth u
  let dv ← readCell s.n s.depth v
  let u ← liftLoop s (du - dv) s.logN u
  if u = v then return u
  else do
    let u ← jumpLoop s s.logN u v
    readKth s u 0

def lca (s : Hld) (u v : ℤ) : Exec ℤ := do
  let du ← readCell s.n s.depth u
  let dv ← readCell s.n s.depth v
  if du < dv then lcaFrom s v u else lcaFrom s u v

/-! ## Path queries -/

/-- the loop of `query_path_old`; its result is `u`, `v` and `res` at the end -/
def oldLoop (s : Hld) : ℕ → ℤ → ℤ → ℤ → Exec (ℤ × ℤ × ℤ)
  | 0, _, _, _ => .error .outOfFuel
  | k + 1, u, v, res => do
    let hu ← readCell s.n s.head u
    let hv ← readCell s.n s.head v
    if hu ≠ hv then
      let du ← readCell s.n s.depth hu
      let dv ← readCell s.n s.depth hv
      let (u, v) := if du < dv then (v, u) else (u, v)
      let h ← readCell s.n s.head u
      let ph ← readCell s.n s.pos h
      let pu ← readCell s.n s.pos u
      let q ← s.st.query k ph pu
      let p ← readKth s h 0
      oldLoop s k p v (res + q)
    else return (u, v, res)

def queryPathOld (k : ℕ) (s : Hld) (u v : ℤ) : Exec ℤ := do
  let (u, v, res) ← oldLoop s k u v 0
  let du ← readCell s.n s.depth u
  let dv ← readCell s.n s.depth v
  let (u, v) := if du > dv then (v, u) else (u, v)
  let pu ← readCell s.n s.pos u
  let pv ← readCell s.n s.pos v
  let q ← s.st.query k pu pv
  return res + q

/-- a climbing loop of `query_path`: while `u` is not on the chain of `lca_uv`, add the chain of `u` and go above it.
The two loops differ in the order of the bounds of their query, `ask`; the result is `u` and `res` at the end. -/
def climbLoop (s : Hld) (ask : ℕ → ℤ → ℤ → Exec ℤ) (lcaUv : ℤ) : ℕ → ℤ → ℤ → Exec (ℤ × ℤ)
  | 0, _, _ => .error .outOfFuel
  | k + 1, u, res => do
    let hu ← readCell s.n s.head u
    let hl ← readCell s.n s.head lcaUv
    if hu ≠ hl then
      let pu ← readCell s.n s.pos u
      let ph ← readCell s.n s.pos hu
      let q ← ask k pu ph
      let p ← readKth s hu 0
      climbLoop s ask lcaUv k p (res + q)
    else return (u, res)

def queryPath (k : ℕ) (s : Hld) (u v : ℤ) : Exec ℤ := do
  let (u, v) := if u > v then (v, u) else (u, v)
  let lcaUv ← lca s u v
  -- sum from u to lca_uv
  let (u, res) ← climbLoop s (fun k pu ph => s.st.query k pu ph) lcaUv k u 0
  let pu ← readCell s.n s.pos u
  let pl ← readCell s.n s.pos lcaUv
  let q ← s.st.query k pu pl
  let res := res + q
  -- sum from v to lca_uv
  let (v, res) ← climbLoop s (fun k pv ph => s.st.query k ph pv) lcaUv k v res
  let pv ← readCell s.n s.pos v
  let q ← s.st.query k pv pl
  let x ← readCell s.n s.values lcaUv
  return res + (q - x)

/-- the update query for node `u` -/
def updateNode (k : ℕ) (s : Hld) (u val : ℤ) : Exec Hld := do
  let p ← readCell s.n s.pos u
  let st ← s.st.update k p val
  return { s with st := st }

/-- a run of `update_node` calls -/
def updateNodes (k : ℕ) (s : Hld) (ups : List (ℤ × ℤ)) : Exec Hld :=
  ups.foldlM (fun s p => updateNode k s p.1 p.2) s

end Hld

end HeavyLight
