/-
Preprocessing and `query_path` with every `int` of the segment tree and of the sums checked.

- `preprocessWith`, `queryPathInt`: `preprocess` over other arithmetic, and `query_path` with each sum of `res` checked.
- `Fits n vals`: values below `max_val` that add up to at most `2 ^ 31 - 1`, at fewer than `2 ^ 29` nodes.
- `preprocessWith_settled`: then the constructor leaves the state of `preprocess`, and no check fails.
- `SmallSums`: a query of the segment tree is never negative, and no less than the value at its right bound.
- `queryPathWith_checked`: so every sum on the way is below the result. `Settled.queryPathInt`: no check fails.

The sizes, depths and positions that `dfs` and `decompose` compute are at most `n`.
-/
import HeavyLight.BuildOverflow
import HeavyLight.Rerun

namespace HeavyLight

open ParentTree

/-! ## Queries of the segment tree -/

namespace SegmentTree

section Fuel

variable {α : Type} [Zero α] {o : Arith α}

/-- what a query returns it returns with more fuel -/
theorem queryFromWith_covers (o : Arith α) (tree : Vec α) (k : ℕ) (v tl tr l r : ℤ) :
    Covers (queryFromWith o tree (k + 1) v tl tr l r) (queryFromWith o tree k v tl tr l r) := by
  induction k generalizing v tl tr l r with
  | zero => exact Covers.error _ _
  | succ k ih =>
    rw [queryFromWith, queryFromWith]
    refine .ite (.refl _) (.ite (.refl _) (.bind (.refl _) fun tm => .bind (.refl _) fun x => ?_))
    refine .bind (ih _ _ _ _ _) fun a => .bind (.refl _) fun m => .bind (.refl _) fun y => ?_
    exact .bind (ih _ _ _ _ _) fun b => .refl _

theorem queryWith_covers (o : Arith α) (st : SegmentTree α) (l r : ℤ) (k : ℕ) :
    Covers (queryWith o (k + 1) st l r) (queryWith o k st l r) := by
  rw [queryWith, queryWith]
  exact .bind (.refl _) fun last => .ite (queryFromWith_covers o st.tree k _ _ _ _ _)
    (queryFromWith_covers o st.tree k _ _ _ _ _)

end Fuel

section Ints

variable {n : ℤ} {a : ℤ → ℤ} {st : SegmentTree ℤ}

/-- values whose sums over ranges all fit in an `int` -/
structure SmallSums (a : ℤ → ℤ) (n : ℤ) : Prop where
  nonneg : ∀ i, 0 ≤ i → i < n → 0 ≤ a i
  total : ∑ i ∈ Finset.Icc 0 (n - 1), a i < 2 ^ 31

theorem SmallSums.sum_nonneg (h : SmallSums a n) {l r : ℤ} (hl : 0 ≤ l) (hr : r ≤ n - 1) :
    0 ≤ ∑ i ∈ Finset.Icc l r, a i := by
  refine Finset.sum_nonneg fun i hi => ?_
  rw [Finset.mem_Icc] at hi
  exact h.nonneg i (by omega) (by omega)

theorem SmallSums.sum_lt (h : SmallSums a n) {l r : ℤ} (hl : 0 ≤ l) (hr : r ≤ n - 1) :
    ∑ i ∈ Finset.Icc l r, a i < 2 ^ 31 := by
  refine lt_of_le_of_lt (Finset.sum_le_sum_of_subset_of_nonneg (Finset.Icc_subset_Icc hl hr) fun i hi _ => ?_) h.total
  rw [Finset.mem_Icc] at hi
  exact h.nonneg i (by omega) (by omega)

theorem SmallSums.addsRanges (h : SmallSums a n) : (Arith.ints n).AddsRanges a 0 (n - 1) := by
  intro l r m hl hr
  show checkedInt _ = _
  rw [HeapIntervals.sum_split a l r m]
  have hnonneg := h.sum_nonneg hl hr
  exact checkedInt_ok (by omega) (h.sum_lt hl hr)

/-- **A query** under all checks. -/
theorem SmallSums.query (h : SmallSums a n) (hrep : Represents st n a) (hn : n < 2 ^ 29) {l r : ℤ} (hl : 0 ≤ l ∧ l < n)
    (hr : 0 ≤ r ∧ r < n) :
    Returns (fun k => queryWith (.ints n) k st l r) (∑ i ∈ Finset.Icc (min l r) (max l r), a i) :=
  queryWith_spec _ h.addsRanges hrep (ints_safeFor hrep.pos hn) hl.1 hl.2 hr.1 hr.2

/-- whatever it returns is not negative, and no less than the value at its right bound -/
theorem SmallSums.query_ge (h : SmallSums a n) (hrep : Represents st n a) (hn : n < 2 ^ 29) {k : ℕ} {l r x : ℤ}
    (hl : 0 ≤ l ∧ l < n) (hr : 0 ≤ r ∧ r < n) (hx : queryWith (.ints n) k st l r = .ok x) : 0 ≤ x ∧ a r ≤ x := by
  have hquery := h.query hrep hn hl hr
  obtain rfl := (Returns.of_ok (queryWith_covers _ st l r) hx).unique hquery
  refine ⟨h.sum_nonneg (by omega) (by omega), ?_⟩
  refine Finset.single_le_sum (f := a) (fun i hi => ?_) (Finset.mem_Icc.2 ⟨min_le_right _ _, le_max_right _ _⟩)
  rw [Finset.mem_Icc] at hi
  exact h.nonneg i (by omega) (by omega)

end Ints

end SegmentTree

namespace Hld

open SegmentTree

variable {n : ℕ} {A : AdjTree n} {vals : ℤ → ℤ} {mem s t : Hld} {u v : Fin n}

/-! ## The functions -/

/-- `preprocess`, with the segment tree over other arithmetic -/
def preprocessWith (o : Arith ℤ) (k n : ℕ) (s : Hld) : Exec Hld := do
  let s := { s with curPos := 0 }
  let s ← dfs k 0 s
  let s ← decompose k 0 0 s
  buildStWith o k n s

/-- a climbing loop of `query_path` in which `res += ...` is checked -/
def climbLoopInt (s : Hld) (ask : ℕ → ℤ → ℤ → Exec ℤ) (lcaUv : ℤ) : ℕ → ℤ → ℤ → Exec (ℤ × ℤ)
  | 0, _, _ => .error .outOfFuel
  | k + 1, u, res => do
    let hu ← readCell s.n s.head u
    let hl ← readCell s.n s.head lcaUv
    if hu ≠ hl then
      let pu ← readCell s.n s.pos u
      let ph ← readCell s.n s.pos hu
      let q ← ask k pu ph
      let res ← checkedInt (res + q)
      let p ← readKth s hu 0
      climbLoopInt s ask lcaUv k p res
    else return (u, res)

/-- `query_path` with every `int` of the segment tree and every sum of `res` checked -/
def queryPathInt (k : ℕ) (s : Hld) (u v : ℤ) : Exec ℤ := do
  let ask := fun k l r => queryWith (.ints s.n) k s.st l r
  let (u, v) := if u > v then (v, u) else (u, v)
  let lcaUv ← lca s u v
  let (u, res) ← climbLoopInt s (fun k pu ph => ask k pu ph) lcaUv k u 0
  let pu ← readCell s.n s.pos u
  let pl ← readCell s.n s.pos lcaUv
  let q ← ask k pu pl
  let res ← checkedInt (res + q)
  let (v, res) ← climbLoopInt s (fun k pv ph => ask k ph pv) lcaUv k v res
  let pv ← readCell s.n s.pos v
  let q ← ask k pv pl
  let x ← readCell s.n s.values lcaUv
  let d ← checkedInt (q - x)
  checkedInt (res + d)

/-! ## Preprocessing -/

/-- values below `max_val` that add up to an `int`, at few enough nodes for the indices of the segment tree -/
structure Fits (n : ℕ) (vals : ℤ → ℤ) : Prop where
  few : n < 2 ^ 29
  range : ∀ i : ℕ, i < n → 0 ≤ vals i ∧ vals i ≤ maxVal - 1
  total : ∑ w : Fin n, vals w ≤ 2 ^ 31 - 1

theorem preprocessWith_eq (o : Arith ℤ) (k n : ℕ) (s : Hld) : preprocessWith o k n s = (do
    let s ← decomposeRoot k s
    buildStWith o k n s) := by
  unfold preprocessWith decomposeRoot
  simp only [bind_assoc]

/-- checks do nothing but stop a run -/
theorem buildStWith_covers {o : Arith ℤ} (h : o.Sound) (k n : ℕ) (s : Hld) :
    Covers (buildSt k n s) (buildStWith o k n s) := by
  unfold buildSt buildStWith
  exact .bind (.refl _) fun d => .bind (fun st hst => h.newWith_ok hst) fun st => .refl _

/-- the state after `decompose` -/
theorem decomposeRoot_values (h : (A.load vals mem).ZeroRow) :
    ∃ s, Returns (fun k => decomposeRoot k (A.load vals mem)) s ∧ Laid A s ∧ s.values = vals := by
  have he : Entered A (A.load vals mem) {A.root} A.root := entered_load (closed_root h) rfl
  obtain ⟨s, hs, -, -, -, hvals, -⟩ := decomposeRoot_spec he (root_not_nbr h)
  obtain ⟨s', hs', hlaid, -⟩ := decomposeRoot_laid h
  obtain rfl := hs'.unique hs
  exact ⟨s', hs', hlaid, hvals⟩

/-- **The constructor** returns under all checks. -/
theorem Fits.build (h : Fits n vals) (hlaid : Laid A s) (hvals : s.values = vals) :
    ∃ s', Returns (fun k => buildStWith (.ints n) k n s) s' := by
  subst hvals
  exact ((build_st_overflow_iff A.root.pos hlaid.n_eq hlaid.bijOn_pos h.range).2 h.few).2 h.total

/-- **Preprocessing** leaves the same state under all checks. -/
theorem preprocessWith_settled (hfits : Fits n vals) (h : (A.load vals mem).RootZero) :
    ∃ t, Returns (fun k => preprocessWith (.ints n) k n (A.load vals mem)) t ∧ Settled A vals t := by
  obtain ⟨s, hs, hlaid, hvals⟩ := decomposeRoot_values h.kth
  obtain ⟨t, ht⟩ := hfits.build hlaid hvals
  obtain ⟨t', ht', hset⟩ := preprocess_settled h
  have hbuild : Returns (fun k => buildSt k n s) t := ht.covers fun k => buildStWith_covers (ints_sound n) k n s
  have hpre := (hs.bind hbuild).congr fun k => preprocess_eq k n (A.load vals mem)
  obtain rfl := hpre.unique ht'
  exact ⟨t, (hs.bind ht).congr fun k => preprocessWith_eq _ k n _, hset⟩

/-- the loop of `main` over its rounds of preprocessing -/
def preprocessRoundsWith (o : Arith ℤ) (k n : ℕ) : ℕ → Hld → Exec Hld
  | 0, s => .ok s
  | m + 1, s => do
    let s ← preprocessWith o k n s
    preprocessRoundsWith o k n m s

theorem Settled.roundsWith (hfits : Fits n vals) (h : Settled A vals s) (m : ℕ) :
    ∃ t, Returns (fun k => preprocessRoundsWith (.ints n) k n m s) t ∧ Settled A vals t := by
  induction m generalizing s with
  | zero => exact ⟨s, Returns.of_forall fun _ => rfl, h⟩
  | succ m ih =>
    have hround := preprocessWith_settled hfits h.rootZero
    rw [h.load] at hround
    obtain ⟨s₁, hs₁, h₁⟩ := hround
    obtain ⟨s₂, hs₂, h₂⟩ := ih h₁
    exact ⟨s₂, hs₁.bind hs₂, h₂⟩

/-! ## Queries -/

/-- a query function whose results are not negative, and no less than the value at the right bound -/
def Asks (s : Hld) (ask : ℕ → ℤ → ℤ → Exec ℤ) : Prop :=
  ∀ x y p q, readCell s.n s.pos x = .ok p → readCell s.n s.pos y = .ok q → ∀ k a, ask k p q = .ok a →
    0 ≤ a ∧ ∀ b, readCell s.n s.values y = .ok b → b ≤ a

/-- **A climbing loop** whose result fits in an `int` has come to no other sum that does not. -/
theorem climbLoop_checked {ask : ℕ → ℤ → ℤ → Exec ℤ}
    (hask : ∀ x y p q, readCell s.n s.pos x = .ok p → readCell s.n s.pos y = .ok q → ∀ k a, ask k p q = .ok a → 0 ≤ a)
    {x u res : ℤ} {k : ℕ} {r : ℤ × ℤ} (hres : 0 ≤ res) (hrun : climbLoop s ask x k u res = .ok r) :
    res ≤ r.2 ∧ (r.2 < 2 ^ 31 → climbLoopInt s ask x k u res = .ok r) := by
  induction k generalizing u res with
  | zero => cases hrun
  | succ k ih =>
    rw [climbLoop] at hrun
    obtain ⟨hu, hhu, hrun⟩ := bind_eq_ok.1 hrun
    obtain ⟨hl, hhl, hrun⟩ := bind_eq_ok.1 hrun
    by_cases hne : hu ≠ hl
    · rw [if_pos hne] at hrun
      obtain ⟨pu, hpu, hrun⟩ := bind_eq_ok.1 hrun
      obtain ⟨ph, hph, hrun⟩ := bind_eq_ok.1 hrun
      obtain ⟨q, hq, hrun⟩ := bind_eq_ok.1 hrun
      obtain ⟨p, hp, hrun⟩ := bind_eq_ok.1 hrun
      have hnonneg := hask u hu pu ph hpu hph k q hq
      obtain ⟨hle, hint⟩ := ih (by omega) hrun
      refine ⟨by omega, fun hlt => ?_⟩
      rw [climbLoopInt, hhu, ok_bind, hhl, ok_bind, if_pos hne, hpu, ok_bind, hph, ok_bind, hq, ok_bind,
        checkedInt_ok (by omega) (by omega), ok_bind, hp, ok_bind]
      exact hint hlt
    · rw [if_neg hne] at hrun
      cases hrun
      refine ⟨le_rfl, fun _ => ?_⟩
      rw [climbLoopInt, hhu, ok_bind, hhl, ok_bind, if_neg hne]
      rfl

/-- **`query_path`** whose result fits in an `int` returns it under all checks. -/
theorem queryPathWith_checked (hask : Asks s fun k l r => queryWith (.ints s.n) k s.st l r) {u v ans : ℤ} {k : ℕ}
    (hrun : queryPathWith (fun k l r => queryWith (.ints s.n) k s.st l r) k s u v = .ok ans) (hans : ans < 2 ^ 31) :
    queryPathInt k s u v = .ok ans := by
  rw [queryPathWith] at hrun
  rw [queryPathInt]
  generalize (if u > v then (v, u) else (u, v)) = uv at hrun ⊢
  obtain ⟨u, v⟩ := uv
  obtain ⟨x, hx, hrun⟩ := bind_eq_ok.1 hrun
  obtain ⟨r₁, hr₁, hrun⟩ := bind_eq_ok.1 hrun
  obtain ⟨pu, hpu, hrun⟩ := bind_eq_ok.1 hrun
  obtain ⟨pl, hpl, hrun⟩ := bind_eq_ok.1 hrun
  obtain ⟨q₁, hq₁, hrun⟩ := bind_eq_ok.1 hrun
  obtain ⟨r₂, hr₂, hrun⟩ := bind_eq_ok.1 hrun
  obtain ⟨pv, hpv, hrun⟩ := bind_eq_ok.1 hrun
  obtain ⟨q₂, hq₂, hrun⟩ := bind_eq_ok.1 hrun
  obtain ⟨b, hb, hrun⟩ := bind_eq_ok.1 hrun
  cases hrun
  -- every sum on the way is at most the last one
  obtain ⟨hle₁, hint₁⟩ := climbLoop_checked (fun x y p q hp hq k a ha => (hask x y p q hp hq k a ha).1) le_rfl hr₁
  have hnonneg := (hask _ _ _ _ hpu hpl _ _ hq₁).1
  obtain ⟨hle₂, hint₂⟩ := climbLoop_checked (fun x y p q hp hq k a ha => (hask y x q p hq hp k a ha).1) (by omega) hr₂
  have hlast := (hask _ _ _ _ hpv hpl _ _ hq₂).2 b hb
  simp only [hx, ok_bind, hint₁ (by omega), hpu, hpl, hq₁, checkedInt_ok (x := r₁.2 + q₁) (by omega) (by omega),
    hint₂ (by omega), hpv, hq₂, hb, checkedInt_ok (x := q₂ - b) (by omega) (by omega)]
  exact checkedInt_ok (by omega) hans

theorem Settled.laid (h : Settled A vals s) : Laid A s := ⟨h.n_eq, h.logN_eq, h.zeroRow, h.finished, h.placed⟩

/-- the segment tree of a settled state, over the values in the order of the positions -/
theorem Settled.sums (hfits : Fits n vals) (h : Settled A vals s) :
    ∃ a, Represents s.st n a ∧ SmallSums a n ∧ ∀ w : Fin n, a (A.rooted.pos w) = vals w := by
  obtain ⟨d, hd, hst⟩ := h.built
  have hvals : ∀ i : ℕ, i < n → 0 ≤ s.values i ∧ s.values i ≤ maxVal - 1 := h.values_eq ▸ hfits.range
  obtain ⟨e, he, -, hcell, htotal⟩ := scatter_total h.n_eq h.laid.bijOn_pos hvals
  obtain ⟨e', he', hscat⟩ := scatter_order h.n_eq h.placed (List.Perm.refl _)
  rw [h.values_eq] at hscat
  obtain rfl : e = d := (Except.ok.inj (he.symm.trans he')).trans (hscat.unique hd)
  have hpos : 0 < e.size := hd.size ▸ A.root.pos
  obtain ⟨st, hst', hrep⟩ := new_represents e hpos
  obtain rfl := hst'.unique hst
  rw [hd.size] at hrep
  refine ⟨e.cell, hrep, ⟨fun i h0 h1 => (hcell i h0 h1).1, ?_⟩, hd.cell⟩
  rw [htotal, h.values_eq]
  have := hfits.total
  omega

/-- **A query** of a settled state returns the sum on its path under all checks. -/
theorem Settled.queryPathInt (hfits : Fits n vals) (h : Settled A vals s) (u v : Fin n) :
    Returns (fun k => queryPathInt k s u v) (∑ w ∈ A.rooted.path u v, vals (w : ℕ)) := by
  obtain ⟨a, hrep, hsmall, ha⟩ := h.sums hfits
  have hfew : (n : ℤ) < 2 ^ 29 := by
    have := hfits.few
    omega
  have hpos : ∀ w : Fin n, 0 ≤ ((A.rooted.pos w : ℕ) : ℤ) ∧ ((A.rooted.pos w : ℕ) : ℤ) < n :=
    fun w => ⟨Int.natCast_nonneg _, pos_lt_n A w⟩
  have hchains : AnswersChains A (fun w => vals (w : ℕ)) fun k l r => queryWith (.ints s.n) k s.st l r := by
    intro u v hh
    rw [sum_path_chain _ a ha hh, h.n_eq]
    exact hsmall.query hrep hfew (hpos u) (hpos v)
  have hread : ∀ x p, readCell s.n s.pos x = .ok p → ∃ w : Fin n, x = (w : ℕ) ∧ p = A.rooted.pos w := by
    intro x p hp
    unfold readCell at hp
    split_ifs at hp with hx
    rw [h.n_eq] at hx
    obtain ⟨w, rfl⟩ := exists_node hx.1 hx.2
    exact ⟨w, rfl, (Except.ok.inj hp).symm.trans (h.placed w).pos⟩
  have hasks : Asks s fun k l r => queryWith (.ints s.n) k s.st l r := by
    intro x y p q hp hq k b hb
    obtain ⟨w, -, rfl⟩ := hread x p hp
    obtain ⟨z, rfl, rfl⟩ := hread y q hq
    rw [h.n_eq] at hb
    obtain ⟨hnonneg, hge⟩ := hsmall.query_ge hrep hfew (hpos w) (hpos z) hb
    refine ⟨hnonneg, fun c hc => ?_⟩
    rw [readCell_node h.n_eq z, h.values_eq] at hc
    rw [← Except.ok.inj hc, ← ha z]
    exact hge
  have hquery := queryPathWith_spec h.laid hchains u v
  rw [h.values_eq, sub_self, add_zero] at hquery
  have hlt : ∑ w ∈ A.rooted.path u v, vals (w : ℕ) < 2 ^ 31 := by
    have hle : ∑ w ∈ A.rooted.path u v, vals (w : ℕ) ≤ ∑ w : Fin n, vals (w : ℕ) :=
      Finset.sum_le_sum_of_subset_of_nonneg (Finset.subset_univ _) fun w _ _ => (hfits.range w w.isLt).1
    have := hfits.total
    omega
  obtain ⟨N, hN⟩ := hquery
  exact ⟨N, fun k hk => queryPathWith_checked hasks (hN k hk) hlt⟩

end Hld

end HeavyLight
