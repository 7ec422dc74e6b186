/-
What the methods of the segment tree compute, over every commutative monoid of cells and every arithmetic that is exact
on what they compute.

- `Holds a tree`: slot `w` covering `[x, y]` holds the sum of `a` over `[x, y]`.
- `Safe`, `Adds`: the arithmetic is exact on the slots and indices below a slot, and on the sums stored there. `AddsRanges`:
  on the sums over ranges.
- `buildWith_spec`, `updateFromWith_spec`: both leave the tree holding the new array and touch no slot outside their
  subtree.
- `Represents st n a`: the abstraction relation between a segment tree and an array of `n` cells; `new_represents`,
  `update_represents`, `query_represents` are its three operations, and `updates_represents` a whole run of updates.
- `query_range_sum`: the segment tree refines an array with point assignment and inclusive range sum.
- `query_ne_ok`: a query whose larger index is `n` or more never returns.
-/
import HeavyLight.SegmentTree

namespace HeavyLight.SegmentTree

open HeapIntervals

/-! ## The heap-layout invariant -/

section Frame

variable {α : Type}

/-- the slots below slot `v` are cells of the vector -/
def Fits (v tl tr : ℤ) (tree : Vec α) : Prop := ∀ w x y, Below v tl tr w x y → 0 ≤ w ∧ w < tree.size

/-- `tree'` is `tree` with slots below slot `v` rewritten and no others -/
structure Frame (v tl tr : ℤ) (tree tree' : Vec α) : Prop where
  size : tree'.size = tree.size
  cell : ∀ w, (∀ x y, ¬ Below v tl tr w x y) → tree'.cell w = tree.cell w

theorem Fits.left {v tl tr : ℤ} {tree : Vec α} (h : Fits v tl tr tree) (hlt : tl < tr) :
    Fits (2 * v) tl (mid tl tr) tree := fun w x y hb => h w x y (.left hlt hb)

theorem Fits.right {v tl tr : ℤ} {tree : Vec α} (h : Fits v tl tr tree) (hlt : tl < tr) :
    Fits (2 * v + 1) (mid tl tr + 1) tr tree := fun w x y hb => h w x y (.right hlt hb)

theorem Fits.congr {v tl tr : ℤ} {tree tree' : Vec α} (h : Fits v tl tr tree) (hs : tree'.size = tree.size) :
    Fits v tl tr tree' := fun w x y hb => by rw [hs]; exact h w x y hb

/-- a frame in one child is a frame in the whole subtree -/
theorem Frame.of_left {v tl tr : ℤ} {tree tree' : Vec α} (hlt : tl < tr)
    (hf : Frame (2 * v) tl (mid tl tr) tree tree') : Frame v tl tr tree tree' :=
  ⟨hf.size, fun w hw => hf.cell w fun x y hb => hw x y (.left hlt hb)⟩

theorem Frame.of_right {v tl tr : ℤ} {tree tree' : Vec α} (hlt : tl < tr)
    (hf : Frame (2 * v + 1) (mid tl tr + 1) tr tree tree') : Frame v tl tr tree tree' :=
  ⟨hf.size, fun w hw => hf.cell w fun x y hb => hw x y (.right hlt hb)⟩

theorem Frame.trans {v tl tr : ℤ} {t₁ t₂ t₃ : Vec α} (h₁ : Frame v tl tr t₁ t₂) (h₂ : Frame v tl tr t₂ t₃) :
    Frame v tl tr t₁ t₃ :=
  ⟨h₂.size.trans h₁.size, fun w hw => (h₂.cell w hw).trans (h₁.cell w hw)⟩

end Frame

/-! ## Exact arithmetic below a slot -/

section Exactness

variable {α : Type} {o : Arith α} {v tl tr n : ℤ}

/-- the slots and indices below slot `v`, which covers `[tl, tr]`, are computed exactly -/
structure Arith.Safe (o : Arith α) (v tl tr : ℤ) : Prop where
  slot : ∀ w x y, Below v tl tr w x y → o.slot w = .ok w
  sum : ∀ w x y, Below v tl tr w x y → x < y → o.index (x + y) = .ok (x + y)
  left : ∀ w x y, Below v tl tr w x y → x < y → o.index (2 * w) = .ok (2 * w)
  right : ∀ w x y, Below v tl tr w x y → x < y → o.index (2 * w + 1) = .ok (2 * w + 1)
  next : ∀ w x y, Below v tl tr w x y → x < y → o.index (mid x y + 1) = .ok (mid x y + 1)

namespace Arith.Safe

theorem exact [Add α] : (Arith.exact : Arith α).Safe v tl tr :=
  ⟨fun _ _ _ _ => rfl, fun _ _ _ _ _ => rfl, fun _ _ _ _ _ => rfl, fun _ _ _ _ _ => rfl, fun _ _ _ _ _ => rfl⟩

theorem of_left (h : o.Safe v tl tr) (hlt : tl < tr) : o.Safe (2 * v) tl (mid tl tr) :=
  ⟨fun _ _ _ hb => h.slot _ _ _ (.left hlt hb), fun _ _ _ hb => h.sum _ _ _ (.left hlt hb),
    fun _ _ _ hb => h.left _ _ _ (.left hlt hb), fun _ _ _ hb => h.right _ _ _ (.left hlt hb),
    fun _ _ _ hb => h.next _ _ _ (.left hlt hb)⟩

theorem of_right (h : o.Safe v tl tr) (hlt : tl < tr) : o.Safe (2 * v + 1) (mid tl tr + 1) tr :=
  ⟨fun _ _ _ hb => h.slot _ _ _ (.right hlt hb), fun _ _ _ hb => h.sum _ _ _ (.right hlt hb),
    fun _ _ _ hb => h.left _ _ _ (.right hlt hb), fun _ _ _ hb => h.right _ _ _ (.right hlt hb),
    fun _ _ _ hb => h.next _ _ _ (.right hlt hb)⟩

theorem slot_self (h : o.Safe v tl tr) : o.slot v = .ok v := h.slot v tl tr (.self _ _ _)

theorem midWith_eq (h : o.Safe v tl tr) (hlt : tl < tr) : midWith o tl tr = .ok (mid tl tr) := by
  unfold midWith
  rw [h.sum v tl tr (.self _ _ _) hlt]
  rfl

theorem left_self (h : o.Safe v tl tr) (hlt : tl < tr) : o.index (2 * v) = .ok (2 * v) :=
  h.left v tl tr (.self _ _ _) hlt

theorem rightWith_eq (h : o.Safe v tl tr) (hlt : tl < tr) : rightWith o v = .ok (2 * v + 1) := by
  unfold rightWith
  rw [h.left_self hlt, ok_bind, h.right v tl tr (.self _ _ _) hlt]

theorem next_self (h : o.Safe v tl tr) (hlt : tl < tr) : o.index (mid tl tr + 1) = .ok (mid tl tr + 1) :=
  h.next v tl tr (.self _ _ _) hlt

end Arith.Safe

/-- the index arithmetic over an array of `n` cells is exact -/
structure Arith.SafeFor (o : Arith α) (n : ℤ) : Prop where
  size : o.index n = .ok n
  slots : o.index (4 * n) = .ok (4 * n)
  last : o.index (n - 1) = .ok (n - 1)
  below : o.Safe 1 0 (n - 1)

theorem Arith.SafeFor.exact [Add α] : (Arith.exact : Arith α).SafeFor n := ⟨rfl, rfl, rfl, .exact⟩

end Exactness

section Spec

variable {α : Type} [AddCommMonoid α]

/-- every slot below slot `v`, which covers `[tl, tr]`, holds the sum of `a` over its interval -/
def Holds (a : ℤ → α) (v tl tr : ℤ) (tree : Vec α) : Prop :=
  ∀ w x y, Below v tl tr w x y → tree.cell w = ∑ i ∈ Finset.Icc x y, a i

theorem Holds.left {a : ℤ → α} {v tl tr : ℤ} {tree : Vec α} (h : Holds a v tl tr tree) (hlt : tl < tr) :
    Holds a (2 * v) tl (mid tl tr) tree := fun w x y hb => h w x y (.left hlt hb)

theorem Holds.right {a : ℤ → α} {v tl tr : ℤ} {tree : Vec α} (h : Holds a v tl tr tree) (hlt : tl < tr) :
    Holds a (2 * v + 1) (mid tl tr + 1) tr tree := fun w x y hb => h w x y (.right hlt hb)

/-- work in the right subtree leaves what the left subtree holds -/
theorem Frame.holds_left {a : ℤ → α} {v tl tr tl' tr' : ℤ} {tree tree' : Vec α}
    (hf : Frame (2 * v + 1) tl' tr' tree tree') (hv : 1 ≤ v) (h : Holds a (2 * v) tl tr tree) :
    Holds a (2 * v) tl tr tree' := fun w x y hb => by
  rw [hf.cell w fun x' y' hb' => hb.disjoint hv hb']
  exact h w x y hb

/-- work in the left subtree leaves what the right subtree holds -/
theorem Frame.holds_right {a : ℤ → α} {v tl tr tl' tr' : ℤ} {tree tree' : Vec α}
    (hf : Frame (2 * v) tl' tr' tree tree') (hv : 1 ≤ v) (h : Holds a (2 * v + 1) tl tr tree) :
    Holds a (2 * v + 1) tl tr tree' := fun w x y hb => by
  rw [hf.cell w fun x' y' hb' => hb'.disjoint hv hb]
  exact h w x y hb

/-- the sums stored below slot `v` for the array `a` are computed exactly -/
def Arith.Adds (o : Arith α) (a : ℤ → α) (v tl tr : ℤ) : Prop :=
  ∀ w x y, Below v tl tr w x y → x < y →
    o.add (∑ i ∈ Finset.Icc x (mid x y), a i) (∑ i ∈ Finset.Icc (mid x y + 1) y, a i) = .ok (∑ i ∈ Finset.Icc x y, a i)

section Adds

variable {o : Arith α} {a : ℤ → α} {v tl tr : ℤ}

theorem Arith.Adds.of_left (h : o.Adds a v tl tr) (hlt : tl < tr) : o.Adds a (2 * v) tl (mid tl tr) :=
  fun w x y hb => h w x y (.left hlt hb)

theorem Arith.Adds.of_right (h : o.Adds a v tl tr) (hlt : tl < tr) : o.Adds a (2 * v + 1) (mid tl tr + 1) tr :=
  fun w x y hb => h w x y (.right hlt hb)

/-- arithmetic with exact additions adds every array exactly -/
theorem Arith.Adds.of_add (hadd : ∀ p q, o.add p q = .ok (p + q)) (h0 : 0 ≤ tl) (h : tl ≤ tr) :
    o.Adds a v tl tr := by
  intro w x y hb hlt
  obtain ⟨h1, h2, -⟩ := hb.within h0 h
  rw [hadd, sum_halves a (by omega) hlt]

/-- the sums over the two parts of any range within `[tl, tr]` are added exactly -/
def Arith.AddsRanges (o : Arith α) (a : ℤ → α) (tl tr : ℤ) : Prop :=
  ∀ l r m, tl ≤ l → r ≤ tr →
    o.add (∑ i ∈ Finset.Icc l (min r m), a i) (∑ i ∈ Finset.Icc (max l (m + 1)) r, a i) = .ok (∑ i ∈ Finset.Icc l r, a i)

theorem Arith.AddsRanges.of_add (hadd : ∀ p q, o.add p q = .ok (p + q)) : o.AddsRanges a tl tr := by
  intro l r m _ _
  rw [hadd, sum_split a l r m]

end Adds

/-- storing a value in a leaf -/
theorem set_leaf {a : ℤ → α} {v tl : ℤ} {tree : Vec α} (hfit : Fits v tl tl tree) :
    ∃ tree', tree.set v (a tl) = .ok tree' ∧ Holds a v tl tl tree' ∧ Frame v tl tl tree tree' := by
  obtain ⟨h0, h1⟩ := hfit v tl tl (.self _ _ _)
  refine ⟨_, Vec.set_ok h0 h1, fun w x y hb => ?_, rfl, fun w hw => ?_⟩
  · obtain ⟨rfl, rfl, rfl⟩ := Below.leaf_iff.1 hb
    simp
  · have hne : w ≠ v := fun h => hw tl tl (h ▸ .self _ _ _)
    simp [hne]

/-- **Recombining.** With both children holding `a`, the sum of the two child slots stored at `v` makes the whole
subtree hold `a`. -/
theorem joinWith_spec {o : Arith α} {a : ℤ → α} {v tl tr : ℤ} {tree tree₂ : Vec α} (hv : 1 ≤ v) (hlt : tl < tr)
    (hsafe : o.Safe v tl tr) (hadd : o.Adds a v tl tr) (hfit : Fits v tl tr tree)
    (hl : Holds a (2 * v) tl (mid tl tr) tree₂) (hr : Holds a (2 * v + 1) (mid tl tr + 1) tr tree₂)
    (hf : Frame v tl tr tree tree₂) :
    ∃ tree', joinWith o v tree₂ = .ok tree' ∧ Holds a v tl tr tree' ∧ Frame v tl tr tree tree' := by
  have hfit₂ : Fits v tl tr tree₂ := hfit.congr hf.size
  have hselfl : Below (2 * v) tl (mid tl tr) (2 * v) tl (mid tl tr) := .self _ _ _
  have hselfr : Below (2 * v + 1) (mid tl tr + 1) tr (2 * v + 1) (mid tl tr + 1) tr := .self _ _ _
  obtain ⟨a0, a1⟩ := hfit₂ v tl tr (.self _ _ _)
  obtain ⟨b0, b1⟩ := hfit₂ _ _ _ (.left hlt hselfl)
  obtain ⟨c0, c1⟩ := hfit₂ _ _ _ (.right hlt hselfr)
  refine ⟨{ tree₂ with cell := Function.update tree₂.cell v (∑ i ∈ Finset.Icc tl tr, a i) }, ?_,
    fun w x y hb => ?_, hf.size, fun w hw => ?_⟩
  · unfold joinWith
    rw [hsafe.left_self hlt, ok_bind, (hsafe.of_left hlt).slot_self, ok_bind, Vec.get_ok b0 b1, ok_bind,
      hsafe.rightWith_eq hlt, ok_bind, (hsafe.of_right hlt).slot_self, ok_bind, Vec.get_ok c0 c1, ok_bind,
      hl _ _ _ hselfl, hr _ _ _ hselfr, hadd v tl tr (.self _ _ _) hlt, ok_bind, hsafe.slot_self, ok_bind]
    exact Vec.set_ok a0 a1
  · -- the slot itself gets the two halves; a slot below a child is not the slot itself
    rcases (Below.node_iff hlt).1 hb with ⟨rfl, rfl, rfl⟩ | hb | hb
    · exact Function.update_self _ _ _
    · have := hb.le (by omega)
      simp only [Function.update_of_ne (show w ≠ v by omega)]
      exact hl w x y hb
    · have := hb.le (by omega)
      simp only [Function.update_of_ne (show w ≠ v by omega)]
      exact hr w x y hb
  · have hne : w ≠ v := fun h => hw tl tr (h ▸ .self _ _ _)
    simp only [Function.update_of_ne hne]
    exact hf.cell w hw

/-! ## The recursive methods -/

/-- **Build.** From any contents, `build(arr, v, tl, tr)` returns with the subtree of `v` holding the array and every
other slot as it was. -/
theorem buildWith_spec (o : Arith α) (arr : Vec α) {tl tr : ℤ} (h0 : 0 ≤ tl) (h : tl ≤ tr) :
    ∀ (v : ℤ) (tree : Vec α), 1 ≤ v → tr < arr.size → o.Safe v tl tr → o.Adds arr.cell v tl tr → Fits v tl tr tree →
      ∃ tree', Returns (fun k => buildWith o arr k v tl tr tree) tree' ∧ Holds arr.cell v tl tr tree' ∧
        Frame v tl tr tree tree' := by
  refine halving (P := fun tl tr => ∀ (v : ℤ) (tree : Vec α), 1 ≤ v → tr < arr.size → o.Safe v tl tr →
    o.Adds arr.cell v tl tr → Fits v tl tr tree → ∃ tree', Returns (fun k => buildWith o arr k v tl tr tree) tree' ∧
      Holds arr.cell v tl tr tree' ∧ Frame v tl tr tree tree') ?_ ?_ h0 h
  · intro i hi v tree _ hlen hsafe _ hfit
    obtain ⟨tree', hset, hh, hf⟩ := set_leaf (a := arr.cell) hfit
    refine ⟨tree', Returns.succ (Returns.of_forall fun k => ?_), hh, hf⟩
    simp only [buildWith, if_true, hsafe.slot_self, Vec.get_ok hi hlen, ok_bind]
    exact hset
  · intro tl tr h0 hlt ihl ihr v tree hv hlen hsafe hadd hfit
    have hm := mid_lt h0 hlt
    obtain ⟨t₁, ht₁, hh₁, hf₁⟩ :=
      ihl (2 * v) tree (by omega) (by omega) (hsafe.of_left hlt) (hadd.of_left hlt) (hfit.left hlt)
    obtain ⟨t₂, ht₂, hh₂, hf₂⟩ := ihr (2 * v + 1) t₁ (by omega) hlen (hsafe.of_right hlt) (hadd.of_right hlt)
      ((hfit.right hlt).congr hf₁.size)
    have hframe : Frame v tl tr tree t₂ := (hf₁.of_left hlt).trans (hf₂.of_right hlt)
    obtain ⟨t₃, ht₃, hh₃, hf₃⟩ := joinWith_spec hv hlt hsafe hadd hfit (hf₂.holds_left hv hh₁) hh₂ hframe
    refine ⟨t₃, Returns.succ ?_, hh₃, hf₃⟩
    simp only [buildWith, if_neg hlt.ne, hsafe.midWith_eq hlt, hsafe.left_self hlt, hsafe.rightWith_eq hlt,
      hsafe.next_self hlt, ok_bind]
    exact ht₁.bind (ht₂.bind (Returns.of_forall fun _ => ht₃))

/-- an assignment outside an interval leaves what its slots hold -/
theorem Holds.assign_outside {a : ℤ → α} {v tl tr idx : ℤ} {tree : Vec α} (h : Holds a v tl tr tree) (h0 : 0 ≤ tl)
    (hle : tl ≤ tr) (hout : idx < tl ∨ tr < idx) (val : α) : Holds (Function.update a idx val) v tl tr tree := by
  intro w x y hb
  obtain ⟨b1, b2, b3⟩ := hb.within h0 hle
  rw [h w x y hb]
  apply Finset.sum_congr rfl
  intro i hi
  rw [Finset.mem_Icc] at hi
  rw [Function.update_of_ne (by omega)]

/-- **Update.** With the subtree of `v` holding `a`, `update(v, tl, tr, idx, val)` leaves it holding `a` with cell
`idx` assigned, and every other slot as it was. -/
theorem updateFromWith_spec (o : Arith α) (a : ℤ → α) (idx : ℤ) (val : α) {tl tr : ℤ} (h0 : 0 ≤ tl) (h : tl ≤ tr) :
    ∀ (v : ℤ) (tree : Vec α), 1 ≤ v → tl ≤ idx → idx ≤ tr → o.Safe v tl tr →
      o.Adds (Function.update a idx val) v tl tr → Fits v tl tr tree → Holds a v tl tr tree →
      ∃ tree', Returns (fun k => updateFromWith o k v tl tr idx val tree) tree' ∧
        Holds (Function.update a idx val) v tl tr tree' ∧ Frame v tl tr tree tree' := by
  refine halving (P := fun tl tr => ∀ (v : ℤ) (tree : Vec α), 1 ≤ v → tl ≤ idx → idx ≤ tr → o.Safe v tl tr →
    o.Adds (Function.update a idx val) v tl tr → Fits v tl tr tree → Holds a v tl tr tree →
    ∃ tree', Returns (fun k => updateFromWith o k v tl tr idx val tree) tree' ∧
      Holds (Function.update a idx val) v tl tr tree' ∧ Frame v tl tr tree tree') ?_ ?_ h0 h
  · intro i hi v tree _ h1 h2 hsafe _ hfit _
    obtain rfl : idx = i := by omega
    obtain ⟨tree', hset, hh, hf⟩ := set_leaf (a := Function.update a idx val) hfit
    refine ⟨tree', Returns.succ (Returns.of_forall fun k => ?_), hh, hf⟩
    simp only [updateFromWith, if_true, hsafe.slot_self, ok_bind]
    rw [Function.update_self] at hset
    exact hset
  · intro tl tr h0 hlt ihl ihr v tree hv h1 h2 hsafe hadd hfit hh
    have hm := le_mid h0 hlt.le
    have hm' := mid_lt h0 hlt
    -- the half without `idx` still holds the assigned array
    by_cases hidx : idx ≤ mid tl tr
    · obtain ⟨t₁, ht₁, hh₁, hf₁⟩ := ihl (2 * v) tree (by omega) h1 hidx (hsafe.of_left hlt) (hadd.of_left hlt)
        (hfit.left hlt) (hh.left hlt)
      have hother : Holds (Function.update a idx val) (2 * v + 1) (mid tl tr + 1) tr tree :=
        (hh.right hlt).assign_outside (by omega) (by omega) (Or.inl (by omega)) val
      have hr := hf₁.holds_right hv hother
      obtain ⟨t₃, ht₃, hh₃, hf₃⟩ := joinWith_spec hv hlt hsafe hadd hfit hh₁ hr (hf₁.of_left hlt)
      refine ⟨t₃, Returns.succ ?_, hh₃, hf₃⟩
      simp only [updateFromWith, if_neg hlt.ne, hsafe.midWith_eq hlt, hsafe.left_self hlt, if_pos hidx, ok_bind]
      exact ht₁.bind (Returns.of_forall fun _ => ht₃)
    · obtain ⟨t₁, ht₁, hh₁, hf₁⟩ := ihr (2 * v + 1) tree (by omega) (by omega) h2 (hsafe.of_right hlt)
        (hadd.of_right hlt) (hfit.right hlt) (hh.right hlt)
      have hother : Holds (Function.update a idx val) (2 * v) tl (mid tl tr) tree :=
        (hh.left hlt).assign_outside h0 hm (Or.inr (by omega)) val
      have hl := hf₁.holds_left hv hother
      obtain ⟨t₃, ht₃, hh₃, hf₃⟩ := joinWith_spec hv hlt hsafe hadd hfit hl hh₁ (hf₁.of_right hlt)
      refine ⟨t₃, Returns.succ ?_, hh₃, hf₃⟩
      simp only [updateFromWith, if_neg hlt.ne, hsafe.midWith_eq hlt, hsafe.rightWith_eq hlt, hsafe.next_self hlt,
        if_neg hidx, ok_bind]
      exact ht₁.bind (Returns.of_forall fun _ => ht₃)

/-- **Query.** With the subtree of `v` holding `a`, `query(v, tl, tr, l, r)` on a range within `[tl, tr]`, empty or
not, returns the sum of `a` over the range. -/
theorem queryFromWith_spec (o : Arith α) (a : ℤ → α) (tree : Vec α) {tl tr : ℤ} (h0 : 0 ≤ tl) (h : tl ≤ tr)
    (hadd : o.AddsRanges a tl tr) :
    ∀ v l r : ℤ, tl ≤ l → r ≤ tr → o.Safe v tl tr → Fits v tl tr tree → Holds a v tl tr tree →
      Returns (fun k => queryFromWith o tree k v tl tr l r) (∑ i ∈ Finset.Icc l r, a i) := by
  have hempty : ∀ v tl tr l r : ℤ, l > r →
      Returns (fun k => queryFromWith o tree k v tl tr l r) (∑ i ∈ Finset.Icc l r, a i) := by
    intro v tl tr l r hlr
    rw [Finset.Icc_eq_empty (by omega), Finset.sum_empty]
    exact Returns.succ (Returns.of_forall fun k => by simp only [queryFromWith, if_pos hlr])
  have hwhole : ∀ v tl tr : ℤ, tl ≤ tr → o.Safe v tl tr → Fits v tl tr tree → Holds a v tl tr tree →
      Returns (fun k => queryFromWith o tree k v tl tr tl tr) (∑ i ∈ Finset.Icc tl tr, a i) := by
    intro v tl tr hle hsafe hfit hh
    obtain ⟨b0, b1⟩ := hfit v tl tr (.self _ _ _)
    rw [← hh v tl tr (.self _ _ _)]
    refine Returns.succ (Returns.of_forall fun k => ?_)
    simp only [queryFromWith, if_neg (show ¬ tl > tr by omega), and_self, if_true, hsafe.slot_self, ok_bind]
    exact Vec.get_ok b0 b1
  refine halving (P := fun tl tr => o.AddsRanges a tl tr → ∀ v l r : ℤ, tl ≤ l → r ≤ tr → o.Safe v tl tr →
    Fits v tl tr tree → Holds a v tl tr tree →
    Returns (fun k => queryFromWith o tree k v tl tr l r) (∑ i ∈ Finset.Icc l r, a i)) ?_ ?_ h0 h hadd
  · intro i hi _ v l r hl hr hsafe hfit hh
    by_cases hlr : l > r
    · exact hempty v i i l r hlr
    · have hli : l = i := by omega
      have hri : r = i := by omega
      rw [hli, hri]
      exact hwhole v i i le_rfl hsafe hfit hh
  · intro tl tr h0 hlt ihl ihr hadd v l r hl hr hsafe hfit hh
    have hmid := le_mid h0 hlt.le
    have hmid' := mid_lt h0 hlt
    by_cases hlr : l > r
    · exact hempty v tl tr l r hlr
    by_cases hall : l = tl ∧ r = tr
    · obtain ⟨rfl, rfl⟩ := hall
      exact hwhole v l r hlt.le hsafe hfit hh
    -- the range clipped to either half is within that half, and the two sums add up
    have hq₁ := ihl (fun l r m hl hr => hadd l r m hl (hr.trans hmid'.le)) (2 * v) l (min r (mid tl tr)) hl
      (min_le_right _ _) (hsafe.of_left hlt) (hfit.left hlt) (hh.left hlt)
    have hq₂ := ihr (fun l r m hl hr => hadd l r m (by omega) hr) (2 * v + 1) (max l (mid tl tr + 1)) r (le_max_right _ _) hr
      (hsafe.of_right hlt) (hfit.right hlt) (hh.right hlt)
    apply Returns.succ
    simp only [queryFromWith, if_neg hlr, if_neg hall, hsafe.midWith_eq hlt, hsafe.left_self hlt,
      hsafe.rightWith_eq hlt, hsafe.next_self hlt, ok_bind]
    exact hq₁.bind (hq₂.bind (Returns.of_forall fun _ => hadd l r (mid tl tr) hl hr))

/-! ## Refinement of an array -/

/-- `st` represents the array with cells `a` at `[0, n)` -/
structure Represents (st : SegmentTree α) (n : ℤ) (a : ℤ → α) : Prop where
  pos : 0 < n
  n_eq : st.n = n
  size_eq : st.tree.size = 4 * n
  holds : Holds a 1 0 (n - 1) st.tree

theorem Represents.fits {st : SegmentTree α} {n : ℤ} {a : ℤ → α} (h : Represents st n a) :
    Fits 1 0 (n - 1) st.tree := fun w x y hb => by
  have := hb.lt_four_mul h.pos
  have := h.size_eq
  omega

/-- the constructor represents its argument and leaves the other slots zero -/
theorem newWith_spec (o : Arith α) (arr : Vec α) (hn : 0 < arr.size) (hsafe : o.SafeFor arr.size)
    (hadd : o.Adds arr.cell 1 0 (arr.size - 1)) :
    ∃ st, Returns (fun k => newWith o k arr) st ∧ Represents st arr.size arr.cell ∧
      Frame 1 0 (arr.size - 1) (Vec.zeros (4 * arr.size)) st.tree := by
  have hsize : (4 * (arr.size : ℤ)).toNat = 4 * arr.size := by omega
  have hfit : Fits 1 0 (arr.size - 1) (Vec.zeros (4 * arr.size) : Vec α) := fun w x y hb => by
    have := hb.lt_four_mul (n := arr.size) (by omega)
    simp only [Vec.zeros]
    omega
  obtain ⟨tree, ht, hh, hf⟩ :=
    buildWith_spec o arr le_rfl (show (0 : ℤ) ≤ arr.size - 1 by omega) 1 _ le_rfl (by omega) hsafe.below hadd hfit
  have htree : tree.size = 4 * arr.size := hf.size
  refine ⟨⟨arr.size, tree⟩, ?_, ⟨by omega, rfl, by simp [htree], hh⟩, hf⟩
  unfold newWith
  simp only [hsafe.size, hsafe.slots, hsafe.last, ok_bind, hsize]
  exact ht.bind (Returns.of_forall fun _ => rfl)

/-- `update(idx, val)` represents the assignment `a[idx] = val` and leaves the other slots alone -/
theorem updateWith_spec (o : Arith α) {st : SegmentTree α} {n : ℤ} {a : ℤ → α} (h : Represents st n a) {idx : ℤ}
    (h0 : 0 ≤ idx) (h1 : idx < n) (val : α) (hsafe : o.SafeFor n)
    (hadd : o.Adds (Function.update a idx val) 1 0 (n - 1)) :
    ∃ st', Returns (fun k => updateWith o k st idx val) st' ∧ Represents st' n (Function.update a idx val) ∧
      Frame 1 0 (n - 1) st.tree st'.tree := by
  have hpos := h.pos
  obtain ⟨tree, ht, hh, hf⟩ := updateFromWith_spec o a idx val le_rfl (show 0 ≤ n - 1 by omega) 1 st.tree le_rfl h0
    (by omega) hsafe.below hadd h.fits h.holds
  refine ⟨{ st with tree := tree }, ?_, ⟨hpos, h.n_eq, by rw [hf.size, h.size_eq], hh⟩, hf⟩
  unfold updateWith
  simp only [h.n_eq, hsafe.last, ok_bind]
  exact ht.bind (Returns.of_forall fun _ => rfl)

/-- `query(l, r)`, in either order of the bounds, is the sum over the inclusive range -/
theorem queryWith_spec (o : Arith α) {st : SegmentTree α} {n : ℤ} {a : ℤ → α} (hadd : o.AddsRanges a 0 (n - 1))
    (h : Represents st n a) (hsafe : o.SafeFor n) {l r : ℤ} (hl0 : 0 ≤ l) (hl1 : l < n) (hr0 : 0 ≤ r) (hr1 : r < n) :
    Returns (fun k => queryWith o k st l r) (∑ i ∈ Finset.Icc (min l r) (max l r), a i) := by
  have hpos := h.pos
  unfold queryWith
  by_cases hlr : l > r
  · rw [min_eq_right hlr.le, max_eq_left hlr.le]
    simp only [if_pos hlr, h.n_eq, hsafe.last, ok_bind]
    exact queryFromWith_spec o a st.tree le_rfl (by omega) hadd 1 r l hr0 (by omega) hsafe.below h.fits h.holds
  · rw [min_eq_left (by omega), max_eq_right (by omega)]
    simp only [if_neg hlr, h.n_eq, hsafe.last, ok_bind]
    exact queryFromWith_spec o a st.tree le_rfl (by omega) hadd 1 l r hl0 (by omega) hsafe.below h.fits h.holds

/-! ## The methods themselves -/

theorem new_spec (arr : Vec α) (hn : 0 < arr.size) :
    ∃ st, Returns (fun k => new k arr) st ∧ Represents st arr.size arr.cell ∧
      Frame 1 0 (arr.size - 1) (Vec.zeros (4 * arr.size)) st.tree := by
  obtain ⟨st, hst, h⟩ :=
    newWith_spec .exact arr hn .exact (.of_add (fun _ _ => rfl) le_rfl (show (0 : ℤ) ≤ arr.size - 1 by omega))
  exact ⟨st, hst.congr fun k => (newWith_exact k arr).symm, h⟩

theorem new_represents (arr : Vec α) (hn : 0 < arr.size) :
    ∃ st, Returns (fun k => new k arr) st ∧ Represents st arr.size arr.cell := by
  obtain ⟨st, hst, h, -⟩ := new_spec arr hn
  exact ⟨st, hst, h⟩

theorem update_spec {st : SegmentTree α} {n : ℤ} {a : ℤ → α} (h : Represents st n a) {idx : ℤ}
    (h0 : 0 ≤ idx) (h1 : idx < n) (val : α) :
    ∃ st', Returns (fun k => update k st idx val) st' ∧ Represents st' n (Function.update a idx val) ∧
      Frame 1 0 (n - 1) st.tree st'.tree := by
  obtain ⟨st', hst', h'⟩ :=
    updateWith_spec .exact h h0 h1 val .exact (.of_add (fun _ _ => rfl) le_rfl (show 0 ≤ n - 1 by omega))
  exact ⟨st', hst'.congr fun k => (updateWith_exact k st idx val).symm, h'⟩

theorem update_represents {st : SegmentTree α} {n : ℤ} {a : ℤ → α} (h : Represents st n a) {idx : ℤ}
    (h0 : 0 ≤ idx) (h1 : idx < n) (val : α) :
    ∃ st', Returns (fun k => update k st idx val) st' ∧ Represents st' n (Function.update a idx val) := by
  obtain ⟨st', hst', h', -⟩ := update_spec h h0 h1 val
  exact ⟨st', hst', h'⟩

theorem query_represents {st : SegmentTree α} {n : ℤ} {a : ℤ → α} (h : Represents st n a) {l r : ℤ}
    (hl0 : 0 ≤ l) (hl1 : l < n) (hr0 : 0 ≤ r) (hr1 : r < n) :
    Returns (fun k => query k st l r) (∑ i ∈ Finset.Icc (min l r) (max l r), a i) :=
  (queryWith_spec .exact (.of_add fun _ _ => rfl) h .exact hl0 hl1 hr0 hr1).congr fun k => (queryWith_exact k st l r).symm

/-- an array after a run of assignments, the first one first -/
def assign (a : ℤ → α) (ups : List (ℤ × α)) : ℤ → α := ups.foldl (fun a p => Function.update a p.1 p.2) a

/-- a run of `update` calls -/
def updates (k : ℕ) (st : SegmentTree α) (ups : List (ℤ × α)) : Exec (SegmentTree α) :=
  ups.foldlM (fun st p => update k st p.1 p.2) st

omit [AddCommMonoid α] in
/-- **A run of updates**, by any method: what relates the tree to the array before and after each update relates them
after the run. -/
theorem updates_run {P : SegmentTree α → (ℤ → α) → Prop} {upd : ℕ → SegmentTree α → ℤ → α → Exec (SegmentTree α)} {n : ℤ}
    (hupd : ∀ st a idx val, P st a → 0 ≤ idx → idx < n →
      ∃ st', Returns (fun k => upd k st idx val) st' ∧ P st' (Function.update a idx val))
    {st : SegmentTree α} {a : ℤ → α} (h : P st a) (ups : List (ℤ × α)) (hups : ∀ p ∈ ups, 0 ≤ p.1 ∧ p.1 < n) :
    ∃ st', Returns (fun k => ups.foldlM (fun st p => upd k st p.1 p.2) st) st' ∧ P st' (assign a ups) := by
  induction ups generalizing st a with
  | nil => exact ⟨st, Returns.foldlM_nil, h⟩
  | cons p ups ih =>
    obtain ⟨h0, h1⟩ := hups p List.mem_cons_self
    obtain ⟨st₁, hst₁, hrep₁⟩ := hupd st a p.1 p.2 h h0 h1
    obtain ⟨st₂, hst₂, hrep₂⟩ := ih hrep₁ fun q hq => hups q (List.mem_cons_of_mem _ hq)
    exact ⟨st₂, Returns.foldlM_cons hst₁ hst₂, hrep₂⟩

theorem updates_represents {st : SegmentTree α} {n : ℤ} {a : ℤ → α} (h : Represents st n a) (ups : List (ℤ × α))
    (hups : ∀ p ∈ ups, 0 ≤ p.1 ∧ p.1 < n) :
    ∃ st', Returns (fun k => updates k st ups) st' ∧ Represents st' n (assign a ups) :=
  updates_run (P := fun st a => Represents st n a) (fun _ _ _ val h h0 h1 => update_represents h h0 h1 val) h ups hups

end Spec

/-! ## Queries past the end -/

/-- the recursion never returns on a range that ends after `tr`: the right half has the same range end -/
theorem queryFrom_ne_ok {α : Type} [AddCommMonoid α] (tree : Vec α) (k : ℕ) :
    ∀ (v tl tr l r : ℤ) (a : α), 0 ≤ tl → 0 ≤ tr → tl ≤ tr + 1 → l ≤ r → tr < r →
      queryFrom tree k v tl tr l r ≠ .ok a := by
  induction k with
  | zero => intro v tl tr l r a _ _ _ _ _; simp [queryFrom]
  | succ k ih =>
    intro v tl tr l r a h0 h0' h hlr hr
    have hm : mid tl tr = (tl + tr) / 2 := Int.tdiv_eq_ediv_of_nonneg (by omega)
    have hright := fun b => ih (2 * v + 1) (mid tl tr + 1) tr (max l (mid tl tr + 1)) r b (by omega) h0'
      (by omega) (by omega) hr
    simp only [queryFrom, if_neg (show ¬ l > r by omega), if_neg (show ¬ (l = tl ∧ r = tr) by omega)]
    cases hq : queryFrom tree k (2 * v) tl (mid tl tr) l (min r (mid tl tr)) with
    | error e => simp
    | ok b =>
      cases hq' : queryFrom tree k (2 * v + 1) (mid tl tr + 1) tr (max l (mid tl tr + 1)) r with
      | error e => simp
      | ok c => exact absurd hq' (hright c)

/-- a query with a bound past the end never returns, with any fuel -/
theorem query_ne_ok {α : Type} [AddCommMonoid α] {st : SegmentTree α} {n : ℤ} {arr : ℤ → α}
    (h : Represents st n arr) {l r : ℤ} (hr : n ≤ max l r) (k : ℕ) (a : α) : query k st l r ≠ .ok a := by
  have hpos := h.pos
  by_cases hlr : l > r
  · rw [max_eq_left hlr.le] at hr
    simp only [query, if_pos hlr, h.n_eq]
    exact queryFrom_ne_ok _ _ _ _ _ _ _ _ le_rfl (by omega) (by omega) hlr.le (by omega)
  · rw [max_eq_right (by omega)] at hr
    simp only [query, if_neg hlr, h.n_eq]
    exact queryFrom_ne_ok _ _ _ _ _ _ _ _ le_rfl (by omega) (by omega) (by omega) (by omega)

/-! ## The main result -/

/-- **The segment tree refines an array.** Built from a non-empty array of integers and after any run of updates in
range, `query(l, r)` returns the sum of the current array over the inclusive range, whichever bound comes first. -/
theorem query_range_sum (arr : Vec ℤ) (hn : 0 < arr.size) (ups : List (ℤ × ℤ))
    (hups : ∀ p ∈ ups, 0 ≤ p.1 ∧ p.1 < arr.size) (l r : ℤ) (hl : 0 ≤ l ∧ l < arr.size)
    (hr : 0 ≤ r ∧ r < arr.size) :
    Returns (fun k => do
      let st ← new k arr
      let st ← updates k st ups
      query k st l r) (∑ i ∈ Finset.Icc (min l r) (max l r), assign arr.cell ups i) := by
  obtain ⟨st, hst, hrep⟩ := new_represents arr hn
  obtain ⟨st', hst', hrep'⟩ := updates_represents hrep ups hups
  exact hst.bind (hst'.bind (query_represents hrep' hl.1 hl.2 hr.1 hr.2))

/-- the run of `serial_st_test.cpp`: 1, 3, 5, 7, 9, 11, then `update(2, 6)` and `query(1, 3)` -/
theorem query_range_sum_six_cells :
    Returns (fun k => do
      let st ← new k ⟨6, fun i => 2 * i + 1⟩
      let st ← updates k st [(2, 6)]
      query k st 1 3) (16 : ℤ) := by
  have hsum : ∑ i ∈ Finset.Icc (min 1 3) (max 1 3), assign (fun i : ℤ => 2 * i + 1) [(2, 6)] i = 16 := by decide
  rw [← hsum]
  exact query_range_sum ⟨6, fun i => 2 * i + 1⟩ (by decide) [(2, 6)] (by simp) 1 3 (by decide) (by decide)

end HeavyLight.SegmentTree
