/-
The work-stealing deque of `parlay/internal/work_stealing_deque.h`: one owner and any number of thieves, with the atomic
accesses of all of them in one total order.

- `Owner`, `Thief`: the places in `push_bottom`, `pop_bottom` and `pop_top`, one before each access to shared memory.
  `WorkDeque.step` makes the next access of one of them. An access outside `deq` is a fault.
- `Age.tag` counts the resets of the queue and never wraps around; the machine has its low 32 bits, which is all that
  `compare_exchange_strong` compares. `NoWrap`: fewer than 2^32 resets since the load of `age` in a pending `pop_top`.
- `DequeSpec`: the operations on the list of jobs, from the top to the bottom. `content`: the list that a state stands for.
- `step_spec`: each step is an operation on the list or leaves it as it is. `deque_refines`: so is every run.
- `deque_jobs`: in every run each job that is pushed is taken once or still there.
- `tag_wraps`: without `NoWrap` this fails: a run in which a job is taken twice, and one push of another job is lost.
-/
import HeavyLight.Machines

namespace HeavyLight

/-! ## The queue -/

structure Age where
  tag : ℕ
  top : ℕ
deriving DecidableEq, Repr

/-- what `compare_exchange_strong` compares -/
def Age.Same (a b : Age) : Prop := a.tag % 2 ^ 32 = b.tag % 2 ^ 32 ∧ a.top = b.top

instance (a b : Age) : Decidable (a.Same b) := inferInstanceAs (Decidable (_ ∧ _))

def qSize : ℕ := 1000

/-- the next access of the owner -/
inductive Owner (J : Type) where
  | idle
  /-- `push_bottom`: `bot.load` -/
  | push (job : J)
  /-- `deq[local_bot].job.store` -/
  | store (job : J) (localBot : ℕ)
  /-- `bot.store` -/
  | publish (job : J) (localBot : ℕ)
  /-- `pop_bottom`: `bot.load` -/
  | pop
  /-- `bot.store(local_bot)` -/
  | lower (localBot : ℕ)
  /-- `deq[local_bot].job.load` -/
  | read (localBot : ℕ)
  /-- `age.load` -/
  | look (localBot : ℕ) (job : J)
  /-- `bot.store(0)` -/
  | clear (localBot : ℕ) (job : J) (oldAge : Age)
  /-- `age.compare_exchange_strong` -/
  | swap (localBot : ℕ) (job : J) (oldAge : Age)
  /-- `age.store(new_age)` -/
  | reset (newAge : Age)
  | aborted
  | fault

/-- the next access of a thief in `pop_top` -/
inductive Thief (J : Type) where
  | idle
  /-- `age.load` -/
  | start
  /-- `bot.load` -/
  | seen (oldAge : Age)
  /-- `deq[old_age.top].job.load` -/
  | read (oldAge : Age) (localBot : ℕ)
  /-- `age.compare_exchange_strong` -/
  | swap (oldAge : Age) (localBot : ℕ) (job : J)
  | fault

/-- the shared memory, and the places of the owner and the thieves -/
structure WorkDeque (ι J : Type) where
  bot : ℕ
  age : Age
  deq : ℕ → J
  owner : Owner J
  thief : ι → Thief J

/-- a finished operation with its result -/
inductive DequeOp (J : Type) where
  | push (job : J) (first : Bool)
  | popBottom (result : Option J)
  | popTop (result : Option J) (empty : Bool)
deriving DecidableEq

/-- a call by the owner or a thief, or the next step of one of them -/
inductive DequeMove (ι J : Type) where
  | push (job : J)
  | pop
  | owner
  | popTop (i : ι)
  | thief (i : ι)

/-- the operations on the list of jobs from the top to the bottom; `pop_top` may fail in any state -/
inductive DequeSpec {J : Type} : List J → DequeOp J → List J → Prop where
  | push {c : List J} {job : J} {first : Bool} (h : first = true → c = []) : DequeSpec c (.push job first) (c ++ [job])
  | popBottom {c : List J} {job : J} : DequeSpec (c ++ [job]) (.popBottom (some job)) c
  | popBottomEmpty : DequeSpec [] (.popBottom none) []
  | popTop {c : List J} {job : J} {empty : Bool} : DequeSpec (job :: c) (.popTop (some job) empty) c
  | popTopNone {c : List J} {empty : Bool} : DequeSpec c (.popTop none empty) c

namespace WorkDeque

variable {ι J : Type}

/-- the next step of the owner -/
def ownerStep (s : WorkDeque ι J) : WorkDeque ι J × Option (DequeOp J) :=
  match s.owner with
  | .idle => (s, none)
  | .push job => ({ s with owner := .store job s.bot }, none)
  | .store job b =>
    if b < qSize then ({ s with deq := Function.update s.deq b job, owner := .publish job b }, none)
    else ({ s with owner := .fault }, none)
  | .publish job b =>
    if b + 1 = qSize then ({ s with owner := .aborted }, none)
    else ({ s with bot := b + 1, owner := .idle }, some (.push job (b + 1 = 1)))
  | .pop =>
    if s.bot ≠ 0 then ({ s with owner := .lower (s.bot - 1) }, none)
    else ({ s with owner := .idle }, some (.popBottom none))
  | .lower b => ({ s with bot := b, owner := .read b }, none)
  | .read b =>
    if b < qSize then ({ s with owner := .look b (s.deq b) }, none) else ({ s with owner := .fault }, none)
  | .look b job =>
    if s.age.top < b then ({ s with owner := .idle }, some (.popBottom (some job)))
    else ({ s with owner := .clear b job s.age }, none)
  | .clear b job old => ({ s with bot := 0, owner := .swap b job old }, none)
  | .swap b job old =>
    if b = old.top ∧ s.age.Same old then
      ({ s with age := ⟨old.tag + 1, 0⟩, owner := .idle }, some (.popBottom (some job)))
    else ({ s with owner := .reset ⟨old.tag + 1, 0⟩ }, none)
  | .reset new => ({ s with age := new, owner := .idle }, some (.popBottom none))
  | .aborted => (s, none)
  | .fault => (s, none)

/-- the thief `i` goes to another place -/
def setThief [DecidableEq ι] (s : WorkDeque ι J) (i : ι) (p : Thief J) : WorkDeque ι J :=
  { s with thief := Function.update s.thief i p }

/-- the next step of the thief `i`; a failed exchange leaves the age it found in `old_age` -/
def thiefStep [DecidableEq ι] (s : WorkDeque ι J) (i : ι) : WorkDeque ι J × Option (DequeOp J) :=
  match s.thief i with
  | .idle => (s, none)
  | .start => (s.setThief i (.seen s.age), none)
  | .seen old =>
    if old.top < s.bot then (s.setThief i (.read old s.bot), none)
    else (s.setThief i .idle, some (.popTop none true))
  | .read old b =>
    if old.top < qSize then (s.setThief i (.swap old b (s.deq old.top)), none) else (s.setThief i .fault, none)
  | .swap old b job =>
    -- the low 32 bits of the tag are those of `old`
    if s.age.Same old then
      ({ s with age := ⟨s.age.tag, old.top + 1⟩ }.setThief i .idle, some (.popTop (some job) (b = old.top + 1)))
    else (s.setThief i .idle, some (.popTop none (b = s.age.top + 1)))
  | .fault => (s, none)

/-- one move; a call is made by an idle thread only -/
def step [DecidableEq ι] (s : WorkDeque ι J) : DequeMove ι J → WorkDeque ι J × Option (DequeOp J)
  | .push job =>
    match s.owner with
    | .idle => ({ s with owner := .push job }, none)
    | _ => (s, none)
  | .pop =>
    match s.owner with
    | .idle => ({ s with owner := .pop }, none)
    | _ => (s, none)
  | .owner => s.ownerStep
  | .popTop i =>
    match s.thief i with
    | .idle => (s.setThief i .start, none)
    | _ => (s, none)
  | .thief i => s.thiefStep i

/-- the queue that `Deque()` leaves, with any contents of `deq` -/
def empty (deq : ℕ → J) : WorkDeque ι J := ⟨0, ⟨0, 0⟩, deq, .idle, fun _ => .idle⟩

/-! ## The list of jobs -/

/-- one past the last job: `pop_bottom` has lowered `bot` before it takes the job -/
def logicalBot (s : WorkDeque ι J) : ℕ :=
  match s.owner with
  | .lower b => b + 1
  | .read b => b + 1
  | .look b _ => b + 1
  | .clear b _ _ => b + 1
  | .swap b _ _ => b + 1
  | .reset _ => s.age.top
  | _ => s.bot

/-- the jobs in the cells from `top` up to `bot` -/
def jobs (deq : ℕ → J) (top bot : ℕ) : List J := (List.range' top (bot - top)).map deq

/-- the jobs in the queue -/
def content (s : WorkDeque ι J) : List J := jobs s.deq s.age.top s.logicalBot

section Jobs

variable {deq deq' : ℕ → J} {top bot : ℕ}

theorem jobs_congr (h : ∀ x, x < bot → deq' x = deq x) : jobs deq' top bot = jobs deq top bot := by
  refine List.map_congr_left fun x hx => h x ?_
  rw [List.mem_range'_1] at hx
  omega

theorem jobs_nil (h : bot ≤ top) : jobs deq top bot = [] := by
  rw [jobs, Nat.sub_eq_zero_of_le h]
  rfl

theorem jobs_succ (h : top ≤ bot) : jobs deq top (bot + 1) = jobs deq top bot ++ [deq bot] := by
  obtain ⟨m, rfl⟩ := Nat.exists_eq_add_of_le h
  rw [jobs, jobs, Nat.add_assoc, Nat.add_sub_cancel_left, Nat.add_sub_cancel_left, List.range'_concat, List.map_append]
  simp

theorem jobs_top (h : top < bot) : jobs deq top bot = deq top :: jobs deq (top + 1) bot := by
  obtain ⟨m, rfl⟩ := Nat.exists_eq_add_of_lt h
  rw [jobs, jobs, show top + m + 1 - top = m + 1 by omega, show top + m + 1 - (top + 1) = m by omega, List.range'_succ,
    List.map_cons]

end Jobs

variable {s s' : WorkDeque ι J} {i : ι} {old now : Age} {b : ℕ} {job : J}

/-! ## The invariant -/

/-- what the owner knows at its place -/
def OwnerPlace (s : WorkDeque ι J) : Prop :=
  match s.owner with
  | .store _ b => b = s.bot
  | .publish job b => b = s.bot ∧ s.deq b = job
  | .lower b => s.bot = b + 1
  | .read b => s.bot = b
  | .look b job => s.bot = b ∧ job = s.deq b
  | .clear b job old => job = s.deq b ∧ b ≤ old.top ∧ old.top ≤ s.age.top ∧ old.tag = s.age.tag
  | .swap b job old => s.bot = 0 ∧ job = s.deq b ∧ b ≤ old.top ∧ old.top ≤ s.age.top ∧ old.tag = s.age.tag
  | .reset new => s.bot = 0 ∧ new = ⟨s.age.tag + 1, 0⟩
  | .fault => False
  | _ => True

structure OwnerInv (s : WorkDeque ι J) : Prop where
  top_le : s.age.top ≤ s.logicalBot
  bot_le : s.bot ≤ s.logicalBot
  small : s.logicalBot < qSize
  place : s.OwnerPlace

end WorkDeque

/-- ages are in the order of time -/
def Age.Le (old now : Age) : Prop := old.tag < now.tag ∨ (old.tag = now.tag ∧ old.top ≤ now.top)

namespace Age

variable {a b c : Age}

theorem Le.refl (a : Age) : a.Le a := Or.inr ⟨rfl, le_rfl⟩

theorem Le.trans (h : a.Le b) (h' : b.Le c) : a.Le c := by
  unfold Le at *
  omega

theorem Le.antisymm (h : a.Le b) (h' : b.Le a) : a = b := by
  obtain ⟨t, p⟩ := a
  obtain ⟨u, q⟩ := b
  simp only [Le, Age.mk.injEq] at *
  omega

/-- with fewer than 2^32 resets in between, the exchange compares the ages themselves -/
theorem Same.eq (h : b.Same a) (hle : a.Le b) (hwrap : b.tag < a.tag + 2 ^ 32) : b = a := by
  obtain ⟨t, p⟩ := a
  obtain ⟨u, q⟩ := b
  simp only [Same, Le, Age.mk.injEq] at *
  omega

end Age

namespace WorkDeque

variable {ι J : Type} {s s' : WorkDeque ι J} {i : ι} {old now : Age} {b : ℕ} {job : J} {p : Thief J}

/-- what a thief knows at its place: while `age` is what it has loaded, the job it has read is the top one -/
def ThiefOk (s : WorkDeque ι J) : Thief J → Prop
  | .seen old => old.Le s.age
  | .read old _ => old.Le s.age ∧ old.top < qSize ∧ (old = s.age → s.age.top < s.logicalBot)
  | .swap old _ job => old.Le s.age ∧ (old = s.age → s.age.top < s.logicalBot ∧ job = s.deq s.age.top)
  | .fault => False
  | _ => True

structure Inv (s : WorkDeque ι J) : Prop where
  owner : s.OwnerInv
  thief : ∀ i, s.ThiefOk (s.thief i)

/-- no access is outside `deq` -/
theorem Inv.no_fault (h : s.Inv) : s.owner ≠ .fault ∧ ∀ i, s.thief i ≠ .fault := by
  refine ⟨fun ho => ?_, fun i hi => ?_⟩
  · have hplace := h.owner.place
    simp only [OwnerPlace, ho] at hplace
  · have hthief := h.thief i
    rw [hi] at hthief
    exact hthief

/-- fewer than 2^32 resets since a thief that comes to its exchange has loaded `age` -/
def NoWrap (s : WorkDeque ι J) : Prop :=
  ∀ i old b job, s.thief i = .swap old b job → s.age.tag < old.tag + 2 ^ 32

theorem noWrap_of_tag (h : s.age.tag < 2 ^ 32) : s.NoWrap := fun _ _ _ _ _ => h.trans_le (Nat.le_add_left _ _)

/-- a step that the thieves need not notice -/
structure Advance (s s' : WorkDeque ι J) : Prop where
  age : s.age.Le s'.age
  top : s'.age = s.age → s.age.top < s.logicalBot → s.age.top < s'.logicalBot ∧ s'.deq s.age.top = s.deq s.age.top

theorem ThiefOk.advance (h : s.ThiefOk p) (ha : Advance s s') : s'.ThiefOk p := by
  -- an old age that is the new one has been the age all along
  have hback : ∀ old : Age, old.Le s.age → old = s'.age → s'.age = s.age := by
    intro old hle he
    exact (ha.age.antisymm (he ▸ hle)).symm
  cases p with
  | seen old => exact Age.Le.trans h ha.age
  | read old b =>
    obtain ⟨hle, hsmall, htop⟩ := h
    refine ⟨hle.trans ha.age, hsmall, fun he => ?_⟩
    have hage := hback old hle he
    rw [hage]
    exact (ha.top hage (htop (he.trans hage))).1
  | swap old b job =>
    obtain ⟨hle, htop⟩ := h
    refine ⟨hle.trans ha.age, fun he => ?_⟩
    have hage := hback old hle he
    obtain ⟨hlt, hjob⟩ := htop (he.trans hage)
    obtain ⟨hlt', hdeq⟩ := ha.top hage hlt
    rw [hage]
    exact ⟨hlt', hjob.trans hdeq.symm⟩
  | idle => trivial
  | start => trivial
  | fault => exact h

/-! ## Steps of the owner -/

/-- a step of the owner -/
structure OwnerStepOk (s : WorkDeque ι J) (r : WorkDeque ι J × Option (DequeOp J)) : Prop where
  inv : r.1.OwnerInv
  advance : Advance s r.1
  thief : r.1.thief = s.thief
  reports : Reports DequeSpec s.content r.2 r.1.content

/-- a step that changes no job in the queue -/
theorem OwnerStepOk.quiet (h : s.OwnerInv) (hthief : s'.thief = s.thief) (hage : s'.age = s.age)
    (hlast : s'.logicalBot = s.logicalBot) (hbot : s'.bot ≤ s.logicalBot)
    (hdeq : ∀ x, x < s.logicalBot → s'.deq x = s.deq x) (hplace : s'.OwnerPlace) : OwnerStepOk s (s', none) := by
  refine ⟨⟨?_, hlast ▸ hbot, hlast ▸ h.small, hplace⟩, ⟨?_, fun _ hlt => ⟨hlast ▸ hlt, hdeq _ hlt⟩⟩, hthief, ?_⟩
  · rw [hage, hlast]
    exact h.top_le
  · rw [hage]
    exact .refl _
  · show s'.content = s.content
    rw [content, content, hage, hlast]
    exact jobs_congr hdeq

/-- **One step of the owner.** -/
theorem ownerStep_spec (h : s.OwnerInv) : OwnerStepOk s s.ownerStep := by
  have htop := h.top_le
  have hbot := h.bot_le
  have hsmall := h.small
  have hplace := h.place
  cases ho : s.owner with
  | idle =>
    rw [ownerStep, ho]
    exact .quiet h rfl rfl rfl hbot (fun _ _ => rfl) hplace
  | push job =>
    rw [ownerStep, ho]
    refine .quiet h rfl rfl ?_ hbot (fun _ _ => rfl) rfl
    simp only [logicalBot, ho]
  | store job b =>
    simp only [OwnerPlace, logicalBot, ho] at hplace hsmall
    have hb : b < qSize := hplace ▸ hsmall
    rw [ownerStep, ho]
    simp only [if_pos hb]
    refine .quiet h rfl rfl ?_ hbot (fun x hx => ?_) ?_
    · simp only [logicalBot, ho]
    · simp only [logicalBot, ho] at hx
      exact Function.update_of_ne (by omega) _ _
    · exact ⟨hplace, Function.update_self _ _ _⟩
  | publish job b =>
    simp only [OwnerPlace, logicalBot, ho] at hplace hsmall htop
    obtain ⟨rfl, hjob⟩ := hplace
    rw [ownerStep, ho]
    by_cases hfull : s.bot + 1 = qSize
    · simp only [if_pos hfull]
      refine .quiet h rfl rfl ?_ hbot (fun _ _ => rfl) trivial
      simp only [logicalBot, ho]
    · simp only [if_neg hfull]
      have hlast : s.logicalBot = s.bot := by simp only [logicalBot, ho]
      refine ⟨⟨?_, le_rfl, ?_, trivial⟩, ⟨.refl _, fun _ hlt => ⟨?_, rfl⟩⟩, rfl, ?_⟩
      · exact htop.trans (Nat.le_succ _)
      · show s.bot + 1 < qSize
        omega
      · rw [hlast] at hlt
        exact hlt.trans (Nat.lt_succ_self _)
      · have hcontent : jobs s.deq s.age.top (s.bot + 1) = s.content ++ [job] := by
          rw [content, hlast, jobs_succ htop, hjob]
        show DequeSpec s.content (.push job (decide (s.bot + 1 = 1))) (jobs s.deq s.age.top (s.bot + 1))
        rw [hcontent]
        refine .push fun hfirst => ?_
        have hzero : s.bot + 1 = 1 := of_decide_eq_true hfirst
        rw [content, hlast]
        exact jobs_nil (by omega)
  | pop =>
    rw [ownerStep, ho]
    by_cases hzero : s.bot ≠ 0
    · simp only [if_pos hzero]
      have hlast : s.bot - 1 + 1 = s.logicalBot := by
        simp only [logicalBot, ho]
        omega
      refine .quiet h rfl rfl hlast hbot (fun _ _ => rfl) ?_
      show s.bot = s.bot - 1 + 1
      omega
    · simp only [if_neg hzero]
      have hlast : s.logicalBot = s.bot := by simp only [logicalBot, ho]
      refine ⟨⟨hlast ▸ htop, le_rfl, hlast ▸ hsmall, trivial⟩, ⟨.refl _, fun _ hlt => ⟨hlast ▸ hlt, rfl⟩⟩, rfl, ?_⟩
      have hnil : s.content = [] := by
        rw [content, hlast]
        exact jobs_nil (by omega)
      have hnil' : jobs s.deq s.age.top s.bot = [] := jobs_nil (by omega)
      show DequeSpec s.content (.popBottom none) (jobs s.deq s.age.top s.bot)
      rw [hnil, hnil']
      exact .popBottomEmpty
  | lower b =>
    rw [ownerStep, ho]
    have hlast : s.logicalBot = b + 1 := by simp only [logicalBot, ho]
    refine .quiet h rfl rfl hlast.symm ?_ (fun _ _ => rfl) rfl
    show b ≤ s.logicalBot
    omega
  | read b =>
    have hlast : s.logicalBot = b + 1 := by simp only [logicalBot, ho]
    simp only [OwnerPlace, ho] at hplace
    have hb : b < qSize := by omega
    rw [ownerStep, ho]
    simp only [if_pos hb]
    exact .quiet h rfl rfl hlast.symm hbot (fun _ _ => rfl) ⟨hplace, rfl⟩
  | look b job =>
    have hlast : s.logicalBot = b + 1 := by simp only [logicalBot, ho]
    simp only [OwnerPlace, ho] at hplace
    obtain ⟨rfl, hjob⟩ := hplace
    rw [ownerStep, ho]
    by_cases hlt : s.age.top < s.bot
    · simp only [if_pos hlt]
      refine ⟨⟨hlt.le, le_rfl, ?_, trivial⟩, ⟨.refl _, fun _ _ => ⟨hlt, rfl⟩⟩, rfl, ?_⟩
      · show s.bot < qSize
        omega
      · have hcontent : s.content = jobs s.deq s.age.top s.bot ++ [job] := by
          rw [content, hlast, jobs_succ hlt.le, hjob]
        show DequeSpec s.content (.popBottom (some job)) (jobs s.deq s.age.top s.bot)
        rw [hcontent]
        exact .popBottom
    · simp only [if_neg hlt]
      exact .quiet h rfl rfl hlast.symm hbot (fun _ _ => rfl) ⟨hjob, not_lt.1 hlt, le_rfl, rfl⟩
  | clear b job old =>
    have hlast : s.logicalBot = b + 1 := by simp only [logicalBot, ho]
    simp only [OwnerPlace, ho] at hplace
    rw [ownerStep, ho]
    exact .quiet h rfl rfl hlast.symm (Nat.zero_le _) (fun _ _ => rfl) ⟨rfl, hplace⟩
  | swap b job old =>
    have hlast : s.logicalBot = b + 1 := by simp only [logicalBot, ho]
    simp only [OwnerPlace, ho] at hplace
    obtain ⟨hzero, hjob, hle, hle', htag⟩ := hplace
    rw [ownerStep, ho]
    by_cases hswap : b = old.top ∧ s.age.Same old
    · -- the last job is still there
      simp only [if_pos hswap]
      have heq : s.age.top = b := hswap.2.2.trans hswap.1.symm
      refine ⟨⟨Nat.zero_le _, Nat.le_of_eq rfl, ?_, trivial⟩, ⟨Or.inl ?_, fun hage => ?_⟩, rfl, ?_⟩
      · show s.bot < qSize
        omega
      · show s.age.tag < old.tag + 1
        omega
      · have htag' : old.tag + 1 = s.age.tag := congrArg Age.tag hage
        omega
      · have hcontent : s.content = [] ++ [job] := by
          rw [content, hlast, heq, jobs_succ le_rfl, jobs_nil le_rfl, hjob]
        have hnil : jobs s.deq 0 s.bot = [] := jobs_nil (by omega)
        show DequeSpec s.content (.popBottom (some job)) (jobs s.deq 0 s.bot)
        rw [hcontent, hnil]
        exact .popBottom
    · -- a thief has taken it
      simp only [if_neg hswap]
      have heq : s.age.top = b + 1 := by
        by_contra hne
        exact hswap ⟨by omega, ⟨by rw [htag], by omega⟩⟩
      refine .quiet h rfl rfl (heq.trans hlast.symm) hbot (fun _ _ => rfl) ⟨hzero, ?_⟩
      rw [htag]
  | reset new =>
    have hlast : s.logicalBot = s.age.top := by simp only [logicalBot, ho]
    simp only [OwnerPlace, ho] at hplace
    obtain ⟨hzero, rfl⟩ := hplace
    rw [ownerStep, ho]
    refine ⟨⟨Nat.zero_le _, Nat.le_of_eq rfl, ?_, trivial⟩, ⟨Or.inl (Nat.lt_succ_self _), fun hage => ?_⟩, rfl, ?_⟩
    · show s.bot < qSize
      omega
    · have htag : s.age.tag + 1 = s.age.tag := congrArg Age.tag hage
      omega
    · have hnil : s.content = [] := by
        rw [content, hlast]
        exact jobs_nil le_rfl
      have hnil' : jobs s.deq 0 s.bot = [] := jobs_nil (by omega)
      show DequeSpec s.content (.popBottom none) (jobs s.deq 0 s.bot)
      rw [hnil, hnil']
      exact .popBottomEmpty
  | aborted =>
    rw [ownerStep, ho]
    exact .quiet h rfl rfl rfl hbot (fun _ _ => rfl) hplace
  | fault =>
    simp only [OwnerPlace, ho] at hplace

/-! ## Steps of the thieves -/

/-- the queue after the top job has been taken -/
def dropTop (s : WorkDeque ι J) : WorkDeque ι J := { s with age := ⟨s.age.tag, s.age.top + 1⟩ }

theorem logicalBot_dropTop (hlt : s.age.top < s.logicalBot) : s.dropTop.logicalBot = s.logicalBot := by
  cases ho : s.owner with
  | reset new =>
    simp only [logicalBot, ho] at hlt
    omega
  | _ => simp only [logicalBot, dropTop, ho]

theorem place_dropTop (h : s.OwnerInv) (hlt : s.age.top < s.logicalBot) : s.dropTop.OwnerPlace := by
  have hplace := h.place
  cases ho : s.owner with
  | clear b job old =>
    simp only [OwnerPlace, ho] at hplace
    simp only [OwnerPlace, dropTop, ho]
    exact ⟨hplace.1, hplace.2.1, hplace.2.2.1.trans (Nat.le_succ _), hplace.2.2.2⟩
  | swap b job old =>
    simp only [OwnerPlace, ho] at hplace
    simp only [OwnerPlace, dropTop, ho]
    exact ⟨hplace.1, hplace.2.1, hplace.2.2.1, hplace.2.2.2.1.trans (Nat.le_succ _), hplace.2.2.2.2⟩
  | reset new =>
    simp only [logicalBot, ho] at hlt
    omega
  | store job b =>
    simp only [OwnerPlace, ho] at hplace
    simp only [OwnerPlace, dropTop, ho]
    exact hplace
  | publish job b =>
    simp only [OwnerPlace, ho] at hplace
    simp only [OwnerPlace, dropTop, ho]
    exact hplace
  | lower b =>
    simp only [OwnerPlace, ho] at hplace
    simp only [OwnerPlace, dropTop, ho]
    exact hplace
  | read b =>
    simp only [OwnerPlace, ho] at hplace
    simp only [OwnerPlace, dropTop, ho]
    exact hplace
  | look b job =>
    simp only [OwnerPlace, ho] at hplace
    simp only [OwnerPlace, dropTop, ho]
    exact hplace
  | fault => simp only [OwnerPlace, ho] at hplace
  | _ => simp only [OwnerPlace, dropTop, ho]

theorem Inv.dropTop (h : s.Inv) (hlt : s.age.top < s.logicalBot) : s.dropTop.Inv := by
  have hlast := logicalBot_dropTop hlt
  refine ⟨⟨hlast ▸ hlt, hlast ▸ h.owner.bot_le, hlast ▸ h.owner.small, place_dropTop h.owner hlt⟩, fun j => ?_⟩
  refine (h.thief j).advance ⟨Or.inr ⟨rfl, Nat.le_succ _⟩, fun hage => ?_⟩
  have htop : s.age.top + 1 = s.age.top := congrArg Age.top hage
  omega

/-- a step of the owner keeps the invariant of the thieves too -/
theorem OwnerStepOk.step {r : WorkDeque ι J × Option (DequeOp J)} (hr : OwnerStepOk s r) (h : s.Inv) :
    r.1.Inv ∧ Reports DequeSpec s.content r.2 r.1.content := by
  refine ⟨⟨hr.inv, fun i => ?_⟩, hr.reports⟩
  rw [hr.thief]
  exact (h.thief i).advance hr.advance

theorem inv_empty (deq : ℕ → J) : (empty deq : WorkDeque ι J).Inv :=
  ⟨⟨le_rfl, le_rfl, show 0 < 1000 by omega, trivial⟩, fun _ => trivial⟩

section Thieves

variable [DecidableEq ι]

theorem thief_setThief_self (s : WorkDeque ι J) (i : ι) (p : Thief J) : (s.setThief i p).thief i = p :=
  Function.update_self _ _ _

theorem thief_setThief_other (s : WorkDeque ι J) {i j : ι} (hj : j ≠ i) (p : Thief J) :
    (s.setThief i p).thief j = s.thief j := Function.update_of_ne hj _ _

/-- a thief that goes to a place at which it knows what it should -/
theorem Inv.setThief (h : s.Inv) (hp : s.ThiefOk p) : (s.setThief i p).Inv := by
  have hadvance : Advance s (s.setThief i p) := ⟨.refl _, fun _ hlt => ⟨hlt, rfl⟩⟩
  refine ⟨⟨h.owner.top_le, h.owner.bot_le, h.owner.small, h.owner.place⟩, fun j => ?_⟩
  by_cases hj : j = i
  · rw [hj, thief_setThief_self]
    exact hp.advance hadvance
  · rw [thief_setThief_other s hj]
    exact (h.thief j).advance hadvance

/-- **One step of a thief.** -/
theorem thiefStep_spec (h : s.Inv) (hwrap : s.NoWrap) (i : ι) :
    (s.thiefStep i).1.Inv ∧ Reports DequeSpec s.content (s.thiefStep i).2 (s.thiefStep i).1.content := by
  have hi := h.thief i
  cases hp : s.thief i with
  | idle =>
    rw [thiefStep, hp]
    exact ⟨h, rfl⟩
  | start =>
    rw [thiefStep, hp]
    exact ⟨h.setThief (Age.Le.refl _), rfl⟩
  | seen old =>
    rw [hp] at hi
    rw [thiefStep, hp]
    by_cases hlt : old.top < s.bot
    · simp only [if_pos hlt]
      have hbot := h.owner.bot_le
      have hsmall := h.owner.small
      refine ⟨h.setThief ⟨hi, by omega, ?_⟩, rfl⟩
      rintro rfl
      omega
    · simp only [if_neg hlt]
      exact ⟨h.setThief trivial, .popTopNone⟩
  | read old b =>
    rw [hp] at hi
    obtain ⟨hle, hsmall, htop⟩ := hi
    rw [thiefStep, hp]
    simp only [if_pos hsmall]
    refine ⟨h.setThief ⟨hle, ?_⟩, rfl⟩
    rintro rfl
    exact ⟨htop rfl, rfl⟩
  | swap old b job =>
    rw [hp] at hi
    obtain ⟨hle, htop⟩ := hi
    rw [thiefStep, hp]
    by_cases hsame : s.age.Same old
    · have hage : old = s.age := (hsame.eq hle (hwrap i old b job hp)).symm
      obtain ⟨hlt, hjob⟩ := htop hage
      simp only [if_pos hsame]
      subst hage
      refine ⟨(h.dropTop hlt).setThief trivial, ?_⟩
      have hcontent : s.content = job :: s.dropTop.content := by
        rw [content, content, logicalBot_dropTop hlt, jobs_top hlt, hjob]
        rfl
      show DequeSpec s.content (.popTop (some job) _) s.dropTop.content
      rw [hcontent]
      exact .popTop
    · simp only [if_neg hsame]
      exact ⟨h.setThief trivial, .popTopNone⟩
  | fault =>
    rw [hp] at hi
    exact hi.elim

/-! ## Runs -/

/-- **One move.** -/
theorem step_spec (h : s.Inv) (hwrap : s.NoWrap) (m : DequeMove ι J) :
    (s.step m).1.Inv ∧ Reports DequeSpec s.content (s.step m).2 (s.step m).1.content := by
  have hbot := h.owner.bot_le
  cases m with
  | push job =>
    cases ho : s.owner with
    | idle =>
      have hlast : s.logicalBot = s.bot := by simp only [logicalBot, ho]
      simp only [step, ho]
      have hquiet : OwnerStepOk s ({ s with owner := .push job }, none) :=
        .quiet h.owner rfl rfl hlast.symm hbot (fun _ _ => rfl) trivial
      exact hquiet.step h
    | _ =>
      simp only [step, ho]
      exact ⟨h, rfl⟩
  | pop =>
    cases ho : s.owner with
    | idle =>
      have hlast : s.logicalBot = s.bot := by simp only [logicalBot, ho]
      simp only [step, ho]
      have hquiet : OwnerStepOk s ({ s with owner := .pop }, none) :=
        .quiet h.owner rfl rfl hlast.symm hbot (fun _ _ => rfl) trivial
      exact hquiet.step h
    | _ =>
      simp only [step, ho]
      exact ⟨h, rfl⟩
  | owner => exact (ownerStep_spec h.owner).step h
  | popTop i =>
    cases hp : s.thief i with
    | idle =>
      simp only [step, hp]
      exact ⟨h.setThief trivial, rfl⟩
    | _ =>
      simp only [step, hp]
      exact ⟨h, rfl⟩
  | thief i => exact thiefStep_spec h hwrap i

theorem run_inv (deq : ℕ → J) (ms : List (DequeMove ι J)) (h : Along step NoWrap (empty deq) ms) :
    (runMoves step (empty deq) ms).1.Inv :=
  run_invariant (I := Inv) (p := NoWrap) (fun _ m hs hwrap => (step_spec hs hwrap m).1) ms (inv_empty deq) h

theorem run_spec (deq : ℕ → J) (ms : List (DequeMove ι J)) (h : Along step NoWrap (empty deq) ms) :
    SpecRun DequeSpec [] (runMoves step (empty deq) ms).2 (runMoves step (empty deq) ms).1.content :=
  run_refines (fun _ m hs hwrap => (step_spec hs hwrap m).1) (fun _ m hs hwrap => (step_spec hs hwrap m).2) ms
    (inv_empty deq) h

/-- **The deque.** Every run from an empty queue is one of operations on the list of jobs, each made by the last access of
its call: `push_bottom` and `pop_bottom` work at the end of the list and `pop_top` at its front, and `pop_bottom` fails on
the empty list only. No access is outside `deq`. -/
theorem deque_refines (deq : ℕ → J) (ms : List (DequeMove ι J)) (h : Along step NoWrap (empty deq) ms) :
    SpecRun DequeSpec [] (runMoves step (empty deq) ms).2 (runMoves step (empty deq) ms).1.content ∧
      (runMoves step (empty deq) ms).1.owner ≠ .fault ∧ ∀ i, (runMoves step (empty deq) ms).1.thief i ≠ .fault :=
  ⟨run_spec deq ms h, (run_inv deq ms h).no_fault⟩

/-- three operations: the owner pushes two jobs, thief 0 steals the first one, and the owner takes the second one -/
def twoJobs : List (DequeMove ℕ ℕ) :=
  [.push 7, .owner, .owner, .owner, .popTop 0, .thief 0, .thief 0, .push 8, .owner, .owner, .thief 0, .owner, .pop, .owner,
    .owner, .thief 0, .owner, .owner, .owner, .owner]

theorem deque_refines_twoJobs : SpecRun DequeSpec []
    [.push 7 true, .push 8 false, .popTop (some 7) true, .popBottom (some 8)]
    (runMoves step (empty fun _ => 0) twoJobs).1.content := by
  have hsmall : Along step (fun s : WorkDeque ℕ ℕ => s.age.tag < 2 ^ 32) (empty fun _ => 0) twoJobs := by decide
  exact (deque_refines (fun _ => 0) twoJobs (hsmall.mono fun _ => noWrap_of_tag)).1

end Thieves

/-! ## Jobs -/

/-- the job that an operation pushes -/
def pushedJob : DequeOp J → Option J
  | .push job _ => some job
  | _ => none

/-- the job that an operation takes -/
def takenJob : DequeOp J → Option J
  | .popBottom r => r
  | .popTop r _ => r
  | .push _ _ => none

/-- operations on the list keep every job -/
theorem spec_jobs {c c' : List J} {es : List (DequeOp J)} (h : SpecRun DequeSpec c es c') :
    (c ++ es.filterMap pushedJob).Perm (es.filterMap takenJob ++ c') := by
  induction h with
  | nil => simp
  | @cons c c' c'' e es he _ ih =>
    cases he with
    | @push c job first hfirst =>
      rw [List.append_assoc, List.singleton_append] at ih
      exact ih
    | @popBottom c job =>
      rw [List.append_assoc, List.singleton_append]
      exact List.perm_middle.trans (ih.cons job)
    | popBottomEmpty => exact ih
    | @popTop c job empty => exact ih.cons job
    | popTopNone => exact ih

/-- **Each job once.** In every run from an empty queue the jobs pushed are, each as often as it is pushed, the jobs that the
owner and the thieves take and the jobs that are still in the queue. -/
theorem deque_jobs [DecidableEq ι] (deq : ℕ → J) (ms : List (DequeMove ι J)) (h : Along step NoWrap (empty deq) ms) :
    ((runMoves step (empty deq) ms).2.filterMap pushedJob).Perm
      ((runMoves step (empty deq) ms).2.filterMap takenJob ++ (runMoves step (empty deq) ms).1.content) :=
  spec_jobs (run_spec deq ms h)

theorem deque_jobs_twoJobs : [7, 8].Perm ([7, 8] ++ (runMoves step (empty fun _ => 0) twoJobs).1.content) := by
  have hsmall : Along step (fun s : WorkDeque ℕ ℕ => s.age.tag < 2 ^ 32) (empty fun _ => 0) twoJobs := by decide
  have hrun : (runMoves step (empty fun _ => 0 : WorkDeque ℕ ℕ) twoJobs).2 =
      [.push 7 true, .push 8 false, .popTop (some 7) true, .popBottom (some 8)] := rfl
  have h := deque_jobs (fun _ => 0) twoJobs (hsmall.mono fun _ => noWrap_of_tag)
  rw [hrun] at h
  exact h

/-! ## The tag wraps around -/

section Wrap

variable [DecidableEq ι] {deq : ℕ → J} {f : ι → Thief J} {a c : J} {t : ℕ}

/-- push a job on the empty queue and take it -/
def refill (c : J) : List (DequeMove ι J) :=
  [.push c, .owner, .owner, .owner, .pop, .owner, .owner, .owner, .owner, .owner, .owner]

theorem refill_run : runMoves step (⟨0, ⟨t, 0⟩, deq, .idle, f⟩ : WorkDeque ι J) (refill c) =
    (⟨0, ⟨t + 1, 0⟩, Function.update deq 0 c, .idle, f⟩, [.push c true, .popBottom (some c)]) := by
  simp [runMoves, refill, step, ownerStep, qSize, Age.Same]

/-- this can be repeated -/
theorem refills_run (c : J) (f : ι → Thief J) (m t : ℕ) (deq : ℕ → J) :
    ∃ (ms : List (DequeMove ι J)) (deq' : ℕ → J) (es : List (DequeOp J)),
    runMoves step (⟨0, ⟨t, 0⟩, deq, .idle, f⟩ : WorkDeque ι J) ms = (⟨0, ⟨t + m, 0⟩, deq', .idle, f⟩, es) ∧
      es.filterMap pushedJob = List.replicate m c ∧ es.filterMap takenJob = List.replicate m c := by
  induction m generalizing t deq with
  | zero => exact ⟨[], deq, [], rfl, rfl, rfl⟩
  | succ m ih =>
    obtain ⟨ms, deq', es, hrun, hpushed, htaken⟩ := ih (t + 1) (Function.update deq 0 c)
    refine ⟨refill c ++ ms, deq', [.push c true, .popBottom (some c)] ++ es, ?_, ?_, ?_⟩
    · rw [runMoves_append, refill_run, hrun, Nat.add_assoc, Nat.add_comm 1 m]
    · rw [List.filterMap_append, hpushed]
      rfl
    · rw [List.filterMap_append, htaken]
      rfl

/-- **2^32 resets.** A thief that sleeps between its load of the job `a` and its exchange, while the owner takes `a` and
resets the queue 2^32 times, takes `a` once more, and the job `c` that is in the queue by then is lost: at the end the queue is
empty, and `c` has been pushed once more than it has been taken. -/
theorem tag_wraps [DecidableEq J] (i : ι) (deq : ℕ → J) (hac : a ≠ c) : ∃ ms : List (DequeMove ι J),
    (runMoves step (empty deq) ms).1.content = [] ∧
      ((runMoves step (empty deq) ms).2.filterMap pushedJob).count a = 1 ∧
      ((runMoves step (empty deq) ms).2.filterMap takenJob).count a = 2 ∧
      ((runMoves step (empty deq) ms).2.filterMap takenJob).count c + 1 =
        ((runMoves step (empty deq) ms).2.filterMap pushedJob).count c := by
  -- the thief has read `a`, and the owner takes it
  have hfirst : runMoves step (empty deq : WorkDeque ι J) [.push a, .owner, .owner, .owner, .popTop i, .thief i, .thief i,
      .thief i, .pop, .owner, .owner, .owner, .owner, .owner, .owner] =
      (⟨0, ⟨1, 0⟩, Function.update deq 0 a, .idle, Function.update (fun _ => .idle) i (.swap ⟨0, 0⟩ 1 a)⟩,
        [.push a true, .popBottom (some a)]) := by
    simp [runMoves, empty, step, ownerStep, thiefStep, setThief, qSize, Age.Same]
  obtain ⟨ms, deq', es, hrun, hpushed, htaken⟩ :=
    refills_run c (Function.update (fun _ => .idle) i (.swap ⟨0, 0⟩ 1 a)) (2 ^ 32 - 1) 1 (Function.update deq 0 a)
  -- the tag is the old one again
  have hlast : runMoves step (⟨0, ⟨1 + (2 ^ 32 - 1), 0⟩, deq', .idle,
      Function.update (fun _ => .idle) i (.swap ⟨0, 0⟩ 1 a)⟩ : WorkDeque ι J) [.push c, .owner, .owner, .owner, .thief i] =
      (⟨1, ⟨2 ^ 32, 1⟩, Function.update deq' 0 c, .idle, fun _ => .idle⟩, [.push c true, .popTop (some a) true]) := by
    simp [runMoves, step, ownerStep, thiefStep, setThief, qSize, Age.Same]
  refine ⟨[.push a, .owner, .owner, .owner, .popTop i, .thief i, .thief i, .thief i, .pop, .owner, .owner, .owner, .owner,
    .owner, .owner] ++ (ms ++ [.push c, .owner, .owner, .owner, .thief i]), ?_⟩
  rw [runMoves_append, hfirst, runMoves_append, hrun, hlast]
  obtain ⟨m, hm⟩ : ∃ m, m = 2 ^ 32 - 1 := ⟨_, rfl⟩
  rw [← hm] at hpushed htaken
  have hac' : ¬ (c = a) := fun h => hac h.symm
  have hpush : List.filterMap pushedJob ([.push a true, .popBottom (some a)] ++ (es ++ [.push c true, .popTop (some a) true])) =
      a :: (List.replicate m c ++ [c]) := by
    rw [List.filterMap_append, List.filterMap_append, hpushed]
    rfl
  have htake : List.filterMap takenJob ([.push a true, .popBottom (some a)] ++ (es ++ [.push c true, .popTop (some a) true])) =
      a :: (List.replicate m c ++ [a]) := by
    rw [List.filterMap_append, List.filterMap_append, htaken]
    rfl
  rw [hpush, htake]
  refine ⟨jobs_nil le_rfl, ?_, ?_, ?_⟩
  · simp [List.count_replicate, hac']
  · simp [List.count_replicate, hac']
  · simp [hac]

theorem tag_wraps_two : ∃ ms : List (DequeMove (Fin 1) ℕ),
    (runMoves step (empty fun _ => 0) ms).1.content = [] ∧
      ((runMoves step (empty fun _ => 0) ms).2.filterMap pushedJob).count 7 = 1 ∧
      ((runMoves step (empty fun _ => 0) ms).2.filterMap takenJob).count 7 = 2 ∧
      ((runMoves step (empty fun _ => 0) ms).2.filterMap takenJob).count 8 + 1 =
        ((runMoves step (empty fun _ => 0) ms).2.filterMap pushedJob).count 8 :=
  tag_wraps 0 (fun _ => 0) (by decide)

end Wrap

end WorkDeque

end HeavyLight
