/-
Machines that make one move at a time and may report an operation with it: runs, invariants and refinement. A general
library.

- `runMoves step s ms`: the state after the moves `ms` from `s`, and the reports on the way.
- `Along step p s ms`: all states of this run have `p`.
- `SpecRun spec t es t'`: the operations `es` lead from `t` to `t'` in a specification.
- `run_invariant`, `run_refines`: the induction rules for an invariant of all runs, and for a refinement of a specification.
- `AllSchedules step owed P s`: a machine whose moves may fault, or do nothing, ends from `s` in a state with `P` under every
  schedule that goes on while some move that is owed does something. `AllSchedules.fair`: so it does under every schedule
  that is fair to the moves that are owed.
- `Paced`: a machine below another one, with a count of the moves before each move that is owed. `AllSchedules.fair_below`: its
  fair schedules come to what the schedules above come to.
- `Reaches step`, `ReachesIn p step`: the states that moves lead to, from states with `p`. `runTo` makes such moves.
- `allRuns_machine`: a machine ends as a fork-join program does when its moves are steps of the program, or finitely many
  others in between, and before the program is done some move that is owed does something.
-/
import HeavyLight.ForkJoin

namespace HeavyLight

section Machines

variable {S M E T : Type} {step : S → M → S × Option E} {spec : T → E → T → Prop} {p I : S → Prop} {abs : S → T} {s : S}
  {t t' t'' : T} {es es' : List E}

/-- the state after some moves, and the reports of these moves in order -/
def runMoves (step : S → M → S × Option E) : S → List M → S × List E
  | s, [] => (s, [])
  | s, m :: ms => ((runMoves step (step s m).1 ms).1, (step s m).2.toList ++ (runMoves step (step s m).1 ms).2)

/-- all states of a run have `p` -/
def Along (step : S → M → S × Option E) (p : S → Prop) : S → List M → Prop
  | s, [] => p s
  | s, m :: ms => p s ∧ Along step p (step s m).1 ms

instance decidableAlong (step : S → M → S × Option E) (p : S → Prop) [DecidablePred p] :
    ∀ (s : S) (ms : List M), Decidable (Along step p s ms)
  | s, [] => inferInstanceAs (Decidable (p s))
  | s, m :: ms =>
    have := decidableAlong step p (step s m).1 ms
    inferInstanceAs (Decidable (p s ∧ Along step p (step s m).1 ms))

theorem Along.mono {q : S → Prop} {ms : List M} (h : Along step p s ms) (hpq : ∀ s, p s → q s) : Along step q s ms := by
  induction ms generalizing s with
  | nil => exact hpq s h
  | cons m ms ih => exact ⟨hpq s h.1, ih h.2⟩

theorem runMoves_append (step : S → M → S × Option E) (s : S) (ms ms' : List M) :
    runMoves step s (ms ++ ms') = ((runMoves step (runMoves step s ms).1 ms').1,
      (runMoves step s ms).2 ++ (runMoves step (runMoves step s ms).1 ms').2) := by
  induction ms generalizing s with
  | nil => rfl
  | cons m ms ih =>
    simp only [List.cons_append, runMoves, ih, List.append_assoc]

/-- operations of a specification one after the other -/
inductive SpecRun (spec : T → E → T → Prop) : T → List E → T → Prop where
  | nil {t : T} : SpecRun spec t [] t
  | cons {t t' t'' : T} {e : E} {es : List E} : spec t e t' → SpecRun spec t' es t'' → SpecRun spec t (e :: es) t''

theorem SpecRun.append (h : SpecRun spec t es t') (h' : SpecRun spec t' es' t'') : SpecRun spec t (es ++ es') t'' := by
  induction h with
  | nil => exact h'
  | cons he _ ih => exact .cons he (ih h')

/-- a move without a report leaves the abstract state as it is -/
def Reports (spec : T → E → T → Prop) (t : T) : Option E → T → Prop
  | none, t' => t' = t
  | some e, t' => spec t e t'

theorem Reports.run {e : Option E} (h : Reports spec t e t') : SpecRun spec t e.toList t' := by
  cases e with
  | none =>
    obtain rfl : t' = t := h
    exact .nil
  | some e => exact .cons h .nil

/-- **Invariants** of all runs. -/
theorem run_invariant (hstep : ∀ s m, I s → p s → I (step s m).1) (ms : List M) (h : I s) (hp : Along step p s ms) :
    I (runMoves step s ms).1 := by
  induction ms generalizing s with
  | nil => exact h
  | cons m ms ih => exact ih (hstep s m h hp.1) hp.2

/-- **Refinement.** When each move under the invariant is an operation of the specification or none, so is each run. -/
theorem run_refines (hinv : ∀ s m, I s → p s → I (step s m).1)
    (hstep : ∀ s m, I s → p s → Reports spec (abs s) (step s m).2 (abs (step s m).1)) (ms : List M) (h : I s)
    (hp : Along step p s ms) : SpecRun spec (abs s) (runMoves step s ms).2 (abs (runMoves step s ms).1) := by
  induction ms generalizing s with
  | nil => exact .nil
  | cons m ms ih => exact (hstep s m h hp.1).run.append (ih (hinv s m h hp.1) hp.2)

end Machines

/-! ## Schedules -/

section Schedules

variable {S M E : Type} {step : S → M → Except E (Option S)} {owed : S → M → Prop} {P : S → Prop} {s s' : S} {m : M}
  {ms : ℕ → M} {n : ℕ}

/-- every schedule of moves ends, without a fault, in a state with `P`, when no move that is owed does something; `none` is a
move that does nothing -/
inductive AllSchedules (step : S → M → Except E (Option S)) (owed : S → M → Prop) (P : S → Prop) : S → Prop where
  | intro {s : S} (safe : ∀ m e, step s m ≠ .error e) (stuck : (∀ m, owed s m → step s m = .ok none) → P s)
      (next : ∀ m s', step s m = .ok (some s') → AllSchedules step owed P s') : AllSchedules step owed P s

/-- the states that moves lead to, from states with `p` -/
def ReachesIn (p : S → Prop) (step : S → M → Except E (Option S)) : S → S → Prop :=
  Relation.ReflTransGen fun s s' => p s ∧ ∃ m, step s m = .ok (some s')

/-- the states that moves lead to -/
def Reaches (step : S → M → Except E (Option S)) : S → S → Prop := ReachesIn (fun _ => True) step

theorem ReachesIn.invariant {p I : S → Prop} (h : ReachesIn p step s s') (h0 : I s)
    (hstep : ∀ s m s', I s → p s → step s m = .ok (some s') → I s') : I s' := by
  induction h with
  | refl => exact h0
  | tail _ hm ih =>
    obtain ⟨hp, m, hm⟩ := hm
    exact hstep _ m _ ih hp hm

theorem ReachesIn.mono {p q : S → Prop} (h : ReachesIn p step s s') (hpq : ∀ s, p s → q s) : ReachesIn q step s s' :=
  Relation.ReflTransGen.mono (fun _ _ hm => ⟨hpq _ hm.1, hm.2⟩) _ _ h

/-- the state after some moves that all do something, from states with `p` -/
def runTo (p : S → Prop) [DecidablePred p] (step : S → M → Except E (Option S)) : S → List M → Option S
  | s, [] => some s
  | s, m :: ms =>
    if p s then
      match step s m with
      | .ok (some s') => runTo p step s' ms
      | _ => none
    else none

theorem reachesIn_runTo {p : S → Prop} [DecidablePred p] {ms : List M} (h : runTo p step s ms = some s') :
    ReachesIn p step s s' := by
  induction ms generalizing s with
  | nil =>
    cases h
    exact Relation.ReflTransGen.refl
  | cons m ms ih =>
    rw [runTo] at h
    split_ifs at h with hp
    split at h
    · next hm => exact Relation.ReflTransGen.head ⟨hp, m, hm⟩ (ih h)
    · cases h

/-- the state after the first `n` moves of a schedule -/
def scheduled (step : S → M → Except E (Option S)) (s : S) (ms : ℕ → M) : ℕ → Except E S
  | 0 => .ok s
  | n + 1 => do
    let t ← scheduled step s ms n
    let r ← step t (ms n)
    return r.getD t

/-- after moves that do nothing -/
theorem scheduled_waits (h : ∀ m, m < n → step s (ms m) = .ok none) : scheduled step s ms n = .ok s := by
  induction n with
  | zero => rfl
  | succ n ih =>
    rw [scheduled, ih fun m hm => h m (hm.trans n.lt_succ_self)]
    show (step s (ms n) >>= _) = _
    rw [h n n.lt_succ_self]
    rfl

theorem scheduled_succ (h : scheduled step s ms n = .ok s') {t : S} (hs : step s' (ms n) = .ok (some t)) :
    scheduled step s ms (n + 1) = .ok t := by
  rw [scheduled, h]
  show (step s' (ms n) >>= _) = _
  rw [hs]
  rfl

/-- the moves from the `n`-th on -/
theorem scheduled_add (h : scheduled step s ms n = .ok s') (k : ℕ) :
    scheduled step s ms (n + k) = scheduled step s' (fun i => ms (n + i)) k := by
  induction k with
  | zero => exact h
  | succ k ih => rw [Nat.add_succ, scheduled, scheduled, ih]

/-- every move is tried again and again, except while it is not owed -/
def Fair (step : S → M → Except E (Option S)) (owed : S → M → Prop) (s : S) (ms : ℕ → M) : Prop :=
  ∀ m N, ∃ n, N ≤ n ∧ (ms n = m ∨ ∀ t, scheduled step s ms n = .ok t → ¬ owed t m)

theorem Fair.later (h : Fair step owed s ms) (hn : scheduled step s ms n = .ok s') :
    Fair step owed s' fun i => ms (n + i) := by
  intro m N
  obtain ⟨k, hk, hm⟩ := h m (n + N)
  obtain ⟨j, rfl⟩ := Nat.exists_eq_add_of_le (show n ≤ k by omega)
  refine ⟨j, by omega, ?_⟩
  rwa [scheduled_add hn] at hm

/-- the first component of `Nat.unpair` takes every value again and again -/
theorem exists_fair [Countable M] [Nonempty M] (step : S → M → Except E (Option S)) (owed : S → M → Prop) (s : S) :
    ∃ ms : ℕ → M, Fair step owed s ms := by
  obtain ⟨f, hf⟩ := exists_surjective_nat M
  refine ⟨fun i => f i.unpair.1, fun m N => ?_⟩
  obtain ⟨j, rfl⟩ := hf m
  exact ⟨Nat.pair j N, Nat.right_le_pair j N, Or.inl (congrArg (fun p => f p.1) (Nat.unpair_pair j N))⟩

/-- **Fair schedules.** Under a fair schedule the machine comes to a state with `P` and stays there. -/
theorem AllSchedules.fair (h : AllSchedules step owed P s) (ms : ℕ → M) (hfair : Fair step owed s ms) :
    ∃ N t, P t ∧ ∀ n, N ≤ n → scheduled step s ms n = .ok t := by
  classical
  induction h generalizing ms with
  | @intro s safe stuck next ih =>
    by_cases hall : ∀ n, step s (ms n) = .ok none
    · have hstay : ∀ n, scheduled step s ms n = .ok s := fun n => scheduled_waits fun m _ => hall m
      refine ⟨0, s, stuck fun m hm => ?_, fun n _ => hstay n⟩
      obtain ⟨n, -, rfl | hn⟩ := hfair m 0
      · exact hall n
      · exact absurd hm (hn s (hstay n))
    · -- the first move that does something
      have hex : ∃ n, step s (ms n) ≠ .ok none := not_forall.1 hall
      have hbefore : scheduled step s ms (Nat.find hex) = .ok s :=
        scheduled_waits fun m hm => not_not.1 (Nat.find_min hex hm)
      have hfirst := Nat.find_spec hex
      generalize Nat.find hex = n at hbefore hfirst
      rcases hr : step s (ms n) with e | r
      · exact absurd hr (safe _ e)
      · cases r with
        | none => exact absurd hr hfirst
        | some t =>
          have hnext := scheduled_succ hbefore hr
          obtain ⟨N, t', ht', hN⟩ := ih (ms n) t hr _ (hfair.later hnext)
          refine ⟨n + 1 + N, t', ht', fun k hk => ?_⟩
          obtain ⟨j, rfl⟩ := Nat.exists_eq_add_of_le (show n + 1 ≤ k by omega)
          rw [scheduled_add hnext]
          exact hN _ (by omega)

/-- a schedule without a fault -/
theorem scheduled_ok (hsafe : ∀ n t, scheduled step s ms n = .ok t → ∀ e, step t (ms n) ≠ .error e) (n : ℕ) :
    ∃ t, scheduled step s ms n = .ok t := by
  induction n with
  | zero => exact ⟨s, rfl⟩
  | succ n ih =>
    obtain ⟨t, ht⟩ := ih
    rw [scheduled, ht]
    show ∃ u, (step t (ms n) >>= _) = _
    cases hm : step t (ms n) with
    | error e => exact absurd hm (hsafe n t ht e)
    | ok r => exact ⟨r.getD t, rfl⟩

/-- the next state of a schedule -/
theorem scheduled_next (h : scheduled step s ms n = .ok s') {t : S} (ht : scheduled step s ms (n + 1) = .ok t) :
    step s' (ms n) = .ok none ∧ t = s' ∨ step s' (ms n) = .ok (some t) := by
  rw [scheduled, h] at ht
  replace ht : (do
    let r ← step s' (ms n)
    return r.getD s') = Except.ok t := ht
  cases hm : step s' (ms n) with
  | error e =>
    rw [hm] at ht
    cases ht
  | ok r =>
    rw [hm] at ht
    cases r with
    | none =>
      cases ht
      exact Or.inl ⟨rfl, rfl⟩
    | some u =>
      cases ht
      exact Or.inr rfl

/-- the states of a schedule, when all of them have `p` -/
theorem reachesIn_scheduled {p : S → Prop} (hp : ∀ n t, scheduled step s ms n = .ok t → p t)
    (h : scheduled step s ms n = .ok s') : ReachesIn p step s s' := by
  induction n generalizing s' with
  | zero =>
    cases h
    exact Relation.ReflTransGen.refl
  | succ n ih =>
    cases ht : scheduled step s ms n with
    | error e =>
      rw [scheduled, ht] at h
      cases h
    | ok t =>
      rcases scheduled_next ht h with ⟨-, rfl⟩ | hm
      · exact ih ht
      · exact Relation.ReflTransGen.tail (ih ht) ⟨hp n t ht, ms n, hm⟩

section Paced

variable {S₂ E₂ : Type} {step₂ : S₂ → M → Except E₂ (Option S₂)} {owed₂ : S₂ → M → Prop} {abs : S₂ → S} {I : S₂ → Prop}
  {pace : S₂ → M → ℕ} {c : S₂}

/-- a machine whose moves are those of the machine above, or quiet ones in between. A quiet move leaves the state above, takes no
move that is owed there farther away, and comes nearer itself if it is one -/
structure Paced (step : S → M → Except E (Option S)) (owed : S → M → Prop) (step₂ : S₂ → M → Except E₂ (Option S₂))
    (owed₂ : S₂ → M → Prop) (abs : S₂ → S) (I : S₂ → Prop) (pace : S₂ → M → ℕ) : Prop where
  safe : ∀ c m e, I c → step₂ c m ≠ .error e
  owes : ∀ c m, I c → owed (abs c) m → step (abs c) m ≠ .ok none → owed₂ c m ∧ step₂ c m ≠ .ok none
  move : ∀ c m d, I c → step₂ c m = .ok (some d) → (∃ m', step (abs c) m' = .ok (some (abs d))) ∨
    abs d = abs c ∧ ∀ k, owed (abs c) k → step (abs c) k ≠ .ok none →
      pace d k ≤ pace c k ∧ (k = m → pace d k < pace c k)

/-- while the state above stays the same, a move that is owed there comes nearer each time that it is made -/
theorem Paced.stuck (h : Paced step owed step₂ owed₂ abs I pace) {d : ℕ → S₂} (hd : ∀ n, scheduled step₂ c ms n = .ok (d n))
    (hI : ∀ n, I (d n)) (hsame : ∀ n, abs (d n) = s) (hloop : ∀ m', step s m' ≠ .ok (some s))
    (hfair : Fair step₂ owed₂ c ms) (hm : owed s m) : step s m = .ok none := by
  by_contra hgo
  have howes : ∀ n, owed₂ (d n) m ∧ step₂ (d n) m ≠ .ok none := by
    intro n
    refine h.owes (d n) m (hI n) ?_ ?_
    · rwa [hsame n]
    · rwa [hsame n]
  have hpace : ∀ n, pace (d (n + 1)) m ≤ pace (d n) m ∧ (m = ms n → pace (d (n + 1)) m < pace (d n) m) := by
    intro n
    rcases scheduled_next (hd n) (hd (n + 1)) with ⟨hnone, heq⟩ | hmove
    · rw [heq]
      refine ⟨le_rfl, ?_⟩
      rintro rfl
      exact absurd hnone (howes n).2
    · rcases h.move (d n) (ms n) (d (n + 1)) (hI n) hmove with ⟨m', hm'⟩ | ⟨-, hquiet⟩
      · rw [hsame n, hsame (n + 1)] at hm'
        exact absurd hm' (hloop m')
      · rw [hsame n] at hquiet
        exact hquiet m hm hgo
  -- from a state with the least pace on the move is made once more
  obtain ⟨N, hN⟩ : ∃ N, ∀ n, pace (d N) m ≤ pace (d n) m :=
    ⟨_, fun n => Function.argmin_le (fun n => pace (d n) m) n⟩
  have hanti : Antitone fun n => pace (d n) m := antitone_nat_of_succ_le fun n => (hpace n).1
  obtain ⟨n, hn, hmade | hnot⟩ := hfair m N
  · have hlt := (hpace n).2 hmade.symm
    have hle : pace (d n) m ≤ pace (d N) m := hanti hn
    exact absurd (hN (n + 1)) (Nat.not_le.2 (hlt.trans_le hle))
  · exact hnot (d n) (hd n) (howes n).1

/-- **Fair schedules of a machine below.** They come to states below one with `P`. -/
theorem AllSchedules.fair_below (hpaced : Paced step owed step₂ owed₂ abs I pace) (h : AllSchedules step owed P s)
    (hc : abs c = s) (hI : ∀ n d, scheduled step₂ c ms n = .ok d → I d) (hfair : Fair step₂ owed₂ c ms) :
    ∃ N, ∀ n, N ≤ n → ∃ d, scheduled step₂ c ms n = .ok d ∧ P (abs d) := by
  induction h generalizing c ms with
  | @intro s safe stuck next ih =>
    subst hc
    choose d hd using scheduled_ok fun n d hd e => hpaced.safe d (ms n) e (hI n d hd)
    by_cases hmove : ∃ n m', abs (d n) = abs c ∧ step (abs c) m' = .ok (some (abs (d (n + 1))))
    · obtain ⟨n, m', -, hm'⟩ := hmove
      obtain ⟨N, hN⟩ := ih m' _ hm' rfl (fun k e he => hI (n + 1 + k) e (by rwa [scheduled_add (hd (n + 1))]))
        (hfair.later (hd (n + 1)))
      refine ⟨n + 1 + N, fun k hk => ?_⟩
      obtain ⟨j, rfl⟩ := Nat.exists_eq_add_of_le (show n + 1 ≤ k by omega)
      rw [scheduled_add (hd (n + 1))]
      exact hN j (by omega)
    · have hsame : ∀ n, abs (d n) = abs c := by
        intro n
        induction n with
        | zero => exact congrArg abs (Except.ok.inj (hd 0)).symm
        | succ n ihn =>
          rcases scheduled_next (hd n) (hd (n + 1)) with ⟨-, heq⟩ | hm
          · rw [heq, ihn]
          · rcases hpaced.move (d n) (ms n) (d (n + 1)) (hI n _ (hd n)) hm with ⟨m', hm'⟩ | ⟨heq, -⟩
            · rw [ihn] at hm'
              exact absurd ⟨n, m', ihn, hm'⟩ hmove
            · rw [heq, ihn]
      refine ⟨0, fun n _ => ⟨d n, hd n, ?_⟩⟩
      rw [hsame n]
      refine stuck fun k hk => hpaced.stuck hd (fun n => hI n _ (hd n)) hsame (fun m' hm' => ?_) hfair hk
      refine hmove ⟨0, m', hsame 0, ?_⟩
      rw [hsame 1]
      exact hm'

end Paced

/-- **Fork-join programs on a machine.** `R s k t x`: the machine in the state `s` has the program `t` left to do on the
state `x`, with fewer than `k` moves before the next step of the program. -/
theorem allRuns_machine {C σ : Type} {body : Body C σ} {Q : σ → Prop} {t : Proc C} {x : σ}
    {R : S → ℕ → Proc C → σ → Prop} (h : AllRuns body Q t x)
    (safe : ∀ s k t x, R s k t x → ¬ Faults body t x → ∀ m e, step s m ≠ .error e)
    (stuck : ∀ s k t x, R s k t x → (∀ m, owed s m → step s m = .ok none) → t = .done ∧ (Q x → P s))
    (move : ∀ s k t x m s', R s k t x → step s m = .ok (some s') →
      (∃ k', k' < k ∧ R s' k' t x) ∨ ∃ k' t' x', R s' k' t' x' ∧ Step body t x t' x')
    {k : ℕ} (hR : R s k t x) : AllSchedules step owed P s := by
  -- first the steps of the program, between them the other moves
  induction h generalizing s k with
  | @intro t x hsafe final next ih =>
    induction k using Nat.strong_induction_on generalizing s with
    | _ k ihk =>
      refine .intro (safe s k t x hR hsafe) (fun hw => ?_) fun m s' hm => ?_
      · obtain ⟨hd, hP⟩ := stuck s k t x hR hw
        exact hP (final hd)
      · rcases move s k t x m s' hR hm with ⟨k', hk', hR'⟩ | ⟨k', t', x', hR', hstep⟩
        · exact ihk k' hk' hR'
        · exact ih t' x' hstep hR'

end Schedules

end HeavyLight
