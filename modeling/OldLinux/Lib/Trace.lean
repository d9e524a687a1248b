import OldLinux.Lib.Numerals

/-!
# Runs of a machine

A machine is a partial step function on states and events.  A run is an infinite sequence of states,
each the step of the one before it; a state is reached when a finite run leads to it.  What holds at
the start and is kept by every step holds all along.
-/

namespace OldLinux.Lib

variable {S E : Type*} {start : S → Prop} {step : S → E → Option S} {allowed : S → E → Prop} {s s' : S}

/-- The states that runs reach whose events are all allowed. -/
inductive Reach (start : S → Prop) (step : S → E → Option S) (allowed : S → E → Prop) : S → Prop
  | start {s : S} : start s → Reach start step allowed s
  | step {s s' : S} (e : E) : Reach start step allowed s → allowed s e → step s e = some s' →
      Reach start step allowed s'

/-- **Invariants.**  What holds at the start and is kept by every allowed step holds of every state
that is reached. -/
theorem Reach.invariant {I : S → Prop} (hstart : ∀ s, start s → I s)
    (hstep : ∀ s e s', I s → allowed s e → step s e = some s' → I s')
    (h : Reach start step allowed s) : I s := by
  induction h with
  | start hs => exact hstart _ hs
  | step e _ ha hs ih => exact hstep _ e _ ih ha hs

/-- One event after the other. -/
def exec (step : S → E → Option S) : S → List E → Option S
  | s, [] => some s
  | s, e :: es => (step s e).bind fun s' => exec step s' es

/-- Each event is allowed where it happens. -/
def Along (step : S → E → Option S) (allowed : S → E → Prop) : S → List E → Prop
  | _, [] => True
  | s, e :: es => allowed s e ∧ ∀ s', step s e = some s' → Along step allowed s' es

theorem along_of_forall {es : List E} (h : ∀ e ∈ es, ∀ s, allowed s e) (s : S) : Along step allowed s es := by
  induction es generalizing s with
  | nil => trivial
  | cons e es ih =>
    exact ⟨h e List.mem_cons_self s, fun s' _ => ih (fun e he => h e (List.mem_cons_of_mem _ he)) s'⟩

theorem Along.mono {allowed' : S → E → Prop} {es : List E} (h : Along step allowed s es)
    (hall : ∀ s e, allowed s e → allowed' s e) : Along step allowed' s es := by
  induction es generalizing s with
  | nil => trivial
  | cons e es ih => exact ⟨hall s e h.1, fun s' hs => ih (h.2 s' hs)⟩

theorem along_true (es : List E) (s : S) : Along step (fun _ _ => True) s es :=
  along_of_forall (fun _ _ _ => trivial) s

/-- The same for a condition that can be evaluated. -/
def checks (step : S → E → Option S) (ok : S → E → Bool) : S → List E → Bool
  | _, [] => true
  | s, e :: es => ok s e && match step s e with
      | none => true
      | some s' => checks step ok s' es

theorem along_of_checks {ok : S → E → Bool} {es : List E} (h : checks step ok s es = true) :
    Along step (fun s e => ok s e = true) s es := by
  induction es generalizing s with
  | nil => trivial
  | cons e es ih =>
    obtain ⟨h1, h2⟩ := Bool.and_eq_true_iff.1 h
    refine ⟨h1, ?_⟩
    intro s' hs
    rw [hs] at h2
    exact ih h2

theorem Reach.exec {es : List E} (h : Reach start step allowed s) (ha : Along step allowed s es)
    (hexec : exec step s es = some s') : Reach start step allowed s' := by
  induction es generalizing s with
  | nil =>
    cases hexec
    exact h
  | cons e es ih =>
    obtain ⟨t, ht, hrest⟩ := Option.bind_eq_some_iff.1 hexec
    exact ih (Reach.step e h ha.1 ht) (ha.2 t ht) hrest

theorem exec_append (es es' : List E) (s : S) :
    exec step s (es ++ es') = (exec step s es).bind fun s' => exec step s' es' := by
  induction es generalizing s with
  | nil => rfl
  | cons e es ih =>
    show (step s e).bind _ = ((step s e).bind _).bind _
    rw [Option.bind_assoc]
    exact congrArg _ (funext ih)

theorem Along.append {es es' : List E} (h : Along step allowed s es)
    (h' : ∀ s', exec step s es = some s' → Along step allowed s' es') :
    Along step allowed s (es ++ es') := by
  induction es generalizing s with
  | nil => exact h' s rfl
  | cons e es ih =>
    refine ⟨h.1, fun t ht => ih (h.2 t ht) (fun s' hs' => h' s' ?_)⟩
    show (step s e).bind _ = _
    rw [ht]
    exact hs'

/-- **Refinement.**  Two machines whose steps agree have runs that agree. -/
theorem exec_rel {T : Type*} {step' : T → E → Option T} {R : S → T → Prop} {t : T}
    (hstep : ∀ s t e, R s t → Option.Rel R (step s e) (step' t e)) (h : R s t) (es : List E) :
    Option.Rel R (exec step s es) (exec step' t es) := by
  induction es generalizing s t with
  | nil => exact .some h
  | cons e es ih =>
    show Option.Rel R ((step s e).bind _) ((step' t e).bind _)
    have hs := hstep s t e h
    generalize step s e = o, step' t e = o' at hs
    cases hs with
    | none => exact .none
    | some h' => exact ih h'

/-- A run with its events. -/
structure Trace (start : S → Prop) (step : S → E → Option S) where
  state : ℕ → S
  event : ℕ → E
  starts : start (state 0)
  steps : ∀ n, step (state n) (event n) = some (state (n + 1))

theorem Trace.invariant {I : S → Prop} (r : Trace start step) (hstart : ∀ s, start s → I s)
    (hstep : ∀ s e s', I s → step s e = some s' → I s') (n : ℕ) : I (r.state n) := by
  induction n with
  | zero => exact hstart _ r.starts
  | succ n ih => exact hstep _ _ _ ih (r.steps n)

/-- **Until.**  What holds at `n` and every step keeps, unless the step reaches the goal, holds at
`m` if the goal was not reached on the way. -/
theorem Trace.until {I G : S → Prop} (r : Trace start step) {n m : ℕ} (hnm : n ≤ m)
    (hn : I (r.state n)) (hstep : ∀ s e s', I s → step s e = some s' → I s' ∨ G s')
    (hgoal : ∀ k, n < k → k ≤ m → ¬G (r.state k)) : I (r.state m) := by
  induction m, hnm using Nat.le_induction with
  | base => exact hn
  | succ m hm ih =>
    have hprev := ih (fun k h1 h2 => hgoal k h1 (Nat.le_succ_of_le h2))
    rcases hstep _ _ _ hprev (r.steps m) with h | h
    · exact h
    · exact absurd h (hgoal (m + 1) (Nat.lt_succ_of_le hm) (Nat.le_refl _))

end OldLinux.Lib
