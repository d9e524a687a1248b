import OldLinux.Lib.Numerals

/-!
# Weakest preconditions for state commands that may stop

A command over a state `σ` either returns a value or stops with an error; in both cases it leaves
a state behind, and what a run goes on with is that state.  `EStateM` is exactly this shape, so the
commands are its terms and this file only adds the calculus: `wp c Q E s` says that `c` started in
`s` returns into `Q` or stops into `E`.  The rules below turn the goal for a compound command into
the goal for its parts, one `simp only` at a time; `Leaves` is the common case in which both exits
have to leave the same predicate, and `wp_countdown` is the rule for the counted loops.
-/

namespace OldLinux.Lib

variable {ε σ α β : Type}

/-- `c`, started in `s`, returns `a` in a state satisfying `Q a` or stops with `e` in one
satisfying `E e`. -/
def wp (c : EStateM ε σ α) (Q : α → σ → Prop) (E : ε → σ → Prop) (s : σ) : Prop :=
  match c s with
  | .ok a s' => Q a s'
  | .error e s' => E e s'

/-- The state a command leaves behind, whichever way it ends. -/
def after (c : EStateM ε σ α) (s : σ) : σ :=
  match c s with
  | .ok _ s' => s'
  | .error _ s' => s'

@[simp]
theorem wp_pure (a : α) (Q : α → σ → Prop) (E : ε → σ → Prop) (s : σ) : wp (pure a) Q E s ↔ Q a s := Iff.rfl

@[simp]
theorem wp_throw (e : ε) (Q : α → σ → Prop) (E : ε → σ → Prop) (s : σ) : wp (throw e) Q E s ↔ E e s := Iff.rfl

@[simp]
theorem wp_get (Q : σ → σ → Prop) (E : ε → σ → Prop) (s : σ) : wp get Q E s ↔ Q s s := Iff.rfl

@[simp]
theorem wp_modify (f : σ → σ) (Q : PUnit → σ → Prop) (E : ε → σ → Prop) (s : σ) :
    wp (modify f) Q E s ↔ Q ⟨⟩ (f s) := Iff.rfl

@[simp]
theorem wp_bind (c : EStateM ε σ α) (f : α → EStateM ε σ β) (Q : β → σ → Prop) (E : ε → σ → Prop) (s : σ) :
    wp (c >>= f) Q E s ↔ wp c (fun a s' => wp (f a) Q E s') E s := by
  show (match EStateM.bind c f s with | .ok a s' => Q a s' | .error e s' => E e s') ↔ _
  unfold wp EStateM.bind
  cases c s <;> rfl

@[simp]
theorem wp_ite (p : Prop) [Decidable p] (c d : EStateM ε σ α) (Q : α → σ → Prop) (E : ε → σ → Prop) (s : σ) :
    wp (if p then c else d) Q E s ↔ (p → wp c Q E s) ∧ (¬p → wp d Q E s) := by
  by_cases hp : p <;> simp [hp]

theorem wp_mono {c : EStateM ε σ α} {Q Q' : α → σ → Prop} {E E' : ε → σ → Prop} {s : σ}
    (h : wp c Q E s) (hQ : ∀ a s', Q a s' → Q' a s') (hE : ∀ e s', E e s' → E' e s') :
    wp c Q' E' s := by
  unfold wp at h ⊢
  split at h
  · exact hQ _ _ h
  · exact hE _ _ h

theorem wp_and {c : EStateM ε σ α} {Q Q' : α → σ → Prop} {E E' : ε → σ → Prop} {s : σ}
    (h : wp c Q E s) (h' : wp c Q' E' s) :
    wp c (fun a s' => Q a s' ∧ Q' a s') (fun e s' => E e s' ∧ E' e s') s := by
  unfold wp at h h' ⊢
  split
  · rename_i heq
    rw [heq] at h h'
    exact ⟨h, h'⟩
  · rename_i heq
    rw [heq] at h h'
    exact ⟨h, h'⟩

/-- A predicate both exits of `c` leave holds of the state `c` leaves behind. -/
theorem after_of_wp {c : EStateM ε σ α} {I : σ → Prop} {s : σ}
    (h : wp c (fun _ => I) (fun _ => I) s) : I (after c s) := by
  unfold wp at h
  unfold after
  split at h <;> simpa using h

theorem wp_ok {c : EStateM ε σ α} {Q : α → σ → Prop} {E : ε → σ → Prop} {s s' : σ} {a : α}
    (h : wp c Q E s) (hc : c s = .ok a s') : Q a s' := by
  unfold wp at h
  rw [hc] at h
  exact h

theorem wp_of_ok {c : EStateM ε σ α} {Q : α → σ → Prop} {E : ε → σ → Prop} {s s' : σ} {a : α}
    (hc : c s = .ok a s') : wp c Q E s ↔ Q a s' := by
  unfold wp
  rw [hc]

/-- A run from a given state can be tried. -/
instance decidableWp (c : EStateM ε σ α) (Q : α → σ → Prop) (E : ε → σ → Prop) (s : σ)
    [∀ a s', Decidable (Q a s')] [∀ e s', Decidable (E e s')] : Decidable (wp c Q E s) :=
  match h : c s with
  | .ok a s' => decidable_of_iff (Q a s') (wp_of_ok h).symm
  | .error e s' => decidable_of_iff (E e s') (by rw [wp, h])

/-- A command that cannot stop returns. -/
theorem returns_of_wp {c : EStateM ε σ α} {Q : α → σ → Prop} {s : σ}
    (h : wp c Q (fun _ _ => False) s) : ∃ a s', c s = .ok a s' ∧ Q a s' := by
  unfold wp at h
  split at h
  · rename_i a s' hc
    exact ⟨a, s', hc, h⟩
  · exact h.elim

/-- **The counted loop.**  `loop i n` runs the body at the indices `i, i + 1, ..` for `n` rounds; if
one round takes `I i` to `I (i + 1)` for every index below `N`, the loop takes `I i` to
`I (i + n)`. -/
theorem wp_countdown (loop : ℕ → ℕ → EStateM ε σ Unit) (body : ℕ → EStateM ε σ Unit)
    (hzero : ∀ i, loop i 0 = pure ())
    (hsucc : ∀ i n, loop i (n + 1) = body i >>= fun _ => loop (i + 1) n)
    (N : ℕ) (I : ℕ → σ → Prop) (E : ε → σ → Prop)
    (hbody : ∀ i s, i < N → I i s → wp (body i) (fun _ s' => I (i + 1) s') E s) :
    ∀ n i s, i + n ≤ N → I i s → wp (loop i n) (fun _ s' => I (i + n) s') E s := by
  intro n
  induction n with
  | zero =>
    intro i s _ hs
    rw [hzero]
    exact hs
  | succ n ih =>
    intro i s hN hs
    rw [hsucc, wp_bind]
    refine wp_mono (hbody i s (by omega) hs) ?_ (fun _ _ h => h)
    intro _ s' hs'
    have hloop := ih (i + 1) s' (by omega) hs'
    rw [show i + 1 + n = i + (n + 1) from by omega] at hloop
    exact hloop

/-- A command that does nothing but return. -/
theorem eq_ok_of_wp {c : EStateM ε σ α} {s s' : σ} {a : α}
    (h : wp c (fun b t => b = a ∧ t = s') (fun _ _ => False) s) : c s = .ok a s' := by
  obtain ⟨b, t, hc, rfl, rfl⟩ := returns_of_wp h
  exact hc

@[simp]
theorem wp_adaptExcept {ε' : Type} (f : ε → ε') (c : EStateM ε σ α) (Q : α → σ → Prop)
    (E : ε' → σ → Prop) (s : σ) :
    wp (EStateM.adaptExcept f c) Q E s ↔ wp c Q (fun e s' => E (f e) s') s := by
  unfold wp EStateM.adaptExcept
  cases c s with
  | ok a t => exact Iff.rfl
  | error e t => exact Iff.rfl

/-! ### Commands on a part of the state -/

/-- `c` works on the part of the state that `get` and `put` reach. -/
def within {τ : Type} (get : σ → τ) (put : τ → σ → σ) (c : EStateM ε τ α) : EStateM ε σ α := fun s =>
  match c (get s) with
  | .ok a t => .ok a (put t s)
  | .error e t => .error e (put t s)

@[simp]
theorem wp_within {τ : Type} (get : σ → τ) (put : τ → σ → σ) (c : EStateM ε τ α) (Q : α → σ → Prop)
    (E : ε → σ → Prop) (s : σ) : wp (within get put c) Q E s ↔
      wp c (fun a t => Q a (put t s)) (fun e t => E e (put t s)) (get s) := by
  unfold wp within
  cases c (get s) with
  | ok a t => exact Iff.rfl
  | error e t => exact Iff.rfl

/-! ### Invariants of a command -/

/-- Whichever way `c` ends, it leaves `I` if it found it. -/
def Leaves (I : σ → Prop) (c : EStateM ε σ α) : Prop :=
  ∀ s, I s → wp c (fun _ s' => I s') (fun _ s' => I s') s

section Leaves

variable {I : σ → Prop} {c d : EStateM ε σ α} {f : α → EStateM ε σ β}

theorem Leaves.pure (a : α) : Leaves I (pure a : EStateM ε σ α) := fun _ h => h

theorem Leaves.throw (e : ε) : Leaves I (throw e : EStateM ε σ α) := fun _ h => h

theorem Leaves.modify {g : σ → σ} (h : ∀ s, I s → I (g s)) : Leaves I (modify g : EStateM ε σ PUnit) := h

/-- **One command after the other**, the second knowing what the first returned. -/
theorem Leaves.bind_of {R : α → Prop} (hc : ∀ s, I s → wp c (fun a s' => I s' ∧ R a) (fun _ s' => I s') s)
    (hf : ∀ a, R a → Leaves I (f a)) : Leaves I (c >>= f) := by
  intro s hs
  rw [wp_bind]
  exact wp_mono (hc s hs) (fun a s' h => hf a h.2 s' h.1) (fun _ _ h => h)

theorem Leaves.bind (hc : Leaves I c) (hf : ∀ a, Leaves I (f a)) : Leaves I (c >>= f) := by
  intro s hs
  rw [wp_bind]
  exact wp_mono (hc s hs) (fun a s' h => hf a s' h) (fun _ _ h => h)

theorem Leaves.ite {p : Prop} [Decidable p] (hc : p → Leaves I c) (hd : ¬p → Leaves I d) :
    Leaves I (if p then c else d) := by
  split
  · rename_i hp
    exact hc hp
  · rename_i hp
    exact hd hp

/-- The state is looked at. -/
theorem Leaves.look {g : σ → EStateM ε σ β} (h : ∀ s, I s → Leaves I (g s)) : Leaves I (get >>= g) := by
  intro s hs
  rw [wp_bind]
  exact h s hs s hs

/-- A loop whose rounds leave the invariant leaves it. -/
theorem Leaves.countdown (loop : ℕ → ℕ → EStateM ε σ Unit) (body : ℕ → EStateM ε σ Unit)
    (hzero : ∀ i, loop i 0 = Pure.pure ())
    (hsucc : ∀ i n, loop i (n + 1) = body i >>= fun _ => loop (i + 1) n)
    (N : ℕ) (hbody : ∀ i < N, Leaves I (body i)) :
    ∀ n i, i + n ≤ N → Leaves I (loop i n) := by
  intro n i hN s hs
  exact wp_countdown loop body hzero hsucc N (fun _ => I) (fun _ => I)
    (fun i s hi hs => hbody i hi s hs) n i s hN hs

end Leaves

/-! ### Invariants up to some errors -/

/-- If `c` finds `I`, it leaves `I` or stops with one of the errors `F`. -/
def LeavesOr (I : σ → Prop) (F : ε → Prop) (c : EStateM ε σ α) : Prop :=
  ∀ s, I s → wp c (fun _ s' => I s') (fun e _ => F e) s

section LeavesOr

variable {I : σ → Prop} {F : ε → Prop} {c d : EStateM ε σ α} {f : α → EStateM ε σ β}

theorem LeavesOr.pure (a : α) : LeavesOr I F (pure a : EStateM ε σ α) := fun _ h => h

theorem LeavesOr.throw {e : ε} (h : F e) : LeavesOr I F (throw e : EStateM ε σ α) := fun _ _ => h

theorem LeavesOr.modify {g : σ → σ} (h : ∀ s, I s → I (g s)) : LeavesOr I F (modify g : EStateM ε σ PUnit) := h

theorem LeavesOr.weaken {F' : ε → Prop} (hc : LeavesOr I F c) (h : ∀ e, F e → F' e) : LeavesOr I F' c :=
  fun s hs => wp_mono (hc s hs) (fun _ _ h => h) fun e _ he => h e he

theorem LeavesOr.bind (hc : LeavesOr I F c) (hf : ∀ a, LeavesOr I F (f a)) : LeavesOr I F (c >>= f) := by
  intro s hs
  rw [wp_bind]
  exact wp_mono (hc s hs) (fun a s' h => hf a s' h) (fun _ _ h => h)

theorem LeavesOr.ite {p : Prop} [Decidable p] (hc : p → LeavesOr I F c) (hd : ¬p → LeavesOr I F d) :
    LeavesOr I F (if p then c else d) := by
  split
  · rename_i hp
    exact hc hp
  · rename_i hp
    exact hd hp

/-- The state is looked at. -/
theorem LeavesOr.look {g : σ → EStateM ε σ β} (h : ∀ s, I s → LeavesOr I F (g s)) :
    LeavesOr I F (get >>= g) := by
  intro s hs
  rw [wp_bind]
  exact h s hs s hs

end LeavesOr

/-! ### Errors that do not happen -/

/-- `c` does not stop with `e`, wherever it starts. -/
def Never (e : ε) (c : EStateM ε σ α) : Prop := ∀ s, wp c (fun _ _ => True) (fun e' _ => e' ≠ e) s

section Never

variable {e : ε} {c d : EStateM ε σ α} {f : α → EStateM ε σ β}

theorem Never.pure (a : α) : Never e (pure a : EStateM ε σ α) := fun _ => trivial

theorem Never.throw {e' : ε} (h : e' ≠ e) : Never e (throw e' : EStateM ε σ α) := fun _ => h

theorem Never.modify (g : σ → σ) : Never e (modify g : EStateM ε σ PUnit) := fun _ => trivial

theorem Never.bind (hc : Never e c) (hf : ∀ a, Never e (f a)) : Never e (c >>= f) := by
  intro s
  rw [wp_bind]
  exact wp_mono (hc s) (fun a s' _ => hf a s') (fun _ _ h => h)

theorem Never.ite {p : Prop} [Decidable p] (hc : Never e c) (hd : Never e d) :
    Never e (if p then c else d) := by
  split
  · exact hc
  · exact hd

theorem Never.look {g : σ → EStateM ε σ β} (h : ∀ s, Never e (g s)) : Never e (get >>= g) := by
  intro s
  rw [wp_bind]
  exact h s s

theorem Never.countdown (loop : ℕ → ℕ → EStateM ε σ Unit) (body : ℕ → EStateM ε σ Unit)
    (hzero : ∀ i, loop i 0 = Pure.pure ())
    (hsucc : ∀ i n, loop i (n + 1) = body i >>= fun _ => loop (i + 1) n)
    (hbody : ∀ i, Never e (body i)) (n i : ℕ) : Never e (loop i n) := by
  induction n generalizing i with
  | zero =>
    rw [hzero]
    exact Never.pure ()
  | succ n ih =>
    rw [hsucc]
    exact Never.bind (hbody i) (fun _ => ih (i + 1))

end Never

/-! ### Parts of the state that play no part -/

/-- `c` does the same in a state that has been changed by `g`. -/
def Commutes (g : σ → σ) (c : EStateM ε σ α) : Prop :=
  ∀ s, c (g s) = match c s with
    | .ok a s' => .ok a (g s')
    | .error e s' => .error e (g s')

section Commutes

variable {g : σ → σ} {c d : EStateM ε σ α} {f : α → EStateM ε σ β}

theorem Commutes.pure (a : α) : Commutes g (pure a : EStateM ε σ α) := fun _ => rfl

theorem Commutes.throw (e : ε) : Commutes g (throw e : EStateM ε σ α) := fun _ => rfl

theorem Commutes.modify {h : σ → σ} (hg : ∀ s, h (g s) = g (h s)) :
    Commutes g (modify h : EStateM ε σ PUnit) := fun s => congrArg (EStateM.Result.ok ()) (hg s)

theorem Commutes.bind (hc : Commutes g c) (hf : ∀ a, Commutes g (f a)) : Commutes g (c >>= f) := by
  intro s
  show EStateM.bind c f (g s) = _
  rw [EStateM.bind, hc s]
  show _ = match EStateM.bind c f s with
    | .ok a s' => EStateM.Result.ok a (g s')
    | .error e s' => EStateM.Result.error e (g s')
  rw [EStateM.bind]
  cases c s with
  | ok a s' => exact hf a s'
  | error e s' => rfl

theorem Commutes.ite {p : Prop} [Decidable p] (hc : Commutes g c) (hd : Commutes g d) :
    Commutes g (if p then c else d) := by
  split
  · exact hc
  · exact hd

/-- The state is looked at, but not at what `g` changes. -/
theorem Commutes.look {h : σ → EStateM ε σ β} (hg : ∀ s, h (g s) = h s) (hc : ∀ s, Commutes g (h s)) :
    Commutes g (get >>= h) := by
  intro s
  show h (g s) (g s) = _
  rw [hg s]
  exact hc s s

theorem Commutes.wp_iff (hc : Commutes g c) {Q : α → σ → Prop} {E : ε → σ → Prop} {s : σ} :
    wp c Q E (g s) ↔ wp c (fun a s' => Q a (g s')) (fun e s' => E e (g s')) s := by
  rw [wp, wp, hc s]
  cases c s with
  | ok a s' => exact Iff.rfl
  | error e s' => exact Iff.rfl

end Commutes

/-! ### Triples -/

/-- `c`, started where `P` holds, returns where `Q` holds or stops where `E` holds. -/
def TripleOr (E : ε → σ → Prop) (P : σ → Prop) (c : EStateM ε σ α) (Q : α → σ → Prop) : Prop :=
  ∀ s, P s → wp c Q E s

/-- `c`, started where `P` holds, returns where `Q` holds if it returns at all. -/
abbrev Triple (P : σ → Prop) (c : EStateM ε σ α) (Q : α → σ → Prop) : Prop :=
  TripleOr (fun _ _ => True) P c Q

section Triple

variable {E : ε → σ → Prop} {P P' : σ → Prop} {Q Q' : α → σ → Prop} {R : β → σ → Prop} {M : α → σ → Prop}
variable {c d : EStateM ε σ α} {f : α → EStateM ε σ β} {a : α} {e : ε}

theorem TripleOr.pure (h : ∀ s, P s → Q a s) : TripleOr E P (pure a : EStateM ε σ α) Q := h

theorem TripleOr.throw (h : ∀ s, P s → E e s) : TripleOr E P (throw e : EStateM ε σ α) Q := h

theorem Triple.throw : Triple P (throw e : EStateM ε σ α) Q := TripleOr.throw fun _ _ => trivial

theorem TripleOr.pre (t : TripleOr E P c Q) (h : ∀ s, P' s → P s) : TripleOr E P' c Q :=
  fun s hs => t s (h s hs)

theorem TripleOr.post (t : TripleOr E P c Q) (h : ∀ a s, Q a s → Q' a s) : TripleOr E P c Q' :=
  fun s hs => wp_mono (t s hs) h fun _ _ he => he

/-- **One command after the other.** -/
theorem TripleOr.bind (hc : TripleOr E P c M) (hf : ∀ a, TripleOr E (M a) (f a) R) :
    TripleOr E P (c >>= f) R := by
  intro s hs
  rw [wp_bind]
  exact wp_mono (hc s hs) (fun a s' h => hf a s' h) fun _ _ he => he

theorem TripleOr.ite {p : Prop} [Decidable p] (hc : p → TripleOr E P c Q) (hd : ¬p → TripleOr E P d Q) :
    TripleOr E P (if p then c else d) Q := by
  split
  · rename_i hp
    exact hc hp
  · rename_i hp
    exact hd hp

/-- The state is looked at. -/
theorem TripleOr.now {g : σ → EStateM ε σ β} (h : ∀ s, P s → wp (g s) R E s) :
    TripleOr E P (get >>= g) R := by
  intro s hs
  rw [wp_bind]
  exact h s hs

/-- The state is looked at, and what is seen does not matter. -/
theorem TripleOr.look {g : σ → EStateM ε σ β} (h : ∀ s, TripleOr E P (g s) R) :
    TripleOr E P (get >>= g) R := TripleOr.now fun s hs => h s s hs

end Triple

end OldLinux.Lib
