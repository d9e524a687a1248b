import OldLinux.Lib.Numerals

/-!
# Processes that share a state and switch where they sleep

The code of a process is a tree of steps on a state that all processes share and on a state of its
own.  A process keeps the processor until it has to wait for a condition that does not hold or has
come to the end of its code; interrupts may change the shared state between any two steps.

`wp` is the weakest precondition of such code.  A discipline fixes an invariant that every step
keeps, what interrupts may do, what has to hold where a process is and under which condition steps
are considered.  While a process sleeps everything may change but its own state and the invariant,
so between two functions only what the own state says is carried over.
-/

namespace OldLinux.Lib.Processes

open Function

variable {Λ K L α β : Type} {ι : Type*}

/-- The code of a process.  A step changes the state and goes on with what the shared state was
before it; each step names the place in the source it stands for. -/
inductive Code (Λ K L : Type) (α : Type) where
  | ret (a : α)
  | step (e : Λ) (f : K → L → K × L) (next : K → Code Λ K L α)
  | await (e : Λ) (c : K → Bool) (next : Code Λ K L α)
  | panic (msg : String)

namespace Code

/-- One piece of code after the other. -/
def bind : Code Λ K L α → (α → Code Λ K L β) → Code Λ K L β
  | .ret a, g => g a
  | .step e f next, g => .step e f fun k => (next k).bind g
  | .await e c next, g => .await e c (next.bind g)
  | .panic msg, _ => .panic msg

instance : Monad (Code Λ K L) where
  pure := .ret
  bind := bind

/-- The place a process has come to. -/
def place : Code Λ K L α → Option Λ
  | .step e _ _ => some e
  | .await e _ _ => some e
  | _ => none

/-- The message of a process that has come to a panic. -/
def message : Code Λ K L α → Option String
  | .panic msg => some msg
  | _ => none

end Code

/-- The shared state as it is at this place. -/
def look (e : Λ) : Code Λ K L K := .step e (fun k x => (k, x)) .ret

/-- A change of the state; the shared state before it is the result. -/
def change (e : Λ) (f : K → L → K × L) : Code Λ K L K := .step e f .ret

/-- Sleep until the condition holds. -/
def await (e : Λ) (c : K → Bool) : Code Λ K L Unit := .await e c (.ret ())

/-- The same code for each element of a list. -/
def forEach (l : List α) (body : α → Code Λ K L Unit) : Code Λ K L Unit :=
  match l with
  | [] => pure ()
  | a :: l => do
      body a
      forEach l body

/-! ## Weakest preconditions -/

/-- The rules that all processes keep. -/
structure Discipline (Λ K L : Type) (ι : Type*) where
  /-- What holds between any two steps. -/
  inv : K → (ι → L) → Prop
  /-- What interrupts may do to the shared state. -/
  later : K → K → Prop
  /-- What has to hold where a process is at this place. -/
  must : ι → Λ → K → (ι → L) → Prop
  /-- The condition under which the step at this place is considered. -/
  may : ι → Λ → K → (ι → L) → Prop
  /-- What a step of a process does to the shared state. -/
  guarantee : K → K → Prop
  /-- The panics that are not excluded. -/
  mayPanic : String → Prop
  /-- What holds of a process that is at the end of its code. -/
  idle : L → Prop

variable [DecidableEq ι] {D : Discipline Λ K L ι} {p : ι}

/-- From this state on the code of process `p` keeps the discipline, and if it comes to its end `Q`
holds of its value and the state. -/
def wp (D : Discipline Λ K L ι) (p : ι) : Code Λ K L α → (α → K → (ι → L) → Prop) → K → (ι → L) → Prop
  | .ret a, Q, k, l => Q a k l
  | .step e f next, Q, k, l => ∀ k', D.later k k' → D.inv k' l →
      D.must p e k' l ∧ (D.may p e k' l →
        D.guarantee k' (f k' (l p)).1 ∧ D.inv (f k' (l p)).1 (update l p (f k' (l p)).2) ∧
          wp D p (next k') Q (f k' (l p)).1 (update l p (f k' (l p)).2))
  | .await e c next, Q, k, l => ∀ k', D.later k k' → D.inv k' l →
      D.must p e k' l ∧ (D.may p e k' l → (c k' = true → wp D p next Q k' l) ∧
          (c k' = false → ∀ k'' l'', D.inv k'' l'' → l'' p = l p →
            D.must p e k'' l'' ∧ (D.may p e k'' l'' → c k'' = true → wp D p next Q k'' l'')))
  | .panic msg, _, _, _ => D.mayPanic msg

theorem wp_mono {c : Code Λ K L α} {Q Q' : α → K → (ι → L) → Prop} {k : K} {l : ι → L}
    (h : wp D p c Q k l) (hQ : ∀ a k l, Q a k l → Q' a k l) : wp D p c Q' k l := by
  induction c generalizing k l with
  | ret a => exact hQ a k l h
  | step e f next ih =>
    intro k' hk hinv
    refine ⟨(h k' hk hinv).1, fun hmay => ?_⟩
    obtain ⟨hguarantee, hinv', hnext⟩ := (h k' hk hinv).2 hmay
    exact ⟨hguarantee, hinv', ih k' hnext⟩
  | await e c next ih =>
    intro k' hk hinv
    refine ⟨(h k' hk hinv).1, fun hmay => ⟨fun hc => ih (((h k' hk hinv).2 hmay).1 hc), ?_⟩⟩
    intro hc k'' l'' hinv' hl
    have hwake := ((h k' hk hinv).2 hmay).2 hc k'' l'' hinv' hl
    exact ⟨hwake.1, fun hmay' hc' => ih (hwake.2 hmay' hc')⟩
  | panic msg => exact h

@[simp]
theorem wp_pure (a : α) (Q : α → K → (ι → L) → Prop) (k : K) (l : ι → L) :
    wp D p (pure a) Q k l ↔ Q a k l := Iff.rfl

@[simp]
theorem wp_bind (c : Code Λ K L α) (g : α → Code Λ K L β) (Q : β → K → (ι → L) → Prop) (k : K) (l : ι → L) :
    wp D p (c >>= g) Q k l ↔ wp D p c (fun a k l => wp D p (g a) Q k l) k l := by
  show wp D p (c.bind g) Q k l ↔ _
  induction c generalizing k l with
  | ret a => exact Iff.rfl
  | step e f next ih =>
    simp only [Code.bind, wp, ih]
  | await e c next ih =>
    simp only [Code.bind, wp, ih]
  | panic msg => exact Iff.rfl

theorem wp_look (hrefl : ∀ k, D.guarantee k k) (e : Λ) (Q : K → K → (ι → L) → Prop) (k : K) (l : ι → L) :
    wp D p (look e) Q k l ↔ ∀ k', D.later k k' → D.inv k' l → D.must p e k' l ∧
    (D.may p e k' l → Q k' k' l) := by
  show (∀ k', D.later k k' → D.inv k' l → D.must p e k' l ∧ (D.may p e k' l → D.guarantee k' k' ∧
    D.inv k' (update l p (l p)) ∧ Q k' k' (update l p (l p)))) ↔ _
  rw [update_eq_self]
  constructor
  · intro h k' hk hinv
    exact ⟨(h k' hk hinv).1, fun hmay => ((h k' hk hinv).2 hmay).2.2⟩
  · intro h k' hk hinv
    exact ⟨(h k' hk hinv).1, fun hmay => ⟨hrefl k', hinv, (h k' hk hinv).2 hmay⟩⟩

theorem wp_change (e : Λ) (f : K → L → K × L) (Q : K → K → (ι → L) → Prop) (k : K) (l : ι → L) :
    wp D p (change e f) Q k l ↔ ∀ k', D.later k k' → D.inv k' l → D.must p e k' l ∧ (D.may p e k' l →
        D.guarantee k' (f k' (l p)).1 ∧ D.inv (f k' (l p)).1 (update l p (f k' (l p)).2) ∧
          Q k' (f k' (l p)).1 (update l p (f k' (l p)).2)) := Iff.rfl

theorem wp_await (e : Λ) (c : K → Bool) (Q : Unit → K → (ι → L) → Prop) (k : K) (l : ι → L) :
    wp D p (await e c) Q k l ↔ ∀ k', D.later k k' → D.inv k' l → D.must p e k' l ∧ (D.may p e k' l →
        (c k' = true → Q () k' l) ∧ (c k' = false → ∀ k'' l'', D.inv k'' l'' → l'' p = l p →
            D.must p e k'' l'' ∧ (D.may p e k'' l'' → c k'' = true → Q () k'' l''))) := Iff.rfl

theorem wp_panic (msg : String) (Q : α → K → (ι → L) → Prop) (k : K) (l : ι → L) :
    wp D p (.panic msg) Q k l ↔ D.mayPanic msg := Iff.rfl

/-- Code that starts in any state in which the own state is `x` keeps the discipline, and what
comes out of it is said by its value and the own state. -/
def Does (D : Discipline Λ K L ι) (p : ι) (x : L) (c : Code Λ K L α) (post : α → L → Prop) : Prop :=
  ∀ k l, l p = x → wp D p c (fun a _ l => post a (l p)) k l

theorem Does.bind {x : L} {c : Code Λ K L α} {g : α → Code Λ K L β} {mid : α → L → Prop}
    {post : β → L → Prop} (h : Does D p x c mid) (hg : ∀ a y, mid a y → Does D p y (g a) post) :
    Does D p x (c >>= g) post := by
  intro k l hl
  rw [wp_bind]
  apply wp_mono (h k l hl)
  intro a k l hmid
  exact hg a (l p) hmid k l rfl

/-- What comes after a part that leaves the own state as it is. -/
theorem Does.then {x : L} {c : Code Λ K L α} {g : α → Code Λ K L β} {post : β → L → Prop}
    (h : Does D p x c fun _ y => y = x) (hg : ∀ a, Does D p x (g a) post) : Does D p x (c >>= g) post := by
  refine h.bind ?_
  rintro a _ rfl
  exact hg a

theorem Does.mono {x : L} {c : Code Λ K L α} {post post' : α → L → Prop} (h : Does D p x c post)
    (hpost : ∀ a y, post a y → post' a y) : Does D p x c post' := by
  intro k l hl
  exact wp_mono (h k l hl) (fun a k l hp => hpost a (l p) hp)

theorem Does.pure {x : L} {a : α} {post : α → L → Prop} (h : post a x) : Does D p x (Pure.pure a) post := by
  intro k l hl
  rw [wp_pure, hl]
  exact h

/-- A loop keeps what its body keeps. -/
theorem Does.forEach_of {I : L → Prop} {x : L} {items : List α} {body : α → Code Λ K L Unit} (hx : I x)
    (h : ∀ a ∈ items, ∀ y, I y → Does D p y (body a) fun _ z => I z) :
    Does D p x (forEach items body) fun _ y => I y := by
  induction items generalizing x with
  | nil => exact Does.pure hx
  | cons a items ih =>
    apply Does.bind (h a List.mem_cons_self x hx)
    intro _ y hy
    exact ih hy fun b hb => h b (List.mem_cons_of_mem a hb)

theorem Does.forEach {x : L} {items : List α} {body : α → Code Λ K L Unit}
    (h : ∀ a ∈ items, Does D p x (body a) fun _ y => y = x) :
    Does D p x (forEach items body) fun _ y => y = x := by
  apply Does.forEach_of (I := fun y => y = x) rfl
  intro a ha y hy
  rw [hy]
  exact h a ha

/-! ## Systems -/

/-- Processes with their own states and code; at most one of them has the processor. -/
structure System (Λ K L : Type) (ι : Type*) where
  shared : K
  own : ι → L
  code : ι → Code Λ K L Unit
  running : Option ι

namespace System

variable {s s' : System Λ K L ι}

/-- The processor is free for the process. -/
def Free (s : System Λ K L ι) (p : ι) : Prop := s.running = none ∨ s.running = some p

instance (s : System Λ K L ι) (p : ι) : Decidable (s.Free p) := inferInstanceAs (Decidable (_ ∨ _))

/-- One step of a process. -/
def turn (s : System Λ K L ι) (p : ι) : Option (System Λ K L ι) :=
  if s.Free p then
    match s.code p with
    | .ret _ => none
    | .step _ f next =>
      some ⟨(f s.shared (s.own p)).1, update s.own p (f s.shared (s.own p)).2,
        update s.code p (next s.shared), some p⟩
    | .await _ c next =>
      if c s.shared then some { s with code := update s.code p next, running := some p }
      else some { s with running := none }
    | .panic _ => none
  else none

/-- A process that is at the end of its code goes on with new code. -/
def start (s : System Λ K L ι) (p : ι) (c : Code Λ K L Unit) : Option (System Λ K L ι) :=
  match s.code p with
  | .ret _ =>
    if s.Free p then some { s with code := update s.code p c, running := some p } else none
  | _ => none

/-- A process that is at the end of its code gives the processor away. -/
def rest (s : System Λ K L ι) (p : ι) : Option (System Λ K L ι) :=
  match s.code p with
  | .ret _ => if s.running = some p then some { s with running := none } else none
  | _ => none

def interrupt (s : System Λ K L ι) (k : K) : System Λ K L ι := { s with shared := k }

end System

/-- Every process keeps the discipline from where it is: one that does not have the processor
knows its own state only. -/
structure Sound (D : Discipline Λ K L ι) (s : System Λ K L ι) : Prop where
  inv : D.inv s.shared s.own
  running : ∀ p, s.running = some p → wp D p (s.code p) (fun _ _ l => D.idle (l p)) s.shared s.own
  asleep : ∀ p, s.running ≠ some p → ∀ k l, D.inv k l → l p = s.own p →
    wp D p (s.code p) (fun _ _ l => D.idle (l p)) k l

namespace Sound

variable {s s' : System Λ K L ι}

/-- Code that keeps the discipline keeps it after an interrupt. -/
theorem wp_later {c : Code Λ K L α} {k k' : K} {l : ι → L}
    (htrans : ∀ k₁ k₂ k₃, D.later k₁ k₂ → D.later k₂ k₃ → D.later k₁ k₃)
    (h : wp D p c (fun _ _ l => D.idle (l p)) k l) (hk : D.later k k') :
    wp D p c (fun _ _ l => D.idle (l p)) k' l := by
  cases c with
  | ret a => exact h
  | step e f next => exact fun k'' hk' => h k'' (htrans _ _ _ hk hk')
  | await e c next => exact fun k'' hk' => h k'' (htrans _ _ _ hk hk')
  | panic msg => exact h

/-- What a process that has the processor can rely on. -/
theorem wp_of_free (h : Sound D s) (hfree : s.Free p) :
    wp D p (s.code p) (fun _ _ l => D.idle (l p)) s.shared s.own := by
  rcases hfree with hnone | hsome
  · exact h.asleep p (by simp [hnone]) _ _ h.inv rfl
  · exact h.running p hsome

/-- Where it is, a process keeps the discipline, whether it has the processor or not. -/
theorem wp_code (h : Sound D s) (p : ι) : wp D p (s.code p) (fun _ _ l => D.idle (l p)) s.shared s.own := by
  by_cases hrun : s.running = some p
  · exact h.running p hrun
  · exact h.asleep p hrun _ _ h.inv rfl

/-- A process that is at the end of its code. -/
theorem idle {a : Unit} (h : Sound D s) (hp : s.code p = .ret a) : D.idle (s.own p) := by
  have hwp := h.wp_code p
  rw [hp] at hwp
  exact hwp

/-- A process that has come to a panic. -/
theorem panic {msg : String} (h : Sound D s) (hp : s.code p = .panic msg) : D.mayPanic msg := by
  have hwp := h.wp_code p
  rw [hp] at hwp
  exact hwp

theorem must (h : Sound D s) (hrefl : ∀ k, D.later k k) {e : Λ} (he : (s.code p).place = some e) :
    D.must p e s.shared s.own := by
  have hwp := h.wp_code p
  generalize s.code p = c at he hwp
  cases c with
  | ret a => cases he
  | step e' f next =>
    cases he
    exact (hwp s.shared (hrefl _) h.inv).1
  | await e' c next =>
    cases he
    exact (hwp s.shared (hrefl _) h.inv).1
  | panic msg => cases he

/-- The process has gone on while the others have kept their own states. -/
theorem moved (h : Sound D s) {k : K} {l : ι → L} {c : Code Λ K L Unit} (hfree : s.Free p)
    (hinv : D.inv k l) (hl : ∀ q, q ≠ p → l q = s.own q)
    (hwp : wp D p c (fun _ _ l => D.idle (l p)) k l) :
    Sound D ⟨k, l, update s.code p c, some p⟩ := by
  refine ⟨hinv, ?_, ?_⟩
  · intro q hq
    cases hq
    show wp D p (update s.code p c p) _ k l
    rw [update_self]
    exact hwp
  · intro q hq k' l' hinv' hl'
    have hne : q ≠ p := fun hqp => hq (congrArg some hqp.symm)
    show wp D q (update s.code p c q) _ k' l'
    rw [update_of_ne hne]
    apply h.asleep q ?_ k' l' hinv' (hl'.trans (hl q hne))
    intro hrun
    rcases hfree with hnone | hsome
    · rw [hnone] at hrun
      cases hrun
    · rw [hsome] at hrun
      exact hne (Option.some.inj hrun).symm

/-- **A step of a process** keeps the discipline. -/
theorem turn (h : Sound D s) (hrefl : ∀ k, D.later k k)
    (hmay : ∀ e, (s.code p).place = some e → D.may p e s.shared s.own)
    (hs : s.turn p = some s') : Sound D s' := by
  rw [System.turn] at hs
  split at hs
  · rename_i hfree
    have hwp := h.wp_of_free hfree
    cases hc : s.code p with
    | ret a =>
      rw [hc] at hs
      cases hs
    | step e f next =>
      rw [hc] at hs hwp hmay
      cases hs
      have hstep := (hwp _ (hrefl _) h.inv).2 (hmay e rfl)
      exact h.moved hfree hstep.2.1 (fun q hq => update_of_ne hq _ _) hstep.2.2
    | await e c next =>
      rw [hc] at hs hwp hmay
      have hstep := (hwp _ (hrefl _) h.inv).2 (hmay e rfl)
      simp only at hs
      split at hs
      · rename_i hcond
        cases hs
        exact h.moved hfree h.inv (fun _ _ => rfl) (hstep.1 hcond)
      · rename_i hcond
        cases hs
        refine ⟨h.inv, fun q hq => absurd hq (by simp), ?_⟩
        intro q _ k l hinv hl
        by_cases hq : s.running = some q
        · have hqp : q = p := by
            rcases hfree with hnone | hsome
            · rw [hnone] at hq
              cases hq
            · rw [hsome] at hq
              exact (Option.some.inj hq).symm
          rw [hqp] at hl ⊢
          show wp D p (s.code p) _ k l
          rw [hc]
          have hwake : ∀ k'', D.inv k'' l → D.must p e k'' l ∧
              (D.may p e k'' l → c k'' = true → wp D p next (fun _ _ l => D.idle (l p)) k'' l) :=
            fun k'' hinv'' => hstep.2 (by simpa using hcond) k'' l hinv'' hl
          intro k' _ hinv'
          refine ⟨(hwake k' hinv').1, fun hm => ⟨fun hck => (hwake k' hinv').2 hm hck, ?_⟩⟩
          intro _ k'' l'' hinv'' hl''
          exact hstep.2 (by simpa using hcond) k'' l'' hinv'' (hl''.trans hl)
        · exact h.asleep q hq k l hinv hl
    | panic msg =>
      rw [hc] at hs
      cases hs
  · cases hs

/-- What a process does with the shared state in one step. -/
theorem guarantee (h : Sound D s) (hrefl : ∀ k, D.later k k) (hsame : ∀ k, D.guarantee k k)
    (hmay : ∀ e, (s.code p).place = some e → D.may p e s.shared s.own)
    (hs : s.turn p = some s') : D.guarantee s.shared s'.shared := by
  rw [System.turn] at hs
  split at hs
  · rename_i hfree
    have hwp := h.wp_of_free hfree
    cases hc : s.code p with
    | ret a =>
      rw [hc] at hs
      cases hs
    | step e f next =>
      rw [hc] at hs hwp hmay
      cases hs
      exact ((hwp _ (hrefl _) h.inv).2 (hmay e rfl)).1
    | await e c next =>
      rw [hc] at hs
      simp only at hs
      split at hs <;> cases hs <;> exact hsame _
    | panic msg =>
      rw [hc] at hs
      cases hs
  · cases hs

theorem start {c : Code Λ K L Unit} (h : Sound D s)
    (hc : wp D p c (fun _ _ l => D.idle (l p)) s.shared s.own) (hs : s.start p c = some s') : Sound D s' := by
  rw [System.start] at hs
  split at hs
  · split at hs
    · rename_i hfree
      cases hs
      exact h.moved hfree h.inv (fun _ _ => rfl) hc
    · cases hs
  · cases hs

theorem rest (h : Sound D s) (hs : s.rest p = some s') : Sound D s' := by
  rw [System.rest] at hs
  split at hs
  · rename_i hret
    split at hs
    · rename_i hrun
      cases hs
      refine ⟨h.inv, fun q hq => absurd hq (by simp), ?_⟩
      intro q _ k l hinv hl
      by_cases hq : s.running = some q
      · have hqp : q = p := Option.some.inj (hq.symm.trans hrun)
        have hidle := h.running q hq
        rw [hqp] at hidle hl
        rw [hret] at hidle
        show wp D q (s.code q) _ k l
        rw [hqp, hret]
        show D.idle (l p)
        rw [hl]
        exact hidle
      · exact h.asleep q hq k l hinv hl
    · cases hs
  · cases hs

theorem interrupt {k : K} (h : Sound D s) (htrans : ∀ k₁ k₂ k₃, D.later k₁ k₂ → D.later k₂ k₃ → D.later k₁ k₃)
    (hlater : D.later s.shared k) (hinv : D.inv k s.own) : Sound D (s.interrupt k) :=
  ⟨hinv, fun p hp => wp_later htrans (h.running p hp) hlater, h.asleep⟩

end Sound

end OldLinux.Lib.Processes
