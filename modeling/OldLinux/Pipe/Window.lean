import OldLinux.Pipe.Machine

/-!
# The window of a pipe

The head and the tail are positions in one stream of bytes, taken modulo the page.  In between lies
what the ring holds.  A call in its copy loop works on a part of the stream: a reader behind the tail,
a writer before the head.  While no part of one side runs into a part of the other, every byte of the
page belongs to one position of the stream only.
-/

namespace OldLinux.Pipe

open Lib Sched Machine

variable {σ τ : Machine} {P Q : ℕ} {c : Call} {pc : Pc}

/-! ### What a step does to the calls and the stream -/

@[simp] theorem set_task (σ : Machine) (P : ℕ) (t : Task) : (σ.set P t).task P = t := by
  simp [Machine.set]

theorem set_task_of_ne (σ : Machine) (t : Task) (h : Q ≠ P) : (σ.set P t).task Q = σ.task Q := by
  simp [Machine.set, h]

theorem move_task (σ : Machine) (side : Side) (i n : ℕ) : (σ.move side i n).task = σ.task := by
  cases side with
  | read => rfl
  | write => rfl

theorem move_current (σ : Machine) (side : Side) (i n : ℕ) : (σ.move side i n).current = σ.current := by
  cases side with
  | read => rfl
  | write => rfl

/-- The part of the state that the stream is about. -/
structure SameStream (σ τ : Machine) : Prop where
  head : τ.head = σ.head
  tail : τ.tail = σ.tail
  announced : τ.announced = σ.announced
  released : τ.released = σ.released

/-- The part of the state that the bytes are about. -/
structure SameBytes (σ τ : Machine) : Prop extends SameStream σ τ where
  page : τ.page = σ.page
  accepted : τ.accepted = σ.accepted
  delivered : τ.delivered = σ.delivered

/-- **What a step can do.**  The process that runs goes from one place to the next; what it does to the
stream and to the bytes depends on the place. -/
inductive Does (σ τ : Machine) : Option (Call × Pc) → Option (Call × Pc) → Prop
  /-- outside of the kernel -/
  | user : SameBytes σ τ → Does σ τ none none
  | start (side : Side) (buf : ℕ) (count : ℤ) : SameBytes σ τ →
      Does σ τ none (some (⟨side, count, buf, count, 0, 0⟩, .loop))
  | enter (c : Call) : 0 < c.count → SameBytes σ τ → Does σ τ (some (c, .loop)) (some (c, .check))
  /-- all was copied -/
  | done (c : Call) : ¬0 < c.count → SameBytes σ τ → (τ.task σ.current).eax = c.done →
    Does σ τ (some (c, .loop)) none
  /-- the other end is closed -/
  | broken (c : Call) : σ.room c.side = 0 → σ.iCount ≠ 2 → SameBytes σ τ → Does σ τ (some (c, .check)) none
  | sleep (c : Call) : SameBytes σ τ → Does σ τ (some (c, .check)) (some (c, .asleep))
  | advance (c : Call) : σ.room c.side ≠ 0 → τ = σ.advance σ.current c → Does σ τ (some (c, .check))
        (some ({ c with count := c.count - σ.chars c, done := c.done + σ.chars c,
                        pos := σ.total c.side }, .copy (σ.index c.side) (σ.chars c).toNat))
  | slept (c : Call) : SameBytes σ τ → Does σ τ (some (c, .asleep)) (some (c, .check))
  | copied (c : Call) (s : ℕ) : SameBytes σ τ → Does σ τ (some (c, .copy s 0)) (some (c, .loop))
  | fault (c : Call) (s n : ℕ) : (σ.task σ.current).absent (c.buf / 4096) = true →
      SameBytes σ τ → Does σ τ (some (c, .copy s (n + 1))) (some (c, .fault s (n + 1)))
  | transfer (c : Call) (s n : ℕ) : SameStream σ τ → τ.page = (σ.transfer σ.current c s).page →
      τ.accepted = (σ.transfer σ.current c s).accepted →
      τ.delivered = (σ.transfer σ.current c s).delivered →
      Does σ τ (some (c, .copy s (n + 1)))
      (some ({ c with buf := c.buf + 1, pos := c.pos + 1 }, .copy (s + 1) n))
  | loaded (c : Call) (s n : ℕ) : SameBytes σ τ → Does σ τ (some (c, .fault s n)) (some (c, .copy s n))

theorem micro_does (hcall : (σ.task σ.current).call = some (c, pc)) :
      Does σ (σ.micro σ.current c pc) (some (c, pc))
      ((σ.micro σ.current c pc).task σ.current).call ∧
    (σ.micro σ.current c pc).current = σ.current ∧
    ∀ Q, Q ≠ σ.current → (σ.micro σ.current c pc).task Q = σ.task Q := by
  cases pc with
  | loop =>
    rw [micro]
    split
    · rename_i h
      simp only [setCall, set_task]
      exact ⟨Does.enter c h ⟨⟨rfl, rfl, rfl, rfl⟩, rfl, rfl, rfl⟩, rfl, fun Q hQ => set_task_of_ne _ _ hQ⟩
    · rename_i h
      simp only [ret, set_task]
      refine ⟨Does.done c h ⟨⟨rfl, rfl, rfl, rfl⟩, rfl, rfl, rfl⟩ ?_, rfl, fun Q hQ => set_task_of_ne _ _ hQ⟩
      rw [set_task]
  | check =>
    rw [micro]
    split
    · rename_i hroom
      split
      · rename_i hcount
        rw [Machine.broken]
        cases hside : c.side with
        | read =>
          simp only [ret, set_task]
          exact ⟨Does.broken c hroom hcount ⟨⟨rfl, rfl, rfl, rfl⟩, rfl, rfl, rfl⟩, rfl,
            fun Q hQ => set_task_of_ne _ _ hQ⟩
        | write =>
          simp only [ret, set_task]
          refine ⟨Does.broken c hroom hcount ⟨⟨rfl, rfl, rfl, rfl⟩, rfl, rfl, rfl⟩, rfl, ?_⟩
          intro Q hQ
          rw [set_task_of_ne _ _ hQ, set_task_of_ne _ _ hQ]
          rfl
      · simp only [setCall, set_task]
        exact ⟨Does.sleep c ⟨⟨rfl, rfl, rfl, rfl⟩, rfl, rfl, rfl⟩, rfl, fun Q hQ => set_task_of_ne _ _ hQ⟩
    · rename_i hroom
      have htask : ∀ Q, Q ≠ σ.current → (σ.advance σ.current c).task Q = σ.task Q := by
        intro Q hQ
        rw [Machine.advance, setCall, set_task_of_ne _ _ hQ, move_task]
      have hcur : (σ.advance σ.current c).current = σ.current := by
        rw [Machine.advance, setCall, Machine.set]
        exact move_current ..
      have hself : ((σ.advance σ.current c).task σ.current).call =
          some ({ c with count := c.count - σ.chars c, done := c.done + σ.chars c,
                         pos := σ.total c.side }, .copy (σ.index c.side) (σ.chars c).toNat) := by
        rw [Machine.advance, setCall, set_task]
      rw [hself]
      exact ⟨Does.advance c hroom rfl, hcur, htask⟩
  | asleep =>
    simp only [micro, setCall, set_task]
    exact ⟨Does.slept c ⟨⟨rfl, rfl, rfl, rfl⟩, rfl, rfl, rfl⟩, rfl, fun Q hQ => set_task_of_ne _ _ hQ⟩
  | copy s n =>
    cases n with
    | zero =>
      simp only [micro, setCall, set_task]
      exact ⟨Does.copied c s ⟨⟨rfl, rfl, rfl, rfl⟩, rfl, rfl, rfl⟩, rfl, fun Q hQ => set_task_of_ne _ _ hQ⟩
    | succ n =>
      rw [micro]
      split
      · rename_i habs
        simp only [setCall, set_task]
        exact ⟨Does.fault c s n habs ⟨⟨rfl, rfl, rfl, rfl⟩, rfl, rfl, rfl⟩, rfl,
          fun Q hQ => set_task_of_ne _ _ hQ⟩
      · simp only [setCall, set_task]
        refine ⟨Does.transfer c s n ?_ rfl rfl rfl, ?_, ?_⟩
        · rw [Machine.transfer]
          cases c.side with
          | read => exact ⟨rfl, rfl, rfl, rfl⟩
          | write => exact ⟨rfl, rfl, rfl, rfl⟩
        · rw [Machine.transfer]
          cases c.side with
          | read => rfl
          | write => rfl
        · intro Q hQ
          rw [set_task_of_ne _ _ hQ, Machine.transfer]
          cases c.side with
          | read => exact set_task_of_ne _ _ hQ
          | write => rfl
  | fault s n =>
    simp only [micro, setCall, set_task]
    refine ⟨Does.loaded c s n ⟨⟨rfl, rfl, rfl, rfl⟩, rfl, rfl, rfl⟩, rfl, ?_⟩
    intro Q hQ
    rw [set_task_of_ne _ _ hQ, set_task_of_ne _ _ hQ]

/-- **Every step** switches to another process, or is one of the process that runs. -/
theorem step_does {e : Event} (hs : step σ e = some τ) :
    (∃ P, σ.yields = true ∧ P < 64 ∧ τ = { σ with current := P }) ∨
    ((σ.task σ.current).call ≠ none → e = .run) ∧ τ.current = σ.current ∧
      Does σ τ (σ.task σ.current).call (τ.task σ.current).call ∧
      ∀ Q, Q ≠ σ.current → (τ.task Q).call = (σ.task Q).call := by
  cases e with
  | run =>
    rw [step] at hs
    split at hs
    · cases hs
    · rename_i c pc hcall
      obtain ⟨-, hs⟩ := Option.ite_none_right_eq_some.1 hs
      cases hs
      obtain ⟨h1, h2, h3⟩ := micro_does hcall
      right
      rw [hcall]
      exact ⟨fun _ => rfl, h2, h1, fun Q hQ => by rw [h3 Q hQ]⟩
  | switch P =>
    obtain ⟨hc, hs⟩ := Option.ite_none_right_eq_some.1 hs
    exact Or.inl ⟨P, hc.1, hc.2.1, (Option.some.inj hs).symm⟩
  | call side buf count =>
    obtain ⟨hc, hs⟩ := Option.ite_none_right_eq_some.1 hs
    cases hs
    right
    rw [Option.isNone_iff_eq_none.1 hc.1]
    simp only [setCall, set_task]
    exact ⟨fun h => absurd rfl h, rfl, Does.start side buf count ⟨⟨rfl, rfl, rfl, rfl⟩, rfl, rfl, rfl⟩,
      fun Q hQ => by rw [set_task_of_ne _ _ hQ]⟩
  | user mem absent =>
    obtain ⟨hc, hs⟩ := Option.ite_none_right_eq_some.1 hs
    cases hs
    right
    have hnone := Option.isNone_iff_eq_none.1 hc
    simp only [set_task, hnone]
    exact ⟨fun h => absurd rfl h, rfl, Does.user ⟨⟨rfl, rfl, rfl, rfl⟩, rfl, rfl, rfl⟩,
      fun Q hQ => by rw [set_task_of_ne _ _ hQ]⟩
  | fork nr =>
    obtain ⟨hc, hs⟩ := Option.ite_none_right_eq_some.1 hs
    cases hs
    right
    have hnone := Option.isNone_iff_eq_none.1 hc.1
    have hnr := Option.isNone_iff_eq_none.1 hc.2.2.2.1
    rw [set_task_of_ne _ _ (Ne.symm hc.2.2.1), hnone]
    refine ⟨fun h => absurd rfl h, rfl, Does.user ⟨⟨rfl, rfl, rfl, rfl⟩, rfl, rfl, rfl⟩, ?_⟩
    intro Q _
    by_cases hQ : Q = nr
    · rw [hQ, set_task, hnr]
      exact hnone
    · rw [set_task_of_ne _ _ hQ]
  | close side =>
    obtain ⟨hc, hs⟩ := Option.ite_none_right_eq_some.1 hs
    cases hs
    right
    have hnone := Option.isNone_iff_eq_none.1 hc.1
    rw [hnone, Machine.close]
    split
    · simp only [set_task, hnone]
      exact ⟨fun h => absurd rfl h, rfl, Does.user ⟨⟨rfl, rfl, rfl, rfl⟩, rfl, rfl, rfl⟩,
        fun Q hQ => by rw [set_task_of_ne _ _ hQ]⟩
    · simp only [wakeUp, set_task, hnone]
      exact ⟨fun h => absurd rfl h, rfl, Does.user ⟨⟨rfl, rfl, rfl, rfl⟩, rfl, rfl, rfl⟩,
        fun Q hQ => by rw [set_task_of_ne _ _ hQ]⟩

/-! ### The window -/

/-- The part of the stream a call still has to copy: `n` bytes from `c.pos` on.  For a reader they are
behind the tail and not yet overwritten, for a writer they are between the tail and the head. -/
structure Part (σ : Machine) (c : Call) (s n : ℕ) : Prop where
  index : s = c.pos % 4096
  fits : s + n ≤ 4096
  inside : match c.side with
    | .read => c.pos + n ≤ σ.released ∧ σ.announced ≤ c.pos + 4096
    | .write => σ.released ≤ c.pos ∧ c.pos + n ≤ σ.announced

/-- What is known of a call at each place. -/
def CallOk (σ : Machine) (c : Call) : Pc → Prop
  | .loop => True
  | .check => 0 < c.count
  | .asleep => 0 < c.count
  | .copy s n => 0 < n → Part σ c s n
  | .fault s n => 0 < n ∧ Part σ c s n

structure Window (σ : Machine) : Prop where
  head : σ.head = σ.announced % 4096
  tail : σ.tail = σ.released % 4096
  le : σ.released ≤ σ.announced
  room : σ.announced ≤ σ.released + 4095
  calls : ∀ P c pc, (σ.task P).call = some (c, pc) → CallOk σ c pc
  current : σ.current < 64
  caller : ∀ P c pc, (σ.task P).call = some (c, pc) → P < 64
  /-- whoever does not run gave the processor up -/
  resting : ∀ P c pc, P ≠ σ.current → (σ.task P).call = some (c, pc) → pc = .asleep ∨ ∃ s n, pc = .fault s n

/-- The ring holds what was announced and not released. -/
theorem Window.size (W : Window σ) : σ.size = σ.announced - σ.released := by
  have h1 := W.le
  have h2 := W.room
  rw [Machine.size, W.head, W.tail]
  omega

theorem Part.mono {s n : ℕ} (h : Part σ c s n) (hs : SameStream σ τ) : Part τ c s n := by
  refine ⟨h.index, h.fits, ?_⟩
  rw [hs.announced, hs.released]
  exact h.inside

theorem CallOk.mono (h : CallOk σ c pc) (hs : SameStream σ τ) : CallOk τ c pc := by
  cases pc with
  | loop => trivial
  | check => exact h
  | asleep => exact h
  | copy s n => exact fun hn => (h hn).mono hs
  | fault s n => exact ⟨h.1, h.2.mono hs⟩

theorem Part.next {s n : ℕ} (h : Part σ c s (n + 1)) (hn : 0 < n) :
    Part σ { c with buf := c.buf + 1, pos := c.pos + 1 } (s + 1) n := by
  have h1 := h.index
  have h2 := h.fits
  refine ⟨?_, by omega, ?_⟩
  · show s + 1 = (c.pos + 1) % 4096
    omega
  · have h3 := h.inside
    show match c.side with
      | .read => c.pos + 1 + n ≤ σ.released ∧ σ.announced ≤ c.pos + 1 + 4096
      | .write => σ.released ≤ c.pos + 1 ∧ c.pos + 1 + n ≤ σ.announced
    cases hside : c.side with
    | read =>
      rw [hside] at h3
      simp only at h3 ⊢
      omega
    | write =>
      rw [hside] at h3
      simp only at h3 ⊢
      omega

/-- A step that leaves the head and the tail alone. -/
theorem does_ok {old new : Option (Call × Pc)} (hd : Does σ τ old new)
    (hold : ∀ c pc, old = some (c, pc) → CallOk σ c pc) :
    (SameStream σ τ ∧ ∀ c pc, new = some (c, pc) → CallOk τ c pc) ∨
    ∃ c, old = some (c, .check) ∧ σ.room c.side ≠ 0 ∧ τ = σ.advance σ.current c := by
  cases hd with
  | user hb => exact Or.inl ⟨hb.toSameStream, fun _ _ h => by cases h⟩
  | start side buf count hb =>
    refine Or.inl ⟨hb.toSameStream, ?_⟩
    rintro c pc ⟨⟩
    trivial
  | enter c hc hb =>
    refine Or.inl ⟨hb.toSameStream, ?_⟩
    rintro c pc ⟨⟩
    exact hc
  | done c hc hb => exact Or.inl ⟨hb.toSameStream, fun _ _ h => by cases h⟩
  | broken c hr hc hb => exact Or.inl ⟨hb.toSameStream, fun _ _ h => by cases h⟩
  | sleep c hb =>
    refine Or.inl ⟨hb.toSameStream, ?_⟩
    rintro c pc ⟨⟩
    exact hold c .check rfl
  | advance c hr hτ => exact Or.inr ⟨c, rfl, hr, hτ⟩
  | slept c hb =>
    refine Or.inl ⟨hb.toSameStream, ?_⟩
    rintro c pc ⟨⟩
    exact hold c .asleep rfl
  | copied c s hb =>
    refine Or.inl ⟨hb.toSameStream, ?_⟩
    rintro c pc ⟨⟩
    trivial
  | fault c s n habs hb =>
    refine Or.inl ⟨hb.toSameStream, ?_⟩
    rintro c pc ⟨⟩
    have hpart := hold c (.copy s (n + 1)) rfl (Nat.succ_pos n)
    have hok : CallOk σ c (.fault s (n + 1)) := ⟨Nat.succ_pos n, hpart⟩
    exact hok.mono hb.toSameStream
  | transfer c s n hb _ _ _ =>
    refine Or.inl ⟨hb, ?_⟩
    rintro c' pc ⟨⟩
    have hpart := hold c (.copy s (n + 1)) rfl (Nat.succ_pos n)
    have hok : CallOk σ { c with buf := c.buf + 1, pos := c.pos + 1 } (.copy (s + 1) n) :=
      fun hn => hpart.next hn
    exact hok.mono hb
  | loaded c s n hb =>
    refine Or.inl ⟨hb.toSameStream, ?_⟩
    rintro c pc ⟨⟩
    have hok : CallOk σ c (.copy s n) := fun _ => (hold c (.fault s n) rfl).2
    exact hok.mono hb.toSameStream

/-! ### A round of a call -/

/-- What a round moves: at least one byte, not more than there is room for, not beyond the page. -/
theorem Window.chars (W : Window σ) (hc : 0 < c.count) (hroom : σ.room c.side ≠ 0) :
    1 ≤ σ.chars c ∧ σ.chars c ≤ σ.room c.side ∧ σ.index c.side + σ.chars c ≤ 4096 ∧ σ.chars c ≤ c.count := by
  have hidx : σ.index c.side < 4096 := by
    have h1 := W.head
    have h2 := W.tail
    cases c.side with
    | read =>
      show σ.tail < 4096
      omega
    | write =>
      show σ.head < 4096
      omega
  simp only [Machine.chars]
  split <;> split <;> omega

/-- The process is not blocked in its copy loop on the other side, or what the round moves ends
before the first byte it still has to copy. -/
def Machine.clearOf (σ : Machine) (c : Call) (P : ℕ) : Bool :=
  match (σ.task P).call with
  | some (c', .fault s _) =>
    c'.side == c.side || decide (σ.chars c ≤ ((s : ℤ) - σ.index c.side) % 4096)
  | _ => true

/-- A round keeps clear of the bytes that blocked processes of the other side have still to copy. -/
def Machine.clear (σ : Machine) : Event → Bool
  | .run =>
    match (σ.task σ.current).call with
    | some (c, .check) => (List.range 64).all (σ.clearOf c)
    | _ => true
  | _ => true

theorem clear_other {c' : Call} {s n : ℕ} (hclear : σ.clear .run = true)
    (hcall : (σ.task σ.current).call = some (c, .check)) (hP : P < 64)
    (hfault : (σ.task P).call = some (c', .fault s n)) (hside : c'.side ≠ c.side) :
    σ.chars c ≤ ((s : ℤ) - σ.index c.side) % 4096 := by
  rw [Machine.clear] at hclear
  simp only [hcall, List.all_eq_true, List.mem_range] at hclear
  have h := hclear P hP
  rw [clearOf] at h
  simp only [hfault, Bool.or_eq_true, beq_iff_eq, decide_eq_true_eq] at h
  rcases h with h | h
  · exact absurd h hside
  · exact h

theorem advance_read (hside : c.side = .read) : (σ.advance P c).announced = σ.announced ∧
    (σ.advance P c).released = σ.released + (σ.chars c).toNat ∧
    (σ.advance P c).head = σ.head ∧
    (σ.advance P c).tail = (((σ.tail : ℤ) + σ.chars c) % 2 ^ 16 % 4096).toNat := by
  simp [Machine.advance, setCall, Machine.set, hside, move, index]

theorem advance_write (hside : c.side = .write) : (σ.advance P c).announced = σ.announced + (σ.chars c).toNat ∧
    (σ.advance P c).released = σ.released ∧
    (σ.advance P c).head = (((σ.head : ℤ) + σ.chars c) % 2 ^ 16 % 4096).toNat ∧
    (σ.advance P c).tail = σ.tail := by
  simp [Machine.advance, setCall, Machine.set, hside, move, index]

theorem advance_call (σ : Machine) (P : ℕ) (c : Call) : ((σ.advance P c).task P).call =
    some ({ c with count := c.count - σ.chars c, done := c.done + σ.chars c,
                   pos := σ.total c.side }, .copy (σ.index c.side) (σ.chars c).toNat) := by
  rw [Machine.advance, setCall, set_task]

/-- The process that runs moves the head or the tail, and the parts that blocked processes still have to
copy stay inside. -/
theorem Window.advanced (W : Window σ) (hcur : τ.current = σ.current)
    (hothers : ∀ Q, Q ≠ σ.current → (τ.task Q).call = (σ.task Q).call)
    (hhead : τ.head = τ.announced % 4096) (htail : τ.tail = τ.released % 4096)
    (hle : τ.released ≤ τ.announced) (hroom : τ.announced ≤ τ.released + 4095)
    (hown : ∀ c pc, (τ.task σ.current).call = some (c, pc) → CallOk τ c pc)
    (hblocked : ∀ P c s n, (σ.task P).call = some (c, .fault s n) → Part σ c s n → Part τ c s n) :
    Window τ := by
  refine ⟨hhead, htail, hle, hroom, ?_, by rw [hcur]; exact W.current, ?_, ?_⟩
  · intro P c pc hP
    by_cases hPc : P = σ.current
    · exact hown c pc (hPc ▸ hP)
    · rw [hothers P hPc] at hP
      have hok := W.calls P c pc hP
      rcases W.resting P c pc hPc hP with hpc | ⟨s, n, hpc⟩
      · rw [hpc] at hok ⊢
        exact hok
      · rw [hpc] at hok hP ⊢
        exact ⟨hok.1, hblocked P c s n hP hok.2⟩
  · intro P c pc hP
    by_cases hPc : P = σ.current
    · rw [hPc]
      exact W.current
    · rw [hothers P hPc] at hP
      exact W.caller P c pc hP
  · intro P c pc hP hcall
    rw [hcur] at hP
    rw [hothers P hP] at hcall
    exact W.resting P c pc hP hcall

/-- The round of a reader moves the tail, up to the first byte that a writer still has to store, and that
of a writer the head, up to the first byte that a reader still has to take. -/
theorem advance_ok (W : Window σ) (hcall : (σ.task σ.current).call = some (c, .check))
    (hroom : σ.room c.side ≠ 0) (hclear : σ.clear .run = true) {τ : Machine} (hτ : τ = σ.advance σ.current c)
    (hothers : ∀ Q, Q ≠ σ.current → (τ.task Q).call = (σ.task Q).call)
    (hcur : τ.current = σ.current) : Window τ := by
  obtain ⟨h1, h2, h3, -⟩ := W.chars (W.calls _ _ _ hcall) hroom
  have hle := W.le
  have hcap := W.room
  have hsize := W.size
  have htail := W.tail
  have hhead := W.head
  have hread : σ.room .read = σ.announced - σ.released := hsize
  have hwrite : σ.room .write = 4096 - 1 - (σ.announced - σ.released) := by
    rw [← hsize]
    rfl
  have hother : ∀ {P c' s n}, (σ.task P).call = some (c', .fault s n) → c'.side ≠ c.side →
      σ.chars c ≤ ((s : ℤ) - σ.index c.side) % 4096 :=
    fun hP hne => clear_other hclear hcall (W.caller _ _ _ hP) hP hne
  cases hside : c.side with
  | read =>
    obtain ⟨hA, hR, hH, hT⟩ := advance_read (P := σ.current) hside
    rw [← hτ] at hA hR hH hT
    rw [hside] at h2 h3 hother
    rw [hread] at h2
    simp only [index] at h3 hother
    refine W.advanced hcur hothers (by rw [hH, hA, hhead]) (by rw [hT, hR]; omega) (by omega) (by omega) ?_ ?_
    · intro c' pc hP
      rw [hτ, advance_call] at hP
      cases hP
      refine fun _ => ⟨by simp [hside, index, total, htail], ?_, ?_⟩
      · rw [hside, index]
        omega
      · simp only [hside, total, hA, hR]
        omega
    · intro P c' s n hP hpart
      have h4 := hpart.index
      have h6 := hpart.inside
      refine ⟨h4, hpart.fits, ?_⟩
      rw [hA, hR]
      cases hside' : c'.side with
      | read =>
        rw [hside'] at h6
        simp only at h6 ⊢
        omega
      | write =>
        have h7 := hother hP (by rw [hside']; decide)
        rw [hside'] at h6
        simp only at h6 ⊢
        omega
  | write =>
    obtain ⟨hA, hR, hH, hT⟩ := advance_write (P := σ.current) hside
    rw [← hτ] at hA hR hH hT
    rw [hside] at h2 h3 hother
    rw [hwrite] at h2
    simp only [index] at h3 hother
    refine W.advanced hcur hothers (by rw [hH, hA]; omega) (by rw [hT, hR, htail]) (by omega) (by omega) ?_ ?_
    · intro c' pc hP
      rw [hτ, advance_call] at hP
      cases hP
      refine fun _ => ⟨by simp [hside, index, total, hhead], ?_, ?_⟩
      · rw [hside, index]
        omega
      · simp only [hside, total, hA, hR]
        omega
    · intro P c' s n hP hpart
      have h4 := hpart.index
      have h6 := hpart.inside
      refine ⟨h4, hpart.fits, ?_⟩
      rw [hA, hR]
      cases hside' : c'.side with
      | read =>
        have h7 := hother hP (by rw [hside']; decide)
        rw [hside'] at h6
        simp only at h6 ⊢
        omega
      | write =>
        rw [hside'] at h6
        simp only at h6 ⊢
        omega

/-! ### Runs -/

theorem start_window (h : Start σ) : Window σ := by
  refine ⟨?_, ?_, ?_, ?_, ?_, h.current, ?_, ?_⟩
  · rw [h.head, h.announced]
  · rw [h.tail, h.released]
  · simp [h.announced, h.released]
  · simp [h.announced]
  · intro P c pc hP
    rw [h.idle] at hP
    cases hP
  · intro P c pc hP
    rw [h.idle] at hP
    cases hP
  · intro P c pc _ hP
    rw [h.idle] at hP
    cases hP

/-- The process that gives the processor up is outside of the kernel, asleep or waiting for a page. -/
theorem yields_resting (hy : σ.yields = true) (hcall : (σ.task σ.current).call = some (c, pc)) :
    pc = .asleep ∨ ∃ s n, pc = .fault s n := by
  rw [yields, hcall] at hy
  cases pc with
  | asleep => exact Or.inl rfl
  | fault s n => exact Or.inr ⟨s, n, rfl⟩
  | loop => cases hy
  | check => cases hy
  | copy s n => cases hy

theorem step_window {e : Event} (W : Window σ) (hclear : σ.clear e = true) (hs : step σ e = some τ) :
    Window τ := by
  rcases step_does hs with ⟨P, hy, hP, hτ⟩ | ⟨hrun, hcur, hd, hothers⟩
  · rw [hτ]
    refine ⟨W.head, W.tail, W.le, W.room,
      fun Q c pc hQ => (W.calls Q c pc hQ).mono ⟨rfl, rfl, rfl, rfl⟩, hP, W.caller, ?_⟩
    intro Q c pc _ hQ
    by_cases hQc : Q = σ.current
    · rw [hQc] at hQ
      exact yields_resting hy hQ
    · exact W.resting Q c pc hQc hQ
  · rcases does_ok hd (W.calls σ.current) with ⟨hsame, hnew⟩ | ⟨c, hcall, hroom, hτ⟩
    · exact W.advanced hcur hothers (by rw [hsame.head, hsame.announced, W.head])
        (by rw [hsame.tail, hsame.released, W.tail]) (by rw [hsame.announced, hsame.released]; exact W.le)
        (by rw [hsame.announced, hsame.released]; exact W.room) hnew fun P c s n _ hpart => hpart.mono hsame
    · -- only the process that runs moves an index
      have he : e = .run := hrun (by rw [hcall]; exact Option.some_ne_none _)
      rw [he] at hclear
      exact advance_ok W hcall hroom hclear hτ hothers hcur

end OldLinux.Pipe
