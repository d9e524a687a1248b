import OldLinux.Pipe.Window

/-!
# A pipe is a lossless queue

As long as no access of a copy loop faults, the processes of a pipe are interleaved where they call
`sleep_on` only.  Then the bytes that readers get are, in this order, the bytes that writers have put
in, and a call comes back short only when the other end is closed.
-/

namespace OldLinux.Pipe

open Function Lib Sched Machine

variable {σ τ : Machine} {P : ℕ} {c : Call} {pc : Pc} {side : Side} {s n : ℕ}

/-- The next access of the copy loop finds its page. -/
def Machine.noFault (σ : Machine) : Event → Bool
  | .run =>
    match (σ.task σ.current).call with
    | some (c, .copy _ (_ + 1)) => !(σ.task σ.current).absent (c.buf / 4096)
    | _ => true
  | _ => true

/-- The bytes the process that runs has announced or released and not yet copied. -/
def Machine.pending (σ : Machine) (side : Side) : ℕ :=
  match (σ.task σ.current).call with
  | some (c, .copy _ n) => if c.side = side then n else 0
  | _ => 0

theorem pending_of_copy (h : (σ.task σ.current).call = some (c, .copy s n)) (side : Side) :
    σ.pending side = if c.side = side then n else 0 := by
  simp only [pending, h]

theorem pending_of_not_copy (h : ∀ c s n, (σ.task σ.current).call ≠ some (c, .copy s n))
    (side : Side) : σ.pending side = 0 := by
  rw [pending]
  split
  · rename_i c s n hcall
    exact absurd hcall (h c s n)
  · rfl

/-- The bytes of one side that were copied: the length of `delivered` or `accepted`. -/
def Machine.copied (σ : Machine) : Side → ℕ
  | .read => σ.delivered.length
  | .write => σ.accepted.length

/-- The stream of bytes: everything that was put in and not yet taken out is in the page. -/
structure Stream (σ : Machine) : Prop extends Window σ where
  noFault : ∀ P c s n, (σ.task P).call ≠ some (c, .fault s n)
  total : ∀ side, σ.total side = σ.copied side + σ.pending side
  pos : ∀ c s n, (σ.task σ.current).call = some (c, .copy s n) → c.pos = σ.copied c.side
  capacity : σ.accepted.length + σ.pending .write ≤ σ.delivered.length + 4095
  ordered : σ.delivered <+: σ.accepted
  stored : ∀ i b, σ.delivered.length ≤ i → σ.accepted[i]? = some b → σ.page (i % 4096) = b

/-! ### Steps that leave the bytes alone -/

theorem SameBytes.copied (hb : SameBytes σ τ) (side : Side) : τ.copied side = σ.copied side := by
  cases side with
  | read => simp [Machine.copied, hb.delivered]
  | write => simp [Machine.copied, hb.accepted]

theorem SameStream.total (hs : SameStream σ τ) (side : Side) : τ.total side = σ.total side := by
  cases side with
  | read => exact hs.released
  | write => exact hs.announced

/-- A step outside of the copy loop. -/
theorem Stream.same (S : Stream σ) (W : Window τ) (hb : SameBytes σ τ)
    (hno : ∀ P c s n, (τ.task P).call ≠ some (c, .fault s n))
    (hold : ∀ side, σ.pending side = 0)
    (hnew : ∀ c s n, (τ.task τ.current).call ≠ some (c, .copy s n)) : Stream τ := by
  refine { W with noFault := hno, total := ?_, pos := ?_, capacity := ?_, ordered := ?_, stored := ?_ }
  · intro side
    rw [hb.toSameStream.total, S.total, hb.copied, hold, pending_of_not_copy hnew]
  · intro c s n h
    exact absurd h (hnew c s n)
  · have h := S.capacity
    rw [hb.delivered, hb.accepted, pending_of_not_copy hnew]
    omega
  · rw [hb.delivered, hb.accepted]
    exact S.ordered
  · rw [hb.delivered, hb.accepted, hb.page]
    exact S.stored

/-! ### A byte is copied -/

theorem Stream.bounds (S : Stream σ) (hcall : (σ.task σ.current).call = some (c, .copy s (n + 1))) :
    s = σ.copied c.side % 4096 ∧
    (c.side = .read → σ.delivered.length + (n + 1) ≤ σ.accepted.length) ∧
    (c.side = .write → σ.accepted.length + (n + 1) ≤ σ.delivered.length + 4095) := by
  have hpart := S.calls _ _ _ hcall (Nat.succ_pos n)
  have hpos := S.pos c s (n + 1) hcall
  have hidx := hpart.index
  have h1 := S.total .read
  have h2 := S.total .write
  have h3 := S.le
  have h4 := S.room
  rw [pending_of_copy hcall] at h1 h2
  simp only [Machine.total, Machine.copied] at h1 h2
  refine ⟨by rw [hidx, hpos], ?_, ?_⟩
  · intro hside
    rw [hside] at h1 h2
    simp only [if_true, reduceCtorEq, if_false] at h1 h2
    omega
  · intro hside
    rw [hside] at h1 h2
    simp only [if_true, reduceCtorEq, if_false] at h1 h2
    omega

theorem Stream.taken (S : Stream σ) (hcall : (σ.task σ.current).call = some (c, .copy s (n + 1)))
    (hside : c.side = .read) : σ.accepted[σ.delivered.length]? = some (σ.page s) := by
  obtain ⟨hs, hread, -⟩ := S.bounds hcall
  have hlt : σ.delivered.length < σ.accepted.length := by
    have := hread hside
    omega
  have hget := List.getElem?_eq_getElem hlt
  have hbyte := S.stored _ _ (Nat.le_refl _) hget
  rw [hside] at hs
  simp only [Machine.copied] at hs
  rw [hget, hs, hbyte]

theorem prefix_snoc {α : Type*} {l m : List α} {a : α} (h : l <+: m) (ha : m[l.length]? = some a) :
    l ++ [a] <+: m := by
  obtain ⟨r, rfl⟩ := h
  cases r with
  | nil => simp at ha
  | cons b r =>
    simp only [List.getElem?_append_right (Nat.le_refl _), Nat.sub_self,
      List.getElem?_cons_zero, Option.some.injEq] at ha
    rw [ha]
    exact ⟨r, by simp⟩

/-- A reader takes the next byte. -/
theorem transfer_read (S : Stream σ) (W : Window τ) (hs : SameStream σ τ)
    (hno : ∀ P c s n, (τ.task P).call ≠ some (c, .fault s n)) (hcur : τ.current = σ.current)
    (hcall : (σ.task σ.current).call = some (c, .copy s (n + 1))) (hside : c.side = .read)
    (hnew : (τ.task σ.current).call = some ({ c with buf := c.buf + 1, pos := c.pos + 1 }, .copy (s + 1) n))
    (hpage : τ.page = σ.page) (hacc : τ.accepted = σ.accepted)
    (hdel : τ.delivered = σ.delivered ++ [σ.page s]) : Stream τ := by
  have hlen : τ.delivered.length = σ.delivered.length + 1 := by simp [hdel]
  have hnew' : (τ.task τ.current).call =
      some ({ c with buf := c.buf + 1, pos := c.pos + 1 }, .copy (s + 1) n) := by rw [hcur, hnew]
  have htotal := S.total
  have hcap := S.capacity
  simp only [pending_of_copy hcall, hside] at htotal hcap
  refine { W with noFault := hno, total := ?_, pos := ?_, capacity := ?_, ordered := ?_, stored := ?_ }
  · intro side
    have h := htotal side
    rw [hs.total, h, pending_of_copy hnew']
    cases side with
    | read =>
      simp only [Machine.copied, hlen, hside, if_true]
      omega
    | write => simp [Machine.copied, hacc, hside]
  · intro c' s' n' h
    rw [hnew'] at h
    cases h
    have := S.pos c s (n + 1) hcall
    simp only [hside, Machine.copied] at this ⊢
    rw [hlen, this]
  · simp only [pending_of_copy hnew', hside, hacc, hlen, reduceCtorEq, if_false] at hcap ⊢
    omega
  · rw [hdel, hacc]
    exact prefix_snoc S.ordered (S.taken hcall hside)
  · intro i b hi hb
    rw [hacc] at hb
    rw [hpage]
    exact S.stored i b (by omega) hb

/-- A writer puts the next byte. -/
theorem transfer_write (S : Stream σ) (W : Window τ) (hs : SameStream σ τ) {b : Byte}
    (hno : ∀ P c s n, (τ.task P).call ≠ some (c, .fault s n)) (hcur : τ.current = σ.current)
    (hcall : (σ.task σ.current).call = some (c, .copy s (n + 1))) (hside : c.side = .write)
    (hnew : (τ.task σ.current).call = some ({ c with buf := c.buf + 1, pos := c.pos + 1 }, .copy (s + 1) n))
    (hpage : τ.page = update σ.page s b) (hacc : τ.accepted = σ.accepted ++ [b])
    (hdel : τ.delivered = σ.delivered) : Stream τ := by
  have hlen : τ.accepted.length = σ.accepted.length + 1 := by simp [hacc]
  have hnew' : (τ.task τ.current).call =
      some ({ c with buf := c.buf + 1, pos := c.pos + 1 }, .copy (s + 1) n) := by rw [hcur, hnew]
  obtain ⟨hidx, -, hfits⟩ := S.bounds hcall
  have hfits := hfits hside
  have htotal := S.total
  have hcap := S.capacity
  rw [hside] at hidx
  simp only [Machine.copied] at hidx
  simp only [pending_of_copy hcall, hside] at htotal hcap
  refine { W with noFault := hno, total := ?_, pos := ?_, capacity := ?_, ordered := ?_, stored := ?_ }
  · intro side
    have h := htotal side
    rw [hs.total, h, pending_of_copy hnew']
    cases side with
    | read => simp [Machine.copied, hdel, hside]
    | write =>
      simp only [Machine.copied, hlen, hside, if_true]
      omega
  · intro c' s' n' h
    rw [hnew'] at h
    cases h
    have := S.pos c s (n + 1) hcall
    simp only [hside, Machine.copied] at this ⊢
    rw [hlen, this]
  · simp only [pending_of_copy hnew', hside, hdel, hlen, if_true] at hcap ⊢
    omega
  · rw [hdel, hacc]
    exact S.ordered.trans (List.prefix_append _ _)
  · intro i b' hi hb
    rw [hdel] at hi
    rw [hpage]
    by_cases hlast : i = σ.accepted.length
    · -- the byte that was just stored
      rw [hlast, hacc, List.getElem?_append_right (Nat.le_refl _), Nat.sub_self] at hb
      rw [hlast, ← hidx, update_self]
      simpa using hb
    · have hlt : i < σ.accepted.length := by
        have := (List.getElem?_eq_some_iff.1 hb).1
        omega
      rw [hacc, List.getElem?_append_left hlt] at hb
      rw [update_of_ne (by omega)]
      exact S.stored i b' hi hb

/-- A round begins. -/
theorem advance_stream (S : Stream σ) (W : Window τ) (hcur : τ.current = σ.current)
    (hno : ∀ P c s n, (τ.task P).call ≠ some (c, .fault s n))
    (hcall : (σ.task σ.current).call = some (c, .check)) (hroom : σ.room c.side ≠ 0)
    (hτ : τ = σ.advance σ.current c) : Stream τ := by
  have hold : ∀ side, σ.pending side = 0 := by
    apply pending_of_not_copy
    intro c' s n h
    rw [hcall] at h
    cases h
  have hnew : (τ.task τ.current).call =
      some ({ c with count := c.count - σ.chars c, done := c.done + σ.chars c,
                     pos := σ.total c.side }, .copy (σ.index c.side) (σ.chars c).toNat) := by
    rw [hcur, hτ]
    exact advance_call ..
  have hbytes : τ.page = σ.page ∧ τ.accepted = σ.accepted ∧ τ.delivered = σ.delivered := by
    rw [hτ, Machine.advance, setCall, Machine.set]
    cases c.side with
    | read => exact ⟨rfl, rfl, rfl⟩
    | write => exact ⟨rfl, rfl, rfl⟩
  obtain ⟨hpage, hacc, hdel⟩ := hbytes
  have htotal := S.total
  simp only [hold, Nat.add_zero] at htotal
  obtain ⟨h1, h2, -, -⟩ := S.toWindow.chars (S.calls _ _ _ hcall) hroom
  have hsize := S.size
  have hle := S.le
  have hcap := S.capacity
  have ht1 := htotal .read
  have ht2 := htotal .write
  simp only [Machine.total, Machine.copied] at ht1 ht2
  rw [hold] at hcap
  refine { W with noFault := hno, total := ?_, pos := ?_, capacity := ?_, ordered := ?_, stored := ?_ }
  · intro side
    rw [pending_of_copy hnew]
    cases hside : c.side with
    | read =>
      obtain ⟨hA, hR, -, -⟩ := advance_read (σ := σ) (P := σ.current) hside
      rw [← hτ] at hA hR
      cases side with
      | read => simp [Machine.total, Machine.copied, hR, hdel, ht1]
      | write => simp [Machine.total, Machine.copied, hA, hacc, ht2]
    | write =>
      obtain ⟨hA, hR, -, -⟩ := advance_write (σ := σ) (P := σ.current) hside
      rw [← hτ] at hA hR
      cases side with
      | read => simp [Machine.total, Machine.copied, hR, hdel, ht1]
      | write => simp [Machine.total, Machine.copied, hA, hacc, ht2]
  · intro c' s n h
    rw [hnew] at h
    cases h
    show σ.total c.side = τ.copied c.side
    rw [htotal]
    cases c.side with
    | read => simp [Machine.copied, hdel]
    | write => simp [Machine.copied, hacc]
  · rw [pending_of_copy hnew, hacc, hdel]
    show σ.accepted.length + (if c.side = .write then _ else _) ≤ _
    cases hside : c.side with
    | read =>
      simp only [reduceCtorEq, if_false]
      omega
    | write =>
      rw [hside] at h2
      simp only [room] at h2
      simp only [if_true]
      omega
  · rw [hacc, hdel]
    exact S.ordered
  · rw [hacc, hdel, hpage]
    exact S.stored

/-! ### Every step -/

/-- Where nobody is blocked every round is clear. -/
theorem clear_of_no_fault (h : ∀ P c s n, (σ.task P).call ≠ some (c, .fault s n)) (e : Event) :
    σ.clear e = true := by
  cases e with
  | run =>
    rw [Machine.clear]
    split
    · rw [List.all_eq_true]
      intro P _
      rw [clearOf]
      split
      · rename_i c' s n hP
        exact absurd hP (h P c' s n)
      · rfl
    · rfl
  | _ => rfl

/-- A step other than a fault blocks nobody. -/
theorem Does.no_fault {old new : Option (Call × Pc)} (hd : Does σ τ old new)
    (hold : ∀ c s n, old = some (c, .copy s (n + 1)) →
      (σ.task σ.current).absent (c.buf / 4096) = false) (c : Call) (s n : ℕ) :
    new ≠ some (c, .fault s n) := by
  rintro rfl
  cases hd with
  | fault c s n habs _ =>
    rw [hold c s n rfl] at habs
    cases habs

theorem step_stream {e : Event} (S : Stream σ) (hok : σ.noFault e = true) (hs : step σ e = some τ) :
    Stream τ := by
  have W := step_window S.toWindow (clear_of_no_fault S.noFault e) hs
  rcases step_does hs with ⟨P, hy, hP, hτ⟩ | ⟨hrun, hcur, hd, hothers⟩
  · have hidle : ∀ (Q : ℕ) c s n, Q = σ.current ∨ Q = P → (σ.task Q).call ≠ some (c, .copy s n) := by
      intro Q c s n hQ hcall
      by_cases hQc : Q = σ.current
      · rw [hQc] at hcall
        rcases yields_resting hy hcall with h | ⟨_, _, h⟩
        · cases h
        · cases h
      · rcases S.resting Q c _ hQc hcall with h | ⟨_, _, h⟩
        · cases h
        · cases h
    rw [hτ] at W ⊢
    exact S.same W ⟨⟨rfl, rfl, rfl, rfl⟩, rfl, rfl, rfl⟩ S.noFault
      (pending_of_not_copy fun c s n => hidle σ.current c s n (Or.inl rfl))
      (fun c s n => hidle P c s n (Or.inr rfl))
  · have hno : ∀ P c s n, (τ.task P).call ≠ some (c, .fault s n) := by
      intro P c s n
      by_cases hP : P = σ.current
      · rw [hP]
        refine hd.no_fault ?_ c s n
        intro c' s' n' hcall
        have he : e = .run := hrun (by rw [hcall]; exact Option.some_ne_none _)
        rw [he, Machine.noFault] at hok
        simpa only [hcall, Bool.not_eq_true'] using hok
      · rw [hothers P hP]
        exact S.noFault P c s n
    generalize hold : (σ.task σ.current).call = old at hd
    generalize hnew : (τ.task σ.current).call = new at hd
    rw [← hcur] at hnew
    have hquiet : SameBytes σ τ → (∀ c s n, old = some (c, .copy s n) → n = 0) →
        (∀ c s n, new ≠ some (c, .copy s n)) → Stream τ := by
      intro hb h1 h2
      refine S.same W hb hno ?_ (by rw [hnew]; exact h2)
      intro side
      rw [pending, hold]
      split
      · rename_i c s n
        rw [h1 c s n rfl, ite_self]
      · rfl
    cases hd with
    | user hb => exact hquiet hb (fun _ _ _ h => by cases h) (fun _ _ _ h => by cases h)
    | start _ _ _ hb => exact hquiet hb (fun _ _ _ h => by cases h) (fun _ _ _ h => by cases h)
    | enter _ _ hb => exact hquiet hb (fun _ _ _ h => by cases h) (fun _ _ _ h => by cases h)
    | done _ _ hb _ => exact hquiet hb (fun _ _ _ h => by cases h) (fun _ _ _ h => by cases h)
    | broken _ _ _ hb => exact hquiet hb (fun _ _ _ h => by cases h) (fun _ _ _ h => by cases h)
    | sleep _ hb => exact hquiet hb (fun _ _ _ h => by cases h) (fun _ _ _ h => by cases h)
    | slept _ hb => exact hquiet hb (fun _ _ _ h => by cases h) (fun _ _ _ h => by cases h)
    | copied _ _ hb =>
      exact hquiet hb (fun _ _ _ h => by cases h; rfl) (fun _ _ _ h => by cases h)
    | advance c hroom hτ => exact advance_stream S W hcur hno hold hroom hτ
    | fault c s n _ _ => exact absurd hnew (hno _ c s (n + 1))
    | loaded c s n _ => exact absurd hold (S.noFault _ c s n)
    | transfer c s n hb hpage hacc hdel =>
      rw [hcur] at hnew
      cases hside : c.side with
      | read =>
        simp only [transfer, hside] at hpage hacc hdel
        exact transfer_read S W hb hno hcur hold hside hnew hpage hacc hdel
      | write =>
        simp only [transfer, hside] at hpage hacc hdel
        exact transfer_write S W hb hno hcur hold hside hnew hpage hacc hdel

theorem start_stream (h : Start σ) : Stream σ := by
  have hnot : ∀ c s n, (σ.task σ.current).call ≠ some (c, .copy s n) := by
    intro c s n hc
    rw [h.idle] at hc
    cases hc
  refine { start_window h with
    noFault := ?_, total := ?_, pos := ?_, capacity := ?_, ordered := ?_, stored := ?_ }
  · intro P c s n hc
    rw [h.idle] at hc
    cases hc
  · intro side
    rw [pending_of_not_copy hnot]
    cases side with
    | read => simp [Machine.total, Machine.copied, h.released, h.delivered]
    | write => simp [Machine.total, Machine.copied, h.announced, h.accepted]
  · intro c s n hc
    exact absurd hc (hnot c s n)
  · rw [pending_of_not_copy hnot]
    simp [h.accepted]
  · simp [h.delivered]
  · intro i b _ hb
    simp [h.accepted] at hb

/-! ### The ends -/

/-- Who is in a call has its end open, and `i_count` counts the open ends. -/
structure Ends (σ : Machine) : Prop where
  opened : ∀ P c pc, (σ.task P).call = some (c, pc) → (σ.task P).opened c.side = true
  iCount : σ.iCount = (if σ.Held .read then 1 else 0) + (if σ.Held .write then 1 else 0)
  sum : ∀ P c pc, (σ.task P).call = some (c, pc) → c.done + c.count = c.asked

theorem set_opened {t : Task} (ht : t.opened = (σ.task P).opened) (Q : ℕ) :
    ((σ.set P t).task Q).opened = (σ.task Q).opened := by
  by_cases hQ : Q = P
  · rw [hQ, set_task, ht]
  · rw [set_task_of_ne _ _ hQ]

@[simp] theorem setCall_opened (σ : Machine) (P : ℕ) (c : Call) (pc : Pc) (Q : ℕ) :
    ((σ.setCall P c pc).task Q).opened = (σ.task Q).opened :=
  set_opened (t := { σ.task P with call := some (c, pc) }) rfl Q

@[simp] theorem ret_opened (σ : Machine) (P : ℕ) (r : ℤ) (Q : ℕ) :
    ((σ.ret P r).task Q).opened = (σ.task Q).opened :=
  set_opened (t := { σ.task P with call := none, eax := r }) rfl Q

theorem broken_opened (σ : Machine) (P : ℕ) (c : Call) (Q : ℕ) :
    ((σ.broken P c).task Q).opened = (σ.task Q).opened := by
  rw [Machine.broken]
  cases c.side with
  | read => exact ret_opened σ P c.done Q
  | write =>
    simp only [ret_opened]
    exact set_opened (t := { σ.task P with signal := true }) rfl Q

theorem transfer_opened (σ : Machine) (P : ℕ) (c : Call) (s Q : ℕ) :
    ((σ.transfer P c s).task Q).opened = (σ.task Q).opened := by
  rw [transfer]
  cases c.side with
  | read =>
    exact set_opened (t := { σ.task P with mem := update (σ.task P).mem c.buf (σ.page s) }) rfl Q
  | write => rfl

/-- A step in the kernel opens and closes nothing. -/
theorem micro_opened (σ : Machine) (P : ℕ) (c : Call) (pc : Pc) (Q : ℕ) :
    ((σ.micro P c pc).task Q).opened = (σ.task Q).opened := by
  cases pc with
  | loop =>
    rw [micro]
    split
    · simp
    · simp [wakeUp]
  | check =>
    rw [micro]
    split
    · split
      · rw [broken_opened]
        rfl
      · simp [wakeUp]
    · simp [Machine.advance, move_task]
  | asleep => simp [micro]
  | copy s n =>
    cases n with
    | zero => simp [micro]
    | succ n =>
      rw [micro]
      split
      · simp
      · rw [setCall_opened, transfer_opened]
  | fault s n =>
    rw [micro, setCall_opened]
    exact set_opened (t := { σ.task P with
      absent := update (σ.task P).absent (c.buf / 4096) false }) rfl Q

theorem micro_iCount (σ : Machine) (P : ℕ) (c : Call) (pc : Pc) : (σ.micro P c pc).iCount = σ.iCount := by
  cases pc with
  | loop =>
    rw [micro]
    split <;> rfl
  | check =>
    rw [micro]
    split
    · split
      · rw [Machine.broken]
        cases c.side <;> rfl
      · rfl
    · rw [Machine.advance]
      cases c.side <;> rfl
  | asleep => rfl
  | copy s n =>
    cases n with
    | zero => rfl
    | succ n =>
      rw [micro, transfer]
      split
      · rfl
      · cases c.side <;> rfl
  | fault s n => rfl

theorem held_congr (h : ∀ Q, (τ.task Q).opened = (σ.task Q).opened) (side : Side) :
    τ.Held side ↔ σ.Held side := by
  simp only [Held, h]

/-- A call keeps its end and what it was asked for. -/
theorem Does.call {old new : Option (Call × Pc)} (hd : Does σ τ old new) {c c' : Call} {pc pc' : Pc}
    (hold : old = some (c, pc)) (hnew : new = some (c', pc')) (hsum : c.done + c.count = c.asked) :
    c'.side = c.side ∧ c'.done + c'.count = c'.asked := by
  cases hd with
  | user _ => cases hold
  | start _ _ _ _ => cases hold
  | done _ _ _ _ => cases hnew
  | broken _ _ _ _ => cases hnew
  | enter _ _ _ => cases hold; cases hnew; exact ⟨rfl, hsum⟩
  | sleep _ _ => cases hold; cases hnew; exact ⟨rfl, hsum⟩
  | slept _ _ => cases hold; cases hnew; exact ⟨rfl, hsum⟩
  | copied _ _ _ => cases hold; cases hnew; exact ⟨rfl, hsum⟩
  | fault _ _ _ _ _ => cases hold; cases hnew; exact ⟨rfl, hsum⟩
  | loaded _ _ _ _ => cases hold; cases hnew; exact ⟨rfl, hsum⟩
  | transfer _ _ _ _ _ _ _ => cases hold; cases hnew; exact ⟨rfl, hsum⟩
  | advance c _ _ =>
    cases hold
    cases hnew
    refine ⟨rfl, ?_⟩
    show c.done + σ.chars c + (c.count - σ.chars c) = c.asked
    omega

theorem start_ends (h : Start σ) : Ends σ := by
  refine ⟨?_, ?_, ?_⟩
  · intro P c pc hc
    rw [h.idle] at hc
    cases hc
  · rw [if_pos (h.held .read), if_pos (h.held .write), h.iCount]
  · intro P c pc hc
    rw [h.idle] at hc
    cases hc

theorem close_iCount (E : Ends σ) (hcur : σ.current < 64) (ho : (σ.task σ.current).opened side = true) :
    (σ.close side).iCount = (if (σ.close side).Held .read then 1 else 0) +
      (if (σ.close side).Held .write then 1 else 0) := by
  obtain ⟨τ, hτ⟩ : ∃ τ, σ.set σ.current { σ.task σ.current with
    opened := update (σ.task σ.current).opened side false } = τ := ⟨_, rfl⟩
  have hself : (τ.task σ.current).opened = update (σ.task σ.current).opened side false := by
    rw [← hτ, set_task]
  have hothers : ∀ Q, Q ≠ σ.current → (τ.task Q).opened = (σ.task Q).opened := by
    intro Q hQ
    rw [← hτ, set_task_of_ne _ _ hQ]
  have hother : ∀ side', side' ≠ side → (τ.Held side' ↔ σ.Held side') := by
    intro side' hne
    have heq : ∀ Q, (τ.task Q).opened side' = (σ.task Q).opened side' := by
      intro Q
      by_cases hQ : Q = σ.current
      · rw [hQ, hself, update_of_ne hne]
      · rw [hothers Q hQ]
    simp only [Held, heq]
  have hwas : σ.Held side := ⟨σ.current, hcur, ho⟩
  have hcount : τ.iCount = σ.iCount := by
    rw [← hτ]
    rfl
  have hE := E.iCount
  rw [Machine.close]
  simp only [hτ]
  split
  · rename_i hheld
    rw [hcount, hE]
    cases side with
    | read => simp only [if_pos hwas, if_pos hheld, hother .write (by decide)]
    | write => simp only [if_pos hwas, if_pos hheld, hother .read (by decide)]
  · rename_i hgone
    show τ.iCount - 1 = (if τ.Held .read then 1 else 0) + (if τ.Held .write then 1 else 0)
    rw [hcount, hE]
    cases side with
    | read =>
      simp only [if_pos hwas, if_neg hgone, hother .write (by decide)]
      omega
    | write =>
      simp only [if_pos hwas, if_neg hgone, hother .read (by decide)]
      omega

theorem step_ends {e : Event} (E : Ends σ) (W : Window σ) (hs : step σ e = some τ) : Ends τ := by
  have hdoes := step_does hs
  cases e with
  | run =>
    rw [step] at hs
    split at hs
    · cases hs
    · rename_i c pc hcall
      obtain ⟨-, hs⟩ := Option.ite_none_right_eq_some.1 hs
      cases hs
      obtain ⟨hd, -, hothers⟩ := micro_does hcall
      have hcount := micro_iCount σ σ.current c pc
      have hopened := micro_opened σ σ.current c pc
      have hcalls : ∀ P c' pc', ((σ.micro σ.current c pc).task P).call = some (c', pc') →
          (σ.task P).opened c'.side = true ∧ c'.done + c'.count = c'.asked := by
        intro P c' pc' hP
        by_cases hPc : P = σ.current
        · rw [hPc] at hP ⊢
          obtain ⟨hside, hsum⟩ := hd.call rfl hP (E.sum _ _ _ hcall)
          rw [hside]
          exact ⟨E.opened _ _ _ hcall, hsum⟩
        · rw [hothers P hPc] at hP
          exact ⟨E.opened _ _ _ hP, E.sum _ _ _ hP⟩
      refine ⟨?_, ?_, fun P c' pc' hP => (hcalls P c' pc' hP).2⟩
      · intro P c' pc' hP
        rw [hopened]
        exact (hcalls P c' pc' hP).1
      · rw [hcount, E.iCount]
        simp only [held_congr hopened]
  | switch P =>
    obtain ⟨-, hs⟩ := Option.ite_none_right_eq_some.1 hs
    cases hs
    exact ⟨E.opened, E.iCount, E.sum⟩
  | call side buf count =>
    obtain ⟨hc, hs⟩ := Option.ite_none_right_eq_some.1 hs
    cases hs
    have hopened := setCall_opened σ σ.current ⟨side, count, buf, count, 0, 0⟩ .loop
    have hcalls : ∀ P c' pc',
        ((σ.setCall σ.current ⟨side, count, buf, count, 0, 0⟩ .loop).task P).call = some (c', pc') →
        (σ.task P).opened c'.side = true ∧ c'.done + c'.count = c'.asked := by
      intro P c' pc' hP
      by_cases hPc : P = σ.current
      · rw [hPc, setCall, set_task] at hP
        cases hP
        rw [hPc]
        exact ⟨hc.2.2, Int.zero_add _⟩
      · rw [setCall, set_task_of_ne _ _ hPc] at hP
        exact ⟨E.opened _ _ _ hP, E.sum _ _ _ hP⟩
    refine ⟨?_, ?_, fun P c' pc' hP => (hcalls P c' pc' hP).2⟩
    · intro P c' pc' hP
      rw [hopened]
      exact (hcalls P c' pc' hP).1
    · simp only [held_congr hopened]
      exact E.iCount
  | user mem absent =>
    obtain ⟨hc, hs⟩ := Option.ite_none_right_eq_some.1 hs
    cases hs
    have hsame : ∀ Q, ((σ.set σ.current { σ.task σ.current with mem := mem, absent := absent }).task
        Q).opened = (σ.task Q).opened ∧ ((σ.set σ.current { σ.task σ.current with
          mem := mem, absent := absent }).task Q).call = (σ.task Q).call := by
      intro Q
      by_cases hQ : Q = σ.current
      · rw [hQ, set_task]
        exact ⟨rfl, rfl⟩
      · rw [set_task_of_ne _ _ hQ]
        exact ⟨rfl, rfl⟩
    refine ⟨?_, ?_, ?_⟩
    · intro P c pc hP
      rw [(hsame P).1]
      rw [(hsame P).2] at hP
      exact E.opened P c pc hP
    · simp only [held_congr fun Q => (hsame Q).1]
      exact E.iCount
    · intro P c pc hP
      rw [(hsame P).2] at hP
      exact E.sum P c pc hP
  | fork nr =>
    obtain ⟨hc, hs⟩ := Option.ite_none_right_eq_some.1 hs
    cases hs
    obtain ⟨hnone, hnr, hne, -, hr, hw⟩ := hc
    have hnone := Option.isNone_iff_eq_none.1 hnone
    have hheld : ∀ side, (σ.set nr { σ.task σ.current with signal := false, eax := 0 }).Held side ↔
        σ.Held side := by
      intro side
      constructor
      · rintro ⟨Q, hQ, ho⟩
        by_cases hQn : Q = nr
        · rw [hQn, set_task] at ho
          exact ⟨σ.current, W.current, ho⟩
        · rw [set_task_of_ne _ _ hQn] at ho
          exact ⟨Q, hQ, ho⟩
      · rintro ⟨Q, hQ, ho⟩
        have hQn : Q ≠ nr := by
          rintro rfl
          cases side with
          | read => rw [hr] at ho; cases ho
          | write => rw [hw] at ho; cases ho
        exact ⟨Q, hQ, by rw [set_task_of_ne _ _ hQn]; exact ho⟩
    have hcall : ∀ P c pc, ((σ.set nr { σ.task σ.current with signal := false, eax := 0 }).task
        P).call = some (c, pc) → P ≠ nr := by
      rintro P c pc hP rfl
      rw [set_task] at hP
      simp only [hnone] at hP
      cases hP
    refine ⟨?_, ?_, ?_⟩
    · intro P c pc hP
      have hPn := hcall P c pc hP
      rw [set_task_of_ne _ _ hPn] at hP ⊢
      exact E.opened P c pc hP
    · simp only [hheld]
      exact E.iCount
    · intro P c pc hP
      have hPn := hcall P c pc hP
      rw [set_task_of_ne _ _ hPn] at hP
      exact E.sum P c pc hP
  | close side =>
    obtain ⟨hc, hs⟩ := Option.ite_none_right_eq_some.1 hs
    cases hs
    have hnone := Option.isNone_iff_eq_none.1 hc.1
    have htask : ∀ Q, Q ≠ σ.current → (σ.close side).task Q = σ.task Q := by
      intro Q hQ
      rw [Machine.close]
      split
      · exact set_task_of_ne _ _ hQ
      · exact set_task_of_ne _ _ hQ
    have hcall : ∀ P c pc, ((σ.close side).task P).call = some (c, pc) → P ≠ σ.current := by
      rintro P c pc hP rfl
      rw [Machine.close] at hP
      split at hP
      · rw [set_task] at hP
        simp only [hnone] at hP
        cases hP
      · simp only [wakeUp, set_task, hnone] at hP
        cases hP
    refine ⟨?_, close_iCount E W.current hc.2, ?_⟩
    · intro P c pc hP
      have hPn := hcall P c pc hP
      rw [htask P hPn] at hP ⊢
      exact E.opened P c pc hP
    · intro P c pc hP
      have hPn := hcall P c pc hP
      rw [htask P hPn] at hP
      exact E.sum P c pc hP

/-! ### The queue -/

/-- A call that comes back with less than it was asked for. -/
theorem short_return {e : Event} (S : Stream σ) (E : Ends σ) (hs : step σ e = some τ)
    (hcall : (σ.task σ.current).call = some (c, pc)) (hret : (τ.task σ.current).call = none)
    (hshort : (τ.task σ.current).eax < c.asked) : σ.room c.side = 0 ∧ ¬σ.Held c.side.other := by
  rcases step_does hs with ⟨P, -, -, hτ⟩ | ⟨-, -, hd, -⟩
  · rw [hτ] at hret
    have : (σ.task σ.current).call = none := hret
    rw [hcall] at this
    cases this
  · rw [hcall, hret] at hd
    have hsum := E.sum _ _ _ hcall
    cases hd with
    | done _ hc _ heax =>
      rw [heax] at hshort
      omega
    | broken _ hroom hcount _ =>
      refine ⟨hroom, ?_⟩
      intro hother
      have hmine : σ.Held c.side := ⟨σ.current, S.current, E.opened _ _ _ hcall⟩
      have hE := E.iCount
      cases hside : c.side with
      | read =>
        rw [hside] at hmine hother
        rw [if_pos hmine, if_pos (show σ.Held .write from hother)] at hE
        exact hcount hE
      | write =>
        rw [hside] at hmine hother
        rw [if_pos hmine, if_pos (show σ.Held .read from hother)] at hE
        exact hcount hE

/-- **A pipe is a lossless queue.**  In every run in which the processes are interleaved where they
sleep, the indices stay inside the page, the ring never holds more than 4095 bytes, and the bytes
delivered are, in this order, the first of the bytes accepted.  `read_pipe` returns fewer bytes than
asked only when the ring is empty and the other end closed, `write_pipe` only when the ring is full and
the other end closed. -/
theorem pipe_is_lossless_fifo (h : Reach Start step (fun σ e => σ.noFault e = true) σ) :
    (σ.head < 4096 ∧ σ.tail < 4096 ∧ σ.accepted.length ≤ σ.delivered.length + 4095 ∧
      σ.delivered <+: σ.accepted) ∧
    ∀ e τ c pc, step σ e = some τ → (σ.task σ.current).call = some (c, pc) →
      (τ.task σ.current).call = none → (τ.task σ.current).eax < c.asked →
      (c.side = .read → σ.size = 0) ∧ (c.side = .write → σ.size = 4095) ∧ ¬σ.Held c.side.other := by
  have hinv : Stream σ ∧ Ends σ := h.invariant (I := fun σ => Stream σ ∧ Ends σ)
    (fun _ h => ⟨start_stream h, start_ends h⟩)
    (fun _ _ _ I ha hs => ⟨step_stream I.1 ha hs, step_ends I.2 I.1.toWindow hs⟩)
  obtain ⟨S, E⟩ := hinv
  have hhead := S.head
  have htail := S.tail
  have hcap := S.capacity
  refine ⟨⟨by omega, by omega, by omega, S.ordered⟩, ?_⟩
  intro e τ c pc hs hcall hret hshort
  obtain ⟨hroom, hother⟩ := short_return S E hs hcall hret hshort
  have hsize : σ.size ≤ 4095 := by
    have h1 := S.size
    have h2 := S.le
    have h3 := S.room
    omega
  refine ⟨?_, ?_, hother⟩
  · intro hside
    rw [hside] at hroom
    exact hroom
  · intro hside
    rw [hside] at hroom
    simp only [Machine.room] at hroom
    omega

/-- Task 1 writes a byte and closes its end; task 2 asks for two. -/
def closingRun : List Event :=
  [Event.call .write 0 1] ++ List.replicate 5 Event.run ++
  [Event.close .write, Event.switch 2, Event.call .read 0 2] ++
    List.replicate 5 Event.run

set_option maxRecDepth 8000 in
/-- Task 2 gets the one byte. -/
theorem pipe_is_lossless_fifo_closed : ∃ σ τ c,
    Reach Start step (fun σ e => σ.noFault e = true) σ ∧ step σ .run = some τ ∧
    (σ.task σ.current).call = some (c, .check) ∧ (τ.task σ.current).call = none ∧
    (τ.task σ.current).eax = 1 ∧ c.asked = 2 ∧ σ.delivered = [7] ∧ σ.delivered <+: σ.accepted ∧
    σ.size = 0 ∧ ¬σ.Held .write := by
  obtain ⟨σ, τ, c, hok, hexec, hs, hcall, hret, heax, hasked, hdel, hside⟩ : ∃ σ τ c,
      checks step Machine.noFault writerAndReader closingRun = true ∧
      exec step writerAndReader closingRun = some σ ∧ step σ .run = some τ ∧
      (σ.task σ.current).call = some (c, .check) ∧
      (τ.task σ.current).call = none ∧ (τ.task σ.current).eax = 1 ∧ c.asked = 2 ∧
      σ.delivered = [7] ∧ c.side = .read :=
    ⟨_, _, _, by decide, rfl, rfl, rfl, rfl, rfl, rfl, rfl, rfl⟩
  have h : Reach Start step (fun σ e => σ.noFault e = true) σ :=
    (Reach.start writerAndReader_start).exec (along_of_checks hok) hexec
  obtain ⟨⟨-, -, -, hprefix⟩, hshort⟩ := pipe_is_lossless_fifo h
  obtain ⟨hempty, -, hclosed⟩ := hshort .run τ c .check hs hcall hret (by rw [heax, hasked]; decide)
  rw [hside] at hclosed
  exact ⟨σ, τ, c, h, hs, hcall, hret, heax, hasked, hdel, hprefix, hempty hside, hclosed⟩

end OldLinux.Pipe
