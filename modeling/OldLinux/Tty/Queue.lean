import OldLinux.Lib.Numerals
import Mathlib.Data.List.Range
import Mathlib.Data.Nat.Digits.Defs

/-!
# Terminal queues

`struct tty_queue`: a ring of 1024 characters of which one place stays free, so that an empty queue
can be told from a full one.  `PUTCH` and `GETCH` test nothing: a `PUTCH` on a full queue makes it
look empty, a `GETCH` on an empty one makes it look full.

Characters are signed, as `char` is.  A queue also carries its history: what has been put and taken,
how many characters have been taken off at the head, and whether a `PUTCH` or a `GETCH` was one too
many.
-/

namespace OldLinux.Tty

open Function

/-- `struct tty_queue`, with its history. -/
structure Queue where
  data : ℤ
  head : ℕ
  tail : ℕ
  buf : ℕ → ℤ
  put : List ℤ
  taken : List ℤ
  erased : ℕ
  overrun : Bool
  underrun : Bool

namespace Queue

variable {q : Queue} {c : ℤ}

def EMPTY (q : Queue) : Bool := q.head = q.tail

/-- `((a).tail-(a).head-1)&(TTY_BUF_SIZE-1)`. -/
def LEFT (q : Queue) : ℕ := (((q.tail : ℤ) - q.head - 1) % 1024).toNat

/-- `((a).head-(a).tail)&(TTY_BUF_SIZE-1)`. -/
def CHARS (q : Queue) : ℕ := (((q.head : ℤ) - q.tail) % 1024).toNat

def FULL (q : Queue) : Bool := q.LEFT = 0

/-- The last character put. -/
def LAST (q : Queue) : ℤ := q.buf ((q.head + 1023) % 1024)

def PUTCH (c : ℤ) (q : Queue) : Queue :=
  { q with buf := update q.buf q.head c
           head := (q.head + 1) % 1024
           put := q.put ++ [c]
           overrun := q.overrun || q.FULL }

/-- The character that `GETCH` takes. -/
def next (q : Queue) : ℤ := q.buf q.tail

def GETCH (q : Queue) : Queue :=
  { q with tail := (q.tail + 1) % 1024
           taken := q.taken ++ [q.next]
           underrun := q.underrun || q.EMPTY }

/-- `DEC(queue.head)`. -/
def DEC (q : Queue) : Queue :=
  { q with head := (q.head + 1023) % 1024
           erased := q.erased + 1
           underrun := q.underrun || q.EMPTY }

/-- `flush`. -/
def flush (q : Queue) : Queue := { q with head := q.tail, erased := q.erased + q.CHARS }

/-- The indices are inside of the buffer. -/
def Wf (q : Queue) : Prop := q.head < 1024 ∧ q.tail < 1024

/-- The characters of the queue, in the order in which they are taken. -/
def chars (q : Queue) : List ℤ :=
  (List.range q.CHARS).map fun i => q.buf ((q.tail + i) % 1024)

/-! ### How many characters there are -/

theorem chars_length (q : Queue) : q.chars.length = q.CHARS := by
  rw [chars, List.length_map, List.length_range]

theorem left_add_chars (q : Queue) : q.LEFT + q.CHARS = 1023 := by
  unfold LEFT CHARS
  omega

theorem left_eq (h : q.Wf) : q.LEFT = (q.tail + 1023 - q.head) % 1024 := by
  obtain ⟨hh, ht⟩ := h
  unfold LEFT
  omega

theorem chars_eq (h : q.Wf) : q.CHARS = (q.head + 1024 - q.tail) % 1024 := by
  obtain ⟨hh, ht⟩ := h
  unfold CHARS
  omega

theorem empty_iff (h : q.Wf) : q.EMPTY = true ↔ q.CHARS = 0 := by
  rw [EMPTY, decide_eq_true_iff, chars_eq h]
  obtain ⟨hh, ht⟩ := h
  omega

theorem full_iff : q.FULL = true ↔ q.LEFT = 0 := by
  rw [FULL, decide_eq_true_iff]

/-! ### `PUTCH` -/

theorem putch_wf (h : q.Wf) : (PUTCH c q).Wf := ⟨Nat.mod_lt _ (by decide), h.2⟩

theorem putch_CHARS (h : q.Wf) (hl : 0 < q.LEFT) : (PUTCH c q).CHARS = q.CHARS + 1 := by
  rw [left_eq h] at hl
  rw [chars_eq (putch_wf h), chars_eq h]
  obtain ⟨hh, ht⟩ := h
  show ((q.head + 1) % 1024 + 1024 - q.tail) % 1024 = _
  omega

theorem putch_LEFT (h : q.Wf) (hl : 0 < q.LEFT) : (PUTCH c q).LEFT + 1 = q.LEFT := by
  have h1 := left_add_chars q
  have h2 := left_add_chars (PUTCH c q)
  have h3 := putch_CHARS (c := c) h hl
  omega

/-- A `PUTCH` with room appends the character. -/
theorem putch_chars (h : q.Wf) (hl : 0 < q.LEFT) : (PUTCH c q).chars = q.chars ++ [c] := by
  have hroom := left_add_chars q
  rw [chars, putch_CHARS h hl, List.range_succ, List.map_append, chars]
  have hh := h.1
  have ht := h.2
  congr 1
  · refine List.map_congr_left fun i hi => ?_
    have hi' : i < q.CHARS := List.mem_range.1 hi
    have hchars := chars_eq h
    have hne : (q.tail + i) % 1024 ≠ q.head := by omega
    show update q.buf q.head c ((q.tail + i) % 1024) = q.buf ((q.tail + i) % 1024)
    rw [update_of_ne hne]
  · show [update q.buf q.head c ((q.tail + q.CHARS) % 1024)] = [c]
    rw [show (q.tail + q.CHARS) % 1024 = q.head by rw [chars_eq h]; omega, update_self]

/-- A `PUTCH` on a full queue makes it look empty. -/
theorem putch_full (h : q.Wf) (hl : q.LEFT = 0) : (PUTCH c q).CHARS = 0 := by
  rw [left_eq h] at hl
  rw [chars_eq (putch_wf h)]
  obtain ⟨hh, ht⟩ := h
  show ((q.head + 1) % 1024 + 1024 - q.tail) % 1024 = 0
  omega

/-! ### `GETCH` -/

theorem getch_wf (h : q.Wf) : q.GETCH.Wf := ⟨h.1, Nat.mod_lt _ (by decide)⟩

theorem getch_CHARS (h : q.Wf) (hc : 0 < q.CHARS) : q.GETCH.CHARS + 1 = q.CHARS := by
  rw [chars_eq h] at hc
  rw [chars_eq (getch_wf h), chars_eq h]
  obtain ⟨hh, ht⟩ := h
  show (q.head + 1024 - (q.tail + 1) % 1024) % 1024 + 1 = _
  omega

/-- A `GETCH` takes the first of the characters. -/
theorem getch_chars (h : q.Wf) (hc : 0 < q.CHARS) : q.chars = q.next :: q.GETCH.chars := by
  have hlen := getch_CHARS h hc
  rw [chars, ← hlen, List.range_succ_eq_map, List.map_cons, List.map_map]
  have ht := h.2
  congr 1
  · rw [Nat.add_zero, Nat.mod_eq_of_lt ht]
    rfl
  · refine List.map_congr_left fun i _ => ?_
    show q.buf ((q.tail + (i + 1)) % 1024) = q.buf (((q.tail + 1) % 1024 + i) % 1024)
    congr 1
    omega

/-! ### `DEC` and `flush` -/

theorem dec_head (q : Queue) : q.DEC.head = (q.head + 1023) % 1024 := by rw [DEC]

theorem dec_tail (q : Queue) : q.DEC.tail = q.tail := by rw [DEC]

theorem dec_buf (q : Queue) : q.DEC.buf = q.buf := by rw [DEC]

theorem dec_data (q : Queue) : q.DEC.data = q.data := by rw [DEC]

/-- The history of a `DEC`. -/
theorem dec_history (q : Queue) : q.DEC.overrun = q.overrun ∧ q.DEC.put = q.put ∧
    q.DEC.taken = q.taken ∧ q.DEC.erased = q.erased + 1 := by
  rw [DEC]
  exact ⟨rfl, rfl, rfl, rfl⟩

theorem dec_wf (h : q.Wf) : q.DEC.Wf := by
  obtain ⟨hh, ht⟩ := h
  rw [Wf, dec_head, dec_tail]
  omega

theorem dec_CHARS (h : q.Wf) (hc : 0 < q.CHARS) : q.DEC.CHARS + 1 = q.CHARS := by
  rw [chars_eq h] at hc
  rw [chars_eq (dec_wf h), chars_eq h, dec_head, dec_tail]
  obtain ⟨hh, ht⟩ := h
  omega

/-- `DEC` takes off the last character. -/
theorem dec_chars (h : q.Wf) (hc : 0 < q.CHARS) : q.chars = q.DEC.chars ++ [q.LAST] := by
  have hlen := dec_CHARS h hc
  have hlast : (q.tail + q.DEC.CHARS) % 1024 = (q.head + 1023) % 1024 := by
    rw [chars_eq h] at hlen hc
    obtain ⟨hh, ht⟩ := h
    omega
  rw [chars, ← hlen, List.range_succ, List.map_append, List.map_singleton, hlast, chars,
    dec_tail, dec_buf, LAST]

theorem flush_wf (h : q.Wf) : q.flush.Wf := ⟨h.2, h.2⟩

theorem chars_nil (h : q.CHARS = 0) : q.chars = [] := by
  rw [chars, h]
  rfl

/-! ### `put_queue` of the keyboard -/

/-- The loop of `put_queue`, with `%eax`, `%ebx` and what the queue is to be; its head is in `%ecx`, and only
the bytes are stored at once.  The flag says whether a sleeper is woken. -/
def put_loop (q : Queue) : ℕ → BitVec 32 → BitVec 32 → Queue → Option (Queue × Bool)
  | 0, _, _, _ => none
  | fuel + 1, eax, ebx, p =>
    let p := PUTCH (eax.setWidth 8).toInt p
    if p.head = p.tail then some ({ q with buf := p.buf }, false)
    else
      let eax := eax >>> 8 ||| ebx <<< 24
      if eax = 0 then some (p, true) else put_loop q fuel eax (ebx >>> 8) p

/-- There are eight bytes at most. -/
def put_queue (eax ebx : BitVec 32) (q : Queue) : Option (Queue × Bool) := put_loop q 8 eax ebx q

/-- The bytes of a word up to the last that is not zero, and one at least. -/
def key_bytes (n : ℕ) : List ℤ :=
  (if n = 0 then [0] else Nat.digits 256 n).map fun d => (BitVec.ofNat 8 d).toInt

theorem key_bytes_last {n : ℕ} (h : n < 256) : key_bytes n = [(BitVec.ofNat 8 n).toInt] := by
  rw [key_bytes]
  by_cases hn : n = 0
  · rw [if_pos hn, hn]
    rfl
  · rw [if_neg hn, Nat.digits_of_lt 256 n hn h]
    rfl

theorem key_bytes_more {n : ℕ} (h : 256 ≤ n) :
    key_bytes n = (BitVec.ofNat 8 n).toInt :: key_bytes (n / 256) := by
  have hlow : BitVec.ofNat 8 (n % 256) = BitVec.ofNat 8 n := by
    apply BitVec.eq_of_toNat_eq
    simp
  rw [key_bytes, key_bytes, if_neg (by omega), if_neg (by omega), Nat.digits_def' (by decide) (by omega),
    List.map_cons, hlow]

/-- The bytes that are stored go to free places, and the head is published if there were enough of them. -/
theorem put_loop_spec {p : Queue} {fuel : ℕ} {eax : BitVec 32} (h : p.Wf) (htail : p.tail = q.tail)
    (hcount : q.CHARS ≤ p.CHARS) (hkeep : ∀ i < q.CHARS, p.buf ((q.tail + i) % 1024) =
      q.buf ((q.tail + i) % 1024))
    (hfuel : eax.toNat < 256 ^ fuel) (hpos : 0 < fuel) : ∃ r, put_loop q fuel eax 0 p = some r ∧
      ((key_bytes eax.toNat).length ≤ p.LEFT → r.2 = true ∧ r.1.tail = q.tail ∧
        r.1.chars = p.chars ++ key_bytes eax.toNat) ∧
      (p.LEFT < (key_bytes eax.toNat).length → r.2 = false ∧ r.1.head = q.head ∧ r.1.tail = q.tail ∧
        r.1.chars = q.chars) := by
  induction fuel generalizing eax p with
  | zero => omega
  | succ fuel ih =>
    have hbyte : eax.setWidth 8 = BitVec.ofNat 8 eax.toNat := rfl
    have hshift : (eax >>> 8 ||| (0 : BitVec 32) <<< 24) = eax >>> 8 := by simp
    have hnat : (eax >>> 8).toNat = eax.toNat / 256 := by
      rw [BitVec.toNat_ushiftRight, Nat.shiftRight_eq_div_pow]
    have hzero : eax >>> 8 = 0 ↔ eax.toNat < 256 := by
      rw [← BitVec.toNat_inj, hnat, show (0 : BitVec 32).toNat = 0 from rfl]
      omega
    have hroom := left_eq h
    have hchars := chars_eq h
    obtain ⟨hh, ht⟩ := id h
    have hkeep' : ∀ i < q.CHARS, (PUTCH (eax.setWidth 8).toInt p).buf ((q.tail + i) % 1024) =
        q.buf ((q.tail + i) % 1024) := by
      intro i hi
      have hne : (q.tail + i) % 1024 ≠ p.head := by omega
      exact (update_of_ne hne ..).trans (hkeep i hi)
    have hfull : (PUTCH (eax.setWidth 8).toInt p).head = (PUTCH (eax.setWidth 8).toInt p).tail ↔
        p.LEFT = 0 := by
      show (p.head + 1) % 1024 = p.tail ↔ _
      omega
    have hlength : 0 < (key_bytes eax.toNat).length := by
      rcases Nat.lt_or_ge eax.toNat 256 with hlt | hge
      · rw [key_bytes_last hlt]
        exact Nat.one_pos
      · rw [key_bytes_more hge]
        exact Nat.succ_pos _
    rw [put_loop, hshift]
    by_cases hleft : p.LEFT = 0
    · refine ⟨_, if_pos (hfull.2 hleft), fun hle => by omega, fun _ => ⟨rfl, rfl, rfl, ?_⟩⟩
      exact List.map_congr_left fun i hi => hkeep' i (List.mem_range.1 hi)
    · rw [if_neg (fun he => hleft (hfull.1 he))]
      have hput := putch_chars (c := (eax.setWidth 8).toInt) h (by omega)
      have hless := putch_LEFT (c := (eax.setWidth 8).toInt) h (by omega)
      have hmore := putch_CHARS (c := (eax.setWidth 8).toInt) h (by omega)
      by_cases hlast : eax.toNat < 256
      · rw [if_pos (hzero.2 hlast), key_bytes_last hlast]
        exact ⟨_, rfl, fun _ => ⟨rfl, htail, by rw [hput, hbyte]⟩, fun hlt => absurd hlt (by simp; omega)⟩
      · have hfuel' : (eax >>> 8).toNat < 256 ^ fuel := by
          rw [hnat]
          rw [Nat.pow_succ] at hfuel
          omega
        have hpos' : 0 < fuel := by
          by_contra h0
          obtain rfl : fuel = 0 := by omega
          omega
        obtain ⟨r, hr, hfit, hnot⟩ := ih (putch_wf h) htail (by omega) hkeep' hfuel' hpos'
        rw [if_neg (fun h0 => hlast (hzero.1 h0)), key_bytes_more (by omega), ← hnat, List.length_cons]
        rw [hput, List.append_assoc] at hfit
        exact ⟨r, hr, fun hle => hfit (by omega), fun hlt => hnot (by omega)⟩

/-- **Keys are queued whole or not at all.** -/
theorem put_queue_whole (h : q.Wf) (eax : BitVec 32) : ∃ r, put_queue eax 0 q = some r ∧
    ((key_bytes eax.toNat).length ≤ q.LEFT → r.2 = true ∧ r.1.tail = q.tail ∧
      r.1.chars = q.chars ++ key_bytes eax.toNat) ∧
    (q.LEFT < (key_bytes eax.toNat).length → r.2 = false ∧ r.1.head = q.head ∧ r.1.tail = q.tail ∧
      r.1.chars = q.chars) :=
  put_loop_spec h rfl (Nat.le_refl _) (fun _ _ => rfl) (Nat.lt_trans eax.isLt (by decide)) (by decide)

/-- An empty queue. -/
def fresh : Queue := ⟨0, 0, 0, fun _ => 0, [], [], 0, false, false⟩

theorem put_queue_whole_arrow : ∃ r, put_queue 0x415b1b 0 fresh = some r ∧ r.1.chars = [0x1b, 0x5b, 0x41] := by
  obtain ⟨r, hr, hfit, -⟩ := put_queue_whole (q := fresh) ⟨by decide, by decide⟩ 0x415b1b
  exact ⟨r, hr, (hfit (by decide)).2.2⟩

end Queue

end OldLinux.Tty
