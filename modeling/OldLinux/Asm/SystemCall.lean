import OldLinux.Lib.StringInstructions
import Mathlib.Data.List.Basic

/-!
# The way out of a system call

`system_call` from behind the call of the handler, `reschedule` and `ret_from_sys_call`, on the bytes of the
memory and the words of the stack.  The other side is `task_struct` as the compiler lays it out: longs of four
bytes, the low byte first, and entries of 16 bytes in `sigaction`.
-/

namespace OldLinux.Asm

open Lib

abbrev Memory := BitVec 32 → BitVec 8

/-- The long at an address. -/
def long (mem : Memory) (a : BitVec 32) : BitVec 32 := mem (a + 3) ++ mem (a + 2) ++ mem (a + 1) ++ mem a

/-! ### `task_struct` -/

structure sigaction where
  sa_handler : BitVec 32
  sa_mask : BitVec 32
  sa_flags : BitVec 32
  sa_restorer : BitVec 32

def sigaction.at (mem : Memory) (p : BitVec 32) : sigaction where
  sa_handler := long mem p
  sa_mask := long mem (p + 4)
  sa_flags := long mem (p + 8)
  sa_restorer := long mem (p + 12)

/-- The fields up to the one after `sigaction`. -/
structure task_struct where
  state : BitVec 32
  counter : BitVec 32
  priority : BitVec 32
  signal : BitVec 32
  sigaction : Fin 32 → sigaction
  blocked : BitVec 32

/-- Four longs, 32 entries of four longs each, and a long. -/
def task_struct.at (mem : Memory) (p : BitVec 32) : task_struct where
  state := long mem p
  counter := long mem (p + 4)
  priority := long mem (p + 8)
  signal := long mem (p + 12)
  sigaction i := sigaction.at mem (p + 16 + BitVec.ofNat 32 (16 * i.val))
  blocked := long mem (p + 16 + 32 * 16)

/-! ### The path -/

/-- The offsets that the path uses, as they stand in `system_call.cc`. -/
def state : BitVec 32 := 99
def counter : BitVec 32 := 4
def signal : BitVec 32 := 12
def blocked : BitVec 32 := 33 * 16
def CS : ℕ := 0x20
def OLDSS : ℕ := 0x2C

structure Machine where
  eax : BitVec 32
  ebx : BitVec 32
  ecx : BitVec 32
  /-- the words of the stack, that at `esp` first -/
  stack : List (BitVec 32)
  mem : Memory
  /-- the pointers that the kernel keeps in `current` and in `task[0]` -/
  current : BitVec 32
  task : BitVec 32
  /-- the bytes that have been read or written through a register -/
  touched : List (BitVec 32)

namespace Machine

variable (m : Machine)

def touch (a : BitVec 32) : Machine := { m with touched := m.touched ++ [a, a + 1, a + 2, a + 3] }

def push (w : BitVec 32) : Machine := { m with stack := w :: m.stack }

/-- `offset(%esp)`. -/
def word (offset : ℕ) : BitVec 32 := m.stack.getD (offset / 4) 0

end Machine

/-- `bsfl`: the lowest bit that is set. -/
def bsfl (w : BitVec 32) : Option ℕ := (List.range 32).find? fun k => w.getLsbD k

/-- From `pushl %eax` on: whether the path jumps to `reschedule`, and so through `schedule`. -/
def after_call (m : Machine) : Bool × Machine :=
  let m := m.push m.eax
  let m := { m with eax := m.current }
  let m := m.touch (m.eax + state)
  if long m.mem (m.eax + state) ≠ 0 then (true, m)
  else
    let m := m.touch (m.eax + counter)
    (decide (long m.mem (m.eax + counter) = 0), m)

/-- `ret_from_sys_call`: the argument of `do_signal`, if it is called, and what there is then. -/
def ret_from_sys_call (m : Machine) : Option (BitVec 32) × Machine :=
  let m := { m with eax := m.current }
  if m.task = m.eax then (none, m)
  else if (m.word CS).setWidth 16 ≠ 0x0f#16 then (none, m)
  else if (m.word OLDSS).setWidth 16 ≠ 0x17#16 then (none, m)
  else
    let m := { m.touch (m.eax + signal) with ebx := long m.mem (m.eax + signal) }
    let m := { m.touch (m.eax + blocked) with ecx := long m.mem (m.eax + blocked) }
    let m := { m with ecx := ~~~m.ecx }
    let m := { m with ecx := m.ebx &&& m.ecx }
    match bsfl m.ecx with
    | none => (none, m)
    | some k =>
      let m := { m with ebx := m.ebx &&& ~~~(1#32 <<< k) }
      let m := { m.touch (m.eax + signal) with mem := store m.mem (m.eax + signal) 4 m.ebx }
      let m := { m with ecx := BitVec.ofNat 32 k + 1 }
      (some m.ecx, m.push m.ecx)

/-- What `int 0x80` and the pushes of `system_call` have put on the stack. -/
structure Frame where
  eax : BitVec 32
  ebx : BitVec 32
  ecx : BitVec 32
  edx : BitVec 32
  fs : BitVec 32
  es : BitVec 32
  ds : BitVec 32
  eip : BitVec 32
  cs : BitVec 32
  eflags : BitVec 32
  esp : BitVec 32
  ss : BitVec 32

/-- The last word pushed comes first. -/
def Frame.words (f : Frame) : List (BitVec 32) :=
  [f.eax, f.ebx, f.ecx, f.edx, f.fs, f.es, f.ds, f.eip, f.cs, f.eflags, f.esp, f.ss]

/-! ### What the path is for -/

/-- The path goes to a process that can get signals, in user mode. -/
def ToUser (m : Machine) (f : Frame) : Prop :=
  m.current ≠ m.task ∧ f.cs.setWidth 16 = 0x0f#16 ∧ f.ss.setWidth 16 = 0x17#16

/-- `k` is the lowest bit of `w`. -/
def Lowest (w : BitVec 32) (k : ℕ) : Prop := w.getLsbD k = true ∧ ∀ j < k, w.getLsbD j = false

/-- The bytes of the fields that the path may use. -/
def Field (p a : BitVec 32) : Prop :=
  (a - p).toNat < 8 ∨ (12 ≤ (a - p).toNat ∧ (a - p).toNat < 16) ∨ (528 ≤ (a - p).toNat ∧ (a - p).toNat < 532)

/-- `schedule` is called exactly for a task that does not run or has used up its time. -/
def Schedules (m : Machine) : Prop :=
  (after_call m).1 = true ↔ (task_struct.at m.mem m.current).state ≠ 0 ∨
  (task_struct.at m.mem m.current).counter = 0

/-- Exactly the lowest pending signal that is not blocked is taken and given to `do_signal`. -/
structure Delivers (m : Machine) (f : Frame) : Prop where
  chosen : ToUser m f → ∀ k, Lowest ((task_struct.at m.mem m.current).signal &&&
      ~~~(task_struct.at m.mem m.current).blocked) k →
    (ret_from_sys_call m).1 = some (BitVec.ofNat 32 (k + 1)) ∧
    (task_struct.at (ret_from_sys_call m).2.mem m.current).signal =
      (task_struct.at m.mem m.current).signal &&& ~~~(1#32 <<< k) ∧
    ∀ a, ¬(12 ≤ (a - m.current).toNat ∧ (a - m.current).toNat < 16) → (ret_from_sys_call m).2.mem a = m.mem a
  other : ¬(ToUser m f ∧ (task_struct.at m.mem m.current).signal &&&
      ~~~(task_struct.at m.mem m.current).blocked ≠ 0) →
    (ret_from_sys_call m).1 = none ∧ (ret_from_sys_call m).2.mem = m.mem

/-! ### The overlap -/

variable {mem : Memory} {a p w : BitVec 32} {k : ℕ} {m m' : Machine} {f : Frame} {rest : List (BitVec 32)}

theorem long_toNat (mem : Memory) (a : BitVec 32) :
    (long mem a).toNat = (mem (a + 3)).toNat * 2 ^ 24 + (mem (a + 2)).toNat * 2 ^ 16 +
      (mem (a + 1)).toNat * 2 ^ 8 + (mem a).toNat := by
  have happend : ∀ (n : ℕ) (x : BitVec n) (y : BitVec 8), (x ++ y).toNat = x.toNat * 2 ^ 8 + y.toNat := by
    intro n x y
    rw [BitVec.toNat_append, ← Nat.shiftLeft_add_eq_or_of_lt y.isLt, Nat.shiftLeft_eq]
  rw [long, happend, happend, happend]
  omega

/-- The four bytes at offset 99: the last of `sa_handler` in entry 5, and the first three of its `sa_mask`. -/
theorem long_state (mem : Memory) (p : BitVec 32) : long mem (p + state) = 0 ↔
      ((task_struct.at mem p).sigaction 5).sa_handler >>> 24 = 0 ∧
        ((task_struct.at mem p).sigaction 5).sa_mask <<< 8 = 0 := by
  have hplace : ∀ i j : BitVec 32, p + i + j = p + (i + j) := fun i j => BitVec.add_assoc p i j
  have hhandler : (task_struct.at mem p).sigaction 5 = sigaction.at mem (p + 96) := by
    show sigaction.at mem (p + 16 + BitVec.ofNat 32 80) = _
    rw [hplace]
    rfl
  have hzero : ∀ x : BitVec 32, x = 0 ↔ x.toNat = 0 := fun x => (BitVec.toNat_eq (y := 0#32))
  rw [hhandler, hzero, hzero, hzero, BitVec.toNat_ushiftRight, BitVec.toNat_shiftLeft,
    Nat.shiftRight_eq_div_pow,
    Nat.shiftLeft_eq, sigaction.at, long_toNat, long_toNat, long_toNat]
  simp only [hplace, state, show (99 + 1 : BitVec 32) = 100 from rfl, show (99 + 2 : BitVec 32) = 101 from rfl,
    show (99 + 3 : BitVec 32) = 102 from rfl, show (96 + 1 : BitVec 32) = 97 from rfl,
    show (96 + 2 : BitVec 32) = 98 from rfl, show (96 + 3 : BitVec 32) = 99 from rfl,
    show (96 + 4 : BitVec 32) = 100 from rfl, show (100 + 1 : BitVec 32) = 101 from rfl,
    show (100 + 2 : BitVec 32) = 102 from rfl, show (100 + 3 : BitVec 32) = 103 from rfl]
  have h0 := (mem (p + 96)).isLt
  have h1 := (mem (p + 97)).isLt
  have h2 := (mem (p + 98)).isLt
  have h4 := (mem (p + 100)).isLt
  have h5 := (mem (p + 101)).isLt
  have h6 := (mem (p + 102)).isLt
  omega

theorem after_call_goes (m : Machine) :
    (after_call m).1 = true ↔ long m.mem (m.current + state) ≠ 0 ∨ long m.mem (m.current + counter) = 0 := by
  show (if long m.mem (m.current + state) ≠ 0 then _ else _ : Bool × Machine).1 = true ↔ _
  by_cases h : long m.mem (m.current + state) ≠ 0
  · rw [if_pos h]
    exact ⟨fun _ => Or.inl h, fun _ => rfl⟩
  · rw [if_neg h]
    exact ⟨fun hd => Or.inr (of_decide_eq_true hd), fun hor => decide_eq_true (hor.resolve_left h)⟩

/-- Bytes of entry 5 of `sigaction` are not zero, as the path sees them. -/
def Overlaps (t : task_struct) : Prop :=
  ¬((t.sigaction 5).sa_handler >>> 24 = 0 ∧ (t.sigaction 5).sa_mask <<< 8 = 0)

theorem schedules_iff (m : Machine) : Schedules m ↔ (task_struct.at m.mem m.current).counter = 0 ∨
      (Overlaps (task_struct.at m.mem m.current) ↔ (task_struct.at m.mem m.current).state ≠ 0) := by
  have hoverlaps : long m.mem (m.current + state) ≠ 0 ↔ Overlaps (task_struct.at m.mem m.current) :=
    not_congr (long_state m.mem m.current)
  rw [Schedules, after_call_goes, hoverlaps]
  show (_ ∨ (task_struct.at m.mem m.current).counter = 0 ↔ _) ↔ _
  by_cases hcounter : (task_struct.at m.mem m.current).counter = 0
  · simp only [hcounter, or_true, true_or]
  · simp only [hcounter, or_false, false_or]

/-! ### The signal -/

theorem bsfl_some (h : Lowest w k) : bsfl w = some k := by
  rw [bsfl, List.find?_range_eq_some]
  refine ⟨h.1, ?_, fun j hj => by rw [h.2 j hj]; rfl⟩
  rw [List.mem_range]
  exact BitVec.lt_of_getLsbD h.1

theorem bsfl_zero : bsfl 0 = none := by decide

theorem task_struct_set (mem : Memory) (p : BitVec 32) : long mem (p + signal) &&& ~~~long mem (p + blocked) =
      (task_struct.at mem p).signal &&& ~~~(task_struct.at mem p).blocked := by
  have hblocked : p + blocked = p + 16 + 32 * 16 := by
    rw [BitVec.add_assoc]
    rfl
  rw [hblocked]
  rfl

theorem word_cs (h : m.stack = f.words ++ rest) : m.word CS = f.cs := by
  rw [Machine.word, h]
  rfl

theorem word_oldss (h : m.stack = f.words ++ rest) : m.word OLDSS = f.ss := by
  rw [Machine.word, h]
  rfl

theorem store_byte (mem : Memory) (a w : BitVec 32) {i : BitVec 32} (hi : i.toNat < 4) :
    store mem a 4 w (a + i) = (w >>> (8 * i.toNat)).setWidth 8 := by
  have hback : a + i - a = i := by
    rw [BitVec.add_comm, BitVec.add_sub_cancel]
  rw [store, hback, if_pos hi]

/-- The long that has been stored is the one that is there. -/
theorem long_store (mem : Memory) (a w : BitVec 32) : long (store mem a 4 w) a = w := by
  have hbyte : ∀ k, ((w >>> k).setWidth 8).toNat = w.toNat / 2 ^ k % 2 ^ 8 := by
    intro k
    rw [BitVec.toNat_setWidth, BitVec.toNat_ushiftRight, Nat.shiftRight_eq_div_pow]
  have h0 : store mem a 4 w a = (w >>> 0).setWidth 8 := by
    have h := store_byte mem a w (i := 0) (by decide)
    rwa [show a + 0 = a from BitVec.add_zero a] at h
  have hlt := w.isLt
  apply BitVec.eq_of_toNat_eq
  rw [long_toNat, store_byte mem a w (i := 3) (by decide), store_byte mem a w (i := 2) (by decide),
    store_byte mem a w (i := 1) (by decide), h0, hbyte, hbyte, hbyte, hbyte]
  show w.toNat / 2 ^ 24 % 2 ^ 8 * 2 ^ 24 + w.toNat / 2 ^ 16 % 2 ^ 8 * 2 ^ 16 + w.toNat / 2 ^ 8 % 2 ^ 8 * 2 ^ 8 +
    w.toNat / 2 ^ 0 % 2 ^ 8 = w.toNat
  omega

theorem not_to_user (hstack : m.stack = f.words ++ rest) (h : ¬ToUser m f) :
    ret_from_sys_call m = (none, { m with eax := m.current }) := by
  have hcs : ({ m with eax := m.current } : Machine).word CS = f.cs := word_cs hstack
  have hss : ({ m with eax := m.current } : Machine).word OLDSS = f.ss := word_oldss hstack
  rw [ret_from_sys_call]
  simp only [hcs, hss]
  by_cases htask : m.task = m.current
  · rw [if_pos htask]
  · rw [if_neg htask]
    by_cases hcode : f.cs.setWidth 16 = 0x0f#16
    · rw [if_neg (not_not.mpr hcode), if_pos fun hstack => h ⟨Ne.symm htask, hcode, hstack⟩]
    · rw [if_pos hcode]

/-- The bytes of the long at `a`. -/
def places (a : BitVec 32) : List (BitVec 32) := [a, a + 1, a + 2, a + 3]

theorem to_user (hstack : m.stack = f.words ++ rest) (h : ToUser m f) : ret_from_sys_call m =
      match bsfl ((task_struct.at m.mem m.current).signal &&& ~~~(task_struct.at m.mem m.current).blocked) with
      | none => (none, { m with
          eax := m.current
          ebx := (task_struct.at m.mem m.current).signal
          ecx := (task_struct.at m.mem m.current).signal &&& ~~~(task_struct.at m.mem m.current).blocked
          touched := m.touched ++ places (m.current + signal) ++ places (m.current + blocked) })
      | some k => (some (BitVec.ofNat 32 k + 1), { m with
          eax := m.current
          ebx := (task_struct.at m.mem m.current).signal &&& ~~~(1#32 <<< k)
          ecx := BitVec.ofNat 32 k + 1
          stack := (BitVec.ofNat 32 k + 1) :: m.stack
          mem := store m.mem (m.current + signal) 4
            ((task_struct.at m.mem m.current).signal &&& ~~~(1#32 <<< k))
          touched := m.touched ++ places (m.current + signal) ++ places (m.current + blocked) ++
            places (m.current + signal) }) := by
  have hcs : ({ m with eax := m.current } : Machine).word CS = f.cs := word_cs hstack
  have hss : ({ m with eax := m.current } : Machine).word OLDSS = f.ss := word_oldss hstack
  obtain ⟨htask, hcode, hss'⟩ := h
  rw [ret_from_sys_call]
  simp only [hcs, hss]
  rw [if_neg htask.symm, if_neg (not_not.mpr hcode), if_neg (not_not.mpr hss'), ← task_struct_set]
  cases hset : bsfl (long m.mem (m.current + signal) &&& ~~~long m.mem (m.current + blocked)) with
  | none =>
    simp only [Machine.touch, hset]
    rfl
  | some k =>
    simp only [Machine.touch, Machine.push, hset]
    rfl

theorem delivers (hstack : m.stack = f.words ++ rest) : Delivers m f := by
  refine ⟨?_, ?_⟩
  · intro huser k hk
    rw [to_user hstack huser, bsfl_some hk]
    refine ⟨congrArg some (BitVec.ofNat_add k 1).symm, long_store _ _ _, ?_⟩
    intro a ha
    refine if_neg ?_
    rw [signal]
    bv_omega
  · intro hno
    by_cases huser : ToUser m f
    · have hset : (task_struct.at m.mem m.current).signal &&& ~~~(task_struct.at m.mem m.current).blocked = 0 :=
        by_contra fun hne => hno ⟨huser, hne⟩
      rw [to_user hstack huser, hset, bsfl_zero]
      exact ⟨rfl, rfl⟩
    · rw [not_to_user hstack huser]
      exact ⟨rfl, rfl⟩

/-! ### The fields -/

theorem field_places {off : BitVec 32}
    (hoff : off.toNat + 4 ≤ 8 ∨ (12 ≤ off.toNat ∧ off.toNat + 4 ≤ 16) ∨
      (528 ≤ off.toNat ∧ off.toNat + 4 ≤ 532)) :
    ∀ a ∈ places (p + off), Field p a := by
  have hback : ∀ i : BitVec 32, p + off + i - p = off + i := by
    intro i
    rw [BitVec.add_assoc, BitVec.add_comm, BitVec.add_sub_cancel]
  intro a ha
  have hcases : ∃ i : BitVec 32, i.toNat < 4 ∧ a = p + off + i := by
    simp only [places, List.mem_cons, List.not_mem_nil, or_false] at ha
    rcases ha with rfl | rfl | rfl | rfl
    · exact ⟨0, by decide, (BitVec.add_zero _).symm⟩
    · exact ⟨1, by decide, rfl⟩
    · exact ⟨2, by decide, rfl⟩
    · exact ⟨3, by decide, rfl⟩
  obtain ⟨i, hi, rfl⟩ := hcases
  rw [Field, hback, BitVec.toNat_add, Nat.mod_eq_of_lt (by omega)]
  omega

/-- On the way to user mode only `signal` and `blocked` are used. -/
theorem ret_touches (hstack : m.stack = f.words ++ rest) (htouched : m.touched = []) :
    ∀ a ∈ (ret_from_sys_call m).2.touched, Field m.current a := by
  have hsignal : ∀ a ∈ places (m.current + signal), Field m.current a := field_places (by decide)
  have hblocked : ∀ a ∈ places (m.current + blocked), Field m.current a := field_places (by decide)
  intro a ha
  by_cases huser : ToUser m f
  · rw [to_user hstack huser] at ha
    split at ha
    · simp only [htouched, List.nil_append, List.mem_append] at ha
      exact ha.elim (hsignal a) (hblocked a)
    · simp only [htouched, List.nil_append, List.mem_append] at ha
      exact ha.elim (fun h => h.elim (hsignal a) (hblocked a)) (hsignal a)
  · rw [not_to_user hstack huser] at ha
    simp only [htouched, List.not_mem_nil] at ha

/-- The word that is compared first is none of the fields. -/
theorem after_call_touches (m : Machine) :
    m.current + state ∈ (after_call m).2.touched ∧ ¬Field m.current (m.current + state) := by
  constructor
  · have hmem : m.current + state ∈ ((m.push m.eax).touch (m.current + state)).touched := by
      rw [Machine.touch]
      exact List.mem_append_right _ (List.mem_cons_self ..)
    show _ ∈ (if long m.mem (m.current + state) ≠ 0 then _ else _ : Bool × Machine).2.touched
    split
    · exact hmem
    · exact List.mem_append_left _ hmem
  · have hback : m.current + state - m.current = state := by
      rw [BitVec.add_comm, BitVec.add_sub_cancel]
    rw [Field, hback]
    decide

/-- The path as it should be, from the call of the handler at `m` and from `ret_from_sys_call` at `m'`. -/
structure ReadsTheTask (m m' : Machine) (f : Frame) : Prop where
  schedules : Schedules m
  delivers : Delivers m' f
  fields : (∀ a ∈ (after_call m).2.touched, Field m.current a) ∧
    ∀ a ∈ (ret_from_sys_call m').2.touched, Field m'.current a

/-- The path never reads the task as it is laid out, for it takes four bytes of `sigaction` for `state`.  It
still decides rightly when the time is used up, or those bytes are zero exactly if `state` is; and signals are
delivered rightly, from the right fields. -/
theorem exit_path (m m' : Machine) (f : Frame) (rest : List (BitVec 32)) (hstack : m'.stack = f.words ++ rest)
    (htouched : m'.touched = []) :
    ¬ReadsTheTask m m' f ∧ (Schedules m ↔ (task_struct.at m.mem m.current).counter = 0 ∨
        (Overlaps (task_struct.at m.mem m.current) ↔ (task_struct.at m.mem m.current).state ≠ 0)) ∧
      Delivers m' f ∧ ∀ a ∈ (ret_from_sys_call m').2.touched, Field m'.current a := by
  refine ⟨fun h => ?_, schedules_iff m, delivers hstack, ret_touches hstack htouched⟩
  obtain ⟨htouches, hno⟩ := after_call_touches m
  exact hno (h.fields.1 _ htouches)

/-- A task that sleeps, with time left: `state` is 1 and `counter` 5, and no signal has an action. -/
def asleep : Machine where
  eax := 0
  ebx := 0
  ecx := 0
  stack := [0, 0, 0, 0, 0, 0, 0, 0, 0x0f, 0, 0, 0x17]
  mem := fun a => if a = 0x1000 then 1 else if a = 0x1004 then 5 else 0
  current := 0x1000
  task := 0
  touched := []

theorem exit_path_asleep :
    asleep.stack = (⟨0, 0, 0, 0, 0, 0, 0, 0, 0x0f, 0, 0, 0x17⟩ : Frame).words ++ [] ∧ asleep.touched = [] ∧
      ¬ReadsTheTask asleep asleep ⟨0, 0, 0, 0, 0, 0, 0, 0, 0x0f, 0, 0, 0x17⟩ ∧
      (Schedules asleep ↔ (task_struct.at asleep.mem asleep.current).counter = 0 ∨
        (Overlaps (task_struct.at asleep.mem asleep.current) ↔
          (task_struct.at asleep.mem asleep.current).state ≠ 0)) ∧
      Delivers asleep ⟨0, 0, 0, 0, 0, 0, 0, 0, 0x0f, 0, 0, 0x17⟩ ∧
      ∀ a ∈ (ret_from_sys_call asleep).2.touched, Field asleep.current a :=
  ⟨rfl, rfl, exit_path asleep asleep ⟨0, 0, 0, 0, 0, 0, 0, 0, 0x0f, 0, 0, 0x17⟩ [] rfl rfl⟩

/-- The sleeping task goes on without `schedule`. -/
theorem asleep_goes_on :
    ¬Schedules asleep ∧ ¬ReadsTheTask asleep asleep ⟨0, 0, 0, 0, 0, 0, 0, 0, 0x0f, 0, 0, 0x17⟩ := by
  have hno : ¬Schedules asleep := by
    intro h
    have hgoes : (after_call asleep).1 = true := h.mpr (Or.inl (by decide))
    exact absurd hgoes (by decide)
  exact ⟨hno, fun h => hno h.schedules⟩

end OldLinux.Asm
