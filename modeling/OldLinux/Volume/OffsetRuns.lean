import OldLinux.Volume.Offsets

/-!
# Seeking, reading and writing

Any sequence of the three calls on regular files.  Every read and every write whose positions fit keeps the
kernel running, and every position stays one.
-/

namespace OldLinux.Volume

open Lib

variable {p q : Process} {f buf : ℕ} {count : ℤ}

/-- A call with its arguments. -/
inductive Call
  | lseek (fd offset origin : ℤ)
  | read (fd : ℤ) (buf : ℕ) (count : ℤ)
  | write (fd : ℤ) (buf : ℕ) (count : ℤ)

def Call.fd : Call → ℤ
  | .lseek fd _ _ => fd
  | .read fd _ _ => fd
  | .write fd _ _ => fd

/-- The descriptor, if it is open, is one of a regular file. -/
def OnFile (p : Process) (fd : ℤ) : Prop := ∀ f, p.filp fd = some f →
  (p.kernel.inode_table (p.file_table f).f_inode).i_pipe = false ∧
    S_ISREG (p.kernel.inode_table (p.file_table f).f_inode).i_mode = true

/-- Its position is not negative. -/
def NonNegative (p : Process) (fd : ℤ) : Prop := ∀ f, p.filp fd = some f → 0 ≤ (p.file_table f).f_pos

/-- Where a write begins. -/
def write_pos (p : Process) (f : ℕ) : ℤ :=
  if (p.file_table f).f_flags &&& O_APPEND ≠ 0 then int (p.kernel.inode_table (p.file_table f).f_inode).i_size
  else (p.file_table f).f_pos

/-- What is read lies before the end of the last block, or some of it cannot be read. -/
def ReadFits (p : Process) (f : ℕ) (count : ℤ) : Prop :=
  let pos := (p.file_table f).f_pos
  let c := clamp count pos (p.kernel.inode_table (p.file_table f).f_inode).i_size
  c ≤ 0 ∨ ReadStops p.kernel (p.file_table f).f_inode pos c.toNat

/-- What is written lies before the end of the last block, or the disk runs full. -/
def WriteFits (p : Process) (f : ℕ) (count : ℤ) : Prop :=
  0 ≤ write_pos p f ∧ ∃ dev sb, WriteStops dev sb p.kernel (p.file_table f).f_inode (write_pos p f) count.toNat

def Call.Fits (p : Process) : Call → Prop
  | .lseek _ _ _ => True
  | .read fd _ count => 0 < count → 0 ≤ fd → fd < NR_OPEN → ∀ f, p.filp fd = some f → ReadFits p f count
  | .write fd _ count => 0 < count → 0 ≤ fd → fd < NR_OPEN → ∀ f, p.filp fd = some f → WriteFits p f count

/-- A write that would need a block behind the last one is cut short. -/
def Call.CutShort (p : Process) (r : ℤ) : Call → Prop
  | .write fd _ count => 0 < count → ∀ f, p.filp fd = some f → MAX_SIZE < write_pos p f + count → r < count
  | _ => True

section Calls

variable (elsewhere : Bool → ℕ → ℕ → ℤ → ProcessM ℤ)

def Call.run : Call → ProcessM ℤ
  | .lseek fd offset origin => sys_lseek fd offset origin
  | .read fd buf count => sys_read elsewhere fd buf count
  | .write fd buf count => sys_write elsewhere fd buf count

/-- Every call of the sequence fits when it is made. -/
def AllFit : List Call → Process → Prop
  | [], _ => True
  | c :: calls, p => c.Fits p ∧ wp (c.run elsewhere) (fun _ q => AllFit calls q) (fun _ _ => True) p

/-- The positions stay non-negative, and `_bmap` does not stop the kernel. -/
def OffsetsSafe (fds : ℤ → Prop) : List Call → Process → Prop
  | [], p => ∀ fd, fds fd → NonNegative p fd
  | c :: calls, p => (∀ fd, fds fd → NonNegative p fd) ∧
      wp (c.run elsewhere) (fun r q => c.CutShort p r ∧ OffsetsSafe fds calls q) (fun e _ => NotBmap e) p

/-! ### One call -/

theorem Kept.on_file {fd : ℤ} (h : Kept f p q) (hp : OnFile p fd) : OnFile q fd := by
  intro g hg
  rw [h.filp] at hg
  obtain ⟨h1, h2⟩ := hp g hg
  rw [h.f_inode g, h.modes.pipe, h.modes.mode]
  exact ⟨h1, h2⟩

theorem Kept.non_negative {fd : ℤ} (h : Kept f p q) (hf : 0 ≤ (q.file_table f).f_pos) (hp : NonNegative p fd) :
    NonNegative q fd := by
  intro g hg
  by_cases hgf : g = f
  · rw [hgf]
    exact hf
  · rw [h.filp] at hg
    rw [h.others g hgf]
    exact hp g hg

theorem wp_lseek (fd offset origin : ℤ) :
    wp (sys_lseek fd offset origin) (fun _ q => q = p ∨ ∃ f, Kept f p q ∧ 0 ≤ (q.file_table f).f_pos)
      (fun _ _ => False) p := by
  have hseek : ∀ (f : ℕ) (pos : ℤ), wp (if pos < 0 then (pure (-EINVAL) : ProcessM ℤ) else do
      modify fun p' => p'.set_file f { p.file_table f with f_pos := pos }
      pure pos) (fun _ q => q = p ∨ ∃ f, Kept f p q ∧ 0 ≤ (q.file_table f).f_pos) (fun _ _ => False) p := by
    intro f pos
    rw [wp_ite, wp_pure, wp_bind, wp_modify, wp_pure]
    refine ⟨fun _ => .inl rfl, fun hpos => .inr ⟨f, (Kept.refl f p).set_pos pos, ?_⟩⟩
    rw [set_file_self]
    exact Int.not_lt.1 hpos
  rw [sys_lseek, wp_bind, wp_get]
  split
  · exact .inl rfl
  · rename_i f _
    rw [wp_ite]
    refine ⟨fun _ => .inl rfl, fun _ => ?_⟩
    rw [wp_ite]
    refine ⟨fun _ => .inl rfl, fun _ => ?_⟩
    by_cases h0 : origin = 0
    · rw [if_pos h0]
      exact hseek f _
    rw [if_neg h0]
    by_cases h1 : origin = 1
    · rw [if_pos h1]
      exact hseek f _
    rw [if_neg h1]
    by_cases h2 : origin = 2
    · rw [if_pos h2]
      exact hseek f _
    · rw [if_neg h2]
      exact .inl rfl

/-- An open regular file. -/
theorem OnFile.opened {fd : ℤ} (h : OnFile p fd) (hrange : 0 ≤ fd ∧ fd < NR_OPEN) (hf : p.filp fd = some f) :
    Opened p fd f :=
  ⟨hrange, hf, (h f hf).1, .inl (h f hf).2⟩

theorem wp_file_write (hpos : 0 ≤ (p.file_table f).f_pos) (hcount : 0 < count) (h : WriteFits p f count) :
    wp (file_write (p.file_table f).f_inode f buf count)
      (fun r q => (MAX_SIZE < write_pos p f + count → r < count) ∧ 0 ≤ (q.file_table f).f_pos)
      (fun e _ => NotBmap e) p := by
  obtain ⟨hstart, dev, sb, hstops⟩ := h
  rw [file_write, wp_bind, wp_get]
  dsimp only
  rw [← write_pos, wp_bind]
  have hloop := wp_write_loop_stops dev sb (p.file_table f).f_inode count.toNat count.toNat 0
    (write_pos p f) buf p
    (by omega) (by omega) hstart hstops
  -- the loop does not change the position of any file
  have hkept : wp (write_loop (p.file_table f).f_inode count.toNat count.toNat 0 (write_pos p f) buf)
      (fun _ q => Kept (f + 1) p q) (fun e _ => Any e) p := kept_write_loop _ _ _ _ _ p (Kept.refl _ p)
  refine wp_mono (wp_and hloop hkept) ?_ fun _ _ h => h.1
  rintro ⟨i, pos⟩ q ⟨⟨hend, hcut⟩, hq⟩
  have hq' := hq.others f (by omega)
  rw [wp_bind, wp_modify, wp_bind, wp_ite]
  have hr : MAX_SIZE < write_pos p f + count → (if i ≠ 0 then (i : ℤ) else -1) < count := by
    intro hbig
    have hlt := hcut (by omega)
    split_ifs <;> omega
  refine ⟨fun _ => ⟨hr, ?_⟩, fun _ => ⟨hr, ?_⟩⟩
  · show 0 ≤ (q.file_table f).f_pos
    rw [hq']
    exact hpos
  · show 0 ≤ ((q.set_file f _).file_table f).f_pos
    rw [set_file_self]
    exact hend

theorem wp_file_read_fits (hcount : 0 < count) (hpos : 0 ≤ (p.file_table f).f_pos)
    (h : ReadStops p.kernel (p.file_table f).f_inode (p.file_table f).f_pos count.toNat) :
    wp (file_read (p.file_table f).f_inode f buf count) (fun _ q => 0 ≤ (q.file_table f).f_pos)
      (fun e _ => NotBmap e) p := by
  rw [file_read, if_neg (by omega), wp_bind]
  refine wp_mono (wp_read_loop_stops f _ _ _ buf _ p rfl hpos h) ?_ fun _ _ h => h
  intro l q hq
  rw [wp_bind, wp_modify, wp_pure]
  exact hq

theorem sys_write_eq {fd : ℤ} (O : Opened p fd f)
    (hmode : S_ISREG (p.kernel.inode_table (p.file_table f).f_inode).i_mode = true) (hcount : 0 < count)
    (Q : ℤ → Process → Prop) (E : Stop → Process → Prop) :
    wp (sys_write elsewhere fd buf count) Q E p ↔
    wp (file_write (p.file_table f).f_inode f buf count) Q E p := by
  rw [sys_write, wp_bind, wp_get, if_pos ⟨O.range.1, O.range.2, by omega⟩, O.filp]
  dsimp only
  rw [if_neg (by omega), O.pipe, if_neg Bool.false_ne_true, if_neg O.not_device, if_pos hmode]

/-- Without an open file or without a byte nothing happens. -/
theorem wp_sys_read_closed {fd : ℤ} (h : ¬∃ f, 0 < count ∧ (0 ≤ fd ∧ fd < NR_OPEN) ∧ p.filp fd = some f) :
    wp (sys_read elsewhere fd buf count) (fun _ q => q = p) (fun _ _ => False) p := by
  rw [sys_read, wp_bind, wp_get]
  split
  · rfl
  · rename_i f hf
    split_ifs at hf with hopen
    dsimp only
    rw [if_pos (by
      by_contra hne
      exact h ⟨f, by omega, ⟨hopen.1, hopen.2.1⟩, hf⟩)]
    rfl

theorem wp_sys_write_closed {fd : ℤ} (h : ¬∃ f, 0 < count ∧ (0 ≤ fd ∧ fd < NR_OPEN) ∧ p.filp fd = some f) :
    wp (sys_write elsewhere fd buf count) (fun r q => q = p ∧ (0 < count → r < count))
    (fun _ _ => False) p := by
  have herror : 0 < count → -EINVAL < count := by
    rw [EINVAL]
    omega
  rw [sys_write, wp_bind, wp_get]
  split
  · exact ⟨rfl, herror⟩
  · rename_i f hf
    split_ifs at hf with hopen
    have hzero : count = 0 := by
      by_contra hne
      exact h ⟨f, by omega, ⟨hopen.1, hopen.2.1⟩, hf⟩
    dsimp only
    rw [if_pos hzero]
    exact ⟨rfl, fun hpos => by omega⟩

/-- **One call** that fits, on a regular file. -/
theorem wp_call (c : Call) (hfile : OnFile p c.fd) (hpos : NonNegative p c.fd) (hfits : c.Fits p) :
    wp (c.run elsewhere) (fun r q => c.CutShort p r ∧ (q = p ∨ ∃ f, Kept f p q ∧ 0 ≤ (q.file_table f).f_pos))
      (fun e _ => NotBmap e) p := by
  cases c with
  | lseek fd offset origin =>
    exact wp_mono (wp_lseek fd offset origin) (fun _ _ h => ⟨trivial, h⟩) fun _ _ h => h.elim
  | read fd buf count =>
    by_cases h : ∃ f, 0 < count ∧ (0 ≤ fd ∧ fd < NR_OPEN) ∧ p.filp fd = some f
    · obtain ⟨f, hcount, hrange, hf⟩ := h
      have hread : ReadFits p f count := hfits hcount hrange.1 hrange.2 f hf
      have hpos' : 0 ≤ (p.file_table f).f_pos := hpos f hf
      have O : Opened p fd f := hfile.opened hrange hf
      rw [Call.run, sys_read_eq elsewhere O hcount]
      rw [ReadFits] at hread
      dsimp only at hread ⊢
      generalize clamp count (p.file_table f).f_pos
        (p.kernel.inode_table (p.file_table f).f_inode).i_size = n at *
      rw [wp_ite, wp_pure]
      refine ⟨fun _ => ⟨trivial, .inl rfl⟩, fun hn => ?_⟩
      have hkept : wp (file_read (p.file_table f).f_inode f buf n) (fun _ q => Kept f p q)
          (fun e _ => Any e) p := kept_file_read p (Kept.refl f p)
      have hstops := hread.resolve_left hn
      refine wp_mono (wp_and (wp_file_read_fits (Int.not_le.1 hn) hpos' hstops) hkept) ?_ fun _ _ h => h.1
      rintro r q ⟨hge, hq⟩
      exact ⟨trivial, .inr ⟨f, hq, hge⟩⟩
    · exact wp_mono (wp_sys_read_closed elsewhere h) (fun _ _ h => ⟨trivial, .inl h⟩) fun _ _ h => h.elim
  | write fd buf count =>
    by_cases h : ∃ f, 0 < count ∧ (0 ≤ fd ∧ fd < NR_OPEN) ∧ p.filp fd = some f
    · obtain ⟨f, hcount, hrange, hf⟩ := h
      have hwrite : WriteFits p f count := hfits hcount hrange.1 hrange.2 f hf
      have O : Opened p fd f := hfile.opened hrange hf
      rw [Call.run, sys_write_eq elsewhere O (hfile f hf).2 hcount]
      have hkept : wp (file_write (p.file_table f).f_inode f buf count) (fun _ q => Kept f p q)
          (fun e _ => Any e) p := kept_file_write p (Kept.refl f p)
      refine wp_mono (wp_and (wp_file_write (hpos f hf) hcount hwrite) hkept) ?_ fun _ _ h => h.1
      rintro r q ⟨⟨hcut, hge⟩, hq⟩
      refine ⟨fun _ g hg => ?_, .inr ⟨f, hq, hge⟩⟩
      have hg' : p.filp fd = some g := hg
      rw [hf] at hg'
      cases hg'
      exact hcut
    · refine wp_mono (wp_sys_write_closed elsewhere h) (fun r q hq => ⟨fun hcount f hf _ => ?_, .inl hq.1⟩)
        fun _ _ h => h.elim
      exact hq.2 hcount

/-! ### Any sequence of calls -/

/-- **User offsets that fit do not stop the kernel.** -/
theorem offsets_safe (fds : ℤ → Prop) : ∀ (calls : List Call) (p : Process), (∀ c ∈ calls, fds c.fd) →
    (∀ fd, fds fd → OnFile p fd) → (∀ fd, fds fd → NonNegative p fd) → AllFit elsewhere calls p →
    OffsetsSafe elsewhere fds calls p := by
  intro calls
  induction calls with
  | nil => exact fun p _ _ hpos _ => hpos
  | cons c calls ih =>
    intro p hfds hfile hpos hfit
    obtain ⟨hc, hrest⟩ := hfit
    have hfd := hfds c (List.mem_cons_self ..)
    refine ⟨hpos, wp_mono (wp_and (wp_call elsewhere c (hfile _ hfd) (hpos _ hfd) hc) hrest)
      ?_ fun _ _ h => h.1⟩
    rintro r q ⟨⟨hcut, hq⟩, hq'⟩
    refine ⟨hcut, ih q (fun c hc => hfds c (List.mem_cons_of_mem _ hc)) (fun fd h => ?_) (fun fd h => ?_) hq'⟩
    · rcases hq with rfl | ⟨f, hkept, -⟩
      · exact hfile fd h
      · exact hkept.on_file (hfile fd h)
    · rcases hq with rfl | ⟨f, hkept, hge⟩
      · exact hpos fd h
      · exact hkept.non_negative hge (hpos fd h)

end Calls

theorem smallProcess_on_file (size : ℕ) (fd : ℤ) : OnFile (smallProcess size 0) fd :=
  fun _ _ => ⟨rfl, show S_ISREG 0o100644 = true by decide⟩

theorem smallProcess_non_negative (size : ℕ) (fd : ℤ) : NonNegative (smallProcess size 0) fd :=
  fun _ _ => Int.le_refl 0

/-- The process has gone to this position. -/
def movedProcess (pos : ℤ) : Process := (smallProcess 5 0).set_file 0 ⟨3, 0, 0, pos⟩

theorem smallProcess_lseek {pos : ℤ} (h : 0 ≤ pos) :
    sys_lseek 3 pos 0 (smallProcess 5 0) = .ok pos (movedProcess pos) := by
  refine eq_ok_of_wp ?_
  rw [sys_lseek, wp_bind, wp_get]
  have hopen : (if 0 ≤ (3 : ℤ) ∧ (3 : ℤ) < NR_OPEN then (smallProcess 5 0).filp 3 else none) = some 0 := rfl
  rw [hopen]
  dsimp only
  have hseekable : IS_SEEKABLE (MAJOR ((smallProcess 5 0).kernel.inode_table
      ((smallProcess 5 0).file_table 0).f_inode).i_dev) := by decide
  rw [if_neg (not_not_intro hseekable), if_neg (by decide), if_pos rfl, if_neg (Int.not_lt.2 h),
    wp_bind, wp_modify,
    wp_pure]
  exact ⟨rfl, rfl⟩

/-- Two bytes are written behind the first two. -/
theorem offsets_safe_write : OffsetsSafe (fun _ _ _ _ => pure 0) (fun fd => fd = 3)
    [.lseek 3 2 0, .write 3 100 2] (smallProcess 5 0) := by
  refine offsets_safe _ _ _ _ (fun c hc => ?_) (fun fd _ => smallProcess_on_file 5 fd)
    (fun fd _ => smallProcess_non_negative 5 fd) ⟨trivial, ?_⟩
  · rcases List.mem_cons.1 hc with rfl | hc
    · rfl
    · rw [List.mem_singleton.1 hc]
      rfl
  · refine (wp_of_ok (smallProcess_lseek (by decide))).2 ⟨fun _ _ _ f hf => ?_, ?_⟩
    · have hf' : some 0 = some f := hf
      cases hf'
      exact ⟨by decide, 1, smallSuper, .inl (by decide)⟩
    · rw [wp]
      split <;> trivial

/-- A position behind the last block is accepted, and the next byte that is written stops the kernel. -/
theorem lseek_write_panics : ∃ p : Process, (∀ fd, OnFile p fd) ∧ (∀ fd, NonNegative p fd) ∧
    ¬OffsetsSafe (fun _ _ _ _ => pure 0) (fun fd => fd = 3) [.lseek 3 268966912 0, .write 3 100 1] p := by
  refine ⟨smallProcess 5 0, smallProcess_on_file 5, smallProcess_non_negative 5, fun hsafe => ?_⟩
  obtain ⟨-, h⟩ := hsafe
  obtain ⟨-, -, hwrite⟩ := (wp_of_ok (smallProcess_lseek (show (0 : ℤ) ≤ 268966912 by decide))).1 h
  have hpanic : wp (sys_write (fun _ _ _ _ => pure 0) 3 100 1) (fun _ _ => False)
      (fun e _ => e = .panic "_bmap: block>big") (movedProcess 268966912) := by
    decide
  obtain ⟨_, _, -, -, hfalse⟩ := returns_of_wp
    (wp_mono (wp_and hwrite hpanic) (fun _ _ h => h) fun e _ h => h.1.2 h.2)
  exact hfalse

end OldLinux.Volume
