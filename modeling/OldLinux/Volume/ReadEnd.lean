import OldLinux.Volume.Bmap
import OldLinux.Volume.FileDev

/-!
# `read` and the end of a file

`sys_read` cuts `count` at the end of the file with sums that wrap, and `file_read` trusts it.  Behind the
last block that a file can have, `_bmap` stops the kernel.
-/

namespace OldLinux.Volume

open OldLinux.Lib

variable {p t u : Process} {f inode n left buf : ℕ} {pos count size c : ℤ}

/-! ### Numbers -/

theorem int_eq_self {x : ℤ} (h1 : -2 ^ 31 ≤ x) (h2 : x < 2 ^ 31) : int x = x :=
  Int.bmod_eq_of_le (by omega) (by omega)

theorem int_eq_ite {x : ℤ} (h1 : -2 ^ 31 ≤ x) (h2 : x < 2 ^ 32) :
    int x = if x < 2 ^ 31 then x else x - 2 ^ 32 := by
  by_cases h : x < 2 ^ 31
  · rw [if_pos h, int_eq_self h1 h]
  · rw [if_neg h, int, ← Int.sub_bmod_right]
    exact Int.bmod_eq_of_le (by omega) (by omega)

/-- The size of a file with all blocks. -/
def MAX_SIZE : ℤ := 1024 * MAX_BLOCKS

theorem MAX_SIZE_eq : MAX_SIZE = 268966912 := by decide

/-! ### The pieces -/

@[simp]
theorem wp_volume {α : Type} (c : VolumeM α) (Q : α → Process → Prop)
    (E : Stop → Process → Prop) (p : Process) :
    wp (volume c) Q E p ↔
      wp c (fun a s => Q a (p.set_kernel s)) (fun e s => E e (p.set_kernel s)) p.kernel :=
  wp_within _ _ _ _ _ _

/-- What a transfer to the process leaves alone. -/
structure OnlyPut (p t : Process) : Prop where
  kernel : t.kernel = p.kernel
  filp : t.filp = p.filp
  file_table : t.file_table = p.file_table
  mapped : t.mapped = p.mapped

theorem wp_put_bytes {Q : Unit → Process → Prop} {E : Stop → Process → Prop} (data : ℕ → ℕ) :
    ∀ n i buf p, (∀ t, OnlyPut p t → t.put = p.put ++ List.range' buf n → Q () t) →
      wp (put_bytes data n i buf) Q E p := by
  intro n
  induction n with
  | zero =>
    intro i buf p hQ
    exact hQ p ⟨rfl, rfl, rfl, rfl⟩ (List.append_nil _).symm
  | succ n ih =>
    intro i buf p hQ
    rw [put_bytes, wp_bind, wp_modify]
    refine ih (i + 1) (buf + 1) _ fun t ht hput => hQ t ⟨ht.kernel, ht.filp, ht.file_table, ht.mapped⟩ ?_
    rw [hput, List.range'_succ, List.append_assoc]
    rfl

/-- The kernel shows the same, and every block can be read. -/
structure Readable (s : Kernel) : Prop where
  coherent : Coherent s
  read : ∀ k, s.view k ≠ none

theorem Readable.still {s s' : Kernel} (R : Readable s) (h : Still s s') : Readable s' :=
  ⟨h.coherent, fun k => by rw [h.view]; exact R.read k⟩

/-- A block behind the last one that can be. -/
theorem wp_map_big {create : Bool} {Q : ℕ → Process → Prop} {E : Stop → Process → Prop} {block : ℤ}
    (h : MAX_BLOCKS ≤ block) (hE : ∀ t, E (.panic "_bmap: block>big") t) :
    wp (map_block inode block create) Q E p := by
  rw [map_block, wp_bind, wp_modify, wp_volume, _bmap, if_neg (by rw [MAX_BLOCKS] at h; omega), if_pos h]
  exact hE _

/-! ### The loop -/

/-- The loop has gone `n` bytes on from `pos`. -/
structure Went (f buf : ℕ) (pos : ℤ) (n : ℕ) (p t : Process) : Prop where
  f_pos : (t.file_table f).f_pos = pos + n
  put : t.put = p.put ++ List.range' buf n
  mapped : ∃ bs, t.mapped = p.mapped ++ bs ∧ ∀ b ∈ bs, 0 ≤ b ∧ 1024 * b < pos + n

theorem Went.refl (h : (p.file_table f).f_pos = pos) (buf : ℕ) : Went f buf pos 0 p p :=
  ⟨by rw [h]; simp, (List.append_nil _).symm, [], (List.append_nil _).symm,
    fun b hb => by cases hb⟩

/-- One round and the rest. -/
theorem Went.trans {m : ℕ} (hn : 0 < n) (hpos : 0 ≤ pos) (hput : u.put = p.put ++ List.range' buf n)
    (hmapped : u.mapped = p.mapped ++ [pos / 1024]) (h : Went f (buf + n) (pos + n) m u t) :
    Went f buf pos (n + m) p t := by
  obtain ⟨bs, hbs, hlt⟩ := h.mapped
  refine ⟨by rw [h.f_pos]; omega, ?_, pos / 1024 :: bs, ?_, fun b hb => ?_⟩
  · rw [h.put, hput, List.append_assoc, List.range'_append_1]
  · rw [hbs, hmapped, List.append_assoc]
    rfl
  · rcases List.mem_cons.1 hb with rfl | hb
    · omega
    · have h1 := hlt b hb
      omega

theorem wp_read_loop (f inode : ℕ) : ∀ n left buf pos p, Readable p.kernel →
    (p.file_table f).f_pos = pos → 0 ≤ pos → left ≤ n →
    wp (read_loop f inode n left buf)
      (fun l t => l = 0 ∧ (0 < left → pos + left ≤ MAX_SIZE) ∧ Went f buf pos left p t)
      (fun e _ => e = .panic "_bmap: block>big" ∧ MAX_SIZE < pos + left) p := by
  intro n
  induction n with
  | zero =>
    intro left buf pos p _ hpos _ hleft
    have hzero : left = 0 := Nat.le_zero.1 hleft
    subst hzero
    exact ⟨rfl, fun h => absurd h (Nat.lt_irrefl 0), Went.refl hpos buf⟩
  | succ n ih =>
    intro left buf pos p R hpos hge hleft
    rw [read_loop, wp_ite]
    refine ⟨fun hzero => ?_, fun hne => ?_⟩
    · subst hzero
      exact ⟨rfl, fun h => absurd h (Nat.lt_irrefl 0), Went.refl hpos buf⟩
    rw [wp_bind, wp_get, wp_bind, hpos]
    have hdiv : pos.tdiv BLOCK_SIZE = pos / 1024 := Int.tdiv_eq_ediv_of_nonneg hge
    have hmod : pos.tmod BLOCK_SIZE = pos % 1024 := Int.tmod_eq_emod_of_nonneg hge
    rw [hdiv, hmod]
    by_cases hbig : (MAX_BLOCKS : ℤ) ≤ pos / 1024
    · refine wp_map_big hbig fun t => ⟨rfl, ?_⟩
      rw [MAX_SIZE]
      omega
    have hsmall : pos / 1024 < MAX_BLOCKS := Int.not_le.1 hbig
    have hlt : pos < MAX_SIZE := by
      rw [MAX_SIZE]
      omega
    rw [map_block, wp_bind, wp_modify, wp_volume]
    refine wp_mono (wp_bmap R.coherent (by omega) hsmall) ?_ fun _ _ h => h
    rintro block s ⟨-, hstill, -⟩
    have R' := R.still hstill
    generalize hq : Process.set_kernel { p with mapped := p.mapped ++ [pos / 1024] } s = q
    have hkernel : q.kernel = s := by rw [← hq]; rfl
    have hfile : q.file_table f = p.file_table f := by rw [← hq]; rfl
    have hput : q.put = p.put := by rw [← hq]; rfl
    have hmapped : q.mapped = p.mapped ++ [pos / 1024] := by rw [← hq]; rfl
    dsimp only
    generalize hchars : min (BLOCK_SIZE - pos % 1024).toNat left = chars
    have hblock : BLOCK_SIZE = 1024 := rfl
    have hpositive : 0 < chars := by omega
    have hle : chars ≤ left := by omega
    have hend : pos + chars ≤ 1024 * (pos / 1024 + 1) := by omega
    have hint : int (pos + chars) = pos + chars := by
      rw [MAX_SIZE_eq] at hlt
      exact int_eq_self (by omega) (by omega)
    -- when the bytes have been stored
    have hrest : ∀ v : Process, Readable v.kernel → (v.file_table f).f_pos = pos + chars →
        v.put = p.put ++ List.range' buf chars → v.mapped = p.mapped ++ [pos / 1024] →
        wp (read_loop f inode n (left - chars) (buf + chars))
          (fun l t => l = 0 ∧ (0 < left → pos + left ≤ MAX_SIZE) ∧ Went f buf pos left p t)
          (fun e _ => e = .panic "_bmap: block>big" ∧ MAX_SIZE < pos + left) v := by
      intro v Rv hposv hputv hmappedv
      refine wp_mono (ih (left - chars) (buf + chars) (pos + chars) v Rv hposv (by omega) (by omega)) ?_ ?_
      · rintro l t ⟨hl, hmax, hwent⟩
        have htrans := Went.trans hpositive hge hputv hmappedv hwent
        rw [show chars + (left - chars) = left by omega] at htrans
        refine ⟨hl, fun _ => ?_, htrans⟩
        rw [MAX_SIZE] at hmax ⊢
        omega
      · rintro e t ⟨he, hbig'⟩
        exact ⟨he, by omega⟩
    rw [wp_bind]
    by_cases hzero : block = 0
    · rw [if_neg (not_not_intro hzero), wp_pure, if_neg (by decide), wp_bind, wp_modify, hfile, hpos, hint,
        if_neg (not_not_intro hzero), wp_bind]
      refine wp_put_bytes _ _ _ _ _ fun v hv hputv => hrest v ?_ ?_ ?_ ?_
      · rw [hv.kernel]
        exact hkernel ▸ R'
      · rw [hv.file_table]
        show (Function.update q.file_table f _ f).f_pos = _
        rw [Function.update_self]
      · rw [hputv]
        show q.put ++ _ = _
        rw [hput]
      · rw [hv.mapped]
        exact hmapped
    · rw [if_pos hzero, wp_volume, hkernel]
      refine wp_bread R'.coherent (fun _ hnone _ _ => absurd hnone (R'.read _))
        fun d s₂ _ hstill₂ hcount _ => ?_
      have R₂ := R'.still hstill₂
      rw [if_neg (by decide), wp_bind, wp_modify, if_pos hzero, wp_bind, if_neg (by omega), wp_bind,
        wp_volume]
      obtain ⟨b, hb⟩ := exists_buffer (s := s₂) (k := ((p.kernel.inode_table inode).i_dev, block)) (by
        rw [hcount, held_self]
        omega)
      refine wp_the_buffer hb ?_
      rw [wp_bind]
      refine wp_put_bytes _ _ _ _ _ fun v hv hputv => ?_
      rw [wp_volume, hv.kernel]
      refine wp_brelse R₂.coherent hcount fun s₃ hstill₃ _ => hrest _ ?_ ?_ ?_ ?_
      · exact R₂.still hstill₃
      · show (v.file_table f).f_pos = _
        rw [hv.file_table]
        show (Function.update q.file_table f _ f).f_pos = _
        rw [Function.update_self, ← hint, ← hpos, ← hfile]
        rfl
      · show v.put = _
        rw [hputv]
        show q.put ++ _ = _
        rw [hput]
      · show v.mapped = _
        rw [hv.mapped]
        exact hmapped

/-! ### The calls -/

theorem wp_file_read (inode buf : ℕ) (R : Readable p.kernel)
    (hpos : (p.file_table f).f_pos = pos) (hge : 0 ≤ pos)
    (hc : 0 < c) : wp (file_read inode f buf c)
      (fun r t => r = c ∧ pos + c ≤ MAX_SIZE ∧ Went f buf pos c.toNat p t)
      (fun _ _ => MAX_SIZE < pos + c) p := by
  rw [file_read, if_neg (by omega), wp_bind]
  refine wp_mono (wp_read_loop f inode c.toNat c.toNat buf pos p R hpos hge (Nat.le_refl _)) ?_ ?_
  · rintro l t ⟨rfl, hmax, hwent⟩
    rw [wp_bind, wp_modify, wp_pure]
    refine ⟨?_, ?_, hwent.f_pos, hwent.put, hwent.mapped⟩
    · rw [if_pos (by omega)]
      omega
    · have h1 := hmax (by omega)
      omega
  · rintro e t ⟨-, h⟩
    omega

/-- An open file or directory. -/
structure Opened (p : Process) (fd : ℤ) (f : ℕ) : Prop where
  range : 0 ≤ fd ∧ fd < NR_OPEN
  filp : p.filp fd = some f
  pipe : (p.kernel.inode_table (p.file_table f).f_inode).i_pipe = false
  mode : S_ISREG (p.kernel.inode_table (p.file_table f).f_inode).i_mode = true ∨
    S_ISDIR (p.kernel.inode_table (p.file_table f).f_inode).i_mode = true

theorem Opened.not_device {fd : ℤ} (O : Opened p fd f) :
    ¬(S_ISCHR (p.kernel.inode_table (p.file_table f).f_inode).i_mode = true ∨
      S_ISBLK (p.kernel.inode_table (p.file_table f).f_inode).i_mode = true) := by
  have hmode := O.mode
  simp only [S_ISCHR, S_ISBLK, S_ISREG, S_ISDIR, decide_eq_true_eq] at hmode ⊢
  omega

section Calls

variable (elsewhere : Bool → ℕ → ℕ → ℤ → ProcessM ℤ)

theorem sys_read_eq {fd : ℤ} (O : Opened p fd f) (hcount : 0 < count)
    (Q : ℤ → Process → Prop) (E : Stop → Process → Prop) :
    wp (sys_read elsewhere fd buf count) Q E p ↔
      (let c := clamp count (p.file_table f).f_pos
        (p.kernel.inode_table (p.file_table f).f_inode).i_size
      wp (if c ≤ 0 then pure 0 else file_read (p.file_table f).f_inode f buf c) Q E p) := by
  rw [sys_read, wp_bind, wp_get, if_pos ⟨O.range.1, O.range.2, by omega⟩, O.filp]
  dsimp only
  rw [if_neg (by omega), O.pipe, if_neg Bool.false_ne_true, if_neg O.not_device, if_pos O.mode.symm]

/-- `read` transfers what is left up to the end of the file, and looks for no block behind it. -/
def StopsAtEnd (fd : ℤ) (f buf : ℕ) (count : ℤ) (p : Process) : Prop :=
  let pos := (p.file_table f).f_pos
  let size : ℤ := (p.kernel.inode_table (p.file_table f).f_inode).i_size
  let n := min count (max 0 (size - pos))
  wp (sys_read elsewhere fd buf count) (fun r t => r = n ∧ (t.file_table f).f_pos = pos + n ∧
      t.put = p.put ++ List.range' buf n.toNat ∧
      ∃ bs, t.mapped = p.mapped ++ bs ∧ ∀ b ∈ bs, 0 ≤ b ∧ 1024 * b < size)
    (fun _ _ => False) p

/-- **When `read` stops at the end of the file.**  Exactly if neither the size nor the end of what is asked
for is a negative number as an `int`, and the bytes are not behind the last block that a file can have. -/
theorem read_stops_at_end {fd : ℤ} (O : Opened p fd f) (R : Readable p.kernel)
    (hpos : 0 ≤ (p.file_table f).f_pos ∧ (p.file_table f).f_pos < 2 ^ 31)
    (hsize : (p.kernel.inode_table (p.file_table f).f_inode).i_size < 2 ^ 32)
    (hcount : 1 ≤ count ∧ count < 2 ^ 31) :
    StopsAtEnd elsewhere fd f buf count p ↔
      (p.kernel.inode_table (p.file_table f).f_inode).i_size < 2 ^ 31 ∧
      (p.file_table f).f_pos + count < 2 ^ 31 ∧
      (((p.kernel.inode_table (p.file_table f).f_inode).i_size : ℤ) ≤ (p.file_table f).f_pos ∨
        min ((p.file_table f).f_pos + count)
          (p.kernel.inode_table (p.file_table f).f_inode).i_size ≤ MAX_SIZE) := by
  generalize hi : (p.kernel.inode_table (p.file_table f).f_inode).i_size = size at *
  generalize hp : (p.file_table f).f_pos = pos at *
  generalize hc : clamp count pos size = c
  have hmax := MAX_SIZE_eq
  rw [StopsAtEnd, sys_read_eq elsewhere O (by omega), hi, hp, hc]
  dsimp only
  rw [clamp, int_eq_ite (x := (size : ℤ)) (by omega) (by omega), int_eq_ite (x := count + pos) (by omega)
    (by omega),
    int_eq_ite (x := size - pos) (by omega) (by omega)] at hc
  rw [wp_ite]
  by_cases hc0 : c ≤ 0
  · -- nothing is read
    have harith : min count (max 0 (size - pos)) = 0 ↔
        size < 2 ^ 31 ∧ pos + count < 2 ^ 31 ∧ (size ≤ pos ∨ min (pos + count) size ≤ MAX_SIZE) := by
      split_ifs at hc <;> omega
    rw [← harith]
    constructor
    · rintro ⟨h, -⟩
      exact (h hc0).1.symm
    · intro hzero
      rw [hzero]
      refine ⟨fun _ => ⟨rfl, ?_, (List.append_nil _).symm, [], (List.append_nil _).symm,
        fun b hb => by cases hb⟩,
        fun h => absurd hc0 h⟩
      rw [hp, Int.add_zero]
  · have harith : (c = min count (max 0 (size - pos)) ∧ pos + c ≤ MAX_SIZE) ↔
        size < 2 ^ 31 ∧ pos + count < 2 ^ 31 ∧ (size ≤ pos ∨ min (pos + count) size ≤ MAX_SIZE) := by
      split_ifs at hc <;> omega
    rw [← harith]
    have hrun := wp_file_read (p.file_table f).f_inode buf R hp hpos.1 (Int.not_le.1 hc0)
    constructor
    · rintro ⟨-, h⟩
      have hboth : wp (file_read (p.file_table f).f_inode f buf c)
          (fun _ _ => c = min count (max 0 (size - pos)) ∧ pos + c ≤ MAX_SIZE) (fun _ _ => False) p :=
        wp_mono (wp_and (h hc0) hrun) (fun _ _ h => ⟨h.2.1.symm.trans h.1.1, h.2.2.1⟩) fun _ _ h => h.1
      obtain ⟨-, -, -, h⟩ := returns_of_wp hboth
      exact h
    · rintro ⟨heq, hlast⟩
      refine ⟨fun h => absurd h hc0, fun _ => wp_mono hrun ?_ fun _ _ h => by omega⟩
      rintro r t ⟨rfl, -, hwent⟩
      obtain ⟨bs, hbs, hlt⟩ := hwent.mapped
      rw [← heq]
      refine ⟨rfl, by rw [hwent.f_pos]; omega, hwent.put, bs, hbs, fun b hb => ?_⟩
      have h1 := hlt b hb
      omega

end Calls

/-- A process with an open file of this size. -/
def smallProcess (size : ℕ) (pos : ℤ) : Process where
  kernel := { smallKernel (fun _ => 0) (fun _ _ => 0) with
    inode_table := fun _ =>
      ⟨0o100644, 0, size, 0, 0, 1, fun _ => 0, 0, 0, 0x301, 1, 1, false, false, false⟩ }
  filp fd := if fd = 3 then some 0 else none
  file_table _ := ⟨3, 0, 0, pos⟩
  user _ := 0
  put := []
  mapped := []

theorem smallProcess_opened (size : ℕ) (pos : ℤ) : Opened (smallProcess size pos) 3 0 :=
  ⟨by decide, rfl, rfl, .inl (show S_ISREG 0o100644 = true by decide)⟩

theorem smallProcess_readable (size : ℕ) (pos : ℤ) : Readable (smallProcess size pos).kernel := by
  have C := small_coherent (fun _ => 0) fun _ _ => 0
  refine ⟨⟨C.clean, C.dirty⟩, fun k => ?_⟩
  by_cases hk : k = (1, 3)
  · rw [hk]
    exact Option.some_ne_none _
  · have hbuffer : (smallProcess size pos).kernel.buffer k = none := if_neg hk
    have hdisk : (smallProcess size pos).kernel.disk k = some fun _ => 0 := if_neg hk
    rw [Kernel.view, hbuffer, hdisk]
    exact Option.some_ne_none _

/-- The last two of five bytes. -/
theorem read_stops_at_end_five :
    StopsAtEnd (fun _ _ _ _ => pure 0) 3 0 100 7 (smallProcess 5 3) :=
  (read_stops_at_end (fun _ _ _ _ => pure 0) (smallProcess_opened 5 3) (smallProcess_readable 5 3) (by decide)
    (by decide) (by decide)).2 (by decide)

/-- The sum of `count` and the position wraps: `read` goes on behind the five bytes of the file, until
`_bmap` stops the kernel. -/
theorem read_goes_on : ¬StopsAtEnd (fun _ _ _ _ => pure 0) 3 0 100 (2 ^ 31 - 1) (smallProcess 5 1) := by
  have O := smallProcess_opened 5 1
  have R := smallProcess_readable 5 1
  have hpos : ((smallProcess 5 1).file_table 0).f_pos = 1 := rfl
  have hsize : ((smallProcess 5 1).kernel.inode_table ((smallProcess 5 1).file_table 0).f_inode).i_size = 5 :=
    rfl
  generalize smallProcess 5 1 = p at *
  have hclamp : clamp (2 ^ 31 - 1) 1 (5 : ℕ) = 2 ^ 31 - 1 := by decide
  intro hP
  rw [StopsAtEnd, sys_read_eq _ O (by decide), hpos, hsize, hclamp] at hP
  dsimp only at hP
  rw [if_neg (by decide)] at hP
  have hrun := wp_file_read (c := 2 ^ 31 - 1) (p.file_table 0).f_inode 100 R hpos
    (by decide) (by decide)
  obtain ⟨_, _, -, -, -, h, -⟩ := returns_of_wp (wp_mono (wp_and hP hrun) (fun _ _ h => h) fun _ _ h => h.1)
  rw [MAX_SIZE_eq] at h
  exact absurd h (by decide)

end OldLinux.Volume
