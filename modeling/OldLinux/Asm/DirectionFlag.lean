import OldLinux.Asm.FreePage

/-!
# The direction flag

The compiler takes it for granted that the direction flag is clear.  The routines that set it are
`setup_paging`, `get_free_page`, `memmove` and `scrdown`; here is what each leaves, and what follows for
the compiled code that runs between their calls.
-/

namespace OldLinux.Asm

open Lib

variable {L : Layout} {c c' : Cpu}

/-! ### The routines -/

theorem sub_page {w : BitVec 32} (h : 0x1000 ≤ w.toInt) : (w - 0x1000).toInt = w.toInt - 0x1000 := by
  rw [BitVec.toInt_eq_toNat_cond] at h ⊢
  rw [BitVec.toInt_eq_toNat_cond]
  split at h <;> bv_omega

/-- `1: stosl; subl $0x1000,%eax; jge 1b`; the jump is taken if the signed difference is not negative. -/
def fill_tables (c : Cpu) : Cpu :=
  let c := stosl c
  if 0x1000 ≤ c.eax.toInt then fill_tables { c with eax := c.eax - 0x1000 }
  else { c with eax := c.eax - 0x1000 }
termination_by c.eax.toInt.toNat
decreasing_by
  rename_i h
  have heq : (c.eax - 0x1000).toInt = c.eax.toInt - 0x1000 := sub_page h
  show (c.eax - 0x1000).toInt.toNat < c.eax.toInt.toNat
  replace h : 0x1000 ≤ c.eax.toInt := h
  omega

/-- The addresses of the tables are those of `head.s`: `pg_dir` is at 0, `pg0` to `pg3` follow. -/
def setup_paging (c : Cpu) : Cpu :=
  let c := { c with ecx := 1024 * 5, eax := 0, edi := 0 }
  let c := c.cld.rep stosl
  let c := { c with mem := store c.mem 0x0 4 0x1007 }
  let c := { c with mem := store c.mem 0x4 4 0x2007 }
  let c := { c with mem := store c.mem 0x8 4 0x3007 }
  let c := { c with mem := store c.mem 0xc 4 0x4007 }
  let c := { c with edi := 0x4000 + 4092, eax := 0xfff007 }
  fill_tables c.std

def memmove (dest src n : BitVec 32) (c : Cpu) : Cpu :=
  if dest < src then
    { c with ecx := n, esi := src, edi := dest }.cld.rep movsb
  else
    ({ c with ecx := n, esi := src + n - 1, edi := dest + n - 1 }.std.rep movsb).cld

/-- What `scrdown` reads of the screen. -/
structure Screen where
  video_erase_char : BitVec 32
  video_num_columns : BitVec 32
  video_size_row : BitVec 32
  origin : BitVec 32
  top : BitVec 32
  bottom : BitVec 32

/-- Both branches of `scrdown` have the same instructions. -/
def scrdown (s : Screen) (c : Cpu) : Cpu :=
  let c := { c with
    eax := s.video_erase_char
    ecx := ((s.bottom - s.top - 1) * s.video_num_columns) >>> 1
    edi := s.origin + s.video_size_row * s.bottom - 4
    esi := s.origin + s.video_size_row * (s.bottom - 1) - 4 }
  let c := c.std.rep movsl
  let c := { c with edi := c.edi + 2 }
  let c := { c with ecx := s.video_num_columns }
  let c := c.rep stosw
  c.cld

/-! ### What each routine leaves -/

theorem fill_tables_df (c : Cpu) : (fill_tables c).df = c.df := by
  fun_induction fill_tables c with
  | case1 c c' h ih => exact ih
  | case2 c c' h => rfl

theorem setup_paging_df (c : Cpu) : (setup_paging c).df = true := by
  rw [setup_paging, fill_tables_df]
  rfl

theorem memmove_df (dest src n : BitVec 32) (c : Cpu) : (memmove dest src n c).df = false := by
  rw [memmove]
  split
  · exact repeated_df movsb_df _ _
  · rfl

/-- **`memmove` copies right however the areas overlap**, if none of them goes beyond the last address. -/
theorem memmove_copies (dest src n : BitVec 32) (c : Cpu) (hsrc : src.toNat + n.toNat ≤ 2 ^ 32)
    (hdest : dest.toNat + n.toNat ≤ 2 ^ 32) : (memmove dest src n c).mem =
      (fun a => if (a - dest).toNat < n.toNat then c.mem (src + (a - dest)) else c.mem a) ∧
    (memmove dest src n c).df = false := by
  refine ⟨?_, memmove_df dest src n c⟩
  have hn : BitVec.ofNat 32 n.toNat = n := by rw [BitVec.ofNat_toNat, BitVec.setWidth_eq]
  rw [memmove]
  by_cases hlt : dest < src
  · rw [if_pos hlt]
    exact copy_up rfl (show (src - dest).toNat + n.toNat ≤ 2 ^ 32 by bv_omega)
  · rw [if_neg hlt]
    have hback : ∀ p : BitVec 32, p + n - 1 + 1 = p + BitVec.ofNat 32 n.toNat := fun p => by
      rw [hn]
      exact BitVec.sub_add_cancel _ _
    exact copy_down rfl (show (dest - src).toNat + n.toNat ≤ 2 ^ 32 by bv_omega) (hback src) (hback dest)

/-- By one byte, upwards. -/
theorem memmove_copies_up : (memmove 101 100 3 ⟨0, 0, 0, 0, 0, false, false, fun a => a.setWidth 8⟩).mem 103 =
    102 := by
  rw [(memmove_copies _ _ _ _ (by decide) (by decide)).1]
  rfl

theorem scrdown_df (s : Screen) (c : Cpu) : (scrdown s c).df = false := rfl

theorem exists_last {P : ℕ → Prop} {n : ℕ} (h : ∃ k < n, P k) : ∃ k < n, P k ∧ ∀ j, k < j → j < n → ¬P j := by
  induction n with
  | zero =>
    obtain ⟨k, hk, -⟩ := h
    exact absurd hk (Nat.not_lt_zero k)
  | succ n ih =>
    by_cases hn : P n
    · exact ⟨n, Nat.lt_succ_self n, hn, fun j hj hjn => by omega⟩
    · obtain ⟨k, hk, hP⟩ := h
      have hkn : k ≠ n := by
        rintro rfl
        exact hn hP
      obtain ⟨k', hk', hP', hlast⟩ := ih ⟨k, by omega, hP⟩
      refine ⟨k', Nat.lt_succ_of_lt hk', hP', fun j hj hjn => ?_⟩
      by_cases hjn' : j = n
      · rwa [hjn']
      · exact hlast j hj (by omega)

/-- **`get_free_page` clears the flag only if it finds a page.** -/
theorem get_free_page_df (L : Layout) (c : Cpu) :
    (get_free_page L c).df = false ↔ ∃ k < 3840, L.count c k = 0 := by
  by_cases h : ∃ k < 3840, L.count c k = 0
  · obtain ⟨k, hk, hfree, hlast⟩ := exists_last h
    exact iff_of_true (get_free_page_some hk hfree hlast).2.1 h
  · have hnone : ∀ k < 3840, L.count c k ≠ 0 := fun k hk hzero => h ⟨k, hk, hzero⟩
    rw [(get_free_page_none hnone).2.2]
    exact iff_of_false (by decide) h

/-! ### Runs -/

inductive Routine
  | setup_paging
  | get_free_page
  | memmove (dest src n : BitVec 32)
  | scrdown (s : Screen)

def Routine.run (L : Layout) : Routine → Cpu → Cpu
  | .setup_paging => Asm.setup_paging
  | .get_free_page => Asm.get_free_page L
  | .memmove dest src n => Asm.memmove dest src n
  | .scrdown s => Asm.scrdown s

/-- Between the calls, compiled code does whatever it does; it may clear the flag, and never sets it. -/
inductive Event
  | call (r : Routine)
  | compiled (f : Cpu → Cpu) (clears : Bool)

def Event.run (L : Layout) : Event → Cpu → Cpu
  | .call r, c => r.run L c
  | .compiled f clears, c => { f c with df := c.df && !clears }

/-- The flag is clear at the beginning and after each event. -/
def Upwards (L : Layout) : List Event → Cpu → Prop
  | [], c => c.df = false
  | e :: es, c => c.df = false ∧ Upwards L es (e.run L c)

/-- `kmain` is not entered in the run, and there is a page whenever one is asked for. -/
def Event.Supplied (L : Layout) : Event → Cpu → Prop
  | .call .setup_paging, _ => False
  | .call .get_free_page, c => ∃ k < 3840, L.count c k = 0
  | _, _ => True

def Supplied (L : Layout) : List Event → Cpu → Prop
  | [], _ => True
  | e :: es, c => e.Supplied L c ∧ Supplied L es (e.run L c)

/-- One event. -/
theorem Event.run_df (e : Event) (hdf : c.df = false) : (e.run L c).df = false ↔ e.Supplied L c := by
  match e with
  | .call .setup_paging =>
    refine iff_of_false ?_ id
    rw [Event.run, Routine.run, setup_paging_df]
    decide
  | .call .get_free_page => exact get_free_page_df L c
  | .call (.memmove dest src n) => exact iff_of_true (memmove_df dest src n c) trivial
  | .call (.scrdown s) => exact iff_of_true (scrdown_df s c) trivial
  | .compiled f clears =>
    refine iff_of_true ?_ trivial
    show (c.df && !clears) = false
    rw [hdf, Bool.false_and]

theorem Upwards.first {e : Event} (h : Upwards L [e] c) : e.Supplied L c := (e.run_df h.1).1 h.2

/-- **Compiled code runs with the direction flag clear** in the runs in which pages do not run out, and
in no others; it does not at the start of `kmain`. -/
theorem compiled_code_runs_upwards (L : Layout) (es : List Event) (c : Cpu) :
    Upwards L es c ↔ c.df = false ∧ Supplied L es c := by
  induction es generalizing c with
  | nil => exact (and_iff_left trivial).symm
  | cons e es ih =>
    rw [Upwards, Supplied]
    refine and_congr_right fun hdf => ?_
    rw [ih, e.run_df hdf]

/-- All pages are used. -/
def fullMemory : Cpu := ⟨0, 0, 0, 0, 0, false, false, fun _ => 1⟩

/-- `get_free_page` without a page, and `setup_paging`. -/
theorem flag_is_left_set : ¬Upwards ⟨0, by decide⟩ [.call .get_free_page] fullMemory ∧
      ¬Upwards ⟨0, by decide⟩ [.call .setup_paging] fullMemory := by
  refine ⟨fun h => ?_, fun h => h.first⟩
  have hfree : ∃ k < 3840, Layout.count ⟨0, by decide⟩ fullMemory k = 0 := h.first
  rcases hfree with ⟨k, hk⟩
  have hone : (1 : BitVec 8) = 0 := hk.2
  exact absurd hone (by decide)

end OldLinux.Asm
