import OldLinux.Console.Machine
import Mathlib.Tactic.Ring

/-!
# The console stays on the screen

What a character stores or moves are words of the video memory, and the cursor, the origin and the
scroll region stay consistent with each other, whatever characters `con_write` takes.

* `Wrote`: only words between two bounds have been stored or moved.
* `Inside`: the invariant of the variables.
* `console_stays_inside`: it holds after every byte.
-/

namespace OldLinux.Console

namespace Screen

variable {s t u : Screen} {lo hi n si di a : ℕ}

/-! ### Words that are stored and moved -/

theorem advance_up (h : a + n < 4294967296) : advance true a n = a + n := by
  rw [advance, if_pos rfl, add_eq h]

theorem advance_down (h : n ≤ a) (ha : a < 4294967296) : advance false a n = a - n := by
  rw [advance, if_neg (by decide), sub_eq h ha]

/-- From `s` to `t` only words between `lo` and `hi` have been stored or moved. -/
def Wrote (lo hi : ℕ) (s t : Screen) : Prop :=
  ∃ mem l, t = { s with mem := mem, touched := l ++ s.touched } ∧ ∀ a ∈ l, lo ≤ a ∧ a + 2 ≤ hi

theorem Wrote.refl (s : Screen) : Wrote lo hi s s := ⟨s.mem, [], rfl, by simp⟩

theorem Wrote.trans (h : Wrote lo hi s t) (h' : Wrote lo hi t u) : Wrote lo hi s u := by
  obtain ⟨mem, l, rfl, hl⟩ := h
  obtain ⟨mem', l', rfl, hl'⟩ := h'
  refine ⟨mem', l' ++ l, by simp, fun a ha => ?_⟩
  rcases List.mem_append.1 ha with ha | ha
  · exact hl' a ha
  · exact hl a ha

theorem wrote_look (h : lo ≤ a ∧ a + 2 ≤ hi) : Wrote lo hi s (s.look a) :=
  ⟨s.mem, [a], rfl, by simpa using h⟩

theorem wrote_poke (h : lo ≤ a ∧ a + 2 ≤ hi) (v : ℕ) : Wrote lo hi s (s.poke a v) :=
  ⟨_, [a], rfl, by simpa using h⟩

theorem stosw_up (hlo : lo ≤ di) (hhi : di + 2 * n ≤ hi) (hw : hi < 4294967296) :
    Wrote lo hi s (stosw true n di s) := by
  induction n generalizing di s with
  | zero => exact .refl s
  | succ n ih =>
    have hnext : advance true di 2 = di + 2 := advance_up (by omega)
    rw [stosw, hnext]
    exact (wrote_poke (by omega) _).trans (ih (by omega) (by omega))

theorem stosw_down (h4 : 4 ≤ lo) (hlo : lo + 2 * n ≤ di + 2) (hhi : di + 2 ≤ hi)
    (hw : hi < 4294967296) : Wrote lo hi s (stosw false n di s) := by
  induction n generalizing di s with
  | zero => exact .refl s
  | succ n ih =>
    have hnext : advance false di 2 = di - 2 := advance_down (by omega) (by omega)
    rw [stosw, hnext]
    exact (wrote_poke (by omega) _).trans (ih (by omega) (by omega))

theorem wrote_moveLong (hs : lo ≤ si ∧ si + 4 ≤ hi) (hd : lo ≤ di ∧ di + 4 ≤ hi)
    (hw : hi < 4294967296) : Wrote lo hi s (s.moveLong si di) := by
  have hsi : add si 2 = si + 2 := add_eq (by omega)
  have hdi : add di 2 = di + 2 := add_eq (by omega)
  rw [moveLong, hsi, hdi]
  exact (((wrote_look (by omega)).trans (wrote_look (by omega))).trans
    (wrote_poke (by omega) _)).trans (wrote_poke (by omega) _)

theorem movsl_up (hs : lo ≤ si) (hs' : si + 4 * n ≤ hi) (hd : lo ≤ di) (hd' : di + 4 * n ≤ hi)
    (hw : hi < 4294967296) : Wrote lo hi s (movsl true n si di s) := by
  induction n generalizing si di s with
  | zero => exact .refl s
  | succ n ih =>
    have hsi : advance true si 4 = si + 4 := advance_up (by omega)
    have hdi : advance true di 4 = di + 4 := advance_up (by omega)
    rw [movsl, hsi, hdi]
    exact (wrote_moveLong (by omega) (by omega) hw).trans (ih (by omega) (by omega) (by omega) (by omega))

theorem movsl_down (h4 : 4 ≤ lo) (hs : lo + 4 * n ≤ si + 4) (hs' : si + 4 ≤ hi)
    (hd : lo + 4 * n ≤ di + 4) (hd' : di + 4 ≤ hi) (hw : hi < 4294967296) :
    Wrote lo hi s (movsl false n si di s) := by
  induction n generalizing si di s with
  | zero => exact .refl s
  | succ n ih =>
    have hsi : advance false si 4 = si - 4 := advance_down (by omega) (by omega)
    have hdi : advance false di 4 = di - 4 := advance_down (by omega) (by omega)
    rw [movsl, hsi, hdi]
    exact (wrote_moveLong (by omega) (by omega) hw).trans (ih (by omega) (by omega) (by omega) (by omega))

theorem movedTo_up (h : di + 4 * n < 4294967296) : movedTo true n di = di + 4 * n := by
  induction n generalizing di with
  | zero => rfl
  | succ n ih =>
    have hdi : advance true di 4 = di + 4 := advance_up (by omega)
    rw [movedTo, hdi, ih (by omega)]
    omega

theorem movedTo_down (h : 4 * n ≤ di) (hw : di < 4294967296) : movedTo false n di = di - 4 * n := by
  induction n generalizing di with
  | zero => rfl
  | succ n ih =>
    have hdi : advance false di 4 = di - 4 := advance_down (by omega) (by omega)
    rw [movedTo, hdi, ih (by omega) (by omega)]
    omega

theorem insertFrom_wrote {p old : ℕ} (hlo : lo ≤ p) (hhi : p + 2 * n ≤ hi) (hw : hi < 4294967296) :
    Wrote lo hi s (insertFrom n p old s) := by
  induction n generalizing p old s with
  | zero => exact .refl s
  | succ n ih =>
    have hnext : add p 2 = p + 2 := add_eq (by omega)
    rw [insertFrom, hnext]
    exact ((wrote_look (by omega)).trans (wrote_poke (by omega) _)).trans (ih (by omega) (by omega))

theorem deleteFrom_wrote {p : ℕ} (hlo : lo ≤ p) (hhi : p + 2 * (n + 1) ≤ hi)
    (hw : hi < 4294967296) : Wrote lo hi s (deleteFrom n p s) := by
  induction n generalizing p s with
  | zero => exact wrote_poke (by omega) _
  | succ n ih =>
    have hnext : add p 2 = p + 2 := add_eq (by omega)
    rw [deleteFrom, hnext]
    exact ((wrote_look (by omega)).trans (wrote_poke (by omega) _)).trans (ih (by omega) (by omega))

/-! ### The invariant -/

/-- The sizes of the screen: the columns are even and at least 8, and the screen fits into the video
memory. -/
structure Sized (s : Screen) : Prop where
  columns : 8 ≤ s.video_num_columns
  even : s.video_num_columns % 2 = 0
  row : s.video_size_row = 2 * s.video_num_columns
  fits : s.video_mem_start + s.video_num_lines * s.video_size_row ≤ s.video_mem_end
  low : 4 ≤ s.video_mem_start
  high : s.video_mem_end + s.video_size_row < 4294967296

/-- The scroll region and the place of the screen. -/
structure Placed (s : Screen) : Prop extends Sized s where
  region : s.top < s.bottom
  bottom_le : s.bottom ≤ s.video_num_lines
  scr_end_eq : s.scr_end = s.origin + s.video_num_lines * s.video_size_row
  start_le : s.video_mem_start ≤ s.origin
  end_le : s.scr_end ≤ s.video_mem_end

/-- The cursor is on the screen, or just after the end of its line. -/
structure Inside (s : Screen) : Prop extends Placed s where
  x_le : s.x ≤ s.video_num_columns
  y_lt : s.y < s.video_num_lines
  pos_eq : s.pos = s.origin + s.y * s.video_size_row + 2 * s.x
  npar_lt : s.npar < NPAR
  touched_mem : ∀ a ∈ s.touched, s.video_mem_start ≤ a ∧ a + 2 ≤ s.video_mem_end

/-- What scrolling leaves as it is. -/
structure SameLine (s t : Screen) : Prop where
  lines : t.video_num_lines = s.video_num_lines
  columns : t.video_num_columns = s.video_num_columns
  x : t.x = s.x

theorem Wrote.sameLine (h : Wrote lo hi s t) : SameLine s t := by
  obtain ⟨mem, l, rfl, -⟩ := h
  exact ⟨rfl, rfl, rfl⟩

theorem Inside.of_wrote (h : Inside s) (hw : Wrote s.video_mem_start s.video_mem_end s t) : Inside t := by
  obtain ⟨mem, l, rfl, hl⟩ := hw
  refine { h with touched_mem := fun a ha => ?_ }
  rcases List.mem_append.1 ha with ha | ha
  · exact hl a ha
  · exact h.touched_mem a ha

/-- The lines up to `i` are part of the screen. -/
theorem lines_le (s : Screen) {i : ℕ} (hi : i ≤ s.video_num_lines) :
    i * s.video_size_row ≤ s.video_num_lines * s.video_size_row :=
  Nat.mul_le_mul_right _ hi

theorem Sized.mul_row (h : Sized s) {i : ℕ} (hi : i ≤ s.video_num_lines) :
    mul s.video_size_row i = i * s.video_size_row := by
  have h1 := lines_le s hi
  have h2 := h.fits
  have h3 := h.high
  rw [mul_eq, Nat.mul_comm]
  rw [Nat.mul_comm]
  omega

/-- The longs of `k` lines. -/
theorem Sized.longs (h : Sized s) {k : ℕ} (hk : k ≤ s.video_num_lines) :
    4 * (mul k s.video_num_columns / 2) = k * s.video_size_row := by
  have h1 := lines_le s hk
  have h2 := h.fits
  have h3 := h.high
  obtain ⟨m, hm⟩ := Nat.dvd_of_mod_eq_zero h.even
  have hcols : k * s.video_num_columns = 2 * (k * m) := by rw [hm]; ring
  have hrow : k * s.video_size_row = 4 * (k * m) := by rw [h.row, hm]; ring
  rw [mul_eq (by omega), hcols, hrow]
  omega

/-- The addresses of the region. -/
theorem Placed.rows (h : Placed s) : ∃ k, s.bottom = k + s.top + 1 ∧ 4 * s.regionLongs = k * s.video_size_row ∧
      s.bottom * s.video_size_row = k * s.video_size_row + s.top * s.video_size_row + s.video_size_row ∧
      s.bottom * s.video_size_row ≤ s.video_num_lines * s.video_size_row := by
  have hreg := h.region
  have hbot := h.bottom_le
  have hle := lines_le s hbot
  have hL : s.video_num_lines ≤ s.video_num_lines * s.video_size_row := by
    have := h.row
    have := h.columns
    exact Nat.le_mul_of_pos_right _ (by omega)
  have h2 := h.fits
  have h3 := h.high
  obtain ⟨k, hk⟩ := Nat.exists_eq_add_of_lt hreg
  have hkb : sub (sub s.bottom s.top) 1 = k := by
    rw [sub_eq (a := s.bottom) (by omega) (by omega), sub_eq (by omega) (by omega)]
    omega
  refine ⟨k, by omega, ?_, ?_, hle⟩
  · rw [regionLongs, hkb]
    exact h.longs (by omega)
  · rw [hk]
    ring

/-! ### Scrolling -/

theorem regionUp_wrote (h : Placed s) : Wrote s.video_mem_start s.video_mem_end s s.regionUp := by
  obtain ⟨k, hk, hlongs, hrows, hle⟩ := h.rows
  have hstart := h.start_le
  have hend := h.scr_end_eq ▸ h.end_le
  have hhigh := h.high
  have hrow := h.row
  have hbot := h.bottom_le
  have htop : mul s.video_size_row s.top = s.top * s.video_size_row := h.mul_row (by omega)
  have htop1 : mul s.video_size_row (s.top + 1) = s.top * s.video_size_row + s.video_size_row := by
    rw [h.mul_row (by omega), Nat.succ_mul]
  have hdi : add s.origin (s.top * s.video_size_row) = s.origin + s.top * s.video_size_row :=
    add_eq (by omega)
  have hsi : add s.origin (s.top * s.video_size_row + s.video_size_row)
      = s.origin + s.top * s.video_size_row + s.video_size_row := by
    rw [add_eq (by omega)]
    omega
  have hone : add s.top 1 = s.top + 1 := add_eq (by
    have := h.columns
    have : s.top ≤ s.top * s.video_size_row := Nat.le_mul_of_pos_right _ (by omega)
    omega)
  rw [regionUp, hone, htop, htop1, hdi, hsi, movedTo_up (by omega)]
  exact (movsl_up (by omega) (by omega) (by omega) (by omega) (by omega)).trans
    (stosw_up (by omega) (by omega) (by omega))

theorem regionDown_wrote (h : Placed s) : Wrote s.video_mem_start s.video_mem_end s s.regionDown := by
  obtain ⟨k, hk, hlongs, hrows, hle⟩ := h.rows
  have hstart := h.start_le
  have hend := h.scr_end_eq ▸ h.end_le
  have hhigh := h.high
  have hlow := h.low
  have hrow := h.row
  have hcols := h.columns
  have hbot := h.bottom_le
  have hregion := h.region
  have hmul : mul s.video_size_row s.bottom = s.bottom * s.video_size_row := h.mul_row hbot
  have hbelow : s.bottom ≤ s.bottom * s.video_size_row := Nat.le_mul_of_pos_right _ (by omega)
  have hpred : sub s.bottom 1 = s.bottom - 1 := sub_eq (by omega) (by omega)
  have hmul1 : mul s.video_size_row (s.bottom - 1) = k * s.video_size_row + s.top * s.video_size_row := by
    rw [h.mul_row (by omega), hk, Nat.add_sub_cancel, Nat.add_mul]
  have hdi : sub (add s.origin (s.bottom * s.video_size_row)) 4 =
      s.origin + s.bottom * s.video_size_row - 4 := by
    rw [add_eq (by omega), sub_eq (by omega) (by omega)]
  have hsi : sub (add s.origin (k * s.video_size_row + s.top * s.video_size_row)) 4
      = s.origin + (k * s.video_size_row + s.top * s.video_size_row) - 4 := by
    rw [add_eq (by omega), sub_eq (by omega) (by omega)]
  have hto : add (movedTo false s.regionLongs (s.origin + s.bottom * s.video_size_row - 4)) 2
      = s.origin + s.top * s.video_size_row + s.video_size_row - 2 := by
    rw [movedTo_down (by omega) (by omega), add_eq (by omega)]
    omega
  rw [regionDown, hpred, hmul, hmul1, hdi, hsi, hto]
  exact (movsl_down hlow (by omega) (by omega) (by omega) (by omega) (by omega)).trans
    (stosw_down hlow (by omega) (by omega) (by omega))

/-- The origin, one line further down. -/
theorem nextOrigin_eq (h : Inside s) : s.nextOrigin =
    { s with origin := s.origin + s.video_size_row
             pos := s.pos + s.video_size_row
             scr_end := s.scr_end + s.video_size_row } := by
  have hhigh := h.high
  have hend := h.end_le
  have hle := lines_le s h.y_lt
  have hx := h.x_le
  have hrow := h.row
  have hscr := h.scr_end_eq
  have hpos := h.pos_eq
  rw [Nat.succ_mul] at hle
  rw [nextOrigin, add_eq (a := s.origin) (by omega), add_eq (a := s.pos) (by omega),
    add_eq (a := s.scr_end) (by omega)]

theorem copyBack_wrote (h : Inside s) :
    Wrote s.video_mem_start s.video_mem_end s.nextOrigin s.nextOrigin.copyBack := by
  have hhigh := h.high
  have hend := h.end_le
  have hscr := h.scr_end_eq
  have hstart := h.start_le
  have hrow := h.row
  have hcols := h.columns
  have hpos := h.y_lt
  have hle := lines_le s (i := s.video_num_lines - 1) (by omega)
  have hlines : s.video_num_lines * s.video_size_row
      = (s.video_num_lines - 1) * s.video_size_row + s.video_size_row := by
    rw [← Nat.succ_mul, Nat.succ_eq_add_one, Nat.sub_add_cancel (by omega)]
  have hL : s.video_num_lines ≤ s.video_num_lines * s.video_size_row :=
    Nat.le_mul_of_pos_right _ (by omega)
  have hlongs := h.longs (k := s.video_num_lines - 1) (by omega)
  have hpred : sub s.video_num_lines 1 = s.video_num_lines - 1 := sub_eq (by omega) (by omega)
  rw [nextOrigin_eq h, copyBack]
  dsimp only
  rw [hpred, movedTo_up (by omega)]
  exact (movsl_up (by omega) (by omega) (Nat.le_refl _) (by omega) (by omega)).trans
    (stosw_up (Nat.le_add_right _ _) (by omega) (by omega))

/-- `scrup` keeps the cursor on the screen. -/
theorem Inside.scrup (h : Inside s) : Inside s.scrup ∧ SameLine s s.scrup := by
  have hhigh := h.high
  have hend := h.end_le
  have hscr := h.scr_end_eq
  have hstart := h.start_le
  have hrow := h.row
  have hpos := h.pos_eq
  have hle := lines_le s h.y_lt
  have hx := h.x_le
  rw [Nat.succ_mul] at hle
  rw [Screen.scrup]
  split_ifs with hega hover
  · -- the screen has come to the end of the video memory and is copied to its start
    obtain ⟨mem, l, heq, hl⟩ := copyBack_wrote h
    rw [nextOrigin_eq h] at heq
    rw [nextOrigin_eq h, heq, backToStart]
    have hback : sub (s.origin + s.video_size_row) s.video_mem_start
        = s.origin + s.video_size_row - s.video_mem_start := sub_eq (by omega) (by omega)
    dsimp only
    rw [hback, sub_eq (a := s.scr_end + s.video_size_row) (by omega) (by omega),
      sub_eq (a := s.pos + s.video_size_row) (by omega) (by omega)]
    have hin : Inside { s with
        origin := s.video_mem_start
        pos := s.pos + s.video_size_row - (s.origin + s.video_size_row - s.video_mem_start)
        scr_end := s.scr_end + s.video_size_row - (s.origin + s.video_size_row - s.video_mem_start) } := by
      refine { h with scr_end_eq := ?_, start_le := Nat.le_refl _, end_le := ?_, pos_eq := ?_ }
      all_goals
        dsimp only
        omega
    exact ⟨hin.of_wrote ⟨mem, l, rfl, hl⟩, rfl, rfl, rfl⟩
  · -- the origin moves and the last line is erased
    rw [nextOrigin_eq h] at hover
    have hfit : s.scr_end + s.video_size_row ≤ s.video_mem_end := Nat.le_of_not_lt hover
    have hnext : Inside s.nextOrigin := by
      rw [nextOrigin_eq h]
      refine { h with scr_end_eq := ?_, start_le := ?_, end_le := hfit, pos_eq := ?_ }
      all_goals
        dsimp only
        omega
    have hwrote : Wrote s.video_mem_start s.video_mem_end s.nextOrigin (stosw true
        s.video_num_columns (sub s.nextOrigin.scr_end s.video_size_row) s.nextOrigin) := by
      rw [show s.nextOrigin.scr_end = s.scr_end + s.video_size_row by rw [nextOrigin_eq h],
        sub_eq (by omega) (by omega), Nat.add_sub_cancel]
      exact stosw_up (by omega) (by omega) (by omega)
    exact ⟨hnext.of_wrote hwrote, hwrote.sameLine.lines, hwrote.sameLine.columns, hwrote.sameLine.x⟩
  · have hwrote := regionUp_wrote h.toPlaced
    exact ⟨h.of_wrote hwrote, hwrote.sameLine⟩

theorem Inside.scrdown (h : Inside s) : Inside s.scrdown ∧ SameLine s s.scrdown := by
  have hwrote := regionDown_wrote h.toPlaced
  exact ⟨h.of_wrote hwrote, hwrote.sameLine⟩

/-! ### The cursor -/

theorem Inside.gotoxy (h : Inside s) (new_x new_y : ℕ) : Inside (s.gotoxy new_x new_y) := by
  rw [Screen.gotoxy]
  split_ifs with hout
  · exact h
  · have hhigh := h.high
    have hend := h.end_le
    have hscr := h.scr_end_eq
    have hrow := h.row
    have hle := lines_le s (i := new_y + 1) (by omega)
    rw [Nat.succ_mul] at hle
    rw [mul_eq (a := new_y) (by omega), mul_eq (b := 2) (by omega),
      add_eq (a := s.origin) (by omega), add_eq (by omega)]
    refine { h with x_le := ?_, y_lt := ?_, pos_eq := ?_ }
    all_goals
      dsimp only
      omega

theorem Inside.lf (h : Inside s) : Inside s.lf ∧ SameLine s s.lf := by
  have hhigh := h.high
  have hend := h.end_le
  have hscr := h.scr_end_eq
  have hrow := h.row
  have hx := h.x_le
  have hy := h.y_lt
  have hpos := h.pos_eq
  have hL : s.video_num_lines ≤ s.video_num_lines * s.video_size_row :=
    Nat.le_mul_of_pos_right _ (by have := h.columns; omega)
  have hone : add s.y 1 = s.y + 1 := add_eq (by omega)
  rw [Screen.lf, hone]
  split_ifs with hlt
  · have hbot := h.bottom_le
    have hle := lines_le s (i := s.y + 1) (by omega)
    rw [Nat.succ_mul] at hle
    rw [add_eq (by omega)]
    refine ⟨{ h with y_lt := ?_, pos_eq := ?_ }, rfl, rfl, rfl⟩
    · dsimp only
      omega
    · dsimp only
      rw [Nat.succ_mul]
      omega
  · exact h.scrup

theorem Inside.ri (h : Inside s) : Inside s.ri := by
  have hhigh := h.high
  have hend := h.end_le
  have hscr := h.scr_end_eq
  have hrow := h.row
  have hx := h.x_le
  have hy := h.y_lt
  have hpos := h.pos_eq
  have hle := lines_le s h.y_lt
  have hL : s.video_num_lines ≤ s.video_num_lines * s.video_size_row :=
    Nat.le_mul_of_pos_right _ (by have := h.columns; omega)
  rw [Nat.succ_mul] at hle
  rw [Screen.ri]
  split_ifs with hlt
  · have hsucc : s.y * s.video_size_row = (s.y - 1) * s.video_size_row + s.video_size_row := by
      rw [← Nat.succ_mul, Nat.succ_eq_add_one, Nat.sub_add_cancel (by omega)]
    rw [sub_eq (a := s.y) (by omega) (by omega), sub_eq (by omega) (by omega)]
    refine { h with y_lt := ?_, pos_eq := ?_ }
    all_goals
      dsimp only
      omega
  · exact h.scrdown.1

/-- The cursor's address is below the end of the video memory. -/
theorem Inside.pos_le (h : Inside s) :
    s.pos + 2 * (s.video_num_columns - s.x) ≤ s.video_mem_end ∧ s.video_mem_start ≤ s.pos := by
  have hend := h.end_le
  have hscr := h.scr_end_eq
  have hrow := h.row
  have hx := h.x_le
  have hpos := h.pos_eq
  have hstart := h.start_le
  have hle := lines_le s h.y_lt
  rw [Nat.succ_mul] at hle
  omega

/-- The start of the cursor's line. -/
theorem Inside.line_start (h : Inside s) : sub s.pos (mul s.x 2) = s.origin + s.y * s.video_size_row := by
  have hhigh := h.high
  have hle := h.pos_le
  have hpos := h.pos_eq
  rw [mul_eq (by omega), sub_eq (by omega) (by omega)]
  omega

theorem Inside.cr (h : Inside s) : Inside s.cr := by
  rw [Screen.cr, h.line_start]
  exact { h with x_le := Nat.zero_le _, pos_eq := rfl }

/-- The cursor moves left by one column. -/
theorem Inside.left (h : Inside s) (hx : s.x ≠ 0) : Inside { s with x := sub s.x 1, pos := sub s.pos 2 } ∧
      s.video_mem_start ≤ sub s.pos 2 ∧ sub s.pos 2 + 2 ≤ s.video_mem_end := by
  have hhigh := h.high
  have hle := h.pos_le
  have hpos := h.pos_eq
  have hxle := h.x_le
  have hstart := h.start_le
  rw [sub_eq (a := s.x) (by omega) (by omega), sub_eq (a := s.pos) (by omega) (by omega)]
  refine ⟨?_, by omega⟩
  refine { h with x_le := ?_, pos_eq := ?_ }
  all_goals
    dsimp only
    omega

theorem Inside.del (h : Inside s) : Inside s.del := by
  rw [Screen.del]
  split_ifs with hx
  · obtain ⟨hleft, hlo, hhi⟩ := h.left hx
    exact hleft.of_wrote (wrote_poke ⟨hlo, hhi⟩ _)
  · exact h

/-- The cursor is some columns too far to the right: it goes to the next line. -/
theorem Inside.wrap {n : ℕ} (h : Inside s) (hn : s.video_num_columns ≤ s.x + n) (h8 : n ≤ s.video_num_columns) :
    Inside (Screen.wrap { s with x := s.x + n, pos := s.pos + 2 * n }) ∧
      SameLine { s with x := s.x + n - s.video_num_columns }
        (Screen.wrap { s with x := s.x + n, pos := s.pos + 2 * n }) := by
  have hhigh := h.high
  have hle := h.pos_le
  have hpos := h.pos_eq
  have hxle := h.x_le
  have hrow := h.row
  rw [Screen.wrap]
  dsimp only
  rw [sub_eq (a := s.x + n) (by omega) (by omega), sub_eq (a := s.pos + 2 * n) (by omega) (by omega)]
  have hback : Inside { s with
      x := s.x + n - s.video_num_columns, pos := s.pos + 2 * n - s.video_size_row } := by
    refine { h with x_le := ?_, pos_eq := ?_ }
    all_goals
      dsimp only
      omega
  obtain ⟨hin, hsame⟩ := hback.lf
  exact ⟨hin, hsame.lines, hsame.columns, hsame.x⟩

theorem Inside.tab (h : Inside s) : Inside s.tab := by
  have hhigh := h.high
  have hle := h.pos_le
  have hpos := h.pos_eq
  have hxle := h.x_le
  have hcols := h.columns
  have hrow := h.row
  obtain ⟨n, hn⟩ : ∃ n, 8 - s.x % 8 = n := ⟨_, rfl⟩
  have h8 : n ≤ 8 := by omega
  rw [Screen.tab, hn]
  dsimp only
  rw [mul_eq (by omega), add_eq (a := s.x) (by omega), add_eq (by omega), Nat.mul_comm n]
  split_ifs with hfar
  · exact (h.wrap (by omega) (by omega)).1
  · refine { h with x_le := ?_, pos_eq := ?_ }
    all_goals
      dsimp only
      omega

/-! ### Erasing, inserting and deleting -/

theorem Inside.csi_J (h : Inside s) (par : ℕ) : Inside (s.csi_J par) := by
  have hhigh := h.high
  have hend := h.end_le
  have hscr := h.scr_end_eq
  have hle := h.pos_le
  have hpos := h.pos_eq
  have hstart := h.start_le
  have hrow := h.row
  have hx := h.x_le
  have hline := lines_le s h.y_lt
  rw [Nat.succ_mul] at hline
  have hcount : 2 * (s.video_num_columns * s.video_num_lines) = s.video_num_lines * s.video_size_row := by
    rw [hrow]
    ring
  unfold Screen.csi_J
  split
  · rw [sub_eq (by omega) (by omega)]
    exact h.of_wrote (stosw_up (by omega) (by omega) (by omega))
  · rw [sub_eq (by omega) (by omega)]
    exact h.of_wrote (stosw_up (by omega) (by omega) (by omega))
  · rw [mul_eq (by omega)]
    exact h.of_wrote (stosw_up (by omega) (by omega) (by omega))
  · exact h

theorem Inside.csi_K (h : Inside s) (par : ℕ) : Inside (s.csi_K par) := by
  have hhigh := h.high
  have hend := h.end_le
  have hscr := h.scr_end_eq
  have hle := h.pos_le
  have hstart := h.start_le
  have hrow := h.row
  have hx := h.x_le
  have hline := lines_le s h.y_lt
  rw [Nat.succ_mul] at hline
  unfold Screen.csi_K
  split
  · split_ifs with hxc
    · exact h
    · rw [sub_eq (by omega) (by omega)]
      exact h.of_wrote (stosw_up (by omega) (by omega) (by omega))
  · rw [h.line_start]
    split_ifs
    · exact h.of_wrote (stosw_up (by omega) (by omega) (by omega))
    · exact h.of_wrote (stosw_up (by omega) (by omega) (by omega))
  · rw [h.line_start]
    exact h.of_wrote (stosw_up (by omega) (by omega) (by omega))
  · exact h

theorem Inside.insert_char (h : Inside s) : Inside s.insert_char := by
  have hhigh := h.high
  have hle := h.pos_le
  exact h.of_wrote (insertFrom_wrote hle.2 hle.1 (by omega))

theorem Inside.delete_char (h : Inside s) : Inside s.delete_char := by
  have hhigh := h.high
  have hle := h.pos_le
  rw [Screen.delete_char]
  split_ifs with hx
  · exact h
  · exact h.of_wrote (deleteFrom_wrote hle.2 (by omega) (by omega))

/-- The region of `insert_line` and `delete_line`, and back. -/
theorem Inside.fromLine (h : Inside s) : Inside s.fromLine :=
  { h with region := h.y_lt, bottom_le := Nat.le_refl _ }

theorem Inside.withRegion (h : Inside s) {top bottom : ℕ} (hlt : top < bottom)
    (hle : bottom ≤ s.video_num_lines) : Inside { s with top := top, bottom := bottom } :=
  { h with region := hlt, bottom_le := hle }

theorem Inside.insert_line (h : Inside s) : Inside s.insert_line := by
  obtain ⟨hin, hsame⟩ := h.fromLine.scrdown
  exact hin.withRegion h.region (hsame.lines ▸ h.bottom_le)

theorem Inside.delete_line (h : Inside s) : Inside s.delete_line := by
  obtain ⟨hin, hsame⟩ := h.fromLine.scrup
  exact hin.withRegion h.region (hsame.lines ▸ h.bottom_le)

/-- What a command keeps it keeps however often it is done. -/
theorem Inside.iterate {f : Screen → Screen} (hf : ∀ s, Inside s → Inside (f s)) (h : Inside s)
    (n : ℕ) : Inside (f^[n] s) := by
  induction n generalizing s with
  | zero => exact h
  | succ n ih => exact ih (hf s h)

/-! ### The characters -/

theorem Inside.put (h : Inside s) (hx : s.x < s.video_num_columns) (c : ℤ) : Inside (s.put c) := by
  have hhigh := h.high
  have hle := h.pos_le
  have hpos := h.pos_eq
  have hwrote : Wrote s.video_mem_start s.video_mem_end s
      (s.poke s.pos (c.toNat + 256 * s.attr)) := wrote_poke (by omega) _
  have hin := h.of_wrote hwrote
  rw [Screen.put]
  show Inside { s.poke s.pos _ with pos := add s.pos 2, x := add s.x 1 }
  rw [add_eq (by omega), add_eq (by have := h.columns; have := h.row; omega)]
  refine { hin with x_le := ?_, pos_eq := ?_ }
  · exact hx
  · show s.pos + 2 = s.origin + s.y * s.video_size_row + 2 * (s.x + 1)
    omega
/-- The pending wrap: after it the cursor is on a column. -/
theorem Inside.wrapped (h : Inside s) (hx : s.video_num_columns ≤ s.x) :
    Inside s.wrap ∧ s.wrap.x < s.wrap.video_num_columns := by
  obtain ⟨hin, hsame⟩ := h.wrap (n := 0) hx (Nat.zero_le _)
  refine ⟨hin, ?_⟩
  have hxle := h.x_le
  have hcols := h.columns
  have hwx : s.wrap.x = s.x - s.video_num_columns := hsame.x
  have hwc : s.wrap.video_num_columns = s.video_num_columns := hsame.columns
  omega

theorem Inside.plain (h : Inside s) (erase : ℕ) (c : ℤ) : Inside (s.plain erase c) := by
  rw [Screen.plain]
  split_ifs with hc hx
  · exact (h.wrapped hx).1.put (h.wrapped hx).2 c
  · exact h.put (Nat.lt_of_not_le hx) c
  · exact { h with }
  · exact h.lf.1
  · exact h.cr
  · exact h.del
  · rename_i hx0
    exact (h.left hx0).1
  · exact h
  · exact h.tab
  · exact h

theorem Inside.csi_m (h : Inside s) : Inside s.csi_m := { h with }

theorem Inside.save_cur (h : Inside s) : Inside s.save_cur := { h with }

theorem Inside.escape (h : Inside s) (c : ℤ) : Inside (Screen.escape c s) := by
  rw [Screen.escape]
  split_ifs
  · exact { h with }
  · exact h.gotoxy _ _
  · exact h.ri
  · exact h.lf.1
  · exact h
  · exact h.save_cur
  · exact h.gotoxy _ _
  · exact h

theorem Inside.atLeastOne (h : Inside s) : Inside s.atLeastOne := by
  rw [Screen.atLeastOne]
  split_ifs
  · exact { h with }
  · exact h

theorem Inside.fromZero (h : Inside s) (i : ℕ) : Inside (s.fromZero i) := by
  rw [Screen.fromZero]
  split_ifs
  · exact { h with }
  · exact h

theorem Inside.lastLine (h : Inside s) : Inside s.lastLine := by
  rw [Screen.lastLine]
  split_ifs
  · exact { h with }
  · exact h

theorem Inside.csi_r (h : Inside s) : Inside s.csi_r := by
  rw [Screen.csi_r]
  split_ifs with hregion
  · exact h.withRegion hregion.1 hregion.2
  · exact h

theorem Inside.csi_L (h : Inside s) (nr : ℕ) : Inside (s.csi_L nr) := by
  rw [Screen.csi_L]
  exact h.iterate (fun _ => Inside.insert_line) _

theorem Inside.csi_M (h : Inside s) (nr : ℕ) : Inside (s.csi_M nr) := by
  rw [Screen.csi_M]
  exact h.iterate (fun _ => Inside.delete_line) _

theorem Inside.csi_P (h : Inside s) (nr : ℕ) : Inside (s.csi_P nr) := by
  rw [Screen.csi_P]
  exact h.iterate (fun _ => Inside.delete_char) _

theorem Inside.csi_at (h : Inside s) (nr : ℕ) : Inside (s.csi_at nr) := by
  rw [Screen.csi_at]
  exact h.iterate (fun _ => Inside.insert_char) _

theorem inside_ite {p : Prop} [Decidable p] (ht : Inside t) (hu : Inside u) : Inside (if p then t else u) := by
  split_ifs
  · exact ht
  · exact hu

theorem Inside.command (h : Inside s) (c : ℤ) : Inside (Screen.command c s) := by
  rw [Screen.command]
  apply inside_ite ((h.fromZero 0).gotoxy _ _)
  apply inside_ite (h.atLeastOne.gotoxy _ _)
  apply inside_ite (h.atLeastOne.gotoxy _ _)
  apply inside_ite (h.atLeastOne.gotoxy _ _)
  apply inside_ite (h.atLeastOne.gotoxy _ _)
  apply inside_ite (h.atLeastOne.gotoxy _ _)
  apply inside_ite (h.atLeastOne.gotoxy _ _)
  apply inside_ite ((h.fromZero 0).gotoxy _ _)
  apply inside_ite (((h.fromZero 0).fromZero 1).gotoxy _ _)
  apply inside_ite (h.csi_J _)
  apply inside_ite (h.csi_K _)
  apply inside_ite (h.csi_L _)
  apply inside_ite (h.csi_M _)
  apply inside_ite (h.csi_P _)
  apply inside_ite (h.csi_at _)
  apply inside_ite h.csi_m
  apply inside_ite (h.fromZero 0).lastLine.csi_r
  apply inside_ite h.save_cur
  exact inside_ite (h.gotoxy _ _) h

theorem Inside.withState (h : Inside s) (state : ℕ) : Inside { s with state := state } := { h with }

theorem Inside.parameter (h : Inside s) (c : ℤ) : Inside (s.parameter c) := by
  rw [Screen.parameter]
  split_ifs with hsep
  · exact { h with npar_lt := Nat.add_lt_of_lt_sub hsep.2 }
  · exact { h with }
  · exact (h.withState 0).command c

theorem Inside.bracket (h : Inside s) (c : ℤ) : Inside (s.bracket c) := by
  have hin : Inside { s with npar := 0, par := fun _ => 0, state := 3, ques := decide (c = 63) } :=
    { h with npar_lt := Nat.succ_pos _ }
  rw [Screen.bracket]
  split_ifs
  · exact hin
  · exact hin.parameter c

/-- **One character.**  Whatever it is, the console stays inside. -/
theorem Inside.con_char (h : Inside s) (erase : ℕ) (c : ℤ) : Inside (s.con_char erase c) := by
  unfold Screen.con_char
  split
  · exact h.plain erase c
  · exact (h.withState 0).escape c
  · exact h.bracket c
  · exact h.parameter c
  · exact (h.withState 0).command c
  · exact h

/-- The characters that `con_write` takes, each with the erase character of that moment. -/
def con_chars (s : Screen) (bytes : List (ℕ × ℤ)) : Screen :=
  bytes.foldl (fun s b => s.con_char b.1 b.2) s

theorem Inside.con_chars (h : Inside s) (bytes : List (ℕ × ℤ)) : Inside (s.con_chars bytes) := by
  induction bytes generalizing s with
  | nil => exact h
  | cons b bytes ih => exact ih (h.con_char b.1 b.2)

end Screen

/-! ### After `con_init` -/

open Screen

variable {b : Boot}

/-- The screen that `con_init` finds: even columns, at least 8 of them, room for 25 lines, and the
cursor on the screen. -/
structure Boot.Fits (b : Boot) : Prop where
  columns : 8 ≤ b.cols
  even : b.cols % 2 = 0
  room : b.video_mem_start + 25 * (b.cols * 2) ≤ b.video_mem_end
  x_le : b.orig_x ≤ b.cols
  y_lt : b.orig_y < 25

theorem con_init_inside (h : b.Fits) (mem : ℕ → ℕ) : Inside (con_init b mem) := by
  obtain ⟨hcols, heven, hroom, hx, hy⟩ := h
  have hlow : 4 ≤ b.video_mem_start := by
    rw [Boot.video_mem_start]
    split_ifs <;> decide
  have hhigh : b.video_mem_end ≤ 0xbc000 := by
    rw [Boot.video_mem_end]
    split <;> decide
  have hline : (b.orig_y + 1) * (b.cols * 2) ≤ 25 * (b.cols * 2) := Nat.mul_le_mul_right _ hy
  rw [Nat.succ_mul] at hline
  rw [con_init, Screen.gotoxy, if_neg (by dsimp only; omega)]
  dsimp only
  rw [mul_eq (a := b.orig_y) (by omega), mul_eq (b := 2) (by omega),
    add_eq (a := b.video_mem_start) (by omega), add_eq (by omega)]
  exact
    { columns := hcols, even := heven, row := Nat.mul_comm _ _, fits := hroom, low := hlow
      high := by dsimp only; omega
      region := Nat.succ_pos _, bottom_le := Nat.le_refl _, scr_end_eq := rfl, start_le := Nat.le_refl _
      end_le := hroom, x_le := hx, y_lt := hy, pos_eq := by dsimp only; omega
      npar_lt := Nat.succ_pos _, touched_mem := by simp }

/-- **The console stays on the screen.**  For every kind of display and every sequence of bytes. -/
theorem console_stays_inside (h : b.Fits) (mem : ℕ → ℕ) (bytes : List (ℕ × ℤ)) :
    Inside ((con_init b mem).con_chars bytes) :=
  (con_init_inside h mem).con_chars bytes

/-- An EGA screen of 80 columns: a letter, and the cursor five lines down. -/
theorem console_stays_inside_ega : Inside ((con_init ⟨0, 0, false, 80, false⟩ fun _ => 0).con_chars
      [(127, 65), (127, 27), (127, 91), (127, 53), (127, 66)]) :=
  console_stays_inside ⟨by decide, by decide, by decide, by decide, by decide⟩ _ _

end OldLinux.Console
