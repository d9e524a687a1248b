import OldLinux.Console.Bounds
import OldLinux.Console.Escape

/-!
# Saving and restoring the cursor

`CSI s` and `CSI u` save and restore the cursor.  After `ESC` the digits `7` and `8` are looked for in the
cursor's column, so `ESC 7` saves only in column 55, `ESC 8` restores only in column 56, and there every other
`ESC` sequence with no meaning of its own does it too.
-/

namespace OldLinux.Console.Screen

variable {s t : Screen} {erase : ℕ} {c : ℤ} {bytes : List (ℕ × ℤ)} {P : Screen → ℤ → Prop}

/-! ### What the sequences are for -/

/-- `c` ends `ESC 7` or `CSI s`. -/
def Saves (s : Screen) (c : ℤ) : Prop :=
  (s.state = 1 ∧ c = 55) ∨ ((s.state = 2 ∨ s.state = 3 ∨ s.state = 4) ∧ c = 115)

/-- `c` has a meaning of its own after `ESC`: `[`, `E`, `M`, `D` or `Z`. -/
def Known (c : ℤ) : Prop := c = 91 ∨ c = 69 ∨ c = 77 ∨ c = 68 ∨ c = 90

instance (c : ℤ) : Decidable (Known c) :=
  inferInstanceAs (Decidable (c = 91 ∨ c = 69 ∨ c = 77 ∨ c = 68 ∨ c = 90))

/-- The cursor is where it was saved. -/
def AtSaved (s : Screen) : Prop := s.saved_x = s.x ∧ s.saved_y = s.y

instance (s : Screen) : Decidable s.AtSaved := inferInstanceAs (Decidable (s.saved_x = s.x ∧ s.saved_y = s.y))

/-- The column does for `c` what `c` itself should. -/
def AsMeant (s : Screen) (c : ℤ) : Prop :=
  s.state = 1 → ¬Known c → s.AtSaved ∨ (c = 55 ∧ s.x = 55) ∨ (c = 56 ∧ s.x = 56) ∨ (c ≠ 55 ∧ c ≠ 56 ∧ s.x ≠ 55)

instance (s : Screen) (c : ℤ) : Decidable (s.AsMeant c) :=
  inferInstanceAs (Decidable (s.state = 1 → ¬Known c →
    s.AtSaved ∨ (c = 55 ∧ s.x = 55) ∨ (c = 56 ∧ s.x = 56) ∨ (c ≠ 55 ∧ c ≠ 56 ∧ s.x ≠ 55)))

/-- `ESC c`, with the erase characters of the moment. -/
def ESC (e₁ e₂ : ℕ) (c : ℤ) : List (ℕ × ℤ) := [(e₁, 27), (e₂, c)]

/-- `CSI c`. -/
def CSI (e₁ e₂ e₃ : ℕ) (c : ℤ) : List (ℕ × ℤ) := [(e₁, 27), (e₂, 91), (e₃, c)]

/-- `P` holds at every character. -/
def Along (P : Screen → ℤ → Prop) : Screen → List (ℕ × ℤ) → Prop
  | _, [] => True
  | s, b :: rest => P s b.2 ∧ Along P (s.con_char b.1 b.2) rest

instance Along.decidable [∀ s c, Decidable (P s c)] : ∀ (l : List (ℕ × ℤ)) (s : Screen), Decidable (Along P s l)
  | [], _ => isTrue trivial
  | b :: rest, s =>
    have := Along.decidable rest (s.con_char b.1 b.2)
    inferInstanceAs (Decidable (P s b.2 ∧ Along P (s.con_char b.1 b.2) rest))

instance (s : Screen) (c : ℤ) : Decidable (s.Saves c) :=
  inferInstanceAs (Decidable ((s.state = 1 ∧ c = 55) ∨ ((s.state = 2 ∨ s.state = 3 ∨ s.state = 4) ∧ c = 115)))

/-- The characters between a save and a restore: no further save, and no sequence left open at the end. -/
structure Between (s : Screen) (bytes : List (ℕ × ℤ)) : Prop where
  no_save : Along (fun s c => ¬s.Saves c) s bytes
  closed : (s.con_chars bytes).state = 0

/-- `save`, the characters and `restore` put the cursor back. -/
def Restores (s : Screen) (save bytes restore : List (ℕ × ℤ)) : Prop :=
  Between (s.con_chars save) bytes →
    (s.con_chars (save ++ bytes ++ restore)).x = s.x ∧ (s.con_chars (save ++ bytes ++ restore)).y = s.y

/-- A character that saves nothing leaves the saved position. -/
def Keeps (t : Screen) (erase : ℕ) (c : ℤ) : Prop :=
  (con_char erase c t).saved_x = t.saved_x ∧ (con_char erase c t).saved_y = t.saved_y

theorem con_chars_append (s : Screen) (l l' : List (ℕ × ℤ)) :
    s.con_chars (l ++ l') = (s.con_chars l).con_chars l' := List.foldl_append ..

theorem along_append {l l' : List (ℕ × ℤ)} :
    Along P s (l ++ l') ↔ Along P s l ∧ Along P (s.con_chars l) l' := by
  induction l generalizing s with
  | nil => exact ⟨fun h => ⟨trivial, h⟩, fun h => h.2⟩
  | cons b l ih => exact ⟨fun h => ⟨⟨h.1, (ih.mp h.2).1⟩, (ih.mp h.2).2⟩, fun h => ⟨h.1.1, ih.mpr ⟨h.1.2, h.2⟩⟩⟩

/-! ### One character -/

/-- The saved position, and the size that it has to fit in. -/
def saved (s : Screen) : ℕ × ℕ × ℕ × ℕ := (s.saved_x, s.saved_y, s.video_num_columns, s.video_num_lines)

theorem saved_of_frame (h : t.frame = s.frame) : t.saved = s.saved := by
  have hx : t.saved_x = s.saved_x := congrArg Frame.saved_x h
  have hy : t.saved_y = s.saved_y := congrArg Frame.saved_y h
  have hcolumns : t.video_num_columns = s.video_num_columns := congrArg Frame.video_num_columns h
  have hlines : t.video_num_lines = s.video_num_lines := congrArg Frame.video_num_lines h
  rw [saved, hx, hy, hcolumns, hlines, saved]

theorem plain_saved (erase : ℕ) (c : ℤ) (s : Screen) : (s.plain erase c).saved = s.saved := by
  by_cases h : c = 27
  · subst h
    rfl
  · exact saved_of_frame (plain_frame h)

theorem command_saved (h : c ≠ 115) (s : Screen) : (command c s).saved = s.saved :=
  saved_of_frame (command_frame h s)

theorem parameter_saved (h : c ≠ 115) (s : Screen) : (s.parameter c).saved = s.saved := by
  rw [parameter]
  split_ifs
  · rfl
  · rfl
  · exact command_saved h _

theorem bracket_saved (h : c ≠ 115) (s : Screen) : (s.bracket c).saved = s.saved := by
  rw [bracket]
  split_ifs
  · rfl
  · exact parameter_saved h _

theorem save_cur_saved (h : s.AtSaved) : s.save_cur.saved = s.saved := by
  rw [saved, saved, h.1, h.2]
  rfl

/-- `ESC` and one more character: in column 55 the cursor is saved. -/
theorem escape_saved (s : Screen) : (escape c s).saved = s.saved ∨
      (¬Known c ∧ s.x = 55 ∧ escape c s = s.save_cur) := by
  rw [escape]
  split_ifs with h1 h2 h3 h4 h5 h6 h7
  · exact .inl rfl
  · exact .inl (saved_of_frame (gotoxy_frame ..))
  · exact .inl (saved_of_frame (ri_frame _))
  · exact .inl (saved_of_frame (lf_frame _))
  · exact .inl rfl
  · exact .inr ⟨by simp only [Known, h1, h2, h3, h4, h5, or_self, not_false_eq_true], h6, rfl⟩
  · exact .inl (saved_of_frame (gotoxy_frame ..))
  · exact .inl rfl

/-- Without a save the saved position is kept, but for an `ESC` sequence in column 55. -/
theorem con_char_saved (erase : ℕ) (h : ¬s.Saves c) : (con_char erase c s).saved = s.saved ∨
      (s.state = 1 ∧ ¬Known c ∧ s.x = 55 ∧ con_char erase c s = { s with state := 0 }.save_cur) := by
  have hno : ∀ k, s.state = k → k = 2 ∨ k = 3 ∨ k = 4 → c ≠ 115 := by
    rintro k rfl hk rfl
    exact h (Or.inr ⟨hk, rfl⟩)
  unfold con_char
  split
  · exact .inl (plain_saved erase c s)
  · rename_i hs
    rcases escape_saved (c := c) { s with state := 0 } with hkept | ⟨hunknown, hx, heq⟩
    · exact .inl hkept
    · exact .inr ⟨hs, hunknown, hx, heq⟩
  · rename_i hs
    exact .inl (bracket_saved (hno 2 hs (by decide)) s)
  · rename_i hs
    exact .inl (parameter_saved (hno 3 hs (by decide)) s)
  · rename_i hs
    exact .inl (command_saved (hno 4 hs (by decide)) _)
  · exact .inl rfl

theorem escape_55 (h : ¬Known c) (hx : s.x = 55) : escape c s = s.save_cur := by
  rw [Known, not_or, not_or, not_or, not_or] at h
  rw [escape, if_neg h.1, if_neg h.2.1, if_neg h.2.2.1, if_neg h.2.2.2.1, if_neg h.2.2.2.2, if_pos hx]

/-- Exactly there it is lost, if the cursor is elsewhere. -/
theorem kept_iff (erase : ℕ) (h : ¬s.Saves c) :
    s.Keeps erase c ↔ ¬(s.state = 1 ∧ ¬Known c ∧ s.x = 55 ∧ ¬s.AtSaved) := by
  constructor
  · rintro ⟨hx, hy⟩ ⟨hs, hunknown, h55, hat⟩
    have heq : con_char erase c s = { s with state := 0 }.save_cur := by
      unfold con_char
      rw [hs]
      exact escape_55 hunknown h55
    rw [heq] at hx hy
    exact hat ⟨hx.symm, hy.symm⟩
  · intro hno
    rcases con_char_saved erase h with hkept | ⟨hs, hunknown, h55, heq⟩
    · exact ⟨congrArg Prod.fst hkept, congrArg (fun p => p.2.1) hkept⟩
    · have hat : s.AtSaved := by_contra fun hat => hno ⟨hs, hunknown, h55, hat⟩
      rw [Keeps, heq]
      exact ⟨hat.1.symm, hat.2.symm⟩

theorem kept_as_meant (erase : ℕ) (h : ¬s.Saves c) (hmeant : s.AsMeant c) :
    (con_char erase c s).saved = s.saved := by
  rcases con_char_saved erase h with hkept | ⟨hs, hunknown, hx, heq⟩
  · exact hkept
  · have hat : s.AtSaved := by
      rcases hmeant hs hunknown with hat | ⟨rfl, -⟩ | ⟨-, h56⟩ | ⟨-, -, h55⟩
      · exact hat
      · exact absurd (Or.inl ⟨hs, rfl⟩) h
      · omega
      · exact absurd hx h55
    rw [heq]
    exact save_cur_saved (s := { s with state := 0 }) hat

theorem along_saved (hsave : Along (fun s c => ¬s.Saves c) s bytes) (hmeant : Along AsMeant s bytes) :
    (s.con_chars bytes).saved = s.saved := by
  induction bytes generalizing s with
  | nil => rfl
  | cons b rest ih => exact (ih hsave.2 hmeant.2).trans (kept_as_meant b.1 hsave.1 hmeant.1)

/-! ### The sequences -/

/-- `ESC` outside of a sequence. -/
theorem con_char_esc (h : s.state = 0) (erase : ℕ) : con_char erase 27 s = { s with state := 1 } := by
  unfold con_char
  rw [h]
  rfl

/-- `ESC 7` done as it is meant. -/
theorem esc_7 (h : s.state = 0) (e₁ e₂ : ℕ) (hmeant : Along AsMeant s (ESC e₁ e₂ 55)) :
    (s.con_chars (ESC e₁ e₂ 55)).saved = (s.x, s.y, s.video_num_columns, s.video_num_lines) := by
  have hchars : s.con_chars (ESC e₁ e₂ 55) = escape 55 { s with state := 0 } := by
    show con_char e₂ 55 (con_char e₁ 27 s) = _
    rw [con_char_esc h]
    rfl
  have hstep : AsMeant { s with state := 1 } 55 := con_char_esc h e₁ ▸ hmeant.2.1
  rw [hchars]
  rcases hstep rfl (by decide) with hat | ⟨-, hx⟩ | ⟨h56, -⟩ | ⟨h55, -⟩
  · rcases escape_saved (c := 55) { s with state := 0 } with hkept | ⟨-, -, heq⟩
    · rw [hkept, saved, show s.saved_x = s.x from hat.1, show s.saved_y = s.y from hat.2]
    · rw [heq]
      rfl
  · rw [escape_55 (s := { s with state := 0 }) (by decide) hx]
    rfl
  · exact absurd h56 (by decide)
  · exact absurd rfl h55

/-- A cursor that was on the screen is put back. -/
theorem gotoxy_back {x y : ℕ} (hx : x ≤ s.video_num_columns) (hy : y < s.video_num_lines) :
    (s.gotoxy x y).x = x ∧ (s.gotoxy x y).y = y := by
  rw [gotoxy, if_neg (by omega)]
  exact ⟨rfl, rfl⟩

/-- `ESC 8` done as it is meant. -/
theorem esc_8 (h : t.state = 0) (e₁ e₂ : ℕ) (hmeant : Along AsMeant t (ESC e₁ e₂ 56))
    (hsaved : t.saved = (s.x, s.y, s.video_num_columns, s.video_num_lines)) (hx : s.x ≤ s.video_num_columns)
    (hy : s.y < s.video_num_lines) :
    (t.con_chars (ESC e₁ e₂ 56)).x = s.x ∧ (t.con_chars (ESC e₁ e₂ 56)).y = s.y := by
  have hchars : t.con_chars (ESC e₁ e₂ 56) = if t.x = 55 then { t with state := 0 }.save_cur
      else if t.x = 56 then { t with state := 0 }.restore_cur
      else { t with state := 0 } := by
    show con_char e₂ 56 (con_char e₁ 27 t) = _
    rw [con_char_esc h]
    rfl
  have hstep : AsMeant { t with state := 1 } 56 := con_char_esc h e₁ ▸ hmeant.2.1
  simp only [saved, Prod.mk.injEq] at hsaved
  obtain ⟨hsx, hsy, hcolumns, hlines⟩ := hsaved
  have hback : ({ t with state := 0 }.restore_cur).x = s.x ∧ ({ t with state := 0 }.restore_cur).y = s.y := by
    have hgoto := gotoxy_back (s := { t with state := 0 }) (x := s.x) (y := s.y) (by rw [hcolumns]; exact hx)
      (by rw [hlines]; exact hy)
    rwa [← hsx, ← hsy] at hgoto ⊢
  rw [hchars]
  rcases hstep rfl (by decide) with hat | ⟨h55, -⟩ | ⟨-, hx56⟩ | ⟨-, h56, -⟩
  · have hcursor : t.x = s.x ∧ t.y = s.y := ⟨hat.1.symm.trans hsx, hat.2.symm.trans hsy⟩
    split_ifs
    · exact hcursor
    · exact hback
    · exact hcursor
  · exact absurd h55 (by decide)
  · rw [if_neg (by rw [show t.x = 56 from hx56]; decide), if_pos hx56]
    exact hback
  · exact absurd rfl h56

/-- `CSI s`. -/
theorem csi_s (h : s.state = 0) (e₁ e₂ e₃ : ℕ) :
    (s.con_chars (CSI e₁ e₂ e₃ 115)).saved = (s.x, s.y, s.video_num_columns, s.video_num_lines) := by
  show (con_char e₃ 115 (con_char e₂ 91 (con_char e₁ 27 s))).saved = _
  rw [con_char_esc h]
  rfl

/-- `CSI u`. -/
theorem csi_u (h : t.state = 0) (e₁ e₂ e₃ : ℕ)
    (hsaved : t.saved = (s.x, s.y, s.video_num_columns, s.video_num_lines)) (hx : s.x ≤ s.video_num_columns)
    (hy : s.y < s.video_num_lines) :
    (t.con_chars (CSI e₁ e₂ e₃ 117)).x = s.x ∧ (t.con_chars (CSI e₁ e₂ e₃ 117)).y = s.y := by
  have hchars : ∃ n p q, t.con_chars (CSI e₁ e₂ e₃ 117) =
      ({ t with state := 0, npar := n, par := p, ques := q } : Screen).gotoxy t.saved_x t.saved_y := by
    refine ⟨0, fun _ => 0, false, ?_⟩
    show con_char e₃ 117 (con_char e₂ 91 (con_char e₁ 27 t)) = _
    rw [con_char_esc h]
    rfl
  simp only [saved, Prod.mk.injEq] at hsaved
  obtain ⟨hsx, hsy, hcolumns, hlines⟩ := hsaved
  obtain ⟨n, p, q, heq⟩ := hchars
  rw [heq, hsx, hsy]
  exact gotoxy_back (by rw [hcolumns]; exact hx) (by rw [hlines]; exact hy)

/-! ### The runs -/

/-- The saved position is put back by a restore, in a run whose characters are all taken as they are meant; and
a character that saves nothing loses the saved position exactly in the case that is not. -/
theorem saved_cursor (s : Screen) (bytes : List (ℕ × ℤ)) (h : s.state = 0) (hx : s.x ≤ s.video_num_columns)
    (hy : s.y < s.video_num_lines) (e₁ e₂ e₃ e₄ e₅ e₆ : ℕ) :
    (Along AsMeant s (ESC e₁ e₂ 55 ++ bytes ++ ESC e₃ e₄ 56) → s.Restores (ESC e₁ e₂ 55) bytes (ESC e₃ e₄ 56)) ∧
    (Along AsMeant s (CSI e₁ e₂ e₃ 115 ++ bytes ++ CSI e₄ e₅ e₆ 117) →
      s.Restores (CSI e₁ e₂ e₃ 115) bytes (CSI e₄ e₅ e₆ 117)) ∧
    ∀ (t : Screen) (erase : ℕ) (c : ℤ), ¬t.Saves c →
      (t.Keeps erase c ↔ ¬(t.state = 1 ∧ ¬Known c ∧ t.x = 55 ∧ ¬t.AtSaved)) := by
  refine ⟨fun hmeant hbetween => ?_, fun hmeant hbetween => ?_, fun t erase c hsaves => kept_iff erase hsaves⟩
  · rw [along_append, along_append] at hmeant
    obtain ⟨⟨hopen, hmiddle⟩, hclose⟩ := hmeant
    have hsaved := (along_saved hbetween.no_save hmiddle).trans (esc_7 h e₁ e₂ hopen)
    rw [con_chars_append] at hclose
    rw [con_chars_append, con_chars_append]
    exact esc_8 hbetween.closed e₃ e₄ hclose hsaved hx hy
  · rw [along_append, along_append] at hmeant
    obtain ⟨⟨-, hmiddle⟩, -⟩ := hmeant
    have hsaved := (along_saved hbetween.no_save hmiddle).trans (csi_s h e₁ e₂ e₃)
    rw [con_chars_append, con_chars_append]
    exact csi_u hbetween.closed e₄ e₅ e₆ hsaved hx hy

/-- A console after `con_init`, with the cursor in the fourth line. -/
def at_column (x : ℕ) : Screen := con_init ⟨x, 3, false, 80, false⟩ fun _ => 0

/-- From column 55 one column on and back again. -/
theorem saved_cursor_55 : (at_column 55).state = 0 ∧ (at_column 55).x ≤ (at_column 55).video_num_columns ∧
      (at_column 55).y < (at_column 55).video_num_lines ∧
      (at_column 55).Restores (ESC 127 127 55) [(127, 65)] (ESC 127 127 56) :=
  ⟨by decide, by decide, by decide,
    (saved_cursor (at_column 55) [(127, 65)] (by decide) (by decide) (by decide)
      127 127 127 127 127 127).1 (by decide)⟩

/-- Between an `ESC 7` in column 10 and an `ESC 8` in column 0 the cursor is neither saved nor put back. -/
theorem escape_7_saves_nothing : ¬(at_column 10).Restores (ESC 127 127 55) [(127, 13)] (ESC 127 127 56) := by
  intro h
  have hback := h ⟨by decide, by decide⟩
  exact absurd hback.1 (by decide)

end OldLinux.Console.Screen
