import OldLinux.Console.Machine

/-!
# Escape sequences

What a character does to `state`: only an `ESC` outside of escape sequences starts one, and an answer
is asked for only by the character after it.  The operations on the screen leave the state, the saved position
and the sizes of the screen as they are.
-/

namespace OldLinux.Console.Screen

variable {s : Screen} {erase : ℕ} {c : ℤ}

/-- What the operations on the screen leave as it is. -/
structure Frame where
  state : ℕ
  saved_x : ℕ
  saved_y : ℕ
  video_num_columns : ℕ
  video_num_lines : ℕ

def frame (s : Screen) : Frame := ⟨s.state, s.saved_x, s.saved_y, s.video_num_columns, s.video_num_lines⟩

/-! ### Operations on the screen -/

@[simp] theorem look_frame (s : Screen) (a : ℕ) : (s.look a).frame = s.frame := rfl

@[simp] theorem poke_frame (s : Screen) (a v : ℕ) : (s.poke a v).frame = s.frame := rfl

@[simp] theorem moveLong_frame (s : Screen) (si di : ℕ) : (s.moveLong si di).frame = s.frame := by
  rw [moveLong, poke_frame, poke_frame, look_frame, look_frame]

/-- The cursor moves. -/
theorem moved_frame (s : Screen) (pos x y : ℕ) :
    ({ s with pos := pos, x := x, y := y } : Screen).frame = s.frame :=
  rfl

@[simp] theorem nextOrigin_frame (s : Screen) : s.nextOrigin.frame = s.frame := rfl

@[simp] theorem backToStart_frame (s : Screen) : s.backToStart.frame = s.frame := rfl

@[simp] theorem stosw_frame (up : Bool) (n di : ℕ) (s : Screen) : (stosw up n di s).frame = s.frame := by
  induction n generalizing di s with
  | zero => rfl
  | succ n ih => rw [stosw, ih, poke_frame]

@[simp] theorem movsl_frame (up : Bool) (n si di : ℕ) (s : Screen) : (movsl up n si di s).frame = s.frame := by
  induction n generalizing si di s with
  | zero => rfl
  | succ n ih => rw [movsl, ih, moveLong_frame]

@[simp] theorem insertFrom_frame (n p old : ℕ) (s : Screen) : (insertFrom n p old s).frame = s.frame := by
  induction n generalizing p old s with
  | zero => rfl
  | succ n ih => rw [insertFrom, ih, poke_frame, look_frame]

@[simp] theorem deleteFrom_frame (n p : ℕ) (s : Screen) : (deleteFrom n p s).frame = s.frame := by
  induction n generalizing p s with
  | zero => rfl
  | succ n ih => rw [deleteFrom, ih, poke_frame, look_frame]

@[simp] theorem scrup_frame (s : Screen) : s.scrup.frame = s.frame := by
  rw [scrup]
  split_ifs
  · rw [backToStart_frame, copyBack, stosw_frame, movsl_frame, nextOrigin_frame]
  · rw [stosw_frame, nextOrigin_frame]
  · rw [regionUp, stosw_frame, movsl_frame]

@[simp] theorem scrdown_frame (s : Screen) : s.scrdown.frame = s.frame := by
  rw [scrdown, regionDown, stosw_frame, movsl_frame]

@[simp] theorem gotoxy_frame (s : Screen) (x y : ℕ) : (s.gotoxy x y).frame = s.frame := by
  rw [gotoxy]
  split_ifs <;> rfl

@[simp] theorem lf_frame (s : Screen) : s.lf.frame = s.frame := by
  rw [lf]
  split_ifs
  · rfl
  · exact scrup_frame s

@[simp] theorem ri_frame (s : Screen) : s.ri.frame = s.frame := by
  rw [ri]
  split_ifs
  · rfl
  · exact scrdown_frame s

@[simp] theorem wrap_frame (s : Screen) : s.wrap.frame = s.frame := by
  rw [wrap, lf_frame]
  rfl

@[simp] theorem del_frame (s : Screen) : s.del.frame = s.frame := by
  rw [del]
  split_ifs
  · rw [poke_frame]
    exact moved_frame s _ _ s.y
  · rfl

@[simp] theorem tab_frame (s : Screen) : s.tab.frame = s.frame := by
  simp only [tab]
  split_ifs
  · exact wrap_frame _
  · rfl

theorem iterate_frame {f : Screen → Screen} (hf : ∀ s, (f s).frame = s.frame) (n : ℕ)
    (s : Screen) : (f^[n] s).frame = s.frame := by
  induction n generalizing s with
  | zero => rfl
  | succ n ih => exact (ih (f s)).trans (hf s)

/-! ### Commands -/

@[simp] theorem csi_J_frame (s : Screen) (par : ℕ) : (s.csi_J par).frame = s.frame := by
  unfold csi_J
  split <;> simp

@[simp] theorem csi_K_frame (s : Screen) (par : ℕ) : (s.csi_K par).frame = s.frame := by
  unfold csi_K
  split
  · split_ifs <;> simp
  all_goals simp

theorem insert_line_frame (s : Screen) : s.insert_line.frame = s.frame := scrdown_frame _

theorem delete_line_frame (s : Screen) : s.delete_line.frame = s.frame := scrup_frame _

theorem delete_char_frame (s : Screen) : s.delete_char.frame = s.frame := by
  rw [delete_char]
  split_ifs
  · rfl
  · exact deleteFrom_frame ..

@[simp] theorem csi_L_frame (s : Screen) (nr : ℕ) : (s.csi_L nr).frame = s.frame :=
  iterate_frame insert_line_frame ..

@[simp] theorem csi_M_frame (s : Screen) (nr : ℕ) : (s.csi_M nr).frame = s.frame :=
  iterate_frame delete_line_frame ..

@[simp] theorem csi_P_frame (s : Screen) (nr : ℕ) : (s.csi_P nr).frame = s.frame :=
  iterate_frame delete_char_frame ..

@[simp] theorem csi_at_frame (s : Screen) (nr : ℕ) : (s.csi_at nr).frame = s.frame :=
  iterate_frame (fun _ => insertFrom_frame ..) ..

@[simp] theorem fromZero_frame (s : Screen) (i : ℕ) : (s.fromZero i).frame = s.frame := by
  rw [fromZero]
  split_ifs <;> rfl

@[simp] theorem atLeastOne_frame (s : Screen) : s.atLeastOne.frame = s.frame := by
  rw [atLeastOne]
  split_ifs <;> rfl

@[simp] theorem lastLine_frame (s : Screen) : s.lastLine.frame = s.frame := by
  rw [lastLine]
  split_ifs <;> rfl

@[simp] theorem csi_r_frame (s : Screen) : s.csi_r.frame = s.frame := by
  rw [csi_r]
  split_ifs <;> rfl

/-- Only `CSI s` changes the saved position. -/
theorem command_frame (h : c ≠ 115) (s : Screen) : (command c s).frame = s.frame := by
  have hcsi_m : s.csi_m.frame = s.frame := rfl
  have hrestore : s.restore_cur.frame = s.frame := gotoxy_frame ..
  simp only [command, if_neg h, apply_ite Screen.frame, hcsi_m, hrestore, gotoxy_frame, csi_J_frame,
    csi_K_frame, csi_L_frame, csi_M_frame, csi_P_frame, csi_at_frame, csi_r_frame, lastLine_frame,
    fromZero_frame, atLeastOne_frame, ite_self]

theorem command_save (s : Screen) : command 115 s = s.save_cur := rfl

theorem command_state (c : ℤ) (s : Screen) : (command c s).state = s.state := by
  by_cases h : c = 115
  · rw [h, command_save]
    rfl
  · exact congrArg Frame.state (command_frame h s)

/-! ### One character -/

/-- Outside of escape sequences only `ESC` changes the state. -/
theorem plain_frame (h : c ≠ 27) : (s.plain erase c).frame = s.frame := by
  have hput : ((if s.video_num_columns ≤ s.x then s.wrap else s).put c).frame = s.frame := by
    show (if s.video_num_columns ≤ s.x then s.wrap else s).frame = s.frame
    rw [apply_ite Screen.frame, wrap_frame, ite_self]
  have hcr : s.cr.frame = s.frame := rfl
  have hback : ({ s with x := sub s.x 1, pos := sub s.pos 2 } : Screen).frame = s.frame := moved_frame s _ _ s.y
  simp only [plain, if_neg h, apply_ite Screen.frame, hput, hcr, hback, lf_frame, del_frame,
    tab_frame, ite_self]

theorem plain_state (h : c ≠ 27) : (s.plain erase c).state = s.state :=
  congrArg Frame.state (plain_frame h)

theorem parameter_state : (s.parameter c).state = s.state ∨ (s.parameter c).state = 0 := by
  rw [parameter]
  split_ifs
  · exact .inl rfl
  · exact .inl rfl
  · exact .inr (command_state c _)

theorem escape_state : (escape c { s with state := 0 }).state ≠ 1 := by
  have hkeeps : ∀ t : Screen, t.frame = ({ s with state := 0 } : Screen).frame → t.state ≠ 1 := by
    intro t h
    rw [show t.state = 0 from congrArg Frame.state h]
    exact Nat.zero_ne_one
  rw [escape]
  split_ifs
  · exact Nat.succ_ne_self 1
  · exact hkeeps _ (gotoxy_frame ..)
  · exact hkeeps _ (ri_frame _)
  · exact hkeeps _ (lf_frame _)
  · exact Nat.zero_ne_one
  · exact Nat.zero_ne_one
  · exact hkeeps _ (gotoxy_frame ..)
  · exact Nat.zero_ne_one

/-- **Only `ESC` starts an escape sequence.** -/
theorem con_char_state (h : (con_char erase c s).state = 1) : s.state = 0 ∧ c = 27 := by
  unfold con_char at h
  split at h
  · rename_i hs
    by_cases hc : c = 27
    · exact ⟨hs, hc⟩
    · rw [plain_state hc] at h
      omega
  · exact absurd h escape_state
  · rw [bracket] at h
    split_ifs at h
    · simp at h
    · rcases parameter_state (s := { s with
          npar := 0, par := fun _ => 0, state := 3, ques := decide (c = 63) }) (c := c) with h' | h'
      · rw [h'] at h
        simp at h
      · rw [h'] at h
        simp at h
  · rcases parameter_state (s := s) (c := c) with h' | h' <;> omega
  · rw [command_state] at h
    simp at h
  · rename_i hs _ _ _
    exact absurd h hs

/-- The answer ends the sequence. -/
theorem con_char_asked (h : s.asks c = true) : con_char erase c s = { s with state := 0 } := by
  obtain ⟨hs, rfl⟩ : s.state = 1 ∧ c = 90 := by simpa [asks] using h
  unfold con_char
  rw [hs]
  rfl

end OldLinux.Console.Screen
