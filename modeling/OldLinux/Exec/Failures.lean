import OldLinux.Exec.Overrun

/-!
# A failed `execve` changes nothing

From the point of no return on, `do_execve` returns 0 or does not return, and it stays inside of the
array `page`.  So a call that returns an error has left through an error exit, unless a string ran past
the beginning of the area before: `p-len < 0` is never true of an `unsigned long`.
-/

namespace OldLinux.Exec

open Lib

variable {others : ℕ → ℕ} {k k' : Kernel} {x : Answers} {a : Args}

/-! ### No way out of the array -/

section Inside

/-- The command stays inside of the array `page`. -/
abbrev Inside {α : Type} (c : ExecM α) : Prop := Never Trap.outside c

theorem inside_get_free_page : Inside get_free_page := by
  refine Never.look fun k => ?_
  split
  · exact Never.pure _
  · exact Never.bind (Never.modify _) fun _ => Never.pure _

theorem inside_free_page (f : ℕ) : Inside (free_page f) := by
  refine Never.look fun k => Never.ite (Never.pure _) (Never.ite (Never.throw ?_) (Never.modify _))
  exact Trap.noConfusion

theorem inside_page_table (u : ℕ) : Inside (page_table u) := by
  refine Never.look fun k => ?_
  split
  · exact Never.pure _
  · refine Never.bind inside_get_free_page fun r => ?_
    cases r with
    | none => exact Never.pure _
    | some t => exact Never.bind (Never.modify _) fun _ => Never.pure _

theorem inside_put_page (f u : ℕ) : Inside (put_page f u) :=
  Never.bind (inside_page_table u) fun _ =>
    Never.ite (Never.bind (Never.modify _) fun _ => Never.pure _) (Never.pure _)

theorem inside_do_no_page (u : ℕ) : Inside (do_no_page u) := by
  refine Never.look fun k => ?_
  split
  · exact Never.bind (inside_page_table u) fun _ =>
      Never.ite (Never.modify _) (Never.throw Trap.noConfusion)
  · refine Never.bind inside_get_free_page fun r => ?_
    cases r with
    | none => exact Never.throw Trap.noConfusion
    | some f =>
      refine Never.bind (Never.modify _) fun _ => Never.bind (inside_put_page f u) fun _ => ?_
      exact Never.ite (Never.pure _) (Never.bind (inside_free_page f) fun _ =>
        Never.throw Trap.noConfusion)

theorem inside_free_entries (u n : ℕ) : Inside (free_entries u n) := by
  induction n with
  | zero => exact Never.pure _
  | succ n ih =>
    refine Never.bind ih fun _ => Never.look fun k => ?_
    split
    · exact Never.pure _
    · exact Never.bind (inside_free_page _) fun _ => Never.modify _

theorem inside_free_table (d : ℕ) : Inside (free_table d) := by
  rw [free_table]
  generalize 1024 = n
  refine Never.look fun k => ?_
  split
  · exact Never.pure _
  · exact Never.bind (inside_free_entries _ _) fun _ => Never.bind (inside_free_page _) fun _ =>
      Never.modify _

theorem inside_free_tables (n : ℕ) : Inside (free_tables n) := by
  induction n with
  | zero => exact Never.pure _
  | succ n ih => exact Never.bind ih fun _ => inside_free_table n

theorem inside_touch (a : ℕ) : Inside (touch a) := by
  refine Never.look fun k => Never.ite (Never.throw Trap.noConfusion) ?_
  split
  · exact Never.pure _
  · exact inside_do_no_page _

theorem inside_put_fs_byte (v a : ℕ) : Inside (put_fs_byte v a) := by
  refine Never.bind (inside_touch a) fun _ => Never.look fun k => ?_
  split
  · exact Never.modify _
  · exact Never.pure _

theorem inside_put_fs_long (v a : ℕ) : Inside (put_fs_long v a) :=
  Never.bind (inside_put_fs_byte v a) fun _ => Never.bind (inside_put_fs_byte _ _) fun _ =>
    Never.bind (inside_put_fs_byte _ _) fun _ => inside_put_fs_byte _ _

theorem inside_string_len (n a : ℕ) : Inside (string_len n a) := by
  induction n generalizing a with
  | zero => exact Never.throw Trap.noConfusion
  | succ n ih =>
    refine Never.bind (Never.look fun k => ?_) fun c => Never.ite (Never.pure _)
      (Never.bind (ih (a + 1)) fun _ => Never.pure _)
    split
    · exact Never.pure _
    · exact Never.bind (inside_touch a) fun _ => Never.look fun _ => Never.pure _

theorem inside_put_pointers (n p t : ℕ) : Inside (put_pointers n p t) := by
  induction n generalizing p t with
  | zero => exact Never.pure _
  | succ n ih =>
    exact Never.bind (inside_put_fs_long p t) fun _ => Never.bind (inside_string_len _ p) fun len =>
      ih (p + len) (t + 4)

theorem inside_create_tables (p argc envc : ℕ) : Inside (create_tables p argc envc) :=
  Never.bind (inside_put_fs_long _ _) fun _ => Never.bind (inside_put_fs_long _ _) fun _ =>
    Never.bind (inside_put_fs_long _ _) fun _ => Never.bind (inside_put_pointers _ _ _) fun _ =>
    Never.bind (inside_put_fs_long _ _) fun _ => Never.bind (inside_put_pointers _ _ _) fun _ =>
    Never.bind (inside_put_fs_long _ _) fun _ => Never.pure _

theorem inside_clear_rest (n i : ℕ) : Inside (clear_rest n i) := by
  induction n generalizing i with
  | zero => exact Never.pure _
  | succ n ih =>
    exact Never.ite (Never.pure _) (Never.bind (inside_put_fs_byte 0 i) fun _ => ih (i + 1))

theorem inside_put_args (n : ℕ) : Inside (put_args n) := by
  induction n with
  | zero => exact Never.pure _
  | succ n ih =>
    refine Never.look fun k => ?_
    split
    · exact ih
    · exact Never.bind (inside_put_page _ _) fun _ => ih

theorem inside_close_files (n : ℕ) : Inside (close_files n) := by
  induction n with
  | zero => exact Never.pure _
  | succ n ih =>
    refine Never.bind ih fun _ => Never.look fun k => ?_
    split
    · exact Never.modify _
    · exact Never.pure _

end Inside

/-- The command returns 0, or stops inside of the array. -/
def Finishes (c : ExecM ℤ) : Prop := ∀ k, wp c (fun r _ => r = 0) (fun e _ => e ≠ .outside) k

theorem Finishes.bind {α : Type} {c : ExecM α} {f : α → ExecM ℤ} (hc : Inside c)
    (hf : ∀ r, Finishes (f r)) : Finishes (c >>= f) := by
  intro k
  rw [wp_bind]
  exact wp_mono (hc k) (fun r k' _ => hf r k') fun _ _ h => h

theorem Finishes.look {g : Kernel → ExecM ℤ} (h : ∀ k, Finishes (g k)) : Finishes (get >>= g) := by
  intro k
  rw [wp_bind, wp_get]
  exact h k k

theorem inside_change_ldt (text : ℕ) : Inside (change_ldt text) :=
  Never.bind (Never.modify _) fun _ => Never.bind (inside_put_args _) fun _ => Never.pure _

theorem finishes_install (x : Answers) (inode : Inode) (data : Space) (argc envc p e_uid e_gid : ℕ) :
    Finishes (install x inode data argc envc p e_uid e_gid) := by
  have hclose := inside_close_files NR_OPEN
  have hclear := inside_clear_rest PAGE_SIZE ((a_text data + a_data data) % 2 ^ 32)
  have hldt := inside_change_ldt (a_text data)
  rw [install]
  -- the lengths of the loops play no part
  generalize close_files NR_OPEN = close at hclose ⊢
  generalize clear_rest PAGE_SIZE ((a_text data + a_data data) % 2 ^ 32) = clear at hclear ⊢
  generalize change_ldt (a_text data) = ldt at hldt ⊢
  have hrest : Finishes (install_image x inode data argc envc p e_uid e_gid close clear ldt) := by
    rw [install_image]
    refine Finishes.bind (Never.modify _) fun _ => ?_
    refine Finishes.bind hclose fun _ => ?_
    refine Finishes.bind (Never.modify _) fun _ => ?_
    refine Finishes.look fun k => ?_
    refine Finishes.bind (inside_free_tables _) fun _ => ?_
    refine Finishes.bind (inside_free_tables _) fun _ => ?_
    refine Finishes.bind (Never.modify _) fun _ => ?_
    refine Finishes.bind hldt fun _ => ?_
    rw [install_tables]
    refine Finishes.bind (inside_create_tables _ _ _) fun _ => ?_
    refine Finishes.bind (Never.modify _) fun _ => ?_
    refine Finishes.bind hclear fun _ => ?_
    exact Finishes.bind (Never.modify _) fun _ _ => rfl
  refine Finishes.look fun k => ?_
  split
  · exact hrest
  · exact Finishes.bind (Never.modify _) fun _ => hrest

/-! ### A failed call -/

/-- If the call returns an error then nothing has changed, and it does not write outside of the
array. -/
def FailsClean (x : Answers) (a : Args) (k : Kernel) : Prop :=
  wp (do_execve x a) (fun r k' => r < 0 → Unchanged k k') (fun e _ => e ≠ .outside) k

theorem not_clean_of_outside
    (h : wp (do_execve x a) (fun _ _ => False) (fun e _ => e = .outside) k) : ¬FailsClean x a k := by
  intro hclean
  rw [FailsClean] at hclean
  rw [wp] at h hclean
  split at h
  · exact h
  · rename_i hrun
    rw [hrun] at hclean
    exact hclean h

/-- **A failed `execve` changes nothing** if the call ends before it copies its strings or they all have
room in the area; and with the strings in memory and a free frame for each page, only then. -/
theorem failed_execve_changes_nothing (B : Books others k.cleared) (hfs : k.fs = .user) :
    (StringsFit x a k → FailsClean x a k) ∧
    ∀ name args env, Present x a name args env k → 32 ≤ k.free → (FailsClean x a k ↔ StringsFit x a k) := by
  have hclean : StringsFit x a k → FailsClean x a k := by
    intro hfits
    refine wp_do_execve B hfs (fun r k' _ U _ => U) ?_ (fun _ _ he => he) fun inode b R hno _ => ?_
    · intro k0 inode data argc envc p e_uid e_gid k' _ _
      refine wp_mono (finishes_install x inode data argc.toNat envc p e_uid e_gid k') ?_ fun _ _ he => he
      intro r k' hr hneg
      omega
    · exact absurd (hfits inode b R) hno
  refine ⟨hclean, fun name args env I hfree => ⟨fun h => ?_, hclean⟩⟩
  exact strings_fit_of_not_outside B hfs I hfree fun hout => not_clean_of_outside hout h

theorem failed_execve_changes_nothing_caller :
    FailsClean script shortName caller ∧
    (FailsClean script longName caller ↔ StringsFit script longName caller) := by
  obtain ⟨s, -, hpresent⟩ := caller_present
  have hfree := caller_free
  exact ⟨(failed_execve_changes_nothing caller_books rfl).1 short_name_fits,
    (failed_execve_changes_nothing caller_books rfl).2 s [] [] hpresent (by omega)⟩

theorem caller_not_clean (hk : k = caller) : ¬FailsClean script longName k :=
  not_clean_of_outside (caller_outside hk)

/-- Without arguments and environment, and with a script of a name of 128 kB. -/
theorem long_name_is_not_clean : Books (fun _ => 0) caller.cleared ∧ caller.fs = .user ∧
    Caller caller.user longName.argv [] ∧ Caller caller.user longName.envp [] ∧
    ¬FailsClean script longName caller :=
  ⟨caller_books, rfl, .inl ⟨rfl, rfl⟩, .inl ⟨rfl, rfl⟩, caller_not_clean rfl⟩

end OldLinux.Exec
