import OldLinux.Exec.Machine

/-!
# The header of an executable file

`do_execve` compares two sums of sizes from the header with their bounds, and the sums are computed
modulo 2^32.  What a task gets from an accepted header is within the bounds exactly if neither of the
sums has reached 2^32.
-/

namespace OldLinux.Exec

open Lib

variable {x : Answers} {a : Args} {inode : Inode} {data : Space} {t : Task} {k k' : Kernel}

/-! ### The task while its memory is filled -/

section SameTask

/-- The task is this one. -/
abbrev TaskIs (t : Task) (k : Kernel) : Prop := k.task = t

theorem same_get_free_page (t : Task) : Leaves (TaskIs t) get_free_page := by
  refine Leaves.look fun k _ => ?_
  split
  · exact Leaves.pure _
  · exact Leaves.bind (Leaves.modify fun _ h => h) fun _ => Leaves.pure _

theorem same_free_page (t : Task) (f : ℕ) : Leaves (TaskIs t) (free_page f) := by
  refine Leaves.look fun k _ => Leaves.ite (fun _ => Leaves.pure _) fun _ => ?_
  exact Leaves.ite (fun _ => Leaves.throw _) fun _ => Leaves.modify fun _ h => h

theorem same_page_table (t : Task) (u : ℕ) : Leaves (TaskIs t) (page_table u) := by
  refine Leaves.look fun k _ => ?_
  split
  · exact Leaves.pure _
  · refine Leaves.bind (same_get_free_page t) fun r => ?_
    cases r with
    | none => exact Leaves.pure _
    | some f => exact Leaves.bind (Leaves.modify fun _ h => h) fun _ => Leaves.pure _

theorem same_put_page (t : Task) (f u : ℕ) : Leaves (TaskIs t) (put_page f u) := by
  refine Leaves.bind (same_page_table t u) fun _ => Leaves.ite (fun _ => ?_) fun _ => Leaves.pure _
  exact Leaves.bind (Leaves.modify fun _ h => h) fun _ => Leaves.pure _

theorem same_do_no_page (t : Task) (u : ℕ) : Leaves (TaskIs t) (do_no_page u) := by
  refine Leaves.look fun k _ => ?_
  split
  · exact Leaves.bind (same_page_table t u) fun _ =>
      Leaves.ite (fun _ => Leaves.modify fun _ h => h) fun _ => Leaves.throw _
  · refine Leaves.bind (same_get_free_page t) fun r => ?_
    cases r with
    | none => exact Leaves.throw _
    | some f =>
      refine Leaves.bind (Leaves.modify fun _ h => h) fun _ => Leaves.bind (same_put_page t f u) fun _ => ?_
      exact Leaves.ite (fun _ => Leaves.pure _) fun _ =>
        Leaves.bind (same_free_page t f) fun _ => Leaves.throw _

theorem same_put_fs_byte (t : Task) (v a : ℕ) : Leaves (TaskIs t) (put_fs_byte v a) := by
  refine Leaves.bind (Leaves.look fun k _ => Leaves.ite (fun _ => Leaves.throw _) fun _ => ?_)
    fun _ => Leaves.look fun k _ => ?_
  · split
    · exact Leaves.pure _
    · exact same_do_no_page t _
  · split
    · exact Leaves.modify fun _ h => h
    · exact Leaves.pure _

theorem same_clear_rest (t : Task) (n i : ℕ) : Leaves (TaskIs t) (clear_rest n i) := by
  induction n generalizing i with
  | zero => exact Leaves.pure _
  | succ n ih =>
    exact Leaves.ite (fun _ => Leaves.pure _) fun _ =>
      Leaves.bind (same_put_fs_byte t 0 i) fun _ => ih (i + 1)

end SameTask

/-! ### What a new program has -/

/-- The file whose header is checked: the first one that is looked up, or the interpreter of a script. -/
def executed (x : Answers) : Option (Inode × Space) :=
  match x.inode 0, x.block 0 with
  | some inode, some b =>
    if b.2 0 = 35 ∧ b.2 1 = 33 then
      match x.inode 1, x.block 1 with
      | some inode, some b => some (inode, b.2)
      | _, _ => none
    else some (inode, b.2)
  | _, _ => none

/-- The sizes of the task are those of the header. -/
structure Sized (data : Space) (t : Task) : Prop where
  code : t.end_code = a_text data
  end_data : t.end_data = (a_data data + a_text data) % 2 ^ 32
  brk : t.brk = (a_bss data + a_data data + a_text data) % 2 ^ 32

/-- A success comes from the header of this file. -/
def From (inode : Inode) (data : Space) (r : ℤ) (k : Kernel) : Prop :=
  r = 0 → goodHeader inode data = true ∧ Sized data k.task

theorem triple_any {α : Type} {P : Kernel → Prop} (c : ExecM α) : Triple P c fun _ _ => True := by
  intro k _
  unfold wp
  split <;> trivial

/-- An error is no success. -/
theorem from_error {r : ℤ} (hr : r ≠ 0) : Triple (fun _ => True) (exec_error1 r) (From inode data) :=
  TripleOr.bind (triple_any _) fun _ _ _ h => absurd h hr

theorem from_error2 {i : Inode} {r : ℤ} (hr : r ≠ 0) :
    Triple (fun _ => True) (exec_error2 i r) (From inode data) :=
  TripleOr.bind (triple_any _) fun _ => from_error hr

theorem from_install (hgood : goodHeader inode data = true) (argc envc p e_uid e_gid : ℕ) :
    Triple (fun _ => True) (install x inode data argc envc p e_uid e_gid) (From inode data) := by
  have hrest : Triple (fun _ => True) (install_image x inode data argc envc p e_uid e_gid (close_files NR_OPEN)
      (clear_rest PAGE_SIZE ((a_text data + a_data data) % 2 ^ 32)) (change_ldt (a_text data)))
      (From inode data) := by
    rw [install_image]
    refine TripleOr.bind (triple_any _) fun _ => TripleOr.bind (triple_any _) fun _ => ?_
    refine TripleOr.bind (triple_any _) fun _ => TripleOr.look fun k => ?_
    refine TripleOr.bind (triple_any _) fun _ => TripleOr.bind (triple_any _) fun _ => ?_
    refine TripleOr.bind (triple_any _) fun _ => TripleOr.bind (triple_any _) fun limit => ?_
    rw [install_tables]
    refine TripleOr.bind (triple_any _) fun p' => ?_
    refine TripleOr.bind (M := fun _ k => Sized data k.task) (fun k _ => ⟨rfl, rfl, rfl⟩) fun _ => ?_
    refine TripleOr.bind (M := fun _ k => Sized data k.task) (fun k hsized => ?_) fun _ => ?_
    · refine wp_mono (same_clear_rest k.task PAGE_SIZE _ k rfl) (fun _ k' hk => ?_) fun _ _ _ => trivial
      rw [show k'.task = k.task from hk]
      exact hsized
    · exact TripleOr.bind (M := fun _ k => Sized data k.task) (fun k h => by rw [wp_modify]; exact h)
        fun _ k h _ => ⟨hgood, h⟩
  refine TripleOr.look fun k => ?_
  split
  · exact hrest
  · exact TripleOr.bind (M := fun _ _ => True) (fun _ _ => trivial) fun _ => hrest

theorem from_run_binary {b : ℕ × Space} (argc : ℤ) (envc p : ℕ) (sh_bang : Bool) (e_uid e_gid : ℕ) :
    Triple (fun _ => True) (run_binary x a inode b argc envc p sh_bang e_uid e_gid) (From inode b.2) := by
  refine TripleOr.bind (triple_any _) fun _ => TripleOr.ite (fun _ => from_error2 (by decide)) fun hgood => ?_
  have hgood : goodHeader inode b.2 = true := by simpa using hgood
  refine TripleOr.ite (fun _ => from_install hgood _ _ _ _ _) fun _ => ?_
  refine TripleOr.bind (triple_any _) fun _ => TripleOr.bind (triple_any _) fun _ => ?_
  exact TripleOr.ite (fun _ => from_error2 (by decide)) fun _ => from_install hgood _ _ _ _ _

/-- The result of a success is that of the file `executed` says. -/
def FromExecuted (x : Answers) (r : ℤ) (k : Kernel) : Prop :=
  r = 0 → ∃ inode data, executed x = some (inode, data) ∧ goodHeader inode data = true ∧ Sized data k.task

theorem executed_error {r : ℤ} (hr : r ≠ 0) : Triple (fun _ => True) (exec_error1 r) (FromExecuted x) :=
  TripleOr.bind (triple_any _) fun _ _ _ h => absurd h hr

theorem executed_error2 {i : Inode} {r : ℤ} (hr : r ≠ 0) :
    Triple (fun _ => True) (exec_error2 i r) (FromExecuted x) :=
  TripleOr.bind (triple_any _) fun _ => executed_error hr

/-- What is known of a value is no matter of the state. -/
theorem triple_fact {α : Type} {h : Prop} {c : ExecM α} {Q : α → Kernel → Prop}
    (hc : h → Triple (fun _ => True) c Q) : Triple (fun _ => h) c Q := fun k hk => hc hk k trivial

theorem answered_bread (n : ℕ) : Triple (fun _ => True) (bread x n) fun r _ => r = x.block n := by
  intro k _
  rw [bread]
  split
  · rename_i h
    exact h.symm
  · rename_i b h
    exact h.symm

theorem answered_namei (n name : ℕ) : Triple (fun _ => True) (namei x n name) fun r _ => r = x.inode n := by
  refine TripleOr.bind (triple_any _) fun _ k _ => ?_
  split
  · rename_i h
    exact h.symm
  · rename_i i h
    exact h.symm

theorem From.executed {r : ℤ} (h : From inode data r k) (hx : executed x = some (inode, data)) :
    FromExecuted x r k := fun hr => ⟨inode, data, hx, h hr⟩

/-- The end of `run_script`, from the name of the interpreter on. -/
def script_tail (x : Answers) (line : Line) (argc : ℤ) (f : Inode → ℤ → ℕ → ExecM ℤ) (p : ℕ) : ExecM ℤ := do
  let p ← copy_strings 1 (.pointer (bufAddress + line.i_name)) p 2
  if p = 0 then exec_error1 (-12)
  else do
    let k ← get
    set_fs .kernel
    match ← namei x 1 (bufAddress + line.interp) with
    | none => do
        set_fs k.fs
        exec_error1 (-2)
    | some inode => do
        set_fs k.fs
        f inode (argc - 1 + 1 + (if line.i_arg.isSome then 1 else 0) + 1) p

theorem executed_script {b : ℕ × Space} {f : Inode → ℤ → ℕ → ExecM ℤ} (argc : ℤ) (envc p : ℕ)
    (hf : ∀ i argc p, x.inode 1 = some i → Triple (fun _ => True) (f i argc p) (FromExecuted x)) :
    Triple (fun _ => True) (run_script x a inode b argc envc p f) (FromExecuted x) := by
  refine TripleOr.bind (triple_any _) fun _ => TripleOr.bind (triple_any _) fun _ => ?_
  split
  · exact executed_error (by decide)
  rename_i line _
  refine TripleOr.bind (triple_any _) fun _ => TripleOr.bind (triple_any _) fun _ => ?_
  refine TripleOr.bind (triple_any _) fun _ => TripleOr.bind (triple_any _) fun _ => ?_
  have htail : ∀ p, Triple (fun _ => True) (script_tail x line argc f p) (FromExecuted x) := by
    intro p
    rw [script_tail]
    refine TripleOr.bind (triple_any _) fun p => ?_
    refine TripleOr.ite (fun _ => executed_error (by decide)) fun _ => TripleOr.look fun k => ?_
    refine TripleOr.bind (triple_any _) fun _ => ?_
    refine TripleOr.bind (answered_namei 1 _) fun r => triple_fact fun hr => ?_
    cases r with
    | none => exact TripleOr.bind (triple_any _) fun _ => executed_error (by decide)
    | some i => exact TripleOr.bind (triple_any _) fun _ => hf i _ p hr.symm
  dsimp only
  split
  · exact TripleOr.bind (triple_any _) htail
  · exact TripleOr.bind (triple_any _) htail

theorem executed_file (argc : ℤ) (envc p n : ℕ) (interpret : Option (Inode → ℤ → ℕ → ExecM ℤ))
    (hbinary : ∀ b, x.block n = some b → (interpret.isSome = true → ¬(b.2 0 = 35 ∧ b.2 1 = 33)) →
      executed x = some (inode, b.2))
    (hscript : ∀ f b, interpret = some f → x.block n = some b → b.2 0 = 35 ∧ b.2 1 = 33 → ∀ i argc p,
      x.inode 1 = some i → Triple (fun _ => True) (f i argc p) (FromExecuted x)) :
    Triple (fun _ => True) (restart_interp x a n inode argc envc p interpret) (FromExecuted x) := by
  refine TripleOr.look fun k => ?_
  refine TripleOr.ite (fun _ => executed_error2 (by decide)) fun _ => ?_
  refine TripleOr.ite (fun _ => executed_error2 (by decide)) fun _ => ?_
  refine TripleOr.bind (answered_bread n) fun r => triple_fact fun hr => ?_
  cases r with
  | none => exact executed_error2 (by decide)
  | some b =>
    cases interpret with
    | none =>
      refine TripleOr.post (from_run_binary argc envc p true _ _) fun _ _ h => ?_
      exact h.executed (hbinary b hr.symm fun h => absurd h Bool.false_ne_true)
    | some f =>
      refine TripleOr.ite (fun hb => ?_) fun hb => ?_
      · exact executed_script argc envc p (hscript f b rfl hr.symm hb)
      · refine TripleOr.post (from_run_binary argc envc p false _ _) fun _ _ h => ?_
        exact h.executed (hbinary b hr.symm fun _ => hb)

theorem executed_do_execve : Triple (fun _ => True) (do_execve x a) (FromExecuted x) := by
  refine TripleOr.look fun k => TripleOr.ite (fun _ => Triple.throw) fun _ => ?_
  refine TripleOr.bind (triple_any _) fun _ => ?_
  refine TripleOr.bind (answered_namei 0 _) fun r => triple_fact fun hr => ?_
  cases r with
  | none => exact fun _ _ h => absurd h (by decide)
  | some inode =>
    refine TripleOr.bind (triple_any _) fun argc => TripleOr.bind (triple_any _) fun envc => ?_
    refine executed_file argc envc _ 0 _ (fun b hb hno => ?_) fun f b hf hb hscript i argc p hi => ?_
    · rw [executed, ← hr, hb]
      exact if_neg (hno rfl)
    · cases hf
      refine executed_file argc envc p 1 none (fun b' hb' _ => ?_) fun f _ hf => by cases hf
      rw [executed, ← hr, hb]
      show (if b.2 0 = 35 ∧ b.2 1 = 33 then _ else _) = _
      rw [if_pos hscript, hi, hb']

/-! ### The bounds -/

/-- The sums of the sizes, as numbers. -/
structure Bounded (inode : Inode) (data : Space) : Prop where
  memory : a_text data + a_data data + a_bss data ≤ 0x3000000
  file : 1024 + a_text data + a_data data + a_syms data ≤ inode.i_size

/-- The sizes of a task are in order and within bounds. -/
structure Task.Sane (t : Task) : Prop where
  code : t.end_code ≤ t.end_data
  data : t.end_data ≤ t.brk
  brk : t.brk ≤ 0x3000000

/-- If the header is accepted then it is within the bounds, and so is a task that executes the file. -/
def StaysSane (inode : Inode) (data : Space) : Prop :=
  goodHeader inode data = true → Bounded inode data ∧ ∀ x a k k', executed x = some (inode, data) →
    do_execve x a k = .ok 0 k' → k'.task.Sane

/-- Neither of the sums that are compared reaches 2^32. -/
def NoWrap (data : Space) : Prop :=
  a_text data + a_data data + a_bss data < 2 ^ 32 ∧ a_text data + a_data data + a_syms data + 1024 < 2 ^ 32

theorem Bounded.noWrap (h : Bounded inode data) (hsize : inode.i_size < 2 ^ 32) : NoWrap data := by
  obtain ⟨h1, h2⟩ := h
  exact ⟨by omega, by omega⟩

theorem bounded_of_noWrap (hgood : goodHeader inode data = true) (h : NoWrap data) : Bounded inode data := by
  obtain ⟨-, -, -, h1, h2⟩ := of_decide_eq_true hgood
  rw [Nat.mod_eq_of_lt h.1] at h1
  rw [Nat.mod_eq_of_lt h.2] at h2
  exact ⟨h1, by omega⟩

theorem Sized.sane (h : Sized data t) (hb : a_text data + a_data data + a_bss data ≤ 0x3000000) : t.Sane := by
  obtain ⟨h1, h2, h3⟩ := h
  rw [Nat.mod_eq_of_lt (by omega)] at h2 h3
  exact ⟨by omega, by omega, by omega⟩

/-- **An accepted header is sane** exactly if the sums that `do_execve` compares do not wrap around. -/
theorem accepted_header_sane (hsize : inode.i_size < 2 ^ 32) :
    StaysSane inode data ↔ (goodHeader inode data = true → NoWrap data) := by
  constructor
  · intro h hgood
    exact (h hgood).1.noWrap hsize
  · intro h hgood
    have hbounded := bounded_of_noWrap hgood (h hgood)
    refine ⟨hbounded, fun x a k k' hx hrun => ?_⟩
    have hfrom := executed_do_execve (x := x) (a := a) k trivial
    rw [wp_of_ok hrun] at hfrom
    obtain ⟨inode', data', hx', -, hsized⟩ := hfrom rfl
    cases hx.symm.trans hx'
    exact hsized.sane hbounded.memory

/-- A page of text. -/
def oneText : Space := fun i => [0x0b, 1, 0, 0, 0, 0x10].getD i 0

/-- The same, and uninitialised data of 2^32 - 4096 bytes. -/
def hugeBss : Space := fun i => [0x0b, 1, 0, 0, 0, 0x10, 0, 0, 0, 0, 0, 0, 0, 0xf0, 0xff, 0xff].getD i 0

theorem accepted_header_sane_text :
    StaysSane ⟨1, 0o100755, 0, 0, 0x1400⟩ oneText ↔
    (goodHeader ⟨1, 0o100755, 0, 0, 0x1400⟩ oneText = true → NoWrap oneText) :=
  accepted_header_sane (by decide)

theorem huge_bss_accepted : goodHeader ⟨1, 0o100755, 0, 0, 0x1400⟩ hugeBss = true ∧
    ¬StaysSane ⟨1, 0o100755, 0, 0, 0x1400⟩ hugeBss := by
  have hgood : goodHeader ⟨1, 0o100755, 0, 0, 0x1400⟩ hugeBss = true := by decide
  refine ⟨hgood, fun h => ?_⟩
  have hmemory := (h hgood).1.memory
  revert hmemory
  decide

end OldLinux.Exec
