import OldLinux.Files.Counts
import OldLinux.Syscalls.Calls

/-!
# What the file table points to

An entry of the file table with a reference points to its inode.  Each function that changes descriptors
either leaves these pointers as they are, or takes away the pointer of the file whose last descriptor it
closes, or sets the pointers of the files that the call has reserved for itself.
-/

namespace OldLinux.Syscalls

open Function Lib Files

variable {σ τ : Table} {P Q : Fin 64} {t t' : Task} {f g : Fin 64} {fd : Fin 20} {pc next : Pc}
variable {held : List (Fin 32)}

/-- What an entry of the file table points to. -/
def filePtr (σ : Table) (f : Fin 64) : Option (Fin 32) :=
  if σ.count f = 0 then none else inodeOf (σ.file f)

theorem filePtr_of_zero (hf : σ.count f = 0) : filePtr σ f = none := if_pos hf

theorem filePtr_of_pos (hf : σ.count f ≠ 0) : filePtr σ f = inodeOf (σ.file f) := if_neg hf

theorem filePtr_congr (h : τ.file = σ.file) : filePtr τ = filePtr σ := by
  funext f
  rw [filePtr, filePtr, Table.count, Table.count, h]

theorem filePtr_set : filePtr (σ.set P t) = filePtr σ := rfl

theorem filePtr_setFile (x : File) : filePtr (σ.setFile f x) =
    update (filePtr σ) f (if x.count = 0 then none else inodeOf x) := by
  funext g
  rw [filePtr, Table.setFile_count, update_apply]
  show (if _ then none else inodeOf (update σ.file f x g)) = _
  rw [update_apply]
  by_cases hg : g = f
  · simp only [if_pos hg]
  · simp only [if_neg hg]
    rfl

theorem filePtr_setCount (n : ℕ) : filePtr (σ.setCount f n) =
    update (filePtr σ) f (if n = 0 then none else inodeOf (σ.file f)) := filePtr_setFile _

theorem filePtr_setCount_zero : filePtr (σ.setCount f 0) = update (filePtr σ) f none :=
  filePtr_setCount 0

/-- Another reference to an open file. -/
theorem filePtr_setCount_pos {n : ℕ} (hf : σ.count f ≠ 0) (hn : n ≠ 0) :
    filePtr (σ.setCount f n) = filePtr σ := by
  rw [filePtr_setCount, if_neg hn, ← filePtr_of_pos hf, update_eq_self]

theorem filePtr_up (h : σ.count f + 1 < 65536) (hf : σ.count f ≠ 0) : filePtr (σ.up f) = filePtr σ := by
  refine filePtr_setCount_pos hf ?_
  show (σ.count f + 1) % 65536 ≠ 0
  omega

theorem filePtr_down_last (hf : σ.count f = 1) : filePtr (σ.down f) = update (filePtr σ) f none := by
  rw [← Table.down_of_one hf]
  exact filePtr_setCount_zero

theorem filePtr_down (h : σ.count f < 65536) (hf : 1 < σ.count f) : filePtr (σ.down f) = filePtr σ := by
  refine filePtr_setCount_pos (by omega) ?_
  show (σ.count f + 65535) % 65536 ≠ 0
  omega

/-- The files that a call has reserved, which point to nothing yet. -/
def reservedFiles : Pc → List (Fin 64)
  | .opening _ f _ => [f]
  | .piping _ _ f₀ f₁ => [f₀, f₁]
  | _ => []

/-- What the file table points to while one process is at `pc` and all others are between two calls. -/
def filesOf (pc : Pc) (σ : Table) (f : Fin 64) : Option (Fin 32) :=
  if f ∈ reservedFiles pc then none else filePtr σ f

theorem filesOf_nil (h : reservedFiles pc = []) : filesOf pc σ = filePtr σ := by
  funext f
  rw [filesOf, h, if_neg List.not_mem_nil]

/-! ### Calls that change no pointer -/

/-- A task that is not there any more. -/
def Gone (σ : Table) (Q : Fin 64) : Prop := ∀ t, σ.task Q = some t → t.pc = .zombie

/-- Process `P` goes from `pc` to `next`, and the file table points to the same inodes. -/
structure Turn (P : Fin 64) (pc next : Pc) (σ τ : Table) : Prop where
  sound : τ.Sound
  here : ∃ t, τ.task P = some t ∧ t.pc = next
  gone : ∀ Q, Gone τ Q → Gone σ Q
  files : filesOf next τ = filesOf pc σ

/-- Only the process in slot `P` has changed, and it is still there. -/
theorem gone_of_update {u : Task} (htask : τ.task = update σ.task P (some u))
    (hpc : u.pc ≠ .zombie) (Q : Fin 64) (h : Gone τ Q) : Gone σ Q := by
  intro w hw
  by_cases hQ : Q = P
  · rw [hQ] at h
    refine absurd (h u ?_) hpc
    rw [htask, update_self]
  · refine h w ?_
    rw [htask, update_of_ne hQ, hw]

theorem Turn.of_update (hτ : τ.Sound) (htask : τ.task = update σ.task P (some t'))
    (hpc : t'.pc = next) (hnext : next ≠ .zombie) (hfiles : filesOf next τ = filesOf pc σ) :
    Turn P pc next σ τ := by
  refine ⟨hτ, ⟨t', ?_, hpc⟩, gone_of_update htask (hpc ▸ hnext), hfiles⟩
  rw [htask, update_self]

/-- One more descriptor for a file that the process has. -/
theorem filePtr_up_of_filp (h : σ.Sound) (ht : σ.task P = some t) (hfd : t.filp fd = some f) :
    filePtr (σ.up f) = filePtr σ := by
  have hle := h.count_le f
  exact filePtr_up (by omega) (Nat.ne_of_gt (h.count_pos ht hfd))

theorem returns_turn (h : σ.Sound) (ht : σ.task P = some t) (ret : ℤ) :
    Turn P .user .user σ (σ.set P (t.returns ret)) := by
  refine Turn.of_update ?_ rfl rfl (fun h => (by cases h)) rfl
  exact h.still ht rfl rfl rfl rfl (Task.fine_returns (h.fine P t ht).bits _)

/-- `dupfd` is called from `sys_dup2` too, after the other descriptor was closed. -/
theorem dupfd_turn (h : σ.Sound) (ht : σ.task P = some t) (hpc : reservedFiles pc = []) (fd arg : ℕ) :
    Turn P pc .user σ (σ.dupfd P t fd arg) := by
  have hsound := Table.dupfd_sound h ht fd arg
  have hsame : ∃ t', (σ.dupfd P t fd arg).task = update σ.task P (some t') ∧ t'.pc = .user ∧
      filePtr (σ.dupfd P t fd arg) = filePtr σ := by
    rw [Table.dupfd]
    split
    · split
      · exact ⟨_, rfl, rfl, rfl⟩
      · rename_i f hf
        split
        · exact ⟨_, rfl, rfl, rfl⟩
        · split
          · exact ⟨_, rfl, rfl, rfl⟩
          · exact ⟨_, rfl, rfl, filePtr_up_of_filp h ht hf⟩
    · exact ⟨_, rfl, rfl, rfl⟩
  obtain ⟨t', htask, ht', hfiles⟩ := hsame
  refine Turn.of_update hsound htask ht' (fun h => (by cases h)) ?_
  rw [filesOf_nil rfl, filesOf_nil hpc, hfiles]

theorem sysFcntl_turn (h : σ.Sound) (ht : σ.task P = some t) (fd cmd arg : ℕ) :
    Turn P .user .user σ (σ.sysFcntl P t fd cmd arg) := by
  have hsound := Table.sysFcntl_sound h ht fd cmd arg
  have hreturns : ∀ ret, Turn P .user .user σ (σ.set P (t.returns ret)) := returns_turn h ht
  revert hsound
  rw [Table.sysFcntl]
  split
  · split
    · exact fun _ => hreturns _
    · rename_i f hf
      split
      · exact fun _ => dupfd_turn h ht rfl fd arg
      · exact fun _ => hreturns _
      · split
        · exact fun hsound => Turn.of_update hsound rfl rfl (fun h => (by cases h)) rfl
        · exact fun hsound => Turn.of_update hsound rfl rfl (fun h => (by cases h)) rfl
      · exact fun _ => hreturns _
      · intro hsound
        refine Turn.of_update hsound rfl rfl (fun h => (by cases h)) ?_
        rw [filesOf_nil rfl, filesOf_nil rfl, filePtr_set, filePtr_setFile]
        have hpos := h.count_pos ht hf
        rw [if_neg (show ¬(σ.file f).count = 0 from Nat.ne_of_gt hpos)]
        refine update_eq_self_iff.2 ?_
        rw [filePtr_of_pos (Nat.ne_of_gt hpos)]
        rfl
      · exact fun _ => hreturns _
  · exact fun _ => hreturns _

/-- The loop of `copy_process` counts files that are open. -/
theorem countFiles_filePtr (fds : List (Fin 20)) : ∀ σ : Table,
    (∀ fd f, t.filp fd = some f → σ.count f ≠ 0 ∧ σ.count f + fds.length < 65536) →
      filePtr (σ.countFiles t fds) = filePtr σ := by
  induction fds with
  | nil => exact fun _ _ => rfl
  | cons fd fds ih =>
    intro σ h
    rw [Table.countFiles, List.foldl_cons]
    cases hfd : t.filp fd with
    | none =>
      refine ih σ ?_
      intro i f hi
      have := h i f hi
      rw [List.length_cons] at this
      exact ⟨this.1, by omega⟩
    | some f =>
      obtain ⟨hpos, hlt⟩ := h fd f hfd
      rw [List.length_cons] at hlt
      refine (ih (σ.up f) ?_).trans (filePtr_up (by omega) hpos)
      intro i g hi
      have := h i g hi
      rw [List.length_cons] at this
      rw [Table.up_count]
      split
      · omega
      · exact ⟨this.1, by omega⟩

theorem sysFork_turn (h : σ.Sound) (ht : σ.task P = some t) (hpc : t.pc = .user) (pid : ℤ)
    (memory : Bool) : Turn P .user .user σ (σ.sysFork P t pid memory) := by
  have hsound := Table.sysFork_sound h ht hpc pid memory
  revert hsound
  rw [Table.sysFork]
  split
  · exact fun _ => returns_turn h ht _
  · rename_i nr hnr
    split
    · intro hsound
      have hgone : ∀ Q, Gone (((σ.set nr (t.returns 0)).countFiles t (List.finRange 20)).set P
          (t.returns pid)) Q → Gone (σ.set nr (t.returns 0)) Q :=
        gone_of_update (u := t.returns pid) (congrArg (update · P _)
          (Table.countFiles_task (List.finRange 20)).1) (fun h => (by cases h))
      refine ⟨hsound, ⟨_, Table.set_task_self, rfl⟩, ?_, ?_⟩
      · intro Q hQ
        exact gone_of_update (u := t.returns 0) rfl (fun h => (by cases h)) Q (hgone Q hQ)
      · rw [filesOf_nil rfl, filesOf_nil rfl, filePtr_set]
        refine (countFiles_filePtr _ _ ?_).trans filePtr_set
        intro fd f hfd
        have hle := h.count_le f
        rw [Table.set_count, List.length_finRange]
        exact ⟨Nat.ne_of_gt (h.count_pos ht hfd), by omega⟩
    · exact fun _ => returns_turn h ht _

/-! ### Calls that change pointers -/

/-- `sys_open` reserves a file, or comes back with an error. -/
theorem sysOpen_turn (h : σ.Sound) (ht : σ.task P = some t) (flag : ℕ) : ∃ next,
    Turn P .user next σ (σ.sysOpen P t flag) ∧ (next = .user ∨ ∃ fd f, next = .opening fd f flag) := by
  have hsound := Table.sysOpen_sound h ht flag
  revert hsound
  rw [Table.sysOpen]
  split
  · exact fun _ => ⟨.user, returns_turn h ht _, Or.inl rfl⟩
  · rename_i fd fds hfds
    split
    · exact fun hsound => ⟨.user, Turn.of_update hsound rfl rfl (fun h => (by cases h)) rfl, Or.inl rfl⟩
    · rename_i f fs hfs
      intro hsound
      have hf : σ.count f = 0 := Table.mem_freeFiles (by rw [hfs]; exact List.mem_cons_self)
      refine ⟨.opening fd f flag, ?_, Or.inr ⟨fd, f, rfl⟩⟩
      refine Turn.of_update hsound rfl rfl (fun h => (by cases h)) ?_
      funext g
      rw [filesOf, filesOf_nil rfl, filePtr_set]
      split
      · rename_i hg
        rw [List.mem_singleton.1 hg, filePtr_of_zero hf]
      · rename_i hg
        rw [Table.up, filePtr_setCount, update_of_ne]
        exact fun hg' => hg (List.mem_singleton.2 hg')

theorem filesOf_opening (flag : ℕ) : filesOf (.opening fd f flag) σ = update (filePtr σ) f none := by
  funext g
  rw [filesOf, update_apply]
  simp only [reservedFiles, List.mem_singleton]

theorem opened_error_turn (h : σ.Sound) (ht : σ.task P = some t) {flag : ℕ}
    (hpc : t.pc = .opening fd f flag) (e : ℕ) :
    Turn P (.opening fd f flag) .user σ (σ.opened P t fd f flag (.error e)) := by
  refine Turn.of_update (Table.opened_sound h ht hpc _) rfl rfl (fun h => (by cases h)) ?_
  rw [filesOf_opening, filesOf_nil rfl, ← filePtr_setCount_zero]
  rfl

theorem inodeOf_val {x : File} {i : Fin 32} (h : x.inode = some i.val) : inodeOf x = some i := by
  rw [inodeOf, h, Option.bind_some, dif_pos i.isLt]

/-- The file of `sys_open` gets its inode. -/
theorem opened_files {flag mode : ℕ} (i : Fin 32) : filePtr (σ.opened P t fd f flag (.ok (i.val, mode))) =
      update (filesOf (.opening fd f flag) σ) f (some i) := by
  rw [filesOf_opening, update_idem]
  refine (filePtr_setFile _).trans ?_
  rw [if_neg Nat.one_ne_zero, inodeOf_val rfl]

/-- `sys_pipe` reserves two files, or comes back with an error. -/
theorem sysPipe_turn (h : σ.Sound) (ht : σ.task P = some t) : ∃ next, Turn P .user next σ (σ.sysPipe P t) ∧
      (next = .user ∨ ∃ fd₀ fd₁ f₀ f₁, next = .piping fd₀ fd₁ f₀ f₁ ∧ f₀ ≠ f₁) := by
  have hsound := Table.sysPipe_sound h ht
  have hfree : ∀ f, f ∈ σ.freeFiles → filePtr σ f = none :=
    fun f hf => filePtr_of_zero (Table.mem_freeFiles hf)
  revert hsound
  rw [Table.sysPipe]
  split
  · rename_i f₀ f₁ fs hfs
    have hf₀ : filePtr σ f₀ = none := hfree f₀ (by rw [hfs]; simp)
    have hf₁ : filePtr σ f₁ = none := hfree f₁ (by rw [hfs]; simp)
    have hback : filePtr ((((σ.up f₀).up f₁).setCount f₀ 0).setCount f₁ 0) = filePtr σ := by
      funext g
      rw [filePtr_setCount_zero, filePtr_setCount_zero, Table.up, filePtr_setCount, Table.up, filePtr_setCount]
      simp only [update_apply]
      by_cases h₁ : g = f₁
      · rw [if_pos h₁, h₁, hf₁]
      · by_cases h₀ : g = f₀
        · rw [if_neg h₁, if_pos h₀, h₀, hf₀]
        · simp only [if_neg h₁, if_neg h₀]
    simp only
    split
    · rename_i fd₀ fd₁ fds hfds
      intro hsound
      refine ⟨_, ?_, Or.inr ⟨fd₀, fd₁, f₀, f₁, rfl, Table.ne_of_freeFiles hfs⟩⟩
      refine Turn.of_update hsound rfl rfl (fun h => (by cases h)) ?_
      funext g
      rw [filesOf, filesOf_nil rfl, filePtr_set]
      simp only [reservedFiles, List.mem_cons, List.not_mem_nil, or_false]
      split
      · rename_i hg
        rcases hg with rfl | rfl
        · exact hf₀.symm
        · exact hf₁.symm
      · rename_i hg
        rw [not_or] at hg
        rw [Table.up, filePtr_setCount, update_of_ne hg.2, Table.up, filePtr_setCount, update_of_ne hg.1]
    · intro hsound
      refine ⟨.user, Turn.of_update hsound rfl rfl (fun h => (by cases h)) ?_, Or.inl rfl⟩
      rw [filesOf_nil rfl, filesOf_nil rfl, filePtr_set, hback]
    · intro hsound
      refine ⟨.user, Turn.of_update hsound rfl rfl (fun h => (by cases h)) ?_, Or.inl rfl⟩
      rw [filesOf_nil rfl, filesOf_nil rfl, filePtr_set, hback]
  · rename_i f₀ hfs
    intro hsound
    refine ⟨.user, Turn.of_update hsound rfl rfl (fun h => (by cases h)) ?_, Or.inl rfl⟩
    rw [filesOf_nil rfl, filesOf_nil rfl, filePtr_set, filePtr_setCount_zero, Table.up,
      filePtr_setCount, update_idem]
    refine update_eq_self_iff.2 ?_
    exact (hfree f₀ (by rw [hfs]; simp)).symm
  · exact fun _ => ⟨.user, returns_turn h ht _, Or.inl rfl⟩

theorem filesOf_piping (fd₀ fd₁ : Fin 20) (f₀ f₁ : Fin 64) : filesOf (.piping fd₀ fd₁ f₀ f₁) σ =
    update (update (filePtr σ) f₀ none) f₁ none := by
  funext g
  rw [filesOf, update_apply, update_apply]
  simp only [reservedFiles, List.mem_cons, List.not_mem_nil, or_false]
  by_cases h₁ : g = f₁
  · rw [if_pos (Or.inr h₁), if_pos h₁]
  · by_cases h₀ : g = f₀
    · rw [if_pos (Or.inl h₀), if_neg h₁, if_pos h₀]
    · rw [if_neg (not_or.2 ⟨h₀, h₁⟩), if_neg h₁, if_neg h₀]

theorem piped_none_turn (h : σ.Sound) (ht : σ.task P = some t) {fd₀ fd₁ : Fin 20} {f₀ f₁ : Fin 64}
    (hpc : t.pc = .piping fd₀ fd₁ f₀ f₁) :
    Turn P (.piping fd₀ fd₁ f₀ f₁) .user σ (σ.piped P t fd₀ fd₁ f₀ f₁ none) := by
  refine Turn.of_update (Table.piped_sound h ht hpc none) rfl rfl (fun h => (by cases h)) ?_
  rw [filesOf_piping, filesOf_nil rfl, ← filePtr_setCount_zero, ← filePtr_setCount_zero]
  rfl

/-- Both files of the pipe get its inode. -/
theorem piped_files (h : σ.Sound) (ht : σ.task P = some t) {fd₀ fd₁ : Fin 20} {f₀ f₁ : Fin 64}
    (hpc : t.pc = .piping fd₀ fd₁ f₀ f₁) (hf : f₀ ≠ f₁) (i : Fin 32) :
    filePtr (σ.piped P t fd₀ fd₁ f₀ f₁ (some i.val)) =
      update (update (filesOf (.piping fd₀ fd₁ f₀ f₁) σ) f₀ (some i)) f₁ (some i) := by
  have hF := h.fine P t ht
  have hres : t.reserved = [(fd₀, f₀), (fd₁, f₁)] := by rw [Task.reserved, hpc]
  have hone : ∀ x ∈ t.reserved, (σ.file x.2).count = 1 := fun x hx => (hF.reserved x hx).2.1
  have h₀ : (σ.file f₀).count = 1 := hone (fd₀, f₀) (by rw [hres]; simp)
  have h₁ : (σ.file f₁).count = 1 := hone (fd₁, f₁) (by rw [hres]; simp)
  rw [filesOf_piping, update_comm hf, update_idem, update_comm hf.symm, update_idem]
  simp only [Table.piped, filePtr_set, filePtr_setFile]
  rw [if_neg (by rw [h₀]; exact Nat.one_ne_zero)]
  have h₁' : ((σ.setFile f₀ { σ.file f₀ with inode := some i.val, pos := 0, mode := 1 }).file f₁).count =
      1 := by
    show (update σ.file f₀ _ f₁).count = 1
    rw [update_of_ne hf.symm, h₁]
  rw [if_neg (by rw [h₁']; exact Nat.one_ne_zero), inodeOf_val rfl, inodeOf_val rfl]

/-! ### Closing -/

/-- Process `P` goes on at `next`, and descriptor `fd` is perhaps closed. -/
structure Closed (P : Fin 64) (fd : ℕ) (next : Pc) (σ : Table) (t : Task) (τ : Table) : Prop where
  sound : τ.Sound
  task : ∃ t', τ.task = update σ.task P (some t') ∧ t'.pc = next
  file : τ.file = σ.file ∨ ∃ (h : fd < 20) (f : Fin 64), t.filp ⟨fd, h⟩ = some f ∧ τ.file = (σ.down f).file

theorem sysClose_closed (h : σ.Sound) (ht : σ.task P = some t) (fd : ℕ) (hnext : Task.Quiet next)
    (hexit : ∀ i, next = .exiting i → ∀ j : Fin 20, j.val < i → j.val = fd ∨ t.filp j = none) :
    Closed P fd next σ t (σ.sysClose P t fd next) := by
  have hsound := Table.sysClose_sound h ht fd hnext hexit
  revert hsound
  rw [Table.sysClose]
  split
  · rename_i hlt
    simp only [Task.clearBit_filp]
    split
    · exact fun hsound => ⟨hsound, ⟨_, rfl, rfl⟩, Or.inl rfl⟩
    · rename_i f hf
      rw [if_neg (show ¬(σ.file f).count = 0 from Nat.ne_of_gt (h.count_pos ht hf))]
      exact fun hsound => ⟨hsound, ⟨_, rfl, rfl⟩, Or.inr ⟨hlt, f, hf, rfl⟩⟩
  · exact fun hsound => ⟨hsound, ⟨_, rfl, rfl⟩, Or.inl rfl⟩

theorem execing_closed (h : σ.Sound) (ht : σ.task P = some t) {i : ℕ} (hi : i < 20) :
    Closed P i (.execing (i + 1)) σ t (σ.execing P t i) := by
  have hsound := Table.execing_sound h ht i
  revert hsound
  rw [Table.execing, if_pos hi]
  split
  · exact fun _ => sysClose_closed h ht i trivial (fun _ h => (by cases h))
  · exact fun hsound => ⟨hsound, ⟨_, rfl, rfl⟩, Or.inl rfl⟩

theorem exiting_closed (h : σ.Sound) (ht : σ.task P = some t) {i : ℕ} (hpc : t.pc = .exiting i)
    (hi : i < 20) : Closed P i (.exiting (i + 1)) σ t (σ.exiting P t i) := by
  have hsound := Table.exiting_sound h ht hpc
  have hclosed := (h.fine P t ht).exiting i hpc
  revert hsound
  rw [Table.exiting, dif_pos hi]
  split
  · exact fun hsound => ⟨hsound, ⟨_, rfl, rfl⟩, Or.inl rfl⟩
  · intro _
    refine sysClose_closed h ht i trivial ?_
    intro k hk j hj
    cases hk
    rcases Nat.lt_succ_iff_lt_or_eq.1 hj with hj | hj
    · exact Or.inr (hclosed j hj)
    · exact Or.inl hj

end OldLinux.Syscalls
