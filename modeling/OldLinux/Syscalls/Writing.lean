import Mathlib.Data.Nat.Bitwise
import OldLinux.Files.Counts
import OldLinux.Syscalls.Namei

/-!
# Who may write to a file

`open_namei` checks the permission on a file once, `sys_open` puts the flags into the file table, `dup` and
`fork` share the entry, and `sys_write` goes by the kind of the inode.  What a name leads to is any; inodes
and credentials change at any time.  For each entry of the file table it is noted how it was opened.
-/

namespace OldLinux.Syscalls

open Function Lib Files

variable {C : Type}

/-- `permission`, for someone with these credentials. -/
def mayAccess (c : Cred) (t : Inode) (mask : ℕ) : Bool :=
  if t.dev ≠ 0 ∧ t.nlinks = 0 then false
  else
    let mode := if c.euid = t.uid then t.mode >>> 6 else if c.egid = t.gid then t.mode >>> 3 else t.mode
    (mode &&& mask &&& 7) == mask || c.euid == 0

theorem permission_eq (v : View) (t : Inode) (mask : ℕ) : permission v t mask = mayAccess v.cred t mask := rfl

/-- What `open_namei` finds under a name. -/
inductive Found where
  | error (e : ℕ)
  /-- the name ends with a slash -/
  | directory (i : ℕ)
  | created (i : ℕ)
  | existing (i : ℕ)

/-- The file was there before. -/
def Found.existed : Found → Bool
  | .created _ => false
  | _ => true

/-- `O_TRUNC` without an access mode is `O_WRONLY` too. -/
def truncFlag (flag : ℕ) : ℕ :=
  if has flag O_TRUNC && flag &&& O_ACCMODE == 0 then flag ||| 1 else flag

/-- `open_namei` from there on, with the flags of `truncFlag`. -/
def openFlagged (c : Cred) (inode : ℕ → Inode) (flag : ℕ) (found : Found) : Except ℕ ℕ :=
  match found with
  | .error e => .error e
  | .directory i => if has flag (O_ACCMODE ||| O_CREAT ||| O_TRUNC) then .error 21 else .ok i
  | .created i => if has flag O_CREAT then .ok i else .error 2
  | .existing i =>
    if has flag O_EXCL then .error 17
    else if (isDir (inode i).mode && has flag O_ACCMODE) || !mayAccess c (inode i) (accMode flag) then
      .error 1
    else .ok i

def openChecked (c : Cred) (inode : ℕ → Inode) (flag : ℕ) (found : Found) : Except ℕ ℕ :=
  openFlagged c inode (truncFlag flag) found

/-- How an entry of the file table was opened. -/
structure Opening where
  flag : ℕ
  /-- the file was there before -/
  existed : Bool
  /-- the permission to write at that time -/
  granted : Bool

structure World (C : Type) where
  files : Table
  inode : ℕ → Inode
  cred : Fin 64 → Cred
  content : ℕ → C
  opening : Fin 64 → Option Opening

inductive WorldEvent (C : Type) where
  /-- what `open_namei` finds -/
  | opened (found : Found)
  /-- any other step on descriptors -/
  | files (e : Event)
  /-- what `file_write` makes of the file, and what is returned -/
  | sysWrite (fd count : ℕ) (write : C → C) (ret : ℤ)
  /-- other calls change inodes and credentials -/
  | other (inode : ℕ → Inode) (cred : Fin 64 → Cred)

namespace World

/-- The end of `sys_open`; `empty` is what `truncate` leaves. -/
def opened (empty : C) (σ : World C) (P : Fin 64) (t : Task) (fd : Fin 20) (f : Fin 64) (flag : ℕ)
    (found : Found) : World C :=
  match openChecked (σ.cred P) σ.inode flag found with
  | .error e => { σ with files := σ.files.opened P t fd f flag (.error e) }
  | .ok i =>
    { σ with
      files := σ.files.opened P t fd f flag (.ok (i, (σ.inode i).mode))
      content := if found.existed && has flag O_TRUNC && isReg (σ.inode i).mode then
          update σ.content i empty else σ.content
      opening := update σ.opening f
        (some ⟨flag, found.existed, mayAccess (σ.cred P) (σ.inode i) 2⟩) }

def sysWrite (σ : World C) (P : Fin 64) (t : Task) (fd count : ℕ) (write : C → C) (ret : ℤ) : World C :=
  let returns ret := { σ with files := σ.files.set P (t.returns ret) }
  match if h : fd < 20 then t.filp ⟨fd, h⟩ else none with
  | none => returns (-22)
  | some f =>
    if count = 0 then returns 0
    else match (σ.files.file f).inode with
      | none => returns ret
      | some i =>
        if (σ.inode i).pipe then
          returns (if (σ.files.file f).mode &&& 2 ≠ 0 then ret else -5)
        else if isChr (σ.inode i).mode || isBlk (σ.inode i).mode then returns ret
        else if isReg (σ.inode i).mode then
          { returns ret with content := update σ.content i (write (σ.content i)) }
        else returns (-22)

def step (empty : C) (σ : World C) (e : Fin 64 × WorldEvent C) : Option (World C) :=
  match e.2 with
  | .files (.opened _) => none
  | .files (.piped inode) =>
    match (σ.files.task e.1).map Task.pc with
    | some (.piping _ _ f₀ f₁) => (σ.files.step (e.1, .piped inode)).map fun τ => { σ with
        files := τ
        -- a pipe has no name
        opening := update (update σ.opening f₀ none) f₁ none }
    | _ => none
  | .files ev => (σ.files.step (e.1, ev)).map fun τ => { σ with files := τ }
  | .other inode cred => some { σ with inode := inode, cred := cred }
  | .opened found =>
    (σ.files.task e.1).bind fun t => match t.pc with
      | .opening fd f flag => some (σ.opened empty e.1 t fd f flag found)
      | _ => none
  | .sysWrite fd count write ret =>
    (σ.files.task e.1).bind fun t =>
      if t.pc = .user then some (σ.sysWrite e.1 t fd count write ret) else none

/-- No file is open. -/
def Boot (σ : World C) : Prop := σ.files = Table.boot ∧ ∀ f, σ.opening f = none

end World

/-! ### Flags -/

/-- The flags ask for write access. -/
def asks (flag : ℕ) : Prop := flag &&& 3 = 1 ∨ flag &&& 3 = 2 ∨ flag &&& 0o1000 ≠ 0

instance (flag : ℕ) : Decidable (asks flag) := inferInstanceAs (Decidable (_ ∨ _ ∨ _))

/-- `F_SETFL` changes other flags. -/
theorem asks_setfl (flag arg : ℕ) : asks ((flag &&& (65535 - 0o6000)) ||| (arg &&& 0o6000)) ↔ asks flag := by
  have hbits : ∀ m, 0o6000 &&& m = 0 → (65535 - 0o6000) &&& m = m →
      ((flag &&& (65535 - 0o6000)) ||| (arg &&& 0o6000)) &&& m = flag &&& m := by
    intro m h1 h2
    rw [Nat.and_or_distrib_right, Nat.and_assoc, Nat.and_assoc, h1, h2, Nat.and_zero, Nat.or_zero]
  rw [asks, asks, hbits 3 (by decide) (by decide), hbits 0o1000 (by decide) (by decide)]

/-- Who may read and write may write. -/
theorem and_of_and_six {m : ℕ} (h : m &&& 6 &&& 7 = 6) : m &&& 2 &&& 7 = 2 := by
  have hbit := congrArg (Nat.testBit · 1) h
  simp only [Nat.testBit_and] at hbit
  rw [show Nat.testBit 6 1 = true from rfl, show Nat.testBit 7 1 = true from rfl, Bool.and_true,
    Bool.and_true] at hbit
  have hpow := Nat.and_two_pow m 1
  rw [hbit] at hpow
  rw [Nat.and_assoc]
  exact hpow

/-- Nobody but the super user passes the mask of access mode 3. -/
theorem and_ne_255 (m : ℕ) : m &&& 0o377 &&& 7 ≠ 0o377 := by
  have hle : m &&& 0o377 &&& 7 ≤ 7 := Nat.and_le_right
  omega

theorem mayAccess_write {c : Cred} {t : Inode} {mask : ℕ} (h : mayAccess c t mask = true)
    (hmask : mask = 2 ∨ mask = 6 ∨ mask = 0o377) : mayAccess c t 2 = true := by
  rw [mayAccess] at h ⊢
  split at h
  · cases h
  · rename_i hdeleted
    rw [if_neg hdeleted]
    simp only [Bool.or_eq_true, beq_iff_eq] at h ⊢
    rcases h with h | h
    · rcases hmask with rfl | rfl | rfl
      · exact Or.inl h
      · exact Or.inl (and_of_and_six h)
      · exact absurd h (and_ne_255 _)
    · exact Or.inr h

theorem accMode_write {flag : ℕ} (h : flag &&& O_ACCMODE ≠ 0) :
    accMode flag = 2 ∨ accMode flag = 6 ∨ accMode flag = 0o377 := by
  rw [accMode]
  split
  · exact absurd ‹_› h
  · exact Or.inl rfl
  · exact Or.inr (Or.inl rfl)
  · exact Or.inr (Or.inr rfl)

/-- Flags that ask for write access have an access mode that is checked. -/
theorem truncFlag_accmode {flag : ℕ} (h : asks flag) : truncFlag flag &&& O_ACCMODE ≠ 0 := by
  rw [truncFlag]
  split
  · rename_i htrunc
    rw [Bool.and_eq_true, beq_iff_eq] at htrunc
    rw [Nat.and_or_distrib_right, htrunc.2]
    decide
  · rename_i htrunc
    intro hzero
    rcases h with h | h | h
    · exact absurd (h.symm.trans hzero) (by decide)
    · exact absurd (h.symm.trans hzero) (by decide)
    · refine htrunc ?_
      rw [Bool.and_eq_true, beq_iff_eq]
      exact ⟨bne_iff_ne.2 h, hzero⟩

/-- **The check of `open_namei`.**  A file that was there is opened for writing only with the permission,
and a directory whose name ends with a slash not at all. -/
theorem openChecked_granted {c : Cred} {inode : ℕ → Inode} {flag i : ℕ} {found : Found}
    (h : openChecked c inode flag found = .ok i) (hexisted : found.existed = true)
    (hasks : asks flag) : mayAccess c (inode i) 2 = true := by
  have hmode := truncFlag_accmode hasks
  rw [openChecked] at h
  cases found with
  | error e => cases h
  | created j => cases hexisted
  | directory j =>
    rw [openFlagged, if_pos] at h
    · cases h
    · refine bne_iff_ne.2 fun hzero => hmode ?_
      rw [Nat.and_or_distrib_left, Nat.or_eq_zero_iff, Nat.and_or_distrib_left, Nat.or_eq_zero_iff] at hzero
      exact hzero.1.1
  | existing j =>
    rw [openFlagged] at h
    split at h
    · cases h
    · split at h
      · cases h
      · rename_i hcheck
        cases h
        rw [Bool.not_eq_true, Bool.or_eq_false_iff, Bool.not_eq_false'] at hcheck
        exact mayAccess_write hcheck.2 (accMode_write hmode)

/-! ### Runs -/

namespace World

variable {empty : C} {σ τ : World C} {P : Fin 64} {e : Fin 64 × WorldEvent C} {t : Task} {f : Fin 64}

/-- An entry of the file table that asks for write access was opened by someone who may write. -/
def Honest (σ : World C) : Prop := ∀ f o, σ.opening f = some o → asks (σ.files.file f).flags →
  asks o.flag ∧ (o.existed = true → o.granted = true)

/-- The flags in the file table. -/
def flags (σ : Table) (f : Fin 64) : ℕ := (σ.file f).flags

theorem flags_setFile {σ : Table} {x : File} (h : x.flags = flags σ f) : flags (σ.setFile f x) = flags σ := by
  funext g
  show (update σ.file f x g).flags = _
  rw [update_apply]
  split
  · rename_i hg
    rw [hg, h]
  · rfl

theorem flags_setCount {σ : Table} (n : ℕ) : flags (σ.setCount f n) = flags σ := flags_setFile rfl

theorem flags_up {σ : Table} : flags (σ.up f) = flags σ := flags_setCount _

theorem flags_sysOpen {σ : Table} (flag : ℕ) : flags (σ.sysOpen P t flag) = flags σ := by
  rw [Table.sysOpen]
  split
  · rfl
  · split
    · rfl
    · exact flags_up

theorem flags_sysClose {σ : Table} (fd : ℕ) (next : Pc) : flags (σ.sysClose P t fd next) = flags σ := by
  rw [Table.sysClose]
  split
  · simp only
    split
    · rfl
    · split
      · rfl
      · exact flags_setCount _
  · rfl

theorem flags_dupfd {σ : Table} (fd arg : ℕ) : flags (σ.dupfd P t fd arg) = flags σ := by
  rw [Table.dupfd]
  split
  · split
    · rfl
    · split
      · rfl
      · split
        · rfl
        · exact flags_up
  · rfl

theorem flags_sysPipe {σ : Table} : flags (σ.sysPipe P t) = flags σ := by
  have hback : ∀ f₀ f₁ : Fin 64, flags ((((σ.up f₀).up f₁).setCount f₀ 0).setCount f₁ 0) = flags σ := by
    intro f₀ f₁
    rw [flags_setCount, flags_setCount, flags_up, flags_up]
  rw [Table.sysPipe]
  split
  · simp only
    split
    · exact flags_up.trans flags_up
    · exact hback _ _
    · exact hback _ _
  · exact (flags_setCount 0).trans flags_up
  · rfl

theorem flags_piped {σ : Table} (fd₀ fd₁ : Fin 20) (f₀ f₁ : Fin 64) (inode : Option ℕ) :
    flags (σ.piped P t fd₀ fd₁ f₀ f₁ inode) = flags σ := by
  cases inode with
  | none => exact (flags_setCount 0).trans (flags_setCount 0)
  | some i =>
    rw [Table.piped]
    show flags (Table.setFile (Table.setFile σ f₀ _) f₁ _) = _
    exact (flags_setFile (by rfl)).trans (flags_setFile (by rfl))

theorem flags_countFiles (fds : List (Fin 20)) : ∀ σ : Table, flags (σ.countFiles t fds) = flags σ := by
  induction fds with
  | nil => exact fun _ => rfl
  | cons fd fds ih =>
    intro σ
    rw [Table.countFiles, List.foldl_cons]
    cases t.filp fd with
    | none => exact ih σ
    | some f => exact (ih (σ.up f)).trans flags_up

theorem flags_sysFork {σ : Table} (pid : ℤ) (memory : Bool) : flags (σ.sysFork P t pid memory) = flags σ := by
  rw [Table.sysFork]
  split
  · rfl
  · split
    · exact flags_countFiles _ _
    · rfl

theorem flags_execing {σ : Table} (i : ℕ) : flags (σ.execing P t i) = flags σ := by
  rw [Table.execing]
  split
  · split
    · exact flags_sysClose _ _
    · rfl
  · rfl

theorem flags_exiting {σ : Table} (i : ℕ) : flags (σ.exiting P t i) = flags σ := by
  rw [Table.exiting]
  split
  · split
    · rfl
    · exact flags_sysClose _ _
  · rfl

theorem flags_sysFcntl {σ : Table} (fd cmd arg : ℕ) (g : Fin 64) :
    asks (flags (σ.sysFcntl P t fd cmd arg) g) ↔ asks (flags σ g) := by
  rw [Table.sysFcntl]
  split
  · split
    · exact Iff.rfl
    · rename_i f _
      split
      · rw [flags_dupfd]
      · exact Iff.rfl
      · split <;> exact Iff.rfl
      · exact Iff.rfl
      · show asks (update σ.file f _ g).flags ↔ _
        rw [update_apply]
        split
        · rename_i hg
          rw [hg]
          exact asks_setfl _ _
        · exact Iff.rfl
      · exact Iff.rfl
  · exact Iff.rfl

/-- A step on descriptors other than the end of `sys_open` keeps the flags, as far as they matter. -/
theorem step_flags {σ τ : Table} {ev : Event} (hev : ∀ r, ev ≠ .opened r)
    (hs : σ.step (P, ev) = some τ) (f : Fin 64) : asks (flags τ f) ↔ asks (flags σ f) := by
  have hsame : ∀ {ρ : Table}, flags ρ = flags σ → (asks (flags ρ f) ↔ asks (flags σ f)) :=
    fun h => by rw [h]
  cases ht : σ.task P with
  | none =>
    simp only [Table.step, ht] at hs
    cases hs
  | some t =>
    simp only [Table.step, ht] at hs
    cases ev with
    | opened result => exact absurd rfl (hev result)
    | release i =>
      cases hpc : t.pc <;> simp only [hpc, reduceCtorEq] at hs
      obtain ⟨_, heq⟩ := Option.ite_none_right_eq_some.1 hs
      cases heq
      exact Iff.rfl
    | execve error =>
      cases error <;> cases hpc : t.pc <;> simp only [hpc, reduceCtorEq] at hs <;> cases hs <;> exact Iff.rfl
    | run =>
      cases hpc : t.pc <;> simp only [hpc, reduceCtorEq] at hs <;> cases hs
      · exact Iff.rfl
      · exact hsame (flags_dupfd _ _)
      · exact hsame (flags_execing _)
      · exact hsame (flags_exiting _)
    | sysOpen flag =>
      cases hpc : t.pc <;> simp only [hpc, reduceCtorEq] at hs
      cases hs
      exact hsame (flags_sysOpen flag)
    | sysClose fd =>
      cases hpc : t.pc <;> simp only [hpc, reduceCtorEq] at hs
      cases hs
      exact hsame (flags_sysClose fd _)
    | sysDup fildes =>
      cases hpc : t.pc <;> simp only [hpc, reduceCtorEq] at hs
      cases hs
      exact hsame (flags_dupfd fildes 0)
    | sysDup2 oldfd newfd =>
      cases hpc : t.pc <;> simp only [hpc, reduceCtorEq] at hs
      cases hs
      exact hsame (flags_sysClose newfd _)
    | sysFcntl fd cmd arg =>
      cases hpc : t.pc <;> simp only [hpc, reduceCtorEq] at hs
      cases hs
      exact flags_sysFcntl fd cmd arg f
    | sysPipe =>
      cases hpc : t.pc <;> simp only [hpc, reduceCtorEq] at hs
      cases hs
      exact hsame flags_sysPipe
    | piped inode =>
      cases hpc : t.pc <;> simp only [hpc, reduceCtorEq] at hs
      cases hs
      exact hsame (flags_piped _ _ _ _ _)
    | sysFork pid memory =>
      cases hpc : t.pc <;> simp only [hpc, reduceCtorEq] at hs
      cases hs
      exact hsame (flags_sysFork pid memory)
    | exit =>
      cases hpc : t.pc <;> simp only [hpc, reduceCtorEq] at hs <;> cases hs <;> exact Iff.rfl

theorem Honest.files (h : Honest σ) {τ : Table} (hflags : ∀ f, asks (flags τ f) ↔ asks (flags σ.files f))
    {opening : Fin 64 → Option Opening} (hopening : ∀ f o, opening f = some o → σ.opening f = some o) :
    Honest { σ with files := τ, opening := opening } := by
  intro f o ho hasks
  exact h f o (hopening f o ho) ((hflags f).1 hasks)

theorem opened_honest (h : Honest σ) (t : Task) (fd : Fin 20) (f : Fin 64) (flag : ℕ) (found : Found) :
    Honest (σ.opened empty P t fd f flag found) := by
  rw [opened]
  split
  · refine h.files (fun g => ?_) fun _ _ ho => ho
    rw [Table.opened]
    show asks (flags (σ.files.setCount f 0) g) ↔ _
    rw [flags_setCount]
  · rename_i i hopen
    intro g o ho hasks
    change update σ.opening f _ g = some o at ho
    change asks (update σ.files.file f _ g).flags at hasks
    rw [update_apply] at ho hasks
    split at ho
    · rename_i hg
      rw [if_pos hg] at hasks
      cases ho
      exact ⟨hasks, fun hexisted => openChecked_granted hopen hexisted hasks⟩
    · rename_i hg
      rw [if_neg hg] at hasks
      exact h g o ho hasks

theorem sysWrite_honest (h : Honest σ) (fd count : ℕ) (write : C → C) (ret : ℤ) :
    Honest (σ.sysWrite P t fd count write ret) := by
  rw [sysWrite]
  simp only
  split
  · exact h
  · split
    · exact h
    · split
      · exact h
      · split
        · exact h
        · split
          · exact h
          · split <;> exact h

theorem step_honest (h : Honest σ) (hs : σ.step empty e = some τ) : Honest τ := by
  obtain ⟨P, ev⟩ := e
  have hfiles : ∀ {ev : Event} {ρ : Table}, (∀ r, ev ≠ .opened r) → σ.files.step (P, ev) = some ρ →
      Honest { σ with files := ρ } :=
    fun hev hs => h.files (step_flags hev hs) fun _ _ ho => ho
  cases ev with
  | opened found =>
    obtain ⟨t, _, hrest⟩ := Option.bind_eq_some_iff.1 hs
    split at hrest
    · cases hrest
      exact opened_honest h t _ _ _ found
    · cases hrest
  | other inode cred =>
    cases hs
    exact h
  | sysWrite fd count write ret =>
    obtain ⟨t, _, hrest⟩ := Option.bind_eq_some_iff.1 hs
    obtain ⟨_, heq⟩ := Option.ite_none_right_eq_some.1 hrest
    cases heq
    exact sysWrite_honest h fd count write ret
  | files ev =>
    rw [step] at hs
    split at hs
    · cases hs
    · split at hs
      · obtain ⟨ρ, hρ, heq⟩ := Option.map_eq_some_iff.1 hs
        cases heq
        refine h.files (step_flags (fun _ h => by cases h) hρ) ?_
        intro f o ho
        rw [update_apply, update_apply] at ho
        split at ho
        · cases ho
        · split at ho
          · cases ho
          · exact ho
      · cases hs
    · rename_i hopened _ hev
      cases hev
      obtain ⟨ρ, hρ, heq⟩ := Option.map_eq_some_iff.1 hs
      cases heq
      exact hfiles (fun r hr => hopened r (by rw [hr])) hρ
    · cases ‹WorldEvent.files _ = _›
    · cases ‹WorldEvent.files _ = _›
    · cases ‹WorldEvent.files _ = _›

/-- What `sys_write` changes is the regular file of a descriptor. -/
theorem sysWrite_content {fd count i : ℕ} {write : C → C} {ret : ℤ}
    (h : (σ.sysWrite P t fd count write ret).content i ≠ σ.content i) :
    ∃ (hfd : fd < 20) (f : Fin 64), t.filp ⟨fd, hfd⟩ = some f ∧ (σ.files.file f).inode = some i ∧
      count ≠ 0 ∧ (σ.inode i).pipe = false ∧ isReg (σ.inode i).mode = true := by
  rw [sysWrite] at h
  simp only at h
  split at h
  · exact absurd rfl h
  · rename_i f hf
    split at h
    · exact absurd rfl h
    · rename_i hcount
      split at h
      · exact absurd rfl h
      · rename_i j hj
        split at h
        · exact absurd rfl h
        · rename_i hpipe
          split at h
          · exact absurd rfl h
          · split at h
            · rename_i hreg
              by_cases hlt : fd < 20
              · rw [dif_pos hlt] at hf
                by_cases hij : i = j
                · rw [hij]
                  exact ⟨hlt, f, hf, hj, hcount, Bool.eq_false_iff.2 hpipe, hreg⟩
                · exact absurd (update_of_ne hij _ _) h
              · rw [dif_neg hlt] at hf
                cases hf
            · exact absurd rfl h

/-- A file that was there is written only through an entry whose flags ask for it. -/
def Asked (σ : World C) (e : Fin 64 × WorldEvent C) : Prop :=
  match e.2 with
  | .sysWrite fd count _ _ => ∀ (t : Task) (hfd : fd < 20) (f : Fin 64) (i : ℕ) (o : Opening), count ≠ 0 →
      σ.files.task e.1 = some t → t.filp ⟨fd, hfd⟩ = some f → (σ.files.file f).inode = some i →
      (σ.inode i).pipe = false → isReg (σ.inode i).mode = true → σ.opening f = some o → o.existed = true →
      asks (σ.files.file f).flags
  | _ => True

/-- **Writing needs the permission to write**, in every run in which a regular file that was there before
is written only through entries of the file table whose flags ask for write access, which `sys_write` does
not check: the open that a descriptor comes from asked for write access, and the opener had the permission
then, whoever writes. -/
theorem writing_is_granted (h : Reach (Boot (C := C)) (step empty) Asked σ) {fd count i : ℕ}
    {write : C → C} {ret : ℤ} (hasked : Asked σ (P, .sysWrite fd count write ret))
    (hs : σ.step empty (P, .sysWrite fd count write ret) = some τ) (hne : τ.content i ≠ σ.content i) :
    ∃ t f, ∃ hfd : fd < 20, σ.files.task P = some t ∧ t.filp ⟨fd, hfd⟩ = some f ∧
    (σ.files.file f).inode = some i ∧
      ∀ o, σ.opening f = some o → o.existed = true → asks o.flag ∧ o.granted = true := by
  have hhonest : Honest σ := by
    refine h.invariant (I := Honest) ?_ fun _ _ _ hI _ hs => step_honest hI hs
    intro σ₀ hboot f o ho
    rw [hboot.2 f] at ho
    cases ho
  obtain ⟨t, ht, hrest⟩ := Option.bind_eq_some_iff.1 hs
  obtain ⟨_, heq⟩ := Option.ite_none_right_eq_some.1 hrest
  cases heq
  obtain ⟨hfd, f, hf, hi, hcount, hpipe, hreg⟩ := sysWrite_content hne
  refine ⟨t, f, hfd, ht, hf, hi, fun o ho hexisted => ?_⟩
  have hasks := hasked t hfd f i o hcount ht hf hi hpipe hreg ho hexisted
  obtain ⟨hflag, hgranted⟩ := hhonest f o ho hasks
  exact ⟨hflag, hgranted hexisted⟩

/-- A world with one kind of file: mode 644, of user 7; every process is of user `euid`. -/
def readable (euid : ℕ) : World ℕ where
  files := Table.boot
  inode _ := ⟨0o100644, 7, 0, 1, 0, 769, 5, 1, false, false, false⟩
  cred _ := ⟨euid, euid, 0, 0, 0, false, none⟩
  content _ := 0
  opening _ := none

/-- The owner opens the file for writing and writes. -/
theorem writing_is_granted_owner : ∃ σ τ : World ℕ, Reach (Boot (C := ℕ)) (step 0) Asked σ ∧
    σ.step 0 (0, .sysWrite 0 1 (· + 1) 1) = some τ ∧ τ.content 5 ≠ σ.content 5 ∧
    ∃ o, σ.opening 0 = some o ∧ asks o.flag ∧ o.granted = true := by
  obtain ⟨σ, hexec, τ, hs, hne, ho, hasked⟩ : ∃ σ, exec (step 0) (readable 7)
      [(0, .files (.sysOpen 1)), (0, .opened (.existing 5))] = some σ ∧
    ∃ τ, σ.step 0 (0, .sysWrite 0 1 (· + 1) 1) = some τ ∧ τ.content 5 ≠ σ.content 5 ∧
      σ.opening 0 = some ⟨1, true, true⟩ ∧ (∀ t, σ.files.task 0 = some t → ∀ f, t.filp 0 = some f →
        f = 0 ∧ (σ.files.file f).flags = 1) := by
    refine ⟨_, rfl, _, rfl, by decide, rfl, ?_⟩
    rintro _ ⟨⟩ _ ⟨⟩
    exact ⟨rfl, rfl⟩
  have hreach : Reach (Boot (C := ℕ)) (step 0) Asked σ := by
    refine Reach.exec (Reach.start ⟨rfl, fun _ => rfl⟩) (along_of_forall ?_ _) hexec
    intro e he
    simp only [List.mem_cons, List.not_mem_nil, or_false] at he
    rcases he with rfl | rfl <;> exact fun _ => trivial
  have hallowed : Asked σ (0, .sysWrite 0 1 (· + 1) 1) := by
    intro t _ f _ _ _ ht hf _ _ _ _ _
    rw [(hasked t ht f hf).2]
    decide
  obtain ⟨t, f, _, ht, hf, _, hgranted⟩ := writing_is_granted hreach hallowed hs hne
  rw [(hasked t ht f hf).1] at hgranted
  exact ⟨σ, τ, hreach, hs, hne, _, ho, hgranted _ ho rfl⟩

/-- Another user opens the file for reading and writes. -/
theorem writing_unasked : ∃ σ τ : World ℕ, Reach (Boot (C := ℕ)) (step 0) (fun _ _ => True) σ ∧
    σ.step 0 (0, .sysWrite 0 1 (· + 1) 1) = some τ ∧ τ.content 5 ≠ σ.content 5 ∧
    (σ.files.task 0).bind (fun t => t.filp 0) = some 0 ∧
    ∃ o, σ.opening 0 = some o ∧ o.existed = true ∧ ¬asks o.flag ∧ o.granted = false := by
  obtain ⟨σ, hexec, hrest⟩ : ∃ σ, exec (step 0) (readable 9)
      [(0, .files (.sysOpen 0)), (0, .opened (.existing 5))] = some σ ∧
    ∃ τ, σ.step 0 (0, .sysWrite 0 1 (· + 1) 1) = some τ ∧ τ.content 5 ≠ σ.content 5 ∧
      (σ.files.task 0).bind (fun t => t.filp 0) = some 0 ∧
      ∃ o, σ.opening 0 = some o ∧ o.existed = true ∧ ¬asks o.flag ∧ o.granted = false :=
    ⟨_, rfl, _, rfl, by decide, rfl, ⟨0, true, false⟩, rfl, rfl, by decide, rfl⟩
  obtain ⟨τ, hrest⟩ := hrest
  exact ⟨σ, τ, Reach.exec (Reach.start ⟨rfl, fun _ => rfl⟩) (along_true _ _) hexec, hrest⟩

end World

end OldLinux.Syscalls
