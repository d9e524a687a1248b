import OldLinux.Memory.Undo

/-!
# `copy_process`

`copy_process` and `copy_mem` of `kernel/fork.cc` with the state they share: memory, the task array
and the reference counts of files and inodes.  A `task_struct` has the fields `copy_process` sets or
reads; the others are copied from the parent with it.  The descriptors in the `gdt` and the state of
the coprocessor are left out.

A fork that runs out of memory, wherever it does, takes back what it did.
-/

namespace OldLinux.Fork

open Function Lib Memory

def EAGAIN : ℤ := 11
def ENOMEM : ℤ := 12
def NR_OPEN : ℕ := 20
def TASK_RUNNING : ℤ := 0
def TASK_UNINTERRUPTIBLE : ℤ := 2

/-- The registers on the stack of a system call, the arguments of `copy_process`. -/
structure Registers where
  ebp : ℕ
  edi : ℕ
  esi : ℕ
  gs : ℕ
  ebx : ℕ
  ecx : ℕ
  edx : ℕ
  fs : ℕ
  es : ℕ
  ds : ℕ
  eip : ℕ
  cs : ℕ
  eflags : ℕ
  esp : ℕ
  ss : ℕ

structure Tss where
  backLink : ℕ
  esp0 : ℕ
  ss0 : ℕ
  eip : ℕ
  eflags : ℕ
  eax : ℕ
  ecx : ℕ
  edx : ℕ
  ebx : ℕ
  esp : ℕ
  ebp : ℕ
  esi : ℕ
  edi : ℕ
  es : ℕ
  cs : ℕ
  ss : ℕ
  ds : ℕ
  fs : ℕ
  gs : ℕ
  ldt : ℕ
  traceBitmap : ℕ

structure TaskStruct where
  state : ℤ
  counter : ℤ
  priority : ℤ
  signal : ℕ
  pid : ℤ
  father : ℤ
  leader : ℤ
  alarm : ℤ
  utime : ℤ
  stime : ℤ
  cutime : ℤ
  cstime : ℤ
  startTime : ℤ
  startCode : ℕ
  pwd : Option ℕ
  root : Option ℕ
  executable : Option ℕ
  filp : ℕ → Option ℕ
  /-- `get_base(ldt[1])` and `get_limit(0x0f)` -/
  codeBase : ℕ
  codeLimit : ℕ
  /-- `get_base(ldt[2])` and `get_limit(0x17)` -/
  dataBase : ℕ
  dataLimit : ℕ
  tss : Tss

/-- What `copy_process` works on; a task is the page its structure is in, and the structure. -/
structure Forking where
  mm : Mm
  task : ℕ → Option (ℕ × TaskStruct)
  fCount : ℕ → BitVec 16
  iCount : ℕ → BitVec 16
  lastPid : ℤ
  jiffies : ℤ

abbrev ForkM := EStateM Trap Forking

/-- A function of `mm/memory.cc`. -/
def onMemory {α : Type} (c : MmM α) : ForkM α := fun σ =>
  match c σ.mm with
  | .ok a s => .ok a { σ with mm := s }
  | .error e s => .error e { σ with mm := s }

def setTask (nr : ℕ) (p : Option (ℕ × TaskStruct)) : ForkM Unit :=
  modify fun σ => { σ with task := update σ.task nr p }

/-- The segments of the new task. -/
def TaskStruct.atBase (p : TaskStruct) (base : ℕ) : TaskStruct :=
  { p with startCode := base, codeBase := base, dataBase := base }

def copyMem (nr page : ℕ) (current p : TaskStruct) : ForkM ℤ := do
  if current.dataBase ≠ current.codeBase then
    throw (.panic "We don't support separate I&D")
  else if current.dataLimit < current.codeLimit then
    throw (.panic "Bad data_limit")
  else
    let newDataBase := nr * 0x4000000
    setTask nr (some (page, p.atBase newDataBase))
    let r ← onMemory (copyPageTables current.dataBase newDataBase current.dataLimit)
    if r ≠ 0 then
      onMemory (freePageTables newDataBase current.dataLimit)
      return -ENOMEM
    else
      return 0

/-- `*p = *current`, and the fields that are set before the segments are copied. -/
def newTask (nr page : ℕ) (current : TaskStruct) (regs : Registers) (lastPid jiffies : ℤ) :
    TaskStruct :=
  { current with
    state := TASK_UNINTERRUPTIBLE
    pid := lastPid
    father := current.pid
    counter := current.priority
    signal := 0
    alarm := 0
    leader := 0
    utime := 0
    stime := 0
    cutime := 0
    cstime := 0
    startTime := jiffies
    tss :=
      { backLink := 0
        esp0 := 4096 + page
        ss0 := 0x10
        eip := regs.eip
        eflags := regs.eflags
        eax := 0
        ecx := regs.ecx
        edx := regs.edx
        ebx := regs.ebx
        esp := regs.esp
        ebp := regs.ebp
        esi := regs.esi
        edi := regs.edi
        es := regs.es % 2 ^ 16
        cs := regs.cs % 2 ^ 16
        ss := regs.ss % 2 ^ 16
        ds := regs.ds % 2 ^ 16
        fs := regs.fs % 2 ^ 16
        gs := regs.gs % 2 ^ 16
        -- `_LDT(nr)`
        ldt := nr * 16 + 5 * 8
        traceBitmap := 0x80000000 } }

def oneMore (count : ℕ → BitVec 16) : Option ℕ → ℕ → BitVec 16
  | none => count
  | some i => update count i (count i + 1)

/-- `for (i=0; i<NR_OPEN; i++) if ((f=p->filp[i])) f->f_count++`. -/
def countFiles (filp : ℕ → Option ℕ) : ℕ → ℕ → ForkM Unit
  | _, 0 => return ()
  | i, n + 1 => do
      modify fun σ => { σ with fCount := oneMore σ.fCount (filp i) }
      countFiles filp (i + 1) n

def countInode (inode : Option ℕ) : ForkM Unit :=
  modify fun σ => { σ with iCount := oneMore σ.iCount inode }

def copyProcess (nr : ℕ) (current : TaskStruct) (regs : Registers) : ForkM ℤ := do
  let page ← onMemory getFreePage
  if page = 0 then
    return -EAGAIN
  else
    let σ ← get
    let p := newTask nr page current regs σ.lastPid σ.jiffies
    setTask nr (some (page, p))
    let r ← copyMem nr page current p
    if r ≠ 0 then
      setTask nr none
      onMemory (freePage page)
      return -EAGAIN
    else
      countFiles p.filp 0 NR_OPEN
      countInode current.pwd
      countInode current.root
      countInode current.executable
      -- `set_tss_desc` and `set_ldt_desc` of the new task
      setTask nr (some (page, { p.atBase (nr * 0x4000000) with state := TASK_RUNNING }))
      return σ.lastPid

variable {M : MainMemory} {m : ℕ → ℕ → Word} {k : Kernel} {σ : Forking}

theorem wp_onMemory {α : Type} (c : MmM α) (Q : α → Forking → Prop) (E : Trap → Forking → Prop) (σ : Forking) :
    wp (onMemory c) Q E σ ↔ wp c (fun a s => Q a { σ with mm := s })
    (fun e s => E e { σ with mm := s }) σ.mm := by
  unfold wp onMemory
  cases c σ.mm <;> rfl

theorem wp_setTask (nr : ℕ) (p : Option (ℕ × TaskStruct)) (Q : PUnit → Forking → Prop)
    (E : Trap → Forking → Prop) (σ : Forking) :
    wp (setTask nr p) Q E σ ↔ Q ⟨⟩ { σ with task := update σ.task nr p } := Iff.rfl

/-- The counting of the descriptors cannot fail, and it changes counts only. -/
theorem wp_countFiles (filp : ℕ → Option ℕ) (n i : ℕ) (σ : Forking) :
    wp (countFiles filp i n) (fun _ σ' => σ'.lastPid = σ.lastPid) (fun _ _ => False) σ := by
  induction n generalizing i σ with
  | zero => exact rfl
  | succ n ih =>
    rw [countFiles, wp_bind, wp_modify]
    exact ih (i + 1) _

/-! ### Running out of memory -/

/-- The parent in the slot `P` forks the child `nr`: both segments of the parent begin at its slot,
and the slot of the child has no page tables. -/
structure Forks (P nr : ℕ) (current : TaskStruct) (σ : Forking) : Prop where
  parent : P < 64
  child : 0 < nr ∧ nr < 64
  bases : current.codeBase = P * 0x4000000 ∧ current.dataBase = P * 0x4000000
  limits : current.codeLimit ≤ current.dataLimit ∧ current.dataLimit ≤ 0x4000000
  first : P = 0 → current.dataLimit ≤ 0x400000
  free : σ.task nr = none
  unused : SlotUnused σ.mm nr

/-- `get_free_page` fails: for the task's page, or for one of the page tables. -/
def RunsOut (nr : ℕ) (current : TaskStruct) (σ : Forking) : Prop :=
  (∃ s1, getFreePage σ.mm = .ok 0 s1) ∨ ∃ page s1 s2, page ≠ 0 ∧ getFreePage σ.mm = .ok page s1 ∧
    copyPageTables current.dataBase (nr * 0x4000000) current.dataLimit s1 = .ok (-1) s2

/-- Everything is as before the call but the write bits of the parent's pages. -/
structure TakenBack (P nr : ℕ) (σ σ' : Forking) : Prop where
  task : σ'.task nr = none
  tasks : σ'.task = σ.task
  files : σ'.fCount = σ.fCount
  inodes : σ'.iCount = σ.iCount
  memory : Undone P σ.mm σ'.mm

/-- The copy of the parent's page tables returns 0, or -1 with part of it done. -/
theorem copy_returns {P nr : ℕ} {current : TaskStruct} (h : Live M m k) (hσ : σ.mm = k.mm)
    (F : Forks P nr current σ) {f : ℕ} {s1 : Mm} (Fr : Fresh True M k.mm k.held f s1) :
    ∃ r s2, copyPageTables current.dataBase (nr * 0x4000000) current.dataLimit s1 = .ok r s2 ∧
      (r = 0 ∨ r = -1) ∧ Books True M s2 (f ::ₘ k.held) ∧ Neat M s2 ∧ s2.Tidy ∧ TablesAs s1 s2 ∧
      ∃ n ≤ dirCount current.dataLimit, Copied True P nr (fun d => d < n) s1 s2 := by
  have hunused := F.unused
  rw [hσ] at hunused
  have hcount : dirCount current.dataLimit ≤ 16 ∧ (P = 0 → dirCount current.dataLimit ≤ 1) := by
    have h1 := F.limits.2
    have h2 := F.first
    rw [dirCount]
    omega
  have htidy1 : s1.Tidy := h.tidy.of_dir Fr.dir
  have hindex : ∀ slot < 64, dirIndex (slot * 0x4000000) = slot * 16 := by
    intro slot hslot
    rw [dirIndex]
    omega
  have hleaves : Leaves Mm.Tidy (copyPageTables (P * 0x4000000) (nr * 0x4000000) current.dataLimit) := by
    have hP := F.parent
    have hnr := F.child.2
    exact leaves_copyPageTables (by rw [hindex P hP]; omega) (by rw [hindex nr hnr]; omega)
  have hspec := wp_and (wp_and (copyPageTables_books Fr.books F.parent F.child.2 F.child.1
    F.limits.2 (fun _ => F.first)) (copyPageTables_low Fr.books F.parent F.child.1 F.child.2
    F.limits.2 F.first)) (hleaves s1 htidy1)
  obtain ⟨r, s2, hrun, ⟨⟨B2, n, hn, hret, C⟩, hlow⟩, htidy⟩ := returns_of_wp (wp_mono hspec (fun _ _ h => h) (by
      rintro e s' ⟨⟨⟨-, -, d, h1, h2, hd⟩, -⟩, -⟩
      rw [Fr.dir] at hd
      exact hunused d (by omega) hd))
  rw [F.bases.2]
  refine ⟨r, s2, hrun, hret.imp And.left And.left, B2, ?_, htidy, hlow.1, n, hn, C⟩
  exact C.neat F.parent (fun h0 d hd => by have := hcount.2 h0; omega) Fr.books B2
    (h.neat.same fun q hq => Fr.pte hq)

/-- **A fork that runs out of memory undoes itself.**  In every state of every run without a panic,
`copy_process` returns: `last_pid` if it gets all the pages it asks for; and otherwise, whichever of
them it does not get, `-EAGAIN` with the task array, `mem_map`, the page directory and the counts of
files and inodes as before the call, and the parent's entries as before but for their write bits,
which a write to a page that is not shared sets again in place. -/
theorem fork_undoes_itself {P nr : ℕ} {current : TaskStruct} (h : Live M m k) (hσ : σ.mm = k.mm)
    (F : Forks P nr current σ) (regs : Registers) :
    wp (copyProcess nr current regs) (fun r σ' => RunsOut nr current σ ∧ r = -EAGAIN ∧ TakenBack P nr σ σ' ∨
        ¬RunsOut nr current σ ∧ r = σ.lastPid)
      (fun _ _ => False) σ := by
  have B := h.books
  obtain ⟨page, s1, hget, hfirst⟩ := returns_of_wp (getFreePage_books B)
  rw [← hσ] at hget
  rw [copyProcess, wp_bind, wp_onMemory, wp_of_ok hget, wp_ite]
  rcases hfirst with ⟨hz, hs1⟩ | ⟨f, hpage, Fr⟩
  · refine ⟨fun _ => Or.inl ⟨Or.inl ⟨s1, hz ▸ hget⟩, rfl, F.free, rfl, rfl, rfl, ?_⟩,
      fun hne => absurd hz hne⟩
    show Undone P σ.mm s1
    rw [hs1, hσ]
    exact undone_of_entries B B (fun _ _ => rfl) (fun _ _ _ => Or.inl rfl) (fun _ _ _ => rfl)
      (LowAs.refl _).tables
  have hge := Fr.main.lowMem_le
  have hne : page ≠ 0 := by omega
  refine ⟨fun hz => absurd hz hne, fun _ => ?_⟩
  obtain ⟨r, s2, hcopy, hr, B2, hneat, htidy2, hlow12, n, hn, C⟩ := copy_returns h hσ F Fr
  have hlimit : ¬current.dataLimit < current.codeLimit := not_lt.2 F.limits.1
  have hbases : ¬current.dataBase ≠ current.codeBase :=
    not_not.2 (F.bases.2.trans F.bases.1.symm)
  simp only [wp_bind, wp_get, wp_setTask, copyMem, wp_ite, wp_throw, wp_onMemory, wp_pure]
  refine ⟨fun hno => absurd hno hbases, fun _ => ⟨fun hno => absurd hno hlimit, fun _ => ?_⟩⟩
  rw [wp_of_ok hcopy]
  rcases hr with hr | hr
  · -- all the page tables were there
    refine ⟨fun hno => absurd hr hno, fun _ => ⟨fun hno => absurd rfl hno, fun _ => ?_⟩⟩
    have hall : ¬RunsOut nr current σ := by
      rintro (⟨s, hs⟩ | ⟨q, s, s', _, hq, hs⟩)
      · rw [hget] at hs
        cases hs
        exact hne rfl
      · rw [hget] at hq
        cases hq
        rw [hcopy, hr] at hs
        cases hs
    apply wp_mono (wp_countFiles _ NR_OPEN 0 _) _ (fun _ _ h => h)
    intro _ σ' hpid
    exact Or.inr ⟨hall, trivial⟩
  · -- `free_page_tables` takes back the ones that were made
    refine ⟨fun _ => ?_, fun h0 => absurd hr (by rw [not_not.1 h0]; decide)⟩
    have hcount : dirCount current.dataLimit ≤ 16 := by
      have := F.limits.2
      rw [dirCount]
      omega
    have hleaves : Leaves Mm.Tidy (freePageTables (nr * 0x4000000) current.dataLimit) := by
      refine leaves_freePageTables ?_
      have := F.child.2
      rw [show dirIndex (nr * 0x4000000) = nr * 16 from by rw [dirIndex]; omega]
      omega
    have hfree := wp_and (wp_and (freePageTables_books B2 F.child.2 F.child.1 F.limits.2)
      (freePageTables_returns B2 hneat.main F.child.2 F.child.1 F.limits.2)) (hleaves s2 htidy2)
    apply wp_mono hfree _ (fun _ _ h => h.1.2)
    rintro _ s3 ⟨⟨⟨B3, Fd⟩, hlow23⟩, htidy3⟩
    refine ⟨fun _ => ?_, fun hno => absurd (by decide) hno⟩
    rw [hpage]
    apply wp_mono (freePage_held B3 (Multiset.mem_cons_self f _)) _ (fun _ _ h => h)
    rintro _ s4 ⟨hmem, B4⟩
    rw [Multiset.erase_cons_head] at B4
    have hout : RunsOut nr current σ := Or.inr ⟨page, s1, s2, hne, hget, hr ▸ hcopy⟩
    have hunused : SlotUnused k.mm nr := hσ ▸ F.unused
    have htask : ∀ a b : Option (ℕ × TaskStruct),
        update (update (update σ.task nr a) nr b) nr none = σ.task := by
      intro a b
      rw [update_idem, update_idem, update_eq_self_iff]
      exact F.free.symm
    refine Or.inl ⟨hout, trivial, ?_, htask _ _, rfl, rfl, ?_⟩
    · exact update_self _ _ _
    · show Undone P σ.mm s4
      rw [hσ]
      exact undone_of_freed hcount hn B h.tidy hunused Fr C hlow12 Fd hlow23
        hmem B4 (htidy3.of_dir (by rw [hmem]))

/-! ### A machine with one page -/

/-- `INIT_TASK`, as far as `copy_process` looks at it. -/
def initTask : TaskStruct where
  state := 0
  counter := 15
  priority := 15
  signal := 0
  pid := 0
  father := -1
  leader := 0
  alarm := 0
  utime := 0
  stime := 0
  cutime := 0
  cstime := 0
  startTime := 0
  startCode := 0
  pwd := none
  root := none
  executable := none
  filp := fun _ => none
  codeBase := 0
  codeLimit := 0xA0000
  dataBase := 0
  dataLimit := 0xA0000
  tss := ⟨0, 0, 0x10, 0, 0, 0, 0, 0, 0, 0, 0, 0, 0, 0x17, 0x17, 0x17, 0x17, 0x17, 0x17, 40, 0x80000000⟩

/-- One page beyond the kernel and the buffer cache. -/
def onePage : MainMemory := ⟨512, 513, by omega, by omega⟩

/-- Task 0 before its first `fork`, in a machine with the main memory `M`. -/
def beforeFork (M : MainMemory) : Forking where
  mm := M.boot fun _ _ => 0
  task := fun nr => if nr = 0 then some (0, initTask) else none
  fCount := fun _ => 0
  iCount := fun _ => 0
  lastPid := 1
  jiffies := 0

theorem beforeFork_forks (M : MainMemory) : Forks 0 1 initTask (beforeFork M) where
  parent := by omega
  child := ⟨by omega, by omega⟩
  bases := ⟨rfl, rfl⟩
  limits := ⟨le_rfl, by decide⟩
  first := fun _ => by decide
  free := rfl
  unused := fun d hd => boot_unlinked M _ (mem_directory.2 ⟨by omega, by omega⟩)

/-- The registers of task 0 when it calls `fork`. -/
def firstRegs : Registers :=
  ⟨0, 0, 0, 0x17, 0, 0, 0, 0x17, 0x17, 0x17, 0x6800, 0x0f, 0x202, 0x20000, 0x17⟩

/-- The task takes the page, and there is none for the page table. -/
theorem onePage_full {f : ℕ} {s : Mm} (Fr : Fresh True onePage (onePage.boot fun _ _ => 0) 0 f s) : s.Full := by
  intro k hk hz
  have hcount : s.count (256 + k) = 0 := by
    rw [Mm.count, show 256 + k - 256 = k from by omega, hz]
    rfl
  obtain ⟨hmain, -, -, hheld⟩ := Fr.books.ledger.refs_of_count_zero (by omega) (by omega) hcount
  have hf : 256 + k = f := by
    have h1 : 512 ≤ 256 + k ∧ 256 + k < 513 := hmain
    have h2 : 512 ≤ f ∧ f < 513 := Fr.main
    omega
  rw [hf, Multiset.count_cons_self] at hheld
  omega

/-- With no free page the copy stops at its first page table. -/
theorem copyPageTables_full {s : Mm} (hfull : s.Full) (hfrom : present (s.mem 0 0))
    (hto : ¬present (s.mem 0 16)) : ∃ s', copyPageTables 0 (1 * 0x4000000) 0xA0000 s = .ok (-1) s' := by
  have hdir : dirIndex 0 = 0 ∧ dirIndex (1 * 0x4000000) = 16 := by decide
  have hcount : dirCount 0xA0000 = 0 + 1 := by decide
  have hnone : wp getFreePage (fun page s' => page = 0 ∧ s' = s) (fun _ _ => False) s := by
    apply wp_mono (getFreePage_spec s) _ (fun _ _ h => h)
    intro page s' h
    cases h with
    | none _ => exact ⟨rfl, rfl⟩
    | some k hk hz _ => exact absurd hz (hfull k hk)
  have hwp : wp (copyPageTables 0 (1 * 0x4000000) 0xA0000) (fun r _ => r = -1) (fun _ _ => False) s := by
    rw [copyPageTables, hdir.1, hdir.2, hcount]
    simp only [copyDirEntries, wp_ite, wp_bind, wp_loadWord]
    refine ⟨fun h => by omega, fun _ => ⟨fun h => absurd h hto, fun _ => ⟨fun _ => ?_, ?_⟩⟩⟩
    swap
    · exact fun h => absurd hfrom h
    apply wp_mono hnone _ (fun _ _ h => h)
    rintro page s' ⟨hz, -⟩
    exact ⟨fun _ => rfl, fun h => absurd hz h⟩
  obtain ⟨r, s', hrun, hr⟩ := returns_of_wp hwp
  exact ⟨s', hr ▸ hrun⟩

theorem fork_undoes_itself_first : ∃ page s1 s2 σ', page ≠ 0 ∧
      getFreePage (beforeFork onePage).mm = .ok page s1 ∧
      copyPageTables 0 (1 * 0x4000000) 0xA0000 s1 = .ok (-1) s2 ∧
      copyProcess 1 initTask firstRegs (beforeFork onePage) = .ok (-EAGAIN) σ' ∧
      TakenBack 0 1 (beforeFork onePage) σ' := by
  have B := boot_books True onePage fun _ _ => 0
  have hroom : ¬(onePage.boot fun _ _ => 0).Full := by
    intro hfull
    have hcount := (boot_spec onePage fun _ _ => 0).2.2 512 (by omega) (by omega)
    rw [MainMemory.base, if_pos ⟨le_rfl, by decide⟩] at hcount
    exact hfull 256 (by omega) (BitVec.eq_of_toNat_eq hcount)
  obtain ⟨page, s1, hget, hfirst, hne⟩ := returns_of_wp (wp_mono (wp_and (getFreePage_books B)
    (getFreePage_ok hroom)) (fun _ _ h => h) fun _ _ h => h.1)
  obtain ⟨hz, -⟩ | ⟨f, -, Fr⟩ := hfirst
  · exact absurd hz hne
  have hdir := Fr.others 0 (by have := Fr.main.lowMem_le; omega)
  have hto : ¬present (s1.mem 0 16) := by
    rw [hdir]
    exact boot_unlinked _ _ (mem_directory.2 ⟨by omega, by omega⟩)
  obtain ⟨s2, hcopy⟩ := copyPageTables_full (onePage_full Fr)
    ((Fr.books.ledger.kernelDir 0 (by omega)).2 (by omega)) hto
  have hout : RunsOut 1 initTask (beforeFork onePage) := Or.inr ⟨page, s1, s2, hne, hget, hcopy⟩
  have hwp := fork_undoes_itself (Live.boot (M := onePage) (m := fun _ _ => 0)) rfl
    (beforeFork_forks onePage) firstRegs
  obtain ⟨r, σ', hrun, ⟨_, hr, T⟩ | ⟨hno, _⟩⟩ := returns_of_wp hwp
  · exact ⟨page, s1, s2, σ', hne, hget, hcopy, hr ▸ hrun, T⟩
  · exact absurd hout hno

end OldLinux.Fork
