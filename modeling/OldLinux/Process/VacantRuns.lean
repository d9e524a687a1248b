import OldLinux.Lib.Trace
import OldLinux.Process.VacantSteps

/-!
# Empty slots in runs

A run is made of `fork`, `execve`, `exit`, `waitpid`, and accesses and instruction fetches with the
faults they take.  While the text of every program that is executed fits into a slot, and its strings
into the argument area, the slots without a task, and those of zombies, have no page tables, and nothing
a process does maps anything in the slot of another.  The check of `do_execve` on the sizes in the header adds
them up without looking for a carry, so there are programs that fetch instructions behind the end of their slot.
-/

namespace OldLinux.Process

open Lib Memory

variable {M : MainMemory} {m : ℕ → Page} {F : Files} {refs : ℕ → ℕ} {σ σ' : Machine} {k : Kernel}
  {s s' : Mm} {P Q nr : ℕ} {t : Task} {action : Action} {rest : List Action}

/-! ### What there is in a run -/

/-- An instruction fetch at `a`, in user mode.  `set_limit` stores `(limit-1)>>12`, so that a limit of 0
makes a segment of 4 GB. -/
def Machine.fetch (σ : Machine) (P : ℕ) (t : Task) (a : ℕ) : Option Machine :=
  if t.codeLimit ≠ 0 ∧ t.codeLimit ≤ a then some (σ.set P (t.next [.exit]) σ.kernel)
  else if present (σ.kernel.mm.pte (placeOf (base P + a))) then some σ
  else σ.doNoPage P t a

inductive Move where
  | event (e : Event)
  | fetch (a : ℕ)

def Machine.move (σ : Machine) (P : ℕ) : Move → Option Machine
  | .event e => σ.step P e
  | .fetch a => (σ.task P).bind fun t => σ.fetch P t a

/-- Accesses, `fork`, `execve`, `exit` and `waitpid`. -/
def Activity.Lists : Activity → Prop
  | .load _ => True
  | .store _ _ => True
  | .fork _ => True
  | .execve _ _ _ _ => True
  | .exit => True
  | .waitpid _ _ => True
  | _ => False

/-- The moves there can be. -/
def Machine.Possible (σ : Machine) (P : ℕ) : Move → Prop
  | .event (.start what) => σ.Enabled P (.start what) ∧ what.Lists
  | .event e => σ.Enabled P e
  | .fetch _ => P ≠ 0 ∧ ∃ t, σ.task P = some t ∧ t.todo = [] ∧ t.zombie = false

/-- The text of a program that passes the checks of `do_execve` fits into a slot, and its strings into the
argument area. -/
def Machine.Fits (σ : Machine) (P : ℕ) : Move → Prop
  | .event .run => ∀ t inode args envs strings rest, σ.task P = some t →
      t.todo = .exec inode args envs strings :: rest → σ.files.Runnable inode →
      TextFits (σ.files.text inode) ∧ (stringsPlace args envs).isSome
  | _ => True

/-- The machines that runs reach whose moves all meet the condition. -/
abbrev Life (M : MainMemory) (m : ℕ → Page) (F : Files) (refs : ℕ → ℕ)
    (cond : Machine → ℕ → Move → Prop) : Machine → Prop :=
  Reach (fun σ => σ = Machine.boot M m F refs) (fun σ (e : ℕ × Move) => σ.move e.1 e.2)
    (fun σ e => σ.Possible e.1 e.2 ∧ cond σ e.1 e.2)

/-! ### Every move keeps the slots -/

theorem boot_housed (M : MainMemory) (m : ℕ → Page) (F : Files) (refs : ℕ → ℕ) :
    Housed M (Machine.boot M m F refs) := by
  have h := boot_sound M m F refs
  refine ⟨h.books, h.slots, h.vacant, ?_, h.apart⟩
  intro P t ht
  have hok := h.ok P t ht
  rw [boot_task] at ht
  split at ht
  · cases ht
    exact ⟨⟨⟨by decide, le_rfl⟩, hok.limits.2⟩, hok.zero, hok.inside, hok.frames,
      pending_of_stores (fun _ h => absurd h List.not_mem_nil), hok.gone⟩
  · cases ht

/-- **Every step of a process.** -/
theorem Slots.perform (h : Housed M σ) (ht : σ.task P = some t) (htodo : t.todo = action :: rest)
    (hfits : ∀ inode args envs strings, action = .exec inode args envs strings →
      σ.files.Runnable inode → TextFits (σ.files.text inode))
    (hstep : σ.perform P (t.next rest) action = some σ') : Keeps M σ P σ' := by
  have hrunning : action.Simple → (∀ nr, action ≠ .fork nr) → Running M σ P t action rest :=
    fun hsimple hfork => ⟨h, ht, htodo, hsimple, (h.ok P t ht).pos htodo hfork⟩
  cases action with
  | load a => exact (hrunning trivial (fun _ h => by cases h)).load hstep
  | store a b => exact (hrunning trivial (fun _ h => by cases h)).store hstep
  | put a b => exact (hrunning trivial (fun _ h => by cases h)).put hstep
  | verify a size => exact h.verify ht htodo hstep
  | finishLoad f tmp => exact h.finishLoad ht htodo hstep
  | fork nr => exact h.fork ht htodo hstep
  | exec inode args envs strings =>
    exact (hrunning trivial (fun _ h => by cases h)).exec (hfits inode args envs strings rfl) hstep
  | execSwitch inode args envs text endData page => exact h.execSwitch ht htodo hstep
  | execFree args envs text endData page => exact h.execFree ht htodo hstep
  | exit => exact (hrunning trivial (fun _ h => by cases h)).exits hstep
  | exited => exact h.exited ht htodo hstep
  | release nr => exact (hrunning trivial (fun _ h => by cases h)).release hstep

/-- What a process starts begins with a check of the area it stores into, or stores nothing. -/
theorem Activity.Lists.pending {what : Activity} (h : what.Lists) : Pending s P t what.actions := by
  have hone : ∀ a : Action, a.Simple → (∀ c v, a ≠ .put c v) → Stores s P t.dataLimit [a] := by
    intro a ha hput b hb
    rw [List.mem_singleton.1 hb]
    exact ⟨ha, fun c v h => absurd h (hput c v)⟩
  cases what with
  | load a => exact pending_of_stores (hone _ trivial (fun _ _ h => by cases h))
  | store a v => exact pending_of_stores (hone _ trivial (fun _ _ h => by cases h))
  | fork nr => exact pending_of_stores (hone _ trivial (fun _ _ h => by cases h))
  | execve inode args envs strings => exact pending_of_stores (hone _ trivial (fun _ _ h => by cases h))
  | exit => exact pending_of_stores (hone _ trivial (fun _ _ h => by cases h))
  | waitpid statAddr child =>
    cases child with
    | none => exact ⟨rfl, fun _ h => absurd h List.not_mem_nil⟩
    | some c =>
      refine ⟨rfl, ?_⟩
      intro b hb
      rcases List.mem_cons.1 hb with hb | hb
      · rw [hb]
        exact ⟨trivial, fun _ _ h => by cases h⟩
      · obtain ⟨i, v, hi, hbv⟩ := mem_puts hb
        have hlen : (longBytes c.2).length = 4 := rfl
        rw [hbv]
        refine ⟨trivial, ?_⟩
        intro a w heq
        cases heq
        omega
  | _ => exact h.elim

theorem Slots.start (h : Housed M σ) {what : Activity} (he : σ.Enabled P (.start what))
    (hlists : what.Lists) (hstep : σ.step P (.start what) = some σ') : Keeps M σ P σ' := by
  obtain ⟨t, ht, htodo, hz, hfork⟩ := he
  simp only [Machine.step, ht, Option.map_some] at hstep
  cases hstep
  have hok := h.ok P t ht
  have hplain := actions_plain what
  refine h.alone ht h.books (Still.refl _ _) (fun f hf _ => hf) ?_
    ⟨hok.limits, ?_, hok.inside, ?_, hlists.pending, ?_⟩
  · intro _ f hf
    rw [frames_of_plain (t := t.next what.actions) hplain] at hf
    rw [List.mem_singleton.1 hf]
    exact Or.inl (frame_mem_frames t)
  · intro h0
    refine ⟨(hok.zero h0).1, (hok.zero h0).2.1, hz, ?_⟩
    obtain ⟨nr, hnr⟩ := hfork h0
    intro b hb
    have hb' : b ∈ what.actions := hb
    rw [hnr] at hb'
    exact ⟨nr, List.mem_singleton.1 hb'⟩
  · intro hP
    rw [frames_of_plain (t := t.next what.actions) hplain]
    refine ⟨List.nodup_singleton _, ?_⟩
    intro f hf
    rw [List.mem_singleton.1 hf]
    exact hok.frame_held hP
  · intro hz'
    exact absurd (hz.symm.trans hz') Bool.noConfusion

/-- The machine with other frames in the kernel's hands. -/
theorem Slots.kernel (h : Housed M σ) (B : Books True M k.mm k.held) (C : Calm nowhere nowhere σ.kernel.mm k.mm)
    (hheld : ∀ Q u, Q ≠ 0 → σ.task Q = some u → ∀ f ∈ u.frames, f ∈ k.held) :
    Keeps M σ P { σ with kernel := k } where
  housed :=
    { books := B
      slots := h.slots
      vacant := fun Q hQ => (C.empty (fun _ _ h => h)).2 (h.vacant Q hQ)
      ok := fun Q u hu => (h.ok Q u hu).others (h.slots Q u hu) C.still (fun _ _ h => h)
        (fun h0 => hheld Q u h0 hu)
      apart := h.apart }
  still := C.still.mono (fun _ h => h.elim)

/-- **Every move.** -/
theorem Slots.move (h : Housed M σ) {e : Move} (he : σ.Possible P e) (hc : σ.Fits P e)
    (hstep : σ.move P e = some σ') : Keeps M σ P σ' := by
  have hsame : Keeps M σ P σ := ⟨h, Still.refl _ _⟩
  cases e with
  | fetch a =>
    obtain ⟨hP0, t, ht, htodo, hz⟩ := he
    have hok := h.ok P t ht
    simp only [Machine.move, ht, Option.bind_some, Machine.fetch] at hstep
    split at hstep
    · cases hstep
      exact h.dies ht hP0 hz h.books (Still.refl _ _) (fun f hf _ => hf)
    · rename_i hlim
      have hlimits := hok.limits
      have ha : a < t.dataLimit := by omega
      rw [placeOf_base (h.slots P t ht) (show a < 0x4000000 by omega)] at hstep
      split at hstep
      · cases hstep
        exact hsame
      · rename_i habs
        refine h.fault ht hP0 hz ha habs ?_ hstep
        rw [htodo]
        exact fun _ h => absurd h List.not_mem_nil
  | event e =>
    cases e with
    | start what => exact h.start he.1 he.2 hstep
    | run =>
      obtain ⟨t, action, rest, ht, htodo, hrun⟩ := run_cases hstep
      refine h.perform ht htodo ?_ hrun
      intro inode args envs strings ha hrunnable
      rw [ha] at htodo
      exact (hc t inode args envs strings rest ht htodo hrunnable).1
    | files F =>
      cases hstep
      exact ⟨⟨h.books, h.slots, h.vacant, h.ok, h.apart⟩, Still.refl _ _⟩
    | refs r =>
      cases hstep
      exact ⟨⟨h.books, h.slots, h.vacant, h.ok, h.apart⟩, Still.refl _ _⟩
    | take =>
      cases hstep
      obtain ⟨C, hheld⟩ := take_calm h.books
      refine h.kernel (take_books h.books) C ?_
      intro Q u h0 hu f hf
      exact hheld f ((h.ok Q u hu).held h0 f hf)
    | give f =>
      cases hstep
      obtain ⟨B, hmem⟩ := give_calm h.books he.1
      refine h.kernel B (calm_of_mem hmem) ?_
      intro Q u h0 hu
      exact give_frames (P := P) he hu ((h.ok Q u hu).held h0)

/-! ### Directory entries that are not present are zero -/

theorem call_tidy {α : Type} {c : MmM α} {next : α → Mm → Machine}
    (hc : wp c (fun _ s => s.Tidy) (fun _ s => s.Tidy) σ.kernel.mm)
    (hnext : ∀ a s, (next a s).kernel.mm = s) (hstep : σ.call P t c next = some σ') :
    σ'.kernel.mm.Tidy := by
  rcases call_cases hc hstep with ⟨a, s, hs, hσ'⟩ | ⟨s, hs, hσ'⟩
  · rw [hσ', hnext]
    exact hs
  · rw [hσ']
    exact hs

theorem dirIndex_base (hP : P < 64) : dirIndex (base P) = P * 16 := by
  rw [dirIndex, base]
  omega

theorem leaves_tryTasks (hP : P < 64) {inode tmp : ℕ} (htmp : tmp < 0x4000000) (n : ℕ) (hn : n < 64) :
    Leaves Mm.Tidy (σ.tryTasks P inode tmp n) := by
  have hdir : dirIndex tmp ≤ 15 := by
    rw [dirIndex]
    omega
  induction n with
  | zero => exact Leaves.pure _
  | succ n ih =>
    have hrest := ih (by omega)
    refine Leaves.ite (fun _ => ?_) (fun _ => hrest)
    refine Leaves.bind (leaves_tryToShare ?_ ?_) (fun _ => Leaves.ite (fun _ => Leaves.pure _) (fun _ => hrest))
    · rw [dirIndex_base hn]
      omega
    · rw [dirIndex_base hP]
      omega

theorem leaves_findPage (hP : P < 64) {tmp : ℕ} (htmp : tmp < 0x4000000) :
    Leaves Mm.Tidy (σ.findPage P t tmp) := by
  unfold Machine.findPage
  split
  · exact Leaves.bind (leaves_getEmptyPage _) (fun _ => Leaves.pure _)
  · refine Leaves.ite (fun _ => Leaves.bind (leaves_getEmptyPage _) (fun _ => Leaves.pure _)) (fun _ => ?_)
    have hshare : Leaves Mm.Tidy (σ.sharePage P ‹ℕ› tmp) :=
      Leaves.ite (fun _ => Leaves.pure _) (fun _ => leaves_tryTasks hP htmp 63 (by omega))
    refine Leaves.bind hshare (fun _ => Leaves.ite (fun _ => Leaves.pure _) (fun _ => ?_))
    exact leaves_getFreePage (fun _ _ => Leaves.ite (fun _ => Leaves.throw _) (fun _ => Leaves.pure _))

theorem doNoPage_tidy (h : σ.kernel.mm.Tidy) (hP : P < 64) {a : ℕ} (ha : a < 0x4000000)
    (hstep : σ.doNoPage P t a = some σ') : σ'.kernel.mm.Tidy := by
  refine call_tidy (leaves_findPage hP (show a - a % 4096 < 0x4000000 by omega) _ h) ?_ hstep
  intro page s
  cases page <;> rfl

theorem poke_tidy (h : s.Tidy) {a : ℕ} (hpres : present (s.pte (placeOf a)))
    (hhigh : 256 ≤ frameOf (s.pte (placeOf a))) (b : Byte) :
    wp (poke a b) (fun _ s' => s'.Tidy) (fun _ s' => s'.Tidy) s := by
  have hd : present (s.mem 0 (dirIndex a)) := dir_of_pte hpres
  have hne := (h _ (dirIndex_lt a)).frame_ne hd
  have hentry : s.mem (frameOf (s.mem 0 (dirIndex a))) (tableIndex a) = s.pte (placeOf a) := by
    rw [pte_of_present hd, Mm.entry, placeOf_fst, placeOf_snd, Mm.table]
  rw [poke, wp_bind, wp_loadWord, wp_bind, wp_loadWord, wp_bind, wp_storeWord, wp_modify, hentry]
  exact (h.store hne _ _).storePage (by omega) _

theorem leaves_freeSegments (hP : P < 64) (hlim : t.codeLimit ≤ 0x4000000 ∧ t.dataLimit ≤ 0x4000000) :
    Leaves Mm.Tidy (freeSegments P t) := by
  have hone : ∀ size ≤ 0x4000000, Leaves Mm.Tidy (freePageTables (base P) size) := by
    intro size hsize
    apply leaves_freePageTables
    rw [dirIndex_base hP, dirCount]
    omega
  exact Leaves.bind (hone _ hlim.1) (fun _ => hone _ hlim.2)

theorem leaves_putArgs (a : ℕ) (page : List ℕ) : Leaves Mm.Tidy (putArgs a page) := by
  induction page generalizing a with
  | nil => exact Leaves.pure _
  | cons f page ih =>
    exact Leaves.bind (leaves_putPage _ _) (fun _ => Leaves.bind (ih _) (fun _ => Leaves.pure _))

theorem leaves_freeAll (page : List ℕ) : Leaves Mm.Tidy (copyStrings.freeAll page) := by
  induction page with
  | nil => exact Leaves.pure _
  | cons f page ih => exact Leaves.bind (leaves_freePage _) (fun _ => ih)

theorem leaves_copyStrings (strings : ℕ → Page) (i n : ℕ) (page : List ℕ) :
    Leaves Mm.Tidy (copyStrings strings i n page) := by
  induction n generalizing i page with
  | zero => exact Leaves.pure _
  | succ n ih =>
    refine leaves_getFreePage (fun p hp => Leaves.ite (fun _ => ?_) (fun hne => ?_))
    · exact Leaves.bind (leaves_freeAll page) (fun _ => Leaves.pure _)
    · obtain ⟨f, hf, hge, -⟩ := hp hne
      refine Leaves.bind (Leaves.modify fun s hs => ?_) (fun _ => ih _ _)
      exact hs.storePage (show p / 4096 ≠ 0 by omega) _

theorem leaves_copyBoth (strings : ℕ → Page) (p : ℕ) : Leaves Mm.Tidy (copyBoth strings p) := by
  refine Leaves.bind (leaves_copyStrings _ _ _ _) fun page => ?_
  cases page with
  | none => exact Leaves.pure _
  | some page =>
    exact Leaves.ite (fun _ => Leaves.bind (leaves_freeAll page) (fun _ => Leaves.pure _))
      (fun _ => Leaves.pure _)

theorem leaves_copyProcess (hP : P < 64) (hnr : nr < 64) (hlim : t.dataLimit ≤ 0x4000000) :
    Leaves Mm.Tidy (copyProcess P nr t) := by
  have hcount : dirCount t.dataLimit ≤ 16 := by
    rw [dirCount]
    omega
  have hslot : ∀ Q < 64, dirIndex (base Q) + dirCount t.dataLimit ≤ 1024 := by
    intro Q hQ
    rw [dirIndex_base hQ]
    omega
  refine leaves_getFreePage (fun p _ => Leaves.ite (fun _ => Leaves.pure _) (fun _ => ?_))
  refine Leaves.ite (fun _ => Leaves.throw _) (fun _ => ?_)
  refine Leaves.bind (leaves_copyPageTables (hslot P hP) (hslot nr hnr)) (fun r => ?_)
  refine Leaves.ite (fun _ => ?_) (fun _ => Leaves.pure _)
  refine Leaves.bind (leaves_freePageTables (hslot nr hnr)) (fun _ => ?_)
  exact Leaves.bind (leaves_freePage _) (fun _ => Leaves.pure _)

theorem leaves_verifyPages (start n : ℕ) : Leaves Mm.Tidy (verifyPages start n) := by
  induction n generalizing start with
  | zero => exact Leaves.pure _
  | succ n ih => exact Leaves.bind (leaves_writeVerify _) (fun _ => ih _)

theorem leaves_finishPage {f : ℕ} (hf : f ≠ 0) (a : ℕ) (contents : Page) :
    Leaves Mm.Tidy (finishPage f a contents) := by
  refine Leaves.bind (Leaves.modify fun s hs => hs.storePage hf contents) (fun _ => ?_)
  refine Leaves.bind (leaves_putPage _ _) (fun _ => Leaves.ite (fun _ => ?_) (fun _ => Leaves.pure _))
  exact Leaves.bind (leaves_freePage _) (fun _ => Leaves.throw _)

theorem Running.access_tidy {a : ℕ} {v : Byte} (r : Running M σ P t action rest)
    (h : σ.kernel.mm.Tidy) (ha : a < t.dataLimit) (hpres : present (σ.pte P a))
    (hhigh : 256 ≤ frameOf (σ.pte P a)) :
    wp (poke (base P + a) v) (fun _ s => s.Tidy) (fun _ s => s.Tidy) σ.kernel.mm := by
  obtain ⟨hplace, -⟩ := r.place ha
  exact poke_tidy h (by rw [hplace]; exact hpres) (by rw [hplace]; exact hhigh) v

theorem Running.wpAccess_tidy {a : ℕ} {v : Byte} (r : Running M σ P t action rest)
    (h : σ.kernel.mm.Tidy) (ha : a < t.dataLimit) (hpres : present (σ.pte P a)) :
    wp (do doWpPage (base P + a); poke (base P + a) v) (fun _ s => s.Tidy) (fun _ s => s.Tidy)
      σ.kernel.mm := by
  obtain ⟨hplace, hp⟩ := r.place ha
  have hp' : placeOf (base P + a) ∈ places := by
    rw [hplace]
    exact hp
  have hpres' : present (σ.kernel.mm.pte (placeOf (base P + a))) := by
    rw [hplace]
    exact hpres
  rw [wp_bind]
  apply wp_mono (wp_and (doWpPage_books r.housed.books hp' hpres')
    (doWpPage_tidy h (dir_of_pte hpres'))) _ (fun _ _ h => h.2)
  intro _ s hs
  obtain ⟨U, htidy⟩ := hs
  obtain ⟨hpres1, hhigh1⟩ := Unshared.mapped U hpres'
  exact poke_tidy htidy hpres1 hhigh1 v

theorem Slots.perform_tidy (h : Housed M σ) (htidy : σ.kernel.mm.Tidy) (ht : σ.task P = some t)
    (htodo : t.todo = action :: rest) (hstep : σ.perform P (t.next rest) action = some σ') :
    σ'.kernel.mm.Tidy := by
  have hok := h.ok P t ht
  have hP := h.slots P t ht
  have hlim := hok.limits
  have hrunning : action.Simple → (∀ nr, action ≠ .fork nr) → Running M σ P t action rest :=
    fun hsimple hfork => ⟨h, ht, htodo, hsimple, hok.pos htodo hfork⟩
  cases action with
  | load a =>
    simp only [Machine.perform] at hstep
    split at hstep
    · cases hstep
      exact htidy
    · rename_i hle
      have ha : a < t.dataLimit := not_le.1 hle
      split at hstep
      · cases hstep
        exact htidy
      · exact doNoPage_tidy htidy hP (by omega) hstep
  | store a v =>
    have r := hrunning trivial (fun _ h => by cases h)
    simp only [Machine.perform] at hstep
    split at hstep
    · cases hstep
      exact htidy
    · rename_i hle
      have ha : a < t.dataLimit := not_le.1 hle
      obtain ⟨-, hp⟩ := r.place ha
      split at hstep
      · rename_i hpres
        split at hstep
        · rename_i hw
          exact call_tidy (r.access_tidy htidy ha hpres (private_of_writable h.books hp hpres hw).1)
            (fun _ _ => rfl) hstep
        · exact call_tidy (r.wpAccess_tidy htidy ha hpres) (fun _ _ => rfl) hstep
      · exact doNoPage_tidy htidy hP (by omega) hstep
  | put a v =>
    have r := hrunning trivial (fun _ h => by cases h)
    simp only [Machine.perform] at hstep
    split at hstep
    · cases hstep
      exact htidy
    · rename_i hle
      have ha : a < t.dataLimit := not_le.1 hle
      split at hstep
      · rename_i hpres
        have hstores := r.stores (.put a v) (by rw [htodo]; exact List.mem_cons_self ..)
        exact call_tidy (r.access_tidy htidy ha hpres (hstores.2 a v rfl ha hpres)) (fun _ _ => rfl) hstep
      · exact doNoPage_tidy htidy hP (by omega) hstep
  | verify a size => exact call_tidy (leaves_verifyPages _ _ _ htidy) (fun _ _ => rfl) hstep
  | finishLoad f tmp =>
    have hP0 : P ≠ 0 := hok.pos htodo (fun _ h => by cases h)
    have hf : f ∈ σ.kernel.held := by
      refine hok.held hP0 f ?_
      rw [Task.frames, htodo]
      simp
    have hge := (h.books.ledger.heldIn f hf).lowMem_le
    simp only [Machine.perform] at hstep
    exact call_tidy (σ := { σ with kernel := ⟨σ.kernel.mm, σ.kernel.held.erase f⟩ })
      (leaves_finishPage (by omega) _ _ _ htidy) (fun _ _ => rfl) hstep
  | fork nr =>
    simp only [Machine.perform, Machine.fork] at hstep
    split at hstep
    · rename_i hfree
      refine call_tidy (leaves_copyProcess hP hfree.2.1 (show (t.next rest).dataLimit ≤ 0x4000000 from
        hlim.2) _ htidy) ?_ hstep
      intro child s
      cases child <;> rfl
    · cases hstep
      exact htidy
  | exec inode args envs strings =>
    simp only [Machine.perform, Machine.exec] at hstep
    split at hstep
    · obtain ⟨p, -, hstep⟩ := Option.bind_eq_some_iff.1 hstep
      refine call_tidy (leaves_copyBoth _ _ _ htidy) ?_ hstep
      intro page s
      cases page <;> rfl
    · cases hstep
      exact htidy
  | execSwitch inode args envs text endData page =>
    cases hstep
    exact htidy
  | execFree args envs text endData page =>
    refine call_tidy (Leaves.bind (leaves_freeSegments hP ?_) (fun _ => leaves_putArgs _ _) _ htidy)
      (fun _ _ => rfl) hstep
    exact ⟨le_trans hlim.1.2 hlim.2, hlim.2⟩
  | exit =>
    refine call_tidy (leaves_freeSegments hP ?_ _ htidy) (fun _ _ => rfl) hstep
    exact ⟨le_trans hlim.1.2 hlim.2, hlim.2⟩
  | exited =>
    cases hstep
    exact htidy
  | release nr =>
    simp only [Machine.perform] at hstep
    split at hstep
    · cases hstep
      exact htidy
    · split at hstep
      · exact call_tidy (leaves_freePage _ _ htidy) (fun _ _ => rfl) hstep
      · cases hstep
        exact htidy

theorem Slots.move_tidy (h : Housed M σ) (htidy : σ.kernel.mm.Tidy) {e : Move}
    (hstep : σ.move P e = some σ') : σ'.kernel.mm.Tidy := by
  cases e with
  | fetch a =>
    obtain ⟨t, ht, hfetch⟩ := Option.bind_eq_some_iff.1 hstep
    have hlimits := (h.ok P t ht).limits
    rw [Machine.fetch] at hfetch
    split at hfetch
    · cases hfetch
      exact htidy
    · rename_i hlim
      split at hfetch
      · cases hfetch
        exact htidy
      · exact doNoPage_tidy htidy (h.slots P t ht) (by omega) hfetch
  | event e =>
    cases e with
    | start what =>
      obtain ⟨t, -, hσ'⟩ := Option.map_eq_some_iff.1 hstep
      rw [← hσ']
      exact htidy
    | run =>
      obtain ⟨t, action, rest, ht, htodo, hrun⟩ := run_cases hstep
      exact h.perform_tidy htidy ht htodo hrun
    | files F =>
      cases hstep
      exact htidy
    | refs r =>
      cases hstep
      exact htidy
    | take =>
      cases hstep
      have hleaves : Leaves Mm.Tidy (getFreePage >>= fun p => (pure p : MmM ℕ)) :=
        leaves_getFreePage (fun p _ => Leaves.pure p)
      have hget : wp getFreePage (fun _ s => s.Tidy) (fun _ s => s.Tidy) σ.kernel.mm := by
        have hwp := hleaves _ htidy
        rw [wp_bind] at hwp
        exact hwp
      show (σ.kernel.take).mm.Tidy
      rw [wp] at hget
      rw [Kernel.take]
      cases hrun : getFreePage σ.kernel.mm with
      | ok p s =>
        rw [hrun] at hget
        exact hget
      | error e s =>
        rw [hrun] at hget
        exact hget
    | give f =>
      cases hstep
      exact after_of_wp (leaves_freePage _ _ htidy)

end OldLinux.Process
