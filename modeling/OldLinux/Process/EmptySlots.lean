import OldLinux.Process.Sharing
import OldLinux.Process.VacantRuns

/-!
# The empty slots, and the two panics that rest on them

`copy_page_tables` stops the machine when the slot it copies to has a page table, and `try_to_share`
when the page it maps is there already.  In runs whose programs fit into their slots neither happens.
A header whose sizes add up to 2^32 passes the check of `do_execve`, and the program that it belongs
to leaves a page in the next slot.
-/

namespace OldLinux.Process

open Lib Memory

variable {M : MainMemory} {m : ℕ → Page} {F : Files} {refs : ℕ → ℕ} {σ σ' : Machine} {s s' : Mm}
  {held : Multiset ℕ} {P Q nr : ℕ} {t : Task} {action : Action} {rest : List Action}
  {cond : Machine → ℕ → Move → Prop}

/-! ### The two panics -/

/-- The panic of `copy_page_tables`. -/
def alreadyExist : Trap := .panic "copy_page_tables: already exist"

/-- The panic of `try_to_share`. -/
def pageExists : Trap := .panic "try_to_share: to_page already exists"

/-- `fork` panics because the new slot has a page table. -/
def Machine.ForkClashes (σ : Machine) (P : ℕ) : Prop :=
  ∃ t nr rest s, σ.task P = some t ∧ t.todo = .fork nr :: rest ∧ 0 < nr ∧ nr < 64 ∧
    σ.task nr = none ∧ copyProcess P nr (t.next rest) σ.kernel.mm = .error alreadyExist s

/-- A fault for an absent page panics because the page is there. -/
def Machine.FaultClashes (σ : Machine) (P : ℕ) : Prop :=
  ∃ t a s, σ.task P = some t ∧ P ≠ 0 ∧ (a < t.dataLimit ∨ a < t.codeLimit) ∧
    ¬present (σ.kernel.mm.pte (placeOf (base P + a))) ∧
    σ.findPage P t (a - a % 4096) σ.kernel.mm = .error pageExists s

/-- Neither of the two. -/
def Clash (e : Trap) : Prop := e = alreadyExist ∨ e = pageExists

variable {e : Trap}

theorem Clash.oom_ne (he : Clash e) : Trap.oom ≠ e := by
  rcases he with h | h <;> rw [h] <;> exact Trap.noConfusion

theorem never_panic (he : Clash e) {message : String}
    (h1 : message ≠ "copy_page_tables: already exist")
    (h2 : message ≠ "try_to_share: to_page already exists") {α : Type} :
    Never e (throw (.panic message) : MmM α) := by
  apply Never.throw
  rcases he with h | h
  · rw [h]
    exact fun heq => h1 (Trap.panic.inj heq)
  · rw [h]
    exact fun heq => h2 (Trap.panic.inj heq)

theorem never_load (t i : ℕ) : Never e (loadWord t i) := fun _ => trivial

theorem never_store (t i : ℕ) (w : Word) : Never e (storeWord t i w) := fun _ => trivial

theorem never_getFreePage : Never e getFreePage := fun s =>
  wp_mono (getFreePage_spec s) (fun _ _ _ => trivial) (fun _ _ h => h.elim)

theorem never_freePage (he : Clash e) (a : ℕ) : Never e (freePage a) := by
  refine Never.ite (Never.pure _) (Never.look fun s => Never.ite ?_ ?_)
  · exact never_panic he (by decide) (by decide)
  · refine Never.bind (Never.modify _) (fun _ => Never.ite (Never.pure _) ?_)
    exact Never.bind (Never.modify _) (fun _ => never_panic he (by decide) (by decide))

theorem never_freeEntry (he : Clash e) (t nr : ℕ) : Never e (freeEntry t nr) := by
  refine Never.bind (never_load _ _) (fun _ => Never.ite ?_ (never_store _ _ _))
  exact Never.bind (never_freePage he _) (fun _ => never_store _ _ _)

theorem never_freeDirEntry (he : Clash e) (d : ℕ) : Never e (freeDirEntry d) := by
  refine Never.bind (never_load _ _) (fun w => Never.ite ?_ (Never.pure _))
  have hloop := Never.countdown (freeEntries (frameOf w)) (freeEntry (frameOf w)) (fun _ => rfl)
    (fun _ _ => rfl) (never_freeEntry he _) 1024 0
  refine Never.bind hloop (fun _ => Never.bind (never_load _ _) (fun _ => ?_))
  exact Never.bind (never_freePage he _) (fun _ => never_store _ _ _)

theorem never_freePageTables (he : Clash e) (a size : ℕ) : Never e (freePageTables a size) := by
  refine Never.ite (never_panic he (by decide) (by decide)) (Never.ite ?_ ?_)
  · exact never_panic he (by decide) (by decide)
  · exact Never.countdown freeDirEntries freeDirEntry (fun _ => rfl) (fun _ _ => rfl)
      (never_freeDirEntry he) _ _

theorem never_putPage (page a : ℕ) : Never e (putPage page a) := by
  refine Never.bind (never_load _ _) (fun _ => Never.ite ?_ ?_)
  · exact Never.bind (never_store _ _ _) (fun _ => Never.pure _)
  · refine Never.bind never_getFreePage (fun _ => Never.ite (Never.pure _) ?_)
    refine Never.bind (never_store _ _ _) (fun _ => ?_)
    exact Never.bind (never_store _ _ _) (fun _ => Never.pure _)

theorem never_getEmptyPage (he : Clash e) (a : ℕ) : Never e (getEmptyPage a) := by
  have hoom : ∀ p, Never e (do freePage p; throw .oom : MmM Unit) := fun p =>
    Never.bind (never_freePage he p) (fun _ => Never.throw he.oom_ne)
  refine Never.bind never_getFreePage (fun _ => Never.ite (hoom _) ?_)
  exact Never.bind (never_putPage _ _) (fun _ => Never.ite (hoom _) (Never.pure _))

/-- **`fork`** into an empty slot finds no page table there. -/
theorem copyProcess_clash (B : Books True M s held) (hP : P < 64) (hnr : nr < 64) (hnr0 : 0 < nr)
    (hlim : t.dataLimit ≤ 0x4000000) (hzero : P = 0 → t.dataLimit ≤ 0x400000) (hempty : Empty s nr) :
    wp (copyProcess P nr t) (fun _ _ => True) (fun e _ => e ≠ alreadyExist) s := by
  have he : Clash alreadyExist := Or.inl rfl
  rw [copyProcess, wp_bind]
  apply wp_mono (getFreePage_books B) _ (fun _ _ h => h.elim)
  intro p s1 h1
  rw [wp_ite]
  rcases h1 with ⟨hp, hs1⟩ | ⟨f, hp, Fr⟩
  · exact ⟨fun _ => trivial, fun h => absurd hp h⟩
  · refine ⟨fun _ => trivial, fun _ => ?_⟩
    rw [wp_ite]
    refine ⟨fun _ => never_panic he (by decide) (by decide) s1, fun _ => ?_⟩
    rw [wp_bind]
    apply wp_mono (copyPageTables_books Fr.books hP hnr hnr0 hlim (fun _ h => hzero h))
    · intro r s2 _
      refine Never.ite ?_ (Never.pure _) s2
      refine Never.bind (never_freePageTables he _ _) (fun _ => ?_)
      exact Never.bind (never_freePage he _) (fun _ => Never.pure _)
    · intro e s2 h2
      obtain ⟨-, -, d, h3, h4, h5⟩ := h2
      rw [Fr.dir] at h5
      exact absurd h5 (hempty d (mem_directory.2 ⟨by omega, by omega⟩) (by omega))

/-- `try_to_share` for an absent page does not find it there. -/
theorem tryToShare_clash (B : Books True M s held) {a b address : ℕ} (ha : a < 64) (hb : b < 64)
    (habs : ¬present (s.pte (slotPlace b address))) :
    wp (tryToShare address (a * 0x4000000) (b * 0x4000000)) (fun _ _ => True)
      (fun e _ => e ≠ pageExists) s := by
  have hoom := (show Clash pageExists from Or.inr rfl).oom_ne
  have hda := dirIndex_slot ha address
  have hdb := dirIndex_slot hb address
  simp only [tryToShare, wp_bind, wp_loadWord, wp_ite, wp_get, wp_pure, wp_storeWord, wp_modify,
    wp_throw, hda, hdb]
  refine ⟨fun _ => trivial, fun _ => ⟨fun _ => trivial, fun _ => ⟨fun _ => trivial, fun _ => ?_⟩⟩⟩
  constructor
  · intro hdq
    refine ⟨fun hp => absurd ?_ habs, fun _ => trivial⟩
    rw [pte_of_present hdq]
    exact hp
  · intro _
    apply wp_mono (getFreePage_books B) _ (fun _ _ h => h.elim)
    intro tmp s1 h
    rcases h with ⟨hz, hs1⟩ | ⟨f, htmp, Fr⟩
    · exact ⟨fun _ => hoom, fun hne => absurd hz hne⟩
    · have hge := Fr.main.lowMem_le
      refine ⟨fun _ => hoom, fun _ => ⟨fun hp => ?_, fun _ => trivial⟩⟩
      rw [htmp, show f * 4096 / 4096 = f from by omega, store_mem_of_ne _ (by omega), Fr.empty] at hp
      exact absurd hp present_zero

theorem tryTasks_clash (B : Books True M σ.kernel.mm σ.kernel.held) (hP : P < 64) (hP0 : 0 < P)
    {inode tmp : ℕ} (htmp : tmp < 0x4000000) (habs : ¬present (σ.pte P tmp)) (n : ℕ) (hn : n < 64) :
    wp (σ.tryTasks P inode tmp n) (fun _ _ => True) (fun e _ => e ≠ pageExists) σ.kernel.mm := by
  induction n with
  | zero => trivial
  | succ n ih =>
    have hrest := ih (by omega)
    rw [Machine.tryTasks, wp_ite]
    refine ⟨fun _ => ?_, fun _ => hrest⟩
    rw [wp_bind]
    apply wp_mono (wp_and (tryToShare_books B hn (by omega) hP hP0 htmp)
      (tryToShare_clash B hn hP habs)) _ (fun _ _ h => h.2)
    intro r s1 h1
    rw [wp_ite]
    refine ⟨fun _ => trivial, fun hr => ?_⟩
    rcases h1.1 with ⟨_, hs1⟩ | ⟨hr', _⟩
    · rw [hs1]
      exact hrest
    · exact absurd hr' hr

/-- **A fault** for an absent page does not find it there. -/
theorem findPage_clash (B : Books True M σ.kernel.mm σ.kernel.held) (hP : P < 64) (hP0 : 0 < P)
    {tmp : ℕ} (htmp : tmp < 0x4000000) (habs : ¬present (σ.pte P tmp)) :
    wp (σ.findPage P t tmp) (fun _ _ => True) (fun e _ => e ≠ pageExists) σ.kernel.mm := by
  have he : Clash pageExists := Or.inr rfl
  have hempty : Never pageExists (do getEmptyPage (base P + tmp); return none : MmM (Option ℕ)) :=
    Never.bind (never_getEmptyPage he _) (fun _ => Never.pure _)
  unfold Machine.findPage
  split
  · exact hempty _
  · rename_i inode _
    rw [wp_ite]
    refine ⟨fun _ => hempty _, fun _ => ?_⟩
    have hshare : wp (σ.sharePage P inode tmp) (fun _ _ => True) (fun e _ => e ≠ pageExists)
        σ.kernel.mm := by
      rw [Machine.sharePage, wp_ite]
      exact ⟨fun _ => trivial, fun _ => tryTasks_clash B hP hP0 htmp habs 63 (by omega)⟩
    rw [wp_bind]
    apply wp_mono hshare _ (fun _ _ h => h)
    intro shared s1 _
    refine Never.ite (Never.pure _) ?_ s1
    exact Never.bind never_getFreePage (fun _ => Never.ite (Never.throw he.oom_ne) (Never.pure _))

/-! ### Empty slots -/

/-- The slots without a task, and those of zombies, have an empty directory. -/
def Machine.SlotsEmpty (σ : Machine) : Prop :=
  ∀ nr, 1 ≤ nr → nr < 64 → (∀ t, σ.task nr = some t → t.zombie = true) → ∀ i < 16,
  σ.kernel.mm.mem 0 (nr * 16 + i) = 0

/-- Nothing came to be mapped in the slot of a task other than `P`. -/
def NothingMade (σ : Machine) (P : ℕ) (σ' : Machine) : Prop :=
  ∀ Q, Q ≠ P → σ.task Q ≠ none →
    (∀ d ∈ directory, d / 16 = Q → present (σ'.kernel.mm.mem 0 d) → present (σ.kernel.mm.mem 0 d)) ∧
    ∀ q ∈ places, inSlot Q q → present (σ'.kernel.mm.pte q) → present (σ.kernel.mm.pte q)

theorem Slots.slotsEmpty (h : Housed M σ) (htidy : σ.kernel.mm.Tidy) : σ.SlotsEmpty := by
  intro nr h1 h2 hgone i hi
  have hempty : Empty σ.kernel.mm nr := by
    cases ht : σ.task nr with
    | none => exact h.vacant nr ht
    | some t => exact ((h.ok nr t ht).gone (hgone t ht)).2.2
  apply (htidy _ (by omega)).eq_zero
  exact hempty _ (mem_directory.2 ⟨by omega, by omega⟩) (by omega)

theorem Keeps.nothing (h : Keeps M σ P σ') : NothingMade σ P σ' := by
  intro Q hne hQ
  have hX : ∀ q, inSlot Q q → ¬(inSlot P q ∨ σ.task (q.1 / 16) = none) := by
    intro q hq hor
    rcases hor with hP | hnone
    · exact hne (hq.symm.trans hP)
    · rw [hq] at hnone
      exact hQ hnone
  constructor
  · intro d _ hd hp
    exact (h.still.dir d (fun j => hX (d, j) hd)).1 hp
  · intro q hq hs hp
    exact (h.still.present q hq (hX q hs)).1 hp

theorem Slots.no_clash (h : Housed M σ) (P : ℕ) : ¬σ.ForkClashes P ∧ ¬σ.FaultClashes P := by
  constructor
  · intro hclash
    obtain ⟨t, nr, rest, s, ht, htodo, hnr0, hnr, hfree, hrun⟩ := hclash
    have hok := h.ok P t ht
    have hspec := copyProcess_clash (t := t.next rest) h.books (h.slots P t ht) hnr hnr0 hok.limits.2
      (fun h0 => (hok.zero h0).1) (h.vacant nr hfree)
    rw [wp, hrun] at hspec
    exact hspec rfl
  · intro hclash
    obtain ⟨t, a, s, ht, hP0, ha, habs, hrun⟩ := hclash
    have hlim := (h.ok P t ht).limits
    have hP := h.slots P t ht
    have habs' : ¬present (σ.pte P (a - a % 4096)) := by
      rw [Machine.pte, slotPlace_page, ← placeOf_base hP (show a < 0x4000000 by omega)]
      exact habs
    have hspec := findPage_clash (t := t) h.books hP (by omega) (show a - a % 4096 < 0x4000000 by omega) habs'
    rw [wp, hrun] at hspec
    exact hspec rfl

theorem Life.housed (h : Life M m F refs Machine.Fits σ) : Housed M σ ∧ σ.kernel.mm.Tidy := by
  refine Reach.invariant (I := fun σ => Housed M σ ∧ σ.kernel.mm.Tidy) ?_ ?_ h
  · intro σ hσ
    rw [hσ]
    exact ⟨boot_housed M m F refs, boot_tidy M m⟩
  · intro σ e σ' hI ha hstep
    exact ⟨(hI.1.move ha.1 ha.2 hstep).housed, hI.1.move_tidy hI.2 hstep⟩

/-- **An empty slot has an empty address space.**  In every run in which the text of every program that
is executed fits into a slot and its strings into the argument area, the slots without a task and those of
zombies have an empty page directory, no move of one process maps anything in the slot of another, and the
two panics that would say otherwise do not happen. -/
theorem empty_slots_empty (h : Life M m F refs Machine.Fits σ) :
    σ.SlotsEmpty ∧ (∀ P, ¬σ.ForkClashes P ∧ ¬σ.FaultClashes P) ∧
      ∀ P e σ', σ.Possible P e → σ.Fits P e → σ.move P e = some σ' → NothingMade σ P σ' := by
  obtain ⟨hhoused, htidy⟩ := Life.housed h
  refine ⟨hhoused.slotsEmpty htidy, hhoused.no_clash, ?_⟩
  intro P e σ' he hc hstep
  exact (hhoused.move he hc hstep).nothing

/-- Task 0 is about to fork. -/
theorem empty_slots_empty_fork : ∃ σ, σ.SlotsEmpty ∧ (∀ P, ¬σ.ForkClashes P ∧ ¬σ.FaultClashes P) ∧
    ∀ P e σ', σ.Possible P e → σ.Fits P e → σ.move P e = some σ' → NothingMade σ P σ' := by
  obtain ⟨σ, hσ⟩ : ∃ σ, (Machine.boot sixteenMegabytes (fun _ _ => 0) noFiles fun _ => 0).move 0
      (.event (.start (.fork 1))) = some σ := by
    simp only [Machine.move, Machine.step, boot_task, if_pos, Option.map_some]
    exact ⟨_, rfl⟩
  refine ⟨σ, empty_slots_empty (m := fun _ _ => 0) (M := sixteenMegabytes) (F := noFiles) (Reach.step
    (0, Move.event (.start (.fork 1))) (Reach.start rfl)
    ⟨⟨⟨_, boot_task _ _ _ _ 0, rfl, rfl, ?_⟩, trivial⟩, trivial⟩ hσ)⟩
  exact fun _ => ⟨1, rfl⟩

/-! ### A program whose text ends outside its slot -/

/-- A file system with one program, the inode 1: its text and its data add up to nothing. -/
def wrapped : Files where
  bmap := fun _ b => b + 1
  block := fun z k => if z = 1 then
      (if k = 0 then 0x10b#32 else if k = 1 then 0x8000000#32 else if k = 2 then 0xf8000000#32
        else 0#32)
    else 0#32
  size := fun _ => 0x1400

theorem wrapped_runnable : wrapped.Runnable 1 := by decide

theorem wrapped_text : wrapped.text 1 = 0x8000000 := by decide

theorem wrapped_endData : wrapped.endData 1 = 0 := by decide

/-- Lives of a machine with sixteen megabytes. -/
abbrev Life16 (F : Files) : Machine → Prop :=
  Life sixteenMegabytes (fun _ _ => 0) F (fun _ => 0) (fun _ _ _ => True)

theorem Life16.start (h : Life16 F σ) (what : Activity) (ht : σ.task P = some t)
    (htodo : t.todo = []) (hz : t.zombie = false) (h0 : P = 0 → ∃ nr, what = .fork nr)
    (hlists : what.Lists) : Life16 F (σ.set P (t.next what.actions) σ.kernel) := by
  refine Reach.step (P, Move.event (.start what)) h ⟨⟨⟨t, ht, htodo, hz, h0⟩, hlists⟩, trivial⟩ ?_
  simp only [Machine.move, Machine.step, ht, Option.map_some]

theorem Life16.next (h : Life16 F σ) (hrun : σ.run P = some σ') : Life16 F σ' :=
  Reach.step (P, Move.event .run) h ⟨trivial, trivial⟩ hrun

/-- Task 0 forks task 1, which executes the program. -/
theorem wrapped_run : ∃ σ t, Life16 wrapped σ ∧ Roomy sixteenMegabytes σ 2 ∧
    Books True sixteenMegabytes σ.kernel.mm σ.kernel.held ∧ σ.task 1 = some t ∧ t.todo = [] ∧
    t.zombie = false ∧ t.endData = 0 ∧ 0x4000000 < t.codeLimit ∧ σ.task 2 = none ∧
    ¬present (σ.kernel.mm.pte (32, 0)) := by
  have hlo : sixteenMegabytes.lo = 1024 := rfl
  have hhi : sixteenMegabytes.hi = 4096 := rfl
  obtain ⟨σ, hσ⟩ : ∃ σ, Machine.boot sixteenMegabytes (fun _ _ => 0) wrapped (fun _ => 0) = σ :=
    ⟨_, rfl⟩
  have h0 : Life16 wrapped σ := Reach.start hσ.symm
  have S0 : Sound sixteenMegabytes σ := by
    rw [← hσ]
    exact boot_sound _ _ _ _
  have R0 : Roomy sixteenMegabytes σ 0 := by
    rw [← hσ]
    exact boot_roomy _ _ _ (by omega)
  have htask : ∀ Q, σ.task Q = if Q = 0 then some ⟨none, 0, 0xA0000, 0xA0000, false, 0, []⟩ else none := by
    intro Q
    rw [← hσ, boot_task]
  have hfiles0 : σ.files = wrapped := by
    rw [← hσ]
    rfl
  clear hσ
  -- `fork`
  have ht0 := htask 0
  rw [if_pos rfl] at ht0
  have h1 : Life16 wrapped (σ.set 0 _ σ.kernel) :=
    h0.start (.fork 1) ht0 rfl rfl (fun _ => ⟨1, rfl⟩) trivial
  obtain ⟨f, s1, C1, hfork, S1, R1⟩ := forks_done S0 R0 1 ht0 rfl rfl le_rfl (by omega) (by omega)
    (by rw [htask, if_neg (by omega)]) (by omega)
  have h2 := h1.next hfork
  obtain ⟨τ, hτ⟩ : ∃ τ, σ.forked 0 1 ⟨none, 0, 0xA0000, 0xA0000, false, 0, []⟩ [] f s1 = τ := ⟨_, rfl⟩
  have hfiles : τ.files = wrapped := by
    rw [← hτ]
    exact hfiles0
  have htwo : τ.task 2 = none := by
    rw [← hτ, forked_other (by omega) (by omega), htask, if_neg (by omega)]
  obtain ⟨u, hu, hutodo, huz⟩ : ∃ u, τ.task 1 = some u ∧ u.todo = [] ∧ u.zombie = false := by
    rw [← hτ]
    exact ⟨_, forked_child, rfl, rfl⟩
  rw [hτ] at h2 S1 R1
  clear hτ
  have huok := S1.ok 1 u hu
  -- `execve`
  have h3 : Life16 wrapped (τ.set 1 (u.next [.exec 1 [] [] fun _ _ => 0]) τ.kernel) :=
    h2.start (.execve 1 [] [] (fun _ _ => 0)) hu hutodo huz (fun h => by omega) trivial
  have ht3 : (τ.set 1 (u.next [.exec 1 [] [] fun _ _ => 0]) τ.kernel).task 1 =
      some (u.next [.exec 1 [] [] fun _ _ => 0]) := by
    rw [set_task, if_pos rfl]
  have hrunnable : (τ.set 1 (u.next [.exec 1 [] [] fun _ _ => 0]) τ.kernel).files.Runnable 1 := by
    show τ.files.Runnable 1
    rw [hfiles]
    exact wrapped_runnable
  have h4 := h3.next (exec_done ht3 rfl hrunnable)
  rw [set_set, next_next, show (τ.set 1 (u.next [.exec 1 [] [] fun _ _ => 0]) τ.kernel).files =
    wrapped from hfiles, wrapped_text, wrapped_endData] at h4
  have ht4 : (τ.set 1 (u.next [.execSwitch 1 [] [] 0x8000000 0 []]) τ.kernel).task 1 =
      some (u.next [.execSwitch 1 [] [] 0x8000000 0 []]) := by
    rw [set_task, if_pos rfl]
  have h5 := h4.next (execSwitch_done ht4 rfl)
  rw [set_set] at h5
  obtain ⟨v, hv⟩ : ∃ v : Task, { u.next [.execSwitch 1 [] [] 0x8000000 0 []] with
      executable := some 1, todo := [.execFree [] [] 0x8000000 0 []] } = v := ⟨_, rfl⟩
  have hvtodo : v.todo = [.execFree [] [] 0x8000000 0 []] := by rw [← hv]
  have hvz : v.zombie = false := by
    rw [← hv]
    exact huz
  have hvlim : v.codeLimit = u.codeLimit ∧ v.dataLimit = u.dataLimit := by
    rw [← hv]
    exact ⟨rfl, rfl⟩
  rw [hv] at h5
  have ht5 : (τ.set 1 v τ.kernel).task 1 = some v := by rw [set_task, if_pos rfl]
  obtain ⟨s2, B2, hempty, hpte2, hfew2, hrun⟩ := execFree_done (σ := τ.set 1 v τ.kernel) S1.books
    (by omega) (by omega) (by rw [hvlim.1, hvlim.2]; exact huok.limits)
    (by rw [hvlim.2]; exact huok.inside) hhi ⟨R1.few, R1.held, R1.room⟩ ht5 hvtodo
  have h6 := h5.next hrun
  rw [set_set] at h6
  -- `create_tables`
  have ht6 : (τ.set 1 (v.executed 0x8000000 0) ⟨s2, τ.kernel.held⟩).task 1 = some (v.executed 0x8000000 0) := by
    rw [set_task, if_pos rfl]
  obtain ⟨s3, h7, B3, hfew3, hpte3⟩ := tables_done (I := Life16 wrapped)
    (fun _ _ _ _ _ _ _ h _ _ _ _ hrun => h.next hrun) (by omega) (by omega) h6 B2
    ⟨hfew2, R1.held, R1.room⟩ (by omega) (by omega) ht6 hempty
  rw [set_set] at h7
  have hp : ((32, 0) : ℕ × ℕ) ∈ places :=
    show slotPlace 2 0 ∈ places from slotPlace_mem (by omega) (by omega) (by omega)
  refine ⟨_, _, h7, ⟨hfew3, ?_, by omega⟩, B3, set_task _ 1 _ _ 1, rfl, hvz, rfl, ?_, ?_, ?_⟩
  · have := R1.held
    show τ.kernel.held.card ≤ 2
    omega
  · show 0x4000000 < (0x8000000 + 4095) % 2 ^ 32 / 4096 * 4096
    omega
  · rw [set_task, if_neg (by omega)]
    exact htwo
  · have hne : ((32, 0) : ℕ × ℕ) ≠ slotPlace 1 0x3fff000 := by decide
    have h32 : s3.pte (32, 0) = s2.pte (32, 0) := hpte3 _ hp hne
    have h21 : s2.pte (32, 0) = τ.kernel.mm.pte (32, 0) := hpte2 _ hp (by rw [inSlot]; omega)
    show ¬present (s3.pte (32, 0))
    rw [h32, h21]
    exact Empty.absent (S1.vacant 2 htwo) hp rfl

/-- Task 1 then fetches an instruction behind the end of its slot: it gets a page of slot 2, which
has no task. -/
theorem empty_slots_not_empty : ∃ F σ, Life16 F σ ∧ ¬σ.SlotsEmpty := by
  obtain ⟨σ, t, h, R, B, ht, htodo, hz, hend, hcode, htwo, habs⟩ := wrapped_run
  have hplace : placeOf (base 1 + 0x4000000) = (32, 0) := by decide
  have hp : ((32, 0) : ℕ × ℕ) ∈ places :=
    show slotPlace 2 0 ∈ places from slotPlace_mem (by omega) (by omega) (by omega)
  have hbooks : wp (getEmptyPage (base 1 + 0x4000000)) _ _ _ :=
    getEmptyPage_books B (by rw [hplace]; exact hp) (by rw [hplace]; exact habs)
  have hget := wp_and hbooks (getEmptyPage_ok (R.not_tight B) (base 1 + 0x4000000))
  have hspec : wp (σ.findPage 1 t (0x4000000 - 0x4000000 % 4096))
      (fun page s => page = none ∧ present (s.pte (32, 0))) (fun _ _ => False) σ.kernel.mm := by
    have hnone : wp (do getEmptyPage (base 1 + 0x4000000); return none : MmM (Option ℕ))
        (fun page s => page = none ∧ present (s.pte (32, 0))) (fun _ _ => False) σ.kernel.mm := by
      rw [wp_bind]
      apply wp_mono hget _ (fun _ _ h => h.2)
      intro _ s hs
      obtain ⟨⟨f, -, -, C⟩, -⟩ := hs
      refine ⟨rfl, ?_⟩
      rw [C.pte _ hp, hplace, if_pos rfl]
      exact present_userEntry _
    unfold Machine.findPage
    cases t.executable with
    | none => exact hnone
    | some inode =>
      simp only [wp_ite]
      exact ⟨fun _ => hnone, fun hlt => absurd (by rw [hend]; omega) hlt⟩
  obtain ⟨_, s, ⟨rfl, hpres⟩, hcall⟩ := call_done hspec
  have hfetch : σ.move 1 (.fetch 0x4000000) = some (σ.set 1 t ⟨s, σ.kernel.held⟩) := by
    have hlim : ¬(t.codeLimit ≠ 0 ∧ t.codeLimit ≤ 0x4000000) := fun h => absurd h.2 (not_le.2 hcode)
    have habs' : ¬present (σ.kernel.mm.pte (placeOf (base 1 + 0x4000000))) := by
      rw [hplace]
      exact habs
    simp only [Machine.move, ht, Option.bind_some, Machine.fetch]
    rw [if_neg hlim, if_neg habs']
    exact hcall _ _ _
  refine ⟨wrapped, _, Reach.step (1, Move.fetch 0x4000000) h ⟨⟨by omega, t, ht, htodo, hz⟩, trivial⟩ hfetch, ?_⟩
  intro hslots
  have hzero := hslots 2 (by omega) (by omega) (fun u hu => by
    rw [set_task, if_neg (by omega), htwo] at hu
    cases hu) 0 (by omega)
  have hdir := dir_of_pte hpres
  have hzero' : s.mem 0 32 = 0 := hzero
  rw [show ((32, 0) : ℕ × ℕ).1 = 32 from rfl, hzero'] at hdir
  exact present_zero hdir

end OldLinux.Process
