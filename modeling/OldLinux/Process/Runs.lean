import OldLinux.Process.Progress

/-!
# Runs of the process machine

A run starts at boot and goes from event to event.  In a run whose steps are all careful the machine
stays sound.  The second half builds runs: a task in user mode starts something, forks, or stores
a byte.
-/

namespace OldLinux.Process

open Lib Memory

variable {M : MainMemory} {m : ℕ → Page} {F : Files} {refs : ℕ → ℕ} {σ σ' : Machine} {P Q : ℕ}
  {t : Task} {D : ℕ × ℕ → Prop}

/-- The machines a run from boot reaches whose events are all allowed. -/
inductive Run (M : MainMemory) (m : ℕ → Page) (F : Files) (refs : ℕ → ℕ)
    (allowed : Machine → ℕ → Event → Prop) : Machine → Prop
  | boot : Run M m F refs allowed (Machine.boot M m F refs)
  | step {σ σ' : Machine} (P : ℕ) (e : Event) : Run M m F refs allowed σ → σ.Enabled P e →
      allowed σ P e → σ.step P e = some σ' → Run M m F refs allowed σ'

/-! ### Soundness of runs -/

theorem boot_task (M : MainMemory) (m : ℕ → Page) (F : Files) (refs : ℕ → ℕ) (P : ℕ) :
    (Machine.boot M m F refs).task P = if P = 0 then some ⟨none, 0, 0xA0000, 0xA0000, false, 0, []⟩ else none :=
    rfl

theorem boot_absent (M : MainMemory) (m : ℕ → Page) {d : ℕ} (hd : d ∈ directory) :
    ¬present ((M.boot m).mem 0 d) := by
  have := mem_directory.1 hd
  rw [(boot_spec M m).1, setupPaging, if_pos rfl, if_neg (by omega)]
  exact present_zero

theorem boot_sound (M : MainMemory) (m : ℕ → Page) (F : Files) (refs : ℕ → ℕ) :
    Sound M (Machine.boot M m F refs) := by
  refine ⟨boot_books True M m, ?_, fun _ _ d hd _ => boot_absent M m hd, ?_, ?_⟩
  · intro P t ht
    rw [boot_task] at ht
    split at ht
    · rename_i hP
      omega
    · cases ht
  · intro P t ht
    rw [boot_task] at ht
    split at ht
    · rename_i hP
      cases ht
      have hlimit : (0xA0000 : ℕ) ≤ 0x4000000 := by omega
      have hzero : (0xA0000 : ℕ) ≤ 0x400000 := by omega
      refine ⟨⟨hlimit, hlimit⟩, fun _ => ⟨hzero, rfl, rfl, fun _ h => absurd h List.not_mem_nil⟩,
        fun d hd _ hp => absurd hp (boot_absent M m hd), fun h => absurd hP h,
        todoOk_of_plain (fun _ h => absurd h List.not_mem_nil), ?_, ?_⟩
      · intro inode hi
        cases hi
      · intro hz
        cases hz
    · cases ht
  · intro P Q t u ht hu hP
    rw [boot_task, if_neg hP] at ht
    cases ht

/-- **Every careful step of a process** keeps the machine sound. -/
theorem perform_ok (h : Sound M σ) (ht : σ.task P = some t) {action : Action} {rest : List Action}
    (htodo : t.todo = action :: rest) (hc : σ.CarefulAction P t action)
    (hstep : σ.perform P (t.next rest) action = some σ') : StepOk M σ P σ' := by
  have hbusy : action.Plain → (∀ nr, action ≠ .fork nr) → Busy M σ P t action rest :=
    fun hplain hfork => ⟨h, ht, htodo, hplain, (h.ok P t ht).pos htodo hfork⟩
  cases action with
  | load a => exact (load_ok (hbusy trivial (fun _ h => by cases h)) hc hstep).1
  | store a b => exact store_ok (hbusy trivial (fun _ h => by cases h)) hc hstep
  | put a b => exact put_ok (hbusy trivial (fun _ h => by cases h)) hc hstep
  | verify a size => exact verify_ok (hbusy trivial (fun _ h => by cases h)) hc hstep
  | finishLoad f tmp => exact (finishLoad_ok h ht htodo hstep).1
  | fork nr => exact fork_ok h ht htodo hstep
  | exec inode args envs strings => exact exec_ok (hbusy trivial (fun _ h => by cases h)) hc hstep
  | execSwitch inode args envs text endData page => exact execSwitch_ok h ht htodo hstep
  | execFree args envs text endData page => exact execFree_ok h ht htodo hstep
  | exit => exact exit_frees (hbusy trivial (fun _ h => by cases h)) hstep
  | exited => exact exited_ok h ht htodo hstep
  | release nr => exact release_ok (hbusy trivial (fun _ h => by cases h)) hstep

theorem run_ok (h : Sound M σ) (hc : σ.Careful P .run) (hstep : σ.run P = some σ') : StepOk M σ P σ' := by
  obtain ⟨t, action, rest, ht, htodo, hstep⟩ := run_cases hstep
  exact perform_ok h ht htodo (hc t action rest ht htodo) hstep

/-! ### The other events -/

theorem putLong_plain (a : ℕ) (w : Word) : ∀ b ∈ putLong a w, b.Plain := puts_plain a _

theorem verified_plain (a : ℕ) (bytes : List Byte) : ∀ b ∈ verified a bytes, b.Plain := by
  intro b hb
  rcases List.mem_cons.1 hb with hb | hb
  · rw [hb]
    trivial
  · exact puts_plain a bytes b hb

/-- What a process starts carries no state of its own. -/
theorem actions_plain (what : Activity) : ∀ b ∈ what.actions, b.Plain := by
  intro b hb
  cases what with
  | load a => rw [List.mem_singleton.1 hb]; trivial
  | store a v => rw [List.mem_singleton.1 hb]; trivial
  | fork nr => rw [List.mem_singleton.1 hb]; trivial
  | execve inode args envs strings => rw [List.mem_singleton.1 hb]; trivial
  | exit => rw [List.mem_singleton.1 hb]; trivial
  | read buf count data =>
    simp only [Activity.actions] at hb
    split at hb
    · exact absurd hb List.not_mem_nil
    · rcases List.mem_cons.1 hb with hb | hb
      · rw [hb]
        trivial
      · exact puts_plain _ _ b hb
  | write buf count =>
    obtain ⟨i, -, hi⟩ := List.mem_map.1 hb
    rw [← hi]
    trivial
  | pipe fildes fd0 fd1 =>
    rcases List.mem_append.1 hb with hb | hb
    · exact putLong_plain _ _ b hb
    · exact putLong_plain _ _ b hb
  | waitpid statAddr child =>
    cases child with
    | none => rw [List.mem_singleton.1 hb]; trivial
    | some c =>
      rcases List.mem_cons.1 hb with hb | hb
      · rw [hb]
        trivial
      · rcases List.mem_cons.1 hb with hb | hb
        · rw [hb]
          trivial
        · exact putLong_plain _ _ b hb
  | stat statbuf tmp => exact verified_plain _ _ b hb
  | times tbuf utime stime cutime cstime =>
    simp only [Activity.actions] at hb
    split at hb
    · exact absurd hb List.not_mem_nil
    · exact verified_plain _ _ b hb
  | uname name thisname =>
    simp only [Activity.actions] at hb
    split at hb
    · exact absurd hb List.not_mem_nil
    · exact verified_plain _ _ b hb
  | sigaction action oldaction old =>
    rcases List.mem_append.1 hb with hb | hb
    · obtain ⟨i, -, hi⟩ := List.mem_map.1 hb
      rw [← hi]
      trivial
    · split at hb
      · exact absurd hb List.not_mem_nil
      · exact verified_plain _ _ b hb
  | signal esp frame => exact verified_plain _ _ b hb
  | time tloc now =>
    simp only [Activity.actions] at hb
    split at hb
    · exact absurd hb List.not_mem_nil
    · exact verified_plain _ _ b hb
  | ioctl arg data => exact verified_plain _ _ b hb

theorem start_ok (h : Sound M σ) (what : Activity) (he : σ.Enabled P (.start what))
    (hstep : σ.step P (.start what) = some σ') : StepOk M σ P σ' := by
  obtain ⟨t, ht, htodo, hz, hfork⟩ := he
  simp only [Machine.step, ht, Option.map_some] at hstep
  cases hstep
  have hok := h.ok P t ht
  have hplain : ∀ b ∈ t.todo, b.Plain := by
    rw [htodo]
    exact fun _ h => absurd h List.not_mem_nil
  refine stepOk_set h ht h.books (Calm.refl _ nowhere _) not_clash_nowhere (fun f hf _ => hf) ?_ ?_
  · intro _ f hf
    rw [frames_of_plain (t := t.next what.actions) (actions_plain what)] at hf
    rw [List.mem_singleton.1 hf]
    exact Or.inl (frame_mem_frames t)
  · refine hok.next (not_switching_of_plain hplain) (actions_plain what) ?_ hz
    intro h0 b hb
    obtain ⟨nr, hnr⟩ := hfork h0
    rw [hnr] at hb
    exact ⟨nr, List.mem_singleton.1 hb⟩

/-- The machine with other files, references and frames in the kernel's hands. -/
theorem Sound.kernel (h : Sound M σ) {k : Kernel} (B : Books True M k.mm k.held)
    (C : Calm nowhere nowhere σ.kernel.mm k.mm)
    (hheld : ∀ Q u, Q ≠ 0 → σ.task Q = some u → ∀ f ∈ u.frames, f ∈ k.held) :
    Sound M { σ with kernel := k } where
  books := B
  slots := h.slots
  vacant := fun Q hQ => (C.empty (fun _ _ h => h)).2 (h.vacant Q hQ)
  ok := fun Q u hu => (h.ok Q u hu).others (h.slots Q u hu) C (fun _ _ h => h)
    (fun _ _ h => h.elim) (fun h0 => hheld Q u h0 hu)
  apart := h.apart

/-- `get_free_page` for the kernel. -/
theorem take_calm {k : Kernel} (B : Books True M k.mm k.held) :
    Calm nowhere nowhere k.mm k.take.mm ∧ ∀ f ∈ k.held, f ∈ k.take.held := by
  have hspec := getFreePage_books B
  rw [wp] at hspec
  rw [Kernel.take]
  cases hrun : getFreePage k.mm with
  | error e s =>
    rw [hrun] at hspec
    exact hspec.elim
  | ok page s =>
    rw [hrun] at hspec
    constructor
    · show Calm nowhere nowhere k.mm s
      rcases hspec with ⟨_, hs⟩ | ⟨f, _, Fr⟩
      · rw [hs]
        exact Calm.refl _ _ _
      · exact calm_of_same B (fun q hq => Fr.pte hq) Fr.preserved Fr.dir
    · intro f hf
      show f ∈ if page = 0 then k.held else page / 4096 ::ₘ k.held
      split
      · exact hf
      · exact Multiset.mem_cons_of_mem hf

theorem take_ok (h : Sound M σ) : Sound M { σ with kernel := σ.kernel.take } ∧
      Calm nowhere nowhere σ.kernel.mm σ.kernel.take.mm := by
  obtain ⟨C, hheld⟩ := take_calm h.books
  refine ⟨h.kernel (take_books h.books) C ?_, C⟩
  intro Q u h0 hu f hf
  exact hheld f (((h.ok Q u hu).frames h0).2 f hf)

/-- `free_page` of a frame of the kernel. -/
theorem give_calm {k : Kernel} (B : Books True M k.mm k.held) {f : ℕ} (hheld : f ∈ k.held) :
    Books True M (k.call (.freePage f)).mm (k.call (.freePage f)).held ∧
      (k.call (.freePage f)).mm.mem = k.mm.mem := by
  have hspec := freePage_held B hheld
  have hB := B.call (.freePage f) hheld (fun _ => trivial)
  refine ⟨hB, ?_⟩
  rw [Kernel.call]
  exact after_of_wp (I := fun s => s.mem = k.mm.mem)
    (wp_mono hspec (fun _ _ h => h.1) (fun _ _ h => h.elim))

theorem give_frames {f : ℕ} (he : σ.Enabled P (.give f)) {Q : ℕ} {u : Task} (hu : σ.task Q = some u)
    (hframes : ∀ g ∈ u.frames, g ∈ σ.kernel.held) :
    ∀ g ∈ u.frames, g ∈ (σ.kernel.call (.freePage f)).held := by
  intro g hg
  refine (Multiset.mem_erase_of_ne ?_).2 (hframes g hg)
  intro hgf
  rw [hgf] at hg
  exact he.2 Q u hu hg

theorem give_ok (h : Sound M σ) {f : ℕ} (he : σ.Enabled P (.give f)) :
    Sound M { σ with kernel := σ.kernel.call (.freePage f) } ∧
      Calm nowhere nowhere σ.kernel.mm (σ.kernel.call (.freePage f)).mm := by
  obtain ⟨B, hmem⟩ := give_calm h.books he.1
  refine ⟨h.kernel B (calm_of_mem hmem) ?_, calm_of_mem hmem⟩
  intro Q u h0 hu
  exact give_frames he hu ((h.ok Q u hu).frames h0).2

theorem SameFile.endData {F F' : Files} {inode : ℕ} (h : SameFile F F' inode) :
    F'.endData inode = F.endData inode := by
  rw [Files.endData, Files.endData, h.2, h.2]

theorem SameFile.load {F F' : Files} {inode : ℕ} (h : SameFile F F' inode) (endData tmp : ℕ) :
    F'.load inode endData tmp = F.load inode endData tmp := by
  have hpage : F'.breadPage inode tmp = F.breadPage inode tmp := by
    funext j
    rw [Files.breadPage, Files.breadPage, h.1]
  rw [Files.load, Files.load, hpage]

theorem SameFile.header {F F' : Files} {inode text endData : ℕ} (h : SameFile F F' inode)
    (H : Header F inode text endData) : Header F' inode text endData :=
  ⟨H.text_le, by rw [h.endData]; exact H.end_eq, H.end_le⟩

/-- A write to files that nobody executes. -/
theorem TaskOk.files {F F' : Files} {k : Kernel} (h : TaskOk F k P t)
    (hsame : ∀ inode, (t.executable = some inode ∨ ∃ args envs text endData page,
      t.todo = [.execSwitch inode args envs text endData page]) → SameFile F F' inode) :
    TaskOk F' k P t where
  limits := h.limits
  zero := h.zero
  inside := h.inside
  frames := h.frames
  todo := by
    have htodo := h.todo
    unfold TodoOk at htodo ⊢
    split at htodo
    · exact htodo
    · rename_i inode args envs text endData page heq
      exact ⟨htodo.1, (hsame inode (Or.inr ⟨args, envs, text, endData, page, heq⟩)).header htodo.2⟩
    · obtain ⟨h1, inode, hi, hheader⟩ := htodo
      exact ⟨h1, inode, hi, (hsame inode (Or.inl hi)).header hheader⟩
    · exact htodo
    · exact htodo
  clean := by
    intro inode hi hsw
    have hs := hsame inode (Or.inl hi)
    obtain ⟨h1, h2, h3⟩ := h.clean inode hi hsw
    refine ⟨by rw [hs.endData]; exact h1, h2, ?_⟩
    intro q hq hq' hp
    obtain ⟨h4, h5⟩ := h3 q hq hq' hp
    refine ⟨h4, ?_⟩
    intro hlt hnd
    rw [hs.load]
    exact h5 hlt hnd
  gone := h.gone

theorem files_ok (h : Sound M σ) {F : Files} (hc : σ.Careful P (.files F)) : Sound M { σ with files := F } where
  books := h.books
  slots := h.slots
  vacant := h.vacant
  ok := fun Q u hu => (h.ok Q u hu).files (fun inode hi => hc inode ⟨Q, u, hu, hi⟩)
  apart := h.apart

/-- The machine stays sound. -/
theorem step_sound (h : Sound M σ) {e : Event} (he : σ.Enabled P e) (hc : σ.Careful P e)
    (hstep : σ.step P e = some σ') : Sound M σ' := by
  cases e with
  | start what => exact (start_ok h what he hstep).sound
  | run => exact (run_ok h hc hstep).sound
  | files F =>
    cases hstep
    exact files_ok h hc
  | refs r =>
    cases hstep
    exact ⟨h.books, h.slots, h.vacant, h.ok, h.apart⟩
  | take =>
    cases hstep
    exact (take_ok h).1
  | give f =>
    cases hstep
    exact (give_ok h he).1

theorem Run.sound (h : Run M m F refs Machine.Careful σ) : Sound M σ := by
  induction h with
  | boot => exact boot_sound M m F refs
  | step P e _ he hc hstep ih => exact step_sound ih he hc hstep

/-! ### Building runs -/

theorem Run.mono {allowed allowed' : Machine → ℕ → Event → Prop}
    (h : ∀ σ P e, allowed σ P e → allowed' σ P e) (hr : Run M m F refs allowed σ) :
    Run M m F refs allowed' σ := by
  induction hr with
  | boot => exact Run.boot
  | step P e _ he ha hstep ih => exact Run.step P e ih he (h _ _ _ ha) hstep

/-- No files. -/
def noFiles : Files := ⟨fun _ _ => 0, fun _ _ => 0, fun _ => 0⟩

/-- Runs of a machine with sixteen megabytes. -/
abbrev Run16 (F : Files) : (Machine → ℕ → Event → Prop) → Machine → Prop :=
  Run sixteenMegabytes (fun _ _ => 0) F (fun _ => 0)

/-- A task in user mode starts something. -/
theorem Run.start (h : Run M m F refs Machine.Careful σ) (what : Activity)
    (ht : σ.task P = some t) (htodo : t.todo = []) (hz : t.zombie = false)
    (h0 : P = 0 → ∃ nr, what = .fork nr) :
    Run M m F refs Machine.Careful (σ.set P (t.next what.actions) σ.kernel) := by
  refine Run.step P (.start what) h ⟨t, ht, htodo, hz, h0⟩ trivial ?_
  simp only [Machine.step, ht, Option.map_some]

/-- A task does the next thing it has to do. -/
theorem Run.next {action : Action} {rest : List Action} (h : Run M m F refs Machine.Careful σ)
    (ht : σ.task P = some t) (htodo : t.todo = action :: rest) (hc : σ.CarefulAction P t action)
    (hrun : σ.run P = some σ') : Run M m F refs Machine.Careful σ' := by
  refine Run.step P .run h trivial ?_ hrun
  intro t' action' rest' ht' htodo'
  rw [ht] at ht'
  cases ht'
  rw [htodo] at htodo'
  cases htodo'
  exact hc

theorem boot_roomy (m : ℕ → Page) (F : Files) (refs : ℕ → ℕ) (hroom : 1010 < M.hi - M.lo) :
    Roomy M (Machine.boot M m F refs) 0 := by
  refine ⟨⟨∅, le_rfl, ?_⟩, le_rfl, by omega⟩
  intro q hq hp
  exact absurd (dir_of_pte hp) (boot_absent M m (directory_of_places hq))

/-- The two steps of a `fork` by a task in user mode. -/
theorem forks_done {n : ℕ} (h : Sound M σ) (R : Roomy M σ n) (nr : ℕ) (ht : σ.task P = some t)
    (htodo : t.todo = []) (hz : t.zombie = false) (hcode : t.codeLimit ≤ t.dataLimit)
    (hnr0 : 0 < nr) (hnr : nr < 64) (hfree : σ.task nr = none)
    (hroom : 2 * n + 1012 < M.hi - M.lo) :
    ∃ f s, Copied True P nr (fun d => d < dirCount t.dataLimit) σ.kernel.mm s ∧
      (σ.set P (t.next [.fork nr]) σ.kernel).run P = some (σ.forked P nr t [] f s) ∧
      Sound M (σ.forked P nr t [] f s) ∧ Roomy M (σ.forked P nr t [] f s) (n + 1) := by
  have hstart : Sound M (σ.set P (t.next [.fork nr]) σ.kernel) := by
    refine (start_ok h (.fork nr) (P := P) ⟨t, ht, htodo, hz, fun _ => ⟨nr, rfl⟩⟩ ?_).sound
    simp only [Machine.step, ht, Option.map_some]
    rfl
  have hPn : P ≠ nr := by
    intro hP
    rw [hP, hfree] at ht
    cases ht
  have ht' : (σ.set P (t.next [.fork nr]) σ.kernel).task P = some (t.next [.fork nr]) := by
    rw [set_task, if_pos rfl]
  have hfree' : (σ.set P (t.next [.fork nr]) σ.kernel).task nr = none := by
    rw [set_task, if_neg (Ne.symm hPn), hfree]
  have R' : Roomy M (σ.set P (t.next [.fork nr]) σ.kernel) n := ⟨R.few, R.held, R.room⟩
  obtain ⟨f, s, C, hfew, hrun⟩ := fork_done hstart R' ht' rfl hnr0 hnr hfree' hcode
  have hset : (σ.set P (t.next [.fork nr]) σ.kernel).forked P nr (t.next [.fork nr]) [] f s =
      σ.forked P nr t [] f s := by
    rw [Machine.forked, Machine.forked, Machine.set, Machine.set, Machine.set, Machine.set, Machine.set]
    simp only [Function.update_idem]
    rfl
  rw [hset] at hrun
  have hcareful : (σ.set P (t.next [.fork nr]) σ.kernel).Careful P .run := by
    intro u action rest hu hutodo
    rw [ht'] at hu
    cases hu
    cases hutodo
    trivial
  refine ⟨f, s, C, hrun, (run_ok hstart hcareful hrun).sound, hfew.mono (Nat.le_succ n), ?_, by omega⟩
  show (f ::ₘ σ.kernel.held).card ≤ n + 1
  rw [Multiset.card_cons]
  have := R.held
  omega

/-- A task in user mode forks. -/
theorem Run.forks {n : ℕ} (h : Run M m F refs Machine.Careful σ) (R : Roomy M σ n) (nr : ℕ)
    (ht : σ.task P = some t) (htodo : t.todo = []) (hz : t.zombie = false)
    (hcode : t.codeLimit ≤ t.dataLimit) (hnr0 : 0 < nr) (hnr : nr < 64)
    (hfree : σ.task nr = none) (hroom : 2 * n + 1012 < M.hi - M.lo) :
    ∃ f s, Copied True P nr (fun d => d < dirCount t.dataLimit) σ.kernel.mm s ∧
      Run M m F refs Machine.Careful (σ.forked P nr t [] f s) ∧
      Roomy M (σ.forked P nr t [] f s) (n + 1) := by
  obtain ⟨f, s, C, hrun, -, R'⟩ := forks_done h.sound R nr ht htodo hz hcode hnr0 hnr hfree hroom
  have hstart : Run M m F refs Machine.Careful (σ.set P (t.next [.fork nr]) σ.kernel) :=
    h.start (.fork nr) ht htodo hz (fun _ => ⟨nr, rfl⟩)
  have ht' : (σ.set P (t.next [.fork nr]) σ.kernel).task P = some (t.next [.fork nr]) := by
    rw [set_task, if_pos rfl]
  exact ⟨f, s, C, hstart.next ht' rfl trivial hrun, R'⟩

theorem forked_parent {nr f : ℕ} {rest : List Action} {s : Mm} (hP : P ≠ nr) :
    (σ.forked P nr t rest f s).task P = some (t.next rest) := by
  rw [Machine.forked, set_task, if_neg hP, set_task, if_pos rfl]

theorem forked_child {nr f : ℕ} {rest : List Action} {s : Mm} : (σ.forked P nr t rest f s).task nr =
      some { t with frame := f, zombie := false, todo := [] } := by
  rw [Machine.forked, set_task, if_pos rfl]

theorem forked_other {nr f : ℕ} {rest : List Action} {s : Mm} (hQ : Q ≠ nr) (hQP : Q ≠ P) :
    (σ.forked P nr t rest f s).task Q = σ.task Q := by
  rw [Machine.forked, set_task, if_neg hQ, set_task, if_neg hQP]

/-- A task in user mode stores a byte. -/
theorem Run.stores {n : ℕ} (h : Run M m F refs Machine.Careful σ) (R : Roomy M σ n) (a : ℕ)
    (v : Byte) (ht : σ.task P = some t) (htodo : t.todo = []) (hz : t.zombie = false) (hP : P ≠ 0)
    (ha : a < t.dataLimit) (hpres : present (σ.pte P a)) (hroom : 2 * n + 1012 < M.hi - M.lo) :
    ∃ s, Dirtied M (σ.set P (t.next [.store a v]) σ.kernel) P a v s ∧ 256 ≤ frameOf (s.pte (slotPlace P a)) ∧
      Run M m F refs Machine.Careful (σ.set P (t.next []) ⟨s, σ.kernel.held⟩) ∧
      Roomy M (σ.set P (t.next []) ⟨s, σ.kernel.held⟩) (n + 1) := by
  have hstart : Run M m F refs Machine.Careful (σ.set P (t.next [.store a v]) σ.kernel) :=
    h.start (.store a v) ht htodo hz (fun h0 => absurd h0 hP)
  have ht' : (σ.set P (t.next [.store a v]) σ.kernel).task P = some (t.next [.store a v]) := by
    rw [set_task, if_pos rfl]
  have R' : Roomy M (σ.set P (t.next [.store a v]) σ.kernel) n := ⟨R.few, R.held, R.room⟩
  obtain ⟨s, W, hhigh, hrun⟩ := store_done ⟨hstart.sound, ht', rfl, trivial, hP⟩ R' ha hpres
  have hset : (σ.set P (t.next [.store a v]) σ.kernel).set P ((t.next [.store a v]).next [])
      ⟨s, σ.kernel.held⟩ = σ.set P (t.next []) ⟨s, σ.kernel.held⟩ := set_set _ _ _ _ _ _
  obtain ⟨e, hpte⟩ := W.pte
  refine ⟨s, W, hhigh, ?_, Mm.Few.add R.few hpte, ?_, by omega⟩
  · refine hstart.next ht' rfl (fun habs => absurd hpres habs) ?_
    rw [← hset]
    exact hrun
  · have := R.held
    show σ.kernel.held.card ≤ n + 1
    omega

/-- The children of task 0 have its pages. -/
theorem present_of_boot {nr a : ℕ} {s : Mm} (hnr0 : 0 < nr) (hnr : nr < 64) (ha : a < 0xA0000)
    (C : Copied True 0 nr (fun d => d < dirCount 0xA0000) (M.boot m) s) :
    present (s.pte (slotPlace nr a)) := by
  have hp : slotPlace nr a ∈ places := slotPlace_mem hnr0 hnr (by omega)
  have hdir : (slotPlace nr a).1 % 16 = 0 := by
    rw [slotPlace, dirIndex]
    show (nr * 16 + a / 2 ^ 22 % 1024) % 16 = 0
    omega
  have hidx : (slotPlace nr a).2 < 0xA0 := by
    rw [slotPlace, tableIndex]
    show a / 2 ^ 12 % 1024 < 0xA0
    omega
  have hD : (slotPlace nr a).1 % 16 < dirCount 0xA0000 := by
    rw [hdir, dirCount]
    omega
  have hk := ((boot_books True M m).ledger.kernelEntry 0 (by omega) (slotPlace nr a).2 (by omega)).1
  rw [C.target _ hp (slotPlace_inSlot (by omega)) hD, sourceEntry, if_pos rfl, hdir,
    if_pos ⟨by omega, hidx⟩, copied, if_pos hk]
  exact (present_readOnly _).2 hk

/-- A child maps the frame its parent maps, which keeps its contents. -/
theorem fork_shares {nr a n : ℕ} {s s' : Mm} (hnr0 : 0 < nr) (hnr : nr < 64) (hP0 : 0 < P)
    (hP : P < 64) (ha : a < 0x4000000) (hD : dirIndex a < n)
    (C : Copied True P nr (fun d => d < n) s s') (hp : present (s.pte (slotPlace P a)))
    (hf : 256 ≤ frameOf (s.pte (slotPlace P a))) :
    (s'.pte (slotPlace P a) = s.pte (slotPlace P a) ∨
      s'.pte (slotPlace P a) = readOnly (s.pte (slotPlace P a))) ∧
    s'.pte (slotPlace nr a) = readOnly (s.pte (slotPlace P a)) ∧
    s'.mem (frameOf (s.pte (slotPlace P a))) = s.mem (frameOf (s.pte (slotPlace P a))) := by
  have hmod : ∀ Q, (slotPlace Q a).1 % 16 = dirIndex a := by
    intro Q
    rw [slotPlace, dirIndex]
    show (Q * 16 + a / 2 ^ 22 % 1024) % 16 = a / 2 ^ 22 % 1024
    omega
  have hpar : sourceEntry s P (slotPlace nr a) = s.pte (slotPlace P a) := by
    rw [sourceEntry, if_neg (by omega), hmod]
    rfl
  have hmem := slotPlace_mem hP0 hP ha
  refine ⟨C.source _ hmem (slotPlace_inSlot ha) (by rw [hmod]; exact hD), ?_, ?_⟩
  · rw [C.target _ (slotPlace_mem hnr0 hnr ha) (slotPlace_inSlot ha) (by rw [hmod]; exact hD), hpar,
      copied, if_pos hp]
  · exact C.kept trivial _ hmem _ (maps_iff_pte.2 ⟨hp, rfl⟩) hf

end OldLinux.Process
