import OldLinux.Process.Sound

/-!
# Every step of a process keeps the machine sound

One theorem for each thing a task can have to do.  Four of them need more than soundness of the state
before the step, and what they need is collected in `Machine.Careful`: a store of the kernel into a
present page finds the page private, or stores what is there; a shared page below `end_data` that
`verify_area` copies is not dirty; the page a fault shares is not one of a task in the middle of
`execve`; the sizes in the header of a program that is executed do not overflow, and its strings fit into
the argument area; and the blocks of a file that is being executed are not written.
-/

namespace OldLinux.Process

open Lib Memory

variable {M : MainMemory} {F : Files} {k k' : Kernel} {σ σ' : Machine} {P Q : ℕ} {t t' : Task}
  {X D : ℕ × ℕ → Prop}

/-! ### Conditions on a step -/

/-- No task in the middle of `execve` has a clean page where the absent page at `a` is needed. -/
def Machine.NoClash (σ : Machine) (P : ℕ) (t : Task) (a : ℕ) : Prop :=
  ¬present (σ.pte P a) → ∀ Q u inode, Q ≠ P → σ.task Q = some u → u.Switching →
    t.executable = some inode → u.executable = some inode → present (σ.pte Q a) →
    dirty (σ.pte Q a)

def Machine.CarefulAction (σ : Machine) (P : ℕ) (t : Task) : Action → Prop
  | .load a => σ.NoClash P t a
  | .store a _ => σ.NoClash P t a
  | .put a b => σ.NoClash P t a ∧ (present (σ.pte P a) → Private σ.kernel.mm (slotPlace P a) ∨
      byteAt (σ.kernel.mm.mem (frameOf (σ.pte P a))) (a % 4096) = b)
  | .verify a size => ∀ i < verifyCount a size, ∀ q ∈ places,
      q = placeOf (verifyAddress ((a - a % 4096 + base P) % 2 ^ 32) i) →
      LosesDirty σ.kernel.mm q → ∀ u, σ.task (q.1 / 16) = some u → ¬u.Shareable q
  | .exec inode args envs _ => (σ.files.ex inode 1).toNat + (σ.files.ex inode 2).toNat ≤ 0x3000000 ∧
      (stringsPlace args envs).isSome
  | _ => True

/-- The inode is the executable of a task, or is about to be. -/
def Machine.InUse (σ : Machine) (inode : ℕ) : Prop :=
  ∃ P t, σ.task P = some t ∧ (t.executable = some inode ∨
    ∃ args envs text endData page, t.todo = [.execSwitch inode args envs text endData page])

/-- The blocks of the file that executing it reads are the same. -/
def SameFile (F F' : Files) (inode : ℕ) : Prop :=
  (∀ b, F'.words inode b = F.words inode b) ∧ ∀ k, F'.ex inode k = F.ex inode k

def Machine.Careful (σ : Machine) (P : ℕ) : Event → Prop
  | .run => ∀ t a rest, σ.task P = some t → t.todo = a :: rest → σ.CarefulAction P t a
  | .files F => ∀ inode, σ.InUse inode → SameFile σ.files F inode
  | _ => True

/-! ### Bookkeeping -/

/-- What every step of the task `P` leaves of the rest of the machine. -/
structure StepOk (M : MainMemory) (σ : Machine) (P : ℕ) (σ' : Machine) : Prop where
  sound : Sound M σ'
  files : σ'.files = σ.files
  tasks : ∀ Q u, Q ≠ P → σ.task Q = some u → u.zombie = false → σ'.task Q = some u
  calm : Calm (fun q => inSlot P q ∨ σ.task (q.1 / 16) = none) (fun _ => True)
    σ.kernel.mm σ'.kernel.mm

theorem set_task (σ : Machine) (P : ℕ) (t : Task) (k : Kernel) (Q : ℕ) :
    (σ.set P t k).task Q = if Q = P then some t else σ.task Q := by
  simp only [Machine.set, Function.update_apply]

theorem stepOk_set (h : Sound M σ) (ht : σ.task P = some t)
    (B : Books True M k'.mm k'.held) (C : Calm (inSlot P) D σ.kernel.mm k'.mm)
    (hD : ∀ Q u, Q ≠ P → σ.task Q = some u → ∀ q, inSlot Q q → D q → ¬u.Shareable q)
    (hrel : ∀ f ∈ σ.kernel.held, f ∉ t.frames ∨ P = 0 → f ∈ k'.held)
    (hacq : P ≠ 0 → ∀ f ∈ t'.frames, f ∈ t.frames ∨ f ∉ σ.kernel.held)
    (hok : TaskOk σ.files k' P t') : StepOk M σ P (σ.set P t' k') where
  sound := h.set ht B C hD hrel hacq hok
  files := rfl
  tasks := by
    intro Q u hQ hu _
    rw [set_task, if_neg hQ]
    exact hu
  calm := C.mono (fun _ hq => Or.inl hq) (fun _ _ => trivial)

theorem call_cases {α : Type} {c : MmM α} {next : α → Mm → Machine} {A : α → Mm → Prop}
    {E : Trap → Mm → Prop} (hwp : wp c A E σ.kernel.mm) (h : σ.call P t c next = some σ') :
    (∃ a s, A a s ∧ σ' = next a s) ∨ ∃ s, E .oom s ∧ σ' = σ.set P (t.next [.exit]) ⟨s, σ.kernel.held⟩ := by
  rw [Machine.call] at h
  rw [wp] at hwp
  cases hc : c σ.kernel.mm with
  | ok a s =>
    rw [hc] at h hwp
    exact Or.inl ⟨a, s, hwp, (Option.some.inj h).symm⟩
  | error e s =>
    rw [hc] at h hwp
    cases e with
    | oom => exact Or.inr ⟨s, hwp, (Option.some.inj h).symm⟩
    | panic message => cases h

theorem todoOk_of_plain {s : Mm} {todo : List Action} (h : ∀ a ∈ todo, a.Plain) : TodoOk F s P t todo := by
  unfold TodoOk
  split
  · exact (h _ (List.mem_cons_self ..)).elim
  · exact (h _ (List.mem_cons_self ..)).elim
  · exact (h _ (List.mem_cons_self ..)).elim
  · exact (h _ (List.mem_cons_self ..)).elim
  · exact h

theorem not_switching_of_plain (h : ∀ a ∈ t.todo, a.Plain) : ¬t.Switching := by
  intro hsw
  obtain ⟨args, envs, text, endData, page, htodo⟩ := hsw
  exact h (.execFree args envs text endData page) (by rw [htodo]; exact List.mem_cons_self ..)

theorem frames_of_plain (h : ∀ a ∈ t.todo, a.Plain) : t.frames = [t.frame] := by
  cases htodo : t.todo with
  | nil => rw [Task.frames, htodo]
  | cons a rest =>
    have ha : a.Plain := h a (by rw [htodo]; exact List.mem_cons_self ..)
    rw [Task.frames, htodo]
    cases a <;> first | rfl | exact ha.elim

theorem frame_mem_frames (t : Task) : t.frame ∈ t.frames := List.mem_cons_self ..

/-- The page that is being loaded is given up. -/
theorem loading_frames {held : Multiset ℕ} {f : ℕ} (hframes : t.frames = [t.frame, f])
    (h : t.frames.Nodup ∧ ∀ g ∈ t.frames, g ∈ held) :
    f ∈ held ∧ ∀ g ∈ held, g = t.frame ∨ g ∉ t.frames → g ∈ held.erase f := by
  rw [hframes] at h ⊢
  refine ⟨h.2 f (by simp), fun g hg hor => (Multiset.mem_erase_of_ne ?_).2 hg⟩
  rintro rfl
  have hnodup := h.1
  rcases hor with hgt | hnot
  · rw [hgt] at hnodup
    simp at hnodup
  · simp at hnot

/-- A task that is not in the middle of `execve` goes on with other plain things to do. -/
theorem TaskOk.next (h : TaskOk F k P t) (hsw : ¬t.Switching) {todo : List Action}
    (hplain : ∀ a ∈ todo, a.Plain) (h0 : P = 0 → ∀ a ∈ todo, ∃ nr, a = .fork nr)
    (hz : t.zombie = false) : TaskOk F k P (t.next todo) where
  limits := h.limits
  zero := by
    intro hP
    obtain ⟨h1, h2, h3, -⟩ := h.zero hP
    exact ⟨h1, h2, h3, h0 hP⟩
  inside := h.inside
  frames := by
    intro hP
    rw [frames_of_plain (t := t.next todo) hplain]
    refine ⟨List.nodup_singleton _, ?_⟩
    intro f hf
    rw [List.mem_singleton.1 hf]
    exact (h.frames hP).2 _ (frame_mem_frames t)
  todo := todoOk_of_plain hplain
  clean := fun inode hi _ => h.clean inode hi hsw
  gone := by
    intro hz'
    rw [show (t.next todo).zombie = t.zombie from rfl, hz] at hz'
    cases hz'

/-- A task keeps its promises when only the page `p` of its slot changes, and `p` is all right. -/
theorem TaskOk.touch (h : TaskOk F k P t) (hplain : ∀ a ∈ t.todo, a.Plain)
    (hz : t.zombie = false) {p : ℕ × ℕ} (C : Calm (fun q => q = p) D k.mm k'.mm)
    (hD : ∀ q, inSlot P q → D q → ¬t.Shareable q)
    (hin : p.1 % 16 < dirCount t.dataLimit)
    (hclean : ∀ inode, t.executable = some inode → Clean F k'.mm t inode p)
    (hheld : P ≠ 0 → t.frame ∈ k'.held) : TaskOk F k' P t where
  limits := h.limits
  zero := h.zero
  inside := by
    intro d hd hs hp
    by_cases hdp : d = p.1
    · rw [hdp]
      exact hin
    · exact h.inside d hd hs ((C.dir d (fun j h => hdp (by rw [← h]))).1 hp)
  frames := by
    intro hP
    rw [frames_of_plain hplain]
    refine ⟨List.nodup_singleton _, ?_⟩
    intro f hf
    rw [List.mem_singleton.1 hf]
    exact hheld hP
  todo := todoOk_of_plain hplain
  clean := by
    intro inode hi hsw
    obtain ⟨h1, h2, h3⟩ := h.clean inode hi hsw
    refine ⟨h1, h2, ?_⟩
    intro q hq hs
    by_cases hqp : q = p
    · rw [hqp]
      exact hclean inode hi
    · refine C.clean hq hqp ?_ (h3 q hq hs)
      intro hd
      by_contra hlt
      exact hD q hs hd ⟨by rw [hi]; exact Option.some_ne_none _, hsw, by omega⟩
  gone := by
    intro hz'
    rw [hz] at hz'
    cases hz'

/-- A task with something to do is no zombie. -/
theorem TaskOk.not_zombie (h : TaskOk F k P t) {a : Action} {rest : List Action}
    (htodo : t.todo = a :: rest) : t.zombie = false := by
  cases hz : t.zombie with
  | false => rfl
  | true =>
    have := (h.gone hz).1
    rw [htodo] at this
    cases this

/-- After a plain thing to do come plain things to do. -/
theorem TaskOk.plain (h : TaskOk F k P t) {a : Action} {rest : List Action}
    (htodo : t.todo = a :: rest) (ha : a.Plain) : ∀ b ∈ t.todo, b.Plain := by
  have ht := h.todo
  rw [htodo] at ht ⊢
  unfold TodoOk at ht
  split at ht
  · rename_i heq
    cases heq
    exact ha.elim
  · rename_i heq
    cases heq
    exact ha.elim
  · rename_i heq
    cases heq
    exact ha.elim
  · rename_i heq
    cases heq
    exact ha.elim
  · exact ht

/-- Task 0 does nothing but fork. -/
theorem TaskOk.pos (h : TaskOk F k P t) {a : Action} {rest : List Action}
    (htodo : t.todo = a :: rest) (ha : ∀ nr, a ≠ .fork nr) : P ≠ 0 := by
  intro hP
  obtain ⟨nr, hnr⟩ := (h.zero hP).2.2.2 a (by rw [htodo]; exact List.mem_cons_self ..)
  exact ha nr hnr

/-! ### Addresses -/

theorem placeOf_base {a : ℕ} (hP : P < 64) (ha : a < 0x4000000) : placeOf (base P + a) = slotPlace P a := by
  rw [placeOf, slotPlace, base, dirIndex, tableIndex, dirIndex, tableIndex]
  refine Prod.ext ?_ ?_
  · show (P * 0x4000000 + a) / 2 ^ 22 % 1024 = P * 16 + a / 2 ^ 22 % 1024
    omega
  · show (P * 0x4000000 + a) / 2 ^ 12 % 1024 = a / 2 ^ 12 % 1024
    omega

theorem slotPlace_page (P a : ℕ) : slotPlace P (a - a % 4096) = slotPlace P a := by
  rw [slotPlace, slotPlace, dirIndex, dirIndex, tableIndex, tableIndex]
  refine Prod.ext ?_ ?_
  · show P * 16 + (a - a % 4096) / 2 ^ 22 % 1024 = P * 16 + a / 2 ^ 22 % 1024
    omega
  · show (a - a % 4096) / 2 ^ 12 % 1024 = a / 2 ^ 12 % 1024
    omega

theorem offset_page {a : ℕ} (ha : a < 0x4000000) : offset (slotPlace P a) * 4096 = a - a % 4096 := by
  rw [offset_slotPlace ha]
  omega

/-- An address below the limit lies in a page table the limit covers. -/
theorem slotPlace_inside {a limit : ℕ} (ha : a < limit) (hl : limit ≤ 0x4000000) :
    (slotPlace P a).1 % 16 < dirCount limit := by
  rw [slotPlace, dirIndex, dirCount]
  show (P * 16 + a / 2 ^ 22 % 1024) % 16 < _
  omega

/-! ### Page faults -/

/-- `share_page` shares nothing, or a clean page of another task that runs the same executable. -/
theorem tryTasks_spec {s : Mm} {held : Multiset ℕ} (B : Books True M s held) (hP : P < 64)
    (hP0 : 0 < P) (inode : ℕ) {tmp : ℕ} (htmp : tmp < 0x4000000) (n : ℕ) (hn : n < 64) :
    wp (σ.tryTasks P inode tmp n) (fun shared s' => shared = false ∧ s' = s ∨ shared = true ∧ ∃ Q u, Q ≠ P ∧
        σ.task Q = some u ∧ u.executable = some inode ∧ slotPlace Q tmp ∈ places ∧
        Shared True M s held (slotPlace Q tmp) (slotPlace P tmp) s')
      (fun e s' => e = .oom → s' = s) s := by
  induction n with
  | zero => exact Or.inl ⟨rfl, rfl⟩
  | succ n ih =>
    rw [Machine.tryTasks, wp_ite]
    constructor
    · intro hcond
      rw [wp_bind]
      apply wp_mono (tryToShare_books B hn (by omega) hP hP0 htmp) _ (fun _ _ h => h.2)
      intro shared s' h
      rw [wp_ite]
      rcases h with ⟨hr, hs'⟩ | ⟨hr, C⟩
      · refine ⟨fun h => absurd (hr.symm.trans h) Bool.noConfusion, fun _ => ?_⟩
        rw [hs']
        exact ih (by omega)
      · refine ⟨fun _ => Or.inr ⟨rfl, n + 1, ?_⟩, fun h => absurd hr h⟩
        obtain ⟨hne, hex⟩ := hcond
        cases htask : σ.task (n + 1) with
        | none =>
          rw [htask] at hex
          cases hex
        | some u =>
          rw [htask] at hex
          exact ⟨u, hne, rfl, hex, slotPlace_mem (by omega) hn htmp, C⟩
    · intro _
      exact ih (by omega)

theorem sharePage_spec {s : Mm} {held : Multiset ℕ} (B : Books True M s held) (hP : P < 64)
    (hP0 : 0 < P) (inode : ℕ) {tmp : ℕ} (htmp : tmp < 0x4000000) :
    wp (σ.sharePage P inode tmp) (fun shared s' => shared = false ∧ s' = s ∨ shared = true ∧ ∃ Q u, Q ≠ P ∧
        σ.task Q = some u ∧ u.executable = some inode ∧ slotPlace Q tmp ∈ places ∧
        Shared True M s held (slotPlace Q tmp) (slotPlace P tmp) s')
      (fun e s' => e = .oom → s' = s) s := by
  rw [Machine.sharePage, wp_ite]
  exact ⟨fun _ => Or.inl ⟨rfl, rfl⟩, fun _ => tryTasks_spec B hP hP0 inode htmp 63 (by omega)⟩

/-- **Sharing agrees with loading**: the page that is shared holds what would be loaded. -/
theorem Sound.shared_contents (h : Sound M σ) (ht : σ.task P = some t) (hsw : ¬t.Switching)
    {inode a : ℕ} (hi : t.executable = some inode) (ha : a < 0x4000000)
    (hend : a - a % 4096 < t.endData) (habs : ¬present (σ.pte P a)) (hclash : σ.NoClash P t a)
    {s' : Mm} {u : Task} (hQ : Q ≠ P) (hu : σ.task Q = some u) (hui : u.executable = some inode)
    (hq : slotPlace Q a ∈ places)
    (C : Shared True M σ.kernel.mm σ.kernel.held (slotPlace Q a) (slotPlace P a) s') :
    s'.mem (frameOf (σ.pte Q a)) = σ.files.load inode t.endData (a - a % 4096) := by
  obtain ⟨hp, hclean, hf, -⟩ := C.was
  have husw : ¬u.Switching := fun hs => hclean (hclash habs Q u inode hQ hu hs hi hui hp)
  obtain ⟨hend_t, -, -⟩ := (h.ok P t ht).clean inode hi hsw
  obtain ⟨hend_u, -, hcl⟩ := (h.ok Q u hu).clean inode hui husw
  have hoff := offset_page (P := Q) ha
  have hpage := ((hcl _ hq (slotPlace_inSlot ha)) hp).2 (by rw [hoff, hend_u, ← hend_t]; exact hend) hclean
  rw [hoff, hend_u, ← hend_t] at hpage
  rw [← hpage]
  exact preserved_of_maps h.books C.kept hq hp hf

/-- What the absent page at `tmp` of the task is to hold. -/
def Task.loaded (t : Task) (F : Files) (tmp : ℕ) : Page :=
  match t.executable with
  | none => fun _ => 0
  | some inode => if t.endData ≤ tmp then fun _ => 0 else F.load inode t.endData tmp

/-- The page at `p` has been mapped, and holds `contents`. -/
structure Mapped (M : MainMemory) (held : Multiset ℕ) (p : ℕ × ℕ) (contents : Page) (s s' : Mm) :
    Prop where
  books : Books True M s' held
  calm : Calm (fun q => q = p) nowhere s s'
  there : present (s'.pte p)
  high : 256 ≤ frameOf (s'.pte p)
  holds : s'.mem (frameOf (s'.pte p)) = contents

theorem getEmptyPage_mapped {s : Mm} {held : Multiset ℕ} (B : Books True M s held) (hP : P < 64)
    (hP0 : 0 < P) {a : ℕ} (ha : a < 0x4000000) (habs : ¬present (s.pte (slotPlace P a))) :
    wp (getEmptyPage (base P + (a - a % 4096))) (fun _ s' => Mapped M held (slotPlace P a) (fun _ => 0) s s')
      (fun _ s' => Books True M s' held ∧ Calm nowhere nowhere s s') s := by
  have hplace : placeOf (base P + (a - a % 4096)) = slotPlace P a := by
    rw [placeOf_base hP (by omega), slotPlace_page]
  have hp := slotPlace_mem hP0 hP ha
  have hp' : placeOf (base P + (a - a % 4096)) ∈ places := by
    rw [hplace]
    exact hp
  have hspec := getEmptyPage_books B hp' (by rw [hplace]; exact habs)
  rw [hplace] at hspec
  apply wp_mono hspec
  · intro _ s' h
    obtain ⟨f, hf, hzero, C⟩ := h
    have hlt := hf.lt
    have hpte := C.pte _ hp
    rw [if_pos rfl] at hpte
    have hfr : frameOf (s'.pte (slotPlace P a)) = f := by
      rw [hpte]
      exact frameOf_userEntry_frame (by omega)
    refine ⟨C.books, Changed.calm B C, ?_, ?_, ?_⟩
    · rw [hpte]
      exact present_userEntry _
    · rw [hfr]
      exact hf.lowMem_le
    · rw [hfr, hzero]
  · intro _ s' h
    exact ⟨h.1, calm_of_same B h.2.1 h.2.2.1 h.2.2.2⟩

/-- What `do_no_page` up to the point where it sleeps leaves: an empty page, the page of another
task, or a frame to load the page into. -/
inductive Brought (M : MainMemory) (σ : Machine) (P : ℕ) (t : Task) (a : ℕ) : Option ℕ → Mm → Prop
  | empty {s' : Mm} : t.executable = none ∨ t.endData ≤ a - a % 4096 →
      Mapped M σ.kernel.held (slotPlace P a) (fun _ => 0) σ.kernel.mm s' → Brought M σ P t a none s'
  | shared {s' : Mm} (inode Q : ℕ) (u : Task) : t.executable = some inode →
      a - a % 4096 < t.endData → Q ≠ P → σ.task Q = some u → u.executable = some inode →
      slotPlace Q a ∈ places →
      Shared True M σ.kernel.mm σ.kernel.held (slotPlace Q a) (slotPlace P a) s' →
      Brought M σ P t a none s'
  | load {s' : Mm} (f : ℕ) : t.executable ≠ none → a - a % 4096 < t.endData → f ∉ σ.kernel.held →
      Books True M s' (f ::ₘ σ.kernel.held) → Calm nowhere nowhere σ.kernel.mm s' →
      Brought M σ P t a (some f) s'

theorem findPage_brought (B : Books True M σ.kernel.mm σ.kernel.held) (hP : P < 64) (hP0 : 0 < P)
    {a : ℕ} (ha : a < 0x4000000) (habs : ¬present (σ.pte P a)) :
    wp (σ.findPage P t (a - a % 4096)) (Brought M σ P t a)
      (fun e s' => e = .oom → Books True M s' σ.kernel.held ∧ Calm nowhere nowhere σ.kernel.mm s')
      σ.kernel.mm := by
  cases hi : t.executable with
  | none =>
    unfold Machine.findPage
    rw [hi, wp_bind]
    exact wp_mono (getEmptyPage_mapped B hP hP0 ha habs) (fun _ _ h => .empty (Or.inl hi) h)
      (fun _ _ h _ => h)
  | some inode =>
    have hsome : t.executable ≠ none := by
      rw [hi]
      exact Option.some_ne_none _
    unfold Machine.findPage
    rw [hi]
    simp only [wp_ite]
    constructor
    · intro hend
      rw [wp_bind]
      exact wp_mono (getEmptyPage_mapped B hP hP0 ha habs) (fun _ _ h => .empty (Or.inr hend) h)
        (fun _ _ h _ => h)
    · intro hend
      rw [wp_bind]
      apply wp_mono (sharePage_spec B hP hP0 inode (show a - a % 4096 < 0x4000000 by omega))
      · intro shared s' hcase
        rw [wp_ite]
        rcases hcase with ⟨hr, hs'⟩ | ⟨hr, Q, u, hQ, hu, hui, hq, C⟩
        · refine ⟨fun h => absurd (hr.symm.trans h) Bool.noConfusion, fun _ => ?_⟩
          rw [hs', wp_bind]
          apply wp_mono (getFreePage_books B) _ (fun _ _ h => h.elim)
          intro page s2 h2
          rw [wp_ite]
          rcases h2 with ⟨hz, hs2⟩ | ⟨f, hpage, Fr⟩
          · refine ⟨fun _ _ => ?_, fun hne => absurd hz hne⟩
            rw [hs2]
            exact ⟨B, Calm.refl _ _ _⟩
          · have hge := Fr.main.lowMem_le
            refine ⟨fun hz => by omega, fun _ => ?_⟩
            show Brought M σ P t a (some (page / 4096)) s2
            rw [hpage, show f * 4096 / 4096 = f from by omega]
            exact .load f hsome (by omega) Fr.notHeld Fr.books
              (calm_of_same B (fun q hq => Fr.pte hq) Fr.preserved Fr.dir)
        · refine ⟨fun _ => ?_, fun h => absurd hr h⟩
          rw [slotPlace_page, slotPlace_page] at C
          rw [slotPlace_page] at hq
          exact .shared inode Q u hi (by omega) hQ hu hui hq C
      · intro e s' h he
        rw [h he]
        exact ⟨B, Calm.refl _ _ _⟩

/-- The page that `share_page` maps. -/
theorem Shared.mapped {s s' : Mm} {held : Multiset ℕ} {p q : ℕ × ℕ} (B : Books True M s held)
    (hq : q ∈ places) (C : Shared True M s held p q s') :
    Mapped M held q (s'.mem (frameOf (s.pte p))) s s' := by
  obtain ⟨hpp, -, hfp, -⟩ := C.was
  have hpte := C.pte _ hq
  rw [if_pos (Or.inr rfl)] at hpte
  refine ⟨C.books, Shared.calm B C, ?_, ?_, ?_⟩
  · rw [hpte]
    exact (present_readOnly _).2 hpp
  · rw [hpte, frameOf_readOnly]
    exact hfp
  · rw [hpte, frameOf_readOnly]

/-- **`do_no_page`** up to the point where it sleeps. -/
theorem findPage_spec (h : Sound M σ) (ht : σ.task P = some t) (hsw : ¬t.Switching) (hP0 : 0 < P)
    {a : ℕ} (ha : a < 0x4000000) (habs : ¬present (σ.pte P a)) (hclash : σ.NoClash P t a) :
    wp (σ.findPage P t (a - a % 4096)) (fun page s' =>
        (page = none ∧ Mapped M σ.kernel.held (slotPlace P a)
          (t.loaded σ.files (a - a % 4096)) σ.kernel.mm s') ∨
        ∃ f, page = some f ∧ t.executable ≠ none ∧ a - a % 4096 < t.endData ∧
          f ∉ σ.kernel.held ∧ Books True M s' (f ::ₘ σ.kernel.held) ∧
          Calm nowhere nowhere σ.kernel.mm s')
      (fun e s' => e = .oom → Books True M s' σ.kernel.held ∧ Calm nowhere nowhere σ.kernel.mm s')
      σ.kernel.mm := by
  have hP := h.slots P t ht
  apply wp_mono (findPage_brought h.books hP hP0 ha habs) _ (fun _ _ h => h)
  intro page s' hbrought
  cases hbrought with
  | empty hfile W =>
    have hloaded : t.loaded σ.files (a - a % 4096) = fun _ => 0 := by
      rw [Task.loaded]
      rcases hfile with hi | hend
      · rw [hi]
      · split
        · rfl
        · rw [if_pos hend]
    rw [hloaded]
    exact Or.inl ⟨rfl, W⟩
  | shared inode Q u hi hend hQ hu hui hq C =>
    have hloaded : t.loaded σ.files (a - a % 4096) = σ.files.load inode t.endData (a - a % 4096) := by
      rw [Task.loaded, hi]
      exact if_neg (by omega)
    have W := Shared.mapped h.books (slotPlace_mem hP0 hP ha) C
    have hcontents := h.shared_contents ht hsw hi ha hend habs hclash hQ hu hui hq C
    rw [Machine.pte] at hcontents
    rw [hcontents] at W
    rw [hloaded]
    exact Or.inl ⟨rfl, W⟩
  | load f hexe hend hfresh B C => exact Or.inr ⟨f, rfl, hexe, hend, hfresh, B, C⟩

/-! ### What a process reads -/

/-- The page a process reads at `tmp`: the one that is mapped, or the one a fault would bring. -/
def Machine.view (σ : Machine) (P tmp : ℕ) : Page :=
  if present (σ.pte P tmp) then σ.kernel.mm.mem (frameOf (σ.pte P tmp))
  else match σ.task P with
    | none => fun _ => 0
    | some t => t.loaded σ.files tmp

/-- A page of a process that is not one of the kernel's own pages below `LOW_MEM`. -/
def Machine.Own (σ : Machine) (P tmp : ℕ) : Prop :=
  tmp % 4096 = 0 ∧ tmp < 0x4000000 ∧ 0 < P ∧ (present (σ.pte P tmp) → 256 ≤ frameOf (σ.pte P tmp))

def SameView (σ σ' : Machine) (P : ℕ) : Prop := ∀ tmp, σ.Own P tmp → σ'.view P tmp = σ.view P tmp

/-- A process goes on reading what it read when its pages stay. -/
theorem view_of_calm (hP0 : 0 < P) (hP : P < 64) (C : Calm X D σ.kernel.mm σ'.kernel.mm) {tmp : ℕ}
    (hown : σ.Own P tmp) (hX : ¬X (slotPlace P tmp))
    (htask : ∀ t, σ.task P = some t → ∃ t', σ'.task P = some t' ∧
      t'.loaded σ'.files tmp = t.loaded σ.files tmp) (hsome : σ.task P ≠ none) :
    σ'.view P tmp = σ.view P tmp := by
  have hp := slotPlace_mem hP0 hP hown.2.1
  have hpres : present (σ'.pte P tmp) ↔ present (σ.pte P tmp) := C.present _ hp hX
  rw [Machine.view, Machine.view]
  by_cases hpr : present (σ.pte P tmp)
  · rw [if_pos hpr, if_pos (hpres.2 hpr)]
    exact (C.page _ hp hX hpr (hown.2.2.2 hpr)).2
  · rw [if_neg hpr, if_neg (fun h => hpr (hpres.1 h))]
    cases ht : σ.task P with
    | none => exact absurd ht hsome
    | some t =>
      obtain ⟨t', ht', hl⟩ := htask t ht
      rw [ht']
      exact hl

theorem set_sameView (hP0 : 0 < P) (hP : P < 64) (ht : σ.task P = some t)
    (hexe : t'.executable = t.executable) (hend : t'.endData = t.endData)
    (C : Calm nowhere D σ.kernel.mm k'.mm) : SameView σ (σ.set P t' k') P := by
  intro tmp hown
  refine view_of_calm hP0 hP C hown (fun h => h) ?_ (by rw [ht]; exact Option.some_ne_none _)
  intro u hu
  rw [ht] at hu
  cases hu
  refine ⟨t', by rw [set_task, if_pos rfl], ?_⟩
  rw [Task.loaded, Task.loaded, hexe, hend]
  rfl

/-- A page that is mapped with what a fault would bring reads the same. -/
theorem mapped_sameView (hP0 : 0 < P) (hP : P < 64) (ht : σ.task P = some t)
    (hexe : t'.executable = t.executable) (hend : t'.endData = t.endData) {a : ℕ}
    (ha : a < 0x4000000) (habs : ¬present (σ.pte P a))
    (W : Mapped M k'.held (slotPlace P a) (t.loaded σ.files (a - a % 4096)) σ.kernel.mm k'.mm) :
    SameView σ (σ.set P t' k') P := by
  intro tmp hown
  by_cases hsame : slotPlace P tmp = slotPlace P a
  · have htmp : tmp = a - a % 4096 := by
      have h1 := offset_page (P := P) hown.2.1
      have h2 := offset_page (P := P) ha
      rw [hsame] at h1
      have := hown.1
      omega
    have hpte : σ.pte P tmp = σ.pte P a := by rw [Machine.pte, hsame, Machine.pte]
    rw [Machine.view, Machine.view, hpte, if_neg habs, ht]
    have hpte' : (σ.set P t' k').pte P tmp = k'.mm.pte (slotPlace P a) := by
      rw [Machine.pte, hsame]
      rfl
    rw [hpte', if_pos W.there, htmp]
    exact W.holds
  · refine view_of_calm hP0 hP W.calm hown hsame ?_ (by rw [ht]; exact Option.some_ne_none _)
    intro u hu
    rw [ht] at hu
    cases hu
    refine ⟨t', by rw [set_task, if_pos rfl], ?_⟩
    rw [Task.loaded, Task.loaded, hexe, hend]
    rfl

/-! ### The steps -/

section Steps

variable {a : ℕ} {rest : List Action}

theorem not_clash_nowhere : ∀ Q u, Q ≠ P → σ.task Q = some u → ∀ q, inSlot Q q →
    nowhere q → ¬u.Shareable q := fun _ _ _ _ _ _ h => h.elim

/-- `do_exit`, where the memory manager ran out of memory or an access broke a limit. -/
theorem exit_ok (h : Sound M σ) (ht : σ.task P = some t) (hP0 : P ≠ 0) (hsw : ¬t.Switching)
    (hz : t.zombie = false) (B : Books True M k'.mm k'.held)
    (C : Calm nowhere D σ.kernel.mm k'.mm)
    (hD : ∀ Q u, σ.task Q = some u → ∀ q, inSlot Q q → D q → ¬u.Shareable q)
    (hheld : ∀ f ∈ σ.kernel.held, f = t.frame ∨ f ∉ t.frames → f ∈ k'.held) :
    StepOk M σ P (σ.set P (t.next [.exit]) k') ∧ SameView σ (σ.set P (t.next [.exit]) k') P := by
  have hok := h.ok P t ht
  have hplain : ∀ b ∈ [Action.exit], b.Plain := by
    intro b hb
    rw [List.mem_singleton.1 hb]
    trivial
  have hframe : t.frame ∈ k'.held :=
    hheld _ ((hok.frames hP0).2 _ (frame_mem_frames t)) (Or.inl rfl)
  have hnext := hok.next hsw hplain (fun h0 => absurd h0 hP0) hz
  have hok' : TaskOk σ.files k' P (t.next [.exit]) := by
    refine hnext.others (h.slots P t ht) C (fun _ _ h => h) ?_ ?_
    · intro q hq hd hshare
      exact hD P t ht q hq hd ⟨hshare.1, hsw, hshare.2.2⟩
    · intro _ f hf
      rw [frames_of_plain (t := t.next [.exit]) hplain] at hf
      rw [List.mem_singleton.1 hf]
      exact hframe
  refine ⟨stepOk_set h ht B (C.mono (fun _ h => h.elim) (fun _ h => h)) (fun Q u _ => hD Q u) ?_ ?_
    hok',
    set_sameView (by omega) (h.slots P t ht) ht rfl rfl C⟩
  · intro f hf hor
    exact hheld f hf (Or.inr (hor.resolve_right hP0))
  · intro _ f hf
    rw [frames_of_plain (t := t.next [.exit]) hplain] at hf
    rw [List.mem_singleton.1 hf]
    exact Or.inl (frame_mem_frames t)

/-- **A fault for an absent page.** -/
theorem doNoPage_ok (h : Sound M σ) (ht : σ.task P = some t) (hP0 : P ≠ 0)
    (hplain : ∀ b ∈ t.todo, b.Plain) (hz : t.zombie = false) (ha : a < t.dataLimit)
    (habs : ¬present (σ.pte P a)) (hclash : σ.NoClash P t a)
    (hstep : σ.doNoPage P t a = some σ') : StepOk M σ P σ' ∧ SameView σ σ' P := by
  have hok := h.ok P t ht
  have hP := h.slots P t ht
  have hlim := hok.limits.2
  have hsw := not_switching_of_plain hplain
  have hspec := findPage_spec h ht hsw (by omega) (show a < 0x4000000 by omega) habs hclash
  have hframe := (hok.frames hP0).2 _ (frame_mem_frames t)
  rw [Machine.doNoPage] at hstep
  rcases call_cases hspec hstep with ⟨page, s, hcase, hσ'⟩ | ⟨s, hoom, hσ'⟩
  · rcases hcase with ⟨hpage, W⟩ | ⟨f, hpage, hexe, hend, hfresh, B, C⟩
    · rw [hσ', hpage]
      have hok' : TaskOk σ.files ⟨s, σ.kernel.held⟩ P t := by
        refine hok.touch hplain hz W.calm (fun _ _ h => h.elim) (slotPlace_inside ha hlim) ?_
          (fun _ => hframe)
        · intro inode hi _
          refine ⟨W.high, ?_⟩
          intro hlt _
          rw [offset_page (by omega)] at hlt ⊢
          rw [W.holds, Task.loaded, hi]
          exact if_neg (by omega)
      refine ⟨stepOk_set h ht W.books
        (W.calm.mono (fun q hq => by rw [hq]; exact slotPlace_inSlot (by omega)) (fun _ h => h))
        not_clash_nowhere (fun f hf _ => hf) (fun _ f hf => Or.inl hf) hok', ?_⟩
      exact mapped_sameView (by omega) hP ht rfl rfl (by omega) habs W
    · rw [hσ', hpage]
      have hframes : (t.next (.finishLoad f (a - a % 4096) :: t.todo)).frames = [t.frame, f] := rfl
      have hne : t.frame ≠ f := by
        intro h
        rw [h] at hframe
        exact hfresh hframe
      have hok' : TaskOk σ.files ⟨s, f ::ₘ σ.kernel.held⟩ P
          (t.next (.finishLoad f (a - a % 4096) :: t.todo)) := by
        have hothers : TaskOk σ.files ⟨s, f ::ₘ σ.kernel.held⟩ P t := hok.others hP C
          (fun _ _ h => h) (fun _ _ h => h.elim)
          (fun hne f hf => Multiset.mem_cons_of_mem ((hok.frames hne).2 f hf))
        refine ⟨hothers.limits, fun h0 => absurd h0 hP0, hothers.inside, ?_, ?_, ?_, ?_⟩
        · intro _
          rw [hframes]
          refine ⟨by simp [hne], ?_⟩
          intro g hg
          rcases List.mem_cons.1 hg with hg | hg
          · rw [hg]
            exact Multiset.mem_cons_of_mem hframe
          · rw [List.mem_singleton.1 hg]
            exact Multiset.mem_cons_self f _
        · refine ⟨hplain, by omega, ?_, hexe, hend, ?_⟩
          · show a - a % 4096 < t.dataLimit
            omega
          · rw [slotPlace_page, C.present _ (slotPlace_mem (by omega) hP (by omega)) (fun h => h)]
            exact habs
        · intro inode hi _
          exact hothers.clean inode hi hsw
        · intro hz'
          exact absurd (hz.symm.trans hz') Bool.noConfusion
      refine ⟨stepOk_set h ht B (C.mono (fun _ h => h.elim) (fun _ h => h)) not_clash_nowhere
        (fun g hg _ => Multiset.mem_cons_of_mem hg) ?_ hok', set_sameView (by omega) hP ht rfl rfl C⟩
      intro _ g hg
      rw [hframes] at hg
      rcases List.mem_cons.1 hg with hg | hg
      · rw [hg]
        exact Or.inl (frame_mem_frames t)
      · rw [List.mem_singleton.1 hg]
        exact Or.inr hfresh
  · rw [hσ']
    obtain ⟨B, C⟩ := hoom rfl
    exact exit_ok h ht hP0 hsw hz B C (fun _ _ _ _ _ h => h.elim) (fun f hf _ => hf)

end Steps

end OldLinux.Process
