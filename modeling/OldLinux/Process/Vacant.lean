import OldLinux.Memory.DirectoryWords
import OldLinux.Process.Runs

/-!
# Empty slots have no page tables

Instructions are fetched through the code segment, whose limit is not the limit of the data segment.
What a process does to the page tables of its own slot and of the others is the subject here, and for
that it does not matter what the pages hold: the promises of a task (`Lodged`) are the ones `TaskOk`
makes without the contents, for runs in which nothing is careful.  In their place comes one about the
stores of the kernel that are left to do: they never find a page of the kernel below `LOW_MEM`.
-/

namespace OldLinux.Process

open Lib Memory

variable {M : MainMemory} {σ σ' : Machine} {k k' : Kernel} {s s' s'' : Mm}
  {P Q : ℕ} {t : Task} {X D : ℕ × ℕ → Prop} {action : Action} {rest : List Action}

/-! ### What stays where it is -/

/-- The page at `q`, if there is one, is not a page of the kernel. -/
def HighAt (s : Mm) (q : ℕ × ℕ) : Prop := present (s.pte q) → 256 ≤ frameOf (s.pte q)

/-- Outside `X` nothing is mapped or unmapped, and no page becomes one of the kernel's. -/
structure Still (X : ℕ × ℕ → Prop) (s s' : Mm) : Prop where
  present : ∀ q ∈ places, ¬X q → (present (s'.pte q) ↔ present (s.pte q))
  high : ∀ q ∈ places, ¬X q → HighAt s q → HighAt s' q
  dir : ∀ d, (∀ j, ¬X (d, j)) → (Memory.present (s'.mem 0 d) ↔ Memory.present (s.mem 0 d))

theorem Still.refl (X : ℕ × ℕ → Prop) (s : Mm) : Still X s s where
  present := fun _ _ _ => Iff.rfl
  high := fun _ _ _ h => h
  dir := fun _ _ => Iff.rfl

theorem Still.trans (h : Still X s s') (h' : Still X s' s'') : Still X s s'' where
  present := by
    intro q hq hX
    rw [h'.present q hq hX, h.present q hq hX]
  high := fun q hq hX hq' => h'.high q hq hX (h.high q hq hX hq')
  dir := by
    intro d hX
    rw [h'.dir d hX, h.dir d hX]

theorem Still.mono {X' : ℕ × ℕ → Prop} (h : Still X s s') (hX : ∀ q, X q → X' q) : Still X' s s' where
  present := fun q hq h' => h.present q hq (fun hx => h' (hX q hx))
  high := fun q hq h' => h.high q hq (fun hx => h' (hX q hx))
  dir := fun d h' => h.dir d (fun j hx => h' j (hX _ hx))

theorem Calm.still (C : Calm X D s s') : Still X s s' where
  present := C.present
  high := by
    intro q hq hX hhigh hp
    have hold := (C.present q hq hX).1 hp
    exact (C.page q hq hX hold (hhigh hold)).1
  dir := C.dir

theorem Still.empty (C : Still X s s') (hX : ∀ q, inSlot Q q → ¬X q) : Empty s' Q ↔ Empty s Q := by
  constructor
  · intro h d hd hs hp
    exact h d hd hs ((C.dir d (fun j => hX (d, j) hs)).2 hp)
  · intro h d hd hs hp
    exact h d hd hs ((C.dir d (fun j => hX (d, j) hs)).1 hp)

/-! ### The promises of a task -/

/-- The segment `do_execve` makes for a text of this size is not empty, and fits into a slot. -/
def TextFits (text : ℕ) : Prop :=
  0 < (text + 4095) % 2 ^ 32 / 4096 * 4096 ∧ (text + 4095) % 2 ^ 32 / 4096 * 4096 ≤ 0x4000000

/-- Things to do that carry no state of their own and promise nothing about what comes after. -/
def Action.Simple : Action → Prop
  | .verify _ _ => False
  | a => a.Plain

theorem Action.Simple.plain {a : Action} (h : a.Simple) : a.Plain := by
  cases a <;> trivial

/-- The stores of the kernel go to pages that are not the kernel's own. -/
def Stores (s : Mm) (P limit : ℕ) (todo : List Action) : Prop :=
  ∀ b ∈ todo, b.Simple ∧ ∀ a v, b = .put a v → a < limit → HighAt s (slotPlace P a)

/-- What is promised about the things a task still has to do. -/
def Pending (s : Mm) (P : ℕ) (t : Task) : List Action → Prop
  | .finishLoad _ tmp :: rest => tmp < t.dataLimit ∧ ¬present (s.pte (slotPlace P tmp)) ∧
      Stores s P t.dataLimit rest
  | [.execSwitch _ _ _ text _ page] => page.length ≤ 32 ∧ TextFits text
  | [.execFree _ _ text _ page] => page.length ≤ 32 ∧ TextFits text
  | [.exited] => Empty s P
  | .verify a size :: rest => size = 4 ∧ ∀ b ∈ rest, b.Simple ∧
      ∀ c v, b = .put c v → a ≤ c ∧ c < a + 4
  | todo => Stores s P t.dataLimit todo

structure Lodged (k : Kernel) (P : ℕ) (t : Task) : Prop where
  limits : (0 < t.codeLimit ∧ t.codeLimit ≤ t.dataLimit) ∧ t.dataLimit ≤ 0x4000000
  zero : P = 0 → t.dataLimit ≤ 0x400000 ∧ t.executable = none ∧ t.zombie = false ∧ ∀ a ∈ t.todo,
    ∃ nr, a = .fork nr
  inside : ∀ d ∈ directory, d / 16 = P → present (k.mm.mem 0 d) → d % 16 < dirCount t.dataLimit
  frames : P ≠ 0 → t.frames.Nodup ∧ ∀ f ∈ t.frames, f ∈ k.held
  todo : Pending k.mm P t t.todo
  gone : t.zombie = true → t.todo = [] ∧ t.executable = none ∧ Empty k.mm P

theorem pending_of_stores {todo : List Action} (h : Stores s P t.dataLimit todo) : Pending s P t todo := by
  unfold Pending
  split
  · exact (h _ (List.mem_cons_self ..)).1.elim
  · exact (h _ (List.mem_cons_self ..)).1.elim
  · exact (h _ (List.mem_cons_self ..)).1.elim
  · exact (h _ (List.mem_cons_self ..)).1.elim
  · exact (h _ (List.mem_cons_self ..)).1.elim
  · exact h

theorem Lodged.held (h : Lodged k P t) (hP : P ≠ 0) : ∀ f ∈ t.frames, f ∈ k.held := (h.frames hP).2

theorem Lodged.frame_held (h : Lodged k P t) (hP : P ≠ 0) : t.frame ∈ k.held :=
  h.held hP _ (frame_mem_frames t)

/-- Task 0 does nothing but fork. -/
theorem Lodged.pos (h : Lodged k P t) (htodo : t.todo = action :: rest) (ha : ∀ nr, action ≠ .fork nr) :
    P ≠ 0 := by
  intro hP
  obtain ⟨nr, hnr⟩ := (h.zero hP).2.2.2 action (by rw [htodo]; exact List.mem_cons_self ..)
  exact ha nr hnr

theorem Lodged.not_zombie (h : Lodged k P t) (htodo : t.todo = action :: rest) : t.zombie = false := by
  cases hz : t.zombie with
  | false => rfl
  | true =>
    have := (h.gone hz).1
    rw [htodo] at this
    cases this

/-- A simple thing to do comes with simple things to do. -/
theorem Lodged.stores (h : Lodged k P t) (htodo : t.todo = action :: rest) (ha : action.Simple) :
    Stores k.mm P t.dataLimit t.todo := by
  have ht := h.todo
  rw [htodo] at ht ⊢
  unfold Pending at ht
  split at ht
  · rename_i heq
    cases heq
    exact ha.elim
  · rename_i heq
    cases heq
    exact ha.elim
  · rename_i heq
    cases heq
    exact ha.elim
  · rename_i heq
    cases heq
    exact ha.elim
  · rename_i heq
    cases heq
    exact ha.elim
  · exact ht

theorem Stores.tail {limit : ℕ} (h : Stores s P limit (action :: rest)) : Stores s P limit rest :=
  fun b hb => h b (List.mem_cons_of_mem _ hb)

theorem Stores.frames {limit : ℕ} {todo : List Action} (h : Stores s P limit todo) :
    (t.next todo).frames = [t.frame] :=
  frames_of_plain (t := t.next todo) (fun b hb => (h b hb).1.plain)

/-- The stores stay harmless when every page that changes is not one of the kernel's. -/
theorem Stores.still {limit : ℕ} {todo : List Action} (h : Stores s P limit todo) (hP0 : 0 < P)
    (hP : P < 64) (hlimit : limit ≤ 0x4000000) (C : Still X s s')
    (hX : ∀ q, inSlot P q → X q → HighAt s' q) : Stores s' P limit todo := by
  intro b hb
  obtain ⟨hsimple, hput⟩ := h b hb
  refine ⟨hsimple, ?_⟩
  intro a v hbv ha
  by_cases hXa : X (slotPlace P a)
  · exact hX _ (slotPlace_inSlot (by omega)) hXa
  · exact C.high _ (slotPlace_mem hP0 hP (by omega)) hXa (hput a v hbv ha)

/-- What the things to do rest on, after a step that leaves the slot alone. -/
theorem Pending.still (hP0 : 0 < P) (hP : P < 64) (hlimit : t.dataLimit ≤ 0x4000000)
    (C : Still X s s') (hX : ∀ q, inSlot P q → ¬X q) {todo : List Action} (h : Pending s P t todo) :
    Pending s' P t todo := by
  have hstores : ∀ l, Stores s P t.dataLimit l → Stores s' P t.dataLimit l := fun l hl =>
    hl.still hP0 hP hlimit C (fun q hq hXq => absurd hXq (hX q hq))
  unfold Pending at h ⊢
  split at h
  · obtain ⟨h1, h2, h3⟩ := h
    refine ⟨h1, ?_, hstores _ h3⟩
    rename_i tmp _
    rw [C.present _ (slotPlace_mem hP0 hP (by omega)) (hX _ (slotPlace_inSlot (by omega)))]
    exact h2
  · exact h
  · exact h
  · exact (C.empty hX).2 h
  · exact h
  · exact hstores _ h

/-- **Other tasks** do not break the promises of a task. -/
theorem Lodged.others (h : Lodged k Q t) (hlt : Q < 64) (C : Still X k.mm k'.mm)
    (hX : ∀ q, inSlot Q q → ¬X q) (hheld : Q ≠ 0 → ∀ f ∈ t.frames, f ∈ k'.held) : Lodged k' Q t where
  limits := h.limits
  zero := h.zero
  inside := by
    intro d hd hs hp
    exact h.inside d hd hs ((C.dir d (fun j => hX (d, j) hs)).1 hp)
  frames := fun hne => ⟨(h.frames hne).1, hheld hne⟩
  todo := by
    by_cases h0 : Q = 0
    · -- task 0 has nothing to do but fork
      apply pending_of_stores
      intro b hb
      obtain ⟨nr, hnr⟩ := (h.zero h0).2.2.2 b hb
      rw [hnr]
      exact ⟨trivial, fun _ _ h => by cases h⟩
    · exact Pending.still (by omega) hlt h.limits.2 C hX h.todo
  gone := by
    intro hz
    obtain ⟨h1, h2, h3⟩ := h.gone hz
    exact ⟨h1, h2, (C.empty hX).2 h3⟩

/-! ### Bookkeeping -/

abbrev Housed (M : MainMemory) (σ : Machine) : Prop := Slots Lodged M σ

/-- What a step of the task `P` leaves of the page tables. -/
structure Keeps (M : MainMemory) (σ : Machine) (P : ℕ) (σ' : Machine) : Prop where
  housed : Housed M σ'
  still : Still (fun q => inSlot P q ∨ σ.task (q.1 / 16) = none) σ.kernel.mm σ'.kernel.mm

theorem Still.empty_other (C : Still (inSlot P) s s') (hne : Q ≠ P) (h : Empty s Q) : Empty s' Q :=
  (C.empty (fun _ hs hs' => hne (hs.symm.trans hs'))).2 h

/-- A step that changes the task `P` and its slot only. -/
theorem Slots.alone (h : Housed M σ) (ht : σ.task P = some t) {t' : Task}
    (B : Books True M k'.mm k'.held) (C : Still (inSlot P) σ.kernel.mm k'.mm)
    (hrel : ∀ f ∈ σ.kernel.held, f ∉ t.frames ∨ P = 0 → f ∈ k'.held)
    (hacq : P ≠ 0 → ∀ f ∈ t'.frames, f ∈ t.frames ∨ f ∉ σ.kernel.held) (hok : Lodged k' P t') :
    Keeps M σ P (σ.set P t' k') where
  housed := by
    refine h.set (fun _ _ _ h hP => h.held hP) ht B (fun _ => C.empty_other) hrel hacq ?_ hok
    intro Q u hne hu hheld
    exact (h.ok Q u hu).others (h.slots Q u hu) C (fun q hs hs' => hne (hs.symm.trans hs')) hheld
  still := C.mono (fun _ hq => Or.inl hq)

/-- The task goes on with simple things to do. -/
theorem Lodged.onward (h : Lodged k P t) (hz : t.zombie = false) {todo : List Action}
    (C : Still X k.mm k'.mm) (hX : ∀ q, inSlot P q → X q → q.1 % 16 < dirCount t.dataLimit)
    (h0 : P = 0 → ∀ a ∈ todo, ∃ nr, a = .fork nr) (hheld : P ≠ 0 → t.frame ∈ k'.held)
    (hstores : Stores k'.mm P t.dataLimit todo) : Lodged k' P (t.next todo) where
  limits := h.limits
  zero := fun hP0 => ⟨(h.zero hP0).1, (h.zero hP0).2.1, (h.zero hP0).2.2.1, h0 hP0⟩
  inside := by
    intro d hd hs hp
    by_cases hXd : ∃ j, X (d, j)
    · obtain ⟨j, hj⟩ := hXd
      exact hX (d, j) hs hj
    · exact h.inside d hd hs ((C.dir d (fun j hj => hXd ⟨j, hj⟩)).1 hp)
  frames := by
    intro hP0
    rw [hstores.frames]
    refine ⟨List.nodup_singleton _, ?_⟩
    intro f hf
    rw [List.mem_singleton.1 hf]
    exact hheld hP0
  todo := pending_of_stores hstores
  gone := by
    intro hz'
    rw [show (t.next todo).zombie = t.zombie from rfl, hz] at hz'
    cases hz'

theorem Slots.onward (h : Housed M σ) (ht : σ.task P = some t) (hz : t.zombie = false)
    {todo : List Action} (B : Books True M k'.mm k'.held) (C : Still X σ.kernel.mm k'.mm)
    (hX : ∀ q, X q → inSlot P q ∧ q.1 % 16 < dirCount t.dataLimit)
    (h0 : P = 0 → ∀ a ∈ todo, ∃ nr, a = .fork nr)
    (hrel : ∀ f ∈ σ.kernel.held, f = t.frame ∨ f ∉ t.frames ∨ P = 0 → f ∈ k'.held)
    (hstores : Stores k'.mm P t.dataLimit todo) : Keeps M σ P (σ.set P (t.next todo) k') := by
  have hok := h.ok P t ht
  refine h.alone ht B (C.mono (fun q hq => (hX q hq).1)) (fun f hf hor => hrel f hf (Or.inr hor)) ?_ ?_
  · intro _ f hf
    rw [hstores.frames] at hf
    rw [List.mem_singleton.1 hf]
    exact Or.inl (frame_mem_frames t)
  · refine hok.onward hz C (fun q _ hq => (hX q hq).2) h0 ?_ hstores
    intro hP0
    exact hrel _ (hok.frame_held hP0) (Or.inl rfl)

/-- `do_exit`, where the memory manager ran out of memory or an access broke a limit. -/
theorem Slots.dies (h : Housed M σ) (ht : σ.task P = some t) (hP0 : P ≠ 0) (hz : t.zombie = false)
    (B : Books True M k'.mm k'.held) (C : Still nowhere σ.kernel.mm k'.mm)
    (hrel : ∀ f ∈ σ.kernel.held, f = t.frame ∨ f ∉ t.frames → f ∈ k'.held) :
    Keeps M σ P (σ.set P (t.next [.exit]) k') := by
  refine h.onward ht hz B C (fun _ hq => hq.elim) (fun hP => absurd hP hP0) ?_ ?_
  · intro f hf hor
    rcases hor with h | h | h
    · exact hrel f hf (Or.inl h)
    · exact hrel f hf (Or.inr h)
    · exact absurd h hP0
  · intro b hb
    rw [List.mem_singleton.1 hb]
    exact ⟨trivial, fun _ _ h => by cases h⟩

/-- A page that is mapped where none was. -/
theorem Mapped.keeps {held : Multiset ℕ} {p : ℕ × ℕ} {contents : Page}
    (W : Mapped M held p contents s s') {q : ℕ × ℕ} (hq : q = p) : HighAt s' q := by
  intro _
  rw [hq]
  exact W.high

/-! ### Page faults -/

/-- **A fault for an absent page.** -/
theorem Slots.fault (h : Housed M σ) (ht : σ.task P = some t) (hP0 : P ≠ 0)
    (hz : t.zombie = false) {a : ℕ} (ha : a < t.dataLimit) (habs : ¬present (σ.pte P a))
    (hstores : Stores σ.kernel.mm P t.dataLimit t.todo) (hstep : σ.doNoPage P t a = some σ') :
    Keeps M σ P σ' := by
  have hok := h.ok P t ht
  have hP := h.slots P t ht
  have hlim := hok.limits.2
  have hslot : inSlot P (slotPlace P a) := slotPlace_inSlot (by omega)
  -- a page that is mapped at once
  have hmapped : ∀ contents s', Mapped M σ.kernel.held (slotPlace P a) contents σ.kernel.mm s' →
      Keeps M σ P (σ.set P t ⟨s', σ.kernel.held⟩) := by
    intro contents s' W
    refine h.onward ht hz (t := t) W.books W.calm.still ?_ (fun h => absurd h hP0) (fun f hf _ => hf)
      (hstores.still (by omega) hP hlim W.calm.still (fun q _ hq => W.keeps hq))
    intro q hq
    exact ⟨by rw [hq]; exact hslot, by rw [hq]; exact slotPlace_inside ha hlim⟩
  rw [Machine.doNoPage] at hstep
  rcases call_cases (findPage_brought h.books hP (by omega) (show a < 0x4000000 by omega) habs) hstep with
    ⟨page, s, hbrought, hσ'⟩ | ⟨s, hoom, hσ'⟩
  · rw [hσ']
    cases hbrought with
    | empty _ W => exact hmapped _ _ W
    | shared _ Q u _ _ _ _ _ _ C =>
      exact hmapped _ _ (Shared.mapped h.books (slotPlace_mem (by omega) hP (by omega)) C)
    | load f _ hend hfresh B C =>
      have hframe := hok.frame_held hP0
      have hframes : (t.next (.finishLoad f (a - a % 4096) :: t.todo)).frames = [t.frame, f] := rfl
      have hne : t.frame ≠ f := by
        intro h
        rw [h] at hframe
        exact hfresh hframe
      refine h.alone ht B (C.still.mono (fun _ h => h.elim))
        (fun g hg _ => Multiset.mem_cons_of_mem hg) ?_ ⟨hok.limits, fun h0 => absurd h0 hP0, ?_, ?_, ?_, ?_⟩
      · intro _ g hg
        rw [hframes] at hg
        rcases List.mem_cons.1 hg with hg | hg
        · rw [hg]
          exact Or.inl (frame_mem_frames t)
        · rw [List.mem_singleton.1 hg]
          exact Or.inr hfresh
      · intro d hd hs hp
        exact hok.inside d hd hs ((C.dir d (fun _ h => h)).1 hp)
      · intro _
        rw [hframes]
        refine ⟨by simp [hne], ?_⟩
        intro g hg
        rcases List.mem_cons.1 hg with hg | hg
        · rw [hg]
          exact Multiset.mem_cons_of_mem hframe
        · rw [List.mem_singleton.1 hg]
          exact Multiset.mem_cons_self f _
      · refine ⟨?_, ?_, hstores.still (by omega) hP hlim C.still (fun _ _ h => h.elim)⟩
        · show a - a % 4096 < t.dataLimit
          omega
        · rw [slotPlace_page, C.present _ (slotPlace_mem (by omega) hP (by omega)) (fun h => h)]
          exact habs
      · intro hz'
        exact absurd (hz.symm.trans hz') Bool.noConfusion
  · obtain ⟨B, C⟩ := hoom rfl
    rw [hσ']
    exact h.dies ht hP0 hz B C.still (fun f hf _ => hf)

/-! ### Accesses -/

/-- A simple thing that a task other than task 0 has to do. -/
structure Running (M : MainMemory) (σ : Machine) (P : ℕ) (t : Task) (action : Action)
    (rest : List Action) : Prop where
  housed : Housed M σ
  task : σ.task P = some t
  todo : t.todo = action :: rest
  simple : action.Simple
  pos : P ≠ 0

section

variable (r : Running M σ P t action rest)

include r

theorem Running.ok : Lodged σ.kernel P t := r.housed.ok P t r.task

theorem Running.lt : P < 64 := r.housed.slots P t r.task

theorem Running.not_zombie : t.zombie = false := r.ok.not_zombie r.todo

theorem Running.stores : Stores σ.kernel.mm P t.dataLimit t.todo := r.ok.stores r.todo r.simple

theorem Running.rest_stores : Stores σ.kernel.mm P t.dataLimit rest := by
  have h := r.stores
  rw [r.todo] at h
  exact h.tail

theorem Running.keeps (B : Books True M k'.mm k'.held) (C : Still X σ.kernel.mm k'.mm)
    (hX : ∀ q, X q → inSlot P q ∧ q.1 % 16 < dirCount t.dataLimit ∧ HighAt k'.mm q)
    (hheld : k'.held = σ.kernel.held) : Keeps M σ P (σ.set P (t.next rest) k') := by
  have hP := r.pos
  refine r.housed.onward r.task r.not_zombie B C (fun q hq => ⟨(hX q hq).1, (hX q hq).2.1⟩)
    (fun h => absurd h hP) ?_ ?_
  · intro f hf _
    rw [hheld]
    exact hf
  · exact r.rest_stores.still (by omega) r.lt r.ok.limits.2 C (fun q _ hq => (hX q hq).2.2)

theorem Running.exit (B : Books True M k'.mm k'.held) (C : Still nowhere σ.kernel.mm k'.mm)
    (hheld : k'.held = σ.kernel.held) : Keeps M σ P (σ.set P (t.next [.exit]) k') :=
  r.housed.dies r.task r.pos r.not_zombie B C (fun f hf _ => by rw [hheld]; exact hf)

/-- The access faults first. -/
theorem Running.fault {a : ℕ} (ha : a < t.dataLimit) (habs : ¬present (σ.pte P a))
    (hstep : σ.doNoPage P ((t.next rest).next (action :: rest)) a = some σ') : Keeps M σ P σ' := by
  rw [next_next, next_self r.todo] at hstep
  exact r.housed.fault r.task r.pos r.not_zombie ha habs r.stores hstep

end

/-- A store through an entry leaves the page tables as they are. -/
structure Marked (M : MainMemory) (held : Multiset ℕ) (p : ℕ × ℕ) (s s' : Mm) : Prop where
  books : Books True M s' held
  pte : ∀ q ∈ places, s'.pte q = if q = p then withDirty (s.pte p) else s.pte q
  dir : s'.mem 0 = s.mem 0

theorem Marked.still {held : Multiset ℕ} {p : ℕ × ℕ} (W : Marked M held p s s') : Still nowhere s s' where
  present := by
    intro q hq _
    rw [W.pte q hq]
    split
    · rename_i h
      rw [h]
      exact present_withDirty _
    · exact Iff.rfl
  high := by
    intro q hq _ hhigh
    rw [HighAt, W.pte q hq]
    split
    · rename_i h
      rw [h] at hhigh
      rw [present_withDirty, frameOf_withDirty]
      exact hhigh
    · exact hhigh
  dir := by
    intro d _
    rw [W.dir]

/-- **A store**, also into a page that others share. -/
theorem poke_marked {held : Multiset ℕ} (B : Books True M s held) (address : ℕ)
    (hp : placeOf address ∈ places) (hpres : present (s.pte (placeOf address)))
    (hhigh : 256 ≤ frameOf (s.pte (placeOf address))) (b : Byte) :
    wp (poke address b) (fun _ s' => Marked M held (placeOf address) s s') (fun _ _ => False) s := by
  have hd := dir_of_pte hpres
  have hm : s.Maps (frameOf (s.pte (placeOf address))) (placeOf address) :=
    maps_iff_pte.2 ⟨hpres, rfl⟩
  rw [wp_poke hpres]
  generalize placeOf address = p at *
  have B1 := books_dirtied B hp hpres
  have htr : (s.store (s.table p.1) p.2 (withDirty (s.pte p))).tableRefs (frameOf (s.pte p)) = 0 := by
    rw [B.ledger.tableRefs_store hp hd]
    exact (B.tableRefs_of_maps trivial hp hm).1
  refine ⟨B1.content (by omega) htr _, ?_, ?_⟩
  · intro q hq
    rw [pte_storePage (by omega) htr _ hq]
    exact B.ledger.pte_store hp hq hd _
  · rw [storePage_mem_of_ne _ (show 0 ≠ frameOf (s.pte p) by omega)]
    exact B.ledger.store_dir hp hd _

end OldLinux.Process
