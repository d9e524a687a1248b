import OldLinux.Process.Calm

/-!
# The invariant of the process machine

`Sound` joins the books of the memory manager with what the fields of a task promise about its slot:
nothing is mapped past its data limit, a slot without a task is empty, the frames in the hands of the
tasks are held and different, and, for sharing, a clean page of a task below `end_data` holds what
`do_no_page` would load there.  A task that runs `execve` breaks the last promise between setting
`executable` and freeing its page tables (`Switching`).

What one task does changes nothing the promises of another rest on (`TaskOk.others`), so each kind
of step only has to keep the promises of the task that takes it.
-/

namespace OldLinux.Process

open Function Lib Memory

/-- Between `current->executable = inode` and `free_page_tables`. -/
def Task.Switching (t : Task) : Prop :=
  ∃ args envs text endData page, t.todo = [.execFree args envs text endData page]

/-- A page that `share_page` may take from the task. -/
def Task.Shareable (t : Task) (q : ℕ × ℕ) : Prop :=
  t.executable ≠ none ∧ ¬t.Switching ∧ offset q * 4096 < t.endData

/-- Things to do that carry no state of their own. -/
def Action.Plain : Action → Prop
  | .finishLoad _ _ => False
  | .execSwitch _ _ _ _ _ _ => False
  | .execFree _ _ _ _ _ => False
  | .exited => False
  | _ => True

/-- The slot has no page tables. -/
def Empty (s : Mm) (P : ℕ) : Prop := ∀ d ∈ directory, d / 16 = P → ¬present (s.mem 0 d)

/-- What the header of `inode` says, as `do_execve` remembers it. -/
structure Header (F : Files) (inode text endData : ℕ) : Prop where
  text_le : text ≤ 0x3000000
  end_eq : endData = F.endData inode
  end_le : endData ≤ 0x3000000

/-- What is promised about the things a task still has to do. -/
def TodoOk (F : Files) (s : Mm) (P : ℕ) (t : Task) : List Action → Prop
  | .finishLoad _ tmp :: rest => (∀ a ∈ rest, a.Plain) ∧ tmp % 4096 = 0 ∧ tmp < t.dataLimit ∧
      t.executable ≠ none ∧ tmp < t.endData ∧ ¬present (s.pte (slotPlace P tmp))
  | [.execSwitch inode _ _ text endData page] => page.length ≤ 32 ∧ Header F inode text endData
  | [.execFree _ _ text endData page] => page.length ≤ 32 ∧ ∃ inode, t.executable = some inode ∧
      Header F inode text endData
  | [.exited] => Empty s P
  | todo => ∀ a ∈ todo, a.Plain

/-- A clean page below `end_data` is the page of the file. -/
def Clean (F : Files) (s : Mm) (t : Task) (inode : ℕ) (q : ℕ × ℕ) : Prop :=
  present (s.pte q) → 256 ≤ frameOf (s.pte q) ∧ (offset q * 4096 < t.endData →
    ¬dirty (s.pte q) → s.mem (frameOf (s.pte q)) = F.load inode t.endData (offset q * 4096))

structure TaskOk (F : Files) (k : Kernel) (P : ℕ) (t : Task) : Prop where
  limits : t.codeLimit ≤ 0x4000000 ∧ t.dataLimit ≤ 0x4000000
  zero : P = 0 → t.dataLimit ≤ 0x400000 ∧ t.executable = none ∧ t.zombie = false ∧ ∀ a ∈ t.todo,
    ∃ nr, a = .fork nr
  inside : ∀ d ∈ directory, d / 16 = P → present (k.mm.mem 0 d) → d % 16 < dirCount t.dataLimit
  frames : P ≠ 0 → t.frames.Nodup ∧ ∀ f ∈ t.frames, f ∈ k.held
  todo : TodoOk F k.mm P t t.todo
  clean : ∀ inode, t.executable = some inode → ¬t.Switching → t.endData = F.endData inode ∧
    t.endData ≤ 0x3000000 ∧
    ∀ q ∈ places, inSlot P q → Clean F k.mm t inode q
  gone : t.zombie = true → t.todo = [] ∧ t.executable = none ∧ Empty k.mm P

structure Sound (M : MainMemory) (σ : Machine) : Prop where
  books : Books True M σ.kernel.mm σ.kernel.held
  slots : ∀ P t, σ.task P = some t → P < 64
  vacant : ∀ P, σ.task P = none → Empty σ.kernel.mm P
  ok : ∀ P t, σ.task P = some t → TaskOk σ.files σ.kernel P t
  apart : ∀ P Q t u, σ.task P = some t → σ.task Q = some u → P ≠ 0 → Q ≠ 0 → P ≠ Q →
    ∀ f ∈ t.frames, f ∉ u.frames

variable {M : MainMemory} {F : Files} {k k' : Kernel} {P Q : ℕ} {t t' : Task} {X D : ℕ × ℕ → Prop}

/-- No page is mapped in an empty slot. -/
theorem Empty.absent {s : Mm} (h : Empty s P) {q : ℕ × ℕ} (hq : q ∈ places) (hs : inSlot P q) :
    ¬present (s.pte q) := fun hp => h q.1 (directory_of_places hq) hs (dir_of_pte hp)

/-! ### What other tasks do -/

theorem Calm.empty {s s' : Mm} (C : Calm X D s s') (hX : ∀ q, inSlot Q q → ¬X q) : Empty s' Q ↔ Empty s Q := by
  constructor
  · intro h d hd hs hp
    exact h d hd hs ((C.dir d (fun j => hX (d, j) hs)).2 hp)
  · intro h d hd hs hp
    exact h d hd hs ((C.dir d (fun j => hX (d, j) hs)).1 hp)

theorem Calm.empty_other {s s' : Mm} (C : Calm (inSlot P) D s s') (hne : Q ≠ P) (h : Empty s Q) :
    Empty s' Q := (C.empty (fun _ hs hs' => hne (hs.symm.trans hs'))).2 h

theorem Calm.clean (C : Calm X D k.mm k'.mm) {inode : ℕ} {q : ℕ × ℕ} (hq : q ∈ places)
    (hX : ¬X q) (hD : D q → t.endData ≤ offset q * 4096) (h : Clean F k.mm t inode q) :
    Clean F k'.mm t inode q := by
  intro hp'
  have hp := (C.present q hq hX).1 hp'
  obtain ⟨hf, hcl⟩ := h hp
  obtain ⟨hf', hmem⟩ := C.page q hq hX hp hf
  refine ⟨hf', ?_⟩
  intro hlt hnd
  rw [hmem]
  refine hcl hlt ?_
  intro hd
  exact hnd (C.dirty q hq hX (fun h => absurd (hD h) (by omega)) hp hd)

theorem slotPlace_inSlot {nr a : ℕ} (ha : a < 0x4000000) : inSlot nr (slotPlace nr a) := by
  rw [inSlot, slotPlace, dirIndex]
  omega

/-- The promises about what is left to do, after a step that leaves the slot alone. -/
theorem Calm.todo (C : Calm X D k.mm k'.mm) (hQ : 0 < Q ∨ t.executable = none) (hlt : Q < 64)
    (hlim : t.dataLimit ≤ 0x4000000) (hX : ∀ q, inSlot Q q → ¬X q) {todo : List Action}
    (h : TodoOk F k.mm Q t todo) : TodoOk F k'.mm Q t todo := by
  unfold TodoOk at h ⊢
  split at h
  · obtain ⟨h1, h2, h3, h4, h5, h6⟩ := h
    refine ⟨h1, h2, h3, h4, h5, ?_⟩
    have hpos : 0 < Q := hQ.resolve_right h4
    rename_i tmp _
    rw [C.present _ (slotPlace_mem hpos hlt (by omega)) (hX _ (slotPlace_inSlot (by omega)))]
    exact h6
  · exact h
  · exact h
  · exact (C.empty hX).2 h
  · exact h

/-- **Other tasks** do not break the promises of a task. -/
theorem TaskOk.others (h : TaskOk F k Q t) (hlt : Q < 64) (C : Calm X D k.mm k'.mm)
    (hX : ∀ q, inSlot Q q → ¬X q) (hD : ∀ q, inSlot Q q → D q → ¬t.Shareable q)
    (hheld : Q ≠ 0 → ∀ f ∈ t.frames, f ∈ k'.held) : TaskOk F k' Q t where
  limits := h.limits
  zero := h.zero
  inside := by
    intro d hd hs hp
    exact h.inside d hd hs ((C.dir d (fun j => hX (d, j) hs)).1 hp)
  frames := fun hne => ⟨(h.frames hne).1, hheld hne⟩
  todo := by
    have hQ : 0 < Q ∨ t.executable = none := by
      by_cases h0 : Q = 0
      · exact Or.inr (h.zero h0).2.1
      · exact Or.inl (by omega)
    exact C.todo hQ hlt h.limits.2 hX h.todo
  clean := by
    intro inode hi hsw
    obtain ⟨h1, h2, h3⟩ := h.clean inode hi hsw
    refine ⟨h1, h2, ?_⟩
    intro q hq hs
    refine C.clean hq (hX q hs) ?_ (h3 q hq hs)
    intro hd
    by_contra hlt
    exact hD q hs hd ⟨by rw [hi]; exact Option.some_ne_none _, hsw, by omega⟩
  gone := by
    intro hz
    obtain ⟨h1, h2, h3⟩ := h.gone hz
    exact ⟨h1, h2, (C.empty hX).2 h3⟩

/-! ### One task at a time -/

/-- The tasks of a machine keep the promises `Ok`: the shape `Sound` has, for any promises. -/
structure Slots (Ok : Kernel → ℕ → Task → Prop) (M : MainMemory) (σ : Machine) : Prop where
  books : Books True M σ.kernel.mm σ.kernel.held
  slots : ∀ P t, σ.task P = some t → P < 64
  vacant : ∀ P, σ.task P = none → Empty σ.kernel.mm P
  ok : ∀ P t, σ.task P = some t → Ok σ.kernel P t
  apart : ∀ P Q t u, σ.task P = some t → σ.task Q = some u → P ≠ 0 → Q ≠ 0 → P ≠ Q →
    ∀ f ∈ t.frames, f ∉ u.frames

theorem Sound.toSlots {σ : Machine} (h : Sound M σ) : Slots (TaskOk σ.files) M σ :=
  ⟨h.books, h.slots, h.vacant, h.ok, h.apart⟩

theorem Slots.sound {σ : Machine} (h : Slots (TaskOk σ.files) M σ) : Sound M σ :=
  ⟨h.books, h.slots, h.vacant, h.ok, h.apart⟩

section Slots

variable {Ok : Kernel → ℕ → Task → Prop} {σ : Machine} {nr : ℕ} {u : Task}

/-- A step of the task `P` alone. -/
theorem Slots.set (h : Slots Ok M σ)
    (hframes : ∀ k P t, Ok k P t → P ≠ 0 → ∀ f ∈ t.frames, f ∈ k.held) (ht : σ.task P = some t)
    {k' : Kernel} (B : Books True M k'.mm k'.held)
    (hempty : ∀ Q, Q ≠ P → Empty σ.kernel.mm Q → Empty k'.mm Q)
    (hrel : ∀ f ∈ σ.kernel.held, f ∉ t.frames ∨ P = 0 → f ∈ k'.held)
    (hacq : P ≠ 0 → ∀ f ∈ t'.frames, f ∈ t.frames ∨ f ∉ σ.kernel.held)
    (hothers : ∀ Q u, Q ≠ P → σ.task Q = some u → (Q ≠ 0 → ∀ f ∈ u.frames, f ∈ k'.held) → Ok k' Q u)
    (hok : Ok k' P t') : Slots Ok M (σ.set P t' k') := by
  have htask : ∀ Q, (σ.set P t' k').task Q = if Q = P then some t' else σ.task Q := by
    intro Q
    simp only [Machine.set, update_apply]
  have hheld : ∀ Q u, σ.task Q = some u → Q ≠ P → Q ≠ 0 → ∀ f ∈ u.frames, f ∈ k'.held := by
    intro Q u hu hne h0 f hf
    refine hrel f (hframes _ _ _ (h.ok Q u hu) h0 f hf) ?_
    by_cases hP : P = 0
    · exact Or.inr hP
    · exact Or.inl (fun hf' => h.apart P Q t u ht hu hP h0 (Ne.symm hne) f hf' hf)
  refine ⟨B, ?_, ?_, ?_, ?_⟩
  · intro Q u hu
    rw [htask] at hu
    split at hu
    · rename_i hQ
      rw [hQ]
      exact h.slots P t ht
    · exact h.slots Q u hu
  · intro Q hQ
    rw [htask] at hQ
    split at hQ
    · cases hQ
    · rename_i hne
      exact hempty Q hne (h.vacant Q hQ)
  · intro Q u hu
    rw [htask] at hu
    split at hu
    · rename_i hQ
      cases hu
      rw [hQ]
      exact hok
    · rename_i hne
      exact hothers Q u hne hu (fun h0 => hheld Q u hu hne h0)
  · intro A A' u u' hu hu' hA hA' hne f hf hf'
    rw [htask] at hu hu'
    have hnew : ∀ R v, σ.task R = some v → R ≠ P → R ≠ 0 → P ≠ 0 → f ∈ t'.frames → f ∉ v.frames := by
      intro R v hv hR hR0 hP0 hft hfv
      rcases hacq hP0 f hft with hold | hfresh
      · exact h.apart P R t v ht hv hP0 hR0 (Ne.symm hR) f hold hfv
      · exact hfresh (hframes _ _ _ (h.ok R v hv) hR0 f hfv)
    split at hu
    · rename_i hAP
      cases hu
      rw [if_neg (fun h => hne (hAP.trans h.symm))] at hu'
      exact hnew A' u' hu' (fun h => hne (hAP.trans h.symm)) hA' (hAP ▸ hA) hf hf'
    · rename_i hAP
      split at hu'
      · rename_i hAP'
        cases hu'
        exact hnew A u hu hAP hA (hAP' ▸ hA') hf' hf
      · exact h.apart A A' u u' hu hu' hA hA' hne f hf hf'

/-- A task `nr` that holds the frame `f` alone takes the empty slot. -/
theorem Slots.add (h : Slots Ok M σ)
    (hframes : ∀ k P t, Ok k P t → P ≠ 0 → ∀ f ∈ t.frames, f ∈ k.held) (hnr : nr < 64)
    {f : ℕ} (hf : f ∉ σ.kernel.held) {k' : Kernel} (hk : k'.held = f ::ₘ σ.kernel.held)
    (B : Books True M k'.mm k'.held)
    (hempty : ∀ Q, Q ≠ nr → Empty σ.kernel.mm Q → Empty k'.mm Q) (hu : u.frames = [f])
    (hothers : ∀ Q v, Q ≠ nr → σ.task Q = some v → (Q ≠ 0 → ∀ g ∈ v.frames, g ∈ k'.held) → Ok k' Q v)
    (hok : Ok k' nr u) : Slots Ok M (σ.set nr u k') := by
  have htask : ∀ Q, (σ.set nr u k').task Q = if Q = nr then some u else σ.task Q := by
    intro Q
    simp only [Machine.set, update_apply]
  have hold : ∀ Q v, Q ≠ nr → (σ.set nr u k').task Q = some v → σ.task Q = some v := by
    intro Q v hne hv
    rw [htask, if_neg hne] at hv
    exact hv
  have hnew : ∀ Q v, σ.task Q = some v → Q ≠ 0 → f ∉ v.frames :=
    fun Q v hv h0 hg => hf (hframes _ _ _ (h.ok Q v hv) h0 f hg)
  refine ⟨B, ?_, ?_, ?_, ?_⟩
  · intro Q v hv
    by_cases hQ : Q = nr
    · rw [hQ]
      exact hnr
    · exact h.slots Q v (hold Q v hQ hv)
  · intro Q hQ
    rw [htask] at hQ
    split at hQ
    · cases hQ
    · rename_i hne
      exact hempty Q hne (h.vacant Q hQ)
  · intro Q v hv
    by_cases hQ : Q = nr
    · rw [hQ] at hv ⊢
      rw [htask, if_pos rfl] at hv
      cases hv
      exact hok
    · have hv' := hold Q v hQ hv
      refine hothers Q v hQ hv' ?_
      intro h0 g hg
      rw [hk]
      exact Multiset.mem_cons_of_mem (hframes _ _ _ (h.ok Q v hv') h0 g hg)
  · intro A A' v v' hv hv' hA hA' hne g hg hg'
    by_cases hAn : A = nr
    · have hold' := hold A' v' (fun h => hne (hAn.trans h.symm)) hv'
      rw [hAn, htask, if_pos rfl] at hv
      cases hv
      rw [hu] at hg
      rw [List.mem_singleton.1 hg] at hg'
      exact hnew A' v' hold' hA' hg'
    · have hold1 := hold A v hAn hv
      by_cases hAn' : A' = nr
      · rw [hAn', htask, if_pos rfl] at hv'
        cases hv'
        rw [hu] at hg'
        rw [List.mem_singleton.1 hg'] at hg
        exact hnew A v hold1 hA hg
      · exact h.apart A A' v v' hold1 (hold A' v' hAn' hv') hA hA' hne g hg hg'

/-- The machine without the task `nr`. -/
def Machine.vacate (σ : Machine) (nr : ℕ) (k : Kernel) : Machine :=
  { σ with kernel := k, task := update σ.task nr none }

theorem vacate_task (σ : Machine) (nr : ℕ) (k : Kernel) (Q : ℕ) :
    (σ.vacate nr k).task Q = if Q = nr then none else σ.task Q := by
  simp only [Machine.vacate, update_apply]

/-- `release` while another task goes on. -/
theorem vacate_set (σ : Machine) {nr P : ℕ} (hne : nr ≠ P) (t : Task) (k : Kernel) :
    { σ.set P t k with task := update (update σ.task P (some t)) nr none } = (σ.vacate nr k).set P t k := by
  rw [Machine.set, Machine.set, Machine.vacate]
  simp only [Machine.mk.injEq, true_and, and_true]
  exact update_comm hne.symm _ _ _

/-- `release` of a task whose slot is empty. -/
theorem Slots.vacate (h : Slots Ok M σ)
    (hframes : ∀ k P t, Ok k P t → P ≠ 0 → ∀ f ∈ t.frames, f ∈ k.held) (hu : σ.task nr = some u)
    (hnr : nr ≠ 0) (hempty : Empty σ.kernel.mm nr) {s : Mm} (hmem : s.mem = σ.kernel.mm.mem)
    (B : Books True M s (σ.kernel.held.erase u.frame))
    (hothers : ∀ Q v, Q ≠ nr → σ.task Q = some v → (Q ≠ 0 → ∀ g ∈ v.frames, g ∈ σ.kernel.held.erase u.frame) →
      Ok ⟨s, σ.kernel.held.erase u.frame⟩ Q v) :
    Slots Ok M (σ.vacate nr ⟨s, σ.kernel.held.erase u.frame⟩) := by
  have hcalm : Calm nowhere nowhere σ.kernel.mm s := calm_of_mem hmem
  refine ⟨B, ?_, ?_, ?_, ?_⟩
  · intro Q v hv
    rw [vacate_task] at hv
    split at hv
    · cases hv
    · exact h.slots Q v hv
  · intro Q hQ
    rw [vacate_task] at hQ
    refine (hcalm.empty (fun _ _ h => h)).2 ?_
    split at hQ
    · rename_i hQn
      rw [hQn]
      exact hempty
    · exact h.vacant Q hQ
  · intro Q v hv
    rw [vacate_task] at hv
    split at hv
    · cases hv
    · rename_i hQn
      refine hothers Q v hQn hv ?_
      intro h0 g hg
      refine (Multiset.mem_erase_of_ne ?_).2 (hframes _ _ _ (h.ok Q v hv) h0 g hg)
      intro hgu
      rw [hgu] at hg
      exact h.apart nr Q u v hu hv hnr h0 (Ne.symm hQn) _ (List.mem_cons_self ..) hg
  · intro A A' v v' hv hv'
    rw [vacate_task] at hv hv'
    split at hv
    · cases hv
    · split at hv'
      · cases hv'
      · exact h.apart A A' v v' hv hv'

end Slots

theorem TaskOk.held {F : Files} {k : Kernel} {P : ℕ} {t : Task} (h : TaskOk F k P t) (hP : P ≠ 0) :
    ∀ f ∈ t.frames, f ∈ k.held := (h.frames hP).2

/-- A step of the task `P` alone keeps the machine sound when it keeps the books, leaves the other
slots alone, gives up no frames but its own and keeps its own promises. -/
theorem Sound.set {σ : Machine} (h : Sound M σ) (ht : σ.task P = some t) {k' : Kernel}
    (B : Books True M k'.mm k'.held) (C : Calm (inSlot P) D σ.kernel.mm k'.mm)
    (hD : ∀ Q u, Q ≠ P → σ.task Q = some u → ∀ q, inSlot Q q → D q → ¬u.Shareable q)
    (hrel : ∀ f ∈ σ.kernel.held, f ∉ t.frames ∨ P = 0 → f ∈ k'.held)
    (hacq : P ≠ 0 → ∀ f ∈ t'.frames, f ∈ t.frames ∨ f ∉ σ.kernel.held)
    (hok : TaskOk σ.files k' P t') : Sound M (σ.set P t' k') := by
  refine Slots.sound (σ := σ.set P t' k')
    (h.toSlots.set (fun _ _ _ h hP => h.held hP) ht B (fun _ => C.empty_other) hrel hacq ?_ hok)
  intro Q u hne hu hheld
  exact (h.ok Q u hu).others (h.slots Q u hu) C (fun q hs hs' => hne (hs.symm.trans hs'))
    (hD Q u hne hu) hheld

end OldLinux.Process
