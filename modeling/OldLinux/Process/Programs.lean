import OldLinux.Process.Accesses

/-!
# Processes come and go

The steps of `fork`, `execve`, `exit` and `release`.
-/

namespace OldLinux.Process

open Lib Memory

variable {M : MainMemory} {F : Files} {σ σ' : Machine} {k k' : Kernel} {s s' s'' : Mm}
  {held : Multiset ℕ} {P nr : ℕ} {t : Task} {D : ℕ × ℕ → Prop} {action : Action}
  {rest : List Action}

/-- A slot that is empty before and after has kept its pages. -/
theorem Calm.of_empty (hnr0 : 0 < nr) (hnr : nr < 64) (C : Calm (inSlot nr) D s s')
    (h : Empty s nr) (h' : Empty s' nr) : Calm nowhere D s s' where
  present := by
    intro q hq _
    by_cases hs : inSlot nr q
    · exact ⟨fun hp => absurd hp (h'.absent hq hs), fun hp => absurd hp (h.absent hq hs)⟩
    · exact C.present q hq hs
  page := by
    intro q hq _ hp
    exact C.page q hq (fun hs => h.absent hq hs hp) hp
  dirty := by
    intro q hq _ hD hp
    exact C.dirty q hq (fun hs => h.absent hq hs hp) hD hp
  dir := by
    intro d _
    by_cases hs : d / 16 = nr
    · have hd : d ∈ directory := mem_directory.2 ⟨by omega, by omega⟩
      exact ⟨fun hp => absurd hp (h' d hd hs), fun hp => absurd hp (h d hd hs)⟩
    · exact C.dir d (fun _ => hs)

/-- The task goes on with the rest of its plain things to do. -/
theorem TaskOk.later (h : TaskOk F k P t) (htodo : t.todo = action :: rest) (ha : action.Plain) :
    TaskOk F k P (t.next rest) := by
  have hplain := h.plain htodo ha
  have hsub : ∀ b ∈ rest, b ∈ t.todo := by
    intro b hb
    rw [htodo]
    exact List.mem_cons_of_mem _ hb
  exact h.next (not_switching_of_plain hplain) (fun b hb => hplain b (hsub b hb))
    (fun h0 b hb => (h.zero h0).2.2.2 b (hsub b hb)) (h.not_zombie htodo)

theorem TaskOk.later_frames (h : TaskOk F k P t) (htodo : t.todo = action :: rest)
    (ha : action.Plain) : (t.next rest).frames = t.frames := by
  have hplain := h.plain htodo ha
  rw [frames_of_plain hplain, frames_of_plain (t := t.next rest)]
  · rfl
  · intro b hb
    refine hplain b ?_
    rw [htodo]
    exact List.mem_cons_of_mem _ hb

/-- A step that keeps every page of every process, also of task 0. -/
theorem rest_ok (h : Sound M σ) (ht : σ.task P = some t) (htodo : t.todo = action :: rest)
    (ha : action.Plain) (B : Books True M k'.mm k'.held) (C : Calm nowhere nowhere σ.kernel.mm k'.mm)
    (hheld : k'.held = σ.kernel.held) : StepOk M σ P (σ.set P (t.next rest) k') := by
  have hok := h.ok P t ht
  have hframes := hok.later_frames htodo ha
  refine stepOk_set h ht B (C.mono (fun _ h => h.elim) (fun _ h => h)) not_clash_nowhere ?_ ?_ ?_
  · intro f hf _
    rw [hheld]
    exact hf
  · intro _ f hf
    rw [hframes] at hf
    exact Or.inl hf
  · refine (hok.later htodo ha).others (h.slots P t ht) C (fun _ _ h => h) (fun _ _ h => h.elim) ?_
    intro hP f hf
    rw [hframes] at hf
    rw [hheld]
    exact (hok.frames hP).2 f hf

/-! ### `fork` -/

theorem Fresh.sourceEntry {f a : ℕ} (Fr : Fresh True M s held f s') {q : ℕ × ℕ}
    (ha : a < 64) (hq : q ∈ places) : sourceEntry s' a q = sourceEntry s a q := by
  have hge := Fr.main.lowMem_le
  rw [Memory.sourceEntry, Memory.sourceEntry]
  by_cases h0 : a = 0
  · rw [if_pos h0, if_pos h0]
    by_cases hk : q.1 % 16 < 4 ∧ q.2 < 0xA0
    · rw [if_pos hk, if_pos hk, Fr.others _ (by omega)]
    · rw [if_neg hk, if_neg hk]
  · rw [if_neg h0, if_neg h0]
    refine Fr.pte (mem_places.2 ?_)
    have := mem_places.1 hq
    constructor
    · show 16 ≤ a * 16 + q.1 % 16 ∧ a * 16 + q.1 % 16 < 1024
      omega
    · exact this.2

/-- The frame of the new task does not matter to the copy. -/
theorem Copied.after_fresh {f a b : ℕ} {R : ℕ → Prop} (B : Books True M s held)
    (Fr : Fresh True M s held f s') (ha : a < 64) (C : Copied True a b R s' s'') :
    Copied True a b R s s'' where
  target := by
    intro q hq hb hR
    rw [C.target q hq hb hR, Fresh.sourceEntry Fr ha hq]
  source := by
    intro q hq hqa hR
    rw [← Fr.pte hq]
    exact C.source q hq hqa hR
  others := by
    intro q hq hn
    rw [C.others q hq hn, Fr.pte hq]
  kernel := by
    intro h0 d hd hd4
    have hge := Fr.main.lowMem_le
    rw [C.kernel h0 d hd hd4, Fr.others _ (by omega)]
  kept := by
    intro _ q hq g hm hg
    have hm' : s'.Maps g q := by
      rw [maps_iff_pte, Fr.pte hq]
      exact maps_iff_pte.1 hm
    rw [C.kept trivial q hq g hm' hg]
    exact Fr.preserved g (B.data_of_maps trivial hq hm hg)
  dir := by
    intro d hd
    rw [C.dir d hd, Fr.dir]

/-- What `copy_process` leaves. -/
inductive Forked (M : MainMemory) (held : Multiset ℕ) (P nr limit : ℕ) (s : Mm) :
    Option ℕ → Mm → Prop
  | failed {s' : Mm} : Books True M s' held → Calm nowhere nowhere s s' → Forked M held P nr limit s none s'
  | child {s' : Mm} (f : ℕ) : f ∉ held → Books True M s' (f ::ₘ held) →
      Copied True P nr (fun d => d < dirCount limit) s s' →
      Forked M held P nr limit s (some f) s'

theorem copyProcess_spec (B : Books True M s held) (hP : P < 64) (hnr : nr < 64) (hnr0 : 0 < nr)
    (hlim : t.dataLimit ≤ 0x4000000) (hzero : P = 0 → t.dataLimit ≤ 0x400000)
    (hempty : Empty s nr) :
    wp (copyProcess P nr t) (fun child s' => Forked M held P nr t.dataLimit s child s')
      (fun e _ => e ≠ .oom) s := by
  rw [copyProcess, wp_bind]
  apply wp_mono (getFreePage_books B) _ (fun _ _ h => h.elim)
  intro p s1 h1
  rw [wp_ite]
  rcases h1 with ⟨hp, hs1⟩ | ⟨f, hp, Fr⟩
  · refine ⟨fun _ => ?_, fun h => absurd hp h⟩
    rw [hs1]
    exact .failed B (Calm.refl _ _ _)
  · have hge := Fr.main.lowMem_le
    have hpf : p / 4096 = f := by omega
    have hC1 : Calm nowhere nowhere s s1 := calm_of_same B (fun q hq => Fr.pte hq) Fr.preserved Fr.dir
    refine ⟨fun h => by omega, fun _ => ?_⟩
    rw [wp_ite]
    refine ⟨fun _ h => Trap.noConfusion h, fun _ => ?_⟩
    rw [wp_bind]
    apply wp_mono (copyPageTables_books Fr.books hP hnr hnr0 hlim (fun _ h => hzero h)) _
      (fun _ _ h => h.1)
    intro r s2 h2
    obtain ⟨B2, k, hk, hr, C⟩ := h2
    rw [wp_ite]
    constructor
    · -- `free_page_tables` takes back what was copied
      intro hne
      rw [wp_bind]
      apply wp_mono (freePageTables_books B2 hnr hnr0 hlim) _ (fun _ _ h => h.1)
      intro _ s3 h3
      obtain ⟨B3, Fd⟩ := h3
      rw [wp_bind, hp]
      apply wp_mono (freePage_held B3 (Multiset.mem_cons_self f _)) _ (fun _ _ h => h.elim)
      intro _ s4 h4
      obtain ⟨hmem, B4⟩ := h4
      rw [Multiset.erase_cons_head] at B4
      have hempty3 : Empty s3 nr := by
        intro d hd hs
        by_cases hout : nr * 16 ≤ d ∧ d < nr * 16 + dirCount t.dataLimit
        · exact Fd.gone d hout
        · rw [Fd.dir d hout, C.dir d (fun h => hout (by omega)), Fr.dir]
          exact hempty d hd hs
      have hcalm : Calm (inSlot nr) nowhere s s3 :=
        ((hC1.mono (fun _ h => h.elim) (fun _ h => h)).trans (Copied.calm C)).trans
          (Freed.calm B2 Fd (fun d hd => by
            have : dirCount t.dataLimit ≤ 16 := by
              rw [dirCount]
              omega
            omega))
      exact .failed B4 ((hcalm.of_empty hnr0 hnr hempty hempty3).trans (calm_of_mem hmem))
    · intro hz
      have hk' : k = dirCount t.dataLimit := by
        rcases hr with ⟨_, h⟩ | h
        · exact h
        · rw [h.1] at hz
          exact absurd (by decide) hz
      rw [hk'] at C
      show Forked M held P nr t.dataLimit s (some (p / 4096)) s2
      rw [hpf]
      exact .child f Fr.notHeld B2 (Copied.after_fresh B Fr hP C)

/-- The entry of the parent that an entry of the child was copied from. -/
def parentPlace (P : ℕ) (q : ℕ × ℕ) : ℕ × ℕ := (P * 16 + q.1 % 16, q.2)

theorem parentPlace_mem (hP0 : 0 < P) (hP : P < 64) {q : ℕ × ℕ} (hq : q ∈ places) :
    parentPlace P q ∈ places := by
  have := mem_places.1 hq
  rw [mem_places, parentPlace]
  show (16 ≤ P * 16 + q.1 % 16 ∧ P * 16 + q.1 % 16 < 1024) ∧ q.2 < 1024
  omega

theorem parentPlace_inSlot (P : ℕ) (q : ℕ × ℕ) : inSlot P (parentPlace P q) := by
  show (P * 16 + q.1 % 16) / 16 = P
  omega

theorem offset_parentPlace (P : ℕ) (q : ℕ × ℕ) : offset (parentPlace P q) = offset q := by
  rw [offset, offset, parentPlace]
  show (P * 16 + q.1 % 16) % 16 * 1024 + q.2 = q.1 % 16 * 1024 + q.2
  omega

/-- The child of a task that keeps its promises keeps them too. -/
theorem TaskOk.child (h : TaskOk F k P t) (hP : P < 64) (hplain : ∀ a ∈ t.todo, a.Plain)
    (hnr0 : 0 < nr) (hempty : Empty k.mm nr) {f : ℕ} (hf : f ∈ k'.held)
    (C : Copied True P nr (fun d => d < dirCount t.dataLimit) k.mm k'.mm) :
    TaskOk F k' nr { t with frame := f, zombie := false, todo := [] } where
  limits := h.limits
  zero := fun h0 => by omega
  inside := by
    intro d hd hs hp
    by_contra hout
    rw [C.dir d (fun hR => hout hR.2)] at hp
    exact hempty d hd hs hp
  frames := by
    intro _
    refine ⟨List.nodup_singleton _, ?_⟩
    intro g hg
    rw [List.mem_singleton.1 hg]
    exact hf
  todo := todoOk_of_plain (fun _ h => absurd h List.not_mem_nil)
  clean := by
    intro inode hi _
    have hi' : t.executable = some inode := hi
    have hP0 : P ≠ 0 := by
      intro h0
      rw [(h.zero h0).2.1] at hi'
      cases hi'
    obtain ⟨h1, h2, h3⟩ := h.clean inode hi' (not_switching_of_plain hplain)
    refine ⟨h1, h2, ?_⟩
    intro q hq hs hp
    by_cases hR : q.1 % 16 < dirCount t.dataLimit
    · have hpte : k'.mm.pte q = copied (k.mm.pte (parentPlace P q)) := by
        rw [C.target q hq hs hR, sourceEntry, if_neg hP0]
        rfl
      have hpar : present (k.mm.pte (parentPlace P q)) := by
        by_contra habs
        rw [hpte, copied_of_absent habs] at hp
        exact present_zero hp
      rw [copied, if_pos hpar] at hpte
      have hmem := parentPlace_mem (by omega) hP hq
      obtain ⟨h4, h5⟩ := h3 _ hmem (parentPlace_inSlot P q) hpar
      rw [offset_parentPlace] at h5
      rw [hpte, frameOf_readOnly]
      refine ⟨h4, ?_⟩
      intro hlt hnd
      rw [C.kept trivial _ hmem _ (maps_iff_pte.2 ⟨hpar, rfl⟩) h4]
      exact h5 hlt (fun hd => hnd ((dirty_readOnly _).2 hd))
    · rw [C.others q hq (fun h => hR h.2)] at hp
      exact absurd hp (hempty.absent hq hs)
  gone := fun hz => by cases hz

/-- The task `P` goes on and its child begins. -/
theorem fork_child (h : Sound M σ) (ht : σ.task P = some t) (htodo : t.todo = action :: rest)
    (ha : action.Plain) (hnr0 : 0 < nr) (hnr : nr < 64) (hfree : σ.task nr = none) {f : ℕ}
    (hf : f ∉ σ.kernel.held) (B : Books True M s (f ::ₘ σ.kernel.held))
    (C : Copied True P nr (fun d => d < dirCount t.dataLimit) σ.kernel.mm s) :
    StepOk M σ P ((σ.set P (t.next rest) ⟨s, f ::ₘ σ.kernel.held⟩).set nr
      { t with frame := f, zombie := false, todo := [] } ⟨s, f ::ₘ σ.kernel.held⟩) := by
  have hok := h.ok P t ht
  have hcalm : Calm (inSlot nr) nowhere σ.kernel.mm s := Copied.calm C
  -- the parent goes on first, and then the child takes its slot
  have hparent : StepOk M σ P (σ.set P (t.next rest) σ.kernel) :=
    rest_ok h ht htodo ha h.books (Calm.refl _ _ _) rfl
  have hadd : Slots (TaskOk σ.files) M ((σ.set P (t.next rest) σ.kernel).set nr
      { t with frame := f, zombie := false, todo := [] } ⟨s, f ::ₘ σ.kernel.held⟩) := by
    refine hparent.sound.toSlots.add (fun _ _ _ h hP => h.held hP) hnr hf rfl B
      (fun _ => hcalm.empty_other) rfl ?_ ?_
    · intro Q v hne hv hheld
      exact (hparent.sound.ok Q v hv).others (hparent.sound.slots Q v hv) hcalm
        (fun q hs hs' => hne (hs.symm.trans hs')) (fun _ _ h => h.elim) hheld
    · exact hok.child (h.slots P t ht) (hok.plain htodo ha) hnr0 (h.vacant nr hfree)
        (Multiset.mem_cons_self f _) C
  refine ⟨Slots.sound (σ := (σ.set P (t.next rest) ⟨s, f ::ₘ σ.kernel.held⟩).set nr
      { t with frame := f, zombie := false, todo := [] } ⟨s, f ::ₘ σ.kernel.held⟩) hadd, rfl, ?_, ?_⟩
  · intro Q u hQ hu _
    rw [set_task, set_task, if_neg hQ, if_neg]
    · exact hu
    · intro hQn
      rw [hQn, hfree] at hu
      cases hu
  · refine hcalm.mono ?_ (fun _ _ => trivial)
    intro q hq
    refine Or.inr ?_
    rw [hq]
    exact hfree

/-- **`fork`.** -/
theorem fork_ok (h : Sound M σ) (ht : σ.task P = some t) (htodo : t.todo = .fork nr :: rest)
    (hstep : σ.perform P (t.next rest) (.fork nr) = some σ') : StepOk M σ P σ' := by
  have hok := h.ok P t ht
  have hP := h.slots P t ht
  have hplain : Action.Plain (.fork nr) := trivial
  simp only [Machine.perform, Machine.fork] at hstep
  split at hstep
  · rename_i hfree
    obtain ⟨hnr0, hnr, hnone⟩ := hfree
    have hspec := copyProcess_spec (t := t.next rest) h.books hP hnr hnr0 hok.limits.2
      (fun h0 => (hok.zero h0).1) (h.vacant nr hnone)
    rcases call_cases hspec hstep with ⟨child, s, hforked, hσ'⟩ | ⟨_, hoom, _⟩
    · rw [hσ']
      cases hforked with
      | failed B C => exact rest_ok h ht htodo hplain B C rfl
      | child f hf B C => exact fork_child h ht htodo hplain hnr0 hnr hnone hf B C
    · exact absurd rfl hoom
  · cases hstep
    exact rest_ok h ht htodo hplain h.books (Calm.refl _ _ _) rfl

/-! ### `execve` -/

/-- `exec_error1` gives the pages with the strings back. -/
theorem freeAll_spec {page : List ℕ} (B : Books True M s ((page : Multiset ℕ) + held)) :
    wp (copyStrings.freeAll page) (fun _ s' => Books True M s' held ∧ s'.mem = s.mem)
      (fun _ _ => False) s := by
  induction page generalizing s with
  | nil =>
    rw [copyStrings.freeAll, wp_pure]
    rw [Multiset.coe_nil, Multiset.zero_add] at B
    exact ⟨B, rfl⟩
  | cons f page ih =>
    rw [← Multiset.cons_coe, Multiset.cons_add] at B
    rw [copyStrings.freeAll, wp_bind]
    apply wp_mono (freePage_held B (Multiset.mem_cons_self f _)) _ (fun _ _ h => h)
    intro _ s1 h1
    obtain ⟨hmem, B1⟩ := h1
    rw [Multiset.erase_cons_head] at B1
    apply wp_mono (ih B1) _ (fun _ _ h => h)
    intro _ s2 h2
    exact ⟨h2.1, h2.2.trans hmem⟩

/-- What `copy_strings` leaves: pages in the hands of the task, or nothing. -/
inductive StringsCopied (M : MainMemory) (held : Multiset ℕ) (s : Mm) (n : ℕ) :
    Option (List ℕ) → Mm → Prop
  | failed {s' : Mm} : Books True M s' held → Calm nowhere nowhere s s' → StringsCopied M held s n none s'
  | copied {s' : Mm} (page : List ℕ) : page.Nodup → (∀ f ∈ page, f ∉ held) → page.length = n →
      Books True M s' ((page : Multiset ℕ) + held) → Calm nowhere nowhere s s' →
      StringsCopied M held s n (some page) s'

theorem copyStrings_spec (strings : ℕ → Page) (n i : ℕ) {page : List ℕ} (hnodup : page.Nodup)
    (hnew : ∀ f ∈ page, f ∉ held) (B : Books True M s ((page : Multiset ℕ) + held)) :
    wp (copyStrings strings i n page)
      (fun r s' => StringsCopied M held s (page.length + n) r s') (fun _ _ => False) s := by
  induction n generalizing i page s with
  | zero => exact .copied page hnodup hnew rfl B (Calm.refl _ _ _)
  | succ n ih =>
    rw [copyStrings, wp_bind]
    apply wp_mono (getFreePage_books B) _ (fun _ _ h => h)
    intro p s1 h1
    rw [wp_ite]
    rcases h1 with ⟨hp, hs1⟩ | ⟨f, hp, Fr⟩
    · refine ⟨fun _ => ?_, fun h => absurd hp h⟩
      rw [wp_bind, hs1]
      apply wp_mono (freeAll_spec B) _ (fun _ _ h => h)
      intro _ s2 h2
      exact .failed h2.1 (calm_of_mem h2.2)
    · have hge := Fr.main.lowMem_le
      have hpf : p / 4096 = f := by omega
      refine ⟨fun h => by omega, fun _ => ?_⟩
      rw [wp_bind, wp_modify, hpf]
      have hdata := Fr.books.data_of_held (Multiset.mem_cons_self f _)
      have hcomm : f ::ₘ ((page : Multiset ℕ) + held) = ((page ++ [f] : List ℕ) : Multiset ℕ) + held := by
        rw [← Multiset.coe_add, Multiset.coe_singleton, add_right_comm, ← Multiset.singleton_add]
        exact add_comm _ _
      have B2 := Fr.books.content (show 5 ≤ f by omega) hdata.2.1 (strings i)
      rw [hcomm] at B2
      have hnot := Fr.notHeld
      rw [Multiset.mem_add, Multiset.mem_coe, not_or] at hnot
      have hnodup' : (page ++ [f]).Nodup := by
        rw [List.nodup_append]
        refine ⟨hnodup, List.nodup_singleton f, ?_⟩
        intro a ha b hb hab
        rw [List.mem_singleton.1 hb] at hab
        exact hnot.1 (hab ▸ ha)
      have hnew' : ∀ g ∈ page ++ [f], g ∉ held := by
        intro g hg
        rcases List.mem_append.1 hg with hg | hg
        · exact hnew g hg
        · rw [List.mem_singleton.1 hg]
          exact hnot.2
      have hcalm : Calm nowhere nowhere s (s1.storePage f (strings i)) := by
        apply calm_of_entries
        · intro q hq _
          rw [pte_storePage (by omega) hdata.2.1 (strings i) hq, Fr.pte hq]
          exact Or.inl rfl
        · intro q hq _ hpq hf
          have hd := B.data_of_maps trivial hq (maps_iff_pte.2 ⟨hpq, rfl⟩) hf
          rw [storePage_mem_of_ne _ (Fr.ne_of_data hd), Fr.preserved _ hd]
        · intro d _
          rw [storePage_mem_of_ne _ (show 0 ≠ f by omega), Fr.dir]
      apply wp_mono (ih (i - 1) hnodup' hnew' B2) _ (fun _ _ h => h)
      intro r s3 h3
      rw [List.length_append, List.length_singleton,
        show page.length + 1 + n = page.length + (n + 1) from by omega] at h3
      cases h3 with
      | failed B3 C3 => exact .failed B3 (hcalm.trans C3)
      | copied page' h4 h5 h6 B3 C3 => exact .copied page' h4 h5 h6 B3 (hcalm.trans C3)

theorem stringPages_le (total : ℕ) : stringPages total ≤ 32 := by
  rw [stringPages]
  split <;> omega

theorem copyBoth_spec (strings : ℕ → Page) (p : ℕ) (B : Books True M s held) :
    wp (copyBoth strings p)
      (fun r s' => StringsCopied M held s (stringPages (131068 - p)) r s') (fun _ _ => False) s := by
  have hspec := copyStrings_spec strings (stringPages (131068 - p)) 31 List.nodup_nil
    (fun f hf => absurd hf List.not_mem_nil)
    (show Books True M s ((([] : List ℕ) : Multiset ℕ) + held) by
      rw [Multiset.coe_nil, Multiset.zero_add]
      exact B)
  rw [List.length_nil, Nat.zero_add] at hspec
  rw [copyBoth, wp_bind]
  refine wp_mono hspec ?_ (fun _ _ h => h)
  intro r s1 hcopied
  cases hcopied with
  | failed B1 C1 => exact .failed B1 C1
  | copied page hnodup hnew hlen B1 C1 =>
    show wp (if p = 0 then _ else _) _ _ s1
    rw [wp_ite]
    refine ⟨fun _ => ?_, fun _ => .copied page hnodup hnew hlen B1 C1⟩
    rw [wp_bind]
    refine wp_mono (freeAll_spec B1) ?_ (fun _ _ h => h)
    intro _ s2 h2
    exact .failed h2.1 (C1.trans (calm_of_mem h2.2))

/-- The frames of a task with the pages of the strings. -/
theorem frames_copied {f : ℕ} {page : List ℕ} (hf : f ∈ held) (hnodup : page.Nodup)
    (hnew : ∀ g ∈ page, g ∉ held) :
    (f :: page).Nodup ∧ ∀ g ∈ f :: page, g ∈ (page : Multiset ℕ) + held := by
  refine ⟨List.nodup_cons.2 ⟨fun h => hnew _ h hf, hnodup⟩, ?_⟩
  intro g hg
  rcases List.mem_cons.1 hg with rfl | hg
  · exact Multiset.mem_add.2 (Or.inr hf)
  · exact Multiset.mem_add.2 (Or.inl hg)

/-- `do_execve` up to the point of no return. -/
theorem exec_ok {inode : ℕ} {args envs : List ℕ} {strings : ℕ → Page}
    (b : Busy M σ P t (.exec inode args envs strings) rest)
    (hc : σ.CarefulAction P t (.exec inode args envs strings))
    (hstep : σ.perform P (t.next rest) (.exec inode args envs strings) = some σ') :
    StepOk M σ P σ' := by
  obtain ⟨hsizes, -⟩ := hc
  have hend : σ.files.endData inode = (σ.files.ex inode 2).toNat + (σ.files.ex inode 1).toNat := by
    rw [Files.endData, BitVec.toNat_add]
    omega
  simp only [Machine.perform, Machine.exec] at hstep
  split at hstep
  · obtain ⟨p, -, hstep⟩ := Option.bind_eq_some_iff.1 hstep
    have hspec := copyBoth_spec strings p b.sound.books
    rcases call_cases hspec hstep with ⟨page, s, hcopied, hσ'⟩ | ⟨_, hoom, _⟩
    · rw [hσ']
      cases hcopied with
      | failed B C => exact And.left (b.still C B (fun _ _ _ _ _ h => h.elim) rfl)
      | copied page hnodup hnew hlen B C =>
        have hframes : (t.next [.execSwitch inode args envs (σ.files.text inode)
            (σ.files.endData inode) page]).frames = t.frame :: page := rfl
        refine stepOk_set b.sound b.task B (C.mono (fun _ h => h.elim) (fun _ h => h))
          not_clash_nowhere (fun f hf _ => Multiset.mem_add.2 (Or.inr hf)) ?_ ?_
        · intro _ f hf
          rw [next_next, hframes] at hf
          rcases List.mem_cons.1 hf with hf | hf
          · rw [hf]
            exact Or.inl (frame_mem_frames t)
          · exact Or.inr (hnew f hf)
        · have hothers : TaskOk σ.files ⟨s, (page : Multiset ℕ) + σ.kernel.held⟩ P t :=
            b.ok.others b.lt C (fun _ _ h => h) (fun _ _ h => h.elim)
              (fun hne f hf => Multiset.mem_add.2 (Or.inr ((b.ok.frames hne).2 f hf)))
          refine ⟨hothers.limits, fun h0 => absurd h0 b.pos, hothers.inside, ?_, ?_, ?_, ?_⟩
          · intro _
            rw [next_next, hframes]
            exact frames_copied b.held hnodup hnew
          · refine ⟨?_, ?_, rfl, ?_⟩
            · rw [hlen]
              exact stringPages_le _
            · rw [Files.text]
              omega
            · rw [hend]
              omega
          · intro inode' hi _
            exact hothers.clean inode' hi b.not_switching
          · intro hz
            exact absurd (b.not_zombie.symm.trans hz) Bool.noConfusion
    · exact hoom.elim
  · cases hstep
    exact And.left (b.still (Calm.refl nowhere nowhere _) b.sound.books (fun _ _ _ _ _ h => h.elim) rfl)

/-- `current->executable = inode`. -/
theorem execSwitch_ok {inode text endData : ℕ} {args envs page : List ℕ} (h : Sound M σ)
    (ht : σ.task P = some t)
    (htodo : t.todo = .execSwitch inode args envs text endData page :: rest)
    (hstep : σ.perform P (t.next rest) (.execSwitch inode args envs text endData page) = some σ') :
    StepOk M σ P σ' := by
  have hok := h.ok P t ht
  have hP0 : P ≠ 0 := hok.pos htodo (fun _ h => by cases h)
  have hz := hok.not_zombie htodo
  have htodoOk := hok.todo
  rw [htodo] at htodoOk
  have hframes : t.frames = t.frame :: page := by rw [Task.frames, htodo]
  cases rest with
  | cons a rest => exact (htodoOk _ (List.mem_cons_self ..)).elim
  | nil =>
    obtain ⟨hlen, hheader⟩ := htodoOk
    simp only [Machine.perform] at hstep
    cases hstep
    refine stepOk_set h ht h.books (Calm.refl _ nowhere _) not_clash_nowhere (fun f hf _ => hf)
      ?_ ?_
    · intro _ f hf
      rw [hframes]
      exact Or.inl hf
    · refine ⟨hok.limits, fun h0 => absurd h0 hP0, hok.inside, ?_, ⟨hlen, inode, rfl, hheader⟩,
        ?_, ?_⟩
      · intro hP
        have := hok.frames hP
        rw [hframes] at this
        exact this
      · intro _ _ hsw
        exact absurd ⟨args, envs, text, endData, page, rfl⟩ hsw
      · intro hz'
        exact absurd (hz.symm.trans hz') Bool.noConfusion

/-- `free_page_tables` of both segments empties the slot. -/
theorem freeSegments_spec (B : Books True M s held) (hP0 : 0 < P) (hP : P < 64)
    (hlim : t.codeLimit ≤ 0x4000000 ∧ t.dataLimit ≤ 0x4000000)
    (hinside : ∀ d ∈ directory, d / 16 = P → present (s.mem 0 d) → d % 16 < dirCount t.dataLimit) :
    wp (freeSegments P t) (fun _ s' => Books True M s' held ∧ Calm (inSlot P) nowhere s s' ∧ Empty s' P)
      (fun e _ => e ≠ .oom) s := by
  have hcount : ∀ size ≤ 0x4000000, ∀ d, P * 16 ≤ d ∧ d < P * 16 + dirCount size → d / 16 = P := by
    intro size hsize d hd
    have : dirCount size ≤ 16 := by
      rw [dirCount]
      omega
    omega
  rw [freeSegments, wp_bind]
  apply wp_mono (freePageTables_books B hP hP0 hlim.1) _ (fun _ _ h => h.1)
  intro _ s1 h1
  obtain ⟨B1, F1⟩ := h1
  apply wp_mono (freePageTables_books B1 hP hP0 hlim.2) _ (fun _ _ h => h.1)
  intro _ s2 h2
  obtain ⟨B2, F2⟩ := h2
  refine ⟨B2, (Freed.calm B F1 (hcount _ hlim.1)).trans (Freed.calm B1 F2 (hcount _ hlim.2)), ?_⟩
  intro d hd hs
  by_cases hdata : P * 16 ≤ d ∧ d < P * 16 + dirCount t.dataLimit
  · exact F2.gone d hdata
  · rw [F2.dir d hdata]
    by_cases hcode : P * 16 ≤ d ∧ d < P * 16 + dirCount t.codeLimit
    · exact F1.gone d hcode
    · rw [F1.dir d hcode]
      intro hp
      have := hinside d hd hs hp
      omega

/-- Nothing is mapped in the slot below the address `a`. -/
def High (s : Mm) (P a : ℕ) : Prop := ∀ q ∈ places, inSlot P q → present (s.pte q) →
  256 ≤ frameOf (s.pte q) ∧ a ≤ offset q * 4096

theorem putArgs_spec {page : List ℕ} (hP0 : 0 < P) (hP : P < 64) {a : ℕ} (ha : a ≤ 0x4000000)
    (halign : a % 4096 = 0) (hroom : 4096 * page.length ≤ a) (B : Books True M s held)
    (hnodup : page.Nodup) (hheld : ∀ f ∈ page, f ∈ held) (hhigh : High s P a) :
    wp (putArgs (base P + a) page)
    (fun mapped s' => mapped ⊆ page ∧ Books True M s' (held - (mapped : Multiset ℕ)) ∧
        Calm (inSlot P) nowhere s s' ∧ High s' P (a - 4096 * page.length))
      (fun _ _ => False) s := by
  induction page generalizing a s held with
  | nil =>
    refine ⟨List.Subset.refl _, ?_, Calm.refl _ _ _, hhigh⟩
    rw [Multiset.coe_nil, Multiset.sub_zero]
    exact B
  | cons f page ih =>
    rw [List.length_cons] at hroom ⊢
    have hplace : placeOf (base P + (a - 4096)) = slotPlace P (a - 4096) :=
      placeOf_base hP (by omega)
    have hp : slotPlace P (a - 4096) ∈ places := slotPlace_mem hP0 hP (by omega)
    have hoff : offset (slotPlace P (a - 4096)) * 4096 = a - 4096 := by
      rw [offset_page (by omega)]
      omega
    have habs : ¬present (s.pte (slotPlace P (a - 4096))) := by
      intro hpres
      have := (hhigh _ hp (slotPlace_inSlot (by omega)) hpres).2
      omega
    have hp' : placeOf (base P + (a - 4096)) ∈ places := by
      rw [hplace]
      exact hp
    have hf := hheld f (List.mem_cons_self ..)
    have hput := putPage_books B hp' (by rw [hplace]; exact habs) hf
    rw [hplace] at hput
    rw [putArgs, show base P + a - 4096 = base P + (a - 4096) from by omega, wp_bind]
    have hnodup' := (List.nodup_cons.1 hnodup).2
    have hnot := (List.nodup_cons.1 hnodup).1
    have hlen : a - 4096 * (page.length + 1) = a - 4096 - 4096 * page.length := by omega
    apply wp_mono hput _ (fun _ _ h => h)
    intro r s1 h1
    rcases h1 with ⟨hr, hs1⟩ | ⟨hr, W⟩
    · -- `put_page` found no frame for the page table: the page stays with the kernel
      rw [wp_bind, hs1]
      have hrest := ih (a := a - 4096) (by omega) (by omega) (by omega) B hnodup'
        (fun g hg => hheld g (List.mem_cons_of_mem _ hg))
        (fun q hq hs hpq => ⟨(hhigh q hq hs hpq).1, by have := (hhigh q hq hs hpq).2; omega⟩)
      apply wp_mono hrest _ (fun _ _ h => h)
      intro mapped s2 h2
      rw [hr, hlen]
      exact ⟨fun g hg => List.mem_cons_of_mem _ (h2.1 hg), h2.2⟩
    · have hlt := (B.ledger.heldIn f hf).lt
      have hge := (B.ledger.heldIn f hf).lowMem_le
      have hhigh1 : High s1 P (a - 4096) := by
        intro q hq hs hpq
        rw [W.pte q hq] at hpq ⊢
        by_cases hqp : q = slotPlace P (a - 4096)
        · rw [if_pos hqp, frameOf_userEntry_frame (by omega), hqp, hoff]
          exact ⟨hge, le_rfl⟩
        · rw [if_neg hqp] at hpq ⊢
          have := hhigh q hq hs hpq
          exact ⟨this.1, by omega⟩
      have hheld' : ∀ g ∈ page, g ∈ held.erase f := by
        intro g hg
        refine (Multiset.mem_erase_of_ne ?_).2 (hheld g (List.mem_cons_of_mem _ hg))
        intro h
        rw [h] at hg
        exact hnot hg
      rw [wp_bind]
      apply wp_mono (ih (by omega) (by omega) (by omega) W.books hnodup' hheld' hhigh1) _ (fun _ _ h => h)
      intro mapped s2 h2
      obtain ⟨hsub, B2, C2, hhigh2⟩ := h2
      rw [wp_pure, if_neg (by omega), hlen]
      refine ⟨?_, ?_, ?_, hhigh2⟩
      · intro g hg
        rcases List.mem_cons.1 hg with hg | hg
        · rw [hg]
          exact List.mem_cons_self ..
        · exact List.mem_cons_of_mem _ (hsub hg)
      · rw [← Multiset.cons_coe, Multiset.sub_cons]
        exact B2
      · refine Calm.trans ((Changed.calm B W).mono ?_ (fun _ h => h)) C2
        intro q hq
        rw [hq]
        exact slotPlace_inSlot (by omega)

theorem puts_plain (a : ℕ) (bytes : List Byte) : ∀ b ∈ puts a bytes, b.Plain := by
  induction bytes generalizing a with
  | nil => exact fun _ h => absurd h List.not_mem_nil
  | cons v bytes ih =>
    intro b hb
    rcases List.mem_cons.1 hb with hb | hb
    · rw [hb]
      trivial
    · exact ih (a + 1) b hb

theorem mem_puts {a : ℕ} {bytes : List Byte} {b : Action} (h : b ∈ puts a bytes) :
    ∃ i v, i < bytes.length ∧ b = .put (a + i) v := by
  induction bytes generalizing a with
  | nil => exact absurd h List.not_mem_nil
  | cons v bytes ih =>
    rcases List.mem_cons.1 h with h | h
    · exact ⟨0, v, Nat.succ_pos _, h⟩
    · obtain ⟨i, w, hi, hb⟩ := ih h
      refine ⟨i + 1, w, Nat.succ_lt_succ hi, ?_⟩
      rw [hb, show a + 1 + i = a + (i + 1) from by omega]

/-- A frame that holds none of the strings stays with the process. -/
theorem mem_held_sub {page mapped : List ℕ} {g : ℕ} (hsub : mapped ⊆ page) (hg : g ∈ held) (hnot : g ∉ page) :
    g ∈ held - (mapped : Multiset ℕ) := by
  rw [← Multiset.count_pos, Multiset.count_sub, Multiset.count_eq_zero_of_notMem
    (fun h => hnot (hsub (Multiset.mem_coe.1 h))), Nat.sub_zero, Multiset.count_pos]
  exact hg

/-- The page tables are freed, and the pages with the strings are mapped. -/
theorem execPages_spec {page : List ℕ} (B : Books True M s held) (hP0 : 0 < P) (hP : P < 64)
    (hlim : t.codeLimit ≤ 0x4000000 ∧ t.dataLimit ≤ 0x4000000)
    (hinside : ∀ d ∈ directory, d / 16 = P → present (s.mem 0 d) → d % 16 < dirCount t.dataLimit)
    (hlen : page.length ≤ 32) (hnodup : page.Nodup) (hheld : ∀ f ∈ page, f ∈ held) :
    wp (do freeSegments P t; putArgs (base P + 0x4000000) page)
      (fun mapped s' => mapped ⊆ page ∧ Books True M s' (held - (mapped : Multiset ℕ)) ∧
        Calm (inSlot P) nowhere s s' ∧ High s' P (0x4000000 - 4096 * page.length))
      (fun e _ => e ≠ .oom) s := by
  rw [wp_bind]
  apply wp_mono (freeSegments_spec B hP0 hP hlim hinside) _ (fun _ _ h => h)
  intro _ s1 h1
  obtain ⟨B1, C1, hempty⟩ := h1
  have hput := putArgs_spec hP0 hP (le_refl 0x4000000) (by omega) (by omega) B1 hnodup hheld
    (fun q hq hs hp => absurd hp (hempty.absent hq hs))
  apply wp_mono hput _ (fun _ _ h => h.elim)
  intro mapped s2 h2
  exact ⟨h2.1, h2.2.1, C1.trans h2.2.2.1, h2.2.2.2⟩

/-- The rest of `do_execve`. -/
theorem execFree_ok {text endData : ℕ} {args envs page : List ℕ} (h : Sound M σ)
    (ht : σ.task P = some t) (htodo : t.todo = .execFree args envs text endData page :: rest)
    (hstep : σ.perform P (t.next rest) (.execFree args envs text endData page) = some σ') :
    StepOk M σ P σ' := by
  have hok := h.ok P t ht
  have hP := h.slots P t ht
  have hP0 : P ≠ 0 := hok.pos htodo (fun _ h => by cases h)
  have hz := hok.not_zombie htodo
  have htodoOk := hok.todo
  rw [htodo] at htodoOk
  have hframes : t.frames = t.frame :: page := by rw [Task.frames, htodo]
  obtain ⟨hnodup, hheld⟩ := hok.frames hP0
  rw [hframes, List.nodup_cons] at hnodup
  rw [hframes] at hheld
  cases rest with
  | cons a rest => exact (htodoOk _ (List.mem_cons_self ..)).elim
  | nil =>
    obtain ⟨hlen, inode, hi, hheader⟩ := htodoOk
    have hspec := execPages_spec (t := t.next []) h.books (by omega) hP hok.limits hok.inside hlen
      hnodup.2 (fun f hf => hheld f (List.mem_cons_of_mem _ hf))
    simp only [Machine.perform, Machine.execFree] at hstep
    rcases call_cases hspec hstep with ⟨mapped, s, hpost, hσ'⟩ | ⟨_, hoom, _⟩
    · obtain ⟨hsub, B, C, hhigh⟩ := hpost
      have hkeep : ∀ g ∈ σ.kernel.held, g ∉ page → g ∈ σ.kernel.held - (mapped : Multiset ℕ) :=
        fun g => mem_held_sub hsub
      have hplain : ∀ b ∈ (createTables (0x4000000 - 4 - (args.sum + envs.sum)) args envs).flatMap
          (fun p => putLong p.1 p.2) ++ zeroFill endData, b.Plain := by
        intro b hb
        rcases List.mem_append.1 hb with hb | hb
        · obtain ⟨p, -, hp⟩ := List.mem_flatMap.1 hb
          exact puts_plain _ _ b hp
        · exact puts_plain _ _ b hb
      have hframe := hkeep _ (hheld _ (List.mem_cons_self ..)) hnodup.1
      rw [hσ']
      refine stepOk_set h ht B C not_clash_nowhere ?_ ?_ ?_
      · intro g hg hor
        have hnot := hor.resolve_right hP0
        rw [hframes] at hnot
        exact hkeep g hg (fun h => hnot (List.mem_cons_of_mem _ h))
      · intro _ g hg
        rw [frames_of_plain hplain] at hg
        rw [List.mem_singleton.1 hg]
        exact Or.inl (frame_mem_frames t)
      · refine ⟨⟨?_, le_rfl⟩, fun h0 => absurd h0 hP0, ?_, ?_, todoOk_of_plain hplain, ?_, ?_⟩
        · have := hheader.text_le
          show (text + 4095) % 2 ^ 32 / 4096 * 4096 ≤ 0x4000000
          omega
        · intro d _ _ _
          show d % 16 < dirCount 0x4000000
          rw [dirCount]
          omega
        · intro _
          rw [frames_of_plain hplain]
          refine ⟨List.nodup_singleton _, ?_⟩
          intro g hg
          rw [List.mem_singleton.1 hg]
          exact hframe
        · intro inode' hi' _
          rw [show t.executable = some inode' from hi'] at hi
          cases hi
          refine ⟨hheader.end_eq, hheader.end_le, ?_⟩
          intro q hq hs hp
          obtain ⟨hge, hoff⟩ := hhigh q hq hs hp
          refine ⟨hge, ?_⟩
          intro hlt
          have hlt' : offset q * 4096 < endData := hlt
          have := hheader.end_le
          omega
        · intro hz'
          exact absurd (hz.symm.trans hz') Bool.noConfusion
    · exact absurd rfl hoom

/-! ### `exit` and `release` -/

theorem exit_frees (b : Busy M σ P t .exit rest)
    (hstep : σ.perform P (t.next rest) .exit = some σ') : StepOk M σ P σ' := by
  have hP := b.pos
  simp only [Machine.perform] at hstep
  have hspec := freeSegments_spec (t := t.next rest) b.sound.books (by omega) b.lt b.ok.limits b.ok.inside
  rcases call_cases hspec hstep with ⟨_, s, hpost, hσ'⟩ | ⟨_, hoom, _⟩
  · obtain ⟨B, C, hempty⟩ := hpost
    rw [hσ']
    refine stepOk_set b.sound b.task B C not_clash_nowhere (fun f hf _ => hf) ?_ ?_
    · intro _ f hf
      rw [List.mem_singleton.1 hf]
      exact Or.inl (frame_mem_frames t)
    · refine ⟨b.ok.limits, fun h0 => absurd h0 b.pos, fun d hd hs hp => absurd hp (hempty d hd hs),
        ?_, hempty, ?_, ?_⟩
      · intro _
        refine ⟨List.nodup_singleton _, ?_⟩
        intro f hf
        rw [List.mem_singleton.1 hf]
        exact b.held
      · intro inode hi _
        obtain ⟨h1, h2, -⟩ := b.ok.clean inode hi b.not_switching
        exact ⟨h1, h2, fun q hq hs hp => absurd hp (hempty.absent hq hs)⟩
      · intro hz
        exact absurd (b.not_zombie.symm.trans hz) Bool.noConfusion
  · exact absurd rfl hoom

theorem exited_ok (h : Sound M σ) (ht : σ.task P = some t) (htodo : t.todo = .exited :: rest)
    (hstep : σ.perform P (t.next rest) .exited = some σ') : StepOk M σ P σ' := by
  have hok := h.ok P t ht
  have hP0 : P ≠ 0 := hok.pos htodo (fun _ h => by cases h)
  have htodoOk := hok.todo
  rw [htodo] at htodoOk
  cases rest with
  | cons a rest => exact (htodoOk _ (List.mem_cons_self ..)).elim
  | nil =>
    have hempty : Empty σ.kernel.mm P := htodoOk
    simp only [Machine.perform] at hstep
    cases hstep
    refine stepOk_set h ht h.books (Calm.refl _ nowhere _) not_clash_nowhere (fun f hf _ => hf)
      ?_ ?_
    · intro _ f hf
      rw [List.mem_singleton.1 hf]
      exact Or.inl (frame_mem_frames t)
    · refine ⟨hok.limits, fun h0 => absurd h0 hP0, hok.inside, ?_,
        todoOk_of_plain (fun _ h => absurd h List.not_mem_nil), ?_, fun _ => ⟨rfl, rfl, hempty⟩⟩
      · intro hP
        refine ⟨List.nodup_singleton _, ?_⟩
        intro f hf
        rw [List.mem_singleton.1 hf]
        exact (hok.frames hP).2 _ (frame_mem_frames t)
      · intro inode hi
        cases hi

theorem Sound.vacate (h : Sound M σ) {u : Task} (hu : σ.task nr = some u) (hz : u.zombie = true)
    (B : Books True M s (σ.kernel.held.erase u.frame)) (hmem : s.mem = σ.kernel.mm.mem) :
    Sound M (σ.vacate nr ⟨s, σ.kernel.held.erase u.frame⟩) := by
  have hok := h.ok nr u hu
  have hnr : nr ≠ 0 := by
    intro h0
    exact absurd ((hok.zero h0).2.2.1.symm.trans hz) Bool.noConfusion
  have hcalm : Calm nowhere nowhere σ.kernel.mm s := calm_of_mem hmem
  refine Slots.sound (σ := σ.vacate nr ⟨s, σ.kernel.held.erase u.frame⟩)
    (h.toSlots.vacate (fun _ _ _ h hP => h.held hP) hu hnr (hok.gone hz).2.2 hmem B ?_)
  intro Q v _ hv hheld
  exact (h.ok Q v hv).others (h.slots Q v hv) hcalm (fun _ _ h => h) (fun _ _ h => h.elim) hheld

theorem release_ok (b : Busy M σ P t (.release nr) rest)
    (hstep : σ.perform P (t.next rest) (.release nr) = some σ') : StepOk M σ P σ' := by
  have hsame : StepOk M σ P (σ.set P (t.next rest) σ.kernel) :=
    And.left (b.still (Calm.refl nowhere nowhere _) b.sound.books (fun _ _ _ _ _ h => h.elim) rfl)
  simp only [Machine.perform] at hstep
  cases hu : σ.task nr with
  | none =>
    simp only [hu] at hstep
    cases hstep
    exact hsame
  | some u =>
    simp only [hu] at hstep
    split at hstep
    · rename_i hz
      have huok := b.sound.ok nr u hu
      have hnr : nr ≠ 0 := by
        intro h0
        exact absurd ((huok.zero h0).2.2.1.symm.trans hz.1) Bool.noConfusion
      have hheld := (huok.frames hnr).2 _ (frame_mem_frames u)
      rcases call_cases (freePage_held b.sound.books hheld) hstep with ⟨_, s, hpost, hσ'⟩ | ⟨_, hoom, _⟩
      · obtain ⟨hmem, B⟩ := hpost
        have hvacate := b.sound.vacate hu hz.1 B hmem
        have htask : (σ.vacate nr ⟨s, σ.kernel.held.erase u.frame⟩).task P = some t := by
          rw [vacate_task, if_neg (Ne.symm hz.2)]
          exact b.task
        have b' : Busy M (σ.vacate nr ⟨s, σ.kernel.held.erase u.frame⟩) P t (.release nr) rest :=
          ⟨hvacate, htask, b.todo, b.plain, b.pos⟩
        have hset : StepOk M (σ.vacate nr ⟨s, σ.kernel.held.erase u.frame⟩) P
            ((σ.vacate nr ⟨s, σ.kernel.held.erase u.frame⟩).set P (t.next rest)
              ⟨s, σ.kernel.held.erase u.frame⟩) :=
          And.left (b'.still (Calm.refl nowhere nowhere _) hvacate.books (fun _ _ _ _ _ h => h.elim) rfl)
        rw [hσ', vacate_set σ hz.2]
        refine ⟨hset.sound, rfl, ?_, calm_of_mem hmem⟩
        intro Q v hQ hv hlive
        rw [set_task, if_neg hQ, vacate_task, if_neg]
        · exact hv
        · intro hQn
          rw [hQn, hu] at hv
          cases hv
          exact absurd (hlive.symm.trans hz.1) Bool.noConfusion
      · exact hoom.elim
    · cases hstep
      exact hsame

end OldLinux.Process
