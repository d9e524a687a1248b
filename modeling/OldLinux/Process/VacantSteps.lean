import OldLinux.Process.Vacant

/-!
# What a step does to the page tables

One theorem for each thing a task can have to do: the promises of all tasks are kept, and nothing
becomes mapped outside the slot of the task and the slots that were empty.  Only `execve` needs a
condition: the segment it makes for the text has to fit into the slot.
-/

namespace OldLinux.Process

open Lib Memory

variable {M : MainMemory} {σ σ' : Machine} {k k' : Kernel} {s s' s'' : Mm} {held : Multiset ℕ}
  {P Q nr : ℕ} {t : Task} {X D : ℕ × ℕ → Prop} {action : Action} {rest : List Action}

/-- No place may lose its dirty bit, for all that matters here. -/
def anywhere : ℕ × ℕ → Prop := fun _ => True

/-! ### Loads and stores -/

theorem Running.load {a : ℕ} (r : Running M σ P t (.load a) rest)
    (hstep : σ.perform P (t.next rest) (.load a) = some σ') : Keeps M σ P σ' := by
  simp only [Machine.perform] at hstep
  split at hstep
  · cases hstep
    exact r.exit r.housed.books (Still.refl _ _) rfl
  · rename_i hlim
    split at hstep
    · cases hstep
      exact r.keeps (X := nowhere) r.housed.books (Still.refl _ _) (fun _ h => h.elim) rfl
    · rename_i habs
      exact r.fault (not_le.1 hlim) habs hstep

theorem Running.place {a : ℕ} (r : Running M σ P t action rest) (ha : a < t.dataLimit) :
    placeOf (base P + a) = slotPlace P a ∧ slotPlace P a ∈ places := by
  have hlim := r.ok.limits.2
  have hP := r.pos
  exact ⟨placeOf_base r.lt (by omega), slotPlace_mem (by omega) r.lt (by omega)⟩

theorem Running.poked {a : ℕ} {v : Byte} (r : Running M σ P t action rest) (ha : a < t.dataLimit)
    (hpres : present (σ.pte P a)) (hhigh : 256 ≤ frameOf (σ.pte P a))
    (hstep : (σ.call P (t.next rest) (poke (base P + a) v) fun _ s =>
      σ.set P (t.next rest) ⟨s, σ.kernel.held⟩) = some σ') : Keeps M σ P σ' := by
  obtain ⟨hplace, hp⟩ := r.place ha
  have hspec := poke_marked r.housed.books (base P + a) (by rw [hplace]; exact hp)
    (by rw [hplace]; exact hpres) (by rw [hplace]; exact hhigh) v
  rcases call_cases hspec hstep with ⟨_, s, W, hσ'⟩ | ⟨_, h, _⟩
  · rw [hσ']
    exact r.keeps W.books W.still (fun _ h => h.elim) rfl
  · exact h.elim

/-- A page whose write protection was lifted is not one of the kernel's. -/
theorem Unshared.mapped {p : ℕ × ℕ} (U : Unshared True M s held p s') (hpres : present (s.pte p)) :
    present (s'.pte p) ∧ 256 ≤ frameOf (s'.pte p) := by
  rcases U.entry with ⟨hf, _, he⟩ | ⟨_, f, hf, he⟩
  · rw [he, frameOf_withWrite]
    exact ⟨(present_withWrite _).2 hpres, hf⟩
  · have hlt := hf.lt
    rw [he, frameOf_userEntry_frame (by omega)]
    exact ⟨present_userEntry _, hf.lowMem_le⟩

/-- A store into a read-only page: `do_wp_page`, and the store again. -/
theorem wpPoke_marked (B : Books True M s held) (address : ℕ) (hp : placeOf address ∈ places)
    (hpres : present (s.pte (placeOf address))) (b : Byte) :
    wp (do doWpPage address; poke address b)
      (fun _ s' => Books True M s' held ∧ Still nowhere s s') (fun _ s' => s' = s) s := by
  rw [wp_bind]
  apply wp_mono (doWpPage_books B hp hpres) _ (fun _ _ h => h)
  intro _ s1 U
  have C1 : Calm nowhere anywhere s s1 := Unshared.calm B U hpres (fun _ _ => trivial)
  have hpriv := Unshared.mapped U hpres
  apply wp_mono (poke_marked U.changed.books address hp hpriv.1 hpriv.2 b) _ (fun _ _ h => h.elim)
  intro _ s2 W
  exact ⟨W.books, C1.still.trans W.still⟩

theorem Running.store {a : ℕ} {v : Byte} (r : Running M σ P t (.store a v) rest)
    (hstep : σ.perform P (t.next rest) (.store a v) = some σ') : Keeps M σ P σ' := by
  simp only [Machine.perform] at hstep
  split at hstep
  · cases hstep
    exact r.exit r.housed.books (Still.refl _ _) rfl
  · rename_i hlim
    have ha : a < t.dataLimit := not_le.1 hlim
    obtain ⟨hplace, hp⟩ := r.place ha
    split at hstep
    · rename_i hpres
      split at hstep
      · rename_i hw
        exact r.poked ha hpres (private_of_writable r.housed.books hp hpres hw).1 hstep
      · have hspec := wpPoke_marked r.housed.books (base P + a) (by rw [hplace]; exact hp)
          (by rw [hplace]; exact hpres) v
        rcases call_cases hspec hstep with ⟨_, s, W, hσ'⟩ | ⟨s, hs, hσ'⟩
        · rw [hσ']
          exact r.keeps W.1 W.2 (fun _ h => h.elim) rfl
        · rw [hσ', hs]
          exact r.exit r.housed.books (Still.refl _ _) rfl
    · rename_i habs
      exact r.fault ha habs hstep

theorem Running.put {a : ℕ} {v : Byte} (r : Running M σ P t (.put a v) rest)
    (hstep : σ.perform P (t.next rest) (.put a v) = some σ') : Keeps M σ P σ' := by
  simp only [Machine.perform] at hstep
  split at hstep
  · cases hstep
    exact r.exit r.housed.books (Still.refl _ _) rfl
  · rename_i hlim
    have ha : a < t.dataLimit := not_le.1 hlim
    split at hstep
    · rename_i hpres
      have hstores := r.stores (.put a v) (by rw [r.todo]; exact List.mem_cons_self ..)
      exact r.poked ha hpres (hstores.2 a v rfl ha hpres) hstep
    · rename_i habs
      exact r.fault ha habs hstep

/-! ### `verify_area` -/

/-- A page that has been verified is not one of the kernel's. -/
theorem verifyPage_high (B : Books True M s held) {address : ℕ} (ha : address < 2 ^ 32) :
      wp (writeVerify address)
      (fun _ s' => Books True M s' held ∧ Still nowhere s s' ∧
        ∀ q ∈ places, q = placeOf address → HighAt s' q)
      (fun _ s' => s' = s) s := by
  by_cases hlow : address < 0x4000000
  · apply wp_mono (writeVerify_kernel B hlow) _ (fun _ _ h => h.elim)
    intro _ s' hs'
    rw [hs']
    refine ⟨B, Still.refl _ _, ?_⟩
    intro q hq hqa
    have hb := mem_places.1 hq
    rw [hqa, placeOf_fst, dirIndex] at hb
    omega
  · have hp : placeOf address ∈ places := placeOf_mem ⟨by omega, ha⟩
    apply wp_mono (writeVerify_books B hp) _ (fun _ _ h => h)
    intro _ s' hcase
    rcases hcase with ⟨hpres, _, U⟩ | ⟨hwr, hs'⟩
    · have C : Calm nowhere anywhere s s' := Unshared.calm B U hpres (fun _ _ => trivial)
      refine ⟨U.changed.books, C.still, ?_⟩
      intro q _ hqa _
      rw [hqa]
      exact (Unshared.mapped U hpres).2
    · rw [hs']
      refine ⟨B, Still.refl _ _, ?_⟩
      intro q hq hqa hpq
      rw [← hqa] at hwr
      exact (private_of_writable B hq hpq (hwr hpq)).1

theorem verifyPages_high {start : ℕ} (n : ℕ) (B : Books True M s held) (hstart : start < 2 ^ 32) :
    wp (verifyPages start n) (fun _ s' => Books True M s' held ∧ Still nowhere s s' ∧
        ∀ i < n, ∀ q ∈ places, q = placeOf (verifyAddress start i) → HighAt s' q)
      (fun _ s' => Books True M s' held ∧ Still nowhere s s') s := by
  induction n generalizing start s with
  | zero => exact ⟨B, Still.refl _ _, fun i hi => by omega⟩
  | succ n ih =>
    rw [verifyPages, wp_bind]
    apply wp_mono (verifyPage_high B hstart)
    · intro _ s1 h
      obtain ⟨B1, C1, hone⟩ := h
      apply wp_mono (ih B1 (show (start + 4096) % 2 ^ 32 < 2 ^ 32 by omega))
      · intro _ s2 h
        obtain ⟨B2, C2, hrest⟩ := h
        refine ⟨B2, C1.trans C2, ?_⟩
        intro i hi q hq hqa
        cases i with
        | zero =>
          rw [verifyAddress_zero hstart] at hqa
          exact C2.high q hq (fun h => h) (hone q hq hqa)
        | succ i =>
          rw [← verifyAddress_next] at hqa
          exact hrest i (by omega) q hq hqa
      · intro _ s2 h
        exact ⟨h.1, C1.trans h.2⟩
    · intro _ s1 h
      rw [h]
      exact ⟨B, Still.refl _ _⟩

theorem verifyArea_high (B : Books True M s held) (a : ℕ) (size : ℤ) : wp (verifyArea P a size)
      (fun _ s' => Books True M s' held ∧ Still nowhere s s' ∧ ∀ i < verifyCount a size,
        ∀ q ∈ places, q = placeOf (verifyAddress ((a - a % 4096 + base P) % 2 ^ 32) i) → HighAt s' q)
      (fun _ s' => Books True M s' held ∧ Still nowhere s s') s :=
  verifyPages_high _ B (Nat.mod_lt _ (by omega))

/-- A long takes one page or two. -/
theorem verifyCount_four (a : ℕ) : verifyCount a 4 = (4 + a % 4096 + 4095) / 4096 := by
  have hlt : a % 4096 < 4096 := Nat.mod_lt _ (by omega)
  have hmod : ((4 : ℤ) + ((a % 4096 : ℕ) : ℤ)).bmod (2 ^ 32) = 4 + ((a % 4096 : ℕ) : ℤ) := by
    apply Int.bmod_eq_of_le
    · omega
    · omega
  have hcast : (4 : ℤ) + (a : ℤ) % 4096 = 4 + ((a % 4096 : ℕ) : ℤ) := by omega
  rw [verifyCount, hcast, hmod]
  omega

/-- The byte `c` of a long at `a` lies in a page that is verified. -/
theorem verified_place {a c : ℕ} (hP : P < 64) (hac : a ≤ c) (hca : c < a + 4) (hc : c < 0x4000000) :
    ∃ i < verifyCount a 4, slotPlace P c = placeOf (verifyAddress ((a - a % 4096 + base P) % 2 ^ 32) i) := by
  refine ⟨c / 4096 - a / 4096, ?_, ?_⟩
  · rw [verifyCount_four]
    omega
  · have haddr : verifyAddress ((a - a % 4096 + base P) % 2 ^ 32) (c / 4096 - a / 4096) =
        base P + (c - c % 4096) := by
      rw [verifyAddress, base]
      omega
    rw [haddr, placeOf_base hP (by omega), slotPlace_page]

theorem Slots.verify {a : ℕ} {size : ℤ} (h : Housed M σ) (ht : σ.task P = some t)
    (htodo : t.todo = .verify a size :: rest)
    (hstep : σ.perform P (t.next rest) (.verify a size) = some σ') : Keeps M σ P σ' := by
  have hok := h.ok P t ht
  have hP := h.slots P t ht
  have hP0 : P ≠ 0 := hok.pos htodo (fun _ h => by cases h)
  have hz := hok.not_zombie htodo
  have hlim := hok.limits.2
  have hpending := hok.todo
  rw [htodo] at hpending
  obtain ⟨hsize, hrest⟩ := hpending
  simp only [Machine.perform] at hstep
  have hspec := verifyArea_high (P := P) h.books a size
  rcases call_cases hspec hstep with ⟨_, s, ⟨B, C, hhigh⟩, hσ'⟩ | ⟨s, ⟨B, C⟩, hσ'⟩
  · rw [hσ']
    refine h.onward ht hz (X := nowhere) B C (fun _ h => h.elim) (fun h => absurd h hP0)
      (fun f hf _ => hf) ?_
    intro b hb
    refine ⟨(hrest b hb).1, ?_⟩
    intro c v hbv hc
    obtain ⟨hac, hca⟩ := (hrest b hb).2 c v hbv
    obtain ⟨i, hi, hplace⟩ := verified_place hP hac hca (show c < 0x4000000 by omega)
    rw [← hsize] at hi
    exact hhigh i hi _ (slotPlace_mem (by omega) hP (by omega)) hplace
  · rw [hσ', next_next]
    exact h.dies ht hP0 hz B C (fun f hf _ => hf)

/-! ### The rest of `do_no_page` -/

theorem Slots.finishLoad {f tmp : ℕ} (h : Housed M σ) (ht : σ.task P = some t)
    (htodo : t.todo = .finishLoad f tmp :: rest)
    (hstep : σ.perform P (t.next rest) (.finishLoad f tmp) = some σ') : Keeps M σ P σ' := by
  have hok := h.ok P t ht
  have hP := h.slots P t ht
  have hP0 : P ≠ 0 := hok.pos htodo (fun _ h => by cases h)
  have hz := hok.not_zombie htodo
  have hlim := hok.limits.2
  have hpending := hok.todo
  rw [htodo] at hpending
  obtain ⟨htmp, habs, hstores⟩ := hpending
  have hframes : t.frames = [t.frame, f] := by rw [Task.frames, htodo]
  obtain ⟨hfheld, hrel⟩ := loading_frames hframes (hok.frames hP0)
  have hslot : inSlot P (slotPlace P tmp) := slotPlace_inSlot (by omega)
  simp only [Machine.perform] at hstep
  have hspec : ∀ contents : Page, wp (finishPage f (base P + tmp) contents)
      (fun _ s' => Mapped M (σ.kernel.held.erase f) (slotPlace P tmp) contents σ.kernel.mm s')
      (fun e s' => e = .oom → Books True M s' (σ.kernel.held.erase f) ∧
        Calm nowhere nowhere σ.kernel.mm s')
      ({ σ with kernel := ⟨σ.kernel.mm, σ.kernel.held.erase f⟩ } : Machine).kernel.mm := fun contents =>
    finishPage_spec h.books (by omega) hP (show tmp < 0x4000000 by omega) habs hfheld contents
  rcases call_cases (hspec _) hstep with ⟨_, s, W, hσ'⟩ | ⟨s, hoom, hσ'⟩
  · rw [hσ']
    have hkeeps : Keeps M σ P (σ.set P (t.next rest) ⟨s, σ.kernel.held.erase f⟩) := by
      refine h.onward ht hz W.books W.calm.still ?_ (fun h => absurd h hP0) ?_
        (hstores.still (by omega) hP hlim W.calm.still (fun q _ hq => W.keeps hq))
      · intro q hq
        exact ⟨by rw [hq]; exact hslot, by rw [hq]; exact slotPlace_inside htmp hlim⟩
      · intro g hg hor
        rcases hor with h1 | h1 | h1
        · exact hrel g hg (Or.inl h1)
        · exact hrel g hg (Or.inr h1)
        · exact absurd h1 hP0
    exact hkeeps
  · obtain ⟨B, C⟩ := hoom rfl
    rw [hσ']
    have hkeeps : Keeps M σ P (σ.set P (t.next [.exit]) ⟨s, σ.kernel.held.erase f⟩) :=
      h.dies ht hP0 hz B C.still hrel
    exact hkeeps

/-! ### `fork` -/

/-- The slot of a task that has no task in it is empty. -/
theorem Copied.dirs_inside {limit : ℕ} (hempty : Empty s nr)
    (C : Copied True P nr (fun d => d < dirCount limit) s s') :
    ∀ d ∈ directory, d / 16 = nr → present (s'.mem 0 d) → d % 16 < dirCount limit := by
  intro d hd hs hp
  by_contra hout
  rw [C.dir d (fun hR => hout hR.2)] at hp
  exact hempty d hd hs hp

theorem Slots.fork (h : Housed M σ) (ht : σ.task P = some t) (htodo : t.todo = .fork nr :: rest)
    (hstep : σ.perform P (t.next rest) (.fork nr) = some σ') : Keeps M σ P σ' := by
  have hok := h.ok P t ht
  have hP := h.slots P t ht
  have hz := hok.not_zombie htodo
  have hall := hok.stores htodo trivial
  rw [htodo] at hall
  have h0 : P = 0 → ∀ a ∈ rest, ∃ nr, a = .fork nr := by
    intro hP0 a ha
    refine (hok.zero hP0).2.2.2 a ?_
    rw [htodo]
    exact List.mem_cons_of_mem _ ha
  -- the task goes on with the rest, whatever memory looks like now
  have honward : ∀ {k' : Kernel}, Books True M k'.mm k'.held → Still nowhere σ.kernel.mm k'.mm →
      k'.held = σ.kernel.held → Keeps M σ P (σ.set P (t.next rest) k') := by
    intro k' B C hheld
    refine h.onward ht hz B C (fun _ h => h.elim) h0 ?_ ?_
    · intro f hf _
      rw [hheld]
      exact hf
    · intro b hb
      by_cases hP0 : P = 0
      · obtain ⟨n, hn⟩ := h0 hP0 b hb
        rw [hn]
        exact ⟨trivial, fun _ _ h => by cases h⟩
      · exact hall.tail.still (by omega) hP hok.limits.2 C (fun _ _ h => h.elim) b hb
  simp only [Machine.perform, Machine.fork] at hstep
  split at hstep
  · rename_i hfree
    obtain ⟨hnr0, hnr, hnone⟩ := hfree
    have hspec := copyProcess_spec (t := t.next rest) h.books hP hnr hnr0 hok.limits.2
      (fun h0 => (hok.zero h0).1) (h.vacant nr hnone)
    rcases call_cases hspec hstep with ⟨child, s, hforked, hσ'⟩ | ⟨_, hoom, _⟩
    · rw [hσ']
      cases hforked with
      | failed B C => exact honward B C.still rfl
      | child f hf B C =>
        have hparent : Keeps M σ P (σ.set P (t.next rest) σ.kernel) :=
          honward h.books (Still.refl _ _) rfl
        have hcopy : Calm (inSlot nr) nowhere σ.kernel.mm s := Copied.calm C
        have hC : Still (inSlot nr) σ.kernel.mm s := hcopy.still
        have hadd : Housed M ((σ.set P (t.next rest) σ.kernel).set nr
            { t with frame := f, zombie := false, todo := [] } ⟨s, f ::ₘ σ.kernel.held⟩) := by
          refine hparent.housed.add (fun _ _ _ h hP => h.held hP) hnr hf rfl B
            (fun _ => hC.empty_other) rfl ?_ ?_
          · intro Q v hne hv hheld
            exact (hparent.housed.ok Q v hv).others (hparent.housed.slots Q v hv) hC
              (fun q hs hs' => hne (hs.symm.trans hs')) hheld
          · refine ⟨hok.limits, fun h0 => by omega, Copied.dirs_inside (h.vacant nr hnone) C, ?_,
              pending_of_stores (fun _ h => absurd h List.not_mem_nil), fun hz => by cases hz⟩
            intro _
            refine ⟨List.nodup_singleton _, ?_⟩
            intro g hg
            rw [List.mem_singleton.1 hg]
            exact Multiset.mem_cons_self f _
        refine ⟨hadd, hC.mono ?_⟩
        intro q hq
        refine Or.inr ?_
        rw [hq]
        exact hnone
    · exact absurd rfl hoom
  · cases hstep
    exact honward h.books (Still.refl _ _) rfl

/-! ### `execve` -/

/-- `do_execve` up to the point of no return. -/
theorem Running.exec {inode : ℕ} {args envs : List ℕ} {strings : ℕ → Page}
    (r : Running M σ P t (.exec inode args envs strings) rest)
    (hfits : σ.files.Runnable inode → TextFits (σ.files.text inode))
    (hstep : σ.perform P (t.next rest) (.exec inode args envs strings) = some σ') :
    Keeps M σ P σ' := by
  have hP0 := r.pos
  simp only [Machine.perform, Machine.exec] at hstep
  split at hstep
  · rename_i hrun
    obtain ⟨p, -, hstep⟩ := Option.bind_eq_some_iff.1 hstep
    have hspec := copyBoth_spec strings p r.housed.books
    rcases call_cases hspec hstep with ⟨page, s, hcopied, hσ'⟩ | ⟨_, hoom, _⟩
    · rw [hσ']
      cases hcopied with
      | failed B C => exact r.keeps (X := nowhere) B C.still (fun _ h => h.elim) rfl
      | copied page hnodup hnew hlen B C =>
        have hframes : (t.next [.execSwitch inode args envs (σ.files.text inode)
            (σ.files.endData inode) page]).frames = t.frame :: page := rfl
        have hframe := r.ok.frame_held hP0
        refine r.housed.alone r.task B (C.still.mono (fun _ h => h.elim))
          (fun f hf _ => Multiset.mem_add.2 (Or.inr hf)) ?_
          ⟨r.ok.limits, fun h0 => absurd h0 hP0, ?_, ?_, ?_, ?_⟩
        · intro _ f hf
          rw [next_next, hframes] at hf
          rcases List.mem_cons.1 hf with hf | hf
          · rw [hf]
            exact Or.inl (frame_mem_frames t)
          · exact Or.inr (hnew f hf)
        · intro d hd hs hp
          exact r.ok.inside d hd hs ((C.dir d (fun _ h => h)).1 hp)
        · intro _
          rw [next_next, hframes]
          exact frames_copied hframe hnodup hnew
        · refine ⟨?_, hfits hrun⟩
          rw [hlen]
          exact stringPages_le _
        · intro hz
          exact absurd (r.not_zombie.symm.trans hz) Bool.noConfusion
    · exact hoom.elim
  · cases hstep
    exact r.keeps (X := nowhere) r.housed.books (Still.refl _ _) (fun _ h => h.elim) rfl

/-- `current->executable = inode`. -/
theorem Slots.execSwitch {inode text endData : ℕ} {args envs page : List ℕ} (h : Housed M σ)
    (ht : σ.task P = some t)
    (htodo : t.todo = .execSwitch inode args envs text endData page :: rest)
    (hstep : σ.perform P (t.next rest) (.execSwitch inode args envs text endData page) = some σ') :
    Keeps M σ P σ' := by
  have hok := h.ok P t ht
  have hP0 : P ≠ 0 := hok.pos htodo (fun _ h => by cases h)
  have hz := hok.not_zombie htodo
  have hpending := hok.todo
  rw [htodo] at hpending
  have hframes : t.frames = t.frame :: page := by rw [Task.frames, htodo]
  cases rest with
  | cons a rest => exact (hpending _ (List.mem_cons_self ..)).1.elim
  | nil =>
    simp only [Machine.perform] at hstep
    cases hstep
    refine h.alone ht h.books (Still.refl _ _) (fun f hf _ => hf) ?_
      ⟨hok.limits, fun h0 => absurd h0 hP0, hok.inside, ?_, hpending, ?_⟩
    · intro _ f hf
      rw [hframes]
      exact Or.inl hf
    · intro hP
      have := hok.frames hP
      rw [hframes] at this
      exact this
    · intro hz'
      exact absurd (hz.symm.trans hz') Bool.noConfusion

/-- Everything the kernel stores after `free_page_tables` goes to pages above the arguments, or to
absent ones. -/
theorem stores_of_high {a limit : ℕ} (hhigh : High s P a) (hP0 : 0 < P) (hP : P < 64)
    (hlimit : limit ≤ 0x4000000) {todo : List Action} (hput : ∀ b ∈ todo, ∃ c v, b = .put c v) :
    Stores s P limit todo := by
  intro b hb
  obtain ⟨c, v, hcv⟩ := hput b hb
  rw [hcv]
  refine ⟨trivial, ?_⟩
  intro a' v' heq ha'
  cases heq
  intro hp
  exact (hhigh _ (slotPlace_mem hP0 hP (by omega)) (slotPlace_inSlot (by omega)) hp).1

/-- The rest of `do_execve`. -/
theorem Slots.execFree {text endData : ℕ} {args envs page : List ℕ} (h : Housed M σ)
    (ht : σ.task P = some t) (htodo : t.todo = .execFree args envs text endData page :: rest)
    (hstep : σ.perform P (t.next rest) (.execFree args envs text endData page) = some σ') :
    Keeps M σ P σ' := by
  have hok := h.ok P t ht
  have hP := h.slots P t ht
  have hP0 : P ≠ 0 := hok.pos htodo (fun _ h => by cases h)
  have hz := hok.not_zombie htodo
  have hlim := hok.limits
  have hpending := hok.todo
  rw [htodo] at hpending
  have hframes : t.frames = t.frame :: page := by rw [Task.frames, htodo]
  obtain ⟨hnodup, hheld⟩ := hok.frames hP0
  rw [hframes, List.nodup_cons] at hnodup
  rw [hframes] at hheld
  cases rest with
  | cons a rest => exact (hpending _ (List.mem_cons_self ..)).1.elim
  | nil =>
    obtain ⟨hlen, hfits⟩ := hpending
    have hspec := execPages_spec (t := t.next []) h.books (by omega) hP ⟨le_trans hlim.1.2 hlim.2, hlim.2⟩
      hok.inside hlen hnodup.2 (fun f hf => hheld f (List.mem_cons_of_mem _ hf))
    simp only [Machine.perform, Machine.execFree] at hstep
    rcases call_cases hspec hstep with ⟨mapped, s, hpost, hσ'⟩ | ⟨_, hoom, _⟩
    · obtain ⟨hsub, B, C, hhigh⟩ := hpost
      have hkeep : ∀ g ∈ σ.kernel.held, g ∉ page → g ∈ σ.kernel.held - (mapped : Multiset ℕ) :=
        fun g => mem_held_sub hsub
      have hstores : Stores s P 0x4000000
            ((createTables (0x4000000 - 4 - (args.sum + envs.sum)) args envs).flatMap
            (fun p => putLong p.1 p.2) ++ zeroFill endData) := by
        apply stores_of_high hhigh (by omega) hP le_rfl
        intro b hb
        rcases List.mem_append.1 hb with hb | hb
        · obtain ⟨p, -, hp⟩ := List.mem_flatMap.1 hb
          obtain ⟨i, v, -, hbv⟩ := mem_puts hp
          exact ⟨_, v, hbv⟩
        · obtain ⟨i, v, -, hbv⟩ := mem_puts hb
          exact ⟨_, v, hbv⟩
      have hplain := fun b hb => (hstores b hb).1.plain
      rw [hσ']
      refine h.alone ht B C.still ?_ ?_ ⟨⟨hfits, le_rfl⟩, fun h0 => absurd h0 hP0, ?_, ?_,
        pending_of_stores hstores, ?_⟩
      · intro g hg hor
        have hnot := hor.resolve_right hP0
        rw [hframes] at hnot
        exact hkeep g hg (fun h => hnot (List.mem_cons_of_mem _ h))
      · intro _ g hg
        rw [frames_of_plain hplain] at hg
        rw [List.mem_singleton.1 hg]
        exact Or.inl (frame_mem_frames t)
      · intro d _ _ _
        show d % 16 < dirCount 0x4000000
        rw [dirCount]
        omega
      · intro _
        rw [frames_of_plain hplain]
        refine ⟨List.nodup_singleton _, ?_⟩
        intro g hg
        rw [List.mem_singleton.1 hg]
        exact hkeep _ (hheld _ (List.mem_cons_self ..)) hnodup.1
      · intro hz'
        exact absurd (hz.symm.trans hz') Bool.noConfusion
    · exact absurd rfl hoom

/-! ### `exit` and `release` -/

theorem Running.exits (r : Running M σ P t .exit rest)
    (hstep : σ.perform P (t.next rest) .exit = some σ') : Keeps M σ P σ' := by
  have hP := r.pos
  have hlim := r.ok.limits
  simp only [Machine.perform] at hstep
  have hspec := freeSegments_spec (t := t.next rest) r.housed.books (by omega) r.lt
    ⟨le_trans hlim.1.2 hlim.2, hlim.2⟩ r.ok.inside
  rcases call_cases hspec hstep with ⟨_, s, hpost, hσ'⟩ | ⟨_, hoom, _⟩
  · obtain ⟨B, C, hempty⟩ := hpost
    rw [hσ']
    refine r.housed.alone r.task B C.still (fun f hf _ => hf) ?_ ⟨hlim, fun h0 => absurd h0 hP,
      fun d hd hs hp => absurd hp (hempty d hd hs), ?_, hempty, ?_⟩
    · intro _ f hf
      rw [List.mem_singleton.1 hf]
      exact Or.inl (frame_mem_frames t)
    · intro _
      refine ⟨List.nodup_singleton _, ?_⟩
      intro f hf
      rw [List.mem_singleton.1 hf]
      exact r.ok.frame_held hP
    · intro hz
      exact absurd (r.not_zombie.symm.trans hz) Bool.noConfusion
  · exact absurd rfl hoom

theorem Slots.exited (h : Housed M σ) (ht : σ.task P = some t) (htodo : t.todo = .exited :: rest)
    (hstep : σ.perform P (t.next rest) .exited = some σ') : Keeps M σ P σ' := by
  have hok := h.ok P t ht
  have hP0 : P ≠ 0 := hok.pos htodo (fun _ h => by cases h)
  have hpending := hok.todo
  rw [htodo] at hpending
  cases rest with
  | cons a rest => exact (hpending _ (List.mem_cons_self ..)).1.elim
  | nil =>
    simp only [Machine.perform] at hstep
    cases hstep
    refine h.alone ht h.books (Still.refl _ _) (fun f hf _ => hf) ?_ ⟨hok.limits,
      fun h0 => absurd h0 hP0, hok.inside, ?_,
      pending_of_stores (fun _ h => absurd h List.not_mem_nil), fun _ => ⟨rfl, rfl, hpending⟩⟩
    · intro _ f hf
      rw [List.mem_singleton.1 hf]
      exact Or.inl (frame_mem_frames t)
    · intro hP
      refine ⟨List.nodup_singleton _, ?_⟩
      intro f hf
      rw [List.mem_singleton.1 hf]
      exact hok.frame_held hP

theorem Running.release (r : Running M σ P t (.release nr) rest)
    (hstep : σ.perform P (t.next rest) (.release nr) = some σ') : Keeps M σ P σ' := by
  have hsame : Keeps M σ P (σ.set P (t.next rest) σ.kernel) :=
    r.keeps (X := nowhere) r.housed.books (Still.refl _ _) (fun _ h => h.elim) rfl
  simp only [Machine.perform] at hstep
  cases hu : σ.task nr with
  | none =>
    simp only [hu] at hstep
    cases hstep
    exact hsame
  | some u =>
    simp only [hu] at hstep
    split at hstep
    · rename_i hz
      have huok := r.housed.ok nr u hu
      have hnr : nr ≠ 0 := by
        intro h0
        exact absurd ((huok.zero h0).2.2.1.symm.trans hz.1) Bool.noConfusion
      have hheld := huok.frame_held hnr
      rcases call_cases (freePage_held r.housed.books hheld) hstep with
        ⟨_, s, hpost, hσ'⟩ | ⟨_, hoom, _⟩
      · obtain ⟨hmem, B⟩ := hpost
        have hcalm : Calm nowhere nowhere σ.kernel.mm s := calm_of_mem hmem
        have hvacate : Housed M (σ.vacate nr ⟨s, σ.kernel.held.erase u.frame⟩) := by
          refine r.housed.vacate (fun _ _ _ h hP => h.held hP) hu hnr (huok.gone hz.1).2.2 hmem B ?_
          intro Q v _ hv hheld
          exact (r.housed.ok Q v hv).others (r.housed.slots Q v hv) hcalm.still (fun _ _ h => h) hheld
        have htask : (σ.vacate nr ⟨s, σ.kernel.held.erase u.frame⟩).task P = some t := by
          rw [vacate_task, if_neg (Ne.symm hz.2)]
          exact r.task
        have r' : Running M (σ.vacate nr ⟨s, σ.kernel.held.erase u.frame⟩) P t (.release nr) rest :=
          ⟨hvacate, htask, r.todo, r.simple, r.pos⟩
        have hset : Keeps M (σ.vacate nr ⟨s, σ.kernel.held.erase u.frame⟩) P
            ((σ.vacate nr ⟨s, σ.kernel.held.erase u.frame⟩).set P (t.next rest)
              ⟨s, σ.kernel.held.erase u.frame⟩) :=
          r'.keeps (X := nowhere) hvacate.books (Still.refl _ _) (fun _ h => h.elim) rfl
        rw [hσ', vacate_set σ hz.2]
        exact ⟨hset.housed, hcalm.still.mono (fun _ h => h.elim)⟩
      · exact hoom.elim
    · cases hstep
      exact hsame

end OldLinux.Process
