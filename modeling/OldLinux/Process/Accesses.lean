import OldLinux.Process.Steps

/-!
# Loads and stores

The steps that touch the memory of a process: loads and stores in user mode, stores of the kernel,
`verify_area`, and the rest of `do_no_page`.
-/

namespace OldLinux.Process

open Lib Memory

variable {M : MainMemory} {σ σ' : Machine} {k' : Kernel} {P : ℕ} {t : Task} {D : ℕ × ℕ → Prop}
  {action : Action} {rest : List Action}

theorem next_next (t : Task) (l l' : List Action) : (t.next l).next l' = t.next l' := rfl

theorem next_self (htodo : t.todo = action :: rest) : t.next (action :: rest) = t := by
  rw [Task.next, ← htodo]

/-- A plain step of a task other than task 0 that has more to do. -/
structure Busy (M : MainMemory) (σ : Machine) (P : ℕ) (t : Task) (action : Action)
    (rest : List Action) : Prop where
  sound : Sound M σ
  task : σ.task P = some t
  todo : t.todo = action :: rest
  plain : action.Plain
  pos : P ≠ 0

section

variable (b : Busy M σ P t action rest)

include b

theorem Busy.ok : TaskOk σ.files σ.kernel P t := b.sound.ok P t b.task

theorem Busy.lt : P < 64 := b.sound.slots P t b.task

theorem Busy.plains : ∀ a ∈ t.todo, a.Plain := b.ok.plain b.todo b.plain

theorem Busy.rest_plain : ∀ a ∈ rest, a.Plain := by
  intro a ha
  refine b.plains a ?_
  rw [b.todo]
  exact List.mem_cons_of_mem _ ha

theorem Busy.not_switching : ¬t.Switching := not_switching_of_plain b.plains

theorem Busy.not_zombie : t.zombie = false := b.ok.not_zombie b.todo

theorem Busy.held : t.frame ∈ σ.kernel.held := (b.ok.frames b.pos).2 _ (frame_mem_frames t)

theorem Busy.next_ok : TaskOk σ.files σ.kernel P (t.next rest) :=
  b.ok.next b.not_switching b.rest_plain (fun h => absurd h b.pos) b.not_zombie

theorem Busy.next_frames : (t.next rest).frames = [t.frame] :=
  frames_of_plain (t := t.next rest) b.rest_plain

/-- The step leaves the frames in the kernel's hands as they are. -/
theorem Busy.keep (C : Calm (inSlot P) D σ.kernel.mm k'.mm) (B : Books True M k'.mm k'.held)
    (hD : ∀ Q u, Q ≠ P → σ.task Q = some u → ∀ q, inSlot Q q → D q → ¬u.Shareable q)
    (hheld : ∀ f ∈ σ.kernel.held, f ∈ k'.held) (hok : TaskOk σ.files k' P (t.next rest)) :
    StepOk M σ P (σ.set P (t.next rest) k') := by
  refine stepOk_set b.sound b.task B C hD (fun f hf _ => hheld f hf) ?_ hok
  intro _ f hf
  rw [b.next_frames] at hf
  rw [List.mem_singleton.1 hf]
  exact Or.inl (frame_mem_frames t)

/-- The step changes nothing any process reads. -/
theorem Busy.still (C : Calm nowhere D σ.kernel.mm k'.mm) (B : Books True M k'.mm k'.held)
    (hD : ∀ Q u, σ.task Q = some u → ∀ q, inSlot Q q → D q → ¬u.Shareable q)
    (hheld : k'.held = σ.kernel.held) :
    StepOk M σ P (σ.set P (t.next rest) k') ∧ SameView σ (σ.set P (t.next rest) k') P := by
  refine ⟨b.keep (C.mono (fun _ h => h.elim) (fun _ h => h)) B (fun Q u _ => hD Q u) ?_ ?_,
    set_sameView (by have := b.pos; omega) b.lt b.task rfl rfl C⟩
  · intro f hf
    rw [hheld]
    exact hf
  · refine b.next_ok.others b.lt C (fun _ _ h => h) ?_ ?_
    · intro q hq hd hshare
      exact hD P t b.task q hq hd ⟨hshare.1, b.not_switching, hshare.2.2⟩
    · intro _ f hf
      rw [b.next_frames] at hf
      rw [hheld, List.mem_singleton.1 hf]
      exact b.held

/-- An access past the limit of the segment. -/
theorem Busy.exit : StepOk M σ P (σ.set P (t.next [.exit]) σ.kernel) ∧
    SameView σ (σ.set P (t.next [.exit]) σ.kernel) P :=
  exit_ok b.sound b.task b.pos b.not_switching b.not_zombie b.sound.books
    (Calm.refl nowhere nowhere _) (fun _ _ _ _ _ h => h.elim) (fun _ hf _ => hf)

end

/-- The byte at `a` of the slot has been stored into. -/
structure Dirtied (M : MainMemory) (σ : Machine) (P a : ℕ) (v : Byte) (s : Mm) : Prop where
  books : Books True M s σ.kernel.held
  calm : Calm (fun q => q = slotPlace P a) nowhere σ.kernel.mm s
  there : present (s.pte (slotPlace P a))
  dirty : dirty (s.pte (slotPlace P a))
  contents : s.mem (frameOf (s.pte (slotPlace P a))) = setByte
    (σ.kernel.mm.mem (frameOf (σ.pte P a))) (a % 4096) v
  pte : ∃ e, ∀ q ∈ places, s.pte q = if q = slotPlace P a then e else σ.kernel.mm.pte q
  high : 256 ≤ frameOf (s.pte (slotPlace P a)) ∨ frameOf (s.pte (slotPlace P a)) = frameOf (σ.pte P a)

theorem Dirtied.ok {a : ℕ} {v : Byte} {s : Mm} (W : Dirtied M σ P a v s) (b : Busy M σ P t action rest)
    (ha : a < t.dataLimit) (hpres : present (σ.pte P a)) :
    StepOk M σ P (σ.set P (t.next rest) ⟨s, σ.kernel.held⟩) := by
  have hlim := b.ok.limits.2
  have hP := b.pos
  have hp : slotPlace P a ∈ places := slotPlace_mem (by omega) b.lt (by omega)
  refine b.keep (W.calm.mono (fun q hq => by rw [hq]; exact slotPlace_inSlot (by omega))
    (fun _ h => h)) W.books not_clash_nowhere (fun _ hf => hf) ?_
  refine b.next_ok.touch b.rest_plain b.not_zombie W.calm (fun _ _ h => h.elim)
    (slotPlace_inside ha hlim) ?_ (fun _ => b.held)
  intro inode hi _
  obtain ⟨-, -, hcl⟩ := b.ok.clean inode hi b.not_switching
  have hold := (hcl _ hp (slotPlace_inSlot (by omega)) hpres).1
  refine ⟨?_, fun _ hnd => absurd W.dirty hnd⟩
  rcases W.high with h | h
  · exact h
  · rw [h]
    exact hold

/-! ### Loads -/

theorem load_ok {a : ℕ} (b : Busy M σ P t (.load a) rest) (hc : σ.CarefulAction P t (.load a))
    (hstep : σ.perform P (t.next rest) (.load a) = some σ') :
    StepOk M σ P σ' ∧ SameView σ σ' P := by
  simp only [Machine.perform] at hstep
  split at hstep
  · cases hstep
    exact b.exit
  · rename_i hlim
    split at hstep
    · cases hstep
      exact b.still (Calm.refl nowhere nowhere _) b.sound.books (fun _ _ _ _ _ h => h.elim) rfl
    · rename_i habs
      rw [next_next, show (t.next rest).todo = rest from rfl, next_self b.todo] at hstep
      exact doNoPage_ok b.sound b.task b.pos b.plains b.not_zombie (not_le.1 hlim) habs hc hstep

/-! ### Stores -/

theorem poke_dirtied {a : ℕ} {v : Byte} (b : Busy M σ P t action rest) (ha : a < t.dataLimit)
    (hpres : present (σ.pte P a))
    (hpriv : Private σ.kernel.mm (slotPlace P a) ∨
      byteAt (σ.kernel.mm.mem (frameOf (σ.pte P a))) (a % 4096) = v) :
    wp (poke (base P + a) v) (fun _ s => Dirtied M σ P a v s) (fun _ _ => False) σ.kernel.mm := by
  have hlim := b.ok.limits.2
  have hP := b.pos
  have hplace := placeOf_base b.lt (show a < 0x4000000 by omega)
  have hp : slotPlace P a ∈ places := slotPlace_mem (by omega) b.lt (by omega)
  have hmod : (base P + a) % 4096 = a % 4096 := by
    rw [base]
    omega
  have hp' : placeOf (base P + a) ∈ places := by
    rw [hplace]
    exact hp
  have hspec := poke_spec (b := v) b.sound.books hp' (by rw [hplace]; exact hpres)
    (by rw [hplace, hmod]; exact hpriv)
  rw [hplace] at hspec
  apply wp_mono hspec _ (fun _ _ h => h)
  intro _ s W
  have hpte := W.pte _ hp
  rw [if_pos rfl] at hpte
  refine ⟨W.books, W.calm, ?_, ?_, ?_, ⟨_, W.pte⟩, ?_⟩
  · rw [hpte]
    exact (present_withDirty _).2 hpres
  · rw [hpte]
    exact dirty_withDirty _
  · rw [hpte, frameOf_withDirty, W.contents, hmod]
    rfl
  · rw [hpte, frameOf_withDirty]
    exact Or.inr rfl

/-- A store into a read-only page: `do_wp_page`, and the store again. -/
theorem wpPoke_dirtied {a : ℕ} {v : Byte} (b : Busy M σ P t action rest) (ha : a < t.dataLimit)
    (hpres : present (σ.pte P a)) :
    wp (do doWpPage (base P + a); poke (base P + a) v)
      (fun _ s => Dirtied M σ P a v s ∧ 256 ≤ frameOf (s.pte (slotPlace P a)))
      (fun _ s => s = σ.kernel.mm) σ.kernel.mm := by
  have hlim := b.ok.limits.2
  have hP := b.pos
  have B := b.sound.books
  have hplace := placeOf_base b.lt (show a < 0x4000000 by omega)
  have hp : slotPlace P a ∈ places := slotPlace_mem (by omega) b.lt (by omega)
  have hp' : placeOf (base P + a) ∈ places := by
    rw [hplace]
    exact hp
  have hun := doWpPage_books B hp' (by rw [hplace]; exact hpres)
  rw [hplace] at hun
  rw [wp_bind]
  apply wp_mono hun _ (fun _ _ h => h)
  intro _ s1 U
  have hpriv : present (s1.pte (slotPlace P a)) ∧ Private s1 (slotPlace P a) := by
    rcases U.entry with ⟨hf, _, he⟩ | ⟨_, f, hf, he⟩
    · refine ⟨by rw [he]; exact (present_withWrite _).2 hpres, ?_, U.single⟩
      rw [he, frameOf_withWrite]
      exact hf
    · have hlt := hf.lt
      refine ⟨by rw [he]; exact present_userEntry _, ?_, U.single⟩
      rw [he, frameOf_userEntry_frame (by omega)]
      exact hf.lowMem_le
  have hpoke := poke_spec (b := v) U.changed.books hp'
    (by rw [hplace]; exact hpriv.1) (Or.inl (by rw [hplace]; exact hpriv.2))
  rw [hplace] at hpoke
  apply wp_mono hpoke _ (fun _ _ h => h.elim)
  intro _ s W
  have hpte := W.pte _ hp
  rw [if_pos rfl] at hpte
  have hmod : (base P + a) % 4096 = a % 4096 := by
    rw [base]
    omega
  have hhigh : 256 ≤ frameOf (s.pte (slotPlace P a)) := by
    rw [hpte, frameOf_withDirty]
    exact hpriv.2.1
  refine ⟨⟨W.books, (Changed.calm B U.changed).trans W.calm, ?_, ?_, ?_,
    ⟨withDirty (s1.pte (slotPlace P a)), ?_⟩, Or.inl hhigh⟩, hhigh⟩
  · rw [hpte]
    exact (present_withDirty _).2 hpriv.1
  · rw [hpte]
    exact dirty_withDirty _
  · rw [hpte, frameOf_withDirty, W.contents, U.contents trivial, hmod]
    rfl
  · intro q hq
    rw [W.pte q hq]
    by_cases hqp : q = slotPlace P a
    · rw [if_pos hqp, if_pos hqp]
    · rw [if_neg hqp, if_neg hqp, U.changed.pte q hq, if_neg hqp]

theorem store_ok {a : ℕ} {v : Byte} (b : Busy M σ P t (.store a v) rest) (hc : σ.CarefulAction P t (.store a v))
    (hstep : σ.perform P (t.next rest) (.store a v) = some σ') : StepOk M σ P σ' := by
  have hP := b.pos
  simp only [Machine.perform] at hstep
  split at hstep
  · cases hstep
    exact b.exit.1
  · rename_i hlim
    have ha : a < t.dataLimit := not_le.1 hlim
    have hle := b.ok.limits.2
    split at hstep
    · rename_i hpres
      split at hstep
      · rename_i hw
        have hp : slotPlace P a ∈ places := slotPlace_mem (by omega) b.lt (by omega)
        have hpriv := private_of_writable b.sound.books hp hpres hw
        rcases call_cases (poke_dirtied b ha hpres (Or.inl hpriv)) hstep with ⟨_, s, W, hσ'⟩ | ⟨_, h, _⟩
        · rw [hσ']
          exact W.ok b ha hpres
        · exact h.elim
      · rcases call_cases (wpPoke_dirtied b ha hpres) hstep with ⟨_, s, W, hσ'⟩ | ⟨s, hs, hσ'⟩
        · rw [hσ']
          exact W.1.ok b ha hpres
        · rw [hσ', hs]
          exact b.exit.1
    · rename_i habs
      rw [next_next, show (t.next rest).todo = rest from rfl, next_self b.todo] at hstep
      exact (doNoPage_ok b.sound b.task b.pos b.plains b.not_zombie ha habs hc hstep).1

theorem put_ok {a : ℕ} {v : Byte} (b : Busy M σ P t (.put a v) rest) (hc : σ.CarefulAction P t (.put a v))
    (hstep : σ.perform P (t.next rest) (.put a v) = some σ') : StepOk M σ P σ' := by
  simp only [Machine.perform] at hstep
  split at hstep
  · cases hstep
    exact b.exit.1
  · rename_i hlim
    have ha : a < t.dataLimit := not_le.1 hlim
    split at hstep
    · rename_i hpres
      rcases call_cases (poke_dirtied b ha hpres (hc.2 hpres)) hstep with ⟨_, s, W, hσ'⟩ | ⟨_, h, _⟩
      · rw [hσ']
        exact W.ok b ha hpres
      · exact h.elim
    · rename_i habs
      rw [next_next, show (t.next rest).todo = rest from rfl, next_self b.todo] at hstep
      exact (doNoPage_ok b.sound b.task b.pos b.plains b.not_zombie ha habs hc.1 hstep).1

/-! ### `verify_area` -/

theorem verify_ok {a : ℕ} {size : ℤ} (b : Busy M σ P t (.verify a size) rest)
    (hc : σ.CarefulAction P t (.verify a size))
    (hstep : σ.perform P (t.next rest) (.verify a size) = some σ') : StepOk M σ P σ' := by
  simp only [Machine.perform] at hstep
  have hspec := verifyPages_spec (D := fun q => q ∈ places ∧ ∀ u, σ.task (q.1 / 16) = some u → ¬u.Shareable q)
    (verifyCount a size) b.sound.books
    (show (a - a % 4096 + base P) % 2 ^ 32 < 2 ^ 32 by omega)
    (fun i hi q hq hqa hl => ⟨hq, hc i hi q hq hqa hl⟩)
  have hD : ∀ Q u, σ.task Q = some u → ∀ q, inSlot Q q →
      (q ∈ places ∧ ∀ u, σ.task (q.1 / 16) = some u → ¬u.Shareable q) → ¬u.Shareable q := by
    intro Q u hu q hq hd
    refine hd.2 u ?_
    rw [hq]
    exact hu
  rcases call_cases hspec hstep with ⟨_, s, ⟨B, C⟩, hσ'⟩ | ⟨s, ⟨B, C⟩, hσ'⟩
  · rw [hσ']
    exact And.left (b.still C B hD rfl)
  · rw [hσ']
    have hexit : StepOk M σ P (σ.set P (t.next [.exit]) ⟨s, σ.kernel.held⟩) :=
      And.left (exit_ok b.sound b.task b.pos b.not_switching b.not_zombie B C hD (fun _ hf _ => hf))
    exact hexit

/-! ### The rest of `do_no_page` -/

/-- A held frame is filled, and mapped at `a` or given back. -/
theorem finishPage_spec {s : Mm} {held : Multiset ℕ} (B : Books True M s held) (hP0 : 0 < P)
    (hP : P < 64) {a f : ℕ} (ha : a < 0x4000000) (habs : ¬present (s.pte (slotPlace P a)))
    (hf : f ∈ held) (contents : Page) :
    wp (finishPage f (base P + a) contents) (fun _ s' => Mapped M (held.erase f) (slotPlace P a) contents s s')
      (fun e s' => e = .oom → Books True M s' (held.erase f) ∧ Calm nowhere nowhere s s') s := by
  have hdata := B.data_of_held hf
  have hge := hdata.1
  have hlt := (B.ledger.heldIn f hf).lt
  have hp := slotPlace_mem hP0 hP ha
  have hplace := placeOf_base hP ha
  rw [finishPage, wp_bind, wp_modify]
  have B1 := B.content (by omega) hdata.2.1 contents
  have hpte : ∀ q ∈ places, (s.storePage f contents).pte q = s.pte q := fun q hq =>
    pte_storePage (by omega) hdata.2.1 contents hq
  have C1 : ∀ D, Calm nowhere D s (s.storePage f contents) := by
    intro D
    apply calm_of_entries (fun q hq _ => Or.inl (hpte q hq))
    · intro q hq _ hpq _
      apply storePage_mem_of_ne
      intro h
      exact (B.tableRefs_of_maps trivial hq (maps_iff_pte.2 ⟨hpq, h⟩)).2 hf
    · intro d _
      rw [storePage_mem_of_ne _ (by omega)]
  have hp' : placeOf (base P + a) ∈ places := by
    rw [hplace]
    exact hp
  have hput := putPage_books B1 hp' (by rw [hplace, hpte _ hp]; exact habs) hf
  rw [wp_bind]
  apply wp_mono hput _ (fun _ _ h => h.elim)
  intro r s2 h
  rw [wp_ite]
  rcases h with ⟨hr, hs2⟩ | ⟨hr, W⟩
  · refine ⟨fun _ => ?_, fun h => absurd hr h⟩
    rw [hs2, wp_bind]
    apply wp_mono (freePage_held B1 hf) _ (fun _ _ h => h.elim)
    intro _ s3 h3 _
    exact ⟨h3.2, (C1 _).trans (calm_of_mem h3.1)⟩
  · refine ⟨fun h => by omega, fun _ => ?_⟩
    rw [hplace] at W
    have hp2 := W.pte _ hp
    rw [if_pos rfl] at hp2
    have hfr : frameOf (s2.pte (slotPlace P a)) = f := by
      rw [hp2]
      exact frameOf_userEntry_frame (by omega)
    refine ⟨W.books, ?_, ?_, ?_, ?_⟩
    · exact ((C1 nowhere).mono (fun _ h => h.elim) (fun _ h => h)).trans (Changed.calm B1 W)
    · rw [hp2]
      exact present_userEntry _
    · rw [hfr]
      exact hge
    · rw [hfr, W.kept f (B1.data_of_held hf)]
      exact storePage_mem_self _ _ _

theorem finishLoad_ok {f tmp : ℕ} (h : Sound M σ) (ht : σ.task P = some t)
    (htodo : t.todo = .finishLoad f tmp :: rest)
    (hstep : σ.perform P (t.next rest) (.finishLoad f tmp) = some σ') :
    StepOk M σ P σ' ∧ SameView σ σ' P := by
  have hok := h.ok P t ht
  have hP := h.slots P t ht
  have hP0 : P ≠ 0 := hok.pos htodo (fun _ h => by cases h)
  have hz := hok.not_zombie htodo
  have htodoOk := hok.todo
  rw [htodo] at htodoOk
  obtain ⟨hrest, halign, hlim, hexe, hend, habs⟩ := htodoOk
  have hle := hok.limits.2
  have hframes : t.frames = [t.frame, f] := by rw [Task.frames, htodo]
  obtain ⟨hfheld, hkeep⟩ := loading_frames hframes (hok.frames hP0)
  have hframe := hkeep _ ((hok.frames hP0).2 _ (frame_mem_frames t)) (.inl rfl)
  have hsw : ¬t.Switching := by
    intro hs
    obtain ⟨_, _, _, _, _, hs⟩ := hs
    rw [htodo] at hs
    cases hs
  have hnext := hok.next hsw hrest (fun h0 => absurd h0 hP0) hz
  have hrel : ∀ g ∈ σ.kernel.held, g ∉ t.frames ∨ P = 0 → g ∈ σ.kernel.held.erase f :=
    fun g hg hor => hkeep g hg (.inr (hor.resolve_right hP0))
  have hacq : ∀ l : List Action, (∀ b ∈ l, b.Plain) → P ≠ 0 → ∀ g ∈ (t.next l).frames,
      g ∈ t.frames ∨ g ∉ σ.kernel.held := by
    intro l hl _ g hg
    rw [frames_of_plain (t := t.next l) hl] at hg
    rw [List.mem_singleton.1 hg]
    exact Or.inl (frame_mem_frames t)
  obtain ⟨inode, hi⟩ := Option.ne_none_iff_exists'.1 hexe
  have hnexti : (t.next rest).executable = some inode := hi
  have hcontents : t.loaded σ.files (tmp - tmp % 4096) = σ.files.load inode t.endData tmp := by
    rw [Task.loaded, halign, Nat.sub_zero, hi]
    exact if_neg (by omega)
  simp only [Machine.perform, hnexti] at hstep
  rw [show (t.next rest).endData = t.endData from rfl, ← hcontents] at hstep
  have hspec := finishPage_spec h.books (by omega) hP (show tmp < 0x4000000 by omega) habs hfheld
    (t.loaded σ.files (tmp - tmp % 4096))
  have hspec' : wp (finishPage f (base P + tmp) (t.loaded σ.files (tmp - tmp % 4096)))
      (fun _ s' => Mapped M (σ.kernel.held.erase f) (slotPlace P tmp)
        (t.loaded σ.files (tmp - tmp % 4096)) σ.kernel.mm s')
      (fun e s' => e = .oom → Books True M s' (σ.kernel.held.erase f) ∧
        Calm nowhere nowhere σ.kernel.mm s')
      ({ σ with kernel := ⟨σ.kernel.mm, σ.kernel.held.erase f⟩ } : Machine).kernel.mm := hspec
  rcases call_cases hspec' hstep with ⟨_, s, W, hσ'⟩ | ⟨s, hoom, hσ'⟩
  · have hok' : TaskOk σ.files ⟨s, σ.kernel.held.erase f⟩ P (t.next rest) := by
      refine hnext.touch hrest hz W.calm (fun _ _ h => h.elim) (slotPlace_inside hlim hle) ?_
        (fun _ => hframe)
      intro inode' hi' _
      rw [hnexti] at hi'
      cases hi'
      refine ⟨W.high, ?_⟩
      intro hlt _
      rw [W.holds, hcontents, offset_page (by omega), halign, Nat.sub_zero]
      rfl
    have hstepOk : StepOk M σ P (σ.set P (t.next rest) ⟨s, σ.kernel.held.erase f⟩) :=
      stepOk_set h ht W.books (W.calm.mono
        (fun q hq => by rw [hq]; exact slotPlace_inSlot (by omega)) (fun _ h => h))
        not_clash_nowhere hrel (hacq rest hrest) hok'
    have hview : SameView σ (σ.set P (t.next rest) ⟨s, σ.kernel.held.erase f⟩) P :=
      mapped_sameView (by omega) hP ht rfl rfl (by omega) habs W
    rw [hσ']
    exact ⟨hstepOk, hview⟩
  · obtain ⟨B, C⟩ := hoom rfl
    have hexit : StepOk M σ P (σ.set P (t.next [.exit]) ⟨s, σ.kernel.held.erase f⟩) ∧
        SameView σ (σ.set P (t.next [.exit]) ⟨s, σ.kernel.held.erase f⟩) P := by
      refine exit_ok h ht hP0 hsw hz B C (fun _ _ _ _ _ h => h.elim) ?_
      intro g hg hor
      rcases hor with heq | hnot
      · rw [heq]
        exact hframe
      · exact hrel g hg (Or.inl hnot)
    rw [hσ']
    exact hexit

end OldLinux.Process
