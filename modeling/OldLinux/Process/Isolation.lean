import OldLinux.Process.VerifyArea

/-!
# Isolation of address spaces

In every run whose steps are careful, a step of one process changes nothing another process reads.
`sys_pipe` is not careful: it stores into the memory of its caller without `verify_area`.
-/

namespace OldLinux.Process

open Lib Memory

variable {M : MainMemory} {m : ℕ → Page} {F : Files} {refs : ℕ → ℕ} {σ σ' : Machine} {P Q : ℕ}
  {t : Task} {D : ℕ × ℕ → Prop}

/-! ### What a process reads -/

/-- The byte a process reads at the address `a` of its space. -/
def Machine.reads (σ : Machine) (Q a : ℕ) : Byte := byteAt (σ.view Q (a - a % 4096)) (a % 4096)

/-- The address lies in the data segment of the process, and its page is not one of the kernel's own
pages below `LOW_MEM`, which the processes that have not executed a program map. -/
def Machine.OwnByte (σ : Machine) (Q a : ℕ) : Prop :=
  ∃ u, σ.task Q = some u ∧ u.zombie = false ∧ a < u.dataLimit ∧ σ.Own Q (a - a % 4096)

theorem SameView.reads {a : ℕ} (h : SameView σ σ' Q) (hown : σ.OwnByte Q a) : σ'.reads Q a = σ.reads Q a := by
  obtain ⟨_, _, _, _, hown⟩ := hown
  rw [Machine.reads, Machine.reads, h _ hown]

theorem StepOk.others (h : Sound M σ) (hs : StepOk M σ P σ') (hQ : Q ≠ P) {u : Task}
    (hu : σ.task Q = some u) (hlive : u.zombie = false) : SameView σ σ' Q := by
  intro tmp hown
  have hslot : inSlot Q (slotPlace Q tmp) := slotPlace_inSlot hown.2.1
  refine view_of_calm hown.2.2.1 (h.slots Q u hu) hs.calm hown ?_ ?_ (by rw [hu]; exact Option.some_ne_none _)
  · intro hX
    rcases hX with hP | hnone
    · exact hQ (hslot.symm.trans hP)
    · rw [hslot, hu] at hnone
      cases hnone
  · intro v hv
    rw [hu] at hv
    cases hv
    exact ⟨u, hs.tasks Q u hQ hu hlive, by rw [hs.files]⟩

/-- An event that leaves the tasks and the pages alone. -/
theorem sameView_of_calm (h : Sound M σ) {u : Task} (hu : σ.task Q = some u)
    (C : Calm nowhere D σ.kernel.mm σ'.kernel.mm) (htask : σ'.task Q = some u)
    (hfiles : ∀ tmp, u.loaded σ'.files tmp = u.loaded σ.files tmp) : SameView σ σ' Q := by
  intro tmp hown
  refine view_of_calm hown.2.2.1 (h.slots Q u hu) C hown (fun h => h) ?_
    (by rw [hu]; exact Option.some_ne_none _)
  intro v hv
  rw [hu] at hv
  cases hv
  exact ⟨u, htask, hfiles tmp⟩

theorem step_others (h : Sound M σ) {e : Event} (he : σ.Enabled P e) (hc : σ.Careful P e)
    (hstep : σ.step P e = some σ') (hQ : Q ≠ P) {u : Task} (hu : σ.task Q = some u)
    (hlive : u.zombie = false) : SameView σ σ' Q := by
  cases e with
  | start what => exact StepOk.others h (start_ok h what he hstep) hQ hu hlive
  | run => exact StepOk.others h (run_ok h hc hstep) hQ hu hlive
  | files F =>
    cases hstep
    refine sameView_of_calm h hu (Calm.refl nowhere nowhere _) hu ?_
    intro tmp
    rw [Task.loaded, Task.loaded]
    cases hi : u.executable with
    | none => rfl
    | some inode =>
      show (if u.endData ≤ tmp then _ else _) = if u.endData ≤ tmp then _ else _
      rw [(hc inode ⟨Q, u, hu, Or.inl hi⟩).load]
  | refs r =>
    cases hstep
    exact sameView_of_calm h hu (Calm.refl nowhere nowhere _) hu (fun _ => rfl)
  | take =>
    cases hstep
    exact sameView_of_calm h hu (take_ok h).2 hu (fun _ => rfl)
  | give f =>
    cases hstep
    exact sameView_of_calm h hu (give_ok h he).2 hu (fun _ => rfl)

/-- A step of a load: the access itself, or the rest of `do_no_page` for it. -/
def Action.Loads : Action → Prop
  | .load _ => True
  | .finishLoad _ _ => True
  | _ => False

theorem load_sameView (h : Sound M σ) (hc : σ.Careful P .run) (ht : σ.task P = some t)
    {action : Action} {rest : List Action} (htodo : t.todo = action :: rest)
    (hload : action.Loads) (hstep : σ.run P = some σ') : SameView σ σ' P := by
  have haction := hc t action rest ht htodo
  rw [run_eq ht htodo] at hstep
  cases action with
  | load a =>
    have hP := (h.ok P t ht).pos htodo (fun _ h => by cases h)
    exact (load_ok ⟨h, ht, htodo, trivial, hP⟩ haction hstep).2
  | finishLoad f tmp => exact (finishLoad_ok h ht htodo hstep).2
  | _ => exact hload.elim

/-- What `verify_area` leaves for the stores that follow it: each page of the area is absent, or it is the
process's own and nobody else's; or there is no memory for the copies, and the process exits. -/
theorem verify_gives_own (h : Sound M σ) {a size : ℕ} {rest : List Action} (ht : σ.task P = some t)
    (htodo : t.todo = .verify a size :: rest) (h1 : 1 ≤ size) (hfits : size + a % 4096 ≤ INT_MAX)
    (hstep : σ.run P = some σ') : σ'.task P = some (t.next [.exit]) ∨
      ∀ b, a ≤ b → b < a + size → b < t.dataLimit → present (σ'.pte P b) →
        Private σ'.kernel.mm (slotPlace P b) := by
  have hP := h.slots P t ht
  have hP0 := (h.ok P t ht).pos htodo (fun _ h => by cases h)
  have hlim := (h.ok P t ht).limits.2
  simp only [run_eq ht htodo, Machine.perform, verifyArea, verifyCount_fits hfits] at hstep
  have hspec := verifyPages_verified ((size + a % 4096 + 4095) / 4096) h.books
    (show (a - a % 4096 + base P) % 2 ^ 32 < 2 ^ 32 by omega)
  rcases call_cases hspec hstep with ⟨_, s, ⟨B, V⟩, hσ'⟩ | ⟨s, -, hσ'⟩
  · refine Or.inr fun b hab hb hlt hpres => ?_
    rw [hσ'] at hpres ⊢
    have hp : slotPlace P b ∈ places := slotPlace_mem (by omega) hP (by omega)
    exact private_of_writable B hp hpres
      ((V.congr (inArea_iff h1)).opened _ hp (inArea_slotPlace hP hlim hab hb hlt) hpres)
  · rw [hσ', set_task, if_pos rfl]
    exact Or.inl rfl

/-! ### A run that shares a page copy on write -/

/-- **A page shared copy on write**: task 0 forks task 1, which stores into one of its pages, forks
task 2 and then starts `what`. -/
theorem copy_on_write_run (F : Files) (what : Activity) : ∃ σ t u, Run16 F Machine.Careful σ ∧
    Roomy sixteenMegabytes σ 3 ∧
    (σ.task 1 = some t ∧ t.todo = what.actions ∧ t.dataLimit = 0xA0000) ∧
    (σ.task 2 = some u ∧ u.zombie = false ∧ u.dataLimit = 0xA0000) ∧
    present (σ.pte 1 0x10000) ∧ present (σ.pte 2 0x10000) ∧
    frameOf (σ.pte 2 0x10000) = frameOf (σ.pte 1 0x10000) ∧ 256 ≤ frameOf (σ.pte 1 0x10000) ∧
    byteAt (σ.kernel.mm.mem (frameOf (σ.pte 1 0x10000))) 0 = 1 := by
  have hlo : sixteenMegabytes.lo = 1024 := rfl
  have hhi : sixteenMegabytes.hi = 4096 := rfl
  have hdir : dirIndex 0x10000 < dirCount 0xA0000 := by
    rw [dirIndex, dirCount]
    omega
  -- task 0 forks task 1
  have h0 : Run16 F Machine.Careful (Machine.boot sixteenMegabytes (fun _ _ => 0) F (fun _ => 0)) :=
    Run.boot
  have R0 : Roomy sixteenMegabytes (Machine.boot sixteenMegabytes (fun _ _ => 0) F (fun _ => 0)) 0 := by
    refine ⟨⟨∅, le_rfl, ?_⟩, le_rfl, by omega⟩
    intro q hq hp
    exact absurd hp (fun hp => boot_absent _ _ (directory_of_places hq) (dir_of_pte hp))
  obtain ⟨f1, s1, C1, h1, R1⟩ := h0.forks R0 1 (boot_task _ _ _ _ 0) rfl rfl le_rfl
    (by omega) (by omega) rfl (by omega)
  -- task 1 stores a byte
  have hp1 : present (s1.pte (slotPlace 1 0x10000)) :=
    present_of_boot (by omega) (by omega) (by omega) C1
  obtain ⟨s2, W, hhigh, h2, R2⟩ := h1.stores R1 0x10000 1 forked_child rfl rfl (by omega)
    (show 0x10000 < 0xA0000 by omega) hp1 (by omega)
  -- task 1 forks task 2
  obtain ⟨f3, s3, C3, h3, R3⟩ := h2.forks R2 2 (set_task _ 1 _ _ 1) rfl rfl le_rfl
    (by omega) (by omega) (by rw [set_task, if_neg (by omega), forked_other (by omega) (by omega)]; rfl)
    (by omega)
  have C3' : Copied True 1 2 (fun d => d < dirCount 0xA0000) s2 s3 := C3
  obtain ⟨hsrc, hdst, hkeep⟩ := fork_shares (by omega) (by omega) (by omega) (by omega) (by omega)
    hdir C3' W.there hhigh
  have hframe : frameOf (s3.pte (slotPlace 1 0x10000)) = frameOf (s2.pte (slotPlace 1 0x10000)) := by
    rcases hsrc with h | h
    · rw [h]
    · rw [h, frameOf_readOnly]
  have hpres : present (s3.pte (slotPlace 1 0x10000)) := by
    rcases hsrc with h | h
    · rw [h]
      exact W.there
    · rw [h]
      exact (present_readOnly _).2 W.there
  have h4 := h3.start what (forked_parent (by omega)) rfl rfl (fun h0 => by omega)
  refine ⟨_, _, _, h4, ⟨R3.few, R3.held, R3.room⟩, ⟨set_task _ 1 _ _ 1, rfl, rfl⟩,
    ⟨by rw [set_task, if_neg (by omega)]; exact forked_child, rfl, rfl⟩, hpres, ?_, ?_, ?_, ?_⟩
  · show present (s3.pte (slotPlace 2 0x10000))
    rw [hdst]
    exact (present_readOnly _).2 W.there
  · show frameOf (s3.pte (slotPlace 2 0x10000)) = frameOf (s3.pte (slotPlace 1 0x10000))
    rw [hdst, frameOf_readOnly, hframe]
  · show 256 ≤ frameOf (s3.pte (slotPlace 1 0x10000))
    rw [hframe]
    exact hhigh
  · show byteAt (s3.mem (frameOf (s3.pte (slotPlace 1 0x10000)))) 0 = 1
    rw [hframe, hkeep, W.contents, byteAt_setByte, if_pos (by omega)]

/-! ### Isolation, and how `pipe` breaks it -/

/-- **Isolation.**  In every run whose steps are careful, a careful step of one process changes no
byte another process reads in its space, a process that loads a byte changes none of its own, and
`verify_area` leaves no page of its area that somebody else has. -/
theorem address_spaces_isolated (h : Run M m F refs Machine.Careful σ) {e : Event}
    (he : σ.Enabled P e) (hc : σ.Careful P e) (hstep : σ.step P e = some σ') :
    (∀ Q a, Q ≠ P → σ.OwnByte Q a → σ'.reads Q a = σ.reads Q a) ∧
    (e = .run → ∀ t action rest, σ.task P = some t → t.todo = action :: rest → action.Loads →
      ∀ a, σ.OwnByte P a → σ'.reads P a = σ.reads P a) ∧
    (e = .run → ∀ t a size rest, σ.task P = some t → t.todo = .verify a (size : ℕ) :: rest → 1 ≤ size →
      size + a % 4096 ≤ INT_MAX → σ'.task P = some (t.next [.exit]) ∨
        ∀ b, a ≤ b → b < a + size → b < t.dataLimit → present (σ'.pte P b) →
          Private σ'.kernel.mm (slotPlace P b)) := by
  have hsound := h.sound
  refine ⟨fun Q a hQ hown => ?_, fun hrun t action rest ht htodo hload a hown => ?_,
    fun hrun t a size rest ht htodo h1 hfits => ?_⟩
  · obtain ⟨u, hu, hlive, -⟩ := id hown
    exact (step_others hsound he hc hstep hQ hu hlive).reads hown
  · subst hrun
    exact (load_sameView hsound hc ht htodo hload hstep).reads hown
  · subst hrun
    exact verify_gives_own hsound ht htodo h1 hfits hstep

theorem reads_of_present {a : ℕ} (halign : a % 4096 = 0) (hp : present (σ.pte Q a)) :
    σ.reads Q a = byteAt (σ.kernel.mm.mem (frameOf (σ.pte Q a))) 0 := by
  rw [Machine.reads, halign, Nat.sub_zero, Machine.view, if_pos hp]

theorem ownByte_of_present {a : ℕ} {u : Task} (hu : σ.task Q = some u) (hz : u.zombie = false)
    (ha : a < u.dataLimit) (hle : u.dataLimit ≤ 0x4000000) (halign : a % 4096 = 0) (hQ : 0 < Q)
    (hf : 256 ≤ frameOf (σ.pte Q a)) : σ.OwnByte Q a := by
  refine ⟨u, hu, hz, ha, by omega, by omega, hQ, ?_⟩
  intro _
  rw [halign, Nat.sub_zero]
  exact hf

/-- Task 1 stores into the page it shares with task 2, which goes on reading what it read. -/
theorem address_spaces_isolated_store :
    ∃ σ σ', Run16 noFiles Machine.Careful σ ∧ σ.step 1 .run = some σ' ∧ σ.OwnByte 2 0x10000 ∧
      σ.reads 2 0x10000 = 1 ∧ σ'.reads 2 0x10000 = σ.reads 2 0x10000 := by
  obtain ⟨σ, t, u, h, R, ⟨ht, htodo, hlim⟩, ⟨hu, hz, hulim⟩, hp1, hp2, hfr, hf, hbyte⟩ :=
    copy_on_write_run noFiles (.store 0x10000 2)
  obtain ⟨s, -, -, hrun⟩ := store_done ⟨h.sound, ht, htodo, trivial, by omega⟩ R (by omega) hp1
  have hown : σ.OwnByte 2 0x10000 := ownByte_of_present hu hz (by omega) (by omega) (by omega)
    (by omega) (by rw [hfr]; exact hf)
  have hc : σ.Careful 1 .run := by
    intro t' action rest ht' htodo'
    rw [ht] at ht'
    cases ht'
    rw [htodo] at htodo'
    cases htodo'
    exact fun habs => absurd hp1 habs
  refine ⟨σ, _, h, hrun, hown, ?_, (address_spaces_isolated (e := .run) h trivial hc hrun).1 2 0x10000
    (by omega) hown⟩
  rw [reads_of_present (by omega) hp2, hfr]
  exact hbyte

/-- `sys_pipe` stores the descriptors without `verify_area`: task 1 calls `pipe` with the address of
a page it shares with task 2, and what task 2 reads there changes. -/
theorem pipe_breaks_isolation : ¬∀ σ σ' P e Q a, Run16 noFiles (fun _ _ _ => True) σ → σ.Enabled P e →
      σ.step P e = some σ' → Q ≠ P → σ.OwnByte Q a → σ'.reads Q a = σ.reads Q a := by
  intro hall
  obtain ⟨σ, t, u, h, -, ⟨ht, htodo, hlim⟩, ⟨hu, hz, hulim⟩, hp1, hp2, hfr, hf, hbyte⟩ :=
    copy_on_write_run noFiles (.pipe 0x10000 2 3)
  obtain ⟨rest, hrest⟩ : ∃ rest, (Activity.pipe 0x10000 2 3).actions = .put 0x10000 2 :: rest :=
    ⟨_, rfl⟩
  rw [hrest] at htodo
  have hplace : placeOf (base 1 + 0x10000) = slotPlace 1 0x10000 :=
    placeOf_base (by omega) (by omega)
  have hmem : ∀ Q, 0 < Q → Q < 64 → slotPlace Q 0x10000 ∈ places := fun Q h0 h1 =>
    slotPlace_mem h0 h1 (by omega)
  have hp' : placeOf (base 1 + 0x10000) ∈ places := by
    rw [hplace]
    exact hmem 1 (by omega) (by omega)
  have hpoke := poke_writes h.sound.books hp' (by rw [hplace]; exact hp1) (by rw [hplace]; exact hf) 2
  rw [hplace] at hpoke
  obtain ⟨_, s, ⟨hpte, hcont⟩, hcall⟩ := call_done hpoke
  have hrun : σ.step 1 .run = some (σ.set 1 (t.next rest) ⟨s, σ.kernel.held⟩) := by
    have hlim' : ¬(t.next rest).dataLimit ≤ 0x10000 := by
      show ¬t.dataLimit ≤ 0x10000
      omega
    rw [Machine.step, run_eq ht htodo, Machine.perform, if_neg hlim', if_pos hp1]
    exact hcall _ _ _
  have hown : σ.OwnByte 2 0x10000 := ownByte_of_present hu hz (by omega) (by omega) (by omega)
    (by omega) (by rw [hfr]; exact hf)
  have hsame := hall _ _ 1 .run 2 0x10000 (h.mono (fun _ _ _ _ => trivial)) trivial hrun
    (by omega) hown
  have hpte2 : (σ.set 1 (t.next rest) ⟨s, σ.kernel.held⟩).pte 2 0x10000 = σ.pte 2 0x10000 := by
    show s.pte (slotPlace 2 0x10000) = _
    rw [hpte _ (hmem 2 (by omega) (by omega)), if_neg]
    · rfl
    · intro heq
      have := congrArg Prod.fst heq
      rw [slotPlace, slotPlace, dirIndex] at this
      omega
  rw [reads_of_present (by omega) hp2,
    reads_of_present (by omega) (by rw [hpte2]; exact hp2), hpte2, hfr, hbyte] at hsame
  have hnew : byteAt (s.mem (frameOf (σ.pte 1 0x10000))) 0 = 2 := by
    have hcont' : s.mem (frameOf (σ.pte 1 0x10000)) =
        setByte (σ.kernel.mm.mem (frameOf (σ.pte 1 0x10000))) ((base 1 + 0x10000) % 4096) 2 := hcont
    rw [hcont', byteAt_setByte, if_pos]
    rw [base]
  exact absurd (hnew.symm.trans hsame) (by decide)

end OldLinux.Process
