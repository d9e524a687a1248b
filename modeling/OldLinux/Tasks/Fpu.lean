import Mathlib.Data.List.FinRange
import OldLinux.Lib.Trace

/-!
# The floating point unit

One set of registers for all tasks.  A task switch sets TS, and the registers change hands only when
another task uses them: `math_state_restore` stores them in the task that used them last.  `view` is no
part of the machine; it is what the floating point instructions of a task have left.
-/

namespace OldLinux.Tasks

open Function Lib

variable {F : Type}

structure FpuTask (F : Type) where
  usedMath : Bool
  /-- `tss.i387` -/
  i387 : F
  zombie : Bool

structure Fpu (F : Type) where
  task : Fin 64 → Option (FpuTask F)
  current : Fin 64
  /-- `last_task_used_math` -/
  last : Option (Fin 64)
  ts : Bool
  regs : F
  view : Fin 64 → F

inductive FpuEvent (F : Type) where
  | switchTo (n : Fin 64)
  /-- a floating point instruction -/
  | instr (f : F → F)
  /-- whether `copy_process` gets a page, and `copy_mem` its memory -/
  | fork (page memory : Bool)
  | execve
  | exit
  | release (j : Fin 64)

namespace Fpu

def setTask (σ : Fpu F) (P : Fin 64) (t : FpuTask F) : Fpu F :=
  { σ with task := update σ.task P (some t) }

/-- The registers are stored in a task. -/
def save (σ : Fpu F) : Option (Fin 64) → Fpu F
  | none => σ
  | some P =>
    match σ.task P with
    | none => σ
    | some t => σ.setTask P { t with i387 := σ.regs }

/-- `math_state_restore`; `fninit` leaves `reset` in the registers. -/
def mathStateRestore (reset : F) (σ : Fpu F) : Fpu F :=
  if σ.last = some σ.current then σ
  else
    let σ := { σ.save σ.last with last := some σ.current }
    match σ.task σ.current with
    | none => σ
    | some t =>
      if t.usedMath then { σ with regs := t.i387 }
      else { σ.setTask σ.current { t with usedMath := true } with regs := reset }

/-- The registers as an instruction of the current task finds them. -/
def ready (reset : F) (σ : Fpu F) : Fpu F :=
  if σ.ts then ({ σ with ts := false } : Fpu F).mathStateRestore reset else σ

def switchTo (σ : Fpu F) (n : Fin 64) : Fpu F :=
  if n = σ.current then σ
  else { σ with current := n, ts := decide (σ.last ≠ some n) }

/-- `find_empty_process`. -/
def emptySlot (σ : Fpu F) : Option (Fin 64) :=
  (List.finRange 64).find? fun nr => decide (nr ≠ 0 ∧ (σ.task nr).isNone)

/-- `copy_process`; `fnsave` leaves `reset` in the registers. -/
def copyProcess (reset : F) (σ : Fpu F) (t : FpuTask F) (nr : Fin 64) (memory : Bool) : Fpu F :=
  let owner := decide (σ.last = some σ.current)
  let child := if owner then { t with i387 := σ.regs } else t
  let σ := if owner then { σ with ts := false, regs := reset } else σ
  if memory then { σ.setTask nr child with view := update σ.view nr (σ.view σ.current) } else σ

/-- `do_execve`, for a file that can be executed. -/
def execve (reset : F) (σ : Fpu F) (t : FpuTask F) : Fpu F :=
  { σ.setTask σ.current { t with usedMath := false } with
    last := if σ.last = some σ.current then none else σ.last
    view := update σ.view σ.current reset }

def exit (σ : Fpu F) (t : FpuTask F) : Fpu F :=
  { σ.setTask σ.current { t with zombie := true } with
    last := if σ.last = some σ.current then none else σ.last }

def instr (reset : F) (σ : Fpu F) (f : F → F) : Fpu F :=
  let σ := σ.ready reset
  { σ with regs := f σ.regs, view := update σ.view σ.current (f (σ.view σ.current)) }

/-- The task is there and no zombie. -/
def Alive (σ : Fpu F) (P : Fin 64) : Prop := ∃ t, σ.task P = some t ∧ t.zombie = false

def step (reset : F) (σ : Fpu F) (e : FpuEvent F) : Option (Fpu F) :=
  match e with
  | .switchTo n => (σ.task n).bind fun t => if t.zombie then none else some (σ.switchTo n)
  | e => (σ.task σ.current).bind fun t =>
    if t.zombie then none
    else match e with
      | .switchTo _ => none
      | .instr f => some (σ.instr reset f)
      | .fork page memory =>
        match σ.emptySlot, page with
        | some nr, true => some (σ.copyProcess reset t nr memory)
        | _, _ => some σ
      | .execve => some (σ.execve reset t)
      | .exit => if σ.current = 0 then none else some (σ.exit t)
      | .release j => (σ.task j).bind fun u =>
        if u.zombie then some { σ with task := update σ.task j none } else none

/-- Task 0, which has used no floating point instruction; TS is still clear. -/
def boot (reset : F) : Fpu F where
  task i := if i = 0 then some ⟨false, reset, false⟩ else none
  current := 0
  last := none
  ts := false
  regs := reset
  view _ := reset

/-- What the next floating point instruction of a task finds. -/
def sees (reset : F) (σ : Fpu F) (P : Fin 64) : F :=
  if σ.last = some P then σ.regs
  else match σ.task P with
    | none => reset
    | some t => if t.usedMath then t.i387 else reset

/-- The task changes its own registers. -/
def Own : FpuEvent F → Prop
  | .instr _ => True
  | .execve => True
  | _ => False

/-- No instruction with TS clear for a task that does not own the registers, and no fork with something
in the registers for the task that owns them. -/
def Kept (reset : F) (σ : Fpu F) : FpuEvent F → Prop
  | .instr _ => σ.ts = true ∨ σ.last = some σ.current
  | .fork page _ => page = false ∨ σ.emptySlot = none ∨ σ.last ≠ some σ.current ∨ σ.regs = reset
  | _ => True

/-! ### The registers belong to one task -/

structure Sound (reset : F) (σ : Fpu F) : Prop where
  current : ∃ t, σ.task σ.current = some t
  owner : ∀ P, σ.last = some P → ∃ t, σ.task P = some t ∧ t.zombie = false ∧
    t.usedMath = true ∧ σ.regs = σ.view P
  stored : ∀ P t, σ.task P = some t → t.zombie = false → σ.last ≠ some P →
    (if t.usedMath then t.i387 else reset) = σ.view P

variable {reset : F} {σ τ : Fpu F} {P n : Fin 64} {t : FpuTask F} {e : FpuEvent F}

theorem Sound.sees (h : Sound reset σ) (hP : σ.Alive P) : σ.sees reset P = σ.view P := by
  obtain ⟨t, ht, hz⟩ := hP
  rw [Fpu.sees]
  split
  · rename_i hlast
    obtain ⟨_, _, _, _, hregs⟩ := h.owner P hlast
    exact hregs
  · rename_i hlast
    rw [ht]
    exact h.stored P t ht hz hlast

theorem setTask_self : (σ.setTask P t).task P = some t := update_self ..

theorem setTask_of_ne (h : n ≠ P) : (σ.setTask P t).task n = σ.task n := update_of_ne h ..

/-- The registers are stored in the task they belong to. -/
theorem save_sound (h : Sound reset σ) : Sound reset { σ.save σ.last with last := none } := by
  cases hlast : σ.last with
  | none =>
    refine ⟨h.current, fun P hP => (by cases hP), ?_⟩
    intro P t ht hz _
    exact h.stored P t ht hz (by rw [hlast]; exact fun h => (by cases h))
  | some P =>
    obtain ⟨t, ht, hz, hused, hregs⟩ := h.owner P hlast
    have hsave : σ.save (some P) = σ.setTask P { t with i387 := σ.regs } := by
      rw [save, ht]
    rw [hsave]
    refine ⟨?_, fun Q hQ => (by cases hQ), ?_⟩
    · by_cases hne : σ.current = P
      · exact ⟨_, (congrArg _ hne).trans setTask_self⟩
      · obtain ⟨u, hu⟩ := h.current
        exact ⟨u, (setTask_of_ne hne).trans hu⟩
    · intro Q u hu hzu _
      change (σ.setTask P _).task Q = some u at hu
      by_cases hne : Q = P
      · subst hne
        rw [setTask_self] at hu
        cases hu
        show (if t.usedMath = true then σ.regs else reset) = σ.view Q
        rw [if_pos hused, hregs]
      · rw [setTask_of_ne hne] at hu
        refine h.stored Q u hu hzu ?_
        rw [hlast]
        exact fun heq => hne (Option.some.inj heq).symm

/-- A task that takes the registers. -/
def take (reset : F) (σ : Fpu F) (t : FpuTask F) : Fpu F :=
  if t.usedMath then { σ with last := some σ.current, regs := t.i387 }
  else { σ.setTask σ.current { t with usedMath := true } with last := some σ.current, regs := reset }

theorem take_sound (h : Sound reset σ) (hlast : σ.last = none) (ht : σ.task σ.current = some t)
    (hz : t.zombie = false) : Sound reset (σ.take reset t) ∧ (σ.take reset t).last = some σ.current := by
  have hview := h.stored σ.current t ht hz (by rw [hlast]; exact fun h => (by cases h))
  have hothers : ∀ P u, σ.task P = some u → u.zombie = false →
      (if u.usedMath then u.i387 else reset) = σ.view P := by
    intro P u hu hzu
    exact h.stored P u hu hzu (by rw [hlast]; exact fun h => (by cases h))
  rw [take]
  split
  · rename_i hused
    rw [if_pos hused] at hview
    refine ⟨⟨⟨t, ht⟩, ?_, fun P u hu hzu _ => hothers P u hu hzu⟩, rfl⟩
    intro P hP
    cases hP
    exact ⟨t, ht, hz, hused, hview⟩
  · rename_i hused
    rw [if_neg hused] at hview
    refine ⟨⟨⟨_, setTask_self⟩, ?_, ?_⟩, rfl⟩
    · intro P hP
      cases hP
      exact ⟨_, setTask_self, hz, rfl, hview⟩
    · intro P u hu hzu hne
      have hne' : P ≠ σ.current := fun heq => hne (heq ▸ rfl)
      exact hothers P u ((setTask_of_ne hne').symm.trans hu) hzu

theorem save_current (hne : σ.last ≠ some σ.current) : (σ.save σ.last).task σ.current = σ.task σ.current := by
  cases hlast : σ.last with
  | none => rfl
  | some P =>
    have hP : σ.current ≠ P := fun heq => hne (by rw [hlast, heq])
    rw [save]
    cases σ.task P with
    | none => rfl
    | some t => exact setTask_of_ne hP

theorem save_view (x : Option (Fin 64)) : (σ.save x).view = σ.view ∧ (σ.save x).current = σ.current := by
  cases x with
  | none => exact ⟨rfl, rfl⟩
  | some P =>
    rw [save]
    cases σ.task P with
    | none => exact ⟨rfl, rfl⟩
    | some t => exact ⟨rfl, rfl⟩

theorem take_view (σ : Fpu F) (reset : F) (t : FpuTask F) :
    (σ.take reset t).view = σ.view ∧ (σ.take reset t).current = σ.current := by
  rw [take]
  split <;> exact ⟨rfl, rfl⟩

/-- `math_state_restore` gives the registers to the current task. -/
theorem restore_sound (h : Sound reset σ) (hcur : σ.Alive σ.current) :
    Sound reset (σ.mathStateRestore reset) ∧ (σ.mathStateRestore reset).last = some σ.current ∧
      (σ.mathStateRestore reset).view = σ.view ∧ (σ.mathStateRestore reset).current = σ.current := by
  rw [mathStateRestore]
  split
  · rename_i hlast
    exact ⟨h, hlast, rfl, rfl⟩
  · rename_i hlast
    obtain ⟨t, ht, hz⟩ := hcur
    obtain ⟨hview, hcurrent⟩ := save_view (σ := σ) σ.last
    have htask : (σ.save σ.last).task (σ.save σ.last).current = some t := by
      rw [hcurrent, save_current hlast, ht]
    obtain ⟨hsound, hown⟩ := take_sound (save_sound h) rfl htask hz
    have heq : (match ({ σ.save σ.last with last := some σ.current } : Fpu F).task
          ({ σ.save σ.last with last := some σ.current } : Fpu F).current with
        | none => { σ.save σ.last with last := some σ.current }
        | some t =>
          if t.usedMath then { σ.save σ.last with last := some σ.current, regs := t.i387 }
          else { ({ σ.save σ.last with last := some σ.current } : Fpu F).setTask
            (σ.save σ.last).current { t with usedMath := true } with regs := reset }) =
        ({ σ.save σ.last with last := none } : Fpu F).take reset t := by
      simp only [htask, take, ← hcurrent]
      rfl
    rw [heq]
    obtain ⟨htv, htc⟩ := take_view { σ.save σ.last with last := none } reset t
    exact ⟨hsound, hown.trans (congrArg some hcurrent), htv.trans hview, htc.trans hcurrent⟩

/-- The registers are those of the current task when it uses them. -/
theorem ready_sound (h : Sound reset σ) (hcur : σ.Alive σ.current)
    (hkept : σ.ts = true ∨ σ.last = some σ.current) :
    Sound reset (σ.ready reset) ∧ (σ.ready reset).last = some σ.current ∧
      (σ.ready reset).view = σ.view ∧ (σ.ready reset).current = σ.current := by
  rw [ready]
  split
  · have hclts : Sound reset { σ with ts := false } := ⟨h.current, h.owner, h.stored⟩
    exact restore_sound hclts hcur
  · rename_i hts
    exact ⟨h, hkept.resolve_left hts, rfl, rfl⟩

/-! ### Steps -/

theorem instr_sound (h : Sound reset σ) (hcur : σ.Alive σ.current)
    (hkept : σ.ts = true ∨ σ.last = some σ.current) (f : F → F) :
    Sound reset (σ.instr reset f) ∧ (σ.ready reset).regs = σ.view σ.current := by
  obtain ⟨hsound, hlast, hview, hcurrent⟩ := ready_sound h hcur hkept
  obtain ⟨t, ht, hz, hused, hregs⟩ := hsound.owner σ.current hlast
  rw [hview] at hregs
  refine ⟨⟨hsound.current, ?_, ?_⟩, hregs⟩
  · intro P hP
    change (σ.ready reset).last = some P at hP
    rw [hlast] at hP
    cases hP
    refine ⟨t, ht, hz, hused, ?_⟩
    show f (σ.ready reset).regs = update (σ.ready reset).view (σ.ready reset).current _ σ.current
    rw [hcurrent, update_self, hview, hregs]
  · intro P u hu hzu hne
    change (σ.ready reset).last ≠ some P at hne
    show _ = update (σ.ready reset).view (σ.ready reset).current _ P
    rw [hcurrent, update_of_ne]
    · exact hsound.stored P u hu hzu hne
    · rintro rfl
      exact hne hlast

theorem emptySlot_spec (h : σ.emptySlot = some n) : n ≠ 0 ∧ σ.task n = none := by
  have hsome := List.find?_some h
  rw [decide_eq_true_eq, Option.isNone_iff_eq_none] at hsome
  exact hsome

/-- The child gets the registers of its father, and they are still those of the father. -/
theorem copyProcess_sound (h : Sound reset σ) (ht : σ.task σ.current = some t) (hz : t.zombie = false)
    (hn : σ.task n = none) (hkept : σ.last ≠ some σ.current ∨ σ.regs = reset) (memory : Bool) :
    Sound reset (σ.copyProcess reset t n memory) := by
  have hne : σ.current ≠ n := by
    intro heq
    rw [heq, hn] at ht
    cases ht
  -- the registers are as before, with the owner or without
  obtain ⟨ts, hstate⟩ : ∃ ts, (if decide (σ.last = some σ.current) = true then
      ({ σ with ts := false, regs := reset } : Fpu F) else σ) = { σ with ts := ts } := by
    split
    · rename_i hown
      refine ⟨false, ?_⟩
      rw [hkept.resolve_left fun hno => hno (of_decide_eq_true hown)]
    · exact ⟨σ.ts, rfl⟩
  have hsame : Sound reset { σ with ts := ts } := ⟨h.current, h.owner, h.stored⟩
  rw [copyProcess]
  simp only [hstate]
  split
  · refine ⟨⟨t, (setTask_of_ne hne).trans ht⟩, ?_, ?_⟩
    · intro P hP
      obtain ⟨u, hu, hrest⟩ := hsame.owner P hP
      have hPn : P ≠ n := by
        rintro rfl
        exact absurd (hu.symm.trans hn) (fun h => by cases h)
      refine ⟨u, (setTask_of_ne hPn).trans hu, hrest.1, hrest.2.1, ?_⟩
      show σ.regs = update σ.view n (σ.view σ.current) P
      rw [update_of_ne hPn]
      exact hrest.2.2
    · intro P u hu hzu hlast
      show _ = update σ.view n (σ.view σ.current) P
      by_cases hPn : P = n
      · rw [hPn] at hu ⊢
        rw [update_self]
        change (update σ.task n _) n = some u at hu
        rw [update_self] at hu
        cases hu
        split
        · rename_i hown
          obtain ⟨w, hw, _, hused, hregs⟩ := h.owner σ.current (of_decide_eq_true hown)
          rw [ht] at hw
          cases hw
          show (if t.usedMath = true then σ.regs else reset) = _
          rw [if_pos hused, hregs]
        · rename_i hown
          exact h.stored σ.current t ht hz fun heq => hown (decide_eq_true heq)
      · rw [update_of_ne hPn]
        exact h.stored P u ((setTask_of_ne hPn).symm.trans hu) hzu hlast
  · exact hsame

theorem last_other (h : (if σ.last = some σ.current then none else σ.last) = some P) :
    σ.last = some P ∧ P ≠ σ.current := by
  split at h
  · cases h
  · rename_i hne
    exact ⟨h, fun heq => hne (heq ▸ h)⟩

theorem execve_sound (h : Sound reset σ) : Sound reset (σ.execve reset t) := by
  refine ⟨⟨_, setTask_self⟩, ?_, ?_⟩
  · intro P hP
    obtain ⟨hlast, hne⟩ := last_other hP
    obtain ⟨u, hu, hz, hused, hregs⟩ := h.owner P hlast
    refine ⟨u, (setTask_of_ne hne).trans hu, hz, hused, ?_⟩
    show σ.regs = update σ.view σ.current reset P
    rw [update_of_ne hne, hregs]
  · intro P u hu hzu hlast
    show _ = update σ.view σ.current reset P
    by_cases hne : P = σ.current
    · rw [hne] at hu ⊢
      change (update σ.task σ.current _) σ.current = some u at hu
      rw [update_self] at hu
      cases hu
      rw [update_self]
      rfl
    · rw [update_of_ne hne]
      refine h.stored P u ((setTask_of_ne hne).symm.trans hu) hzu fun heq => hlast ?_
      show (if σ.last = some σ.current then none else σ.last) = some P
      rw [if_neg, heq]
      rw [heq]
      exact fun h => hne (Option.some.inj h)

theorem exit_sound (h : Sound reset σ) : Sound reset (σ.exit t) := by
  refine ⟨⟨_, setTask_self⟩, ?_, ?_⟩
  · intro P hP
    obtain ⟨hlast, hne⟩ := last_other hP
    obtain ⟨u, hu, hrest⟩ := h.owner P hlast
    exact ⟨u, (setTask_of_ne hne).trans hu, hrest⟩
  · intro P u hu hzu hlast
    by_cases hne : P = σ.current
    · rw [hne] at hu
      change (update σ.task σ.current _) σ.current = some u at hu
      rw [update_self] at hu
      cases hu
      cases hzu
    · refine h.stored P u ((setTask_of_ne hne).symm.trans hu) hzu fun heq => hlast ?_
      show (if σ.last = some σ.current then none else σ.last) = some P
      rw [if_neg, heq]
      rw [heq]
      exact fun h => hne (Option.some.inj h)

/-- **What one step does.**  A switch goes to a task that is alive, and everything else is done by one. -/
theorem step_cases (hs : σ.step reset e = some τ) : (∃ n, e = .switchTo n ∧ σ.Alive n ∧ τ = σ.switchTo n) ∨
    ∃ t, σ.task σ.current = some t ∧ t.zombie = false ∧ ((∃ f, e = .instr f ∧ τ = σ.instr reset f) ∨
        (∃ page memory n, e = .fork page memory ∧ page = true ∧ σ.emptySlot = some n ∧
          τ = σ.copyProcess reset t n memory) ∨
        (¬Own e ∧ τ = σ) ∨
        (e = .execve ∧ τ = σ.execve reset t) ∨
        (e = .exit ∧ τ = σ.exit t) ∨
        ∃ j u, e = .release j ∧ σ.task j = some u ∧ u.zombie = true ∧
          τ = { σ with task := update σ.task j none }) := by
  cases e with
  | switchTo n =>
    obtain ⟨t, ht, hrest⟩ := Option.bind_eq_some_iff.1 hs
    obtain ⟨hz, heq⟩ := Option.ite_none_left_eq_some.1 hrest
    exact Or.inl ⟨n, rfl, ⟨t, ht, Bool.eq_false_iff.2 hz⟩, (Option.some.inj heq).symm⟩
  | instr f =>
    obtain ⟨t, ht, hrest⟩ := Option.bind_eq_some_iff.1 hs
    obtain ⟨hz, heq⟩ := Option.ite_none_left_eq_some.1 hrest
    exact Or.inr ⟨t, ht, Bool.eq_false_iff.2 hz, Or.inl ⟨f, rfl, (Option.some.inj heq).symm⟩⟩
  | fork page memory =>
    obtain ⟨t, ht, hrest⟩ := Option.bind_eq_some_iff.1 hs
    obtain ⟨hz, heq⟩ := Option.ite_none_left_eq_some.1 hrest
    refine Or.inr ⟨t, ht, Bool.eq_false_iff.2 hz, Or.inr ?_⟩
    simp only at heq
    split at heq
    · rename_i n hn
      exact Or.inl ⟨true, memory, n, rfl, rfl, hn, (Option.some.inj heq).symm⟩
    · exact Or.inr (Or.inl ⟨fun h => h, (Option.some.inj heq).symm⟩)
  | execve =>
    obtain ⟨t, ht, hrest⟩ := Option.bind_eq_some_iff.1 hs
    obtain ⟨hz, heq⟩ := Option.ite_none_left_eq_some.1 hrest
    exact Or.inr ⟨t, ht, Bool.eq_false_iff.2 hz,
      Or.inr (Or.inr (Or.inr (Or.inl ⟨rfl, (Option.some.inj heq).symm⟩)))⟩
  | exit =>
    obtain ⟨t, ht, hrest⟩ := Option.bind_eq_some_iff.1 hs
    obtain ⟨hz, hrest⟩ := Option.ite_none_left_eq_some.1 hrest
    obtain ⟨_, heq⟩ := Option.ite_none_left_eq_some.1 hrest
    exact Or.inr ⟨t, ht, Bool.eq_false_iff.2 hz,
      Or.inr (Or.inr (Or.inr (Or.inr (Or.inl ⟨rfl, (Option.some.inj heq).symm⟩))))⟩
  | release j =>
    obtain ⟨t, ht, hrest⟩ := Option.bind_eq_some_iff.1 hs
    obtain ⟨hz, hrest⟩ := Option.ite_none_left_eq_some.1 hrest
    obtain ⟨u, hu, hrest⟩ := Option.bind_eq_some_iff.1 hrest
    obtain ⟨hzu, heq⟩ := Option.ite_none_right_eq_some.1 hrest
    exact Or.inr ⟨t, ht, Bool.eq_false_iff.2 hz,
      Or.inr (Or.inr (Or.inr (Or.inr (Or.inr ⟨j, u, rfl, hu, hzu, (Option.some.inj heq).symm⟩))))⟩

theorem switchTo_sound (h : Sound reset σ) (hn : σ.Alive n) : Sound reset (σ.switchTo n) := by
  rw [switchTo]
  split
  · exact h
  · obtain ⟨t, ht, _⟩ := hn
    exact ⟨⟨t, ht⟩, h.owner, h.stored⟩

theorem release_sound (h : Sound reset σ) (hcur : σ.Alive σ.current) (ht : σ.task P = some t)
    (hz : t.zombie = true) : Sound reset { σ with task := update σ.task P none } := by
  have halive : ∀ Q u, σ.task Q = some u → u.zombie = false → Q ≠ P := by
    rintro Q u hu hzu rfl
    rw [ht] at hu
    cases hu
    rw [hz] at hzu
    cases hzu
  refine ⟨?_, ?_, ?_⟩
  · obtain ⟨u, hu, hzu⟩ := hcur
    exact ⟨u, (update_of_ne (halive _ u hu hzu) _ _).trans hu⟩
  · intro Q hQ
    obtain ⟨u, hu, hzu, hrest⟩ := h.owner Q hQ
    exact ⟨u, (update_of_ne (halive Q u hu hzu) _ _).trans hu, hzu, hrest⟩
  · intro Q u hu hzu hlast
    by_cases hne : Q = P
    · rw [hne] at hu
      change update σ.task P none P = some u at hu
      rw [update_self] at hu
      cases hu
    · exact h.stored Q u ((update_of_ne hne _ _).symm.trans hu) hzu hlast

theorem step_sound (h : Sound reset σ) (hkept : Kept reset σ e) (hs : σ.step reset e = some τ) :
    Sound reset τ := by
  rcases step_cases hs with ⟨n, rfl, hn, rfl⟩ | ⟨t, ht, hz, hcase⟩
  · exact switchTo_sound h hn
  · rcases hcase with ⟨f, rfl, rfl⟩ | ⟨page, memory, n, rfl, rfl, hn, rfl⟩ | ⟨_, rfl⟩ | ⟨rfl, rfl⟩ |
      ⟨rfl, rfl⟩ | ⟨j, u, rfl, hu, hzu, rfl⟩
    · exact (instr_sound h ⟨t, ht, hz⟩ hkept f).1
    · have hregs : σ.last ≠ some σ.current ∨ σ.regs = reset := by
        rcases hkept with hpage | hempty | hregs
        · cases hpage
        · rw [hn] at hempty
          cases hempty
        · exact hregs
      exact copyProcess_sound h ht hz (emptySlot_spec hn).2 hregs memory
    · exact h
    · exact execve_sound h
    · exact exit_sound h
    · exact release_sound h ⟨t, ht, hz⟩ hu hzu

/-- What a task has left is changed by its own instructions and `execve` alone. -/
theorem step_view (h : Sound reset σ) (hkept : Kept reset σ e) (hs : σ.step reset e = some τ)
    (hP : σ.Alive P) (hown : P ≠ σ.current ∨ ¬Own e) : τ.view P = σ.view P := by
  rcases step_cases hs with ⟨n, rfl, _, rfl⟩ | ⟨t, ht, hz, hcase⟩
  · rw [switchTo]
    split <;> rfl
  · rcases hcase with ⟨f, rfl, rfl⟩ | ⟨page, memory, n, rfl, rfl, hn, rfl⟩ | ⟨_, rfl⟩ | ⟨rfl, rfl⟩ |
      ⟨rfl, rfl⟩ | ⟨j, u, rfl, hu, hzu, rfl⟩
    · have hne := hown.resolve_right fun hno => hno trivial
      obtain ⟨_, _, hview, hcurrent⟩ := ready_sound h ⟨t, ht, hz⟩ hkept
      show update (σ.ready reset).view (σ.ready reset).current _ P = _
      rw [hcurrent, hview, update_of_ne hne]
    · have hne : P ≠ n := by
        rintro rfl
        obtain ⟨u, hu, _⟩ := hP
        rw [(emptySlot_spec hn).2] at hu
        cases hu
      rw [copyProcess]
      split
      · split <;> exact update_of_ne hne _ _
      · split <;> rfl
    · rfl
    · have hne := hown.resolve_right fun hno => hno trivial
      exact update_of_ne hne _ _
    · rfl
    · rfl

theorem step_instr {f : F → F} (hs : σ.step reset (.instr f) = some τ) :
    ∃ t, σ.task σ.current = some t ∧ t.zombie = false ∧ τ = σ.instr reset f := by
  obtain ⟨t, ht, hrest⟩ := Option.bind_eq_some_iff.1 hs
  obtain ⟨hz, heq⟩ := Option.ite_none_left_eq_some.1 hrest
  exact ⟨t, ht, Bool.eq_false_iff.2 hz, (Option.some.inj heq).symm⟩

theorem step_fork {page memory : Bool} (hs : σ.step reset (.fork page memory) = some τ) :
    σ.Alive σ.current := by
  obtain ⟨t, ht, hrest⟩ := Option.bind_eq_some_iff.1 hs
  obtain ⟨hz, _⟩ := Option.ite_none_left_eq_some.1 hrest
  exact ⟨t, ht, Bool.eq_false_iff.2 hz⟩

/-- Whoever is new is the child. -/
theorem fork_view {page memory : Bool} (hs : σ.step reset (.fork page memory) = some τ)
    (hn : ¬σ.Alive n) (hn' : τ.Alive n) : τ.view n = σ.view σ.current := by
  rcases step_cases hs with ⟨_, h, _⟩ | ⟨t, ht, hz, hcase⟩
  · cases h
  · rcases hcase with ⟨_, h, _⟩ | ⟨_, _, m, _, _, _, rfl⟩ | ⟨_, rfl⟩ | ⟨h, _⟩ | ⟨h, _⟩ | ⟨_, _, h, _⟩
    · cases h
    · obtain ⟨u, hu, hzu⟩ := hn'
      have hsame : ∀ ρ : Fpu F, ρ.task = σ.task → ρ.task n ≠ some u :=
        fun ρ hρ hu => hn ⟨u, by rw [← hρ, hu], hzu⟩
      have hold : ∀ owner : Bool, (if owner = true then
          ({ σ with ts := false, regs := reset } : Fpu F) else σ).task = σ.task ∧
          (if owner = true then ({ σ with ts := false, regs := reset } : Fpu F) else σ).view = σ.view ∧
          (if owner = true then ({ σ with ts := false, regs := reset } : Fpu F) else σ).current =
          σ.current := by
        intro owner
        cases owner <;> exact ⟨rfl, rfl, rfl⟩
      obtain ⟨htask, hview, hcurrent⟩ := hold (decide (σ.last = some σ.current))
      rw [copyProcess] at hu ⊢
      simp only at hu ⊢
      split at hu
      · by_cases hne : n = m
        · rw [if_pos ‹_›, hne]
          show update _ m _ m = _
          rw [update_self, hview, hcurrent]
        · rw [setTask_of_ne hne] at hu
          exact absurd hu (hsame _ htask)
      · exact absurd hu (hsame _ htask)
    · exact absurd hn' hn
    · cases h
    · cases h
    · cases h

theorem step_execve (hs : σ.step reset .execve = some τ) : τ.Alive σ.current ∧ τ.view σ.current = reset := by
  obtain ⟨t, ht, hrest⟩ := Option.bind_eq_some_iff.1 hs
  obtain ⟨hz, heq⟩ := Option.ite_none_left_eq_some.1 hrest
  cases heq
  exact ⟨⟨_, setTask_self, Bool.eq_false_iff.2 hz⟩, update_self ..⟩

theorem boot_sound : Sound reset (boot reset) := by
  refine ⟨⟨⟨false, reset, false⟩, rfl⟩, fun P hP => (by cases hP), ?_⟩
  intro P t ht _ _
  change (if P = 0 then some (⟨false, reset, false⟩ : FpuTask F) else none) = some t at ht
  split at ht
  · cases ht
    rfl
  · cases ht

/-- **The switching of the registers cannot be seen**, in every run without a fork of the task that owns
registers with something in them, and without an instruction of a task that does not own them while TS is
clear.  Each instruction works on what the last one of the same task has left, a child begins with what
its father had, and no step of a task changes what another task sees, nor fork what the father sees. -/
theorem fpu_transparent (h : Reach (fun σ => σ = boot reset) (step reset) (Kept reset) σ) :
    (∀ P, σ.Alive P → σ.sees reset P = σ.view P) ∧
    (∀ f τ, Kept reset σ (.instr f) → σ.step reset (.instr f) = some τ →
      (σ.ready reset).regs = σ.view σ.current ∧ τ.sees reset σ.current = f (σ.view σ.current)) ∧
    (∀ page memory τ n, Kept reset σ (.fork page memory) → σ.step reset (.fork page memory) = some τ →
      ¬σ.Alive n → τ.Alive n → τ.sees reset n = σ.sees reset σ.current) ∧
    (∀ τ, σ.step reset .execve = some τ → τ.sees reset σ.current = reset) ∧
    (∀ e τ P, Kept reset σ e → σ.step reset e = some τ → σ.Alive P → τ.Alive P →
      P ≠ σ.current ∨ ¬Own e → τ.sees reset P = σ.sees reset P) := by
  have hsound : Sound reset σ := h.invariant (I := Sound reset) (fun _ hs => by rw [hs]; exact boot_sound)
    fun _ _ _ hI ha hs => step_sound hI ha hs
  refine ⟨fun P hP => hsound.sees hP, ?_, ?_, ?_, ?_⟩
  · intro f τ hkept hs
    obtain ⟨t, ht, hz, rfl⟩ := step_instr hs
    obtain ⟨hnext, hregs⟩ := instr_sound hsound ⟨t, ht, hz⟩ hkept f
    obtain ⟨_, hlast, _, _⟩ := ready_sound hsound ⟨t, ht, hz⟩ hkept
    refine ⟨hregs, ?_⟩
    rw [sees, if_pos (show (σ.instr reset f).last = some σ.current from hlast), ← hregs]
    rfl
  · intro page memory τ n hkept hs hn hn'
    obtain ⟨t, ht, hz⟩ := step_fork hs
    rw [(step_sound hsound hkept hs).sees hn', hsound.sees ⟨t, ht, hz⟩]
    exact fork_view hs hn hn'
  · intro τ hs
    have hview : τ.Alive σ.current ∧ τ.view σ.current = reset := step_execve hs
    have hnext : Sound reset τ := step_sound hsound (by trivial) hs
    rw [hnext.sees hview.1, hview.2]
  · intro e τ P hkept hs hP hP' hown
    rw [(step_sound hsound hkept hs).sees hP', hsound.sees hP, step_view hsound hkept hs hP hown]

/-- Two tasks take turns with the registers. -/
theorem fpu_transparent_turns : ∃ σ : Fpu ℕ, Reach (fun σ => σ = boot 0) (step 0) (Kept 0) σ ∧
    σ.sees 0 0 = σ.view 0 ∧ σ.view 0 = 5 ∧ σ.view 1 = 7 := by
  let run : List (FpuEvent ℕ) := [.fork true true, .switchTo 1, .switchTo 0, .instr fun _ => 5,
    .switchTo 1, .instr (· + 7), .switchTo 0]
  obtain ⟨σ, hexec, h0, h1, halive⟩ : ∃ σ, exec (step 0) (boot 0) run = some σ ∧
      σ.view 0 = 5 ∧ σ.view 1 = 7 ∧ σ.Alive 0 := ⟨_, rfl, rfl, rfl, _, rfl, rfl⟩
  have halong : Along (step 0) (Kept 0) (boot 0) run := by
    refine ⟨Or.inr (Or.inr (Or.inr rfl)), ?_⟩
    rintro _ ⟨⟩
    refine ⟨trivial, ?_⟩
    rintro _ ⟨⟩
    refine ⟨trivial, ?_⟩
    rintro _ ⟨⟩
    refine ⟨Or.inl rfl, ?_⟩
    rintro _ ⟨⟩
    refine ⟨trivial, ?_⟩
    rintro _ ⟨⟩
    refine ⟨Or.inl rfl, ?_⟩
    rintro _ ⟨⟩
    exact ⟨trivial, fun _ _ => trivial⟩
  have hreach : Reach (fun σ => σ = boot 0) (step 0) (Kept 0) σ := Reach.exec (Reach.start rfl) halong hexec
  exact ⟨σ, hreach, (fpu_transparent hreach).1 0 halive, h0, h1⟩

/-- A task with 5 in its registers forks, and its next instruction finds what `fnsave` has left; or it
executes a program, and the first instruction of the program finds the 5. -/
theorem registers_lost : (∃ σ : Fpu ℕ, Reach (fun σ => σ = boot 0) (step 0) (fun _ _ => True) σ ∧
      σ.current = 1 ∧
      σ.view 1 = 5 ∧ (σ.ready 0).regs = 0) ∧
    ∃ σ : Fpu ℕ, Reach (fun σ => σ = boot 0) (step 0) (fun _ _ => True) σ ∧ σ.current = 1 ∧
      σ.view 1 = 0 ∧ (σ.ready 0).regs = 5 := by
  have hrun : ∀ (es : List (FpuEvent ℕ)) σ, exec (step 0) (boot 0) es = some σ →
      Reach (fun σ => σ = boot 0) (step 0) (fun _ _ => True) σ :=
    fun _ _ hexec => Reach.exec (Reach.start rfl) (along_true _ _) hexec
  refine ⟨⟨_, hrun [.fork true true, .switchTo 1, .instr fun _ => 5, .fork true true] _ rfl, rfl, rfl, rfl⟩,
    ⟨_, hrun [.fork true true, .switchTo 1, .instr fun _ => 5, .execve] _ rfl, rfl, rfl, rfl⟩⟩

end Fpu

end OldLinux.Tasks
