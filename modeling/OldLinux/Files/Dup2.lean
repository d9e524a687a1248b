import OldLinux.Files.Counts

/-!
# `dup2` as a whole

`sys_dup2` closes the new descriptor before it looks at the old one.  If the old one is not open, or is the
same, the descriptor that was closed is gone all the same.  Between the two halves of the call `iput` may
sleep, and the others go on.
-/

namespace OldLinux.Files

open Function Lib

variable {σ τ σ₁ σ₂ : Table} {P Q : Fin 64} {t u : Task} {f g : Fin 64} {oldfd newfd : ℕ}

/-- The descriptor is open. -/
def Task.Opened (t : Task) (fd : ℕ) : Prop := ∃ h : fd < 20, t.filp ⟨fd, h⟩ ≠ none

/-- There is nothing to close, or the old descriptor is another one that is open. -/
def Task.Dups (t : Task) (oldfd newfd : ℕ) : Prop := ¬t.Opened newfd ∨ t.Opened oldfd ∧ oldfd ≠ newfd

namespace Table

/-! ### The others -/

/-- What the others do leaves the task alone. -/
theorem step_other {e : Event} (hQ : Q ≠ P) (ht : σ.task P = some t) (hpc : t.pc ≠ .zombie)
    (hs : step σ (Q, e) = some τ) : τ.task P = some t := by
  cases hu : σ.task Q with
  | none =>
    simp only [step, hu] at hs
    cases hs
  | some u =>
    have hset : ∀ (ρ : Table) (v : Task), ρ.task P = some t → (ρ.set Q v).task P = some t := by
      intro ρ v hρ
      rw [set_task_of_ne (Ne.symm hQ), hρ]
    have hclose : ∀ fd next, (σ.sysClose Q u fd next).task P = some t := by
      intro fd next
      rw [sysClose]
      split
      · dsimp only
        split
        · exact hset _ _ ht
        · split
          · exact hset _ _ ht
          · exact hset _ _ ht
      · exact hset _ _ ht
    have hdup : ∀ fd arg, (σ.dupfd Q u fd arg).task P = some t := by
      intro fd arg
      rw [dupfd]
      split
      · split
        · exact hset _ _ ht
        · split
          · exact hset _ _ ht
          · split
            · exact hset _ _ ht
            · exact hset _ _ ht
      · exact hset _ _ ht
    simp only [step, hu] at hs
    cases e with
    | sysOpen flag =>
      cases hpc' : u.pc <;> simp only [hpc', reduceCtorEq] at hs
      cases hs
      rw [sysOpen]
      split
      · exact hset _ _ ht
      · split
        · exact hset _ _ ht
        · exact hset _ _ ht
    | opened result =>
      cases hpc' : u.pc <;> simp only [hpc', reduceCtorEq] at hs
      cases hs
      cases result with
      | error e => exact hset _ _ ht
      | ok x => exact hset _ _ ht
    | sysClose fd =>
      cases hpc' : u.pc <;> simp only [hpc', reduceCtorEq] at hs
      cases hs
      exact hclose _ _
    | sysDup fildes =>
      cases hpc' : u.pc <;> simp only [hpc', reduceCtorEq] at hs
      cases hs
      exact hdup _ _
    | sysDup2 oldfd newfd =>
      cases hpc' : u.pc <;> simp only [hpc', reduceCtorEq] at hs
      cases hs
      exact hclose _ _
    | sysFcntl fd cmd arg =>
      cases hpc' : u.pc <;> simp only [hpc', reduceCtorEq] at hs
      cases hs
      rw [sysFcntl]
      split
      · split
        · exact hset _ _ ht
        · split
          · exact hdup _ _
          · exact hset _ _ ht
          · split
            · exact hset _ _ ht
            · exact hset _ _ ht
          · exact hset _ _ ht
          · exact hset _ _ ht
          · exact hset _ _ ht
      · exact hset _ _ ht
    | sysPipe =>
      cases hpc' : u.pc <;> simp only [hpc', reduceCtorEq] at hs
      cases hs
      rw [sysPipe]
      split
      · dsimp only
        split
        · exact hset _ _ ht
        · exact hset _ _ ht
        · exact hset _ _ ht
      · exact hset _ _ ht
      · exact hset _ _ ht
    | piped inode =>
      cases hpc' : u.pc <;> simp only [hpc', reduceCtorEq] at hs
      cases hs
      cases inode with
      | none => exact hset _ _ ht
      | some inode => exact hset _ _ ht
    | sysFork pid memory =>
      cases hpc' : u.pc <;> simp only [hpc', reduceCtorEq] at hs
      cases hs
      rw [sysFork]
      split
      · exact hset _ _ ht
      · rename_i nr hnr
        have hne : P ≠ nr := by
          rintro rfl
          have hfree := List.find?_some hnr
          rw [decide_eq_true_eq, ht] at hfree
          simp at hfree
        split
        · refine hset _ _ ?_
          rw [(countFiles_task _).1, set_task_of_ne hne, ht]
        · exact hset _ _ ht
    | execve error =>
      cases error with
      | none =>
        cases hpc' : u.pc <;> simp only [hpc', reduceCtorEq] at hs
        cases hs
        exact hset _ _ ht
      | some error =>
        cases hpc' : u.pc <;> simp only [hpc', reduceCtorEq] at hs
        cases hs
        exact hset _ _ ht
    | exit =>
      cases hpc' : u.pc <;> simp only [hpc', reduceCtorEq] at hs <;> cases hs <;> exact hset _ _ ht
    | release i =>
      cases hpc' : u.pc <;> simp only [hpc', reduceCtorEq] at hs
      obtain ⟨hz, heq⟩ := Option.ite_none_right_eq_some.1 hs
      cases heq
      have hne : P ≠ i := by
        rintro rfl
        rw [ht, Option.any_some, decide_eq_true_eq] at hz
        exact hpc hz
      exact (update_of_ne hne ..).trans ht
    | run =>
      cases hpc' : u.pc with
      | user => simp only [hpc', reduceCtorEq] at hs
      | opening _ _ _ => simp only [hpc', reduceCtorEq] at hs
      | piping _ _ _ _ => simp only [hpc', reduceCtorEq] at hs
      | zombie => simp only [hpc', reduceCtorEq] at hs
      | closing =>
        simp only [hpc'] at hs
        cases hs
        exact hset _ _ ht
      | dupping oldfd newfd =>
        simp only [hpc'] at hs
        cases hs
        exact hdup _ _
      | execing i =>
        simp only [hpc'] at hs
        cases hs
        rw [execing]
        split
        · split
          · exact hclose _ _
          · exact hset _ _ ht
        · exact hset _ _ ht
      | exiting i =>
        simp only [hpc'] at hs
        cases hs
        rw [exiting]
        split
        · split
          · exact hset _ _ ht
          · exact hclose _ _
        · exact hset _ _ ht

theorem exec_others {es : List (Fin 64 × Event)} (hes : ∀ e ∈ es, e.1 ≠ P) (ht : σ.task P = some t)
    (hpc : t.pc ≠ .zombie) (hexec : exec step σ es = some τ) : τ.task P = some t := by
  induction es generalizing σ with
  | nil =>
    cases hexec
    exact ht
  | cons e es ih =>
    obtain ⟨ρ, hρ, hrest⟩ := Option.bind_eq_some_iff.1 hexec
    have hP := step_other (hes e List.mem_cons_self) ht hpc hρ
    exact ih (fun e he => hes e (List.mem_cons_of_mem _ he)) hP hrest

/-! ### The two halves -/

/-- What the call has done to a count: its first half from `σ` to `σ₁`, its second from `σ₂` to `τ`. -/
def change (σ σ₁ σ₂ τ : Table) (g : Fin 64) : ℤ :=
  ((σ₁.count g : ℤ) - σ.count g) + ((τ.count g : ℤ) - σ₂.count g)

/-- There is nothing to close. -/
theorem sysClose_unopened (h : Sound σ) (ht : σ.task P = some t) (next : Pc) (hnew : ¬t.Opened newfd) :
    ∃ u, σ.sysClose P t newfd next = σ.set P u ∧ u.pc = next ∧ u.filp = t.filp ∧
    u.closeOnExec = t.closeOnExec := by
  rw [sysClose]
  split
  · rename_i hlt
    have hnone : t.filp ⟨newfd, hlt⟩ = none := by
      by_contra hne
      exact hnew ⟨hlt, hne⟩
    have hbit : t.closeOnExec.getLsbD newfd = false := Task.Bits.of_free (h.fine P t ht).bits hnone
    simp only [Task.clearBit_filp, hnone]
    refine ⟨_, rfl, rfl, rfl, ?_⟩
    refine BitVec.eq_of_getLsbD_eq fun k _ => ?_
    refine (Task.getLsbD_clearBit k).trans ?_
    by_cases hk : k = newfd
    · rw [hk, hbit, Bool.false_and]
    · rw [decide_eq_true (show k ≠ (⟨newfd, hlt⟩ : Fin 20).val from hk), Bool.and_true]
  · exact ⟨_, rfl, rfl, rfl, rfl⟩

theorem sysClose_opened (h : Sound σ) (ht : σ.task P = some t) (next : Pc) (hlt : newfd < 20)
    (hg : t.filp ⟨newfd, hlt⟩ = some g) : ∃ u, σ.sysClose P t newfd next = (σ.down g).set P u ∧
      u.pc = next ∧ u.filp = update t.filp ⟨newfd, hlt⟩ none := by
  have hpos := h.count_pos ht hg
  simp only [sysClose, dif_pos hlt, Task.clearBit_filp, hg]
  rw [if_neg (show ¬(σ.file g).count = 0 from Nat.ne_of_gt hpos)]
  exact ⟨_, rfl, rfl, rfl⟩

theorem dupfd_unopened (hold : ¬t.Opened oldfd) : σ.dupfd P t oldfd newfd = σ.set P (t.returns (-9)) := by
  rw [dupfd]
  split
  · rename_i hlt
    have hnone : t.filp ⟨oldfd, hlt⟩ = none := by
      by_contra hne
      exact hold ⟨hlt, hne⟩
    rw [hnone]
  · rfl

/-- A descriptor that is free is the first one from itself on. -/
theorem freeFrom_self (hlt : newfd < 20) (hnone : t.filp ⟨newfd, hlt⟩ = none) :
    t.freeFrom newfd = some ⟨newfd, hlt⟩ := by
  rw [Task.freeFrom, Task.freeFds, List.find?_filter, List.find?_eq_some_iff_getElem]
  refine ⟨by simp [hnone], newfd, by simpa using hlt, by simp, fun j hj => ?_⟩
  simp [hj]

theorem dupfd_opened (hold : oldfd < 20) (hf : t.filp ⟨oldfd, hold⟩ = some f) (hlt : newfd < 20)
    (hnone : t.filp ⟨newfd, hlt⟩ = none) : σ.dupfd P t oldfd newfd =
      (σ.up f).set P (((t.clearBit ⟨newfd, hlt⟩).point ⟨newfd, hlt⟩ (some f)).returns newfd) := by
  rw [dupfd, dif_pos hold, hf]
  dsimp only
  rw [if_neg (Nat.not_le.2 hlt), freeFrom_self hlt hnone]

theorem dupfd_outside (hold : oldfd < 20) (hf : t.filp ⟨oldfd, hold⟩ = some f) (hge : ¬newfd < 20) :
    σ.dupfd P t oldfd newfd = σ.set P (t.returns (-22)) := by
  rw [dupfd, dif_pos hold, hf]
  dsimp only
  rw [if_pos (Nat.not_lt.1 hge)]

theorem Sound.up_count (h : Sound σ) (f g : Fin 64) :
    (σ.up f).count g = σ.count g + if g = f then 1 else 0 := by
  have hle := h.count_le f
  rw [Table.up_count]
  split
  · rename_i hg
    rw [hg]
    omega
  · rfl

theorem Sound.down_count (h : Sound σ) (hpos : 0 < σ.count f) (g : Fin 64) :
    (σ.down f).count g + (if g = f then 1 else 0) = σ.count g := by
  have hle := h.count_le f
  rw [Table.down_count]
  split
  · rename_i hg
    rw [hg]
    omega
  · rfl

/-! ### All or nothing -/

/-- The new descriptor is what the old one was before: the file gains a reference, and the one that the
descriptor had before is given up. -/
def Dupped (t u : Task) (change : Fin 64 → ℤ) (oldfd newfd : ℕ) : Prop :=
  ∃ (hold : oldfd < 20) (hnew : newfd < 20) (f : Fin 64), t.filp ⟨oldfd, hold⟩ = some f ∧
    u.ret = newfd ∧ u.filp = update t.filp ⟨newfd, hnew⟩ (some f) ∧
    ∀ g, change g = (if g = f then 1 else 0) - if t.filp ⟨newfd, hnew⟩ = some g then 1 else 0

/-- An error, and nothing has changed. -/
def Unchanged (t u : Task) (change : Fin 64 → ℤ) : Prop :=
  u.ret < 0 ∧ u.filp = t.filp ∧ u.closeOnExec = t.closeOnExec ∧ ∀ g, change g = 0

/-- The call of the process in slot `P` from `σ` to `σ₁` and from `σ₂` to `τ`. -/
def AllOrNothing (P : Fin 64) (σ σ₁ σ₂ τ : Table) (oldfd newfd : ℕ) : Prop :=
  (∀ Q, Q ≠ P → σ₁.task Q = σ.task Q ∧ τ.task Q = σ₂.task Q) ∧ ∃ t u, σ.task P = some t ∧ τ.task P = some u ∧
      (Dupped t u (change σ σ₁ σ₂ τ) oldfd newfd ∨ Unchanged t u (change σ σ₁ σ₂ τ))

theorem exec_sound {es : List (Fin 64 × Event)} (h : Sound σ) (hexec : exec step σ es = some τ) : Sound τ := by
  induction es generalizing σ with
  | nil =>
    cases hexec
    exact h
  | cons e es ih =>
    obtain ⟨ρ, hρ, hrest⟩ := Option.bind_eq_some_iff.1 hexec
    exact ih (step_sound h hρ) hrest

/-- Nothing was closed, and what `dupfd` does is all. -/
theorem allOrNothing_unopened (h₂ : Sound σ₂) (ht : σ.task P = some t) {u : Task}
    (hnew : ¬t.Opened newfd) (hfilp : u.filp = t.filp) (hbits : u.closeOnExec = t.closeOnExec) :
    AllOrNothing P σ (σ.set P u) σ₂ (σ₂.dupfd P u oldfd newfd) oldfd newfd := by
  have hchange : ∀ g, ((σ.set P u).count g : ℤ) - σ.count g = 0 := fun g => by
    rw [set_count]
    omega
  have herror : ∀ ret : ℤ, ret < 0 →
      AllOrNothing P σ (σ.set P u) σ₂ (σ₂.set P (u.returns ret)) oldfd newfd := by
    intro ret hret
    refine ⟨fun Q hQ => ⟨set_task_of_ne hQ, set_task_of_ne hQ⟩, t, _, ht, set_task_self, .inr ?_⟩
    refine ⟨hret, hfilp, hbits, fun g => ?_⟩
    rw [change, hchange, set_count]
    omega
  by_cases hold : u.Opened oldfd
  · obtain ⟨hlt, hne⟩ := hold
    obtain ⟨f, hf⟩ := Option.ne_none_iff_exists'.1 hne
    by_cases hlt' : newfd < 20
    · have hnone : u.filp ⟨newfd, hlt'⟩ = none := by
        by_contra hne
        rw [hfilp] at hne
        exact hnew ⟨hlt', hne⟩
      rw [dupfd_opened hlt hf hlt' hnone]
      refine ⟨fun Q hQ => ⟨set_task_of_ne hQ, set_task_of_ne hQ⟩, t, _, ht, set_task_self, .inl ?_⟩
      refine ⟨hlt, hlt', f, by rw [← hfilp, hf], rfl, ?_, fun g => ?_⟩
      · rw [← hfilp]
        rfl
      · rw [change, hchange, set_count, h₂.up_count, ← hfilp, hnone]
        by_cases hgf : g = f
        · simp [hgf]
        · simp [hgf]
    · rw [dupfd_outside hlt hf hlt']
      exact herror _ (by decide)
  · rw [dupfd_unopened hold]
    exact herror _ (by decide)

/-- A descriptor was closed for another one that is open. -/
theorem allOrNothing_opened (h : Sound σ) (h₂ : Sound σ₂) (ht : σ.task P = some t) {u : Task}
    (hold : oldfd < 20) (hf : t.filp ⟨oldfd, hold⟩ = some f) (hnew : newfd < 20)
    (hg : t.filp ⟨newfd, hnew⟩ = some g) (hne : oldfd ≠ newfd)
    (hfilp : u.filp = update t.filp ⟨newfd, hnew⟩ none) :
    AllOrNothing P σ ((σ.down g).set P u) σ₂ (σ₂.dupfd P u oldfd newfd) oldfd newfd := by
  have hf' : u.filp ⟨oldfd, hold⟩ = some f := by
    rw [hfilp, update_of_ne (by simpa using hne), hf]
  have hnone : u.filp ⟨newfd, hnew⟩ = none := by rw [hfilp, update_self]
  rw [dupfd_opened hold hf' hnew hnone]
  refine ⟨fun Q hQ => ⟨set_task_of_ne hQ, set_task_of_ne hQ⟩, t, _, ht, set_task_self, .inl ?_⟩
  refine ⟨hold, hnew, f, hf, rfl, ?_, fun k => ?_⟩
  · show update u.filp ⟨newfd, hnew⟩ (some f) = _
    rw [hfilp, update_idem]
  · have hdown := h.down_count (h.count_pos ht hg) k
    have hiff : (t.filp ⟨newfd, hnew⟩ = some k) ↔ k = g := by
      rw [hg, Option.some_inj]
      exact eq_comm
    rw [change, set_count, set_count, h₂.up_count]
    simp only [hiff]
    split_ifs at hdown ⊢ <;> push_cast <;> omega

/-- **`dup2` is all or nothing** only if there is nothing to close, or the old descriptor is another one
that is open: then, and only then, in every state of every run, and whatever the others do while `iput`
sleeps. -/
theorem dup2_all_or_nothing {es : List (Fin 64 × Event)}
    (h : Reach (fun σ => σ = boot) step (fun _ _ => True) σ) (ht : σ.task P = some t)
    (hcall : step σ (P, .sysDup2 oldfd newfd) = some σ₁) (hes : ∀ e ∈ es, e.1 ≠ P)
    (hexec : exec step σ₁ es = some σ₂) (hrun : step σ₂ (P, .run) = some τ) :
    AllOrNothing P σ σ₁ σ₂ τ oldfd newfd ↔ t.Dups oldfd newfd := by
  have hS : Sound σ := h.invariant (I := Sound) (fun _ hs => by rw [hs]; exact boot_sound)
    (fun _ _ _ hI _ hs => step_sound hI hs)
  have hS₁ := step_sound hS hcall
  have hS₂ := exec_sound hS₁ hexec
  have hclose : σ₁ = σ.sysClose P t newfd (.dupping oldfd newfd) := by
    simp only [step, ht] at hcall
    cases hpc : t.pc <;> simp only [hpc, reduceCtorEq] at hcall
    exact (Option.some.inj hcall).symm
  -- the second half finds the task as the first has left it
  have hsecond : ∀ u, σ₁.task P = some u → u.pc = .dupping oldfd newfd →
      σ₂.task P = some u ∧ τ = σ₂.dupfd P u oldfd newfd := by
    intro u hu hpc
    have hu₂ := exec_others hes hu (by rw [hpc]; exact fun h => by cases h) hexec
    refine ⟨hu₂, ?_⟩
    simp only [step, hu₂, hpc] at hrun
    exact (Option.some.inj hrun).symm
  by_cases hnew : t.Opened newfd
  · obtain ⟨hlt, hne⟩ := hnew
    obtain ⟨g, hg⟩ := Option.ne_none_iff_exists'.1 hne
    obtain ⟨u, hu, hpc, hfilp⟩ := sysClose_opened hS ht (.dupping oldfd newfd) hlt hg
    rw [hclose, hu] at hsecond ⊢
    obtain ⟨-, rfl⟩ := hsecond u set_task_self hpc
    by_cases hdups : t.Opened oldfd ∧ oldfd ≠ newfd
    · obtain ⟨⟨hold, hsome⟩, hdiff⟩ := hdups
      obtain ⟨f, hf⟩ := Option.ne_none_iff_exists'.1 hsome
      exact ⟨fun _ => .inr ⟨⟨hold, hsome⟩, hdiff⟩,
        fun _ => allOrNothing_opened hS hS₂ ht hold hf hlt hg hdiff hfilp⟩
    · -- the new descriptor has gone
      have hgone : ¬u.Opened oldfd := by
        rintro ⟨hold, hsome⟩
        rw [hfilp, update_apply] at hsome
        split at hsome
        · exact hsome rfl
        · rename_i hdiff
          exact hdups ⟨⟨hold, hsome⟩, fun heq => hdiff (Fin.ext heq)⟩
      rw [dupfd_unopened hgone]
      refine ⟨fun hall => ?_, fun hcond => ?_⟩
      · obtain ⟨-, t', u', ht', hu', hres⟩ := hall
        rw [ht] at ht'
        cases ht'
        rw [set_task_self] at hu'
        cases hu'
        rcases hres with ⟨hold, _, f, hf, hret, -⟩ | ⟨-, hsame, -⟩
        · have hneg : (-9 : ℤ) = newfd := hret
          omega
        · have hsame' : u.filp = t.filp := hsame
          have hat := congrFun hsame' ⟨newfd, hlt⟩
          rw [hfilp, update_self, hg] at hat
          cases hat
      · rcases hcond with hcond | hcond
        · exact absurd ⟨hlt, hne⟩ hcond
        · exact absurd hcond hdups
  · obtain ⟨u, hu, hpc, hfilp, hbits⟩ := sysClose_unopened hS ht (.dupping oldfd newfd) hnew
    rw [hclose, hu] at hsecond ⊢
    obtain ⟨-, rfl⟩ := hsecond u set_task_self hpc
    exact ⟨fun _ => .inl hnew, fun _ => allOrNothing_unopened hS₂ ht hnew hfilp hbits⟩

set_option maxRecDepth 8000 in
/-- A file that is open as descriptor 0 becomes descriptor 1 as well. -/
theorem dup2_to_next : ∃ σ σ₁ τ, step σ (0, .sysDup2 0 1) = some σ₁ ∧ step σ₁ (0, .run) = some τ ∧
    AllOrNothing 0 σ σ₁ σ₁ τ 0 1 := by
  obtain ⟨σ, σ₁, τ, t, hexec, hcall, hrun, ht, h1⟩ : ∃ σ σ₁ τ t,
      exec step boot [(0, .sysOpen 0), (0, .opened (.ok (5, 0o100644)))] = some σ ∧
      step σ (0, .sysDup2 0 1) = some σ₁ ∧ step σ₁ (0, .run) = some τ ∧ σ.task 0 = some t ∧
      t.filp 1 = none := ⟨_, _, _, _, rfl, rfl, rfl, rfl, rfl⟩
  have hboot : Reach (fun σ => σ = boot) step (fun _ _ => True) boot := Reach.start rfl
  have hnone : exec step σ₁ [] = some σ₁ := rfl
  have hall := dup2_all_or_nothing (hboot.exec (along_true _ _) hexec) ht hcall
    (fun e he => absurd he List.not_mem_nil) hnone hrun
  exact ⟨σ, σ₁, τ, hcall, hrun, hall.2 (.inl fun ⟨_, hne⟩ => hne h1)⟩

set_option maxRecDepth 8000 in
/-- `dup2` of an open descriptor to itself closes it. -/
theorem dup2_to_itself : ∃ σ σ₁ τ, Reach (fun σ => σ = boot) step (fun _ _ => True) σ ∧
    step σ (0, .sysDup2 0 0) = some σ₁ ∧ step σ₁ (0, .run) = some τ ∧
    ¬AllOrNothing 0 σ σ₁ σ₁ τ 0 0 := by
  obtain ⟨σ, σ₁, τ, t, u, hexec, hcall, hrun, ht, hu, h0, hret, hgone⟩ : ∃ σ σ₁ τ t u,
      exec step boot [(0, .sysOpen 0), (0, .opened (.ok (5, 0o100644)))] = some σ ∧
      step σ (0, .sysDup2 0 0) = some σ₁ ∧ step σ₁ (0, .run) = some τ ∧ σ.task 0 = some t ∧
      τ.task 0 = some u ∧ t.filp 0 = some 0 ∧ u.ret = -9 ∧ u.filp 0 = none :=
    ⟨_, _, _, _, _, rfl, rfl, rfl, rfl, rfl, rfl, rfl, rfl⟩
  have hboot : Reach (fun σ => σ = boot) step (fun _ _ => True) boot := Reach.start rfl
  refine ⟨σ, σ₁, τ, hboot.exec (along_true _ _) hexec, hcall, hrun, ?_⟩
  rintro ⟨-, t', u', ht', hu', hres⟩
  rw [ht] at ht'
  cases ht'
  rw [hu] at hu'
  cases hu'
  rcases hres with ⟨_, _, f, _, hsame, -⟩ | ⟨-, hsame, -⟩
  · rw [hret] at hsame
    cases hsame
  · rw [hsame, h0] at hgone
    cases hgone

end Table

end OldLinux.Files
