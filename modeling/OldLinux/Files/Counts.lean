import OldLinux.Files.Descriptors

/-!
# The file table and the descriptors agree

`f_count` is the number of descriptors that point to the file, in every state of every run.  A call
changes the count of a file only when the file was free or the process had a descriptor for it; so a
file that another process has reserved keeps its one reference.
-/

namespace OldLinux.Files

open Lib

variable {σ τ : Table} {P Q : Fin 64} {t t' u : Task} {f g : Fin 64} {fd : Fin 20}

namespace Table

/-! ### Counts and descriptors -/

def count (σ : Table) (f : Fin 64) : ℕ := (σ.file f).count

/-- What the descriptors of the tasks point to. -/
def desc (σ : Table) (a : Fin 64 × Fin 20) : Option (Fin 64) := (σ.task a.1).bind fun t => t.filp a.2

@[simp] theorem set_count : (σ.set P t).count = σ.count := rfl

@[simp] theorem setCount_count (n : ℕ) (g : Fin 64) :
    (σ.setCount f n).count g = if g = f then n else σ.count g := by
  simp only [count, setCount, setFile, Function.update_apply]
  split <;> rfl

@[simp] theorem setFile_count (x : File) (g : Fin 64) :
    (σ.setFile f x).count g = if g = f then x.count else σ.count g := by
  simp only [count, setFile, Function.update_apply]
  split <;> rfl

theorem up_count (g : Fin 64) :
    (σ.up f).count g = if g = f then (σ.count f + 1) % 65536 else σ.count g := setCount_count _ g

theorem down_count (g : Fin 64) :
    (σ.down f).count g = if g = f then (σ.count f + 65535) % 65536 else σ.count g := setCount_count _ g

theorem desc_of_task (ht : σ.task P = some t) (fd : Fin 20) : σ.desc (P, fd) = t.filp fd := by
  rw [desc, ht]
  rfl

theorem desc_congr (h : τ.task = σ.task) : τ.desc = σ.desc := by
  funext a
  rw [desc, desc, h]

/-- One descriptor of a task was changed. -/
theorem desc_point (ht : σ.task P = some t) (htask : τ.task = Function.update σ.task P (some t'))
    {x : Option (Fin 64)} (hfilp : t'.filp = Function.update t.filp fd x) :
    τ.desc = Function.update σ.desc (P, fd) x := by
  funext ⟨Q, i⟩
  rw [desc, htask]
  by_cases hQ : Q = P
  · subst hQ
    simp only [Function.update_self, Option.bind_some, hfilp, Function.update_apply, Prod.mk.injEq, true_and]
    split
    · rfl
    · rw [desc_of_task ht]
  · rw [Function.update_of_ne hQ, Function.update_of_ne (by simp [hQ])]
    rfl

/-- No descriptor was changed. -/
theorem desc_same (ht : σ.task P = some t) (htask : τ.task = Function.update σ.task P (some t'))
    (hfilp : t'.filp = t.filp) : τ.desc = σ.desc := by
  funext ⟨Q, i⟩
  rw [desc, htask]
  by_cases hQ : Q = P
  · subst hQ
    rw [Function.update_self, Option.bind_some, hfilp, desc_of_task ht]
  · rw [Function.update_of_ne hQ]
    rfl

/-! ### The invariant -/

end Table

/-- The descriptors and files that a call has reserved. -/
def Task.reserved (t : Task) : List (Fin 20 × Fin 64) :=
  match t.pc with
  | .opening fd f _ => [(fd, f)]
  | .piping fd₀ fd₁ f₀ f₁ => [(fd₀, f₀), (fd₁, f₁)]
  | _ => []

/-- What holds of each task. -/
structure Task.Fine (count : Fin 64 → ℕ) (t : Task) : Prop where
  bits : ∀ k, t.closeOnExec.getLsbD k = true → ∃ h : k < 20, t.filp ⟨k, h⟩ ≠ none
  reserved : ∀ x ∈ t.reserved, t.filp x.1 = some x.2 ∧ count x.2 = 1 ∧ t.closeOnExec.getLsbD x.1.val = false
  two : ∀ fd₀ fd₁ f₀ f₁, t.pc = .piping fd₀ fd₁ f₀ f₁ → fd₀ ≠ fd₁
  exiting : ∀ i, t.pc = .exiting i → ∀ fd : Fin 20, fd.val < i → t.filp fd = none
  zombie : t.pc = .zombie → ∀ fd, t.filp fd = none

namespace Table

structure Sound (σ : Table) : Prop where
  counts : ∀ f, σ.count f = refs σ.desc f
  fine : ∀ P t, σ.task P = some t → t.Fine σ.count
  calm : σ.panicked = false

/-- The count of a file is far from running over. -/
theorem Sound.count_le (h : Sound σ) (f : Fin 64) : σ.count f ≤ 1280 := by
  rw [h.counts]
  have hle := refs_le_card (D := σ.desc) (b := f)
  rwa [Fintype.card_prod, Fintype.card_fin, Fintype.card_fin] at hle

theorem Sound.count_pos (h : Sound σ) (ht : σ.task P = some t) (hfd : t.filp fd = some f) : 0 < σ.count f := by
  rw [h.counts]
  exact refs_pos ((desc_of_task ht fd).trans hfd)

/-- **One task at a time.**  A step of the process in slot `P` that changes the counts only of files
that were free or that the process had keeps what the others have reserved. -/
theorem Sound.update (h : Sound σ) (ht : σ.task P = some t)
    (htask : ∀ Q u, τ.task Q = some u → u.Fine τ.count ∨ Q ≠ P ∧ σ.task Q = some u)
    (hcounts : ∀ f, τ.count f = refs τ.desc f)
    (htouch : ∀ f, τ.count f ≠ σ.count f → σ.count f = 0 ∨ ∃ fd, t.filp fd = some f)
    (hcalm : τ.panicked = σ.panicked) : Sound τ := by
  refine ⟨hcounts, ?_, hcalm.trans h.calm⟩
  intro Q u hu
  rcases htask Q u hu with hfine | ⟨hQ, hu⟩
  · exact hfine
  · have hF := h.fine Q u hu
    refine ⟨hF.bits, ?_, hF.two, hF.exiting, hF.zombie⟩
    intro x hx
    obtain ⟨h1, h2, h3⟩ := hF.reserved x hx
    refine ⟨h1, ?_, h3⟩
    by_contra hne
    rcases htouch x.2 (by rw [h2]; exact hne) with h0 | ⟨i, hi⟩
    · omega
    · have hone : refs σ.desc x.2 = 1 := (h.counts x.2).symm.trans h2
      have heq := eq_of_refs_eq_one hone ((desc_of_task hu x.1).trans h1) ((desc_of_task ht i).trans hi)
      exact hQ (congrArg Prod.fst heq)

/-- Whoever is not in slot `P` is as before. -/
theorem fine_or_old (htask : τ.task = Function.update σ.task P (some t')) (hfine : t'.Fine τ.count)
    (Q : Fin 64) (u : Task) (hu : τ.task Q = some u) : u.Fine τ.count ∨ Q ≠ P ∧ σ.task Q = some u := by
  rw [htask] at hu
  by_cases hQ : Q = P
  · rw [hQ, Function.update_self] at hu
    cases hu
    exact Or.inl hfine
  · rw [Function.update_of_ne hQ] at hu
    exact Or.inr ⟨hQ, hu⟩

/-- No count and no descriptor changes. -/
theorem Sound.still (h : Sound σ) (ht : σ.task P = some t)
    (htask : τ.task = Function.update σ.task P (some t')) (hfilp : t'.filp = t.filp)
    (hcount : τ.count = σ.count) (hcalm : τ.panicked = σ.panicked) (hfine : t'.Fine σ.count) :
    Sound τ := by
  refine h.update ht (fine_or_old htask (by rw [hcount]; exact hfine)) ?_ ?_ hcalm
  · rw [hcount, desc_same ht htask hfilp]
    exact h.counts
  · intro f hne
    exact absurd (congrFun hcount f) hne

/-- A free descriptor is pointed to a file, whose count goes up. -/
theorem Sound.grow (h : Sound σ) (ht : σ.task P = some t) (hfd : t.filp fd = none)
    (hf : σ.count f = 0 ∨ ∃ i, t.filp i = some f)
    (hfilp : t'.filp = Function.update t.filp fd (some f))
    (hfine : t'.Fine (σ.up f).count) : Sound ((σ.up f).set P t') := by
  have hcount : ∀ g, ((σ.up f).set P t').count g = σ.count g + if g = f then 1 else 0 := by
    intro g
    rw [set_count, up_count]
    split
    · rename_i hg
      have hle := h.count_le f
      rw [hg]
      omega
    · rfl
  have hdesc : ((σ.up f).set P t').desc = Function.update σ.desc (P, fd) (some f) :=
    desc_point ht rfl hfilp
  refine h.update ht (fine_or_old rfl hfine) ?_ ?_ rfl
  · intro g
    rw [hcount, hdesc, refs_update_some ((desc_of_task ht fd).trans hfd), h.counts]
  · intro g hne
    rw [hcount] at hne
    by_cases hg : g = f
    · rw [hg]
      exact hf
    · rw [if_neg hg] at hne
      exact absurd rfl hne

/-- A descriptor is taken away from a file, whose count goes down. -/
theorem Sound.shrink (h : Sound σ) (ht : σ.task P = some t) (hfd : t.filp fd = some f)
    (hfilp : t'.filp = Function.update t.filp fd none) (hfine : t'.Fine (σ.down f).count) :
    Sound ((σ.down f).set P t') := by
  have hpos := h.count_pos ht hfd
  have hcount : ∀ g, ((σ.down f).set P t').count g + (if g = f then 1 else 0) = σ.count g := by
    intro g
    rw [set_count, down_count]
    split
    · rename_i hg
      have hle := h.count_le f
      rw [hg]
      omega
    · rfl
  have hdesc : ((σ.down f).set P t').desc = Function.update σ.desc (P, fd) none :=
    desc_point ht rfl hfilp
  refine h.update ht (fine_or_old rfl hfine) ?_ ?_ rfl
  · intro g
    have h1 := hcount g
    have h2 := refs_update_none ((desc_of_task ht fd).trans hfd) g
    rw [h.counts, ← h2] at h1
    rw [hdesc]
    omega
  · intro g hne
    have h1 := hcount g
    by_cases hg : g = f
    · rw [hg]
      exact Or.inr ⟨fd, hfd⟩
    · rw [if_neg hg] at h1
      exact absurd h1 hne

end Table

/-! ### Tasks -/

namespace Task

@[simp] theorem point_filp (x : Option (Fin 64)) : (t.point fd x).filp = Function.update t.filp fd x := rfl

@[simp] theorem clearBit_filp : (t.clearBit fd).filp = t.filp := rfl

/-- Nothing is reserved and the task is still there. -/
def Quiet : Pc → Prop
  | .opening _ _ _ => False
  | .piping _ _ _ _ => False
  | .zombie => False
  | _ => True

def Bits (t : Task) : Prop := ∀ k, t.closeOnExec.getLsbD k = true → ∃ h : k < 20, t.filp ⟨k, h⟩ ≠ none

theorem fine_of_quiet {c : Fin 64 → ℕ} (hq : Quiet t.pc) (hbits : t.Bits)
    (hexit : ∀ i, t.pc = .exiting i → ∀ fd : Fin 20, fd.val < i → t.filp fd = none) : t.Fine c := by
  refine ⟨hbits, ?_, ?_, hexit, ?_⟩
  · intro x hx
    rw [reserved] at hx
    split at hx
    · rename_i hpc
      rw [hpc] at hq
      exact hq.elim
    · rename_i hpc
      rw [hpc] at hq
      exact hq.elim
    · cases hx
  · intro _ _ _ _ hpc
    rw [hpc] at hq
    exact hq.elim
  · intro hpc
    rw [hpc] at hq
    exact hq.elim

/-- Back in user mode. -/
theorem fine_returns {c : Fin 64 → ℕ} (hbits : t.Bits) (ret : ℤ) : (t.returns ret).Fine c :=
  fine_of_quiet trivial hbits (fun _ h => (by cases h))

theorem getLsbD_clearBit (k : ℕ) : (t.clearBit fd).closeOnExec.getLsbD k =
    (t.closeOnExec.getLsbD k && decide (k ≠ fd.val)) := by
  by_cases hk : k < 32
  · simp only [clearBit, BitVec.getLsbD_and, BitVec.getLsbD_not, hk, BitVec.getLsbD_shiftLeft,
      BitVec.getLsbD_one, decide_true, Bool.true_and]
    by_cases h1 : k < fd.val
    · have : k ≠ fd.val := by omega
      simp [h1, this]
    · by_cases h2 : k = fd.val
      · simp [h2]
      · have : k - fd.val ≠ 0 := by omega
        simp [h1, h2, this]
  · have hge : 32 ≤ k := by omega
    simp [hge]

theorem getLsbD_setBit (k : ℕ) (h : (t.setBit fd).closeOnExec.getLsbD k = true) :
    t.closeOnExec.getLsbD k = true ∨ k = fd.val := by
  simp only [setBit, BitVec.getLsbD_or, Bool.or_eq_true] at h
  rcases h with h | h
  · exact Or.inl h
  · right
    simp only [BitVec.getLsbD_shiftLeft, BitVec.getLsbD_one, Bool.and_eq_true, decide_eq_true_eq,
      Bool.not_eq_true', decide_eq_false_iff_not] at h
    omega

theorem Bits.clear (h : t.Bits) (fd : Fin 20) : (t.clearBit fd).Bits := by
  intro k hk
  rw [getLsbD_clearBit, Bool.and_eq_true] at hk
  exact h k hk.1

/-- The bit of a descriptor that is closed is cleared too. -/
theorem Bits.close (h : t.Bits) (fd : Fin 20) : ((t.clearBit fd).point fd none).Bits := by
  intro k hk
  have hk' : (t.clearBit fd).closeOnExec.getLsbD k = true := hk
  rw [getLsbD_clearBit, Bool.and_eq_true, decide_eq_true_eq] at hk'
  obtain ⟨h20, hne⟩ := h k hk'.1
  refine ⟨h20, ?_⟩
  rw [point_filp, Function.update_of_ne]
  · exact hne
  · intro heq
    exact hk'.2 (congrArg Fin.val heq)

/-- So is that of a descriptor that was reserved. -/
theorem Bits.point_none (h : t.Bits) (hfd : t.closeOnExec.getLsbD fd.val = false) : (t.point fd none).Bits := by
  intro k hk
  obtain ⟨h20, hne⟩ := h k hk
  refine ⟨h20, ?_⟩
  rw [point_filp, Function.update_of_ne]
  · exact hne
  · rintro rfl
    have hk' : t.closeOnExec.getLsbD k = true := hk
    rw [hfd] at hk'
    cases hk'

/-- The bit of a free descriptor is clear. -/
theorem Bits.of_free (h : t.Bits) (hfd : t.filp fd = none) : t.closeOnExec.getLsbD fd.val = false := by
  by_contra hk
  rw [Bool.not_eq_false] at hk
  obtain ⟨_, hne⟩ := h fd.val hk
  exact hne hfd

theorem Bits.point_some (h : t.Bits) (fd : Fin 20) (f : Fin 64) : (t.point fd (some f)).Bits := by
  intro k hk
  obtain ⟨h20, hne⟩ := h k hk
  refine ⟨h20, ?_⟩
  rw [point_filp, Function.update_apply]
  split
  · exact fun h => (by cases h)
  · exact hne

theorem Bits.set (h : t.Bits) (hfd : t.filp fd ≠ none) : (t.setBit fd).Bits := by
  intro k hk
  rcases getLsbD_setBit k hk with hk | rfl
  · exact h k hk
  · exact ⟨fd.isLt, hfd⟩

theorem mem_freeFds (h : fd ∈ t.freeFds) : t.filp fd = none := by
  simpa [freeFds] using h

end Task

/-! ### Open and close -/

namespace Table

theorem mem_freeFiles (h : f ∈ σ.freeFiles) : σ.count f = 0 := by
  simpa [freeFiles, count] using h

theorem up_of_zero (hf : σ.count f = 0) : (σ.up f).count f = 1 := by
  rw [up_count, if_pos rfl, hf]

theorem sysOpen_sound (h : Sound σ) (ht : σ.task P = some t) (flag : ℕ) : Sound (σ.sysOpen P t flag) := by
  have hbits := (h.fine P t ht).bits
  rw [sysOpen]
  split
  · exact h.still ht rfl rfl rfl rfl (Task.fine_returns hbits _)
  · rename_i fd fds hfds
    have hfd : t.filp fd = none := Task.mem_freeFds (by rw [hfds]; exact List.mem_cons_self)
    split
    · exact h.still ht rfl rfl rfl rfl (Task.fine_returns (Task.Bits.clear hbits fd) _)
    · rename_i f fs hfs
      have hf : σ.count f = 0 := mem_freeFiles (by rw [hfs]; exact List.mem_cons_self)
      refine h.grow ht hfd (Or.inl hf) rfl ?_
      refine ⟨Task.Bits.point_some (Task.Bits.clear hbits fd) fd f, ?_, ?_, ?_, ?_⟩
      · intro x hx
        cases List.mem_singleton.1 hx
        refine ⟨Function.update_self .., up_of_zero hf, ?_⟩
        show (t.clearBit fd).closeOnExec.getLsbD fd.val = false
        rw [Task.getLsbD_clearBit]
        simp
      · intro _ _ _ _ hpc
        cases hpc
      · intro _ hpc
        cases hpc
      · intro hpc
        cases hpc

/-- The reservation of `sys_open` is the only reference. -/
theorem Sound.opening (h : Sound σ) (ht : σ.task P = some t) {flag : ℕ} (hpc : t.pc = .opening fd f flag) :
    t.filp fd = some f ∧ σ.count f = 1 ∧ t.closeOnExec.getLsbD fd.val = false := by
  refine (h.fine P t ht).reserved (fd, f) ?_
  rw [Task.reserved, hpc]
  exact List.mem_singleton_self _

theorem down_of_one (hf : σ.count f = 1) : σ.setCount f 0 = σ.down f := by
  rw [down, show (σ.file f).count = 1 from hf]

theorem opened_sound (h : Sound σ) (ht : σ.task P = some t) {flag : ℕ}
    (hpc : t.pc = .opening fd f flag) (result : Except ℕ (ℕ × ℕ)) :
    Sound (σ.opened P t fd f flag result) := by
  have hbits := (h.fine P t ht).bits
  obtain ⟨hfd, hf, hbit⟩ := h.opening ht hpc
  cases result with
  | error e =>
    rw [opened, down_of_one hf]
    exact h.shrink ht hfd rfl (Task.fine_returns (Task.Bits.point_none hbits hbit) _)
  | ok x =>
    refine h.still ht rfl rfl ?_ rfl (Task.fine_returns hbits _)
    funext g
    rw [opened, set_count, setFile_count]
    split
    · rename_i hg
      rw [hg, hf]
    · rfl

/-- `sys_close` closes the descriptor, and nothing else changes. -/
theorem sysClose_sound (h : Sound σ) (ht : σ.task P = some t) (fd : ℕ) {next : Pc} (hnext : Task.Quiet next)
    (hexit : ∀ i, next = .exiting i → ∀ j : Fin 20, j.val < i → j.val = fd ∨ t.filp j = none) :
    Sound (σ.sysClose P t fd next) := by
  have hbits := (h.fine P t ht).bits
  rw [sysClose]
  split
  · rename_i hlt
    simp only [Task.clearBit_filp]
    split
    · rename_i hnone
      refine h.still ht rfl rfl rfl rfl (Task.fine_of_quiet hnext (Task.Bits.clear hbits _) ?_)
      intro i hi j hj
      rcases hexit i hi j hj with rfl | hj
      · exact hnone
      · exact hj
    · rename_i f hf
      have hpos := h.count_pos ht hf
      rw [if_neg (show ¬(σ.file f).count = 0 from Nat.ne_of_gt hpos)]
      refine h.shrink ht hf rfl (Task.fine_of_quiet hnext (Task.Bits.close hbits _) ?_)
      intro i hi j hj
      show Function.update t.filp ⟨fd, hlt⟩ none j = none
      rw [Function.update_apply]
      split
      · rfl
      · rename_i hne
        rcases hexit i hi j hj with rfl | hj
        · exact absurd rfl hne
        · exact hj
  · rename_i hge
    refine h.still ht rfl rfl rfl rfl (Task.fine_of_quiet hnext hbits ?_)
    intro i hi j hj
    rcases hexit i hi j hj with rfl | hj
    · exact absurd j.isLt hge
    · exact hj

/-! ### Descriptors for the same file -/

theorem dupfd_sound (h : Sound σ) (ht : σ.task P = some t) (fd arg : ℕ) : Sound (σ.dupfd P t fd arg) := by
  have hbits := (h.fine P t ht).bits
  have herror : ∀ ret, Sound (σ.set P (t.returns ret)) :=
    fun _ => h.still ht rfl rfl rfl rfl (Task.fine_returns hbits _)
  rw [dupfd]
  split
  · rename_i hlt
    split
    · exact herror _
    · rename_i f hf
      split
      · exact herror _
      · split
        · exact herror _
        · rename_i i hi
          have hfree : t.filp i = none := Task.mem_freeFds (List.mem_of_find?_eq_some hi)
          exact h.grow ht hfree (Or.inr ⟨_, hf⟩) rfl
            (Task.fine_returns (Task.Bits.point_some (Task.Bits.clear hbits i) i f) _)
  · exact herror _

theorem sysFcntl_sound (h : Sound σ) (ht : σ.task P = some t) (fd cmd arg : ℕ) :
    Sound (σ.sysFcntl P t fd cmd arg) := by
  have hbits := (h.fine P t ht).bits
  have hreturns : ∀ ret, Sound (σ.set P (t.returns ret)) :=
    fun _ => h.still ht rfl rfl rfl rfl (Task.fine_returns hbits _)
  rw [sysFcntl]
  split
  · rename_i hlt
    split
    · exact hreturns _
    · rename_i f hf
      split
      · exact dupfd_sound h ht fd arg
      · exact hreturns _
      · split
        · refine h.still ht rfl rfl rfl rfl (Task.fine_returns (Task.Bits.set hbits ?_) _)
          rw [hf]
          exact fun h => (by cases h)
        · exact h.still ht rfl rfl rfl rfl (Task.fine_returns (Task.Bits.clear hbits _) _)
      · exact hreturns _
      · refine h.still ht rfl rfl ?_ rfl (Task.fine_returns hbits _)
        funext g
        rw [set_count, setFile_count]
        split
        · rename_i hg
          rw [hg]
          rfl
        · rfl
      · exact hreturns _
  · exact hreturns _

/-! ### Pipes -/

theorem set_up_set (t₁ t₂ : Task) : ((σ.set P t₁).up f).set P t₂ = (σ.up f).set P t₂ := by
  simp only [set, up, setCount, setFile, Function.update_idem]

theorem set_down_set (t₁ t₂ : Task) : ((σ.set P t₁).down f).set P t₂ = (σ.down f).set P t₂ := by
  simp only [set, down, setCount, setFile, Function.update_idem]

theorem set_task_self : (σ.set P t).task P = some t := Function.update_self ..

theorem set_task_of_ne (h : Q ≠ P) : (σ.set P t).task Q = σ.task Q := Function.update_of_ne h ..

theorem ne_of_freeFiles {fs : List (Fin 64)} (h : σ.freeFiles = f :: g :: fs) : f ≠ g := by
  have hnodup : σ.freeFiles.Nodup := (List.nodup_finRange 64).filter _
  rw [h] at hnodup
  simp only [List.nodup_cons, List.mem_cons, not_or] at hnodup
  exact hnodup.1.1

theorem ne_of_freeFds {fd₀ fd₁ : Fin 20} {fds : List (Fin 20)} (h : t.freeFds = fd₀ :: fd₁ :: fds) :
    fd₀ ≠ fd₁ := by
  have hnodup : t.freeFds.Nodup := (List.nodup_finRange 20).filter _
  rw [h] at hnodup
  simp only [List.nodup_cons, List.mem_cons, not_or] at hnodup
  exact hnodup.1.1

/-- Both ends are reserved. -/
theorem reserve_sound (h : Sound σ) (ht : σ.task P = some t) {fd₀ fd₁ : Fin 20} {f₀ f₁ : Fin 64}
    (hfd₀ : t.filp fd₀ = none) (hfd₁ : t.filp fd₁ = none) (hfd : fd₀ ≠ fd₁) (hf₀ : σ.count f₀ = 0)
    (hf₁ : σ.count f₁ = 0) (hf : f₀ ≠ f₁) : Sound (((σ.up f₀).up f₁).set P
      { (t.point fd₀ (some f₀)).point fd₁ (some f₁) with pc := .piping fd₀ fd₁ f₀ f₁ }) := by
  have hbits := (h.fine P t ht).bits
  have hb₀ : t.closeOnExec.getLsbD fd₀.val = false := Task.Bits.of_free hbits hfd₀
  have hb₁ : t.closeOnExec.getLsbD fd₁.val = false := Task.Bits.of_free hbits hfd₁
  have h₀ : Sound ((σ.up f₀).set P ((t.point fd₀ (some f₀)).returns 0)) :=
    h.grow ht hfd₀ (Or.inl hf₀) rfl (Task.fine_returns (Task.Bits.point_some hbits fd₀ f₀) 0)
  have hf₁' : ((σ.up f₀).set P ((t.point fd₀ (some f₀)).returns 0)).count f₁ = 0 := by
    rw [set_count, up_count, if_neg (Ne.symm hf), hf₁]
  have hfd₁' : ((t.point fd₀ (some f₀)).returns 0).filp fd₁ = none := by
    show Function.update t.filp fd₀ (some f₀) fd₁ = none
    rw [Function.update_of_ne (Ne.symm hfd), hfd₁]
  rw [← set_up_set ((t.point fd₀ (some f₀)).returns 0)]
  refine h₀.grow set_task_self hfd₁' (Or.inl hf₁') rfl ?_
  refine ⟨Task.Bits.point_some (Task.Bits.point_some hbits fd₀ f₀) fd₁ f₁, ?_, ?_, ?_, ?_⟩
  · intro x hx
    rcases List.mem_cons.1 hx with rfl | hx
    · refine ⟨?_, ?_, hb₀⟩
      · show Function.update (Function.update t.filp fd₀ (some f₀)) fd₁ (some f₁) fd₀ = some f₀
        rw [Function.update_of_ne hfd, Function.update_self]
      · rw [up_count, if_neg hf]
        exact up_of_zero hf₀
    · cases List.mem_singleton.1 hx
      exact ⟨Function.update_self .., up_of_zero hf₁', hb₁⟩
  · intro _ _ _ _ hpc
    cases hpc
    exact hfd
  · intro _ hpc
    cases hpc
  · intro hpc
    cases hpc

theorem sysPipe_sound (h : Sound σ) (ht : σ.task P = some t) : Sound (σ.sysPipe P t) := by
  have hbits := (h.fine P t ht).bits
  rw [sysPipe]
  split
  · rename_i f₀ f₁ fs hfs
    have hf₀ : σ.count f₀ = 0 := mem_freeFiles (by rw [hfs]; simp)
    have hf₁ : σ.count f₁ = 0 := mem_freeFiles (by rw [hfs]; simp)
    have hcount : ((((σ.up f₀).up f₁).setCount f₀ 0).setCount f₁ 0).count = σ.count := by
      funext g
      simp only [setCount_count, up_count]
      by_cases h₁ : g = f₁
      · rw [if_pos h₁, h₁, hf₁]
      · by_cases h₀ : g = f₀
        · rw [if_neg h₁, if_pos h₀, h₀, hf₀]
        · simp only [if_neg h₁, if_neg h₀]
    simp only
    split
    · rename_i fd₀ fd₁ fds hfds
      have hfd₀ : t.filp fd₀ = none := Task.mem_freeFds (by rw [hfds]; simp)
      have hfd₁ : t.filp fd₁ = none := Task.mem_freeFds (by rw [hfds]; simp)
      exact reserve_sound h ht hfd₀ hfd₁ (ne_of_freeFds hfds) hf₀ hf₁ (ne_of_freeFiles hfs)
    · rename_i fd₀ hfds
      have hfd₀ : t.filp fd₀ = none := Task.mem_freeFds (by rw [hfds]; simp)
      have hfilp : Function.update (Function.update t.filp fd₀ (some f₀)) fd₀ none = t.filp := by
        rw [Function.update_idem, ← hfd₀, Function.update_eq_self]
      refine h.still ht rfl hfilp hcount rfl (Task.fine_returns ?_ _)
      intro k hk
      obtain ⟨h20, hne⟩ := hbits k hk
      exact ⟨h20, (congrFun hfilp ⟨k, h20⟩).trans_ne hne⟩
    · exact h.still ht rfl rfl hcount rfl (Task.fine_returns hbits _)
  · rename_i f₀ hfs
    have hf₀ : σ.count f₀ = 0 := mem_freeFiles (by rw [hfs]; simp)
    refine h.still ht rfl rfl ?_ rfl (Task.fine_returns hbits _)
    funext g
    rw [set_count, setCount_count, up_count]
    split
    · rename_i hg
      rw [hg, hf₀]
    · rfl
  · exact h.still ht rfl rfl rfl rfl (Task.fine_returns hbits _)

theorem piped_sound (h : Sound σ) (ht : σ.task P = some t) {fd₀ fd₁ : Fin 20} {f₀ f₁ : Fin 64}
    (hpc : t.pc = .piping fd₀ fd₁ f₀ f₁) (inode : Option ℕ) :
    Sound (σ.piped P t fd₀ fd₁ f₀ f₁ inode) := by
  have hF := h.fine P t ht
  have hbits := hF.bits
  have hres : t.reserved = [(fd₀, f₀), (fd₁, f₁)] := by rw [Task.reserved, hpc]
  obtain ⟨hfd₀, hf₀, hbit₀⟩ := hF.reserved (fd₀, f₀) (by rw [hres]; simp)
  obtain ⟨hfd₁, hf₁, hbit₁⟩ := hF.reserved (fd₁, f₁) (by rw [hres]; simp)
  have hfd := hF.two _ _ _ _ hpc
  cases inode with
  | some inode =>
    refine h.still ht rfl rfl ?_ rfl (Task.fine_returns hbits _)
    funext g
    simp only [piped, set_count, setFile_count]
    split
    · rename_i hg
      rw [hg]
      exact (setFile_count _ f₁).trans (by split <;> simp_all [count])
    · split
      · rename_i hg
        rw [hg]
        rfl
      · rfl
  | none =>
    have hf : f₀ ≠ f₁ := by
      rintro rfl
      have hone : refs σ.desc f₀ = 1 := (h.counts f₀).symm.trans hf₀
      have heq := eq_of_refs_eq_one hone ((desc_of_task ht fd₀).trans hfd₀) ((desc_of_task ht fd₁).trans hfd₁)
      exact hfd (congrArg Prod.snd heq)
    have hbits₀ := Task.Bits.point_none hbits hbit₀
    have h₀ : Sound ((σ.down f₀).set P ((t.point fd₀ none).returns 0)) :=
      h.shrink ht hfd₀ rfl (Task.fine_returns hbits₀ 0)
    have hfd₁' : ((t.point fd₀ none).returns 0).filp fd₁ = some f₁ := by
      show Function.update t.filp fd₀ none fd₁ = some f₁
      rw [Function.update_of_ne (Ne.symm hfd), hfd₁]
    have hf₁' : (σ.down f₀).count f₁ = 1 := by
      rw [down_count, if_neg (Ne.symm hf)]
      exact hf₁
    rw [piped, down_of_one hf₀, down_of_one hf₁', ← set_down_set ((t.point fd₀ none).returns 0)]
    exact h₀.shrink set_task_self hfd₁' rfl (Task.fine_returns (Task.Bits.point_none hbits₀ hbit₁) _)

/-! ### Fork -/

/-- The descriptors, with those of the child that the loop has counted. -/
def withChild (D : Fin 64 × Fin 20 → Option (Fin 64)) (nr : Fin 64) (t : Task) (s : Finset (Fin 20)) :
    Fin 64 × Fin 20 → Option (Fin 64) :=
  fun a => if a.1 = nr ∧ a.2 ∈ s then t.filp a.2 else D a

theorem withChild_insert (D : Fin 64 × Fin 20 → Option (Fin 64)) (nr : Fin 64) (t : Task)
    (s : Finset (Fin 20)) (fd : Fin 20) :
    withChild D nr t (insert fd s) = Function.update (withChild D nr t s) (nr, fd) (t.filp fd) := by
  funext ⟨Q, i⟩
  rw [withChild, Function.update_apply, withChild]
  by_cases hQ : Q = nr
  · by_cases hi : i = fd
    · simp [hQ, hi]
    · simp [hQ, hi]
  · simp [hQ]

/-- **The loop of `copy_process`** counts the descriptors of the child one by one. -/
theorem countFiles_count {D : Fin 64 × Fin 20 → Option (Fin 64)} {nr : Fin 64}
    (hD : ∀ fd, D (nr, fd) = none) (fds : List (Fin 20)) :
    ∀ (σ : Table) (s : Finset (Fin 20)), (∀ fd ∈ fds, fd ∉ s) → fds.Nodup →
      (∀ f, σ.count f = refs (withChild D nr t s) f) →
      ∀ f, (σ.countFiles t fds).count f = refs (withChild D nr t (s ∪ fds.toFinset)) f := by
  induction fds with
  | nil =>
    intro σ s _ _ hcount f
    simpa [countFiles] using hcount f
  | cons fd fds ih =>
    intro σ s hs hnodup hcount f
    have hfd : fd ∉ s := hs fd List.mem_cons_self
    have hset : s ∪ (fd :: fds).toFinset = insert fd s ∪ fds.toFinset := by
      rw [List.toFinset_cons, Finset.union_insert, Finset.insert_union]
    have hs' : ∀ i ∈ fds, i ∉ insert fd s := by
      intro i hi hmem
      rcases Finset.mem_insert.1 hmem with rfl | hmem
      · exact (List.nodup_cons.1 hnodup).1 hi
      · exact hs i (List.mem_cons_of_mem _ hi) hmem
    have hnone : withChild D nr t s (nr, fd) = none := by
      rw [withChild, if_neg (fun h => hfd h.2), hD]
    rw [hset, countFiles, List.foldl_cons]
    refine ih _ (insert fd s) hs' (List.nodup_cons.1 hnodup).2 ?_ f
    intro g
    rw [withChild_insert]
    cases hf : t.filp fd with
    | none =>
      rw [Function.update_eq_self_iff.2 hnone.symm]
      exact hcount g
    | some f' =>
      have hle : σ.count f' ≤ 1280 := by
        rw [hcount]
        have hle := refs_le_card (D := withChild D nr t s) (b := f')
        rwa [Fintype.card_prod, Fintype.card_fin, Fintype.card_fin] at hle
      rw [refs_update_some hnone, up_count, ← hcount]
      split
      · rename_i hg
        rw [hg]
        omega
      · rfl

theorem countFiles_task (fds : List (Fin 20)) : (σ.countFiles t fds).task = σ.task ∧
    (σ.countFiles t fds).panicked = σ.panicked := by
  induction fds generalizing σ with
  | nil => exact ⟨rfl, rfl⟩
  | cons fd fds ih =>
    rw [countFiles, List.foldl_cons]
    cases t.filp fd with
    | none => exact ih
    | some f => exact ih (σ := σ.up f)

/-- The loop counts nothing that the process does not have. -/
theorem countFiles_other (hf : ∀ fd, t.filp fd ≠ some f) (fds : List (Fin 20)) :
    (σ.countFiles t fds).count f = σ.count f := by
  induction fds generalizing σ with
  | nil => rfl
  | cons fd fds ih =>
    rw [countFiles, List.foldl_cons]
    cases hfd : t.filp fd with
    | none => exact ih
    | some f' =>
      have hne : f ≠ f' := by
        rintro rfl
        exact hf fd hfd
      refine (ih (σ := σ.up f')).trans ?_
      rw [up_count, if_neg hne]

/-- **The child** has the descriptors of its father, and they are counted. -/
theorem copy_sound (h : Sound σ) (ht : σ.task P = some t) (hpc : t.pc = .user) {nr : Fin 64}
    (hnr : σ.task nr = none) :
    Sound ((σ.set nr (t.returns 0)).countFiles t (List.finRange 20)) := by
  have hbits := (h.fine P t ht).bits
  obtain ⟨htask, hcalm⟩ := countFiles_task (σ := σ.set nr (t.returns 0)) (t := t) (List.finRange 20)
  have hD : ∀ fd, σ.desc (nr, fd) = none := by
    intro fd
    rw [desc, hnr]
    rfl
  have hdesc : ((σ.set nr (t.returns 0)).countFiles t (List.finRange 20)).desc =
      withChild σ.desc nr t (∅ ∪ (List.finRange 20).toFinset) := by
    rw [desc_congr htask]
    funext ⟨Q, i⟩
    rw [withChild]
    by_cases hQ : Q = nr
    · rw [if_pos ⟨hQ, by simp⟩, hQ, desc_of_task set_task_self]
      rfl
    · rw [if_neg (fun h => hQ h.1), desc, desc, set_task_of_ne hQ]
  refine h.update ht ?_ ?_ ?_ hcalm
  · intro Q u hu
    rw [htask] at hu
    by_cases hQ : Q = nr
    · rw [hQ, set_task_self] at hu
      cases hu
      exact Or.inl (Task.fine_returns hbits 0)
    · rw [set_task_of_ne hQ] at hu
      by_cases hP : Q = P
      · rw [hP, ht] at hu
        cases hu
        left
        refine Task.fine_of_quiet (by rw [hpc]; trivial) hbits ?_
        rw [hpc]
        exact fun _ h => (by cases h)
      · exact Or.inr ⟨hP, hu⟩
  · rw [hdesc]
    refine countFiles_count hD _ _ ∅ (by simp) (List.nodup_finRange 20) ?_
    intro f
    rw [set_count, h.counts]
    congr 1
    funext a
    simp [withChild]
  · intro f hne
    right
    by_contra hno
    rw [not_exists] at hno
    exact hne (countFiles_other hno _)

theorem sysFork_sound (h : Sound σ) (ht : σ.task P = some t) (hpc : t.pc = .user) (pid : ℤ)
    (memory : Bool) : Sound (σ.sysFork P t pid memory) := by
  have hbits := (h.fine P t ht).bits
  have herror : Sound (σ.set P (t.returns (-11))) :=
    h.still ht rfl rfl rfl rfl (Task.fine_returns hbits _)
  rw [sysFork]
  split
  · exact herror
  · rename_i nr hnr
    have hnone : σ.task nr = none := by
      have hsome := List.find?_some hnr
      rw [decide_eq_true_eq] at hsome
      exact Option.isNone_iff_eq_none.1 hsome.2
    split
    · have hne : P ≠ nr := by
        rintro rfl
        rw [hnone] at ht
        cases ht
      have htask : ((σ.set nr (t.returns 0)).countFiles t (List.finRange 20)).task P = some t := by
        rw [(countFiles_task _).1, set_task_of_ne hne, ht]
      exact (copy_sound h ht hpc hnone).still htask rfl rfl rfl rfl (Task.fine_returns hbits _)
    · exact herror

/-! ### Exec and exit -/

theorem execing_sound (h : Sound σ) (ht : σ.task P = some t) (i : ℕ) : Sound (σ.execing P t i) := by
  have hbits := (h.fine P t ht).bits
  rw [execing]
  split
  · split
    · exact sysClose_sound h ht i trivial (fun _ h => (by cases h))
    · exact h.still ht rfl rfl rfl rfl (Task.fine_of_quiet trivial hbits (fun _ h => (by cases h)))
  · refine h.still ht rfl rfl rfl rfl (Task.fine_returns ?_ _)
    intro k hk
    simp at hk

theorem exiting_sound (h : Sound σ) (ht : σ.task P = some t) {i : ℕ} (hpc : t.pc = .exiting i) :
    Sound (σ.exiting P t i) := by
  have hF := h.fine P t ht
  have hclosed := hF.exiting i hpc
  rw [exiting]
  split
  · rename_i hi
    split
    · rename_i hnone
      refine h.still ht rfl rfl rfl rfl (Task.fine_of_quiet trivial hF.bits ?_)
      intro k hk j hj
      cases hk
      rcases Nat.lt_succ_iff_lt_or_eq.1 hj with hj | hj
      · exact hclosed j hj
      · cases hj
        exact hnone
    · refine sysClose_sound h ht i trivial ?_
      intro k hk j hj
      cases hk
      rcases Nat.lt_succ_iff_lt_or_eq.1 hj with hj | hj
      · exact Or.inr (hclosed j hj)
      · exact Or.inl hj
  · rename_i hi
    have hall : ∀ fd : Fin 20, t.filp fd = none := fun fd => hclosed fd (by omega)
    refine h.still ht rfl rfl rfl rfl ⟨hF.bits, ?_, ?_, ?_, fun _ => hall⟩
    · intro x hx
      cases hx
    · intro _ _ _ _ hz
      cases hz
    · intro _ hz
      cases hz

/-- A zombie has no descriptor left. -/
theorem release_sound (h : Sound σ) {i : Fin 64} (hu : σ.task i = some u) (hpc : u.pc = .zombie) :
    Sound (σ.release i) := by
  have hclosed := (h.fine i u hu).zombie hpc
  have hdesc : (σ.release i).desc = σ.desc := by
    funext ⟨Q, fd⟩
    by_cases hQ : Q = i
    · rw [hQ, desc_of_task hu, hclosed]
      simp [desc, release]
    · simp [desc, release, hQ]
  refine ⟨?_, ?_, h.calm⟩
  · rw [hdesc]
    exact h.counts
  · intro Q t ht
    by_cases hQ : Q = i
    · simp [release, hQ] at ht
    · refine h.fine Q t ?_
      simpa [release, hQ] using ht

/-! ### Runs -/

theorem step_sound {e : Fin 64 × Event} (h : Sound σ) (hs : step σ e = some τ) : Sound τ := by
  obtain ⟨P, ev⟩ := e
  cases ht : σ.task P with
  | none =>
    simp only [step, ht] at hs
    cases hs
  | some t =>
    have hbits := (h.fine P t ht).bits
    have hgo : ∀ pc, Task.Quiet pc → (∀ i, pc = .exiting i → i = 0) → Sound (σ.set P { t with pc := pc }) := by
      intro pc hq hexit
      refine h.still ht rfl rfl rfl rfl (Task.fine_of_quiet hq hbits ?_)
      intro i hi fd hfd
      have := hexit i hi
      omega
    simp only [step, ht] at hs
    cases ev with
    | sysOpen flag =>
      cases hpc : t.pc <;> simp only [hpc, reduceCtorEq] at hs
      cases hs
      exact sysOpen_sound h ht flag
    | opened result =>
      cases hpc : t.pc <;> simp only [hpc, reduceCtorEq] at hs
      cases hs
      exact opened_sound h ht hpc result
    | sysClose fd =>
      cases hpc : t.pc <;> simp only [hpc, reduceCtorEq] at hs
      cases hs
      exact sysClose_sound h ht fd trivial (fun _ h => (by cases h))
    | sysDup fildes =>
      cases hpc : t.pc <;> simp only [hpc, reduceCtorEq] at hs
      cases hs
      exact dupfd_sound h ht fildes 0
    | sysDup2 oldfd newfd =>
      cases hpc : t.pc <;> simp only [hpc, reduceCtorEq] at hs
      cases hs
      exact sysClose_sound h ht newfd trivial (fun _ h => (by cases h))
    | sysFcntl fd cmd arg =>
      cases hpc : t.pc <;> simp only [hpc, reduceCtorEq] at hs
      cases hs
      exact sysFcntl_sound h ht fd cmd arg
    | sysPipe =>
      cases hpc : t.pc <;> simp only [hpc, reduceCtorEq] at hs
      cases hs
      exact sysPipe_sound h ht
    | piped inode =>
      cases hpc : t.pc <;> simp only [hpc, reduceCtorEq] at hs
      cases hs
      exact piped_sound h ht hpc inode
    | sysFork pid memory =>
      cases hpc : t.pc <;> simp only [hpc, reduceCtorEq] at hs
      cases hs
      exact sysFork_sound h ht hpc pid memory
    | execve error =>
      cases error with
      | none =>
        cases hpc : t.pc <;> simp only [hpc, reduceCtorEq] at hs
        cases hs
        exact hgo _ trivial (fun _ h => (by cases h))
      | some error =>
        cases hpc : t.pc <;> simp only [hpc, reduceCtorEq] at hs
        cases hs
        exact h.still ht rfl rfl rfl rfl (Task.fine_returns hbits _)
    | exit =>
      have hexit : Sound (σ.set P { t with pc := .exiting 0 }) := by
        refine hgo _ trivial ?_
        intro i hi
        cases hi
        rfl
      cases hpc : t.pc <;> simp only [hpc, reduceCtorEq] at hs <;> cases hs <;> exact hexit
    | release i =>
      cases hpc : t.pc <;> simp only [hpc, reduceCtorEq] at hs
      obtain ⟨hz, heq⟩ := Option.ite_none_right_eq_some.1 hs
      cases heq
      obtain ⟨u, hu, hzombie⟩ := (Option.any_eq_true _ _).1 hz
      exact release_sound h hu (of_decide_eq_true hzombie)
    | run =>
      cases hpc : t.pc with
      | user => simp only [hpc, reduceCtorEq] at hs
      | opening _ _ _ => simp only [hpc, reduceCtorEq] at hs
      | piping _ _ _ _ => simp only [hpc, reduceCtorEq] at hs
      | zombie => simp only [hpc, reduceCtorEq] at hs
      | closing =>
        simp only [hpc] at hs
        cases hs
        exact hgo _ trivial (fun _ h => (by cases h))
      | dupping oldfd newfd =>
        simp only [hpc] at hs
        cases hs
        exact dupfd_sound h ht oldfd newfd
      | execing i =>
        simp only [hpc] at hs
        cases hs
        exact execing_sound h ht i
      | exiting i =>
        simp only [hpc] at hs
        cases hs
        exact exiting_sound h ht hpc

theorem boot_sound : Sound boot := by
  have hboot : ∀ P t, boot.task P = some t → t = ⟨fun _ => none, 0, 0, .user⟩ := by
    intro P t ht
    simp only [boot] at ht
    split at ht
    · exact (Option.some.inj ht).symm
    · cases ht
  refine ⟨?_, ?_, rfl⟩
  · intro f
    symm
    rw [show boot.count f = 0 from rfl, refs_eq_zero]
    rintro ⟨P, fd⟩ hdesc
    obtain ⟨t, ht, hfd⟩ := Option.bind_eq_some_iff.1 hdesc
    rw [hboot P t ht] at hfd
    cases hfd
  · intro P t ht
    rw [hboot P t ht]
    refine Task.fine_of_quiet trivial ?_ (fun _ h => (by cases h))
    intro k hk
    simp at hk

/-- **The descriptor tables and the file table agree.**  In every state of every run, between two calls
and inside them, `f_count` is the number of descriptors of all tasks that point to the file, a free
entry is pointed to by nobody, every bit of `close_on_exec` belongs to an open descriptor, and
`sys_close` has not found the count 0. -/
theorem descriptors_agree (h : Reach (fun σ => σ = boot) step (fun _ _ => True) σ) :
    (∀ f, (σ.file f).count = (Finset.univ.filter fun a : Fin 64 × Fin 20 =>
        (σ.task a.1).bind (fun t => t.filp a.2) = some f).card) ∧
    (∀ f P t fd, (σ.file f).count = 0 → σ.task P = some t → t.filp fd ≠ some f) ∧
    (∀ P t k, σ.task P = some t → t.closeOnExec.getLsbD k = true → ∃ h : k < 20, t.filp ⟨k, h⟩ ≠ none) ∧
    σ.panicked = false := by
  have hsound : Sound σ := h.invariant (I := Sound) (fun _ hs => by rw [hs]; exact boot_sound)
    (fun _ _ _ hI _ hs => step_sound hI hs)
  refine ⟨hsound.counts, ?_, fun P t k ht hk => (hsound.fine P t ht).bits k hk, hsound.calm⟩
  intro f P t fd hf ht hfd
  have hpos := hsound.count_pos ht hfd
  exact absurd hf (Nat.ne_of_gt hpos)

set_option maxRecDepth 8000 in
/-- Task 0 opens a file and forks: its descriptor and that of the child are counted. -/
theorem descriptors_agree_forked : ∃ σ, Reach (fun σ => σ = boot) step (fun _ _ => True) σ ∧
    (σ.file 0).count = 2 ∧ (Finset.univ.filter fun a : Fin 64 × Fin 20 =>
      (σ.task a.1).bind (fun t => t.filp a.2) = some 0).card = 2 := by
  obtain ⟨σ, hexec, hcount⟩ : ∃ σ, exec step boot
      [(0, .sysOpen 0), (0, .opened (.ok (5, 0o100644))), (0, .sysFork 1 true)] = some σ ∧
    (σ.file 0).count = 2 := ⟨_, rfl, rfl⟩
  have h0 : Reach (fun σ => σ = boot) step (fun _ _ => True) boot := Reach.start rfl
  have h := h0.exec (along_true _ _) hexec
  exact ⟨σ, h, hcount, ((descriptors_agree h).1 0).symm.trans hcount⟩

end Table

end OldLinux.Files
