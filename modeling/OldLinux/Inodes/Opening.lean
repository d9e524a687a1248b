import OldLinux.Inodes.Calls
import OldLinux.Inodes.Kept

/-!
# Opening and unlinking

As long as nobody frees an inode whose number somebody has read and whose inode he does not have yet, an
open file keeps the inode that its name had.  The invariant says where the inode table is for each point of
a system call, and that a process has the references that it still has to give back.
-/

namespace OldLinux.Inodes

open Lib

/-- In `iput`, or not in the inode code at all. -/
def Pc.returns : Pc → Bool
  | .user => true
  | .put _ .done => true
  | .putAgain _ .done => true
  | .putWrite _ .done => true
  | .putTrunc _ .done => true
  | _ => false

/-- In `get_empty_inode` for a pipe. -/
def Pc.pipes : Pc → Bool
  | .emptyWait .other _ => true
  | .emptyWrite .other _ => true
  | _ => false

/-- In `new_inode`. -/
def Pc.makes : Pc → Bool
  | .emptyWait (.newInode _) _ => true
  | .emptyWrite (.newInode _) _ => true
  | .newInode _ _ => true
  | _ => false

/-- The directory that is kept. -/
def Lookup.dirs (c : Lookup) : List (Fin 32) :=
  match c.goal with
  | .unlink d _ => [d]
  | _ => []

/-- The inode that was got last, once `iget` has it. -/
def Proc.last (p : Proc) : List (Fin 32) := if p.pc.returns then p.held.head?.toList else []

/-- What the process has to give back or to put into its files before the call ends. -/
def Script.owes {α : Type} (p : Proc) : Script α → List (Fin 32)
  | .idle => []
  | .putDir d c => d :: c.dirs
  | .get c => c.dirs
  | .getting c => p.last ++ c.dirs
  | .making _ d => [d]
  | .made _ d => p.last ++ [d]
  | .ending l => l

/-- The inode that was looked up has not been freed since. -/
def Lookup.Fresh {n : ℕ} (σ : Table n) (c : Lookup) : Prop := σ.freed c.dev c.nr = c.gen ∧ c.dev ≠ 0

/-- Where `iget` is. -/
inductive Lookup.Fetch {n : ℕ} (σ : Table n) (c : Lookup) : Proc → Prop
  | search (pc l) : Pc.wants pc = some (c.dev, c.nr) → c.Fresh σ → Lookup.Fetch σ c ⟨pc, l⟩
  | read (i l) : σ.Names i c.dev c.nr c.gen → Lookup.Fetch σ c ⟨.read i, l⟩
  | got (pc i l) : Pc.returns pc = true → σ.Names i c.dev c.nr c.gen → Lookup.Fetch σ c ⟨pc, i :: l⟩

/-- Where the process is in the inode code, for a point of its call. -/
def Script.At {α : Type} {n : ℕ} (σ : Table n) (p : Proc) : Script α → Prop
  | .idle => p.pc.returns = true ∨ p.pc.pipes = true
  | .putDir _ c => p.pc = .user ∧ c.Fresh σ
  | .get c => p.pc.returns = true ∧ c.Fresh σ
  | .getting c => c.Fetch σ p
  | .making _ _ => p.pc.makes = true
  | .made _ _ => p.pc = .user ∧ ∃ i l, p.held = i :: l ∧ (σ.inode i).dev ≠ 0
  | .ending _ => p.pc.returns = true

namespace World

open Table

variable {n : ℕ} {α : Type} {w w' : World n α} {P Q : Fin n} {i j : Fin 32} {dev nr : ℕ}

/-- What the open files and the call have of the references. -/
def owned (w : World n α) (P : Fin n) (j : Fin 32) : ℕ :=
  ((w.files P).map File.inode).count j + ((w.script P).owes (w.table.proc P)).count j

structure Safe (w : World n α) : Prop where
  sound : Sound w.table
  calm : w.table.panicked = false
  sb : ∀ i, w.table.sb i = none
  lone : Lone w.table
  sought : ∀ Q dev nr, w.Seeks Q dev nr → w.Stays dev nr
  here : ∀ P, (w.script P).At w.table (w.table.proc P)
  owns : ∀ P j, w.owned P j ≤ (w.table.proc P).held.count j
  files : ∀ P, ∀ f ∈ w.files P, w.table.Names f.inode f.dev f.nr f.gen

theorem Start.safe (h : Start w) : Safe w := by
  refine ⟨h.table.sound, h.table.calm, h.table.sb, ?_, ?_, ?_, ?_, ?_⟩
  · intro P i k hpc
    rw [h.table.proc] at hpc
    cases hpc
  · intro Q dev nr hseek
    rw [Seeks, h.script] at hseek
    cases hseek
  · intro P
    rw [h.script, h.table.proc]
    exact Or.inl rfl
  · intro P j
    rw [owned, h.files, h.script]
    exact Nat.zero_le _
  · intro P f hf
    rw [h.files] at hf
    cases hf

theorem Safe.openSafe (h : Safe w) : OpenSafe w := by
  refine ⟨h.calm, ?_⟩
  intro P f hf
  have N := h.files P f hf
  exact ⟨N.is, N.freed, N.bit h.sound⟩

/-- The inode of an open file is one that the process has. -/
theorem Safe.file_held (h : Safe w) {f : File} (hf : f ∈ w.files P) : f.inode ∈ (w.table.proc P).held := by
  have hle := h.owns P f.inode
  have hpos := List.count_pos_iff.2 (List.mem_map_of_mem (f := File.inode) hf)
  rw [owned] at hle
  exact List.count_pos_iff.1 (by omega)

/-- A process that is looking for an entry does so for its call. -/
theorem Safe.wants_seeks (h : Safe w) (hwants : (w.table.proc P).pc.wants = some (dev, nr)) :
    w.Seeks P dev nr := by
  have hat := h.here P
  cases hp : w.table.proc P with
  | mk pc l =>
    rw [hp] at hat hwants
    have hreturns : pc.returns = false ∧ pc.pipes = false ∧ pc.makes = false ∧ pc ≠ .user := by
      cases pc with
      | emptyWait k i => cases k <;> first | exact ⟨rfl, rfl, rfl, fun h => (by cases h)⟩ | cases hwants
      | emptyWrite k i => cases k <;> first | exact ⟨rfl, rfl, rfl, fun h => (by cases h)⟩ | cases hwants
      | look e dev nr => exact ⟨rfl, rfl, rfl, fun h => (by cases h)⟩
      | lookWait e dev nr i => exact ⟨rfl, rfl, rfl, fun h => (by cases h)⟩
      | _ => cases hwants
    obtain ⟨h1, h2, h3, h4⟩ := hreturns
    cases hs : w.script P with
    | getting c =>
      simp only [Seeks, hs, hp]
      exact hwants
    | _ => simp [hs, Script.At, h1, h2, h3, h4] at hat

/-- An `iget` that has found an entry looks for it on behalf of a call. -/
theorem Safe.hits_seeks (h : Safe w) (hhit : Hits w.table P i) :
    ∃ dev nr, w.Seeks P dev nr ∧ (w.table.inode i).is dev nr := by
  rw [Hits] at hhit
  cases hpc : (w.table.proc P).pc <;> simp only [hpc] at hhit
  · rename_i e dev nr
    exact ⟨dev, nr, h.wants_seeks (by rw [hpc]; rfl), lookup_some hhit⟩
  · rename_i e dev nr j
    exact ⟨dev, nr, h.wants_seeks (by rw [hpc]; rfl), hhit.2⟩

/-! ### The other processes -/

theorem fresh_kept {τ : Table n} (K : Kept w.table τ P) {c : Lookup} (hstays : w.Stays c.dev c.nr)
    (hfresh : c.Fresh w.table) : c.Fresh τ := by
  rw [Lookup.Fresh, (K.bits c.dev c.nr (fun i k => hstays.2 P i k) hstays.1).2]
  exact hfresh

theorem Safe.fetch_kept (h : Safe w) (K : Kept w.table w'.table P) (hQP : Q ≠ P) {c : Lookup}
    (hs : w.script Q = .getting c) (hfetch : c.Fetch w.table (w.table.proc Q)) :
    c.Fetch w'.table (w.table.proc Q) := by
  obtain ⟨p, hp⟩ : ∃ p, w.table.proc Q = p := ⟨_, rfl⟩
  rw [hp] at hfetch ⊢
  cases hfetch with
  | search pc l hwants hfresh =>
    refine .search pc l hwants (fresh_kept K (h.sought Q _ _ ?_) hfresh)
    simp only [Seeks, hs, hp]
    exact hwants
  | read i l N =>
    refine .read i l (N.kept h.sound K (Or.inr ⟨hQP, ?_⟩))
    rw [hp]
    exact List.mem_append_right _ (List.mem_singleton_self i)
  | got pc i l hreturns N =>
    refine .got pc i l hreturns (N.kept h.sound K (Q := Q) (Or.inl ?_))
    rw [hp]
    exact List.mem_cons_self

/-- The calls of the others are where they were. -/
theorem Safe.here_kept (h : Safe w) (K : Kept w.table w'.table P) (hQP : Q ≠ P) :
    (w.script Q).At w'.table (w.table.proc Q) := by
  have hat := h.here Q
  cases hs : w.script Q with
  | putDir d c =>
    rw [hs] at hat
    refine ⟨hat.1, fresh_kept K (h.sought Q _ _ ?_) hat.2⟩
    simp only [Seeks, hs]
    exact ⟨trivial, trivial⟩
  | get c =>
    rw [hs] at hat
    refine ⟨hat.1, fresh_kept K (h.sought Q _ _ ?_) hat.2⟩
    simp only [Seeks, hs]
    exact ⟨trivial, trivial⟩
  | getting c =>
    rw [hs] at hat
    exact h.fetch_kept K hQP hs hat
  | made x d =>
    rw [hs] at hat
    obtain ⟨hpc, i, l, hl, hdev⟩ := hat
    refine ⟨hpc, i, l, hl, ?_⟩
    rw [(K.name h.sound (Q := Q) (Or.inl (by rw [hl]; exact List.mem_cons_self))).1]
    exact hdev
  | _ =>
    rw [hs] at hat
    exact hat

/-- **One process at a time.**  What is left to show of a step is about its own process. -/
theorem Safe.step_of_kept (h : Safe w) (K : Kept w.table w'.table P)
    (hscript : ∀ Q, Q ≠ P → w'.script Q = w.script Q) (hfiles : ∀ Q, Q ≠ P → w'.files Q = w.files Q)
    (hhere : (w'.script P).At w'.table (w'.table.proc P))
    (howns : ∀ j, w'.owned P j ≤ (w'.table.proc P).held.count j)
    (hnew : ∀ f ∈ w'.files P, f ∈ w.files P ∨ w'.table.Names f.inode f.dev f.nr f.gen)
    (hseek : ∀ dev nr, w'.Seeks P dev nr → w.Stays dev nr)
    (htrunc : ∀ i k, (w'.table.proc P).pc = .putTrunc i k →
      (w'.table.inode i).count = 1 ∧ (w'.table.inode i).disk.nlinks = 0 ∧
      ∀ Q dev nr, w'.Seeks Q dev nr → ¬(w'.table.inode i).is dev nr) : Safe w' := by
  have hstays : ∀ Q dev nr, w'.Seeks Q dev nr → w.Stays dev nr := by
    intro Q dev nr hs
    by_cases hQP : Q = P
    · rw [hQP] at hs
      exact hseek dev nr hs
    · rw [Seeks, hscript Q hQP, K.others Q hQP] at hs
      exact h.sought Q dev nr hs
  refine ⟨K.sound, K.calm, K.sb, ?_, ?_, ?_, ?_, ?_⟩
  · intro Q i k hpc
    by_cases hQP : Q = P
    · rw [hQP] at hpc
      obtain ⟨h1, h2, -⟩ := htrunc i k hpc
      exact ⟨h1, h2⟩
    · rw [K.others Q hQP] at hpc
      obtain ⟨h1, h2⟩ := h.lone Q i k hpc
      have hmem : i ∈ (w.table.proc Q).refs := by
        refine List.mem_append_right _ ?_
        rw [hpc]
        exact List.mem_cons_self
      have halike : Alike (w.table.inode i) (w'.table.inode i) := by
        refine K.alike i ?_ (by omega) ?_
        · intro hP
          have h3 := h.sound.two_le_count hQP hmem hP
          omega
        · intro hhit
          obtain ⟨dev, nr, hsk, his⟩ := h.hits_seeks hhit
          exact (h.sought P dev nr hsk).2 Q i k hpc his
      rw [halike.count, halike.nlinks]
      exact ⟨h1, h2⟩
  · intro Q dev nr hs
    have hst := hstays Q dev nr hs
    refine ⟨(K.bits dev nr (fun i k => hst.2 P i k) hst.1).1, ?_⟩
    intro R i k hpc his
    by_cases hRP : R = P
    · rw [hRP] at hpc
      exact (htrunc i k hpc).2.2 Q dev nr hs his
    · rw [K.others R hRP] at hpc
      have hmem : i ∈ (w.table.proc R).refs := by
        refine List.mem_append_right _ ?_
        rw [hpc]
        exact List.mem_cons_self
      obtain ⟨h1, h2⟩ := K.name h.sound (Or.inr ⟨hRP, hmem⟩)
      exact hst.2 R i k hpc ⟨h1.symm.trans his.1, h2.symm.trans his.2⟩
  · intro Q
    by_cases hQP : Q = P
    · rw [hQP]
      exact hhere
    · rw [hscript Q hQP, K.others Q hQP]
      exact h.here_kept K hQP
  · intro Q j
    by_cases hQP : Q = P
    · rw [hQP]
      exact howns j
    · rw [owned, hscript Q hQP, hfiles Q hQP, K.others Q hQP]
      exact h.owns Q j
  · intro Q f hf
    have hold : f ∈ w.files Q → w'.table.Names f.inode f.dev f.nr f.gen := fun hmem =>
      (h.files Q f hmem).kept h.sound K (Or.inl (h.file_held hmem))
    by_cases hQP : Q = P
    · rw [hQP] at hf hold
      rcases hnew f hf with hmem | N
      · exact hold hmem
      · exact N
    · rw [hfiles Q hQP] at hf
      exact hold hf

end World

end OldLinux.Inodes
