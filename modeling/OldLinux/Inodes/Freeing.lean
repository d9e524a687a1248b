import OldLinux.Inodes.Runs

/-!
# What a step leaves alone

A process changes only entries to which it has a reference, entries without references, and the entry
that its `iget` has found.  So when `iput` is in `truncate` with the last reference, only an `iget` of the
same inode can come between it and `free_inode`.
-/

namespace OldLinux.Inodes.Table

open Lib

variable {n : ℕ} {σ τ : Table n} {P Q : Fin n} {i j e : Fin 32} {k : After} {dev nr : ℕ}

/-- `iget` has found the entry, if it is not locked. -/
def Hits (σ : Table n) (P : Fin n) (i : Fin 32) : Prop :=
  match (σ.proc P).pc with
  | .look _ dev nr => σ.lookup dev nr = some i
  | .lookWait _ dev nr j => j = i ∧ (σ.inode i).is dev nr
  | _ => False

/-- The count, the links and the name of the entry are the same. -/
structure Alike (t u : Inode) : Prop where
  count : u.count = t.count
  nlinks : u.disk.nlinks = t.disk.nlinks
  dev : u.dev = t.dev
  num : u.num = t.num

theorem Alike.refl (t : Inode) : Alike t t := ⟨rfl, rfl, rfl, rfl⟩

theorem alike_setInode {t : Inode} (h : j = i → Alike (σ.inode i) t) :
    Alike (σ.inode j) ((σ.setInode i t).inode j) := by
  rw [setInode_inode]
  split
  · rename_i hj
    rw [hj]
    exact h hj
  · exact Alike.refl _

theorem getEmpty_inode (k : Caller) : (σ.getEmpty P k).inode = σ.inode := by
  rw [getEmpty]
  split
  · rfl
  · split
    · rfl
    · rfl

theorem take_alike (k : Caller) (hji : j ≠ i) : Alike (σ.inode j) ((σ.take P k i).inode j) := by
  cases k <;> exact alike_setInode fun h => absurd h hji

theorem hit_alike (hji : j ≠ i) : Alike (σ.inode j) ((σ.hit P e i).inode j) := by
  rw [hit.eq_def]
  simp only
  split
  · exact alike_setInode fun h => absurd h hji
  · exact alike_setInode fun h => absurd h hji

theorem setLock_alike : Alike (σ.inode j) ((σ.setLock i).inode j) := alike_setInode fun _ =>
    ⟨rfl, rfl, rfl, rfl⟩

theorem written_alike : Alike (σ.inode j) ((σ.written i).inode j) :=
  alike_setInode (σ := σ) (t := { σ.inode i with dirt := false, lock := false }) fun _ =>
    ⟨rfl, rfl, rfl, rfl⟩

theorem drop_alike (hji : j ≠ i) : Alike (σ.inode j) ((σ.drop P i k).inode j) :=
  alike_setInode fun h => absurd h hji

theorem putRepeat_alike (hji : j ≠ i) : Alike (σ.inode j) ((σ.putRepeat P i k).inode j) := by
  rw [putRepeat]
  split
  · exact drop_alike hji
  · split
    · exact Alike.refl _
    · split
      · exact setLock_alike
      · exact drop_alike hji

theorem put_alike (hji : j ≠ i) : Alike (σ.inode j) ((σ.put P i k).inode j) := by
  rw [put]
  split
  · exact Alike.refl _
  · split
    · exact drop_alike hji
    · split
      · exact Alike.refl _
      · exact putRepeat_alike hji

theorem freeInode_alike (hji : j ≠ i) : Alike (σ.inode j) ((σ.freeInode P i k).inode j) := by
  rw [freeInode]
  simp only
  split
  · exact Alike.refl _
  · exact alike_setInode fun h => absurd h hji

theorem run_alike (hs : σ.run P = some τ) (hj : j ∉ (σ.proc P).refs) (hcount : (σ.inode j).count ≠ 0)
    (hhit : ¬Hits σ P j) : Alike (σ.inode j) (τ.inode j) := by
  have hpcj : j ∉ (σ.proc P).pc.refs := fun h => hj (List.mem_append_right _ h)
  have hran := run_cases hs
  rw [Hits] at hhit
  generalize (σ.proc P).pc = pc at hran hpcj hhit
  cases hran with
  | flush => exact setLock_alike
  | @take c i _ _ hzero =>
    refine take_alike c ?_
    rintro rfl
    exact hcount hzero
  | again =>
    rw [getEmpty_inode]
    exact Alike.refl _
  | flushed | wrote => exact written_alike
  | @look e dev nr =>
    have hje : j ≠ e := fun h => hpcj (List.mem_singleton.2 h)
    rw [look]
    split
    · rename_i i hlook
      split
      · exact Alike.refl _
      · refine hit_alike ?_
        rintro rfl
        exact hhit hlook
    · exact alike_setInode fun h => absurd h hje
  | found _ his =>
    refine hit_alike ?_
    rintro rfl
    exact hhit ⟨rfl, his⟩
  | retry => exact Alike.refl _
  | loaded => exact alike_setInode fun h => absurd (List.mem_singleton.2 h) hpcj
  | put => exact put_alike (List.ne_of_not_mem_cons hpcj)
  | putAgain => exact putRepeat_alike (List.ne_of_not_mem_cons hpcj)
  | freed => exact freeInode_alike (List.ne_of_not_mem_cons hpcj)

theorem step_alike {ev : Event n} (hs : step σ (P, ev) = some τ) (hj : j ∉ (σ.proc P).refs)
    (hcount : (σ.inode j).count ≠ 0) (hhit : ¬Hits σ P j) : Alike (σ.inode j) (τ.inode j) := by
  have hheld : ∀ {i}, i ∈ (σ.proc P).held → j = i → False := by
    rintro i hi rfl
    exact hj (List.mem_append_left _ hi)
  rw [step] at hs
  split at hs
  · cases hs
  · cases ev with
    | run => exact run_alike hs hj hcount hhit
    | iget dev nr =>
      cases hpc : (σ.proc P).pc <;> simp only [hpc, reduceCtorEq] at hs
      obtain ⟨-, heq⟩ := Option.ite_none_right_eq_some.1 hs
      cases heq
      rw [getEmpty_inode]
      exact Alike.refl _
    | newInode dev =>
      cases hpc : (σ.proc P).pc <;> simp only [hpc, reduceCtorEq] at hs
      obtain ⟨-, heq⟩ := Option.ite_none_right_eq_some.1 hs
      cases heq
      rw [getEmpty_inode]
      exact Alike.refl _
    | getEmpty =>
      cases hpc : (σ.proc P).pc <;> simp only [hpc, reduceCtorEq] at hs
      cases hs
      rw [getEmpty_inode]
      exact Alike.refl _
    | iput i =>
      cases hpc : (σ.proc P).pc <;> simp only [hpc, reduceCtorEq] at hs
      obtain ⟨-, heq⟩ := Option.ite_none_right_eq_some.1 hs
      cases heq
      exact Alike.refl _
    | share i Q =>
      cases hpc : (σ.proc P).pc <;> simp only [hpc, reduceCtorEq] at hs
      obtain ⟨hi, heq⟩ := Option.ite_none_right_eq_some.1 hs
      cases heq
      exact alike_setInode fun h => (hheld hi h).elim
    | give i Q =>
      cases hpc : (σ.proc P).pc <;> simp only [hpc, reduceCtorEq] at hs
      obtain ⟨-, heq⟩ := Option.ite_none_right_eq_some.1 hs
      cases heq
      exact Alike.refl _
    | modify i disk =>
      cases hpc : (σ.proc P).pc <;> simp only [hpc, reduceCtorEq] at hs
      obtain ⟨hi, heq⟩ := Option.ite_none_right_eq_some.1 hs
      cases heq
      exact alike_setInode fun h => (hheld hi h).elim
    | mount i dev =>
      cases hpc : (σ.proc P).pc <;> simp only [hpc, reduceCtorEq] at hs
      obtain ⟨-, heq⟩ := Option.ite_none_right_eq_some.1 hs
      cases heq
      exact alike_setInode (t := { σ.inode i with mount := dev.isSome }) fun _ => ⟨rfl, rfl, rfl, rfl⟩
    | bit nr =>
      cases nr with
      | none =>
        cases hpc : (σ.proc P).pc <;> simp only [hpc, reduceCtorEq] at hs
        cases hs
        exact Alike.refl _
      | some nr =>
        cases hpc : (σ.proc P).pc <;> simp only [hpc, reduceCtorEq] at hs
        rename_i i dev
        obtain ⟨-, heq⟩ := Option.ite_none_right_eq_some.1 hs
        cases heq
        refine alike_setInode fun h => absurd (List.mem_append_right _ ?_) hj
        rw [hpc, h]
        exact List.mem_singleton_self i

/-! ### Panics -/

theorem mem_order (i : Fin 32) : i ∈ σ.order := by
  refine List.mem_map.2 ⟨i - (σ.last + 1), List.mem_finRange _, ?_⟩
  ext
  simp only [Fin.val_add, Fin.val_sub]
  omega

/-- There is an entry for `get_empty_inode`. -/
def Room (σ : Table n) : Prop := ∃ i, (σ.inode i).count = 0

theorem getEmpty_calm (hroom : Room σ) (hcalm : σ.panicked = false) (k : Caller) :
    (σ.getEmpty P k).panicked = false := by
  obtain ⟨i, hi⟩ := hroom
  rw [getEmpty]
  split
  · exact hcalm
  · split
    · exact hcalm
    · rename_i hnone
      have hnil := List.getLast?_eq_none_iff.1 hnone
      have hmem : i ∈ σ.order.filter fun i => decide ((σ.inode i).count = 0) :=
        List.mem_filter.2 ⟨mem_order i, decide_eq_true hi⟩
      rw [hnil] at hmem
      cases hmem

theorem hit_calm (hcalm : σ.panicked = false) : (σ.hit P e i).panicked = false := by
  rw [hit.eq_def]
  simp only
  split <;> exact hcalm

theorem putRepeat_calm (hcalm : σ.panicked = false) : (σ.putRepeat P i k).panicked = false := by
  rw [putRepeat]
  split
  · exact hcalm
  · split
    · exact hcalm
    · split
      · exact hcalm
      · exact hcalm

/-- The process searches for an empty entry once more. -/
def Retries (σ : Table n) (P : Fin n) : Prop :=
  match (σ.proc P).pc with
  | .emptyWait _ i => (σ.inode i).lock = false ∧ (σ.inode i).dirt = false ∧ (σ.inode i).count ≠ 0
  | _ => False

/-- Whoever is in `truncate` has the only reference to an inode without links. -/
def Lone (σ : Table n) : Prop := ∀ P i k, (σ.proc P).pc = .putTrunc i k →
  (σ.inode i).count = 1 ∧ (σ.inode i).disk.nlinks = 0

theorem run_calm (h : Sound σ) (hlone : Lone σ) (hroom : Retries σ P → Room σ)
    (hcalm : σ.panicked = false) (hs : σ.run P = some τ) : τ.panicked = false := by
  have hran := run_cases hs
  generalize hpc : (σ.proc P).pc = pc at hran
  cases hran with
  | @take c => cases c <;> exact hcalm
  | again unlocked clean used =>
    refine getEmpty_calm (hroom ?_) hcalm _
    rw [Retries, hpc]
    exact ⟨unlocked, clean, used⟩
  | look =>
    rw [look]
    split
    · split
      · exact hcalm
      · exact hit_calm hcalm
    · exact hcalm
  | found => exact hit_calm hcalm
  | @put i =>
    have hpos : 0 < (σ.inode i).count := by
      refine h.count_pos (P := P) (List.mem_append_right _ ?_)
      rw [hpc]
      exact List.mem_cons_self
    rw [put, if_neg (Nat.ne_of_gt hpos)]
    split
    · exact hcalm
    · split
      · exact hcalm
      · exact putRepeat_calm hcalm
  | putAgain => exact putRepeat_calm hcalm
  | freed =>
    obtain ⟨h1, h2⟩ := hlone P _ _ hpc
    rw [freeInode, if_neg]
    · exact hcalm
    · omega
  | _ => exact hcalm

end OldLinux.Inodes.Table
