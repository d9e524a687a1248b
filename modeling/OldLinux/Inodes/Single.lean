import OldLinux.Inodes.Machine
import OldLinux.Lib.Counting

/-!
# One entry for an inode

`i_count` is the number of references to the entry, those in the middle of a call included.  `iget`
looks through the whole table before it uses its empty entry, but `new_inode` does not: it relies on the
bitmap.  So an inode has one entry as long as `iget` is not asked for a number that is free by the time
it has found no entry.
-/

namespace OldLinux.Inodes

open Function Lib

/-! ### References -/

def After.refs : After → List (Fin 32)
  | .done => []
  | .cross empty _ => [empty]

/-- The references of a call. -/
def Pc.refs : Pc → List (Fin 32)
  | .look empty _ _ => [empty]
  | .lookWait empty _ _ _ => [empty]
  | .read i => [i]
  | .newInode i _ => [i]
  | .put i k => i :: k.refs
  | .putAgain i k => i :: k.refs
  | .putWrite i k => i :: k.refs
  | .putTrunc i k => i :: k.refs
  | _ => []

/-- The entry that `get_empty_inode` has given to the call. -/
def Pc.empty : Pc → List (Fin 32)
  | .look empty _ _ => [empty]
  | .lookWait empty _ _ _ => [empty]
  | .newInode i _ => [i]
  | .put _ k => k.refs
  | .putAgain _ k => k.refs
  | .putWrite _ k => k.refs
  | .putTrunc _ k => k.refs
  | _ => []

theorem Pc.refs_of_empty {pc : Pc} {e : Fin 32} (h : e ∈ pc.empty) : e ∈ pc.refs := by
  cases pc <;> first | exact h | exact List.mem_cons_of_mem _ h

def Caller.Real : Caller → Prop
  | .iget dev _ => dev ≠ 0
  | .newInode dev => dev ≠ 0
  | .other => True

def After.Real : After → Prop
  | .done => True
  | .cross _ dev => dev ≠ 0

/-- The device that a call is about is one. -/
def Pc.Real : Pc → Prop
  | .emptyWait k _ => k.Real
  | .emptyWrite k _ => k.Real
  | .look _ dev _ => dev ≠ 0
  | .lookWait _ dev _ _ => dev ≠ 0
  | .newInode _ dev => dev ≠ 0
  | .put _ k => k.Real
  | .putAgain _ k => k.Real
  | .putWrite _ k => k.Real
  | .putTrunc _ k => k.Real
  | _ => True

def Proc.refs (p : Proc) : List (Fin 32) := p.held ++ p.pc.refs

namespace Table

variable {n : ℕ} {σ τ : Table n} {P Q : Fin n} {p : Proc} {i j : Fin 32} {k : After}

structure Sound (σ : Table n) : Prop where
  counts : ∀ i, (σ.inode i).count = ∑ P, (σ.proc P).refs.count i
  single : ∀ i j, (σ.inode i).dev ≠ 0 → (σ.inode j).is (σ.inode i).dev (σ.inode i).num → i = j
  bits : ∀ i, (σ.inode i).dev ≠ 0 → σ.bit (σ.inode i).dev (σ.inode i).num = true
  blank : ∀ P, ∀ e ∈ (σ.proc P).pc.empty, (σ.inode e).dev = 0 ∧ (σ.inode e).count = 1
  real : ∀ P, (σ.proc P).pc.Real
  sb : ∀ i, σ.sb i ≠ some 0

theorem Start.sound (h : Start σ) : Sound σ := by
  refine ⟨?_, ?_, ?_, ?_, ?_, ?_⟩
  · intro i
    rw [h.inode]
    symm
    refine Finset.sum_eq_zero ?_
    intro P _
    rw [h.proc]
    rfl
  · intro i j hi
    rw [h.inode] at hi
    exact absurd rfl hi
  · intro i hi
    rw [h.inode] at hi
    exact absurd rfl hi
  · intro P e he
    rw [h.proc] at he
    cases he
  · intro P
    rw [h.proc]
    trivial
  · intro i
    rw [h.sb]
    exact fun h => (by cases h)

/-- A reference is counted. -/
theorem Sound.count_pos (h : Sound σ) (hi : i ∈ (σ.proc P).refs) : 0 < (σ.inode i).count := by
  rw [h.counts]
  have hle := le_sum_univ (fun P => (σ.proc P).refs.count i) P
  have hpos := List.count_pos_iff.2 hi
  omega

/-- Two processes have two references. -/
theorem Sound.two_le_count (h : Sound σ) (hPQ : P ≠ Q) (hP : i ∈ (σ.proc P).refs)
    (hQ : i ∈ (σ.proc Q).refs) : 2 ≤ (σ.inode i).count := by
  rw [h.counts]
  have hle := add_le_sum_univ (fun P => (σ.proc P).refs.count i) hPQ
  have hp := List.count_pos_iff.2 hP
  have hq := List.count_pos_iff.2 hQ
  omega

/-- A call that gives back the last reference is the only one to have it. -/
theorem Sound.not_held (h : Sound σ) (hP : i ∈ (σ.proc P).pc.refs) (hone : (σ.inode i).count ≤ 1) :
    i ∉ (σ.proc Q).held := by
  intro hQ
  by_cases hPQ : P = Q
  · subst hPQ
    have hle := le_sum_univ (fun P => (σ.proc P).refs.count i) P
    rw [h.counts] at hone
    have hp := List.count_pos_iff.2 hP
    have hq := List.count_pos_iff.2 hQ
    simp only [Proc.refs, List.count_append] at hle hone
    omega
  · have h2 := h.two_le_count hPQ (List.mem_append_right _ hP) (List.mem_append_left _ hQ)
    omega

/-! ### One process at a time -/

/-- What a step of process `P` does: the counts follow its references, and it changes no entry that
another call has taken for itself. -/
structure Move (σ τ : Table n) (P : Fin n) (p : Proc) : Prop where
  proc : τ.proc = update σ.proc P p
  counts : ∀ i, (τ.inode i).count + (σ.proc P).refs.count i = (σ.inode i).count + p.refs.count i
  blank : ∀ e ∈ p.pc.empty, (τ.inode e).dev = 0 ∧ (τ.inode e).count = 1
  real : p.pc.Real
  others : ∀ i, (τ.inode i).dev ≠ (σ.inode i).dev ∨ (τ.inode i).count ≠ (σ.inode i).count →
    (σ.inode i).count = 0 ∨ i ∈ (σ.proc P).refs ∨ (σ.inode i).dev ≠ 0 ∨ ∃ Q, i ∈ (σ.proc Q).held
  single : ∀ i j, (τ.inode i).dev ≠ 0 → (τ.inode j).is (τ.inode i).dev (τ.inode i).num → i = j
  bits : ∀ i, (τ.inode i).dev ≠ 0 → τ.bit (τ.inode i).dev (τ.inode i).num = true
  sb : ∀ i, τ.sb i ≠ some 0

theorem Move.sound (M : Move σ τ P p) (h : Sound σ) : Sound τ := by
  refine ⟨?_, M.single, M.bits, ?_, ?_, M.sb⟩
  · intro i
    have hsum := sum_replace (fun p : Proc => p.refs.count i) σ.proc P p
    have hc := M.counts i
    have hold := h.counts i
    rw [M.proc]
    omega
  · intro Q e he
    rw [M.proc, update_apply] at he
    split at he
    · exact M.blank e he
    · rename_i hQ
      obtain ⟨h0, h1⟩ := h.blank Q e he
      have hmem : e ∈ (σ.proc Q).refs := List.mem_append_right _ (Pc.refs_of_empty he)
      have hsame : ¬((τ.inode e).dev ≠ (σ.inode e).dev ∨ (τ.inode e).count ≠ (σ.inode e).count) := by
        intro hne
        rcases M.others e hne with hz | hP | hd | ⟨R, hR⟩
        · omega
        · have h2 := h.two_le_count hQ hmem hP
          omega
        · exact hd h0
        · exact h.not_held (Pc.refs_of_empty he) (Nat.le_of_eq h1) hR
      rw [not_or, not_not, not_not] at hsame
      rw [hsame.1, hsame.2]
      exact ⟨h0, h1⟩
  · intro Q
    rw [M.proc, update_apply]
    split
    · exact M.real
    · exact h.real Q

/-- The names of entries are not changed while somebody has a reference. -/
def Keeps (σ τ : Table n) : Prop := ∀ Q, ∀ i ∈ (σ.proc Q).held,
  (τ.inode i).dev = (σ.inode i).dev ∧ (τ.inode i).num = (σ.inode i).num

/-- A step of process `P` changes the name of an entry only when there is no reference to it or the
only one is that of its call, and it frees an inode only in the second case. -/
structure Tidy (σ τ : Table n) (P : Fin n) : Prop where
  names : ∀ i, (σ.inode i).count = 0 ∨ (i ∈ (σ.proc P).pc.refs ∧ (σ.inode i).count ≤ 1) ∨
    (τ.inode i).dev = (σ.inode i).dev ∧ (τ.inode i).num = (σ.inode i).num
  freed : ∀ dev nr, (∃ i ∈ (σ.proc P).pc.refs, (σ.inode i).count ≤ 1 ∧ (σ.inode i).is dev nr) ∨
    τ.freed dev nr = σ.freed dev nr

theorem Tidy.keeps (T : Tidy σ τ P) (h : Sound σ) : Keeps σ τ := by
  intro Q i hi
  rcases T.names i with h0 | ⟨hP, h1⟩ | hsame
  · have hpos := h.count_pos (List.mem_append_left _ hi)
    omega
  · exact absurd hi (h.not_held hP h1)
  · exact hsame

/-- The entries that have an inode had it before. -/
theorem single_of_sub (h : Sound σ) (hsub : ∀ i, (τ.inode i).dev ≠ 0 →
      (τ.inode i).dev = (σ.inode i).dev ∧ (τ.inode i).num = (σ.inode i).num) :
    ∀ i j, (τ.inode i).dev ≠ 0 → (τ.inode j).is (τ.inode i).dev (τ.inode i).num → i = j := by
  intro i j hi hj
  obtain ⟨h1, h2⟩ := hsub i hi
  obtain ⟨h3, h4⟩ := hsub j (by rw [hj.1]; exact hi)
  rw [h1] at hi
  exact h.single i j hi ⟨by rw [← h3, hj.1, h1], by rw [← h4, hj.2, h2]⟩

/-! ### Steps that change no name -/

/-- Only `i_dirt`, `i_lock`, `i_mount` and what comes from the disk have changed. -/
structure SameNames (σ τ : Table n) : Prop where
  dev : ∀ i, (τ.inode i).dev = (σ.inode i).dev
  num : ∀ i, (τ.inode i).num = (σ.inode i).num
  bit : τ.bit = σ.bit
  sb : ∀ i, τ.sb i ≠ some 0
  freed : τ.freed = σ.freed

theorem SameNames.single (S : SameNames σ τ) (h : Sound σ) :
    ∀ i j, (τ.inode i).dev ≠ 0 → (τ.inode j).is (τ.inode i).dev (τ.inode i).num → i = j :=
  single_of_sub h fun i _ => ⟨S.dev i, S.num i⟩

theorem SameNames.bits (S : SameNames σ τ) (h : Sound σ) :
    ∀ i, (τ.inode i).dev ≠ 0 → τ.bit (τ.inode i).dev (τ.inode i).num = true := by
  intro i hi
  rw [S.bit, S.dev, S.num]
  rw [S.dev] at hi
  exact h.bits i hi

theorem SameNames.tidy (S : SameNames σ τ) (P : Fin n) : Tidy σ τ P :=
  ⟨fun i => Or.inr (Or.inr ⟨S.dev i, S.num i⟩), fun _ _ => Or.inr (by rw [S.freed])⟩

/-- No count changes either. -/
theorem SameNames.move (S : SameNames σ τ) (h : Sound σ) (hcount : ∀ i, (τ.inode i).count = (σ.inode i).count)
    (hproc : τ.proc = update σ.proc P p) (hrefs : ∀ i, p.refs.count i = (σ.proc P).refs.count i)
    (hempty : ∀ e ∈ p.pc.empty, e ∈ (σ.proc P).pc.empty) (hreal : p.pc.Real) : Move σ τ P p := by
  refine ⟨hproc, ?_, ?_, hreal, ?_, S.single h, S.bits h, S.sb⟩
  · intro i
    rw [hcount, hrefs]
  · intro e he
    rw [S.dev, hcount]
    exact h.blank P e (hempty e he)
  · intro i hne
    rcases hne with hd | hc
    · exact absurd (S.dev i) hd
    · exact absurd (hcount i) hc

@[simp] theorem setInode_inode (t : Inode) (j : Fin 32) :
    (σ.setInode i t).inode j = if j = i then t else σ.inode j := update_apply ..

@[simp] theorem setPc_inode (pc : Pc) : (σ.setPc P pc).inode = σ.inode := rfl

@[simp] theorem setProc_inode : (σ.setProc P p).inode = σ.inode := rfl

@[simp] theorem setCount_inode (c : ℕ) (j : Fin 32) : (σ.setCount i c).inode j =
    if j = i then { σ.inode i with count := c } else σ.inode j := update_apply ..

/-- An entry is rewritten that keeps its name. -/
theorem sameNames_setInode (h : Sound σ) {t : Inode} (hdev : t.dev = (σ.inode i).dev)
    (hnum : t.num = (σ.inode i).num) : SameNames σ (σ.setInode i t) := by
  refine ⟨?_, ?_, rfl, h.sb, rfl⟩
  · intro j
    rw [setInode_inode]
    split
    · rename_i hj
      rw [hj, hdev]
    · rfl
  · intro j
    rw [setInode_inode]
    split
    · rename_i hj
      rw [hj, hnum]
    · rfl

/-- What the next program counter needs. -/
structure Next (σ : Table n) (P : Fin n) (pc : Pc) : Prop where
  refs : ∀ i, pc.refs.count i = (σ.proc P).pc.refs.count i
  empty : ∀ e ∈ pc.empty, e ∈ (σ.proc P).pc.empty
  real : pc.Real

/-- A process goes on, with at most a lock or a dirty bit changed. -/
theorem Next.spec {q : Pc} (N : Next σ P q) (h : Sound σ) (S : SameNames σ τ)
    (hcount : ∀ i, (τ.inode i).count = (σ.inode i).count)
    (hproc : τ.proc = update σ.proc P { σ.proc P with pc := q }) : Sound τ ∧ Tidy σ τ P := by
  refine ⟨(S.move h hcount hproc ?_ N.empty N.real).sound h, S.tidy P⟩
  intro i
  simp only [Proc.refs, List.count_append, N.refs]

/-- A process goes on and changes nothing. -/
theorem Next.setPc {pc : Pc} (N : Next σ P pc) (h : Sound σ) : Sound (σ.setPc P pc) ∧ Tidy σ (σ.setPc P pc) P :=
  N.spec h ⟨fun _ => rfl, fun _ => rfl, rfl, h.sb, rfl⟩ (fun _ => rfl) rfl

theorem panic_spec (h : Sound σ) (P : Fin n) : Sound σ.panic ∧ Tidy σ σ.panic P :=
  ⟨⟨h.counts, h.single, h.bits, h.blank, h.real, h.sb⟩, fun _ => Or.inr (Or.inr ⟨rfl, rfl⟩),
    fun _ _ => Or.inr rfl⟩

/-- A process that has no reference in its call looks for an empty entry. -/
theorem getEmpty_spec (h : Sound σ) (hpc : (σ.proc P).pc.refs = []) {k : Caller} (hk : k.Real) :
    Sound (σ.getEmpty P k) ∧ Tidy σ (σ.getEmpty P k) P := by
  have N : ∀ i, Next σ P (.emptyWait k i) := by
    intro i
    refine ⟨?_, fun _ he => (by cases he), hk⟩
    intro j
    rw [hpc]
    rfl
  rw [getEmpty]
  split
  · exact (N _).spec h ⟨fun _ => rfl, fun _ => rfl, rfl, h.sb, rfl⟩ (fun _ => rfl) rfl
  · split
    · exact (N _).setPc h
    · exact panic_spec h P

theorem written_sameNames (h : Sound σ) : SameNames σ (σ.written i) := by
  have S := sameNames_setInode (t := { σ.inode i with dirt := false, lock := false }) (i := i) h rfl rfl
  exact ⟨S.dev, S.num, rfl, h.sb, rfl⟩

theorem written_count (j : Fin 32) : ((σ.written i).inode j).count = (σ.inode j).count := by
  show (update σ.inode i _ j).count = _
  rw [update_apply]
  split
  · rename_i hj
    rw [hj]
  · rfl

theorem setLock_sameNames (h : Sound σ) : SameNames σ (σ.setLock i) := sameNames_setInode h rfl rfl

theorem setLock_count (j : Fin 32) : ((σ.setLock i).inode j).count = (σ.inode j).count := by
  rw [setLock, setInode_inode]
  split
  · rename_i hj
    rw [hj]
  · rfl

end Table

end OldLinux.Inodes
