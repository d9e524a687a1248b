import OldLinux.Inodes.Records

/-!
# Entries and their locks

An entry is locked by at most one writer or reader, and as long as it is being read nobody else has it.
An entry that nobody has is not dirty.
-/

namespace OldLinux.Inodes

open Lib
open OldLinux.Volume (Kernel SuperBlock Coherent S_ISBLK read_inode write_inode)

/-- The entry that the call has locked. -/
def Pc.owns : Pc → Option (Fin 32)
  | .emptyWrite _ i => some i
  | .read i => some i
  | .putWrite i _ => some i
  | _ => none

namespace Store

variable {n : ℕ} {σ τ : Store n} {P Q : Fin n} {i j e : Fin 32} {k : After}
variable {disks : ℕ → SuperBlock}

def pc (σ : Store n) (P : Fin n) : Pc := (σ.table.proc P).pc

def inode (σ : Store n) (i : Fin 32) : Inode := σ.table.inode i

structure EntryGood (σ : Store n) (i : Fin 32) : Prop where
  clean : (σ.inode i).dirt = true → (σ.inode i).dev ≠ 0 → 0 < (σ.inode i).count
  kinds : (σ.inode i).disk = kind (σ.record i)
  locked : ∀ P, (σ.pc P).owns = some i → (σ.inode i).lock = true
  alone : ∀ P Q, (σ.pc P).owns = some i → (σ.pc Q).owns = some i → P = Q
  syncing : σ.syncing i = true → (σ.inode i).lock = true ∧ ∀ P, (σ.pc P).owns ≠ some i
  reading : ∀ P, σ.pc P = .read i → (σ.inode i).dirt = false ∧ (σ.inode i).count = 1
  blank : ∀ P, i ∈ (σ.pc P).empty → (σ.inode i).dirt = false ∧ (σ.inode i).lock = false

structure Good (disks : ℕ → SuperBlock) (σ : Store n) : Prop where
  sound : σ.table.Sound
  coherent : Coherent σ.cache
  mounted : Mounted disks σ.cache
  entry : ∀ i, EntryGood σ i

theorem EntryGood.not_owned (h : EntryGood σ i) (hlock : (σ.inode i).lock = false) (Q : Fin n) :
    (σ.pc Q).owns ≠ some i := by
  intro howns
  have htrue := h.locked Q howns
  rw [hlock] at htrue
  cases htrue

theorem EntryGood.not_syncing (h : EntryGood σ i) (hlock : (σ.inode i).lock = false) : σ.syncing i = false := by
  by_contra hsync
  have htrue := (h.syncing (eq_true_of_ne_false hsync)).1
  rw [hlock] at htrue
  cases htrue

theorem owns_of_read (h : σ.pc P = .read i) : (σ.pc P).owns = some i := by rw [h]; rfl

/-! ### The entry of a step -/

/-- The program counters after a step of `P`: the new one has nothing to do with the entry, or no more than
the one before. -/
structure Goes (σ τ : Store n) (P : Fin n) (j : Fin 32) : Prop where
  others : ∀ Q, Q ≠ P → τ.pc Q = σ.pc Q
  owns : (τ.pc P).owns = some j → (σ.pc P).owns = some j
  reads : τ.pc P = .read j → σ.pc P = .read j
  empty : j ∈ (τ.pc P).empty → j ∈ (σ.pc P).empty

theorem Goes.owns_of (g : Goes σ τ P j) (h : (τ.pc Q).owns = some j) : (σ.pc Q).owns = some j := by
  by_cases hQ : Q = P
  · rw [hQ] at h ⊢
    exact g.owns h
  · rwa [g.others Q hQ] at h

theorem Goes.reads_of (g : Goes σ τ P j) (h : τ.pc Q = .read j) : σ.pc Q = .read j := by
  by_cases hQ : Q = P
  · rw [hQ] at h ⊢
    exact g.reads h
  · rwa [g.others Q hQ] at h

theorem Goes.empty_of (g : Goes σ τ P j) (h : j ∈ (τ.pc Q).empty) : j ∈ (σ.pc Q).empty := by
  by_cases hQ : Q = P
  · rw [hQ] at h ⊢
    exact g.empty h
  · rwa [g.others Q hQ] at h

/-- Only the count, the name or the fields of the entry have changed. -/
theorem EntryGood.change (h : EntryGood σ i) (g : Goes σ τ P i)
    (hdirt : (τ.inode i).dirt = (σ.inode i).dirt) (hlock : (τ.inode i).lock = (σ.inode i).lock)
    (hsync : τ.syncing i = true → σ.syncing i = true) (hkind : (τ.inode i).disk = kind (τ.record i))
    (hclean : (τ.inode i).dirt = true → (τ.inode i).dev ≠ 0 → 0 < (τ.inode i).count)
    (hread : ∀ Q, σ.pc Q = .read i → (τ.inode i).count = 1) : EntryGood τ i where
  clean := hclean
  kinds := hkind
  locked := fun Q hQ => by
    rw [hlock]
    exact h.locked Q (g.owns_of hQ)
  alone := fun Q R hQ hR => h.alone Q R (g.owns_of hQ) (g.owns_of hR)
  syncing := fun hs => by
    rw [hlock]
    exact ⟨(h.syncing (hsync hs)).1, fun Q hQ => (h.syncing (hsync hs)).2 Q (g.owns_of hQ)⟩
  reading := fun Q hQ => by
    rw [hdirt]
    exact ⟨(h.reading Q (g.reads_of hQ)).1, hread Q (g.reads_of hQ)⟩
  blank := fun Q hQ => by
    rw [hdirt, hlock]
    exact h.blank Q (g.empty_of hQ)

/-- The entry is as it was. -/
theorem EntryGood.same (h : EntryGood σ i) (g : Goes σ τ P i) (hinode : τ.inode i = σ.inode i)
    (hrecord : τ.record i = σ.record i) (hsync : τ.syncing i = true → σ.syncing i = true) : EntryGood τ i := by
  refine h.change g (by rw [hinode]) (by rw [hinode]) hsync ?_ ?_ fun Q hQ => ?_
  · rw [hinode, hrecord]
    exact h.kinds
  · rw [hinode]
    exact h.clean
  · rw [hinode]
    exact (h.reading Q hQ).2

/-- A dirty entry is locked by a writer. -/
theorem EntryGood.lock (h : EntryGood σ i) (hothers : ∀ Q, Q ≠ P → τ.pc Q = σ.pc Q)
    (hfree : (σ.inode i).lock = false) (hdirt : (σ.inode i).dirt = true)
    (hinode : τ.inode i = { σ.inode i with lock := true }) (hrecord : τ.record i = σ.record i)
    (hreads : τ.pc P ≠ .read i) (hempty : i ∉ (τ.pc P).empty)
    (howner : τ.syncing i = σ.syncing i ∨ (τ.pc P).owns ≠ some i) : EntryGood τ i := by
  have hnone : ∀ Q, (τ.pc Q).owns = some i → Q = P := by
    intro Q hQ
    by_contra hne
    rw [hothers Q hne] at hQ
    exact h.not_owned hfree Q hQ
  refine ⟨?_, ?_, fun Q _ => by rw [hinode], fun Q R hQ hR => (hnone Q hQ).trans
    (hnone R hR).symm, fun hs => ?_,
    fun Q hQ => ?_, fun Q hQ => ?_⟩
  · rw [hinode]
    exact h.clean
  · rw [hinode, hrecord]
    exact h.kinds
  · refine ⟨by rw [hinode], fun Q hQ => ?_⟩
    rcases howner with hsame | hnot
    · rw [hsame, h.not_syncing hfree] at hs
      cases hs
    · exact hnot (hnone Q hQ ▸ hQ)
  · by_cases hQP : Q = P
    · rw [hQP] at hQ
      exact absurd hQ hreads
    · rw [hothers Q hQP] at hQ
      exact absurd (owns_of_read hQ) (h.not_owned hfree Q)
  · by_cases hQP : Q = P
    · rw [hQP] at hQ
      exact absurd hQ hempty
    · rw [hothers Q hQP] at hQ
      have hclean := (h.blank Q hQ).1
      rw [hdirt] at hclean
      cases hclean

/-- The entry is clean and not locked any more. -/
theorem EntryGood.unlock (hdirt : (τ.inode i).dirt = false) (hlock : (τ.inode i).lock = false)
    (hkind : (τ.inode i).disk = kind (τ.record i)) (hnone : ∀ Q, (τ.pc Q).owns ≠ some i)
    (hsync : τ.syncing i = false) : EntryGood τ i where
  clean := fun h => by
    rw [hdirt] at h
    cases h
  kinds := hkind
  locked := fun Q hQ => absurd hQ (hnone Q)
  alone := fun Q _ hQ _ => absurd hQ (hnone Q)
  syncing := fun hs => by
    rw [hsync] at hs
    cases hs
  reading := fun Q hQ => absurd (owns_of_read hQ) (hnone Q)
  blank := fun _ _ => ⟨hdirt, hlock⟩

/-- Nobody else has locked an entry that `P` has locked. -/
theorem EntryGood.not_owned_after (h : EntryGood σ i) (hothers : ∀ Q, Q ≠ P → τ.pc Q = σ.pc Q)
    (howns : (σ.pc P).owns = some i) (hP : (τ.pc P).owns ≠ some i) (Q : Fin n) : (τ.pc Q).owns ≠ some i := by
  by_cases hQ : Q = P
  · rw [hQ]
    exact hP
  · rw [hothers Q hQ]
    exact fun hQ' => hQ (h.alone Q P hQ' howns)

/-- An inode that somebody has is not being read, and it is nobody's empty entry. -/
theorem Good.not_read (G : Good disks σ) (hi : i ∈ (σ.table.proc Q).held) : σ.pc P ≠ .read i := by
  intro hread
  have hcount := ((G.entry i).reading P hread).2
  have hrefs : i ∈ (σ.table.proc P).pc.refs := by
    rw [show (σ.table.proc P).pc = .read i from hread]
    exact List.mem_singleton_self i
  exact G.sound.not_held hrefs (Nat.le_of_eq hcount) hi

theorem Good.not_empty (G : Good disks σ) (hi : i ∈ (σ.table.proc Q).held) : i ∉ (σ.pc P).empty := by
  intro hempty
  exact G.sound.not_held (Pc.refs_of_empty hempty) (Nat.le_of_eq (G.sound.blank P i hempty).2) hi

/-- The same for an entry that another call has. -/
theorem Good.not_read_of_refs (G : Good disks σ) (hPQ : P ≠ Q) (hi : i ∈ (σ.pc Q).refs) : σ.pc P ≠ .read i := by
  intro hread
  have hcount := ((G.entry i).reading P hread).2
  have hrefs : i ∈ (σ.table.proc P).pc.refs := by
    rw [show (σ.table.proc P).pc = .read i from hread]
    exact List.mem_singleton_self i
  have h2 := G.sound.two_le_count hPQ (List.mem_append_right _ hrefs) (List.mem_append_right _ hi)
  have hcount' : (σ.table.inode i).count = 1 := hcount
  omega

theorem Good.not_empty_of_refs (G : Good disks σ) (hPQ : P ≠ Q) (hi : i ∈ (σ.pc Q).refs) :
    i ∉ (σ.pc P).empty := by
  intro hempty
  have h2 := G.sound.two_le_count hPQ (List.mem_append_right _ (Pc.refs_of_empty hempty))
    (List.mem_append_right _ hi)
  have h1 := (G.sound.blank P i hempty).2
  omega

end Store

end OldLinux.Inodes
