import OldLinux.Volume.Bmap
import Mathlib.Order.Interval.Finset.Nat

/-!
# The room on a disk

How many zones are free, and how many places on the way to some blocks of a file are empty.  Where no zone
is given back, entering a block uses up one of both, so that what is missing does not become less than what
is free by it.
-/

namespace OldLinux.Volume

open Lib.BlockTree

variable {s t u : Kernel} {dev b k z r lo inode : ℕ} {sb : SuperBlock} {m l : List ℕ} {p q : Place}

/-- The number of free zones. -/
def Kernel.free (s : Kernel) (dev : ℕ) (sb : SuperBlock) : ℕ :=
  ((Finset.Ico sb.s_firstdatazone sb.s_nzones).filter fun z => s.zbit dev sb (sb.bit_nr z) = some false).card

/-- The number of these places that are empty. -/
def Kernel.missing (s : Kernel) (inode : ℕ) (P : Finset Place) :
    ℕ := (P.filter fun p => s.place inode p = 0).card

/-- The places on the way to a place. -/
def way (p : Place) : Finset Place := (p.2.inits.map fun m => (p.1, m)).toFinset

/-- The places on the way to the blocks from `lo` on. -/
def needed (lo : ℕ) : Finset Place := (Finset.Ico lo MAX_BLOCKS).biUnion fun b => way (blockPlace b)

/-- What has been used up of the free zones has filled empty places. -/
def Spends (dev : ℕ) (sb : SuperBlock) (inode : ℕ) (s t : Kernel) : Prop :=
  ∀ P : Finset Place, (∀ p ∈ P, p.Valid) → t.free dev sb + s.missing inode P ≤ s.free dev sb + t.missing inode P

theorem Spends.trans (h : Spends dev sb inode s t) (h' : Spends dev sb inode t u) :
    Spends dev sb inode s u := by
  intro P hP
  have h1 := h P hP
  have h2 := h' P hP
  omega

/-! ### The places -/

theorem mem_way : q ∈ way p ↔ q.1 = p.1 ∧ q.2 <+: p.2 := by
  rw [way, List.mem_toFinset, List.mem_map]
  constructor
  · rintro ⟨m, hm, rfl⟩
    exact ⟨rfl, (List.mem_inits _ _).1 hm⟩
  · rintro ⟨h1, h2⟩
    exact ⟨q.2, (List.mem_inits _ _).2 h2, by rw [← h1]⟩

theorem mem_needed : q ∈ needed lo ↔ ∃ b, lo ≤ b ∧ b < MAX_BLOCKS ∧ q ∈ way (blockPlace b) := by
  rw [needed, Finset.mem_biUnion]
  constructor
  · rintro ⟨b, hb, hq⟩
    exact ⟨b, (Finset.mem_Ico.1 hb).1, (Finset.mem_Ico.1 hb).2, hq⟩
  · rintro ⟨b, h1, h2, hq⟩
    exact ⟨b, Finset.mem_Ico.2 ⟨h1, h2⟩, hq⟩

theorem valid_of_needed (h : q ∈ needed lo) : q.Valid := by
  obtain ⟨b, -, hb, hway⟩ := mem_needed.1 h
  obtain ⟨h1, l, h2⟩ := mem_way.1 hway
  have hvalid := (blockPlace_spec (b := b) hb).1
  refine ⟨h1 ▸ hvalid.zone, ?_, fun i hi => hvalid.words i (h2 ▸ List.mem_append_left l hi)⟩
  have hlength := hvalid.length
  rw [← h2, List.length_append, ← h1] at hlength
  omega

/-- A block has all places on its way. -/
theorem place_of_way (hq : q ∈ way p) (hp : s.place inode p ≠ 0) : s.place inode q ≠ 0 := by
  obtain ⟨h1, l, h2⟩ := mem_way.1 hq
  intro hzero
  refine hp ?_
  have hplace : p = (q.1, q.2 ++ l) := by rw [h1, h2]
  rw [hplace]
  exact tree_at_append hzero l

/-- Behind a block that is there as many places are missing. -/
theorem missing_needed_succ (h : s.place inode (blockPlace lo) ≠ 0) :
    s.missing inode (needed (lo + 1)) = s.missing inode (needed lo) := by
  rw [Kernel.missing, Kernel.missing]
  congr 1
  ext q
  rw [Finset.mem_filter, Finset.mem_filter, mem_needed, mem_needed]
  constructor
  · rintro ⟨⟨b, h1, h2, hq⟩, hzero⟩
    exact ⟨⟨b, by omega, h2, hq⟩, hzero⟩
  · rintro ⟨⟨b, h1, h2, hq⟩, hzero⟩
    have hne : b ≠ lo := by
      rintro rfl
      exact place_of_way hq h hzero
    exact ⟨⟨b, by omega, h2, hq⟩, hzero⟩

theorem missing_needed_big (h : MAX_BLOCKS ≤ lo) : s.missing inode (needed lo) = 0 := by
  rw [needed, Finset.Ico_eq_empty_of_le h]
  rfl

/-! ### Steps -/

theorem free_le (h : ∀ n, t.zbit dev sb n = some false → s.zbit dev sb n = some false) :
    t.free dev sb ≤ s.free dev sb :=
  Finset.card_le_card fun z hz => by
    rw [Finset.mem_filter] at hz ⊢
    exact ⟨hz.1, h _ hz.2⟩

/-- A zone has been taken. -/
theorem free_lt (h : ∀ n, t.zbit dev sb n = some false → s.zbit dev sb n = some false) (hz : sb.InZone z)
    (hclear : s.zbit dev sb (sb.bit_nr z) = some false) (hset : t.zbit dev sb (sb.bit_nr z) = some true) :
    t.free dev sb < s.free dev sb := by
  refine Finset.card_lt_card (Finset.ssubset_iff_subset_ne.2 ⟨fun y hy => ?_, fun heq => ?_⟩)
  · rw [Finset.mem_filter] at hy ⊢
    exact ⟨hy.1, h _ hy.2⟩
  · have hmem := (Finset.ext_iff.1 heq z).2 (Finset.mem_filter.2 ⟨Finset.mem_Ico.2 ⟨hz.1, hz.2⟩, hclear⟩)
    rw [Finset.mem_filter, hset] at hmem
    cases hmem.2

theorem missing_le {P : Finset Place} (h : ∀ p ∈ P, s.place inode p = 0 → t.place inode p = 0) :
    s.missing inode P ≤ t.missing inode P :=
  Finset.card_le_card fun p hp => by
    rw [Finset.mem_filter] at hp ⊢
    exact ⟨hp.1, h p hp.1 hp.2⟩

/-- At most one place has been filled. -/
theorem missing_le_succ {P : Finset Place} (h : ∀ p ∈ P, p ≠ q → s.place inode p = 0 → t.place inode p = 0) :
    s.missing inode P ≤ t.missing inode P + 1 := by
  refine (Finset.card_le_card ?_).trans (Finset.card_insert_le q _)
  intro p hp
  rw [Finset.mem_filter] at hp
  rw [Finset.mem_insert, Finset.mem_filter]
  by_cases hpq : p = q
  · exact .inl hpq
  · exact .inr ⟨hp.1, h p hp.1 hpq hp.2⟩

end OldLinux.Volume
