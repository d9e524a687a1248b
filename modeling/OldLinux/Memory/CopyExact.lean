import OldLinux.Memory.LowFrames
import OldLinux.Memory.Offsets
import OldLinux.Memory.Room

/-!
# `copy_page_tables` copies the address space exactly

The specification of `copy_page_tables` in `Operations` says which entries there are afterwards.
Here it is completed from the invariants: the write bit of the parent is clear because the frame is
counted twice now, the count went up by one because a slot maps a frame once, and the only other
counts that changed are those of the new page tables.
-/

namespace OldLinux.Memory

open Lib

variable {M : MainMemory} {m : ℕ → ℕ → Word} {s s' : Mm} {held : Multiset ℕ} {k : Kernel} {a b n : ℕ}

theorem readOnly_of_not_writable {e : Word} (h : ¬writable e) : readOnly e = e := by
  rw [writable_iff, Bool.not_eq_true] at h
  apply BitVec.eq_of_getLsbD_eq
  intro i hi
  rw [readOnly, BitVec.getLsbD_and, BitVec.getLsbD_not, show (2#32 : Word) = BitVec.twoPow 32 1 from
    by decide, BitVec.getLsbD_twoPow]
  by_cases h1 : 1 = i
  · rw [← h1, h]
    simp
  · simp [hi, h1]

/-! ### What a copy that went through did -/

/-- A copy of `n` directory entries of slot `a` that went through. -/
structure Through (M : MainMemory) (a b n : ℕ) (held : Multiset ℕ) (s s' : Mm) : Prop where
  before : Books True M s held
  after : Books True M s' held
  neat : Neat M s
  copy : Copied True a b (fun d => d < n) s s'
  unused : Unused s (b * 16) n
  tables : TablesAs s s'
  lt : n ≤ 16
  slots : 0 < b ∧ b < 64

section

variable (T : Through M a b n held s s')

include T

/-- The places that are filled were empty. -/
theorem Through.empty {q : ℕ × ℕ} (hb : q.1 / 16 = b) (hn : q.1 % 16 < n) : s.pte q = 0 :=
  pte_of_absent (T.unused q.1 (by omega) (by omega))

/-- Outside the new slot the same places map a frame as before. -/
theorem Through.maps {f : ℕ} {q : ℕ × ℕ} (hq : q ∈ places)
    (hout : ¬(q.1 / 16 = b ∧ q.1 % 16 < n)) : s'.Maps f q ↔ s.Maps f q := by
  rw [maps_iff_pte, maps_iff_pte]
  by_cases hD : (q.1 / 16 = a ∨ q.1 / 16 = b) ∧ q.1 % 16 < n
  · have hqa : q.1 / 16 = a := hD.1.resolve_right (fun h => hout ⟨h, hD.2⟩)
    rcases T.copy.source q hq hqa hD.2 with h | h
    · rw [h]
    · rw [h, present_readOnly, frameOf_readOnly]
  · rw [T.copy.others q hq hD]

/-- In the new slot a place maps what its source maps. -/
theorem Through.maps_new {f : ℕ} {q : ℕ × ℕ} (hq : q ∈ places) (hb : q.1 / 16 = b) (hn : q.1 % 16 < n) :
    s'.Maps f q ↔ present (sourceEntry s a q) ∧ frameOf (sourceEntry s a q) = f := by
  rw [maps_iff_pte, T.copy.target q hq hb hn, copied]
  by_cases hp : present (sourceEntry s a q)
  · rw [if_pos hp, present_readOnly, frameOf_readOnly]
  · rw [if_neg hp]
    exact ⟨fun h => absurd h.1 present_zero, fun h => absurd h.1 hp⟩

theorem Through.not_maps {f : ℕ} {q : ℕ × ℕ} (hb : q.1 / 16 = b) (hn : q.1 % 16 < n) : ¬s.Maps f q := by
  rw [maps_iff_pte, T.empty hb hn]
  exact fun h => present_zero h.1

theorem Through.points {f d : ℕ} (hout : ¬(d / 16 = b ∧ d % 16 < n)) : s'.Points f d ↔ s.Points f d := by
  rw [Mm.Points, Mm.Points, Mm.table, Mm.table, T.copy.dir d hout]

/-- A new page table was a free frame. -/
theorem Through.new_table {d : ℕ} (hd : d < n) (hp : present (s'.mem 0 (b * 16 + d))) :
    s.count (s'.table (b * 16 + d)) = 0 ∧ s'.count (s'.table (b * 16 + d)) = 1 := by
  have L := T.before.ledger
  have L' := T.after.ledger
  have hlt := T.lt
  have hslots := T.slots
  have hdd : b * 16 + d ∈ directory := mem_directory.2 ⟨by omega, by omega⟩
  have hhas := L'.tableIn _ hdd hp
  have hone : s'.tableRefs (s'.table (b * 16 + d)) ≠ 0 :=
    fun h => countIn_eq_zero.1 h _ hdd ⟨hp, rfl⟩
  generalize hf : s'.table (b * 16 + d) = f at *
  have hfree := T.after.unmapped trivial f (Or.inr hone)
  have hnone' : s'.entryRefs f = 0 := countIn_eq_zero.2 hfree
  have hnone : s.entryRefs f = 0 := by
    refine countIn_eq_zero.2 ?_
    intro q hq hm
    by_cases hin : q.1 / 16 = b ∧ q.1 % 16 < n
    · exact T.not_maps hin.1 hin.2 hm
    · exact hfree q hq ((T.maps hq hin).2 hm)
  have hwas : s.tableRefs f = 0 := by
    refine countIn_eq_zero.2 ?_
    intro d' hd' hp'
    by_cases hin : d' / 16 = b ∧ d' % 16 < n
    · exact T.unused d' (by omega) (by omega) hp'.1
    · have hp'' := (T.points hin).2 hp'
      have heq := L'.table_inj hd' hdd hp''.1 hp (hp''.2.trans hf.symm)
      omega
  have hold := L.exact f hhas.lowMem_le hhas.lt
  have hnew := L'.exact f hhas.lowMem_le hhas.lt
  have hsingle := L'.single f
  have hbase : M.base f = 0 := if_pos hhas
  omega

/-- The counts of frames that were not copied: only those of the new page tables changed. -/
theorem Through.counts {f : ℕ} (h1 : 256 ≤ f) (h2 : f < 4096)
      (hsrc : ∀ q ∈ places, q.1 / 16 = b → q.1 % 16 < n →
      ¬(present (sourceEntry s a q) ∧ frameOf (sourceEntry s a q) = f)) :
    s'.count f = s.count f ∨ ∃ d < n, present (s'.mem 0 (b * 16 + d)) ∧ s'.table (b * 16 + d) = f := by
  by_cases htable : ∃ d < n, present (s'.mem 0 (b * 16 + d)) ∧ s'.table (b * 16 + d) = f
  · exact Or.inr htable
  · have hentries : s'.entryRefs f = s.entryRefs f := by
      refine countIn_congr ?_
      intro q hq
      by_cases hin : q.1 / 16 = b ∧ q.1 % 16 < n
      · rw [T.maps_new hq hin.1 hin.2]
        exact ⟨fun h => absurd h (hsrc q hq hin.1 hin.2), fun h => absurd h (T.not_maps hin.1 hin.2)⟩
      · exact T.maps hq hin
    have htables : s'.tableRefs f = s.tableRefs f := by
      refine countIn_congr ?_
      intro d hd
      by_cases hin : d / 16 = b ∧ d % 16 < n
      · have hd16 : b * 16 + d % 16 = d := by omega
        constructor
        · intro h
          exact absurd ⟨d % 16, hin.2, by rw [hd16]; exact h.1, by rw [hd16]; exact h.2⟩ htable
        · intro h
          exact absurd h.1 (T.unused d (by omega) (by omega))
      · exact T.points hin
    have hold := T.before.ledger.exact f h1 h2
    have hnew := T.after.ledger.exact f h1 h2
    omega

/-- The count of a frame that was copied went up by one: one place was added to those that map it. -/
theorem Through.raised (ha0 : 0 < a) (ha : a < 64) {p : ℕ × ℕ} (hp : p ∈ places)
    (hpa : p.1 / 16 = a) (hpn : p.1 % 16 < n) {f : ℕ} (hm : s.Maps f p) (hf : 256 ≤ f) :
    s'.count f = s.count f + 1 := by
  have hslots := T.slots
  have hsource : ∀ q, sourceEntry s a q = s.pte (inSlotOf a q) := by
    intro q
    rw [sourceEntry, if_neg (by omega), inSlotOf]
  have hback : inSlotOf a (inSlotOf b p) = p := by
    simp only [inSlotOf]
    refine Prod.ext ?_ rfl
    show a * 16 + (b * 16 + p.1 % 16) % 16 = p.1
    omega
  have hc : inSlotOf b p ∈ places := inSlotOf_mem hslots.1 hslots.2 hp
  have hcb : (inSlotOf b p).1 / 16 = b := by
    simp only [inSlotOf]
    omega
  have hcn : (inSlotOf b p).1 % 16 < n := by
    simp only [inSlotOf]
    omega
  have hnew : s'.Maps f (inSlotOf b p) := by
    rw [T.maps_new hc hcb hcn, hsource, hback, ← maps_iff_pte]
    exact hm
  have hexchange := countIn_exchange (P := s.Maps f) (Q := s'.Maps f) hc (by
    intro q hq hne
    by_cases hin : q.1 / 16 = b ∧ q.1 % 16 < n
    · refine ⟨fun h => absurd h (T.not_maps hin.1 hin.2), fun h => ?_⟩
      -- a second place of the new slot would have a source at another offset
      rw [T.maps_new hq hin.1 hin.2, hsource, ← maps_iff_pte] at h
      have hoff := T.neat.oneOffset f hf _ (inSlotOf_mem ha0 ha hq) p hp h hm
      rw [offset_inSlotOf] at hoff
      refine absurd (place_inj hq hc (by rw [hin.1, hcb]) ?_) hne
      rw [offset_inSlotOf]
      exact hoff
    · exact (T.maps hq hin).symm)
  rw [if_neg (T.not_maps hcb hcn), if_pos hnew] at hexchange
  have hlt := T.before.ledger.mapsLt f p hp hm
  have hold := T.before.ledger.exact f hf hlt
  have hcount := T.after.ledger.exact f hf hlt
  have ht := (T.before.tableRefs_of_maps trivial hp hm).1
  have ht' := (T.after.tableRefs_of_maps trivial hc hnew).1
  unfold Mm.entryRefs at hold hcount
  omega

/-- A copied frame of main memory is write-protected in the old slot too. -/
theorem Through.parent (ha0 : 0 < a) (ha : a < 64) {p : ℕ × ℕ} (hp : p ∈ places)
    (hpa : p.1 / 16 = a) (hpn : p.1 % 16 < n) :
    s'.pte p = if present (s.pte p) ∧ 256 ≤ frameOf (s.pte p) then readOnly (s.pte p)
      else s.pte p := by
  by_cases hpres : present (s.pte p)
  · have hm : s.Maps (frameOf (s.pte p)) p := maps_iff_pte.2 ⟨hpres, rfl⟩
    by_cases hf : 256 ≤ frameOf (s.pte p)
    · rw [if_pos ⟨hpres, hf⟩]
      rcases T.copy.source p hp hpa hpn with h | h
      · -- the entry was left alone, so its write bit was clear: the frame is counted twice now
        rw [h]
        refine (readOnly_of_not_writable ?_).symm
        intro hw
        have hm' : s'.Maps (frameOf (s.pte p)) p := maps_iff_pte.2 ⟨by rw [h]; exact hpres, by rw [h]⟩
        rw [← h, pte_of_present hm'.1] at hw
        have hone := (T.after.shielded trivial p hp _ hm' hw).2
        have hraised := T.raised ha0 ha hp hpa hpn hm hf
        have hpos := T.before.ledger.count_pos_of_maps hp hm hf
        omega
      · exact h
    · rw [if_neg (fun h => hf h.2)]
      rcases T.copy.source p hp hpa hpn with h | h
      · exact h
      · rw [h]
        refine readOnly_of_not_writable ?_
        intro hw
        rw [pte_of_present hm.1] at hw
        exact hf (T.before.shielded trivial p hp _ hm hw).1
  · rw [if_neg (fun h => hpres h.1)]
    rcases T.copy.source p hp hpa hpn with h | h
    · exact h
    · rw [h, T.neat.blank p hp hpres]
      exact readOnly_zero

end

theorem Live.through (h : Live M m k) {size : ℕ} (ha : a < 64) (hb0 : 0 < b) (hb : b < 64)
    (hsize : size ≤ 0x4000000) (hzero : a = 0 → size ≤ 0x400000)
    (hrun : copyPageTables (a * 0x4000000) (b * 0x4000000) size k.mm = .ok 0 s') :
    Through M a b (dirCount size) k.held k.mm s' := by
  have B := h.books
  have hspec := wp_and (copyPageTables_books B ha hb hb0 hsize (fun _ => hzero))
    (copyPageTables_low B ha hb0 hb hsize hzero)
  obtain ⟨⟨B', n, -, hret, C⟩, hlow, hunused⟩ := wp_ok hspec hrun
  have hn : n = dirCount size := by
    rcases hret with hret | hret
    · exact hret.2
    · exact absurd hret.1 (by decide)
  rw [hn] at C
  refine ⟨B, B', h.neat, C, hunused rfl, hlow, ?_, hb0, hb⟩
  rw [dirCount]
  omega

/-! ### The address space of a slot -/

/-- What a copy of the first `n` directory entries of slot `a` to slot `b` is to leave.  `p` runs
over the places of the parent, and `inSlotOf b p` is the place of the child at the same offset. -/
structure ExactCopy (a b n : ℕ) (s s' : Mm) : Prop where
  present : ∀ p ∈ places, p.1 / 16 = a → p.1 % 16 < n → (present (s'.pte (inSlotOf b p)) ↔ present (s.pte p))
  child : ∀ p ∈ places, p.1 / 16 = a → p.1 % 16 < n → Memory.present (s.pte p) →
    s'.pte (inSlotOf b p) = readOnly (s.pte p)
  parent : ∀ p ∈ places, p.1 / 16 = a → p.1 % 16 < n → s'.pte p =
    if Memory.present (s.pte p) ∧ 256 ≤ frameOf (s.pte p) then readOnly (s.pte p) else s.pte p
  bytes : ∀ p ∈ places, p.1 / 16 = a → p.1 % 16 < n → Memory.present (s.pte p) →
    s'.mem (frameOf (s'.pte (inSlotOf b p))) = s'.mem (frameOf (s'.pte p)) ∧
    (256 ≤ frameOf (s.pte p) → s'.mem (frameOf (s'.pte p)) = s.mem (frameOf (s.pte p)))
  raised : ∀ p ∈ places, p.1 / 16 = a → p.1 % 16 < n → Memory.present (s.pte p) →
    256 ≤ frameOf (s.pte p) → s'.count (frameOf (s.pte p)) = s.count (frameOf (s.pte p)) + 1
  tables : ∀ d < n, Memory.present (s'.mem 0 (b * 16 + d)) →
    s.count (s'.table (b * 16 + d)) = 0 ∧ s'.count (s'.table (b * 16 + d)) = 1
  counts : ∀ f, 256 ≤ f → f < 4096 → (∀ p ∈ places, p.1 / 16 = a → p.1 % 16 < n → ¬s.Maps f p) →
    s'.count f = s.count f ∨ ∃ d < n, Memory.present (s'.mem 0 (b * 16 + d)) ∧ s'.table (b * 16 + d) = f
  others : ∀ q ∈ places, ¬((q.1 / 16 = a ∨ q.1 / 16 = b) ∧ q.1 % 16 < n) → s'.pte q = s.pte q
  directory : ∀ d, ¬(d / 16 = b ∧ d % 16 < n) → s'.mem 0 d = s.mem 0 d
  kernel : ∀ t, 0 < t → t < 256 → s'.mem t = s.mem t

theorem Through.exactCopy (T : Through M a b n held s s') (ha0 : 0 < a) (ha : a < 64) :
    ExactCopy a b n s s' := by
  have hslots := T.slots
  have hchild : ∀ p ∈ places, p.1 / 16 = a → p.1 % 16 < n → s'.pte (inSlotOf b p) = copied (s.pte p) := by
    intro p hp hpa hpn
    have hc := inSlotOf_mem hslots.1 hslots.2 hp
    have hsource : sourceEntry s a (inSlotOf b p) = s.pte p := by
      rw [sourceEntry, if_neg (by omega)]
      refine congrArg s.pte (Prod.ext ?_ rfl)
      simp only [inSlotOf]
      omega
    rw [T.copy.target _ hc (by simp only [inSlotOf]; omega) (by simp only [inSlotOf]; omega), hsource]
  have hro : ∀ p ∈ places, p.1 / 16 = a → p.1 % 16 < n → present (s.pte p) →
      s'.pte (inSlotOf b p) = readOnly (s.pte p) := by
    intro p hp hpa hpn hpres
    rw [hchild p hp hpa hpn, copied, if_pos hpres]
  have hframe : ∀ p ∈ places, p.1 / 16 = a → p.1 % 16 < n → frameOf (s'.pte p) = frameOf (s.pte p) := by
    intro p hp hpa hpn
    rw [T.parent ha0 ha hp hpa hpn]
    split
    · exact frameOf_readOnly _
    · rfl
  refine ⟨?_, hro, fun p hp hpa hpn => T.parent ha0 ha hp hpa hpn, ?_, ?_,
    fun d hd hp => T.new_table hd hp, ?_, T.copy.others, T.copy.dir, T.tables⟩
  · intro p hp hpa hpn
    rw [hchild p hp hpa hpn, copied]
    split
    · exact present_readOnly _
    · rename_i hno
      exact ⟨fun h => absurd h present_zero, fun h => absurd h hno⟩
  · intro p hp hpa hpn hpres
    rw [hro p hp hpa hpn hpres, frameOf_readOnly, hframe p hp hpa hpn]
    refine ⟨rfl, fun hf => ?_⟩
    exact T.copy.kept trivial p hp _ (maps_iff_pte.2 ⟨hpres, rfl⟩) hf
  · intro p hp hpa hpn hpres hf
    exact T.raised ha0 ha hp hpa hpn (maps_iff_pte.2 ⟨hpres, rfl⟩) hf
  · intro f h1 h2 hnone
    refine T.counts h1 h2 ?_
    intro q hq hqb hqn hmaps
    rw [sourceEntry, if_neg (by omega)] at hmaps
    refine hnone (inSlotOf a q) (inSlotOf_mem ha0 ha hq) ?_ ?_ (maps_iff_pte.2 hmaps)
    · simp only [inSlotOf]
      omega
    · simp only [inSlotOf]
      omega

/-! ### The first process -/

/-- What the copy of slot 0 to slot `b` is to leave: the first 160 entries of the kernel's first
page table, read-only, and nothing else changed but for one page table. -/
structure FirstCopy (b : ℕ) (s s' : Mm) : Prop where
  first : ∀ j < 0xA0, present (s'.pte (b * 16, j)) ∧ frameOf (s'.pte (b * 16, j)) = j ∧
    s'.pte (b * 16, j) = readOnly (s.mem 1 j)
  rest : ∀ j, 0xA0 ≤ j → j < 1024 → s'.pte (b * 16, j) = 0
  others : ∀ q ∈ places, q.1 ≠ b * 16 → s'.pte q = s.pte q
  directory : ∀ d, d ≠ b * 16 → s'.mem 0 d = s.mem 0 d
  kernel : ∀ t, 0 < t → t < 256 → s'.mem t = s.mem t
  table : s.count (s'.table (b * 16)) = 0 ∧ s'.count (s'.table (b * 16)) = 1
  counts : ∀ f, 256 ≤ f → f < 4096 → f ≠ s'.table (b * 16) → s'.count f = s.count f

theorem Through.firstCopy (T : Through M 0 b 1 held s s') : FirstCopy b s s' := by
  have hslots := T.slots
  have hplace : ∀ j < 1024, (b * 16, j) ∈ places := by
    intro j hj
    exact mem_places.2 ⟨⟨by simp only; omega, by simp only; omega⟩, hj⟩
  have hpte : ∀ j < 1024, s'.pte (b * 16, j) = copied (if j < 0xA0 then s.mem 1 j else 0) := by
    intro j hj
    rw [T.copy.target _ (hplace j hj) (by simp only; omega) (by simp only; omega), sourceEntry, if_pos rfl]
    have h16 : (b * 16, j).1 % 16 = 0 := by
      simp only
      omega
    simp only [h16]
    by_cases h160 : j < 0xA0
    · rw [if_pos h160, if_pos ⟨by omega, h160⟩]
    · rw [if_neg h160, if_neg (fun h => h160 h.2)]
  have hkernel : ∀ j < 1024, present (s.mem 1 j) ∧ frameOf (s.mem 1 j) = j := by
    intro j hj
    have h := T.before.ledger.kernelEntry 0 (by omega) j hj
    rw [show 0 * 1024 + j = j from by omega] at h
    exact h
  have hfirst : ∀ j < 0xA0, s'.pte (b * 16, j) = readOnly (s.mem 1 j) := by
    intro j hj
    rw [hpte j (by omega), if_pos hj, copied, if_pos (hkernel j (by omega)).1]
  -- the new page table is a frame of its own
  have hdir : present (s'.mem 0 (b * 16)) := by
    refine dir_of_pte (p := (b * 16, 0)) ?_
    rw [hfirst 0 (by omega), present_readOnly]
    exact (hkernel 0 (by omega)).1
  refine ⟨?_, ?_, ?_, ?_, T.tables, ?_, ?_⟩
  · intro j hj
    rw [hfirst j hj, present_readOnly, frameOf_readOnly]
    exact ⟨(hkernel j (by omega)).1, (hkernel j (by omega)).2, rfl⟩
  · intro j h1 h2
    rw [hpte j h2, if_neg (by omega), copied_zero]
  · intro q hq hne
    have := (mem_places.1 hq).1
    exact T.copy.others q hq (by omega)
  · intro d hne
    exact T.copy.dir d (by omega)
  · exact T.new_table (d := 0) (by omega) hdir
  · intro f h1 h2 hne
    have hcounts := T.counts h1 h2 ?_
    · rcases hcounts with h | ⟨d, hd, _, ht⟩
      · exact h
      · rw [show b * 16 + d = b * 16 from by omega] at ht
        exact absurd ht.symm hne
    · -- the frames that were copied lie below main memory
      intro q hq hqb hqn hmaps
      rw [sourceEntry, if_pos rfl, show q.1 % 16 + 1 = 1 from by omega] at hmaps
      split at hmaps
      · rename_i h160
        have := (hkernel q.2 (by omega)).2
        omega
      · exact present_zero hmaps.1

theorem dirCount_first {size : ℕ} (hpos : 0 < size) (hsize : size ≤ 0x400000) : dirCount size = 1 := by
  rw [dirCount]
  omega

/-- **`fork` copies the address space exactly.**  In every state of every run without a panic, for
every slot `a` from 1 to 63, every slot `b` and every size up to 64 MB, a `copy_page_tables` that
returns 0 leaves an exact copy of the range rounded up to 4 MB; and from slot 0, whose segment ends
at 640 kB, it copies the first 160 entries. -/
theorem fork_copies_exactly (h : Live M m k) (hb0 : 0 < b) (hb : b < 64) :
    (∀ a size s', 0 < a → a < 64 → size ≤ 0x4000000 →
      copyPageTables (a * 0x4000000) (b * 0x4000000) size k.mm = .ok 0 s' →
      ExactCopy a b (dirCount size) k.mm s') ∧
    ∀ size s', 0 < size → size ≤ 0x400000 →
    copyPageTables (0 * 0x4000000) (b * 0x4000000) size k.mm = .ok 0 s' →
      FirstCopy b k.mm s' := by
  constructor
  · intro a size s' ha0 ha hsize hrun
    exact (h.through ha hb0 hb hsize (fun h0 => by omega) hrun).exactCopy ha0 ha
  · intro size s' hpos hsize hrun
    have T := h.through (by omega) hb0 hb (by omega) (fun _ => hsize) hrun
    rw [dirCount_first hpos hsize] at T
    exact T.firstCopy

/-- The copy of the first `fork` goes through where no process has a page yet. -/
theorem first_copy_returns (B : Books True M s 0) (hdir : ∀ d ∈ directory, ¬present (s.mem 0 d))
    (hroom : 1009 < M.hi - M.lo) :
    ∃ s', copyPageTables (0 * 0x4000000) (1 * 0x4000000) 0xA0000 s = .ok 0 s' := by
  have hspec := copyPageTables_books B (show 0 < 64 by omega) (show 1 < 64 by omega)
    (show 0 < 1 by omega) (show 0xA0000 ≤ 0x4000000 by omega) (fun _ _ => by omega)
  rw [wp] at hspec
  split at hspec
  · rename_i r s' hrun
    obtain ⟨B', n, hn, hret, C⟩ := hspec
    rcases hret with ⟨h0, _⟩ | ⟨_, hfull⟩
    · rw [h0] at hrun
      exact ⟨s', hrun⟩
    · -- all pages are in the first 160 frames
      have hfew : s'.Few 0 := by
        refine ⟨∅, le_rfl, ?_⟩
        intro q hq hp hf
        by_cases hin : q.1 / 16 = 1 ∧ q.1 % 16 < n
        · have hsource := C.target q hq hin.1 hin.2
          rw [sourceEntry, if_pos rfl] at hsource
          split at hsource
          · rename_i h160
            have hk := B.ledger.kernelEntry (q.1 % 16) h160.1 q.2 (by omega)
            rw [hsource, copied, if_pos hk.1, frameOf_readOnly, hk.2] at hf
            rw [dirCount] at hn
            omega
          · rw [hsource, copied_zero] at hp
            exact absurd hp present_zero
        · have hold := C.others q hq (by have := (mem_places.1 hq).1; omega)
          rw [hold, pte_of_absent (hdir _ (directory_of_places hq))] at hp
          exact absurd hp present_zero
      exact absurd hfull.tight (B'.roomy hfew (by rw [Multiset.card_zero]; omega))
  · obtain ⟨_, _, d, h1, _, hd⟩ := hspec
    exact absurd hd (hdir d (mem_directory.2 ⟨by omega, by omega⟩))

theorem first_copy : ∃ s', copyPageTables (0 * 0x4000000) (1 * 0x4000000) 0xA0000
    (sixteenMegabytes.boot fun _ _ => 0) = .ok 0 s' ∧
      FirstCopy 1 (sixteenMegabytes.boot fun _ _ => 0) s' := by
  obtain ⟨s', hrun⟩ := first_copy_returns (boot_books True sixteenMegabytes fun _ _ => 0)
    (fun d hd => boot_unlinked _ _ hd) (by decide)
  have hlive : Live sixteenMegabytes (fun _ _ => 0) ⟨sixteenMegabytes.boot fun _ _ => 0, 0⟩ :=
    Live.boot
  have T := hlive.through (by omega) (by omega) (by omega) (by omega) (fun _ => by omega) hrun
  rw [dirCount_first (by omega) (by omega)] at T
  exact ⟨s', hrun, T.firstCopy⟩

theorem fork_copies_exactly_first : (∃ s', copyPageTables (0 * 0x4000000) (1 * 0x4000000) 0xA0000
      (sixteenMegabytes.boot fun _ _ => 0) = .ok 0 s' ∧
      FirstCopy 1 (sixteenMegabytes.boot fun _ _ => 0) s') ∧
    ∃ f s', copyPageTables (1 * 0x4000000) (2 * 0x4000000) 0x1000 ownsPage.mm = .ok 0 s' ∧
      256 ≤ f ∧ s'.Maps f (16, 0) ∧ s'.Maps f (32, 0) ∧ ExactCopy 1 2 1 ownsPage.mm s' := by
  have hlive : Live sixteenMegabytes (fun _ _ => 0) ⟨sixteenMegabytes.boot fun _ _ => 0, 0⟩ :=
    Live.boot
  constructor
  · obtain ⟨s', hrun, -⟩ := first_copy
    exact ⟨s', hrun, (fork_copies_exactly hlive (by omega) (by omega)).2 0xA0000 s' (by omega) (by omega) hrun⟩
  · obtain ⟨f, s', hf, -, hrun, -, m16, m32⟩ := ownsPage_copied
    have howns : Live sixteenMegabytes (fun _ _ => 0) ownsPage :=
      hlive.call (.getEmptyPage 0x4000000) ownsPage_allowed trivial not_false
    have hcopy := (fork_copies_exactly howns (by omega) (by omega)).1 1 0x1000 s' (by omega) (by omega)
      (by omega) hrun
    rw [dirCount_first (by omega) (by omega)] at hcopy
    exact ⟨f, s', hrun, hf.lowMem_le, m16, m32, hcopy⟩

end OldLinux.Memory
