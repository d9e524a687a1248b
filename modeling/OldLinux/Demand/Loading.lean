import OldLinux.Demand.Machine
import OldLinux.Lib.BlockTree
import OldLinux.Memory.Offsets
import OldLinux.Process.Sharing

/-!
# Demand loading delivers the file

What `bmap` and `bread_page` read is the zone tree of the file: the page `do_no_page` puts together
at the offset `off` holds the bytes of the file from `1024 + off` on, as far as the text and data
go, and zeroes after that.  The allocator and `put_page` take one frame for the page, and one for a
page table if the directory entry was absent; every other count, entry and page stays as it was.
-/

namespace OldLinux.Demand

open Lib Memory Process
open Lib.BlockTree (follow blockPlace)

/-! ### The blocks -/

section Blocks

variable {V : Volume} {disk : ℕ → Page} {inode : Inode}

theorem entryOf_eq {z k : ℕ} (hz : z ≠ 0) (h : V.bread inode.i_dev z = some (disk z)) :
    entryOf V inode.i_dev z k = indirect disk z k := by
  rw [entryOf, h, indirect, if_neg hz]

/-- The zone tree of the file is the one that the calls on files go through. -/
theorem zone_eq_follow (disk : ℕ → Page) (inode : Inode) (b : ℕ) : zone disk inode b =
    follow (fun z k => ushort (disk z) k) (inode.i_zone (blockPlace b).1) (blockPlace b).2 := by
  rw [zone, blockPlace]
  split_ifs
  · rfl
  · rfl
  · by_cases hz : inode.i_zone 8 = 0
    · simp [indirect, follow, hz]
    · simp [indirect, follow, hz]

/-- `bmap` of a block in range finds the zone. -/
theorem bmap_zone (R : V.Reads disk inode) {b : ℕ} (hb : b < 7 + 512 + 512 * 512) :
    bmap V inode b = pure (zone disk inode b) := by
  rw [bmap, if_neg (by omega), if_neg (by omega), zone]
  by_cases h7 : b < 7
  · rw [if_pos (by omega), if_pos h7, Int.toNat_natCast]
  rw [if_neg (by omega), if_neg h7]
  by_cases h512 : b < 7 + 512
  · rw [if_pos (by omega), if_pos h512]
    by_cases hz : inode.i_zone 7 = 0
    · rw [if_pos hz, indirect, if_pos hz]
    · rw [if_neg hz, entryOf_eq hz (R _ (.single hz)), show ((b : ℤ) - 7).toNat = b - 7 from by omega]
  · rw [if_neg (by omega), if_neg h512]
    by_cases hz : inode.i_zone 8 = 0
    · rw [if_pos hz, indirect, indirect, if_pos hz, if_pos rfl]
    · rw [if_neg hz, entryOf_eq hz (R _ (.double hz)), show ((b : ℤ) - 7 - 512).toNat = b - 519 from by omega]
      simp only
      by_cases hi : indirect disk (inode.i_zone 8) ((b - 519) / 512) = 0
      · rw [if_pos hi, hi, indirect, if_pos rfl]
      · rw [if_neg hi, entryOf_eq hi (R _ (.second _ (by omega) hi))]

theorem bmaps_zones (R : V.Reads disk inode) (n : ℕ) {b : ℕ} (hb : b + n ≤ 7 + 512 + 512 * 512) :
    bmaps V inode b n = pure ((List.range' b n).map (zone disk inode)) := by
  induction n generalizing b with
  | zero => rfl
  | succ n ih =>
    have hrest := ih (b := b + 1) (by omega)
    rw [Nat.cast_add, Nat.cast_one] at hrest
    rw [bmaps, bmap_zone R (by omega), pure_bind, hrest, pure_bind, List.range'_succ, List.map_cons]

/-- One block of `bread_page`, word for word. -/
theorem readBlock_zone (R : V.Reads disk inode) {b : ℕ} (hb : b < 7 + 512 + 512 * 512) (place : ℕ)
    (page : Page) (j : ℕ) :
    readBlock V inode.i_dev (zone disk inode b) place page j =
      if (place ≤ j ∧ j < place + 256) ∧ zone disk inode b ≠ 0 then
        disk (zone disk inode b) (j - place)
      else page j := by
  rw [readBlock]
  by_cases hz : zone disk inode b = 0
  · rw [if_pos hz, if_neg (fun h => h.2 hz)]
  · rw [if_neg hz, R _ (.data b hb hz)]
    by_cases hj : place ≤ j ∧ j < place + 256
    · rw [if_pos ⟨hj, hz⟩]
      exact if_pos hj
    · rw [if_neg (fun h => hj h.1)]
      exact if_neg hj

/-- `bread_page` of the zones of `n` blocks from `b` on, word for word. -/
theorem breadPage_zones (R : V.Reads disk inode) (n : ℕ) {b : ℕ} (hb : b + n ≤ 7 + 512 + 512 * 512)
    (place : ℕ) (page : Page) (j : ℕ) :
    breadPage V inode.i_dev place ((List.range' b n).map (zone disk inode)) page j =
      if (place ≤ j ∧ j < place + 256 * n) ∧ zone disk inode (b + (j - place) / 256) ≠ 0 then
        disk (zone disk inode (b + (j - place) / 256)) ((j - place) % 256)
      else page j := by
  induction n generalizing b place page with
  | zero =>
    rw [if_neg (by omega)]
    rfl
  | succ n ih =>
    rw [List.range'_succ, List.map_cons, breadPage, ih (by omega), readBlock_zone R (by omega)]
    by_cases hlater : place + 256 ≤ j
    · -- a word of a later block
      have hdiv : b + 1 + (j - (place + 256)) / 256 = b + (j - place) / 256 := by omega
      have hmod : (j - (place + 256)) % 256 = (j - place) % 256 := by omega
      rw [hdiv, hmod, if_neg (fun h : (place ≤ j ∧ j < place + 256) ∧ _ => by omega)]
      have hiff : (place + 256 ≤ j ∧ j < place + 256 + 256 * n) ↔
        (place ≤ j ∧ j < place + 256 * (n + 1)) := by omega
      exact if_congr (and_congr_left' hiff) rfl rfl
    · rw [if_neg (fun h => hlater h.1.1)]
      by_cases hhere : place ≤ j
      · have hdiv : b + (j - place) / 256 = b := by omega
        have hiff : (place ≤ j ∧ j < place + 256) ↔ (place ≤ j ∧ j < place + 256 * (n + 1)) := by
          omega
        rw [hdiv, Nat.mod_eq_of_lt (by omega)]
        exact if_congr (and_congr_left' hiff) rfl rfl
      · rw [if_neg (fun h => hhere h.1.1), if_neg (fun h => hhere h.1.1)]

/-- The bytes of the four blocks of a page. -/
theorem byteAt_blocks (R : V.Reads disk inode) {off : ℕ} (hoff : off % 1024 = 0)
    (hb : 1 + off / 1024 + 4 ≤ 7 + 512 + 512 * 512) {i : ℕ} (hi : i < 4096) :
    byteAt (breadPage V inode.i_dev 0 ((List.range' (1 + off / 1024) 4).map (zone disk inode))
      fun _ => 0) i = fileByte disk inode (1024 + off + i) := by
  have hblock : (1024 + off + i) / 1024 = 1 + off / 1024 + i / 4 / 256 := by omega
  have hword : (1024 + off + i) % 1024 / 4 = i / 4 % 256 := by omega
  have hbyte : (1024 + off + i) % 1024 % 4 = i % 4 := by omega
  rw [byteAt, breadPage_zones R 4 hb, Nat.sub_zero, fileByte, hblock]
  by_cases hz : zone disk inode (1 + off / 1024 + i / 4 / 256) = 0
  · rw [if_neg (fun h => h.2 hz), if_pos hz]
    exact BitVec.extractLsb'_zero ..
  · rw [if_pos ⟨⟨by omega, by omega⟩, hz⟩, if_neg hz, byteAt, hword, hbyte]

/-- The page `do_no_page` puts together, byte for byte. -/
theorem byteAt_page (R : V.Reads disk inode) {off endData : ℕ} (hoff : off % 1024 = 0)
    (hlt : off < endData) (hend : endData ≤ 0x3000000) {i : ℕ} (hi : i < 4096) :
    byteAt (zeroTail (breadPage V inode.i_dev 0
      ((List.range' (1 + off / 1024) 4).map (zone disk inode)) fun _ => 0) 4096
      (tailLength off endData)) i =
      if off + i < endData then fileByte disk inode (1024 + off + i) else 0 := by
  have htail : tailLength off endData = off + 4096 - endData := by
    unfold tailLength
    rw [Int.bmod_eq_of_le (by omega) (by omega)]
    omega
  rw [byteAt_zeroTail _ _ _ _ (by omega), htail, byteAt_blocks R hoff (by omega) hi]
  by_cases h : off + i < endData
  · rw [if_neg (by omega), if_pos h]
  · rw [if_pos (by omega), if_neg h]

end Blocks

/-! ### The frames -/

theorem storePage_storePage (s : Mm) (f : ℕ) (page page' : Page) :
    (s.storePage f page).storePage f page' = s.storePage f page' := by
  rw [Mm.storePage, Mm.storePage, Mm.storePage, Function.update_idem]

section Frames

variable {M : MainMemory} {s s1 s' : Mm} {held : Multiset ℕ}

/-- No count keeps the frame. -/
def Free (s : Mm) (f : ℕ) : Prop := 256 ≤ f ∧ f < 4096 ∧ s.count f = 0

/-- There is not the room for a page at the place: at most one frame is free, and none if there is a
page table already. -/
def Short (s : Mm) (p : ℕ × ℕ) : Prop :=
  (∀ f g, Free s f → Free s g → f = g) ∧ (present (s.mem 0 p.1) → ∀ f, ¬Free s f)

/-- The counts after the allocation of `f` for a page, and of a page table if there was none. -/
inductive Allocated (M : MainMemory) (s : Mm) (p : ℕ × ℕ) (f : ℕ) (s' : Mm) : Prop
  | page : present (s.mem 0 p.1) → (∀ g, 256 ≤ g → g ≠ f → s'.count g = s.count g) → Allocated M s p f s'
  | table (t : ℕ) : ¬present (s.mem 0 p.1) → t ≠ f → M.Has t → Free s t → s'.count t = 1 →
      s'.table p.1 = t → (∀ g, 256 ≤ g → g ≠ f → g ≠ t → s'.count g = s.count g) →
      Allocated M s p f s'

/-- The frame `f`, free before, is mapped at the place `p` with these contents, and nothing else
is different. -/
structure Placed (M : MainMemory) (s : Mm) (held : Multiset ℕ) (p : ℕ × ℕ) (f : ℕ)
    (contents : Page) (s' : Mm) : Prop where
  main : M.Has f
  free : Free s f
  used : s'.count f = 1
  mapped : s'.pte p = userEntry (f * 4096)
  holds : s'.mem f = contents
  others : ∀ q ∈ places, q ≠ p → s'.pte q = s.pte q
  allocated : Allocated M s p f s'
  kept : Preserved s held s'

theorem free_of_fresh {f : ℕ} (B : Books True M s held) (F : Fresh True M s held f s') : Free s f := by
  have hge := F.main.lowMem_le
  have hlt := F.main.lt
  have hexact := B.ledger.exact f hge hlt
  rw [MainMemory.base, if_pos F.main, F.noEntry, F.noTable, Multiset.count_eq_zero.2 F.notHeld]
    at hexact
  exact ⟨hge, hlt, hexact⟩

theorem not_free_of_full (h : s.Full) (f : ℕ) : ¬Free s f := by
  intro hf
  have hlt := hf.2.1
  have hge := hf.1
  exact h (f - 256) (by omega) (BitVec.eq_of_toNat_eq hf.2.2)

/-- A frame that matters still does when the entries are the same. -/
theorem data_of_entries {held' : Multiset ℕ} (hdir : s'.mem 0 = s.mem 0)
    (hpte : ∀ q ∈ places, s'.pte q = s.pte q) (hheld : ∀ g ∈ held, g ∈ held') {g : ℕ}
    (hg : s.Data held g) : s'.Data held' g := by
  refine ⟨hg.1, ?_, hg.2.2.imp (hheld g) ?_⟩
  · rw [← hg.2.1]
    refine countIn_congr ?_
    intro d _
    rw [Mm.Points, Mm.Points, Mm.table, Mm.table, hdir]
  · rintro ⟨p, hp, hm⟩
    refine ⟨p, hp, ?_⟩
    rw [maps_iff_pte] at hm ⊢
    rw [hpte p hp]
    exact hm

/-- What `put_page` does to the counts: nothing, or it takes a frame for a page table. -/
theorem putPage_counts (B : Books True M s held) {address f : ℕ} (hf : f ∈ held) :
      wp (putPage (f * 4096) address)
      (fun r s' => (r = 0 → ¬present (s.mem 0 (placeOf address).1) ∧ s.Full) ∧ (r ≠ 0 →
        (present (s.mem 0 (placeOf address).1) ∧ ∀ g, s'.count g = s.count g) ∨
        (¬present (s.mem 0 (placeOf address).1) ∧ ∃ t, M.Has t ∧ Free s t ∧ s'.count t = 1 ∧
          s'.table (placeOf address).1 = t ∧ ∀ g, 256 ≤ g → g ≠ t → s'.count g = s.count g)))
      (fun _ _ => False) s := by
  have hge := (B.ledger.heldIn f hf).lowMem_le
  rw [putPage, wp_bind, wp_loadWord, wp_ite]
  constructor
  · intro hd
    rw [wp_bind, wp_storeWord, wp_pure]
    exact ⟨fun h => by omega, fun _ => Or.inl ⟨hd, fun _ => rfl⟩⟩
  · intro hd
    rw [wp_bind]
    apply wp_mono (wp_and (getFreePage_books B) (getFreePage_full s)) _ (fun _ _ h => h.1)
    rintro tmp s1 ⟨h, hfull⟩
    rw [wp_ite]
    rcases h with ⟨hz, -⟩ | ⟨t, htmp, F⟩
    · exact ⟨fun _ => ⟨fun _ => ⟨hd, hfull hz⟩, fun h => absurd rfl h⟩, fun hne => absurd hz hne⟩
    · have hget := F.main.lowMem_le
      refine ⟨fun hz => by omega, fun _ => ?_⟩
      rw [htmp, wp_bind, wp_storeWord, wp_bind, wp_storeWord, wp_pure, show t * 4096 / 4096 = t from by omega]
      refine ⟨fun h => by omega, fun _ => Or.inr ⟨hd, t, F.main, free_of_fresh B F, F.single, ?_, F.counts⟩⟩
      rw [Mm.table, store_mem_of_ne _ (by omega), ← Mm.table, store_zero_table,
        if_pos (placeOf_fst address), frameOf_userEntry_frame (by have := F.main.lt; omega)]

/-- **The allocation of a page**: a frame from `get_free_page`, filled, is put at an absent place. -/
theorem putPage_places (B : Books True M s held) {address f : ℕ} (F : Fresh True M s held f s1)
    (contents : Page) (hp : placeOf address ∈ places) (habs : ¬present (s.pte (placeOf address))) :
    wp (putPage (f * 4096) address)
    (fun r s' => (r = 0 → s' = s1.storePage f contents ∧ Short s (placeOf address)) ∧
        (r ≠ 0 → Placed M s held (placeOf address) f contents s'))
      (fun _ _ => False) (s1.storePage f contents) := by
  have hge := F.main.lowMem_le
  have hin := Multiset.mem_cons_self f held
  have htr := (F.books.ledger.tableRefs_of_held hin).1
  have B2 := F.books.content (by omega) htr contents
  have hdir : (s1.storePage f contents).mem 0 = s.mem 0 := by
    rw [storePage_mem_of_ne _ (by omega), F.dir]
  have hpte : ∀ q ∈ places, (s1.storePage f contents).pte q = s.pte q := by
    intro q hq
    rw [pte_storePage (by omega) htr contents hq, F.pte hq]
  have hfree := free_of_fresh B F
  have hback : ∀ g, 256 ≤ g → g ≠ f → (s1.storePage f contents).count g = s.count g := F.counts
  have hone : (s1.storePage f contents).count f = 1 := F.single
  have hholds : (s1.storePage f contents).mem f = contents := storePage_mem_self _ _ _
  have hkeep : Preserved s held (s1.storePage f contents) := by
    intro g hg
    rw [storePage_mem_of_ne _ (F.ne_of_data hg), F.preserved g hg]
  have habs2 : ¬present ((s1.storePage f contents).pte (placeOf address)) := by
    rw [hpte _ hp]
    exact habs
  generalize s1.storePage f contents = s2 at *
  apply wp_mono (wp_and (putPage_books B2 hp habs2 hin) (putPage_counts B2 hin)) _ (fun _ _ h => h.1)
  rintro r s' ⟨h, hzero, hcounts⟩
  rw [hdir] at hzero hcounts
  refine ⟨fun hr => ?_, fun hr => ?_⟩
  · obtain ⟨hnone, hfull⟩ := hzero hr
    have hall : ∀ g, Free s g → g = f := by
      intro g hg
      by_contra hne
      refine not_free_of_full hfull g ⟨hg.1, hg.2.1, ?_⟩
      rw [hback g hg.1 hne, hg.2.2]
    rcases h with ⟨-, hs'⟩ | ⟨hr', -⟩
    · exact ⟨hs', fun g g' hg hg' => (hall g hg).trans (hall g' hg').symm,
        fun hd => absurd hd hnone⟩
    · omega
  · rcases h with ⟨hr', -⟩ | ⟨-, C⟩
    · exact absurd hr' hr
    · have halloc : s'.count f = 1 ∧ Allocated M s (placeOf address) f s' := by
        rcases hcounts hr with ⟨hd, hsame⟩ | ⟨hd, t, hmain, hfr, ht1, htable, hsame⟩
        · refine ⟨(hsame f).trans hone, .page hd ?_⟩
          intro g hg hgf
          rw [hsame g, hback g hg hgf]
        · have htf : t ≠ f := by
            intro h
            have := hfr.2.2
            rw [h, hone] at this
            omega
          refine ⟨(hsame f hge htf.symm).trans hone, .table t hd htf hmain ⟨hfr.1, hfr.2.1, ?_⟩ ht1 htable ?_⟩
          · rw [← hback t hfr.1 htf, hfr.2.2]
          · intro g hg hgf hgt
            rw [hsame g hg hgt, hback g hg hgf]
      refine ⟨F.main, hfree, halloc.1, ?_, ?_, ?_, halloc.2, ?_⟩
      · rw [C.pte _ hp, if_pos rfl]
      · rw [C.kept f (B2.data_of_held hin), hholds]
      · intro q hq hne
        rw [C.pte q hq, if_neg hne, hpte q hq]
      · intro g hg
        rw [C.kept g (data_of_entries hdir hpte (fun _ h => Multiset.mem_cons_of_mem h) hg),
          hkeep g hg]

/-- **`get_empty_page`** places a page of zeroes. -/
theorem getEmptyPage_places (B : Books True M s held) {address : ℕ} (hp : placeOf address ∈ places)
    (habs : ¬present (s.pte (placeOf address))) :
    wp (getEmptyPage address) (fun _ s' => ∃ f, Placed M s held (placeOf address) f (fun _ => 0) s')
      (fun e _ => e = .oom ∧ Short s (placeOf address)) s := by
  rw [getEmptyPage, wp_bind]
  apply wp_mono (wp_and (getFreePage_books B) (getFreePage_full s)) _ (fun _ _ h => h.1.elim)
  rintro tmp s1 ⟨h, hfull⟩
  rw [wp_ite]
  rcases h with ⟨hz, -⟩ | ⟨f, htmp, F⟩
  · refine ⟨fun _ => ?_, fun hne => absurd hz hne⟩
    rw [wp_bind, hz]
    apply wp_mono (freePage_low 0 (by decide) s1) _ (fun _ _ h => h.elim)
    intro _ _ _
    exact ⟨rfl, fun g _ hg => absurd hg (not_free_of_full (hfull hz) g),
      fun _ => not_free_of_full (hfull hz)⟩
  · have hge := F.main.lowMem_le
    refine ⟨fun hz => by omega, fun _ => ?_⟩
    have hput := putPage_places B F (fun _ => 0) hp habs
    rw [← F.empty, show s1.storePage f (s1.mem f) = s1 from by
      rw [Mm.storePage, Function.update_eq_self]] at hput
    rw [wp_bind, htmp]
    apply wp_mono hput _ (fun _ _ h => h.elim)
    rintro r s2 ⟨hzero, hplaced⟩
    rw [wp_ite]
    refine ⟨fun hr => ?_, fun hr => ?_⟩
    · obtain ⟨hs2, hshort⟩ := hzero hr
      rw [wp_bind, hs2]
      apply wp_mono (freePage_held F.books (Multiset.mem_cons_self f held)) _ (fun _ _ h => h.elim)
      intro _ _ _
      exact ⟨rfl, hshort⟩
    · have hplaced := hplaced hr
      rw [F.empty] at hplaced
      exact ⟨f, hplaced⟩

end Frames

/-! ### `do_no_page` -/

section DoNoPage

variable {M : MainMemory} {m : ℕ → ℕ → Word} {σ : Machine} {V V₀ : Volume} {disk : ℕ → Page}
variable {P inode a : ℕ} {t t₀ : Task} {ex : Header} {held : Multiset ℕ} {s s' : Mm}

/-- When no task shares its page, nothing has changed. -/
theorem tryTasks_false (B : Books True M σ.kernel.mm held) {off : ℕ} (hP0 : 0 < P) (hP : P < 64)
    (hoff : off < 0x4000000) (k : ℕ) (hk : k < 64) :
    wp (σ.tryTasks P inode off k) (fun r s' => r = false → s' = σ.kernel.mm) (fun _ _ => True)
      σ.kernel.mm := by
  induction k with
  | zero => exact fun _ => rfl
  | succ k ih =>
    have hrest := ih (by omega)
    rw [Machine.tryTasks, wp_ite]
    refine ⟨fun _ => ?_, fun _ => hrest⟩
    rw [wp_bind]
    apply wp_mono (tryToShare_books B hk (by omega) hP hP0 hoff) _ (fun _ _ _ => trivial)
    intro r s1 h
    rw [wp_ite]
    refine ⟨fun _ h => absurd h Bool.noConfusion, fun hr => ?_⟩
    rcases h with ⟨-, hs1⟩ | ⟨hr', -⟩
    · rw [hs1]
      exact hrest
    · exact absurd hr' hr

theorem sharePage_false (B : Books True M σ.kernel.mm held) {off : ℕ} (hP0 : 0 < P) (hP : P < 64)
    (hoff : off < 0x4000000) (h : σ.sharePage P inode off σ.kernel.mm = .ok false s) :
    s = σ.kernel.mm := by
  have hspec : wp (σ.sharePage P inode off) (fun r s' => r = false → s' = σ.kernel.mm)
      (fun _ _ => True) σ.kernel.mm := by
    rw [Machine.sharePage, wp_ite]
    exact ⟨fun _ _ => rfl, fun _ => tryTasks_false B hP0 hP hoff 63 (by omega)⟩
  rw [wp, h] at hspec
  exact hspec rfl

/-- The page at the offset `off` of the slot is the file's: mapped to a frame that was free, with
the bytes from `1024 + off` on up to `end_data`. -/
def Delivered (M : MainMemory) (held : Multiset ℕ) (disk : ℕ → Page) (inode : Inode)
    (endData P off : ℕ) (s s' : Mm) : Prop :=
  ∃ f contents, Placed M s held (slotPlace P off) f contents s' ∧ ∀ i < 4096, byteAt contents i =
      if off + i < endData then fileByte disk inode (1024 + off + i) else 0

/-- What `do_execve` leaves of an accepted file. -/
theorem endData_of_load (hex : V₀.header inode = some ex) (hsum : ex.NoWrap)
    (hload : V₀.load inode t₀ = some t) :
    t.executable = some inode ∧ t.endData = ex.endData ∧ ex.endData ≤ 0x3000000 := by
  rw [Volume.load, hex] at hload
  simp only at hload
  split at hload
  · rename_i hacc
    cases hload
    refine ⟨rfl, rfl, ?_⟩
    have htext := hsum.1
    have hle := hacc.2.2.2.1
    rw [BitVec.toNat_add, BitVec.toNat_add] at hle
    rw [Header.endData, BitVec.toNat_add]
    omega
  · cases hload

/-- **Demand loading delivers the executable.**  In every state a run of the memory manager reaches,
for every file `do_execve` accepted whose sizes add up without wrapping, and every address of the
64 MB of the task whose page is absent: when `share_page` returns 0 and the file can be read,
`do_no_page` asks `bmap` for blocks in its range only, and the page it maps is the file's, or there
is not the memory for it. -/
theorem demand_loading (h : Reached M m Call.OnSlots σ.kernel) (hP0 : 0 < P) (hP : P < 64)
    (ha : a < 0x4000000) (habs : ¬present (σ.pte P a)) (hex : V₀.header inode = some ex)
    (hsum : ex.NoWrap) (hload : V₀.load inode t₀ = some t)
    (hno : a - a % 4096 < ex.endData → ∃ s₀, σ.sharePage P inode (a - a % 4096) σ.kernel.mm = .ok false s₀)
    (R : V.Reads disk (V.inode inode)) :
    (a - a % 4096 < ex.endData → ∀ i < 4, 1 + (a - a % 4096) / BLOCK_SIZE + i < 7 + 512 + 512 * 512) ∧
    wp (doNoPage σ V P t (base P + a))
      (fun _ s' => Delivered M σ.kernel.held disk (V.inode inode) ex.endData P (a - a % 4096)
        σ.kernel.mm s')
      (fun e _ => e = .oom ∧ Short σ.kernel.mm (slotPlace P a)) σ.kernel.mm := by
  have B : Books True M σ.kernel.mm σ.kernel.held := h.books (fun _ _ hc => hc)
  obtain ⟨ht, hend, hle⟩ := endData_of_load hex hsum hload
  have hpage : base P + a - (base P + a) % 4096 = base P + (a - a % 4096) := by
    rw [base]
    omega
  have hplace : placeOf (base P + (a - a % 4096)) = slotPlace P a := by
    rw [placeOf_base hP (by omega), slotPlace_page]
  have hp : placeOf (base P + (a - a % 4096)) ∈ places := by
    rw [hplace]
    exact slotPlace_mem hP0 hP ha
  have habs' : ¬present (σ.kernel.mm.pte (placeOf (base P + (a - a % 4096)))) := by
    rw [hplace]
    exact habs
  have hoff : (a - a % 4096) % 4096 = 0 := by omega
  have hlt : a - a % 4096 < 0x4000000 := by omega
  have hplace' := slotPlace_page P a
  generalize a - a % 4096 = off at *
  have htmp : (base P + off + 2 ^ 32 - base P) % 2 ^ 32 = off := by
    rw [base]
    omega
  refine ⟨fun hoffend i hi => by rw [BLOCK_SIZE]; omega, ?_⟩
  simp only [doNoPage, hpage, htmp, ht]
  rw [wp_ite, hend]
  refine ⟨fun hpast => ?_, fun hbefore => ?_⟩
  · apply wp_mono (getEmptyPage_places B hp habs')
    · rintro _ s' ⟨f, K⟩
      rw [hplace, ← hplace'] at K
      refine ⟨f, _, K, ?_⟩
      intro i _
      rw [if_neg (by omega)]
      exact BitVec.extractLsb'_zero ..
    · rw [hplace]
      exact fun _ _ h => h
  · obtain ⟨s₀, hshare⟩ := hno (by omega)
    have hs₀ := sharePage_false B hP0 hP hlt hshare
    rw [hs₀] at hshare
    rw [wp_bind]
    refine (wp_of_ok hshare).2 ?_
    rw [wp_ite]
    refine ⟨fun h => absurd h Bool.noConfusion, fun _ => ?_⟩
    rw [wp_bind]
    apply wp_mono (wp_and (getFreePage_books B) (getFreePage_full σ.kernel.mm)) _ (fun _ _ h => h.1.elim)
    rintro page s1 ⟨h, hfull⟩
    rw [wp_ite]
    rcases h with ⟨hz, -⟩ | ⟨f, hpage, F⟩
    · refine ⟨fun _ => ?_, fun hne => absurd hz hne⟩
      rw [wp_throw]
      exact ⟨rfl, fun g _ hg => absurd hg (not_free_of_full (hfull hz) g),
        fun _ => not_free_of_full (hfull hz)⟩
    · have hge := F.main.lowMem_le
      refine ⟨fun hz => by omega, fun _ => ?_⟩
      rw [BLOCK_SIZE, bmaps_zones R 4 (by omega), pure_bind, wp_bind, wp_modify, wp_bind, wp_modify,
        hpage, show f * 4096 / 4096 = f from by omega, storePage_mem_self, F.empty,
        storePage_storePage, wp_bind]
      apply wp_mono (putPage_places B F _ hp habs') _ (fun _ _ h => h.elim)
      rintro r s2 ⟨hzero, hplaced⟩
      rw [wp_ite]
      refine ⟨fun hr => ?_, fun hr => ?_⟩
      · have K := hplaced hr
        rw [hplace, ← hplace'] at K
        exact ⟨f, _, K, fun i hi => byteAt_page R (by omega) (by omega) hle hi⟩
      · obtain ⟨hs2, hshort⟩ := hzero (not_not.1 hr)
        have hin := Multiset.mem_cons_self f σ.kernel.held
        have B2 := F.books.content (by omega) (F.books.ledger.tableRefs_of_held hin).1
        rw [wp_bind, hs2]
        apply wp_mono (freePage_held (B2 _) hin) _ (fun _ _ h => h.elim)
        intro _ _ _
        rw [hplace] at hshort
        exact ⟨rfl, hshort⟩

end DoNoPage

/-- A disk with a file of one page of text: the header in block 1, one block of text in block 2, and
holes. -/
def oneDisk : ℕ → Page := fun b j =>
  if b = 1 then (if j = 0 then ZMAGIC else if j = 1 then 0x1000 else 0) else 0x90909090

def oneFile : Volume where
  inode := fun _ => ⟨fun k => if k < 2 then k + 1 else 0, 0, 5120⟩
  bread := fun _ b => some (oneDisk b)

def noTask : Task := ⟨none, 0, 0xA0000, 0x4000000, false, 256, []⟩

/-- Task 1 alone, right after `do_execve` of the file. -/
def loader : Machine where
  kernel := ⟨sixteenMegabytes.boot fun _ _ => 0, 0⟩
  task := fun nr =>
    if nr = 1 then some { noTask with executable := some 0, endData := 0x1000 } else none
  files := noFiles
  refs := fun _ => 0

theorem sharePage_alone {σ : Machine} {inode : ℕ} (h : σ.iCount inode < 2) (P off : ℕ) (s : Mm) :
    σ.sharePage P inode off s = .ok false s := by
  rw [Machine.sharePage, if_pos h]
  rfl

theorem demand_loading_first : (0 < 0x1000 → ∀ i < 4, 1 + 0 / BLOCK_SIZE + i < 7 + 512 + 512 * 512) ∧
    wp (doNoPage loader oneFile 1 { noTask with executable := some 0, endData := 0x1000 } (base 1 + 0))
      (fun _ s' => Delivered sixteenMegabytes 0 oneDisk (oneFile.inode 0) 0x1000 1 0 loader.kernel.mm s')
      (fun e _ => e = .oom ∧ Short loader.kernel.mm (slotPlace 1 0)) loader.kernel.mm := by
  have hp : slotPlace 1 0 ∈ places := slotPlace_mem (by omega) (by omega) (by omega)
  have habs : ¬present (loader.pte 1 0) := by
    rw [show loader.pte 1 0 = 0 from boot_pte sixteenMegabytes (fun _ _ => 0) hp]
    exact present_zero
  have hex : oneFile.header 0 = some ⟨ZMAGIC, 0x1000, 0, 0, 0, 0, 0⟩ := rfl
  have hload : oneFile.load 0 noTask = some { noTask with executable := some 0, endData := 0x1000 } :=
    rfl
  exact demand_loading Reached.boot (by omega) (by omega) (by omega) habs hex (by decide) hload
    (fun _ => ⟨_, sharePage_alone (by decide) 1 0 _⟩) (fun _ _ => rfl)

end OldLinux.Demand
