import OldLinux.Memory.Faults

/-!
# What is below main memory stays

The page directory is frame 0, the kernel's page tables are the frames 1 to 4, and all page tables
of processes lie in main memory.  So `un_wp_page` and `write_verify` change no frame below 256, and
`copy_page_tables` changes the page directory only.
-/

namespace OldLinux.Memory

open Lib

variable {M : MainMemory} {s s' s'' : Mm} {held : Multiset ℕ}

/-- The frames below main memory hold what they held in `s`. -/
def LowAs (s s' : Mm) : Prop := ∀ g < 256, s'.mem g = s.mem g

theorem LowAs.refl (s : Mm) : LowAs s s := fun _ _ => rfl

theorem LowAs.trans (h : LowAs s s') (h' : LowAs s' s'') : LowAs s s'' := by
  intro g hg
  rw [h' g hg, h g hg]

theorem lowAs_store {t : ℕ} (ht : 256 ≤ t) (i : ℕ) (e : Word) : LowAs s (s.store t i e) :=
  fun g hg => store_mem_of_ne s (by omega) i e

theorem lowAs_storePage {t : ℕ} (ht : 256 ≤ t) (page : ℕ → Word) : LowAs s (s.storePage t page) :=
  fun g hg => storePage_mem_of_ne s (by omega) page

theorem getFreePage_low (s : Mm) :
    wp getFreePage (fun r s' => LowAs s s' ∧ (r ≠ 0 → 256 ≤ r / 4096)) (fun _ _ => False) s := by
  apply wp_mono (getFreePage_spec s) _ (fun _ _ h => h)
  intro r s' h
  cases h with
  | none _ => exact ⟨LowAs.refl s, fun h => absurd rfl h⟩
  | some k _ _ _ => exact ⟨lowAs_storePage (by omega) _, fun _ => by omega⟩

/-! ### `un_wp_page` and `write_verify` -/

theorem unWpPage_low {t : ℕ} (ht : 256 ≤ t) (i : ℕ) (s : Mm) :
    wp (unWpPage t i) (fun _ s' => LowAs s s') (fun e _ => e = .oom) s := by
  simp only [unWpPage, wp_bind, wp_loadWord, wp_get, wp_ite, wp_storeWord]
  refine ⟨fun _ => lowAs_store ht i _, fun _ => ?_⟩
  apply wp_mono (getFreePage_low s) _ (fun _ _ h => h.elim)
  intro new s1 h
  obtain ⟨hlow, hnew⟩ := h
  refine ⟨fun _ => rfl, fun hne => ?_⟩
  -- the entry is stored and the page is copied, whatever became of the old count
  have hrest : ∀ s2 : Mm, s2.mem = s1.mem → LowAs s ((s2.store t i (userEntry new)).storePage
      (new / 4096) ((s2.store t i (userEntry new)).mem (frameOf (s.mem t i) * 4096 / 4096))) := by
    intro s2 hmem
    have h2 : LowAs s s2 := by
      intro g hg
      rw [hmem, hlow g hg]
    exact (h2.trans (lowAs_store ht i _)).trans (lowAs_storePage (hnew hne) _)
  exact ⟨fun _ => hrest _ rfl, fun _ => hrest s1 rfl⟩

/-- `write_verify` at a place of a process stores into a page table in main memory. -/
theorem writeVerify_low {shield : Prop} (B : Books shield M s held) {address : ℕ}
    (hp : placeOf address ∈ places) :
    wp (writeVerify address) (fun _ s' => LowAs s s') (fun e _ => e = .oom) s := by
  rw [writeVerify, wp_bind, wp_loadWord, wp_ite]
  refine ⟨fun hd => ?_, fun _ => LowAs.refl s⟩
  have hge := B.ledger.table_ge (directory_of_places hp) hd
  rw [wp_bind, wp_loadWord, wp_ite]
  exact ⟨fun _ => unWpPage_low hge _ s, fun _ => LowAs.refl s⟩

/-! ### `copy_page_tables` -/

/-- Nothing is stored into the source table: it is in main memory, or it maps none of it. -/
def Quiet (s : Mm) (ft nr : ℕ) : Prop := 256 ≤ ft ∨ ∀ i < nr, frameOf (s.mem ft i) < 256

theorem copyEntry_low {ft tt i : ℕ} (ht : 256 ≤ tt) (hsrc : 256 ≤ ft ∨ frameOf (s.mem ft i) < 256) :
    wp (copyEntry ft tt i) (fun _ s' => LowAs s s') (fun _ _ => False) s := by
  simp only [copyEntry, wp_bind, wp_loadWord, wp_ite, wp_storeWord, wp_modify, wp_pure]
  refine ⟨fun he => ?_, fun _ => LowAs.refl s⟩
  have hone : LowAs s (s.store tt i (readOnly (s.mem ft i))) := lowAs_store ht i _
  refine ⟨fun hmain => ?_, fun _ => hone⟩
  have hft : 256 ≤ ft := by
    refine hsrc.resolve_right ?_
    have hge := (lowMem_lt_iff ((present_readOnly _).2 he)).1 hmain
    rw [frameOf_readOnly] at hge
    omega
  exact hone.trans (lowAs_store hft i _)

theorem copyEntries_low {ft tt nr : ℕ} (ht : 256 ≤ tt) (hsrc : Quiet s ft nr) :
    wp (copyEntries ft tt 0 nr) (fun _ s' => LowAs s s') (fun _ _ => False) s := by
  have hloop := wp_countdown (copyEntries ft tt) (copyEntry ft tt) (fun _ => rfl) (fun _ _ => rfl)
    nr (fun _ s' => LowAs s s') (fun _ _ => False) ?_ nr 0 s (by omega) (LowAs.refl s)
  · exact hloop
  · intro i s' hi hlow
    have hbody : 256 ≤ ft ∨ frameOf (s'.mem ft i) < 256 := by
      by_cases hft : 256 ≤ ft
      · exact Or.inl hft
      · rw [hlow ft (by omega)]
        exact Or.inr (hsrc.resolve_left hft i hi)
    apply wp_mono (copyEntry_low ht hbody) _ (fun _ _ h => h)
    intro _ s'' h
    exact hlow.trans h

/-- All but the page directory. -/
def TablesAs (s s' : Mm) : Prop := ∀ g, 0 < g → g < 256 → s'.mem g = s.mem g

theorem TablesAs.trans (h : TablesAs s s') (h' : TablesAs s' s'') : TablesAs s s'' := by
  intro g h0 hg
  rw [h' g h0 hg, h g h0 hg]

theorem LowAs.tables (h : LowAs s s') : TablesAs s s' := fun g _ hg => h g hg

/-- The page tables of the processes are in main memory. -/
def TablesHigh (s : Mm) : Prop := ∀ d ∈ directory, present (s.mem 0 d) → 256 ≤ s.table d

theorem TablesHigh.of_dir (h : TablesHigh s) (hdir : s'.mem 0 = s.mem 0) : TablesHigh s' := by
  intro d hd hp
  rw [Mm.table, hdir]
  rw [hdir] at hp
  exact h d hd hp

theorem TablesHigh.link (h : TablesHigh s) {d : ℕ} {e : Word} (he : 256 ≤ frameOf e) :
    TablesHigh (s.store 0 d e) := by
  intro d' hd' hp
  rw [store_zero_table]
  rw [store_zero_dir] at hp
  by_cases hdd : d' = d
  · rw [if_pos hdd]
    exact he
  · rw [if_neg hdd] at hp ⊢
    exact h d' hd' hp

/-- What the loop may read: tables of processes, or the first table of the kernel alone. -/
def Readable (s : Mm) (nr fd n : ℕ) : Prop :=
  (16 ≤ fd ∧ fd + n ≤ 1024) ∨ n ≤ 1 ∧ 0 < s.table fd ∧ ∀ i < nr, frameOf (s.mem (s.table fd) i) < 256

/-- The `n` directory entries from `td` on are not in use. -/
def Unused (s : Mm) (td n : ℕ) : Prop := ∀ d, td ≤ d → d < td + n → ¬present (s.mem 0 d)

theorem Unused.cons {td n : ℕ} (h0 : ¬present (s.mem 0 td)) (h : Unused s (td + 1) n) :
    Unused s td (n + 1) := by
  intro d h1 h2
  by_cases hd : d = td
  · rw [hd]
    exact h0
  · exact h d (by omega) (by omega)

/-- The loop leaves the kernel's tables alone, and it goes through only where nothing was in use. -/
theorem copyDirEntries_low (nr n fd td : ℕ) (h : TablesHigh s) (htd : 16 ≤ td) (hsrc : Readable s nr fd n) :
    wp (copyDirEntries nr fd td n) (fun r s' => TablesAs s s' ∧ (r = 0 → Unused s td n))
      (fun _ _ => True) s := by
  induction n generalizing fd td s with
  | zero => exact ⟨(LowAs.refl s).tables, fun _ d h1 h2 => by omega⟩
  | succ n ih =>
    have hnext : ∀ s' : Mm, TablesHigh s' → TablesAs s s' → ¬present (s.mem 0 td) →
        (∀ d, td < d → s'.mem 0 d = s.mem 0 d) →
        wp (copyDirEntries nr (fd + 1) (td + 1) n)
          (fun r s' => TablesAs s s' ∧ (r = 0 → Unused s td (n + 1))) (fun _ _ => True) s' := by
      intro s' h' hs' h0 hdirs
      rcases hsrc with hfd | hone
      · apply wp_mono (ih (fd + 1) (td + 1) h' (by omega) (Or.inl (by omega))) _ (fun _ _ h => h)
        intro r s'' h''
        refine ⟨hs'.trans h''.1, fun hr => Unused.cons h0 ?_⟩
        intro d h1 h2
        rw [← hdirs d (by omega)]
        exact h''.2 hr d h1 h2
      · rw [show n = 0 from by omega]
        exact ⟨hs', fun _ => Unused.cons h0 (fun d h1 h2 => by omega)⟩
    simp only [copyDirEntries, wp_bind, wp_loadWord, wp_ite, wp_throw, wp_storeWord]
    refine ⟨fun _ => trivial, fun h0 => ⟨fun hfrom => ?_, fun _ => ?_⟩⟩
    · apply wp_mono (wp_and (getFreePage_low s) (getFreePage_spec s)) _ (fun _ _ h => h.1.elim)
      intro tt s1 hget
      obtain ⟨⟨hlow, hge⟩, htaken⟩ := hget
      refine ⟨fun _ => ⟨hlow.tables, fun hr => absurd hr (by decide)⟩, fun hne => ?_⟩
      have hfr : 256 ≤ frameOf (userEntry tt) := by
        cases htaken with
        | none _ => exact absurd rfl hne
        | some k hk _ _ =>
          rw [frameOf_userEntry_frame (by omega)]
          omega
      have hlink : TablesAs s (s1.store 0 td (userEntry tt)) := by
        intro g h0 hg
        rw [store_mem_of_ne s1 (by omega), hlow g hg]
      have hquiet : Quiet (s1.store 0 td (userEntry tt)) (frameOf (s.mem 0 fd)) nr := by
        rcases hsrc with hfd | ⟨_, hpos, hmaps⟩
        · exact Or.inl (h fd (mem_directory.2 ⟨hfd.1, by omega⟩) hfrom)
        · by_cases hft : 256 ≤ s.table fd
          · exact Or.inl hft
          · refine Or.inr ?_
            intro i hi
            have hsame := hlink _ hpos (not_le.1 hft)
            rw [Mm.table] at hsame
            rw [hsame]
            exact hmaps i hi
      apply wp_mono (copyEntries_low (hge hne) hquiet) _ (fun _ _ h => h.elim)
      intro _ s2 hs2
      have hdir2 := hs2 0 (by omega)
      refine hnext s2 ?_ (hlink.trans hs2.tables) h0 ?_
      · exact ((h.of_dir (hlow 0 (by omega))).link hfr).of_dir hdir2
      · intro d hd
        rw [hdir2, store_zero_dir, if_neg (by omega), hlow 0 (by omega)]
    · exact hnext s h (LowAs.refl s).tables h0 (fun _ _ => rfl)

/-- **`copy_page_tables`** of a slot changes no page table of the kernel, and fails where the new
slot is in use. -/
theorem copyPageTables_low {shield : Prop} (B : Books shield M s held) {a b size : ℕ} (ha : a < 64)
    (hb0 : 0 < b) (hb : b < 64) (hsize : size ≤ 0x4000000) (hzero : a = 0 → size ≤ 0x400000) :
    wp (copyPageTables (a * 0x4000000) (b * 0x4000000) size)
      (fun r s' => TablesAs s s' ∧ (r = 0 → Unused s (b * 16) (dirCount size)))
      (fun _ _ => True) s := by
  have hda : dirIndex (a * 0x4000000) = a * 16 := by
    rw [dirIndex]
    omega
  have hdb : dirIndex (b * 0x4000000) = b * 16 := by
    rw [dirIndex]
    omega
  have hcnt : dirCount size ≤ 16 ∧ (size ≤ 0x400000 → dirCount size ≤ 1) := by
    rw [dirCount]
    omega
  rw [copyPageTables, if_neg (by omega), hda, hdb]
  refine copyDirEntries_low _ _ _ _ (fun d hd hp => B.ledger.table_ge hd hp) (by omega) ?_
  by_cases ha0 : a = 0
  · have htab : s.table (a * 16) = 0 + 1 := by
      rw [ha0]
      exact B.ledger.kernelTable 0 (by omega)
    refine Or.inr ⟨hcnt.2 (hzero ha0), by omega, ?_⟩
    rw [if_pos (by omega), htab]
    intro i hi
    rw [(B.ledger.kernelEntry 0 (by omega) i (by omega)).2]
    omega
  · exact Or.inl ⟨by omega, by omega⟩

end OldLinux.Memory
