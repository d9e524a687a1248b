import OldLinux.Memory.Faults

/-!
# When memory runs out

The functions of `mm/memory.cc` fail only when there is no free frame left, `get_empty_page` also
when there is only one.  As the counts are exact, a frame is free unless a page of a process is in
it, it is a page table or the kernel holds it; so where few pages are mapped nothing fails.
-/

namespace OldLinux.Memory

open Lib

variable {shield : Prop} {M : MainMemory} {s s' : Mm} {held : Multiset ℕ} {n : ℕ}

/-- There is at most one free frame. -/
def Mm.Tight (s : Mm) : Prop := ∃ k, ∀ j < 3840, j ≠ k → s.memMap j ≠ 0

theorem Mm.Full.tight (h : s.Full) : s.Tight := ⟨0, fun j hj _ => h j hj⟩

/-- The pages of the processes are in at most `n` frames of main memory. -/
def Mm.Few (s : Mm) (n : ℕ) : Prop :=
  ∃ S : Finset ℕ, S.card ≤ n ∧ ∀ q ∈ places, present (s.pte q) → 256 ≤ frameOf (s.pte q) → frameOf (s.pte q) ∈ S

theorem Mm.Few.mono {n' : ℕ} (h : s.Few n) (hn : n ≤ n') : s.Few n' := by
  obtain ⟨S, hcard, hS⟩ := h
  exact ⟨S, le_trans hcard hn, hS⟩

theorem Mm.Few.of_entries (h : s.Few n) (hold : ∀ q ∈ places, present (s'.pte q) → 256 ≤ frameOf (s'.pte q) →
    ∃ p ∈ places, present (s.pte p) ∧ frameOf (s.pte p) = frameOf (s'.pte q)) : s'.Few n := by
  obtain ⟨S, hcard, hS⟩ := h
  refine ⟨S, hcard, ?_⟩
  intro q hq hp hf
  obtain ⟨p, hp', hpres, hfr⟩ := hold q hq hp hf
  rw [← hfr] at hf ⊢
  exact hS p hp' hpres hf

/-- One page more. -/
theorem Mm.Few.add (h : s.Few n) {p : ℕ × ℕ} {e : Word}
    (hpte : ∀ q ∈ places, s'.pte q = if q = p then e else s.pte q) : s'.Few (n + 1) := by
  obtain ⟨S, hcard, hS⟩ := h
  refine ⟨insert (frameOf e) S, le_trans (Finset.card_insert_le _ _) (by omega), ?_⟩
  intro q hq hp hf
  rw [hpte q hq] at hp hf ⊢
  by_cases hqp : q = p
  · rw [if_pos hqp]
    exact Finset.mem_insert_self _ _
  · rw [if_neg hqp] at hp hf ⊢
    exact Finset.mem_insert_of_mem (hS q hq hp hf)

/-- **Where few pages are mapped there is room.** -/
theorem Books.roomy (B : Books shield M s held) (hfew : s.Few n)
    (hroom : n + 1008 + held.card + 1 < M.hi - M.lo) : ¬s.Tight := by
  intro htight
  obtain ⟨k, hk⟩ := htight
  obtain ⟨S, hcard, hS⟩ := hfew
  have hdir : directory.card = 1008 := by
    rw [directory]
    exact Nat.card_Ico 16 1024
  have hsub : Finset.Ico M.lo M.hi ⊆ insert (256 + k) ((S ∪ directory.image s.table) ∪ held.toFinset) := by
    intro f hf
    rw [Finset.mem_Ico] at hf
    have hin : M.Has f := hf
    have hge := hin.lowMem_le
    have hlt := hin.lt
    rw [Finset.mem_insert, Finset.mem_union, Finset.mem_union]
    by_cases hfk : f = 256 + k
    · exact Or.inl hfk
    · right
      have hne := hk (f - 256) (by omega) (by omega)
      have hcount := B.ledger.exact f hge hlt
      rw [MainMemory.base, if_pos hin] at hcount
      have hpos : s.count f ≠ 0 := by
        intro h0
        exact hne (BitVec.eq_of_toNat_eq h0)
      by_cases he : s.entryRefs f = 0
      · by_cases ht : s.tableRefs f = 0
        · right
          rw [Multiset.mem_toFinset, ← Multiset.count_pos]
          omega
        · left
          right
          obtain ⟨d, hd, hpd⟩ := exists_of_countIn ht
          exact Finset.mem_image.2 ⟨d, hd, hpd.2⟩
      · left
        left
        obtain ⟨p, hp, hm⟩ := exists_of_countIn he
        obtain ⟨hpres, hfr⟩ := maps_iff_pte.1 hm
        have := hS p hp hpres (by rw [hfr]; exact hge)
        rw [hfr] at this
        exact this
  have hle := Finset.card_le_card hsub
  have h1 := Finset.card_insert_le (256 + k) ((S ∪ directory.image s.table) ∪ held.toFinset)
  have h2 := Finset.card_union_le (S ∪ directory.image s.table) held.toFinset
  have h3 := Finset.card_union_le S (directory.image s.table)
  have h4 := Finset.card_image_le (s := directory) (f := s.table)
  have h5 := Multiset.toFinset_card_le held
  rw [Nat.card_Ico] at hle
  omega

/-! ### What succeeds -/

theorem getFreePage_ok (h : ¬s.Full) : wp getFreePage (fun r _ => r ≠ 0) (fun _ _ => False) s :=
  wp_mono (getFreePage_full s) (fun _ _ hr h0 => h (hr h0)) (fun _ _ h => h)

theorem getFreePage_tight (s : Mm) : wp getFreePage (fun _ s' => s'.Full → s.Tight) (fun _ _ => False) s := by
  apply wp_mono (getFreePage_spec s) _ (fun _ _ h => h)
  intro r s' h hfull
  cases h with
  | none hs => exact Mm.Full.tight hs
  | some k hk _ _ =>
    refine ⟨k, ?_⟩
    intro j hj hne
    have := hfull j hj
    rw [storePage_memMap, setCount_memMap, if_neg hne] at this
    exact this

theorem putPage_ok (h : ¬s.Full) (page address : ℕ) :
    wp (putPage page address) (fun r _ => r = page) (fun _ _ => False) s := by
  rw [putPage, wp_bind, wp_loadWord, wp_ite]
  constructor
  · intro _
    rfl
  · intro _
    rw [wp_bind]
    apply wp_mono (getFreePage_ok h) _ (fun _ _ h => h)
    intro tmp s1 hne
    rw [wp_ite]
    exact ⟨fun h => absurd h hne, fun _ => rfl⟩

theorem getEmptyPage_ok (h : ¬s.Tight) (address : ℕ) :
    wp (getEmptyPage address) (fun _ _ => True) (fun _ _ => False) s := by
  rw [getEmptyPage, wp_bind]
  apply wp_mono (wp_and (getFreePage_ok (fun hf => h (Mm.Full.tight hf))) (getFreePage_tight s)) _
    (fun _ _ h => h.1)
  intro tmp s1 h1
  rw [wp_ite]
  refine ⟨fun h0 => absurd h0 h1.1, fun _ => ?_⟩
  rw [wp_bind]
  apply wp_mono (putPage_ok (fun hf => h (h1.2 hf)) tmp address) _ (fun _ _ h => h)
  intro r s2 hr
  rw [wp_ite]
  exact ⟨fun h0 => absurd (hr.symm.trans h0) h1.1, fun _ => trivial⟩

theorem unWpPage_ok (h : ¬s.Full) (table i : ℕ) :
    wp (unWpPage table i) (fun _ _ => True) (fun _ _ => False) s := by
  simp only [unWpPage, wp_bind, wp_loadWord, wp_get, wp_ite, wp_storeWord]
  refine ⟨fun _ => trivial, fun _ => ?_⟩
  apply wp_mono (getFreePage_ok h) _ (fun _ _ h => h)
  intro newPage s1 hne
  refine ⟨fun h0 => absurd h0 hne, fun _ => ⟨fun _ => trivial, fun _ => trivial⟩⟩

theorem doWpPage_ok (h : ¬s.Full) (address : ℕ) :
    wp (doWpPage address) (fun _ _ => True) (fun _ _ => False) s := by
  rw [doWpPage, wp_bind, wp_loadWord]
  exact unWpPage_ok h _ _

end OldLinux.Memory
