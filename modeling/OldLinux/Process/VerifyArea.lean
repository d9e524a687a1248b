import OldLinux.Process.Runs
import OldLinux.Memory.CopyExact

/-!
# `verify_area` covers its range

`Verified A s s'` says what verifying the pages at the places in `A` does: they are writable
afterwards, no page anywhere has other contents, and no other entry has changed.  One call of
`write_verify` is such a step for its own place, the steps compose, and so the loop verifies the
places it visits.  Which places these are is decided by the `int` that `size += start & 0xfff`
leaves.
-/

namespace OldLinux.Process

open Lib Memory

variable {M : MainMemory} {s s' s'' : Mm} {held : Multiset ℕ} {A A' : ℕ × ℕ → Prop}

/-! ### One page -/

/-- The page at `q` is not write-protected. -/
def Open (s : Mm) (q : ℕ × ℕ) : Prop := present (s.pte q) → writable (s.pte q)

/-- What verifying the pages at the places in `A` does. -/
structure Verified (A : ℕ × ℕ → Prop) (s s' : Mm) : Prop where
  opened : ∀ q ∈ places, A q → Open s' q
  present : ∀ q ∈ places, (present (s'.pte q) ↔ present (s.pte q))
  contents : ∀ q ∈ places, Memory.present (s.pte q) → s'.mem (frameOf (s'.pte q)) = s.mem (frameOf (s.pte q))
  still : ∀ q ∈ places, ¬A q ∨ Open s q → s'.pte q = s.pte q
  low : LowAs s s'

theorem Verified.refl (hA : ∀ q ∈ places, A q → Open s q) : Verified A s s where
  opened := hA
  present := fun _ _ => Iff.rfl
  contents := fun _ _ _ => rfl
  still := fun _ _ _ => rfl
  low := LowAs.refl s

theorem Verified.open_of_open (h : Verified A s s') {q : ℕ × ℕ} (hq : q ∈ places) (ho : Open s q) :
    Open s' q := by
  rw [Open, h.still q hq (Or.inr ho)]
  exact ho

theorem Verified.trans (h : Verified A s s') (h' : Verified A' s' s'') :
    Verified (fun q => A q ∨ A' q) s s'' where
  opened := by
    intro q hq hA
    rcases hA with hA | hA
    · exact h'.open_of_open hq (h.opened q hq hA)
    · exact h'.opened q hq hA
  present := by
    intro q hq
    rw [h'.present q hq, h.present q hq]
  contents := by
    intro q hq hp
    rw [h'.contents q hq ((h.present q hq).2 hp), h.contents q hq hp]
  still := by
    intro q hq hA
    have hold : s'.pte q = s.pte q := h.still q hq (hA.imp_left fun hn ha => hn (Or.inl ha))
    rw [← hold]
    refine h'.still q hq (hA.imp (fun hn ha => hn (Or.inr ha)) ?_)
    exact fun ho => h.open_of_open hq ho
  low := h.low.trans h'.low

theorem Verified.congr (h : Verified A s s') (hA : ∀ q, A q ↔ A' q) : Verified A' s s' := by
  have hAA : A = A' := funext fun q => propext (hA q)
  rw [← hAA]
  exact h

/-- A page whose write protection was lifted is verified. -/
theorem Unshared.verified {p : ℕ × ℕ} (B : Books True M s held) (hpres : present (s.pte p))
    (hro : ¬writable (s.pte p)) (U : Unshared True M s held p s') (hlow : LowAs s s') :
    Verified (fun q => q = p) s s' := by
  have hnew := U.own hpres
  have hother : ∀ q ∈ places, q ≠ p → s'.pte q = s.pte q := by
    intro q hq hne
    rw [U.changed.pte q hq, if_neg hne]
  refine ⟨?_, ?_, ?_, ?_, hlow⟩
  · intro q _ hqp _
    rw [hqp]
    exact hnew.2
  · intro q hq
    by_cases hqp : q = p
    · rw [hqp]
      exact ⟨fun _ => hpres, fun _ => hnew.1⟩
    · rw [hother q hq hqp]
  · intro q hq hp
    by_cases hqp : q = p
    · rw [hqp]
      exact U.contents trivial
    · rw [hother q hq hqp]
      by_cases hf : 256 ≤ frameOf (s.pte q)
      · exact preserved_of_maps B U.changed.kept hq hp hf
      · exact hlow _ (by omega)
  · intro q hq hA
    refine hother q hq ?_
    rintro rfl
    exact hA.elim (fun h => h rfl) (fun ho => hro (ho hpres))

theorem writeVerify_page (B : Books True M s held) {address : ℕ} (ha : address < 2 ^ 32) :
      wp (writeVerify address)
      (fun _ s' => Books True M s' held ∧ Verified (fun q => q = placeOf address) s s')
      (fun e _ => e = .oom) s := by
  by_cases hlow : address < 0x4000000
  · apply wp_mono (writeVerify_kernel B hlow) _ (fun _ _ h => h.elim)
    intro _ s' hs'
    rw [hs']
    refine ⟨B, Verified.refl ?_⟩
    intro q hq hqa
    have hb := mem_places.1 hq
    rw [hqa, placeOf_fst, dirIndex] at hb
    omega
  · have hp : placeOf address ∈ places := placeOf_mem ⟨by omega, ha⟩
    apply wp_mono (wp_and (writeVerify_books B hp) (writeVerify_low B hp)) _ (fun _ _ h => h.2)
    intro _ s' h
    obtain ⟨hcase, hlows⟩ := h
    rcases hcase with ⟨hpres, hro, U⟩ | ⟨hwr, hs'⟩
    · exact ⟨U.changed.books, Unshared.verified B hpres hro U hlows⟩
    · rw [hs']
      refine ⟨B, Verified.refl ?_⟩
      intro q _ hqa
      rw [hqa]
      exact hwr

/-! ### The loop -/

theorem verifyPages_verified (n : ℕ) {start : ℕ} (B : Books True M s held) (hstart : start < 2 ^ 32) :
    wp (verifyPages start n) (fun _ s' => Books True M s' held ∧
        Verified (fun q => ∃ i < n, q = placeOf (verifyAddress start i)) s s')
      (fun e _ => e = .oom) s := by
  induction n generalizing start s with
  | zero =>
    refine ⟨B, Verified.refl ?_⟩
    rintro q _ ⟨i, hi, _⟩
    omega
  | succ n ih =>
    rw [verifyPages, wp_bind]
    apply wp_mono (writeVerify_page B hstart) _ (fun _ _ h => h)
    intro _ s1 h
    obtain ⟨B1, V1⟩ := h
    apply wp_mono (ih B1 (Nat.mod_lt (start + 4096) (by omega))) _ (fun _ _ h => h)
    intro _ s2 h
    obtain ⟨B2, V2⟩ := h
    refine ⟨B2, (V1.trans V2).congr ?_⟩
    intro q
    constructor
    · rintro (h0 | ⟨i, hi, hq⟩)
      · exact ⟨0, by omega, by rw [verifyAddress_zero hstart]; exact h0⟩
      · exact ⟨i + 1, by omega, by rw [← verifyAddress_next]; exact hq⟩
    · rintro ⟨i, hi, hq⟩
      cases i with
      | zero =>
        rw [verifyAddress_zero hstart] at hq
        exact Or.inl hq
      | succ i =>
        rw [← verifyAddress_next] at hq
        exact Or.inr ⟨i, by omega, hq⟩

/-! ### The range -/

/-- `INT_MAX`. -/
def INT_MAX : ℕ := 2 ^ 31 - 1

/-- One of the `size` bytes from `addr` on lies in the page at `q`. -/
def InArea (nr addr size : ℕ) (q : ℕ × ℕ) : Prop :=
  ∃ k < size, q = placeOf ((base nr + addr + k) % 2 ^ 32)

theorem verifyCount_fits {addr size : ℕ} (h : size + addr % 4096 ≤ INT_MAX) :
    verifyCount addr size = (size + addr % 4096 + 4095) / 4096 := by
  rw [INT_MAX] at h
  have hmod : ((size : ℤ) + (addr : ℤ) % 4096).bmod (2 ^ 32) = (size : ℤ) + (addr : ℤ) % 4096 := by
    apply Int.bmod_eq_of_le
    · omega
    · omega
  rw [verifyCount, hmod]
  omega

/-- The sum overflows: nothing is verified. -/
theorem verifyCount_wraps {addr size : ℕ} (hsize : size ≤ INT_MAX)
    (h : INT_MAX < size + addr % 4096) : verifyCount addr size = 0 := by
  rw [INT_MAX] at hsize h
  have hmod : ((size : ℤ) + (addr : ℤ) % 4096).bmod (2 ^ 32) = (size : ℤ) + (addr : ℤ) % 4096 - 2 ^ 32 := by
    rw [Int.bmod]
    omega
  rw [verifyCount, hmod]
  omega

/-- The loop visits the pages of the range and no others. -/
theorem inArea_iff {nr addr size : ℕ} (h1 : 1 ≤ size) (q : ℕ × ℕ) :
    (∃ i < (size + addr % 4096 + 4095) / 4096,
      q = placeOf (verifyAddress ((addr - addr % 4096 + base nr) % 2 ^ 32) i)) ↔
      InArea nr addr size q := by
  -- a byte and the start of its page have the same place
  have hplace : ∀ x y : ℕ, x / 4096 = y / 4096 → placeOf x = placeOf y := by
    intro x y h
    have hdir : x / 2 ^ 22 = y / 2 ^ 22 := by omega
    have htab : x / 2 ^ 12 = y / 2 ^ 12 := by omega
    rw [placeOf, placeOf, dirIndex, dirIndex, tableIndex, tableIndex, hdir, htab]
  have hbase : base nr % 4096 = 0 := by
    rw [base]
    omega
  unfold InArea verifyAddress
  generalize base nr = b at *
  constructor
  · rintro ⟨i, hi, hq⟩
    refine ⟨i * 4096 - addr % 4096, by omega, ?_⟩
    rw [hq]
    apply hplace
    omega
  · rintro ⟨k, hk, hq⟩
    refine ⟨(addr % 4096 + k) / 4096, by omega, ?_⟩
    rw [hq]
    apply hplace
    omega

/-- What callers expect of `verify_area(addr, size)` in a task with a data segment of `limit` bytes:
no page of the segment that has a byte of the range is present and read-only, its contents are what
they were, and the other entries, the page directory and the kernel's page tables are as before. -/
structure AreaVerified (nr addr size limit : ℕ) (s s' : Mm) : Prop where
  writable : ∀ a, addr ≤ a → a < addr + size → a < limit →
    ¬(Memory.present (s'.pte (slotPlace nr a)) ∧ ¬Memory.writable (s'.pte (slotPlace nr a)))
  present : ∀ a, addr ≤ a → a < addr + size → a < limit →
    (present (s'.pte (slotPlace nr a)) ↔ present (s.pte (slotPlace nr a)))
  contents : ∀ a, addr ≤ a → a < addr + size → a < limit → Memory.present (s.pte (slotPlace nr a)) →
      s'.mem (frameOf (s'.pte (slotPlace nr a))) = s.mem (frameOf (s.pte (slotPlace nr a)))
  others : ∀ q ∈ places, ¬InArea nr addr size q → s'.pte q = s.pte q
  kernel : ∀ f < 256, s'.mem f = s.mem f

/-- No page of the range is present and read-only. -/
def NothingProtected (s : Mm) (nr addr size limit : ℕ) : Prop :=
  ∀ a, addr ≤ a → a < addr + size → a < limit →
    ¬(present (s.pte (slotPlace nr a)) ∧ ¬writable (s.pte (slotPlace nr a)))

variable {m : ℕ → Page} {k : Kernel} {nr addr size limit : ℕ}

/-- A byte of the range has its page in the area. -/
theorem inArea_slotPlace (hnr : nr < 64) (hlimit : limit ≤ 0x4000000) {a : ℕ} (h1 : addr ≤ a)
    (h2 : a < addr + size) (h3 : a < limit) : InArea nr addr size (slotPlace nr a) := by
  refine ⟨a - addr, by omega, ?_⟩
  have hlin : (base nr + addr + (a - addr)) % 2 ^ 32 = base nr + a := by
    rw [base]
    omega
  rw [hlin, placeOf_base hnr (by omega)]

theorem Verified.area (hnr0 : 0 < nr) (hnr : nr < 64) (hlimit : limit ≤ 0x4000000)
    (V : Verified (InArea nr addr size) s s') : AreaVerified nr addr size limit s s' := by
  have hplace : ∀ a, a < limit → slotPlace nr a ∈ places := by
    intro a ha
    exact slotPlace_mem hnr0 hnr (by omega)
  refine ⟨?_, ?_, ?_, ?_, V.low⟩
  · intro a h1 h2 h3 hro
    exact hro.2 (V.opened _ (hplace a h3) (inArea_slotPlace hnr hlimit h1 h2 h3) hro.1)
  · intro a _ _ h3
    exact V.present _ (hplace a h3)
  · intro a _ _ h3 hp
    exact V.contents _ (hplace a h3) hp
  · intro q hq hA
    exact V.still q hq (Or.inl hA)

/-- **`verify_area` covers its range exactly when the size does not overflow.**  Of every task in
the slots 1 to 63, in every state the memory manager reaches, for every address and every
size from 1 to `INT_MAX`: `verify_area` returns with its range verified, or runs out of memory and
does not return, if and only if `size + (addr & 0xfff)` is an `int`, or there was nothing to do. -/
theorem verify_area_covers (h : Reached M m Call.OnSlots k) (hnr0 : 0 < nr) (hnr : nr < 64)
    (h1 : 1 ≤ size) (hsize : size ≤ INT_MAX)
    (hlimit : limit ≤ 0x4000000) :
    wp (verifyArea nr addr size) (fun _ s' => AreaVerified nr addr size limit k.mm s')
      (fun e _ => e = .oom) k.mm ↔
    size + addr % 4096 ≤ INT_MAX ∨ NothingProtected k.mm nr addr size limit := by
  have B : Books True M k.mm k.held := h.books (fun _ _ hc => hc)
  by_cases hfits : size + addr % 4096 ≤ INT_MAX
  · refine ⟨fun _ => Or.inl hfits, fun _ => ?_⟩
    rw [verifyArea, verifyCount_fits hfits]
    apply wp_mono (verifyPages_verified _ B (Nat.mod_lt _ (by omega))) _ (fun _ _ h => h)
    intro _ s' hs'
    exact (hs'.2.congr (inArea_iff h1)).area hnr0 hnr hlimit
  · rw [verifyArea, verifyCount_wraps hsize (by omega), verifyPages, wp_pure]
    constructor
    · intro V
      exact Or.inr V.writable
    · rintro (hle | hnone)
      · exact absurd hle hfits
      · exact ⟨hnone, fun _ _ _ _ => Iff.rfl, fun _ _ _ _ _ => rfl, fun _ _ _ => rfl,
          fun _ _ => rfl⟩

/-! ### A range that is missed -/

/-- The state after the `copy_page_tables` of the first `fork`, which makes task 1. -/
def firstFork : Kernel :=
  (⟨sixteenMegabytes.boot fun _ _ => 0, 0⟩ : Kernel).call (.copyPageTables 0 1 0xA0000)

theorem firstFork_reached : Reached sixteenMegabytes (fun _ _ => 0) Call.OnSlots firstFork :=
  Reached.call _ Reached.boot ⟨by omega, by omega, by omega, by omega⟩ (fun _ => by omega)

theorem call_of_copied {k : Kernel} {a b size : ℕ} {r : ℤ}
    (h : copyPageTables (a * 0x4000000) (b * 0x4000000) size k.mm = .ok r s') :
    (k.call (.copyPageTables a b size)).mm = s' := by
  show after _ _ = s'
  rw [after, h]

/-- The pages below 640 kB are shared with the kernel, write-protected. -/
theorem firstFork_protected {j : ℕ} (hj : j < 0xA0) :
    present (firstFork.mm.pte (16, j)) ∧ ¬writable (firstFork.mm.pte (16, j)) := by
  obtain ⟨s', hrun, hcopy⟩ := first_copy
  have hmm : firstFork.mm = s' :=
    call_of_copied (k := ⟨sixteenMegabytes.boot fun _ _ => 0, 0⟩) hrun
  rw [hmm]
  obtain ⟨hpres, -, he⟩ := hcopy.first j hj
  refine ⟨hpres, ?_⟩
  rw [he]
  exact not_writable_readOnly _

theorem verifyPages_none (start : ℕ) (s : Mm) : verifyPages start 0 s = .ok () s := rfl

/-- **A range that is missed.**  Task 1 asks for `INT_MAX` bytes from address 1 on: the sum is
`INT_MIN`, `verify_area` returns at once, and the page at 1 is present and read-only. -/
theorem huge_area_is_missed : ∃ s', verifyArea 1 1 INT_MAX firstFork.mm = .ok () s' ∧
      ¬AreaVerified 1 1 INT_MAX 0xA0000 firstFork.mm s' := by
  have hpos : 1 ≤ INT_MAX := by
    rw [INT_MAX]
    omega
  have hzero : verifyCount 1 INT_MAX = 0 := verifyCount_wraps le_rfl (by omega)
  refine ⟨firstFork.mm, ?_, ?_⟩
  · rw [verifyArea, hzero]
    exact verifyPages_none _ _
  · intro V
    exact V.writable 1 le_rfl (by omega) (by omega) (firstFork_protected (j := 0) (by omega))

/-- The one page below 4096 is verified in the same state. -/
theorem verify_area_covers_one :
      wp (verifyArea 1 0 (1 : ℕ)) (fun _ s' => AreaVerified 1 0 1 0xA0000 firstFork.mm s')
      (fun e _ => e = .oom) firstFork.mm := by
  have hmax : INT_MAX = 2147483647 := rfl
  have h := @verify_area_covers _ _ firstFork 1 0 1 0xA0000 firstFork_reached (by omega)
    (by omega) (by omega) (by omega) (by omega)
  rw [h]
  exact Or.inl (by omega)

end OldLinux.Process
