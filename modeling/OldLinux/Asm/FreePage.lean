import OldLinux.Lib.StringInstructions

/-!
# `get_free_page` in its instructions

The search of `mem_map` backwards, the arithmetic that makes an address of the counter, and the fill of
the page, as they are written in `mm/memory.cc`.
-/

namespace OldLinux.Asm

open Function Lib

def LOW_MEM : BitVec 32 := 0x100000
def PAGING_PAGES : BitVec 32 := 3840

/-- Where the kernel's `mem_map` is: below the memory that it describes. -/
structure Layout where
  mem_map : BitVec 32
  below : mem_map.toNat + 3840 ≤ 0x100000

variable {L : Layout} {c : Cpu} {k : ℕ}

/-- `mem_map[k]`. -/
def Layout.count (L : Layout) (c : Cpu) (k : ℕ) : BitVec 8 := c.mem (L.mem_map + BitVec.ofNat 32 k)

/-- From `movb $1,1(%edi)` to `leal 4092(%edx),%edi`. -/
def mark_page (c : Cpu) : Cpu :=
  let c := { c with mem := update c.mem (c.edi + 1) 1 }
  let c := { c with ecx := c.ecx <<< 12 }
  let c := { c with ecx := c.ecx + LOW_MEM }
  let c := { c with edx := c.ecx }
  let c := { c with ecx := 1024 }
  { c with edi := c.edx + 4092 }

/-- From `rep ; stosl` to `cld`. -/
def clear_page (c : Cpu) : Cpu :=
  let c := c.rep stosl
  let c := { c with eax := c.edx }
  c.cld

def get_free_page (L : Layout) (c : Cpu) : Cpu :=
  let c := { c with eax := 0, ecx := PAGING_PAGES, edi := L.mem_map + PAGING_PAGES - 1 }
  let c := c.std
  let c := c.repne scasb
  if c.zf = false then c else clear_page (mark_page c)

/-- The page with the number `k`. -/
def page (k : ℕ) : BitVec 32 := BitVec.ofNat 32 (0x100000 + 4096 * k)

/-- The state in which the search begins. -/
def searchStart (L : Layout) (c : Cpu) : Cpu :=
  { c with eax := 0, ecx := PAGING_PAGES, edi := L.mem_map + PAGING_PAGES - 1, df := true }

theorem get_free_page_eq (L : Layout) (c : Cpu) : get_free_page L c =
      if (repeatedNe scasb 3840 (searchStart L c)).zf = false then repeatedNe scasb 3840 (searchStart L c)
      else clear_page (mark_page (repeatedNe scasb 3840 (searchStart L c))) := by
  rw [← repne_eq (c := searchStart L c) (by rfl)]
  rfl

theorem searchStart_edi (L : Layout) (c : Cpu) :
    (searchStart L c).edi + 1 = L.mem_map + BitVec.ofNat 32 3840 := by
  show L.mem_map + PAGING_PAGES - 1 + 1 = _
  rw [BitVec.sub_add_cancel]
  rfl

/-- No page is free. -/
theorem get_free_page_none (h : ∀ k < 3840, L.count c k ≠ 0) :
    (get_free_page L c).eax = 0 ∧ (get_free_page L c).mem = c.mem ∧ (get_free_page L c).df = true := by
  obtain ⟨hsame, hzf⟩ := scan_none (c := searchStart L c) rfl (searchStart_edi L c) h
  rw [get_free_page_eq, if_pos (hzf (by decide))]
  exact ⟨hsame.eax, hsame.mem, hsame.df⟩

theorem toNat_page (hk : k < 3840) : (page k).toNat = 0x100000 + 4096 * k := by
  rw [page, BitVec.toNat_ofNat, Nat.mod_eq_of_lt (by omega)]

/-- The arithmetic on the counter. -/
theorem page_eq (hk : k < 3840) : BitVec.ofNat 32 k <<< 12 + LOW_MEM = page k := by
  have hlow : LOW_MEM.toNat = 0x100000 := rfl
  apply BitVec.eq_of_toNat_eq
  rw [toNat_page hk, BitVec.toNat_add, BitVec.toNat_shiftLeft, BitVec.toNat_ofNat, Nat.shiftLeft_eq, hlow]
  omega

theorem clear_page_spec (hk : k < 3840) (hecx : c.ecx = BitVec.ofNat 32 k) (hdf : c.df = true)
    (heax : c.eax = 0) :
    (clear_page (mark_page c)).eax = page k ∧ (clear_page (mark_page c)).df = false ∧
      (clear_page (mark_page c)).mem = fun a =>
        if (a - page k).toNat < 4096 then 0 else update c.mem (c.edi + 1) 1 a := by
  have hpage : (mark_page c).edx = page k := by
    show c.ecx <<< 12 + LOW_MEM = page k
    rw [hecx, page_eq hk]
  have hedi : (mark_page c).edi + 4 = page k + BitVec.ofNat 32 (4 * 1024) := by
    show (mark_page c).edx + 4092 + 4 = _
    rw [hpage, BitVec.add_assoc]
    rfl
  obtain ⟨hmem, hedx⟩ := fill_down (n := 1024) (c := mark_page c) (by decide) hdf heax hedi
  rw [clear_page, rep_eq (n := 1024) rfl]
  generalize repeated stosl 1024 (mark_page c) = c' at hmem hedx
  exact ⟨hedx.trans hpage, rfl, hmem⟩

/-- The last free page is `k`. -/
theorem get_free_page_some (hk : k < 3840) (hfree : L.count c k = 0)
    (hlast : ∀ j, k < j → j < 3840 → L.count c j ≠ 0) :
    (get_free_page L c).eax = page k ∧ (get_free_page L c).df = false ∧ (get_free_page L c).mem = fun a =>
        if (a - page k).toNat < 4096 then 0
        else update c.mem (L.mem_map + BitVec.ofNat 32 k) 1 a := by
  obtain ⟨hsame, hzf, hecx, hedi⟩ :=
    scan_some (c := searchStart L c) rfl rfl (searchStart_edi L c) hk hfree hlast
  obtain ⟨heax, hdf, hmem⟩ := clear_page_spec hk hecx hsame.df hsame.eax
  rw [hedi, hsame.mem] at hmem
  rw [get_free_page_eq, if_neg (by rw [hzf]; decide)]
  exact ⟨heax, hdf, hmem⟩

/-- **`get_free_page` allocates the highest free page**: it clears that page, counts it once and touches
nothing else; if no page is free, it returns 0 and changes nothing. -/
theorem highest_free_page (L : Layout) (c : Cpu) :
    ((∀ k < 3840, L.count c k ≠ 0) → (get_free_page L c).eax = 0 ∧ (get_free_page L c).mem = c.mem) ∧
    ∀ k < 3840, L.count c k = 0 → (∀ j, k < j → j < 3840 → L.count c j ≠ 0) →
      (get_free_page L c).eax.toNat = 0x100000 + 4096 * k ∧
      L.count (get_free_page L c) k = 1 ∧
      (∀ a, (a - page k).toNat < 4096 → (get_free_page L c).mem a = 0) ∧
      ∀ a, ¬(a - page k).toNat < 4096 → a ≠ L.mem_map + BitVec.ofNat 32 k →
      (get_free_page L c).mem a = c.mem a := by
  refine ⟨fun h => ⟨(get_free_page_none h).1, (get_free_page_none h).2.1⟩, fun k hk hfree hlast => ?_⟩
  obtain ⟨heax, -, hmem⟩ := get_free_page_some hk hfree hlast
  have houtside : ¬(L.mem_map + BitVec.ofNat 32 k - page k).toNat < 4096 := by
    have hbelow := L.below
    have hplace : (L.mem_map + BitVec.ofNat 32 k).toNat = L.mem_map.toNat + k := by
      rw [BitVec.toNat_add, BitVec.toNat_ofNat, Nat.mod_eq_of_lt (a := k) (by omega),
        Nat.mod_eq_of_lt (by omega)]
    rw [BitVec.toNat_sub, hplace, toNat_page hk, Nat.mod_eq_of_lt (by omega)]
    omega
  refine ⟨?_, ?_, fun a ha => ?_, fun a ha hne => ?_⟩
  · rw [heax, toNat_page hk]
  · rw [Layout.count, hmem]
    show (if _ then _ else _) = _
    rw [if_neg houtside, update_self]
  · rw [hmem]
    exact if_pos ha
  · rw [hmem]
    show (if _ then _ else _) = _
    rw [if_neg ha, update_of_ne hne]

end OldLinux.Asm
