import OldLinux.Lib.Numerals

/-!
# String instructions

The string instructions of the 80386: `scas`, `stos` and `movs`, which move their pointers up or down as
the direction flag says, and the prefixes that repeat them.  Addresses and registers have 32 bits.
-/

namespace OldLinux.Lib

/-- The registers of the string instructions, their flags, and the memory. -/
structure Cpu where
  eax : BitVec 32
  ecx : BitVec 32
  edx : BitVec 32
  esi : BitVec 32
  edi : BitVec 32
  df : Bool
  zf : Bool
  mem : BitVec 32 → BitVec 8

variable {c : Cpu} {n : ℕ} {a base : BitVec 32}

/-! ### Single instructions -/

def Cpu.std (c : Cpu) : Cpu := { c with df := true }

def Cpu.cld (c : Cpu) : Cpu := { c with df := false }

/-- How far a pointer goes for an element of that many bytes. -/
def Cpu.delta (c : Cpu) (bytes : BitVec 32) : BitVec 32 := if c.df then -bytes else bytes

/-- The lowest bytes of a word, at an address. -/
def store (mem : BitVec 32 → BitVec 8) (a : BitVec 32) (bytes : ℕ) (w : BitVec 32) :
    BitVec 32 → BitVec 8 := fun b =>
  if (b - a).toNat < bytes then (w >>> (8 * (b - a).toNat)).setWidth 8 else mem b

def scasb (c : Cpu) : Cpu :=
  { c with zf := c.eax.setWidth 8 == c.mem c.edi, edi := c.edi + c.delta 1 }

def stosw (c : Cpu) : Cpu :=
  { c with mem := store c.mem c.edi 2 c.eax, edi := c.edi + c.delta 2 }

def stosl (c : Cpu) : Cpu :=
  { c with mem := store c.mem c.edi 4 c.eax, edi := c.edi + c.delta 4 }

def movsb (c : Cpu) : Cpu :=
  { c with mem := Function.update c.mem c.edi (c.mem c.esi)
           esi := c.esi + c.delta 1
           edi := c.edi + c.delta 1 }

/-- Four bytes are read before they are written. -/
def movsl (c : Cpu) : Cpu :=
  { c with mem := fun b => if (b - c.edi).toNat < 4 then c.mem (c.esi + (b - c.edi)) else c.mem b
           esi := c.esi + c.delta 4
           edi := c.edi + c.delta 4 }

/-! ### Repetition -/

/-- `rep`, `n` times. -/
def repeated (op : Cpu → Cpu) : ℕ → Cpu → Cpu
  | 0, c => c
  | n + 1, c => repeated op n (op { c with ecx := c.ecx - 1 })

def Cpu.rep (c : Cpu) (op : Cpu → Cpu) : Cpu := repeated op c.ecx.toNat c

/-- `repne`, at most `n` times: it stops when `zf` is set. -/
def repeatedNe (op : Cpu → Cpu) : ℕ → Cpu → Cpu
  | 0, c => c
  | n + 1, c =>
    let c := op { c with ecx := c.ecx - 1 }
    if c.zf then c else repeatedNe op n c

def Cpu.repne (c : Cpu) (op : Cpu → Cpu) : Cpu := repeatedNe op c.ecx.toNat c

theorem rep_eq {op : Cpu → Cpu} (h : c.ecx.toNat = n) : c.rep op = repeated op n c := by
  rw [Cpu.rep, h]

theorem repne_eq {op : Cpu → Cpu} (h : c.ecx.toNat = n) : c.repne op = repeatedNe op n c := by
  rw [Cpu.repne, h]

/-! ### The direction flag -/

@[simp]
theorem movsb_df (c : Cpu) : (movsb c).df = c.df := rfl

theorem repeated_df {op : Cpu → Cpu} (hop : ∀ c, (op c).df = c.df) (n : ℕ) (c : Cpu) :
    (repeated op n c).df = c.df := by
  induction n generalizing c with
  | zero => rfl
  | succ n ih => rw [repeated, ih, hop]

/-! ### A search downwards -/

/-- What a search leaves apart from its result. -/
structure Searched (c c' : Cpu) : Prop where
  mem : c'.mem = c.mem
  eax : c'.eax = c.eax
  df : c'.df = c.df

theorem Searched.refl (c : Cpu) : Searched c c := ⟨rfl, rfl, rfl⟩

/-- The byte that the next `scasb` looks at. -/
theorem place_of_next {p : BitVec 32} (h : p + 1 = base + BitVec.ofNat 32 (n + 1)) :
    p = base + BitVec.ofNat 32 n := by
  rw [BitVec.ofNat_add, ← BitVec.add_assoc] at h
  exact (BitVec.add_left_inj 1#32).1 h

/-- One round of the search. -/
theorem scasb_down (hdf : c.df = true) (hedi : c.edi + 1 = base + BitVec.ofNat 32 (n + 1)) :
    Searched c (scasb { c with ecx := c.ecx - 1 }) ∧ (scasb { c with ecx := c.ecx - 1 }).zf =
        (c.eax.setWidth 8 == c.mem (base + BitVec.ofNat 32 n)) ∧
      (scasb { c with ecx := c.ecx - 1 }).edi + 1 = base + BitVec.ofNat 32 n := by
  have hplace := place_of_next hedi
  refine ⟨⟨rfl, rfl, rfl⟩, ?_, ?_⟩
  · rw [← hplace]
    rfl
  · show c.edi + (if c.df then -1 else 1) + 1 = _
    rw [hdf, if_pos rfl, BitVec.add_assoc, hplace]
    simp

/-- Nothing is found. -/
theorem scan_none (hdf : c.df = true) (hedi : c.edi + 1 = base + BitVec.ofNat 32 n)
    (hnone : ∀ k < n, c.mem (base + BitVec.ofNat 32 k) ≠ c.eax.setWidth 8) :
    Searched c (repeatedNe scasb n c) ∧ (0 < n → (repeatedNe scasb n c).zf = false) := by
  induction n generalizing c with
  | zero => exact ⟨Searched.refl c, fun h => absurd h (Nat.lt_irrefl 0)⟩
  | succ n ih =>
    obtain ⟨hsame, hzf, hedi'⟩ := scasb_down hdf hedi
    have hne : (scasb { c with ecx := c.ecx - 1 }).zf = false := by
      rw [hzf, beq_eq_false_iff_ne]
      exact (hnone n (Nat.lt_succ_self n)).symm
    rw [repeatedNe]
    simp only [hne]
    obtain ⟨hrest, hzero⟩ := ih (c := scasb { c with ecx := c.ecx - 1 }) hdf hedi'
      fun k hk => hnone k (Nat.lt_succ_of_lt hk)
    refine ⟨⟨hrest.mem, hrest.eax, hrest.df⟩, fun _ => ?_⟩
    cases n with
    | zero => exact hne
    | succ n => exact hzero (Nat.succ_pos n)

/-- **A search downwards finds the last byte.** -/
theorem scan_some {k : ℕ} (hdf : c.df = true) (hecx : c.ecx = BitVec.ofNat 32 n)
    (hedi : c.edi + 1 = base + BitVec.ofNat 32 n) (hk : k < n)
    (hfound : c.mem (base + BitVec.ofNat 32 k) = c.eax.setWidth 8)
    (hlast : ∀ j, k < j → j < n → c.mem (base + BitVec.ofNat 32 j) ≠ c.eax.setWidth 8) :
    Searched c (repeatedNe scasb n c) ∧ (repeatedNe scasb n c).zf = true ∧
      (repeatedNe scasb n c).ecx = BitVec.ofNat 32 k ∧
      (repeatedNe scasb n c).edi + 1 = base + BitVec.ofNat 32 k := by
  induction n generalizing c with
  | zero => exact absurd hk (Nat.not_lt_zero k)
  | succ n ih =>
    obtain ⟨hsame, hzf, hedi'⟩ := scasb_down hdf hedi
    have hecx' : c.ecx - 1 = BitVec.ofNat 32 n := by
      rw [hecx, BitVec.ofNat_add]
      exact BitVec.add_sub_cancel _ 1#32
    rw [repeatedNe]
    by_cases hkn : k = n
    · subst hkn
      have htrue : (scasb { c with ecx := c.ecx - 1 }).zf = true := by
        rw [hzf, hfound, beq_self_eq_true]
      simp only [htrue]
      exact ⟨hsame, htrue, hecx', hedi'⟩
    · have hne : (scasb { c with ecx := c.ecx - 1 }).zf = false := by
        rw [hzf, beq_eq_false_iff_ne]
        exact (hlast n (by omega) (Nat.lt_succ_self n)).symm
      simp only [hne]
      obtain ⟨hrest, h⟩ := ih (c := scasb { c with ecx := c.ecx - 1 }) hdf hecx' hedi' (by omega) hfound
        fun j hj hjn => hlast j hj (Nat.lt_succ_of_lt hjn)
      exact ⟨⟨hrest.mem, hrest.eax, hrest.df⟩, h⟩

/-! ### A fill downwards -/

theorem store_zero (mem : BitVec 32 → BitVec 8) (a b : BitVec 32) (bytes : ℕ) :
    store mem a bytes 0 b = if (b - a).toNat < bytes then 0 else mem b := by
  rw [store]
  split
  · simp
  · rfl

/-- **A fill downwards** clears the longs from `base` on. -/
theorem fill_down (hn : n < 2 ^ 29) (hdf : c.df = true) (heax : c.eax = 0)
    (hedi : c.edi + 4 = base + BitVec.ofNat 32 (4 * n)) :
    (repeated stosl n c).mem = (fun a => if (a - base).toNat < 4 * n then 0 else c.mem a) ∧
      (repeated stosl n c).edx = c.edx := by
  induction n generalizing c with
  | zero => exact ⟨by funext a; rw [if_neg (Nat.not_lt_zero _)]; rfl, rfl⟩
  | succ n ih =>
    have hplace : c.edi = base + BitVec.ofNat 32 (4 * n) := by
      rw [Nat.mul_succ, BitVec.ofNat_add, ← BitVec.add_assoc] at hedi
      exact (BitVec.add_left_inj 4#32).1 hedi
    have hedi' : (stosl { c with ecx := c.ecx - 1 }).edi + 4 = base + BitVec.ofNat 32 (4 * n) := by
      show c.edi + (if c.df then -4 else 4) + 4 = _
      rw [hdf, if_pos rfl, BitVec.add_assoc, hplace]
      simp
    obtain ⟨hmem, hedx⟩ := ih (c := stosl { c with ecx := c.ecx - 1 }) (by omega) hdf heax hedi'
    rw [repeated, hmem, hedx]
    refine ⟨?_, rfl⟩
    funext a
    show (if (a - base).toNat < 4 * n then 0 else store c.mem c.edi 4 c.eax a) = _
    rw [heax, store_zero, hplace]
    have hoff : (a - (base + BitVec.ofNat 32 (4 * n))).toNat < 4 ↔
        4 * n ≤ (a - base).toNat ∧ (a - base).toNat < 4 * (n + 1) := by
      bv_omega
    by_cases hlow : (a - base).toNat < 4 * n
    · rw [if_pos hlow, if_pos (by omega)]
    · rw [if_neg hlow]
      by_cases hin : (a - base).toNat < 4 * (n + 1)
      · rw [if_pos hin, if_pos (hoff.2 ⟨by omega, hin⟩)]
      · rw [if_neg hin, if_neg fun h => hin (hoff.1 h).2]

/-! ### Copies -/

section Copies

variable {b from_ : BitVec 32}

theorem offset_next (h : a ≠ b) (hn : n ≤ 2 ^ 32) :
    (a - (b + 1)).toNat < n ↔ (a - b).toNat < n + 1 := by bv_omega

theorem offset_last (hn : n < 2 ^ 32) : ¬(b - (b + 1)).toNat < n ∧ (b - b).toNat < n + 1 := by
  refine ⟨by bv_omega, ?_⟩
  rw [BitVec.sub_self]
  exact Nat.succ_pos n

theorem offset_end (h : a ≠ b + BitVec.ofNat 32 n) (hout : ¬(a - b).toNat < n) :
    ¬(a - b).toNat < n + 1 := by bv_omega

/-- What is read next lies above what has been written. -/
theorem read_above (hn : (from_ - b).toNat + (n + 1) ≤ 2 ^ 32) (ha : a ≠ b) (hin : (a - b).toNat < n + 1) :
    from_ + (a - b) ≠ b := by
  bv_omega

/-- What is read next lies below what has been written. -/
theorem read_below (hn : (b - from_).toNat + (n + 1) ≤ 2 ^ 32) (hin : (a - b).toNat < n) :
    from_ + (a - b) ≠ b + BitVec.ofNat 32 n := by
  bv_omega

/-- **A copy upwards** is right if no byte is read after it was written. -/
theorem copy_up (hdf : c.df = false) (hn : (c.esi - c.edi).toNat + n ≤ 2 ^ 32) :
    (repeated movsb n c).mem = fun a => if (a - c.edi).toNat < n then c.mem (c.esi + (a - c.edi))
    else c.mem a := by
  induction n generalizing c with
  | zero => funext a; rw [if_neg (Nat.not_lt_zero _)]; rfl
  | succ n ih =>
    have hesi : (movsb { c with ecx := c.ecx - 1 }).esi = c.esi + 1 := by simp [movsb, Cpu.delta, hdf]
    have hedi : (movsb { c with ecx := c.ecx - 1 }).edi = c.edi + 1 := by simp [movsb, Cpu.delta, hdf]
    have hdist : c.esi + 1 - (c.edi + 1) = c.esi - c.edi := by grind
    have hrest := ih (c := movsb { c with ecx := c.ecx - 1 }) hdf (by rw [hesi, hedi, hdist]; omega)
    rw [repeated, hrest, hesi, hedi]
    funext a
    show (if _ then Function.update c.mem _ _ _ else Function.update c.mem _ _ _) = _
    have hread : c.esi + 1 + (a - (c.edi + 1)) = c.esi + (a - c.edi) := by grind
    rw [hread, Function.update_apply, Function.update_apply]
    by_cases ha : a = c.edi
    · obtain ⟨hout, hin⟩ := offset_last (b := c.edi) (show n < 2 ^ 32 by omega)
      rw [ha, if_neg hout, if_pos rfl, if_pos hin, BitVec.sub_self, BitVec.add_zero]
    · by_cases hin : (a - c.edi).toNat < n + 1
      · rw [if_pos ((offset_next ha (by omega)).2 hin), if_neg (read_above hn ha hin), if_pos hin]
      · rw [if_neg fun h => hin ((offset_next ha (by omega)).1 h), if_neg ha, if_neg hin]

/-- **A copy downwards**, with the pointers at the last bytes. -/
theorem copy_down (hdf : c.df = true) (hn : (base - from_).toNat + n ≤ 2 ^ 32)
    (hesi : c.esi + 1 = from_ + BitVec.ofNat 32 n) (hedi : c.edi + 1 = base + BitVec.ofNat 32 n) :
    (repeated movsb n c).mem = fun a => if (a - base).toNat < n then c.mem (from_ + (a - base))
    else c.mem a := by
  induction n generalizing c with
  | zero => funext a; rw [if_neg (Nat.not_lt_zero _)]; rfl
  | succ n ih =>
    have hread := place_of_next hesi
    have hwrite := place_of_next hedi
    have hback : ∀ p : BitVec 32, p + c.delta 1 + 1 = p := fun p => by
      rw [Cpu.delta, if_pos hdf, BitVec.add_assoc]
      simp
    have hrest := ih (c := movsb { c with ecx := c.ecx - 1 }) hdf (by omega) ((hback c.esi).trans hread)
      ((hback c.edi).trans hwrite)
    rw [repeated, hrest]
    funext a
    show (if _ then Function.update c.mem _ _ _ else Function.update c.mem _ _ _) = _
    rw [Function.update_apply, Function.update_apply, hread, hwrite]
    by_cases ha : a = base + BitVec.ofNat 32 n
    · have hoff : a - base = BitVec.ofNat 32 n := by rw [ha, BitVec.add_comm, BitVec.add_sub_cancel]
      have hval : (a - base).toNat = n := by rw [hoff, BitVec.toNat_ofNat, Nat.mod_eq_of_lt (by omega)]
      rw [hval, if_neg (Nat.lt_irrefl n), if_pos ha, if_pos (Nat.lt_succ_self n), hoff]
    · by_cases hin : (a - base).toNat < n
      · rw [if_pos hin, if_neg (read_below hn hin), if_pos (Nat.lt_succ_of_lt hin)]
      · rw [if_neg hin, if_neg ha, if_neg (offset_end ha hin)]

end Copies

end OldLinux.Lib
