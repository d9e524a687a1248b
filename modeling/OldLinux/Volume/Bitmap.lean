import Mathlib.Data.List.Find
import Mathlib.Data.Nat.Bitwise
import OldLinux.Volume.Cache

/-!
# The bitmap of the zones

The bits of the zones lie in the buffers of `s_zmap`, 8192 in each.  `new_block` takes the first clear bit,
and then looks whether it belongs to a zone.
-/

namespace OldLinux.Volume

open Function Lib

variable {s t u : Kernel} {k : Key} {b : Buffer} {d : Words} {dev i j n m bh z : ℕ} {sb : SuperBlock}

/-! ### Bits of a block -/

theorem bit_set_bit (d : Words) (n m : ℕ) : bit (set_bit n d) m = (decide (m = n) || bit d m) := by
  rw [bit, bit, set_bit]
  by_cases hword : m / 16 = n / 16
  · rw [hword, update_self, Nat.testBit_or, Nat.testBit_two_pow]
    have hiff : n % 16 = m % 16 ↔ m = n := by omega
    rw [decide_eq_decide.2 hiff, Bool.or_comm]
  · have hne : m ≠ n := by
      rintro rfl
      exact hword rfl
    rw [update_of_ne hword, decide_eq_false hne, Bool.false_or]

theorem bit_clear_bit (d : Words) (n m : ℕ) : bit (clear_bit n d) m = (!decide (m = n) && bit d m) := by
  rw [bit, bit, clear_bit]
  by_cases hword : m / 16 = n / 16
  · have hlt : m % 16 < 16 := by omega
    have hiff : n % 16 = m % 16 ↔ m = n := by omega
    rw [hword, update_self, Nat.testBit_and, Nat.testBit_xor, Nat.testBit_two_pow,
      show (0xffff : ℕ) = 2 ^ 16 - 1 from rfl, Nat.testBit_two_pow_sub_one, decide_eq_true hlt,
      Bool.true_xor, decide_eq_decide.2 hiff, Bool.and_comm]
  · have hne : m ≠ n := by
      rintro rfl
      exact hword rfl
    rw [update_of_ne hword, decide_eq_false hne, Bool.not_false, Bool.true_and]

/-- The bits before the one that is found are set, and that one is clear if it is in the block. -/
structure FirstZero (d : Words) (j : ℕ) : Prop where
  le : j ≤ 8192
  set : ∀ i < j, bit d i = true
  clear : j < 8192 → bit d j = false

theorem find_zero_first (d : Words) : ∀ n long, long + n = 256 → (∀ i < 32 * long, bit d i = true) →
    FirstZero d (find_zero d n long) := by
  intro n
  induction n with
  | zero =>
    intro long hlong hset
    rw [find_zero]
    exact ⟨by omega, hset, fun h => by omega⟩
  | succ n ih =>
    intro long hlong hset
    rw [find_zero]
    cases hfound : first_zero_in d long with
    | none =>
      refine ih (long + 1) (by omega) fun i hi => ?_
      by_cases hlt : i < 32 * long
      · exact hset i hlt
      · rw [first_zero_in, List.find?_eq_none] at hfound
        have hi' := hfound (i - 32 * long) (List.mem_range.2 (by omega))
        rw [show 32 * long + (i - 32 * long) = i by omega] at hi'
        simpa using hi'
    | some i =>
      rw [first_zero_in, List.find?_range_eq_some] at hfound
      obtain ⟨hclear, hmem, hbefore⟩ := hfound
      have hi := List.mem_range.1 hmem
      refine ⟨by dsimp only; omega, fun i' hi' => ?_, fun _ => by simpa using hclear⟩
      by_cases hlt : i' < 32 * long
      · exact hset i' hlt
      · have hprev := hbefore (i' - 32 * long) (by dsimp only at hi'; omega)
        rw [show 32 * long + (i' - 32 * long) = i' by omega] at hprev
        simpa using hprev

theorem find_first_zero_spec (d : Words) : FirstZero d (find_first_zero d) :=
  find_zero_first d 256 0 rfl fun i hi => by omega

/-! ### The macros -/

/-- `lodsl`; there is nothing behind the 256 long words of the block. -/
def lodsl (d : Words) (long : ℕ) : Option ℕ :=
  if long < 256 then some (2 ^ 16 * (d (2 * long + 1) % 2 ^ 16) + d (2 * long) % 2 ^ 16) else none

def bsfl (w : ℕ) : Option ℕ := (List.range 32).find? fun i => w.testBit i

/-- The loop of the macro `find_first_zero`, with the long word that `%esi` points to and `%ecx`. -/
def scan (d : Words) : ℕ → ℕ → ℕ → Option ℕ
  | 0, _, _ => none
  | fuel + 1, esi, ecx => (lodsl d esi).bind fun eax =>
    match bsfl (2 ^ 32 - (eax + 1)) with
    | some edx => some (ecx + edx)
    | none => if ecx + 32 < 8192 then scan d fuel (esi + 1) (ecx + 32) else some (ecx + 32)

theorem bsfl_notl {long eax : ℕ} (h : lodsl d long = some eax) :
    bsfl (2 ^ 32 - (eax + 1)) = first_zero_in d long := by
  rw [lodsl] at h
  split_ifs at h
  cases h
  have hlo : d (2 * long) % 2 ^ 16 < 2 ^ 16 := Nat.mod_lt _ (Nat.two_pow_pos 16)
  have hhi : d (2 * long + 1) % 2 ^ 16 < 2 ^ 16 := Nat.mod_lt _ (Nat.two_pow_pos 16)
  refine List.find?_congr fun i hi => ?_
  rw [List.mem_range] at hi
  rw [Nat.testBit_two_pow_sub_succ (by omega), decide_eq_true hi, Bool.true_and,
    Nat.testBit_two_pow_mul_add _ hlo, bit]
  congr 1
  by_cases h : i < 16
  · rw [if_pos h, Nat.testBit_mod_two_pow, decide_eq_true h, Bool.true_and,
      show (32 * long + i) / 16 = 2 * long by omega, show (32 * long + i) % 16 = i by omega]
  · rw [if_neg h, Nat.testBit_mod_two_pow, decide_eq_true (by omega), Bool.true_and,
      show (32 * long + i) / 16 = 2 * long + 1 by omega, show (32 * long + i) % 16 = i - 16 by omega]

/-- The macro reads inside of the block and gives what `find_zero` finds. -/
theorem scan_eq (n long : ℕ) (hn : 0 < n) (h : long + n = 256) :
    scan d n long (32 * long) = some (find_zero d n long) := by
  induction n generalizing long with
  | zero => omega
  | succ n ih =>
    have hload : lodsl d long = some _ := if_pos (by omega)
    rw [scan, find_zero, hload, Option.bind_some, bsfl_notl hload]
    cases first_zero_in d long with
    | some i => rfl
    | none =>
      by_cases hlast : n = 0
      · subst hlast
        exact if_neg (by omega)
      · exact (if_pos (by omega)).trans (ih (long + 1) (by omega) (by omega))

/-- `btsl` and `setb`: the result is the bit as it was. -/
def set_bit_result (nr : ℕ) (d : Words) : Bool × Words := (bit d nr, set_bit nr d)

/-- `btrl` and `setnb`: the result says that the bit was clear. -/
def clear_bit_result (nr : ℕ) (d : Words) : Bool × Words := (!bit d nr, clear_bit nr d)

/-- **`find_first_zero` finds the lowest clear bit.**  `set_bit` and `clear_bit` change their bit only;
`clear_bit` after `set_bit` gives the block back exactly if the bit was clear, and it never says that the bit
was clear. -/
theorem bitmap_macros (d : Words) : (∃ r, scan d 256 0 0 = some r ∧ FirstZero d r) ∧ ∀ nr : ℕ,
    (set_bit_result nr d).1 = bit d nr ∧ (clear_bit_result nr d).1 = !bit d nr ∧
      (∀ m, bit (set_bit_result nr d).2 m = if m = nr then true else bit d m) ∧
      (∀ m, bit (clear_bit_result nr d).2 m = if m = nr then false else bit d m) ∧
      (clear_bit_result nr (set_bit_result nr d).2).1 = false ∧
      ((∀ m, bit (clear_bit_result nr (set_bit_result nr d).2).2 m = bit d m) ↔ bit d nr = false) := by
  refine ⟨⟨_, scan_eq 256 0 (by decide) rfl, find_first_zero_spec d⟩,
    fun nr => ⟨rfl, rfl, fun m => ?_, fun m => ?_, ?_,
    fun h => ?_, fun h m => ?_⟩⟩
  · show bit (set_bit nr d) m = _
    rw [bit_set_bit]
    split_ifs with hm
    · rw [decide_eq_true hm, Bool.true_or]
    · rw [decide_eq_false hm, Bool.false_or]
  · show bit (clear_bit nr d) m = _
    rw [bit_clear_bit]
    split_ifs with hm
    · rw [decide_eq_true hm, Bool.not_true, Bool.false_and]
    · rw [decide_eq_false hm, Bool.not_false, Bool.true_and]
  · show (!bit (set_bit nr d) nr) = false
    rw [bit_set_bit, decide_eq_true rfl, Bool.true_or, Bool.not_true]
  · have hnr := h nr
    rw [← hnr]
    show bit (clear_bit nr (set_bit nr d)) nr = false
    rw [bit_clear_bit, decide_eq_true rfl, Bool.not_true, Bool.false_and]
  · show bit (clear_bit nr (set_bit nr d)) m = bit d m
    rw [bit_clear_bit, bit_set_bit]
    by_cases hm : m = nr
    · rw [hm, h, decide_eq_true rfl, Bool.not_true, Bool.false_and]
    · rw [decide_eq_false hm, Bool.not_false, Bool.true_and, Bool.false_or]

/-- A block of ones does not come back. -/
theorem set_bit_not_restored : ¬∀ d nr, nr < 8192 →
    bit (clear_bit_result nr (set_bit_result nr d).2).2 nr = bit d nr ∧
      (clear_bit_result nr (set_bit_result nr d).2).1 = bit (set_bit_result nr d).2 nr := by
  intro hall
  exact absurd (hall (fun _ => 0xffff) 0 (by decide)).1 (by decide)

/-! ### The bits of a device -/

/-- A bit of the bitmap, if there is a buffer for it. -/
def Kernel.zbit (s : Kernel) (dev : ℕ) (sb : SuperBlock) (n : ℕ) : Option Bool :=
  (sb.zmap (n / 8192)).bind fun bh => (s.info (dev, bh)).map fun x => bit x.1 (n % 8192)

/-- A zone of the data area. -/
def SuperBlock.InZone (sb : SuperBlock) (z : ℕ) : Prop := sb.s_firstdatazone ≤ z ∧ z < sb.s_nzones

instance (sb : SuperBlock) (z : ℕ) : Decidable (sb.InZone z) := inferInstanceAs (Decidable (_ ∧ _))

/-- The buffer is one of the bitmap. -/
def SuperBlock.IsZmap (sb : SuperBlock) (dev : ℕ) (k : Key) : Prop := k.1 = dev ∧ ∃ i, sb.zmap i = some k.2

/-- The super block as `read_super` leaves it: it holds the buffers of its bitmap, each another one. -/
structure Mounted (s : Kernel) (dev : ℕ) (sb : SuperBlock) : Prop where
  super : s.get_super dev = some sb
  inj : ∀ i j bh, sb.zmap i = some bh → sb.zmap j = some bh → i = j
  held : ∀ i bh, sb.zmap i = some bh → 0 < s.count (dev, bh)
  read : ∀ i bh, sb.zmap i = some bh → ∃ d, s.info (dev, bh) = some (d, true)

theorem zmap_lt (h : sb.zmap i = some bh) : i < 8 := by
  rw [SuperBlock.zmap] at h
  split at h
  · assumption
  · cases h

theorem zbit_lt {x : Bool} (h : s.zbit dev sb n = some x) : n < 65536 := by
  obtain ⟨bh, hbh, -⟩ := Option.bind_eq_some_iff.1 h
  have hlt := zmap_lt hbh
  omega

theorem zbit_eq (hbh : sb.zmap (n / 8192) = some bh) (hd : s.info (dev, bh) = some (d, true)) :
    s.zbit dev sb n = some (bit d (n % 8192)) := by
  rw [Kernel.zbit, hbh, Option.bind_some, hd]
  rfl

theorem SuperBlock.bit_nr_inj {y : ℕ} (hz : sb.InZone z) (hy : sb.InZone y) (h : sb.bit_nr z = sb.bit_nr y) :
    z = y := by
  have h1 := hz.1
  have h2 := hy.1
  rw [SuperBlock.bit_nr, SuperBlock.bit_nr] at h
  omega

/-! ### What a call does -/

/-- The bits are these now.  Otherwise only the blocks that are touched show something else, and what is in
use and up to date is there still. -/
structure Effect (dev : ℕ) (sb : SuperBlock) (bits : ℕ → Option Bool) (touched : ℕ → Prop) (s t : Kernel) :
    Prop where
  super_block : t.super_block = s.super_block
  time : t.CURRENT_TIME = s.CURRENT_TIME
  bits : t.zbit dev sb = bits
  read : ∀ i bh, sb.zmap i = some bh → ∃ d, t.info (dev, bh) = some (d, true)
  view : ∀ k, ¬(k.1 = dev ∧ touched k.2) → ¬sb.IsZmap dev k → t.view k = s.view k
  info : ∀ k d, ¬(k.1 = dev ∧ touched k.2) → ¬sb.IsZmap dev k → 0 < s.count k →
    s.info k = some (d, true) → t.info k = some (d, true)
  coherent : Coherent t

section Effect

variable {bits bits' : ℕ → Option Bool} {touched touched' : ℕ → Prop}

theorem Effect.get_super (e : Effect dev sb bits touched s t) (dev' : ℕ) :
    t.get_super dev' = s.get_super dev' := by
  rw [Kernel.get_super, Kernel.get_super, e.super_block]

theorem Effect.of_still (M : Mounted s dev sb) (h : Still s t) :
    Effect dev sb (s.zbit dev sb) (fun _ => False) s t := by
  have hread : ∀ i bh d, sb.zmap i = some bh → s.info (dev, bh) = some (d, true) →
      t.info (dev, bh) = some (d, true) := fun i bh d hbh hd => h.info _ d (M.held i bh hbh) hd
  refine ⟨h.super_block, h.time, ?_, fun i bh hbh => ?_, fun k _ _ => by rw [h.view],
    fun k d _ _ hk hd => h.info k d hk hd, h.coherent⟩
  · funext n
    rw [Kernel.zbit, Kernel.zbit]
    cases hbh : sb.zmap (n / 8192) with
    | none => rfl
    | some bh =>
      obtain ⟨d, hd⟩ := M.read _ bh hbh
      rw [Option.bind_some, Option.bind_some, hd, hread _ bh d hbh hd]
  · obtain ⟨d, hd⟩ := M.read i bh hbh
    exact ⟨d, hread i bh d hbh hd⟩

theorem Effect.trans (e : Effect dev sb bits touched s t) (hcount : ∀ k, s.count k ≤ t.count k)
    (e' : Effect dev sb bits' touched' t u) :
    Effect dev sb bits' (fun z => touched z ∨ touched' z) s u where
  super_block := e'.super_block.trans e.super_block
  time := e'.time.trans e.time
  bits := e'.bits
  read := e'.read
  view := fun k hk hmap => (e'.view k (fun h => hk ⟨h.1, .inr h.2⟩) hmap).trans
    (e.view k (fun h => hk ⟨h.1, .inl h.2⟩) hmap)
  info := fun k d hk hmap hpos hd => e'.info k d (fun h => hk ⟨h.1, .inr h.2⟩) hmap
    (Nat.lt_of_lt_of_le hpos (hcount k)) (e.info k d (fun h => hk ⟨h.1, .inl h.2⟩) hmap hpos hd)
  coherent := e'.coherent

theorem Effect.mono (e : Effect dev sb bits touched s t) (h : ∀ z, touched z → touched' z) :
    Effect dev sb bits touched' s t :=
  { e with
    view := fun k hk hmap => e.view k (fun hk' => hk ⟨hk'.1, h _ hk'.2⟩) hmap
    info := fun k d hk hmap => e.info k d (fun hk' => hk ⟨hk'.1, h _ hk'.2⟩) hmap }

/-- The super block still has its buffers. -/
theorem Mounted.after (M : Mounted s dev sb) (e : Effect dev sb bits touched s t)
    (hcount : ∀ k, s.count k ≤ t.count k) : Mounted t dev sb :=
  ⟨(e.get_super dev).trans M.super, M.inj, fun i bh hbh => Nat.lt_of_lt_of_le (M.held i bh hbh) (hcount _),
    e.read⟩

/-- A buffer of the bitmap is written to. -/
theorem Effect.write (M : Mounted s dev sb) (C : Coherent s) (hbh : sb.zmap i = some bh)
    (hb : s.buffer (dev, bh) = some b) (d : Words) :
    Effect dev sb (fun m => if m / 8192 = i then some (bit d (m % 8192)) else s.zbit dev sb m)
      (fun _ => False) s (s.set_buffer (dev, bh) { b with b_data := d, b_dirt := true }) := by
  obtain ⟨old, hold⟩ := M.read i bh hbh
  have hup : b.b_uptodate = true := by
    rw [info_of_buffer hb] at hold
    exact (Prod.mk.inj (Option.some.inj hold)).2
  have hother : ∀ i' bh', sb.zmap i' = some bh' → i' ≠ i → (dev, bh') ≠ (dev, bh) := by
    intro i' bh' hbh' hne heq
    rw [(Prod.mk.inj heq).2] at hbh'
    exact hne (M.inj i' i bh hbh' hbh)
  refine ⟨rfl, rfl, ?_, fun i' bh' hbh' => ?_, fun k _ hmap => ?_, fun k d' _ hmap _ hd => ?_,
    C.set_buffer (fun _ h => (by cases h)) fun _ => hup⟩
  · funext m
    by_cases hm : m / 8192 = i
    · rw [if_pos hm, zbit_eq (hm ▸ hbh)]
      rw [set_buffer_info_self, hup]
    · rw [if_neg hm, Kernel.zbit, Kernel.zbit]
      cases hbh' : sb.zmap (m / 8192) with
      | none => rfl
      | some bh' => rw [Option.bind_some, Option.bind_some, set_buffer_info _ _ (hother _ _ hbh' hm)]
  · by_cases hi : i' = i
    · have hsame : bh' = bh := by
        rw [hi, hbh] at hbh'
        exact (Option.some.inj hbh').symm
      exact ⟨d, by rw [hsame, set_buffer_info_self, hup]⟩
    · rw [set_buffer_info _ _ (hother _ _ hbh' hi)]
      exact M.read i' bh' hbh'
  · have hne : k ≠ (dev, bh) := by
      rintro rfl
      exact hmap ⟨rfl, i, hbh⟩
    rw [set_buffer_view, update_of_ne hne]
  · have hne : k ≠ (dev, bh) := by
      rintro rfl
      exact hmap ⟨rfl, i, hbh⟩
    rw [set_buffer_info _ _ hne, hd]

end Effect

end OldLinux.Volume
