import OldLinux.Lib.Numerals

/-!
# Segment descriptors

The macros of `sched.h` that write and read the base and the limit of a descriptor.  Both are scattered over its
eight bytes, and the macros rotate a register to get at the upper halves.
-/

namespace OldLinux.Asm.Segment

open Function

/-- The bytes of a descriptor. -/
abbrev Descriptor := ℕ → BitVec 8

/-! ### The macros -/

def dl (edx : BitVec 32) : BitVec 8 := edx.setWidth 8

def dh (edx : BitVec 32) : BitVec 8 := (edx >>> 8).setWidth 8

def set_dl (edx : BitVec 32) (b : BitVec 8) : BitVec 32 := edx >>> 8 <<< 8 ||| b.setWidth 32

def set_dh (edx : BitVec 32) (b : BitVec 8) : BitVec 32 :=
  edx >>> 16 <<< 16 ||| b.setWidth 32 <<< 8 ||| (dl edx).setWidth 32

def set_dx (edx : BitVec 32) (w : BitVec 16) : BitVec 32 := edx >>> 16 <<< 16 ||| w.setWidth 32

def word (d : Descriptor) (off : ℕ) : BitVec 16 := (d (off + 1)).setWidth 16 <<< 8 ||| (d off).setWidth 16

/-- `movw %dx` to memory. -/
def movw (edx : BitVec 32) (off : ℕ) (d : Descriptor) : Descriptor :=
  update (update d off (dl edx)) (off + 1) (dh edx)

def _set_base (base : BitVec 32) (d : Descriptor) : Descriptor :=
  let d := movw base 2 d
  let edx := base.rotateRight 16
  let d := update d 4 (dl edx)
  update d 7 (dh edx)

def _set_limit (limit : BitVec 32) (d : Descriptor) : Descriptor :=
  let d := movw limit 0 d
  let edx := limit.rotateRight 16
  let edx := set_dh edx (d 6)
  let edx := set_dh edx (dh edx &&& 0xf0)
  let edx := set_dl edx (dl edx ||| dh edx)
  update d 6 (dl edx)

def set_limit (limit : BitVec 32) (d : Descriptor) : Descriptor := _set_limit ((limit - 1) >>> 12) d

/-- `%edx` holds anything before. -/
def _get_base (edx : BitVec 32) (d : Descriptor) : BitVec 32 :=
  let edx := set_dh edx (d 7)
  let edx := set_dl edx (d 4)
  let edx := edx <<< 16
  set_dx edx (word d 2)

/-! ### What the processor sees -/

def limit20 (d : Descriptor) : BitVec 20 := ((d 6).setWidth 4).setWidth 20 <<< 16 ||| (word d 0).setWidth 20

/-- The type, the privilege level and the flags beside the limit. -/
def attributes (d : Descriptor) : BitVec 12 := (d 6 >>> 4).setWidth 12 <<< 8 ||| (d 5).setWidth 12

def granularity (d : Descriptor) : Bool := (attributes d).getLsbD 11

/-- Whether `lsl` at level 0 loads the limit for a selector with that privilege level: code and data segments
and the system segments that have a limit, and all but conforming code must not be more privileged. -/
def visible (rpl : ℕ) (d : Descriptor) : Bool :=
  let a := attributes d
  let type := (a.setWidth 4).toNat
  let allowed := decide (rpl ≤ ((a >>> 5).setWidth 2).toNat)
  if a.getLsbD 4 then (a.getLsbD 3 && a.getLsbD 2) || allowed else decide (type ∈ [1, 2, 3, 9, 11]) && allowed

def lsll (rpl : ℕ) (d : Descriptor) : Option (BitVec 32) :=
  if visible rpl d then some (if granularity d then (limit20 d).setWidth 32 <<< 12 ||| 0xfff
    else (limit20 d).setWidth 32)
  else none

def get_limit (rpl : ℕ) (d : Descriptor) : Option (BitVec 32) := (lsll rpl d).map (· + 1)

/-! ### Round trips -/

variable {d : Descriptor} {base limit : BitVec 32}

theorem dl_rotate (w : BitVec 32) : dl (w.rotateRight 16) = (w >>> 16).setWidth 8 := by
  ext i hi
  simp [dl]
  grind

theorem dh_rotate (w : BitVec 32) : dh (w.rotateRight 16) = (w >>> 24).setWidth 8 := by
  ext i hi
  simp [dh]
  grind

theorem dl_set_dl (edx : BitVec 32) (b : BitVec 8) : dl (set_dl edx b) = b := by
  ext i hi
  simp [dl, set_dl]

theorem dl_set_dh (edx : BitVec 32) (b : BitVec 8) : dl (set_dh edx b) = dl edx := by
  ext i hi
  simp [dl, set_dh]

theorem dh_set_dh (edx : BitVec 32) (b : BitVec 8) : dh (set_dh edx b) = b := by
  ext i hi
  simp [dh, set_dh]
  grind

/-- The bytes that `_set_base` stores. -/
theorem set_base_eq (base : BitVec 32) (d : Descriptor) : _set_base base d =
    update (update (update (update d 2 (dl base)) 3 (dh base)) 4 ((base >>> 16).setWidth 8)) 7
      ((base >>> 24).setWidth 8) := by
  rw [_set_base, movw, dl_rotate, dh_rotate]

theorem and_f0 : ∀ b : BitVec 8, b &&& (0xf0 : BitVec 8) = b >>> 4 <<< 4 := by decide

/-- The bytes that `_set_limit` stores. -/
theorem set_limit_eq (limit : BitVec 32) (d : Descriptor) : _set_limit limit d =
    update (update (update d 0 (dl limit)) 1 (dh limit)) 6 ((limit >>> 16).setWidth 8 ||| d 6 >>> 4 <<< 4) := by
  have hsix : movw limit 0 d 6 = d 6 := by simp [movw]
  simp only [_set_limit, hsix, dl_set_dl, dl_set_dh, dh_set_dh, dl_rotate]
  rw [and_f0]
  rfl

theorem get_set_base (edx base : BitVec 32) (d : Descriptor) : _get_base edx (_set_base base d) = base := by
  rw [set_base_eq, _get_base, word]
  ext i hi
  simp [set_dh, set_dl, set_dx, dl, dh]
  grind

theorem limit20_set_limit (limit : BitVec 32) (d : Descriptor) :
    limit20 (set_limit limit d) = ((limit - 1) >>> 12).setWidth 20 := by
  rw [set_limit, set_limit_eq, limit20, word]
  generalize limit - 1 = w
  have hzero : ∀ b c e : BitVec 8, update (update (update d 0 b) 1 c) 6 e 0 = b := fun _ _ _ => rfl
  have hone : ∀ b c e : BitVec 8, update (update (update d 0 b) 1 c) 6 e (0 + 1) = c := fun _ _ _ => rfl
  have hsix : ∀ b c e : BitVec 8, update (update (update d 0 b) 1 c) 6 e 6 = e := fun _ _ _ => rfl
  rw [hzero, hone, hsix, dl, dh]
  apply BitVec.eq_of_getLsbD_eq
  intro i hi
  simp only [BitVec.getLsbD_or, BitVec.getLsbD_shiftLeft, BitVec.getLsbD_ushiftRight, BitVec.getLsbD_setWidth]
  rcases Nat.lt_or_ge i 8 with h8 | h8
  · simp [show i < 20 by omega, show i < 16 by omega, h8]
  · rcases Nat.lt_or_ge i 16 with h16 | h16
    · simp [h16, show ¬i < 8 by omega, hi, show i - 8 < 8 by omega, show i - 8 < 16 by omega,
        show 12 + (8 + (i - 8)) = 12 + i by omega]
    · simp [show ¬i < 16 by omega, hi, show i - 16 < 4 by omega, show i - 16 < 20 by omega,
        show i - 16 < 8 by omega, show 12 + (16 + (i - 16)) = 12 + i by omega]

theorem attributes_set_limit (limit : BitVec 32) (d : Descriptor) :
    attributes (set_limit limit d) = attributes d := by
  rw [set_limit, set_limit_eq, attributes, attributes]
  generalize limit - 1 = w
  ext i hi
  simp
  grind

theorem set_base_frame (base : BitVec 32) (d : Descriptor) : limit20 (_set_base base d) = limit20 d ∧
    attributes (_set_base base d) = attributes d := by
  rw [set_base_eq]
  exact ⟨rfl, rfl⟩

theorem get_base_set_limit (edx limit : BitVec 32) (d : Descriptor) :
    _get_base edx (set_limit limit d) = _get_base edx d := by
  rw [set_limit, set_limit_eq]
  rfl

theorem set_comm (base limit : BitVec 32) (d : Descriptor) :
    _set_base base (set_limit limit d) = set_limit limit (_set_base base d) := by
  rw [set_limit, set_limit, set_limit_eq, set_limit_eq, set_base_eq, set_base_eq]
  funext i
  simp only [update_apply]
  grind

/-- The limit is the last byte of its last page, and one more is seen. -/
theorem get_limit_set_limit (rpl : ℕ) (hg : granularity d) (hlo : 1 ≤ limit.toNat)
    (hhi : limit.toNat ≤ 0xFFFFF000) :
    get_limit rpl (set_limit limit d) =
      if visible rpl d then some (BitVec.ofNat 32 ((limit.toNat + 4095) / 4096 * 4096)) else none := by
  have hattributes := attributes_set_limit limit d
  have hlsll : lsll rpl (set_limit limit d) =
      if visible rpl d then some ((((limit - 1) >>> 12).setWidth 20).setWidth 32 <<< 12 ||| 0xfff)
          else none := by
    rw [lsll, visible, granularity, hattributes, ← visible, ← granularity, hg, limit20_set_limit]
    rfl
  have hround : ((((limit - 1) >>> 12).setWidth 20).setWidth 32 <<< 12 ||| (0xfff : BitVec 32)) =
      BitVec.ofNat 32 ((limit.toNat - 1) / 4096 * 4096 + 4095) := by
    have hsub : (limit - 1).toNat = limit.toNat - 1 := by
      rw [BitVec.toNat_sub]
      simp
      omega
    have hq : (limit.toNat - 1) / 4096 * 4096 < 2 ^ 32 := by omega
    have hmod : (limit.toNat - 1) / 2 ^ 12 % 2 ^ 20 % 2 ^ 32 = (limit.toNat - 1) / 4096 := by omega
    have hor : (limit.toNat - 1) / 4096 * 4096 ||| 0xfff = (limit.toNat - 1) / 4096 * 4096 + 0xfff := by
      have h := Nat.shiftLeft_add_eq_or_of_lt (show 0xfff < 2 ^ 12 by decide) ((limit.toNat - 1) / 4096)
      rw [Nat.shiftLeft_eq] at h
      exact h.symm
    apply BitVec.eq_of_toNat_eq
    rw [BitVec.toNat_or, BitVec.toNat_shiftLeft, BitVec.toNat_setWidth, BitVec.toNat_setWidth,
      BitVec.toNat_ushiftRight,
      hsub, BitVec.toNat_ofNat, Nat.shiftRight_eq_div_pow, hmod, Nat.shiftLeft_eq, Nat.mod_eq_of_lt hq,
      show (0xfff : BitVec 32).toNat = 0xfff from rfl, hor]
    omega
  have hnext : (limit.toNat - 1) / 4096 * 4096 + 4095 + 1 = (limit.toNat + 4095) / 4096 * 4096 := by omega
  rw [get_limit, hlsll, hround]
  split
  · show some (BitVec.ofNat 32 ((limit.toNat - 1) / 4096 * 4096 + 4095) + BitVec.ofNat 32 1) = _
    rw [← BitVec.ofNat_add, hnext]
  · rfl

/-- **Base and limit of a descriptor do not touch each other**, and each comes back as it was set, the limit
rounded up to whole pages. -/
theorem descriptors_round_trip (edx base limit : BitVec 32) (rpl : ℕ) (d : Descriptor) (hg : granularity d)
    (hlo : 1 ≤ limit.toNat) (hhi : limit.toNat ≤ 0xFFFFF000) :
    _get_base edx (_set_base base d) = base ∧
    get_limit rpl (set_limit limit d) =
      (if visible rpl d then some (BitVec.ofNat 32 ((limit.toNat + 4095) / 4096 * 4096)) else none) ∧
    (limit20 (_set_base base d) = limit20 d ∧ attributes (_set_base base d) = attributes d) ∧
    (_get_base edx (set_limit limit d) = _get_base edx d ∧ attributes (set_limit limit d) = attributes d) ∧
    _set_base base (set_limit limit d) = set_limit limit (_set_base base d) :=
  ⟨get_set_base edx base d, get_limit_set_limit rpl hg hlo hhi, set_base_frame base d,
    ⟨get_base_set_limit edx limit d, attributes_set_limit limit d⟩, set_comm base limit d⟩

/-- The code segment of a process. -/
def user_code : Descriptor := fun i => [0x9f, 0, 0, 0, 0, 0xfa, 0xc0, 0].getD i 0

theorem descriptors_round_trip_code : get_limit 3 (set_limit 0x5001 user_code) = some 0x6000 :=
  (descriptors_round_trip 0 0 0x5001 3 user_code (by decide) (by decide) (by decide)).2.1

end OldLinux.Asm.Segment
