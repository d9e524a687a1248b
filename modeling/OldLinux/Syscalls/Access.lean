import Mathlib.Data.Nat.Bitwise
import OldLinux.Syscalls.Namei

/-!
# `access` and the permission check

`permission` takes the bits of the owner, of the group or of the others; `sys_access` writes the same rule
out again, but shifts the bits of the owner into place for the group as well.
-/

namespace OldLinux.Syscalls

open Function Lib

variable {v : View} {s s₁ s' : Store} {i : Fin 32} {path : List Char} {mode : ℕ} {r : ℤ} {t : Inode}

/-! ### The bits -/

/-- Three of the nine bits. -/
theorem shift_nine (m k : ℕ) (hk : k ≤ 6) : (m &&& 0o777) >>> k &&& 7 = m >>> k &&& 7 := by
  refine Nat.eq_of_testBit_eq fun n => ?_
  rw [show (0o777 : ℕ) = 2 ^ 9 - 1 from rfl, show (7 : ℕ) = 2 ^ 3 - 1 from rfl]
  simp only [Nat.testBit_and, Nat.testBit_shiftRight, Nat.testBit_two_pow_sub_one]
  by_cases hn : n < 3
  · have h9 : k + n < 9 := by omega
    simp [h9]
  · simp [hn]

/-- The bits `m` grant what is asked for. -/
def grants (m mode : ℕ) : Prop := m &&& 7 &&& (mode &&& 7) = mode &&& 7

instance (m mode : ℕ) : Decidable (grants m mode) := inferInstanceAs (Decidable (_ = _))

/-- The bits that `permission` looks at, for the effective ids. -/
def classBits (c : Cred) (t : Inode) : ℕ :=
  if c.euid = t.uid then t.mode >>> 6 else if c.egid = t.gid then t.mode >>> 3 else t.mode

theorem permission_grants (hroot : v.cred.euid ≠ 0) (hlinks : t.nlinks ≠ 0) :
    permission v t (mode &&& 7) = true ↔ grants (classBits v.cred t) mode := by
  have hzero : (v.cred.euid == 0) = false := beq_false_of_ne hroot
  rw [permission, if_neg fun h => hlinks h.2, hzero, Bool.or_false, beq_iff_eq, grants, classBits,
    Nat.and_assoc, Nat.and_comm (mode &&& 7) 7, ← Nat.and_assoc]

/-- The bits that `sys_access` looks at, for the real ids. -/
def accessBits (c : Cred) (t : Inode) : ℕ :=
  if c.uid = t.uid then t.mode >>> 6 else if c.gid = t.gid then t.mode >>> 6 else t.mode

/-! ### `sys_access` -/

/-- The owner and the group of an inode. -/
def SameOwner (i : Fin 32) (s s' : Store) : Prop :=
  (s'.inode i).uid = (s.inode i).uid ∧ (s'.inode i).gid = (s.inode i).gid

theorem SameOwner.setInode {t : Inode} (h : SameOwner i s s') (huid : t.uid = (s'.inode i).uid)
    (hgid : t.gid = (s'.inode i).gid) : SameOwner i s (s'.setInode i t) := by
  show (update s'.inode i t i).uid = _ ∧ (update s'.inode i t i).gid = _
  rw [update_self, huid, hgid]
  exact h

theorem SameOwner.down (h : SameOwner i s s') :
    wp (down i) (fun _ s' => SameOwner i s s') (fun _ _ => True) s' := h.setInode rfl rfl

theorem putRepeat_owner (hlinks : (s'.inode i).nlinks ≠ 0) (h : SameOwner i s s') :
    wp (putRepeat v i) (fun _ s' => SameOwner i s s') (fun _ _ => True) s' := by
  rw [putRepeat, wp_bind, wp_get]
  split_ifs
  · exact h.down
  · rw [wp_bind, writeInode, wp_bind, wp_get]
    split_ifs
    · exact h.down
    · split
      · trivial
      · rw [wp_bind, ask, wp_bind, wp_get, wp_bind, wp_modify, wp_pure]
        split_ifs
        · have hset := h.setInode (t := { s'.inode i with dirt := false }) rfl rfl
          exact SameOwner.down hset
        · trivial
  · exact h.down

/-- `iput` of an inode with links leaves its owner. -/
theorem iput_owner (hlinks : (s.inode i).nlinks ≠ 0) :
    wp (iput v i) (fun _ s' => SameOwner i s s') (fun _ _ => True) s := by
  have h : SameOwner i s s := ⟨rfl, rfl⟩
  rw [iput, wp_bind, wp_get]
  dsimp only
  split_ifs
  · trivial
  · exact h.setInode rfl rfl
  · exact h.down
  · exact h.down
  · rw [wp_bind, syncDev, wp_bind, wp_get]
    split_ifs
    · trivial
    · exact putRepeat_owner hlinks ⟨rfl, rfl⟩
  · exact putRepeat_owner hlinks h

/-- What `sys_access` returns for an inode with links and someone who is not the super user. -/
theorem wp_sysAccess (hnamei : namei v path s = .ok (some i) s₁) (hlinks : (s₁.inode i).nlinks ≠ 0)
    (huid : v.cred.uid ≠ 0) : wp (sysAccess v path mode)
      (fun r _ => r = 0 ↔ grants (accessBits v.cred (s₁.inode i)) mode) (fun _ _ => True) s := by
  rw [sysAccess, wp_bind, wp_of_ok hnamei]
  dsimp only
  rw [wp_bind, wp_get, wp_bind]
  refine wp_mono (iput_owner hlinks) ?_ fun _ _ h => h
  rintro _ s₂ ⟨huid₂, hgid₂⟩
  have hbits : (if v.cred.uid = (s₁.inode i).uid then ((s₁.inode i).mode &&& 0o777) >>> 6
      else if v.cred.gid = (s₁.inode i).gid then ((s₁.inode i).mode &&& 0o777) >>> 6
      else (s₁.inode i).mode &&& 0o777) &&& 7 = accessBits v.cred (s₁.inode i) &&& 7 := by
    rw [accessBits]
    split_ifs
    · exact shift_nine _ 6 (Nat.le_refl 6)
    · exact shift_nine _ 6 (Nat.le_refl 6)
    · exact shift_nine _ 0 (Nat.zero_le 6)
  rw [wp_bind, wp_get, huid₂, hgid₂, hbits]
  split_ifs with hgrants hroot
  · exact ⟨fun _ => hgrants, fun _ => rfl⟩
  · exact absurd hroot.1 huid
  · exact ⟨fun h => (by cases h), fun h => absurd h hgrants⟩

/-- The caller is the owner, or not in the group, or what the owner and the group may do with the file is
the same as far as this call asks for it. -/
def AccessAgrees (c : Cred) (t : Inode) (mode : ℕ) : Prop :=
  c.uid = t.uid ∨ c.gid ≠ t.gid ∨ (grants (t.mode >>> 6) mode ↔ grants (t.mode >>> 3) mode)

/-- **`access` agrees with `permission`** for the owner, for the others, and for the group where the owner
and the group are granted the same; nowhere else. -/
theorem access_agrees (hnamei : namei v path s = .ok (some i) s₁) (hlinks : (s₁.inode i).nlinks ≠ 0)
    (huid : v.cred.uid = v.cred.euid) (hgid : v.cred.gid = v.cred.egid) (hroot : v.cred.uid ≠ 0)
    (hcall : sysAccess v path mode s = .ok r s') :
    (r = 0 ↔ permission v (s₁.inode i) (mode &&& 7) = true) ↔ AccessAgrees v.cred (s₁.inode i) mode := by
  have hr : r = 0 ↔ grants (accessBits v.cred (s₁.inode i)) mode :=
    wp_ok (Q := fun r _ => r = 0 ↔ _) (wp_sysAccess hnamei hlinks hroot) hcall
  rw [hr, permission_grants (huid ▸ hroot) hlinks, accessBits, classBits, ← huid, ← hgid, AccessAgrees]
  by_cases howner : v.cred.uid = (s₁.inode i).uid
  · rw [if_pos howner, if_pos howner]
    exact ⟨fun _ => .inl howner, fun _ => Iff.rfl⟩
  · rw [if_neg howner, if_neg howner]
    by_cases hgroup : v.cred.gid = (s₁.inode i).gid
    · rw [if_pos hgroup, if_pos hgroup]
      refine ⟨fun h => .inr (.inr h), fun h => ?_⟩
      rcases h with h | h | h
      · exact absurd h howner
      · exact absurd hgroup h
      · exact h
    · rw [if_neg hgroup, if_neg hgroup]
      exact ⟨fun _ => .inr (.inl hgroup), fun _ => Iff.rfl⟩

/-- A member of the group 1 and not of the owner 2, with the root directory in the table. -/
def memberView : View where
  cred := ⟨1, 1, 1, 1, 0, false, none⟩
  pwd := some 0
  root := some 0
  super _ := ⟨1, some 0, none⟩
  answers _ := ⟨none, ⟨0, 0, 0, 0, 0⟩, none, true, false, none, false⟩
  names := .user

def memberStore : Store where
  inode _ := ⟨0o40710, 2, 1, 2, 1, 1, 1, 1, false, false, false⟩
  last := 0
  asked := 0

/-- Searching is what the owner and the group may do. -/
theorem access_agrees_search : ∃ s₁ s' r, namei memberView ['/'] memberStore = .ok (some 0) s₁ ∧
    sysAccess memberView ['/'] 1 memberStore = .ok r s' ∧
    (r = 0 ↔ permission memberView (s₁.inode 0) (1 &&& 7) = true) := by
  obtain ⟨s₁, s', r, hnamei, hcall, hlinks, hagrees⟩ : ∃ s₁ s' r,
      namei memberView ['/'] memberStore = .ok (some 0) s₁ ∧
      sysAccess memberView ['/'] 1 memberStore = .ok r s' ∧ (s₁.inode 0).nlinks ≠ 0 ∧
      (grants ((s₁.inode 0).mode >>> 6) 1 ∧ grants ((s₁.inode 0).mode >>> 3) 1) :=
    ⟨_, _, _, rfl, rfl, by decide, by decide⟩
  refine ⟨s₁, s', r, hnamei, hcall, ?_⟩
  exact (access_agrees hnamei hlinks rfl rfl (by decide) hcall).2
    (.inr (.inr ⟨fun _ => hagrees.2, fun _ => hagrees.1⟩))

/-- Reading is what only the owner may do, and `sys_access` allows it to the group. -/
theorem access_reads_for_owner : ∃ s₁ s', namei memberView ['/'] memberStore = .ok (some 0) s₁ ∧
    (s₁.inode 0).nlinks ≠ 0 ∧ memberView.cred.uid = memberView.cred.euid ∧
    memberView.cred.gid = memberView.cred.egid ∧ memberView.cred.uid ≠ 0 ∧
    sysAccess memberView ['/'] 4 memberStore = .ok 0 s' ∧
    permission memberView (s₁.inode 0) 4 = false :=
  ⟨_, _, rfl, by decide, rfl, rfl, by decide, rfl, rfl⟩

end OldLinux.Syscalls
