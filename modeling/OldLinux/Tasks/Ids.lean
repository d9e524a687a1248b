import OldLinux.Lib.Numerals
import Mathlib.Data.BitVec

/-!
# The ids of a process

`sys_setreuid`, `sys_setregid`, `sys_setuid` and `sys_setgid` on the six ids of a task.  The ids are
16-bit and the arguments 32-bit; they are compared as integers, and an assignment cuts the argument off.
-/

namespace OldLinux.Tasks

structure Ids where
  uid : BitVec 16
  euid : BitVec 16
  suid : BitVec 16
  gid : BitVec 16
  egid : BitVec 16
  sgid : BitVec 16
deriving DecidableEq

namespace Ids

/-- `suser()`. -/
def suser (x : Ids) : Prop := x.euid = 0

instance (x : Ids) : Decidable x.suser := inferInstanceAs (Decidable (x.euid = 0))

/-- An id is compared with an `int`. -/
def Same (a : BitVec 16) (n : BitVec 32) : Prop := (a.toNat : ℤ) = n.toInt

instance (a : BitVec 16) (n : BitVec 32) : Decidable (Same a n) :=
  inferInstanceAs (Decidable ((a.toNat : ℤ) = n.toInt))

def sysSetregid (rgid egid : BitVec 32) (x : Ids) : ℤ × Ids :=
  if 0 < rgid.toInt ∧ ¬(Same x.gid rgid ∨ x.suser) then (-1, x)
  else
    let x := if 0 < rgid.toInt then { x with gid := rgid.setWidth 16 } else x
    if 0 < egid.toInt then
      if Same x.gid egid ∨ Same x.egid egid ∨ Same x.sgid egid ∨ x.suser then
        (0, { x with egid := egid.setWidth 16 })
      else (-1, x)
    else (0, x)

def sysSetgid (gid : BitVec 32) (x : Ids) : ℤ × Ids := x.sysSetregid gid gid

def sysSetreuid (ruid euid : BitVec 32) (x : Ids) : ℤ × Ids :=
  let oldRuid := x.uid
  if 0 < ruid.toInt ∧ ¬(Same x.euid ruid ∨ Same oldRuid ruid ∨ x.suser) then (-1, x)
  else
    let x := if 0 < ruid.toInt then { x with uid := ruid.setWidth 16 } else x
    if 0 < euid.toInt then
      if Same oldRuid euid ∨ Same x.euid euid ∨ x.suser then
        (0, { x with euid := euid.setWidth 16 })
      else (-1, { x with uid := oldRuid })
    else (0, x)

def sysSetuid (uid : BitVec 32) (x : Ids) : ℤ × Ids := x.sysSetreuid uid uid

end Ids

inductive IdCall where
  | sysSetuid (uid : BitVec 32)
  | sysSetreuid (ruid euid : BitVec 32)
  | sysSetgid (gid : BitVec 32)
  | sysSetregid (rgid egid : BitVec 32)

def IdCall.run (x : Ids) : IdCall → ℤ × Ids
  | .sysSetuid uid => x.sysSetuid uid
  | .sysSetreuid ruid euid => x.sysSetreuid ruid euid
  | .sysSetgid gid => x.sysSetgid gid
  | .sysSetregid rgid egid => x.sysSetregid rgid egid

/-- The calls one after the other. -/
def IdCall.runs (x : Ids) (calls : List IdCall) : Ids := calls.foldl (fun x c => (c.run x).2) x

namespace Ids

variable {x y z : Ids} {a : BitVec 16} {n : BitVec 32}

/-- What is the same as an id is that id after it was cut off. -/
theorem setWidth_of_same (h : Same a n) : n.setWidth 16 = a := by
  have hlt := a.isLt
  have hnat : n.toNat = a.toNat := by
    rw [Same, BitVec.toInt_eq_toNat_cond] at h
    split at h
    · omega
    · omega
  apply BitVec.eq_of_toNat_eq
  rw [BitVec.toNat_setWidth, hnat, Nat.mod_eq_of_lt hlt]

/-- The ids of `y` are among those of `x`. -/
structure Within (x y : Ids) : Prop where
  uid : y.uid = x.uid ∨ y.uid = x.euid
  euid : y.euid = x.uid ∨ y.euid = x.euid
  gid : y.gid = x.gid ∨ y.gid = x.egid ∨ y.gid = x.sgid
  egid : y.egid = x.gid ∨ y.egid = x.egid ∨ y.egid = x.sgid
  sgid : y.sgid = x.sgid

theorem Within.refl (x : Ids) : Within x x :=
  ⟨Or.inl rfl, Or.inr rfl, Or.inl rfl, Or.inr (Or.inl rfl), rfl⟩

theorem Within.trans (hxy : Within x y) (hyz : Within y z) : Within x z := by
  refine ⟨?_, ?_, ?_, ?_, hyz.sgid.trans hxy.sgid⟩
  · rcases hyz.uid with h | h
    · exact h ▸ hxy.uid
    · exact h ▸ hxy.euid
  · rcases hyz.euid with h | h
    · exact h ▸ hxy.uid
    · exact h ▸ hxy.euid
  · rcases hyz.gid with h | h | h
    · exact h ▸ hxy.gid
    · exact h ▸ hxy.egid
    · exact Or.inr (Or.inr (h.trans hxy.sgid))
  · rcases hyz.egid with h | h | h
    · exact h ▸ hxy.gid
    · exact h ▸ hxy.egid
    · exact Or.inr (Or.inr (h.trans hxy.sgid))

/-- Neither id becomes 0. -/
theorem Within.not_zero (h : Within x y) (hu : x.uid ≠ 0) (he : x.euid ≠ 0) : y.uid ≠ 0 ∧ y.euid ≠ 0 := by
  refine ⟨?_, ?_⟩
  · rcases h.uid with h | h
    · exact h ▸ hu
    · exact h ▸ he
  · rcases h.euid with h | h
    · exact h ▸ hu
    · exact h ▸ he

/-- What a call of a process without privileges may do. -/
def Fine (x : Ids) (r : ℤ × Ids) : Prop := Within x r.2 ∧ (r.1 = -1 → r.2 = x)

theorem setregid_fine (h : ¬x.suser) (rgid egid : BitVec 32) : Fine x (x.sysSetregid rgid egid) := by
  rw [sysSetregid]
  split
  · exact ⟨Within.refl x, fun _ => rfl⟩
  · rename_i hgid
    -- the real group id is set to itself, or not at all
    have hsame : (if 0 < rgid.toInt then { x with gid := rgid.setWidth 16 } else x) = x := by
      split
      · rename_i hpos
        have hmatch : Same x.gid rgid := by
          by_contra hno
          exact hgid ⟨hpos, fun hor => hor.elim hno h⟩
        rw [setWidth_of_same hmatch]
      · rfl
    simp only [hsame]
    split
    · split
      · rename_i hor
        refine ⟨⟨Or.inl rfl, Or.inr rfl, Or.inl rfl, ?_, rfl⟩, fun h => (by cases h)⟩
        rcases hor with hmatch | hmatch | hmatch | hsuser
        · exact Or.inl (setWidth_of_same hmatch)
        · exact Or.inr (Or.inl (setWidth_of_same hmatch))
        · exact Or.inr (Or.inr (setWidth_of_same hmatch))
        · exact absurd hsuser h
      · exact ⟨Within.refl x, fun _ => rfl⟩
    · exact ⟨Within.refl x, fun h => (by cases h)⟩

theorem setreuid_fine (h : ¬x.suser) (ruid euid : BitVec 32) : Fine x (x.sysSetreuid ruid euid) := by
  rw [sysSetreuid]
  simp only
  split
  · exact ⟨Within.refl x, fun _ => rfl⟩
  · rename_i huid
    obtain ⟨u, hu, hset⟩ : ∃ u, (u = x.uid ∨ u = x.euid) ∧
        (if 0 < ruid.toInt then { x with uid := ruid.setWidth 16 } else x) = { x with uid := u } := by
      split
      · rename_i hpos
        refine ⟨_, ?_, rfl⟩
        by_contra hno
        refine huid ⟨hpos, ?_⟩
        rintro (hmatch | hmatch | hsuser)
        · exact hno (Or.inr (setWidth_of_same hmatch))
        · exact hno (Or.inl (setWidth_of_same hmatch))
        · exact h hsuser
      · exact ⟨x.uid, Or.inl rfl, rfl⟩
    simp only [hset]
    have hreal : Within x { x with uid := u } :=
      ⟨hu, Or.inr rfl, Or.inl rfl, Or.inr (Or.inl rfl), rfl⟩
    split
    · split
      · rename_i hor
        refine ⟨⟨hu, ?_, Or.inl rfl, Or.inr (Or.inl rfl), rfl⟩, fun h => (by cases h)⟩
        rcases hor with hmatch | hmatch | hsuser
        · exact Or.inl (setWidth_of_same hmatch)
        · exact Or.inr (setWidth_of_same hmatch)
        · exact absurd hsuser h
      · exact ⟨Within.refl x, fun _ => rfl⟩
    · exact ⟨hreal, fun h => (by cases h)⟩

end Ids

namespace IdCall

variable {x : Ids}

theorem run_fine (h : ¬x.suser) (c : IdCall) : Ids.Fine x (c.run x) := by
  cases c with
  | sysSetuid uid => exact Ids.setreuid_fine h uid uid
  | sysSetreuid ruid euid => exact Ids.setreuid_fine h ruid euid
  | sysSetgid gid => exact Ids.setregid_fine h gid gid
  | sysSetregid rgid egid => exact Ids.setregid_fine h rgid egid

theorem runs_within (calls : List IdCall) : ∀ x :
    Ids, x.uid ≠ 0 → x.euid ≠ 0 → Ids.Within x (runs x calls) := by
  induction calls with
  | nil => exact fun x _ _ => Ids.Within.refl x
  | cons c calls ih =>
    intro x hu he
    have hstep := (run_fine he c).1
    obtain ⟨hu', he'⟩ := hstep.not_zero hu he
    exact hstep.trans (ih (c.run x).2 hu' he')

/-- **No identity is gained.**  A process with `uid` and `euid` other than 0 has, after any calls, only
user ids among its two and only group ids among its three, it is not the super user, and a call that
returns `-EPERM` changes nothing. -/
theorem no_identity_gained (hu : x.uid ≠ 0) (he : x.euid ≠ 0) (calls : List IdCall) :
    ((runs x calls).uid = x.uid ∨ (runs x calls).uid = x.euid) ∧
    ((runs x calls).euid = x.uid ∨ (runs x calls).euid = x.euid) ∧
    ((runs x calls).gid = x.gid ∨ (runs x calls).gid = x.egid ∨ (runs x calls).gid = x.sgid) ∧
    ((runs x calls).egid = x.gid ∨ (runs x calls).egid = x.egid ∨ (runs x calls).egid = x.sgid) ∧
    (runs x calls).uid ≠ 0 ∧ (runs x calls).euid ≠ 0 ∧
    ∀ c : IdCall, (c.run (runs x calls)).1 = -1 → (c.run (runs x calls)).2 = runs x calls := by
  have hwithin := runs_within calls x hu he
  obtain ⟨hu', he'⟩ := hwithin.not_zero hu he
  exact ⟨hwithin.uid, hwithin.euid, hwithin.gid, hwithin.egid, hu', he', fun c => (run_fine he' c).2⟩

/-- A process with real id 5 and effective id 7 exchanges them. -/
theorem no_identity_gained_exchanged : (runs ⟨5, 7, 7, 5, 5, 5⟩ [.sysSetreuid 7 5, .sysSetuid 0]).uid ≠ 0 ∧
    (runs ⟨5, 7, 7, 5, 5, 5⟩ [.sysSetreuid 7 5, .sysSetuid 0]).euid = 5 := by
  have h := no_identity_gained (x := ⟨5, 7, 7, 5, 5, 5⟩) (by decide) (by decide)
    [.sysSetreuid 7 5, .sysSetuid 0]
  exact ⟨h.2.2.2.2.1, by decide⟩

end IdCall

end OldLinux.Tasks
