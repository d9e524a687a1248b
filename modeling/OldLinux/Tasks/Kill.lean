import OldLinux.Lib.Numerals
import Mathlib.Data.BitVec

/-!
# `kill`

`send_sig` and `sys_kill` on a task table: which tasks get the signal, and what is returned.  Each loop runs
`p` from the end of the table down to the slot above task 0.  The fields of the caller that are read do not
change in the call.
-/

namespace OldLinux.Tasks.Kill

open Function

structure Task where
  pid : BitVec 32
  pgrp : BitVec 32
  euid : BitVec 16
  /-- the pending signals -/
  signal : BitVec 32
deriving DecidableEq

abbrev Table := Fin 64 → Option Task

def EPERM : ℤ := 1

def EINVAL : ℤ := 22

/-- `p->signal |= (1<<(sig-1))`. -/
def Task.add (t : Task) (sig : ℤ) : Task := { t with signal := t.signal ||| 1#32 <<< (sig - 1).toNat }

/-- `suser()`. -/
def Task.suser (current : Task) : Prop := current.euid = 0

instance (current : Task) : Decidable current.suser := inferInstanceAs (Decidable (current.euid = 0))

/-- `send_sig(sig, *p, priv)`: the error and the table. -/
def send_sig (current : Task) (sig : ℤ) (p : Fin 64) (priv : Bool) (σ : Table) : ℤ × Table :=
  match σ p with
  | none => (-EINVAL, σ)
  | some t =>
    if sig < 1 ∨ 32 < sig then (-EINVAL, σ)
    else if priv ∨ current.euid = t.euid ∨ current.suser then (0, update σ p (some (t.add sig)))
    else (-EPERM, σ)

/-- The slots `p` goes through: 63 down to 1. -/
def slots : List (Fin 64) := (List.finRange 64).reverse.dropLast

/-- `while (--p > &FIRST_TASK) if (test(*p)) if ((err = send_sig(sig,*p,priv))) retval = err;` -/
def scan (current : Task) (sig : ℤ) (priv : Bool) (test : Option Task → Bool) :
    List (Fin 64) → ℤ × Table → ℤ × Table
  | [], (retval, σ) => (retval, σ)
  | p :: rest, (retval, σ) =>
    if test (σ p) then
      let (err, τ) := send_sig current sig p priv σ
      scan current sig priv test rest (if err ≠ 0 then err else retval, τ)
    else scan current sig priv test rest (retval, σ)

def sys_kill (current : Task) (pid : BitVec 32) (sig : ℤ) (σ : Table) : ℤ × Table :=
  if pid = 0 then
    -- the group is compared with the pid of the caller
    scan current sig true (fun p => p.any fun t => t.pgrp = current.pid) slots (0, σ)
  else if 0 < pid.toInt then
    scan current sig false (fun p => p.any fun t => t.pid = pid) slots (0, σ)
  else if pid = -1 then
    -- an empty slot is not skipped
    scan current sig false (fun _ => true) slots (0, σ)
  else
    scan current sig false (fun p => p.any fun t => t.pgrp = -pid) slots (0, σ)

/-! ### What the call is for -/

/-- The caller may signal `t`. -/
def May (current t : Task) : Prop := current.euid = t.euid ∨ current.suser

instance (current t : Task) : Decidable (May current t) :=
  inferInstanceAs (Decidable (current.euid = t.euid ∨ current.suser))

/-- `pid` stands for `t`. -/
def Addressed (current : Task) (pid : BitVec 32) (t : Task) : Prop :=
  if pid = 0 then t.pgrp = current.pgrp
  else if 0 < pid.toInt then t.pid = pid
  else if pid = -1 then True
  else t.pgrp = -pid

instance (current : Task) (pid : BitVec 32) (t : Task) : Decidable (Addressed current pid t) := by
  unfold Addressed
  infer_instance

/-- The tasks the signal is for: in the group of the caller no permission is needed. -/
def Target (current : Task) (pid : BitVec 32) (t : Task) : Prop :=
  Addressed current pid t ∧ (pid = 0 ∨ May current t)

instance (current : Task) (pid : BitVec 32) (t : Task) : Decidable (Target current pid t) :=
  inferInstanceAs (Decidable (_ ∧ _))

/-- Exactly the targets get the signal, and the value is 0 when none of those `pid` stands for is refused. -/
structure Reaches (current : Task) (pid : BitVec 32) (sig : ℤ) (σ : Table) (r : ℤ × Table) : Prop where
  tasks : ∀ i, r.2 i = (σ i).map fun t => if i ≠ 0 ∧ Target current pid t then t.add sig else t
  value : (∀ i t, i ≠ 0 → σ i = some t → Addressed current pid t → Target current pid t) → r.1 = 0

/-! ### The loop -/

variable {current t : Task} {pid : BitVec 32} {sig : ℤ} {priv : Bool} {test : Option Task → Bool}
  {p i : Fin 64} {σ : Table} {retval : ℤ}

theorem mem_slots : i ∈ slots ↔ i ≠ 0 := by
  revert i
  decide

theorem slots_nodup : slots.Nodup := by decide

/-- The task in a slot after the slot has been handled. -/
def after (current : Task) (sig : ℤ) (priv : Bool) (test : Option Task → Bool) (o : Option Task) :
    Option Task :=
  o.map fun t => if test (some t) ∧ (priv ∨ May current t) then t.add sig else t

/-- The slot gives no error. -/
def Fine (current : Task) (priv : Bool) (test : Option Task → Bool) (o : Option Task) : Prop :=
  test o = true → ∃ t, o = some t ∧ (priv ∨ May current t)

theorem send_sig_none (h : σ p = none) : send_sig current sig p priv σ = (-EINVAL, σ) := by
  rw [send_sig, h]

theorem send_sig_some (hsig : 1 ≤ sig ∧ sig ≤ 32) (h : σ p = some t) : send_sig current sig p priv σ =
      if priv ∨ May current t then (0, update σ p (some (t.add sig))) else (-EPERM, σ) := by
  rw [send_sig, h]
  exact if_neg (by omega)

theorem send_sig_table (hsig : 1 ≤ sig ∧ sig ≤ 32) (htest : test (σ p) = true) :
    (send_sig current sig p priv σ).2 = update σ p (after current sig priv test (σ p)) := by
  cases ht : σ p with
  | none =>
    rw [send_sig_none ht]
    exact (update_eq_self_iff.mpr ht.symm).symm
  | some t =>
    rw [ht] at htest
    rw [send_sig_some hsig ht, after, Option.map_some]
    by_cases hmay : priv = true ∨ May current t
    · rw [if_pos hmay, if_pos ⟨htest, hmay⟩]
    · rw [if_neg hmay, if_neg fun h => hmay h.2]
      exact (update_eq_self_iff.mpr ht.symm).symm

theorem send_sig_error (current : Task) (priv : Bool) (hsig : 1 ≤ sig ∧ sig ≤ 32) (htest : test (σ p) = true) :
    (send_sig current sig p priv σ).1 = 0 ↔ Fine current priv test (σ p) := by
  cases ht : σ p with
  | none =>
    rw [send_sig_none ht]
    constructor
    · intro h
      exact absurd h (show -EINVAL ≠ 0 by decide)
    · intro h
      obtain ⟨t, hnone, -⟩ := h (ht ▸ htest)
      cases hnone
  | some t =>
    rw [send_sig_some hsig ht]
    split
    · rename_i hmay
      exact ⟨fun _ _ => ⟨t, rfl, hmay⟩, fun _ => rfl⟩
    · rename_i hmay
      constructor
      · intro h
        exact absurd h (show -EPERM ≠ 0 by decide)
      · intro h
        obtain ⟨u, hu, hmay'⟩ := h (ht ▸ htest)
        cases hu
        exact absurd hmay' hmay

/-- A task is handled once, and the others are left alone. -/
theorem scan_table (hsig : 1 ≤ sig ∧ sig ≤ 32) :
      ∀ (rest : List (Fin 64)) (retval : ℤ) (σ : Table), rest.Nodup → ∀ i,
      (scan current sig priv test rest (retval, σ)).2 i =
        if i ∈ rest then after current sig priv test (σ i) else σ i := by
  intro rest
  induction rest with
  | nil =>
    intro retval σ _ i
    rw [if_neg (by simp)]
    rfl
  | cons p rest ih =>
    intro retval σ hnodup i
    obtain ⟨hp, hrest⟩ := List.nodup_cons.mp hnodup
    rw [scan]
    by_cases htest : test (σ p) = true
    · rw [if_pos htest]
      simp only
      rw [ih _ _ hrest, send_sig_table hsig htest]
      by_cases hi : i = p
      · subst hi
        rw [if_neg hp, if_pos (by simp), update_self]
      · rw [update_of_ne hi]
        simp only [List.mem_cons, hi, false_or]
    · rw [if_neg htest, ih _ _ hrest]
      by_cases hi : i = p
      · subst hi
        rw [if_neg hp, if_pos (by simp), after]
        cases ht : σ i with
        | none => rfl
        | some t =>
          rw [ht] at htest
          rw [Option.map_some, if_neg fun h => htest h.1]
      · simp only [List.mem_cons, hi, false_or]

/-- The last error stays, so the value tells whether there was one. -/
theorem scan_value (hsig : 1 ≤ sig ∧ sig ≤ 32) : ∀ (rest : List (Fin 64)) (retval : ℤ) (σ : Table), rest.Nodup →
      ((scan current sig priv test rest (retval, σ)).1 = 0 ↔
        retval = 0 ∧ ∀ i ∈ rest, Fine current priv test (σ i)) := by
  intro rest
  induction rest with
  | nil =>
    intro retval σ _
    exact ⟨fun h => ⟨h, fun i hi => absurd hi (by simp)⟩, fun h => h.1⟩
  | cons p rest ih =>
    intro retval σ hnodup
    obtain ⟨hp, hrest⟩ := List.nodup_cons.mp hnodup
    rw [scan, List.forall_mem_cons]
    by_cases htest : test (σ p) = true
    · rw [if_pos htest]
      simp only
      have herror := send_sig_error current priv hsig htest
      have hother : ∀ i ∈ rest, (send_sig current sig p priv σ).2 i = σ i := by
        intro i hi
        rw [send_sig_table hsig htest]
        exact update_of_ne (fun h : i = p => hp (h ▸ hi)) _ _
      rw [ih _ _ hrest, forall₂_congr fun i hi => by rw [hother i hi]]
      by_cases hzero : (send_sig current sig p priv σ).1 = 0
      · rw [if_neg (not_not.mpr hzero)]
        exact ⟨fun h => ⟨h.1, herror.mp hzero, h.2⟩, fun h => ⟨h.1, h.2.2⟩⟩
      · rw [if_pos hzero]
        exact ⟨fun h => absurd h.1 hzero, fun h => absurd (herror.mpr h.2.1) hzero⟩
    · rw [if_neg htest, ih _ _ hrest]
      exact ⟨fun h => ⟨h.1, fun ht => absurd ht htest, h.2⟩, fun h => ⟨h.1, h.2.2⟩⟩

/-- What one loop over the table does. -/
theorem scan_slots (current : Task) (priv : Bool) (test : Option Task → Bool) (σ : Table)
    (hsig : 1 ≤ sig ∧ sig ≤ 32) :
    (∀ i, (scan current sig priv test slots (0, σ)).2 i =
        (σ i).map fun t => if i ≠ 0 ∧ test (some t) ∧ (priv ∨ May current t) then t.add sig else t) ∧
      ((scan current sig priv test slots (0, σ)).1 = 0 ↔ ∀ i, i ≠ 0 → Fine current priv test (σ i)) := by
  constructor
  · intro i
    rw [scan_table hsig slots 0 σ slots_nodup i]
    by_cases hi : i = 0
    · rw [if_neg fun h => mem_slots.mp h hi]
      cases σ i with
      | none => rfl
      | some t => rw [Option.map_some, if_neg fun h => h.1 hi]
    · rw [if_pos (mem_slots.mpr hi), after]
      simp only [hi, ne_eq, not_false_eq_true, true_and]
  · rw [scan_value hsig slots 0 σ slots_nodup]
    simp only [mem_slots, true_and]

/-! ### When the call reaches its targets -/

theorem or_bit_eq_self (x : BitVec 32) {k : ℕ} (hk : k < 32) : x ||| 1#32 <<< k = x ↔ x.getLsbD k = true := by
  rw [← BitVec.twoPow_eq]
  constructor
  · intro h
    rw [← h, BitVec.getLsbD_or, BitVec.getLsbD_twoPow]
    simp [hk]
  · intro h
    apply BitVec.eq_of_getLsbD_eq
    intro j _
    rw [BitVec.getLsbD_or, BitVec.getLsbD_twoPow]
    by_cases hj : k = j
    · rw [← hj, h, Bool.true_or]
    · simp [hj]

/-- The signal was pending already. -/
theorem add_eq_self (hsig : 1 ≤ sig ∧ sig ≤ 32) : t.add sig = t ↔ t.signal.getLsbD (sig - 1).toNat = true := by
  rw [← or_bit_eq_self t.signal (show (sig - 1).toNat < 32 by omega)]
  exact ⟨fun h => congrArg Task.signal h, fun h => by rw [Task.add, h]⟩

theorem ite_add_eq {P Q : Prop} [Decidable P] [Decidable Q] (hsig : 1 ≤ sig ∧ sig ≤ 32) :
    ((if P then t.add sig else t) = if Q then t.add sig else t) ↔
      (P ↔ Q) ∨ t.signal.getLsbD (sig - 1).toNat = true := by
  rw [← add_eq_self hsig]
  by_cases hP : P
  · by_cases hQ : Q
    · simp [hP, hQ]
    · simp [hP, hQ]
  · by_cases hQ : Q
    · simp [hP, hQ, eq_comm]
    · simp [hP, hQ]

/-- The condition under which `sys_kill` reaches exactly its targets. -/
def Works (current : Task) (pid : BitVec 32) (sig : ℤ) (σ : Table) : Prop :=
  if pid = 0 then
    ∀ i t, i ≠ 0 → σ i = some t →
      (t.pgrp = current.pid ↔ t.pgrp = current.pgrp) ∨ t.signal.getLsbD (sig - 1).toNat = true
  else if pid = -1 then
    (∃ i t, i ≠ 0 ∧ σ i = some t ∧ ¬May current t) ∨ ∀ i, i ≠ 0 → σ i ≠ none
  else True

/-- The targets of a call with no test for the group of the caller, when the loop tests what `pid` stands
for. -/
theorem scan_tasks (hsig : 1 ≤ sig ∧ sig ≤ 32) (hpid : pid ≠ 0)
    (htest : ∀ t, test (some t) = true ↔ Addressed current pid t) (i : Fin 64) :
    (scan current sig false test slots (0, σ)).2 i =
      (σ i).map fun t => if i ≠ 0 ∧ Target current pid t then t.add sig else t := by
  rw [(scan_slots current false test σ hsig).1]
  simp only [Target, htest, hpid, false_or, Bool.false_eq_true]

/-- A loop that skips the empty slots reaches the tasks it tests. -/
theorem scan_reaches (hsig : 1 ≤ sig ∧ sig ≤ 32) (hpid : pid ≠ 0) (hnone : test none = false)
    (htest : ∀ t, test (some t) = true ↔ Addressed current pid t) :
    Reaches current pid sig σ (scan current sig false test slots (0, σ)) := by
  refine ⟨scan_tasks hsig hpid htest, ?_⟩
  intro hall
  rw [(scan_slots current false test σ hsig).2]
  intro i hi ht
  cases hσ : σ i with
  | none =>
    rw [hσ, hnone] at ht
    cases ht
  | some t =>
    rw [hσ] at ht
    have hmay := (hall i t hi hσ ((htest t).mp ht)).2
    exact ⟨t, rfl, Or.inr (hmay.resolve_left hpid)⟩

theorem kill_group (hsig : 1 ≤ sig ∧ sig ≤ 32) :
    Reaches current 0 sig σ (sys_kill current 0 sig σ) ↔ Works current 0 sig σ := by
  rw [sys_kill, if_pos rfl, Works, if_pos rfl]
  obtain ⟨htable, hvalue⟩ := scan_slots current true (fun p => p.any fun t => t.pgrp = current.pid) σ hsig
  have htarget : ∀ t, Target current 0 t ↔ t.pgrp = current.pgrp := by
    intro t
    simp [Target, Addressed]
  constructor
  · intro h i t hi ht
    have hi' := h.tasks i
    rw [htable, ht, Option.map_some, Option.map_some, Option.some.injEq, ite_add_eq hsig] at hi'
    rw [htarget] at hi'
    simpa only [Option.any_some, decide_eq_true_eq, true_or, and_true, ne_eq, hi, not_false_eq_true, true_and]
      using hi'
  · intro h
    refine ⟨?_, ?_⟩
    · intro i
      rw [htable]
      cases ht : σ i with
      | none => rfl
      | some t =>
        rw [Option.map_some, Option.map_some, Option.some.injEq, ite_add_eq hsig]
        rw [htarget]
        by_cases hi : i = 0
        · simp only [ne_eq, hi, not_true_eq_false, false_and, true_or]
        · simpa only [Option.any_some, decide_eq_true_eq, true_or, and_true, ne_eq, hi, not_false_eq_true,
            true_and] using h i t hi ht
    · intro _
      rw [hvalue]
      intro i hi htest
      cases hσ : σ i with
      | none =>
        rw [hσ] at htest
        cases htest
      | some t => exact ⟨t, rfl, Or.inl rfl⟩

theorem kill_all (hsig : 1 ≤ sig ∧ sig ≤ 32) :
    Reaches current (-1) sig σ (sys_kill current (-1) sig σ) ↔ Works current (-1) sig σ := by
  have haddressed : ∀ t, (true = true) ↔ Addressed current (-1) t := by
    intro t
    simp [Addressed]
  rw [sys_kill, if_neg (by decide), if_neg (by decide), if_pos rfl, Works, if_neg (by decide), if_pos rfl]
  obtain ⟨-, hvalue⟩ := scan_slots current false (fun _ => true) σ hsig
  constructor
  · intro h
    by_cases hmay : ∃ i t, i ≠ 0 ∧ σ i = some t ∧ ¬May current t
    · exact Or.inl hmay
    · right
      intro i hi hnone
      have hzero := h.value fun j t hj ht ha =>
        ⟨ha, Or.inr (by_contra fun hm => hmay ⟨j, t, hj, ht, hm⟩)⟩
      obtain ⟨t, ht, -⟩ := hvalue.mp hzero i hi rfl
      rw [hnone] at ht
      cases ht
  · intro h
    refine ⟨scan_tasks hsig (by decide) haddressed, ?_⟩
    intro hall
    have hmay : ∀ i t, i ≠ 0 → σ i = some t → May current t := fun i t hi ht =>
      (hall i t hi ht ((haddressed t).mp rfl)).2.resolve_left (by decide)
    rw [hvalue]
    intro i hi _
    rcases h with ⟨j, t, hj, ht, hno⟩ | hfull
    · exact absurd (hmay j t hj ht) hno
    · obtain ⟨t, ht⟩ := Option.ne_none_iff_exists'.mp (hfull i hi)
      exact ⟨t, ht, Or.inr (hmay i t hi ht)⟩

/-- `sys_kill` reaches exactly its targets, and answers for them, when the group of the caller is not asked for
under another number and no empty slot is taken for a task. -/
theorem kill_reaches_iff (current : Task) (pid : BitVec 32) (sig : ℤ) (σ : Table) (hsig : 1 ≤ sig ∧ sig ≤ 32) :
    Reaches current pid sig σ (sys_kill current pid sig σ) ↔ Works current pid sig σ := by
  by_cases hzero : pid = 0
  · subst hzero
    exact kill_group hsig
  · by_cases hall : pid = -1
    · subst hall
      exact kill_all hsig
    · rw [Works, if_neg hzero, if_neg hall, sys_kill, if_neg hzero, if_neg hall, iff_true]
      split
      · rename_i hpos
        refine scan_reaches hsig hzero rfl ?_
        intro t
        rw [Addressed, if_neg hzero, if_pos hpos, Option.any_some, decide_eq_true_eq]
      · rename_i hpos
        refine scan_reaches hsig hzero rfl ?_
        intro t
        rw [Addressed, if_neg hzero, if_neg hpos, if_neg hall, Option.any_some, decide_eq_true_eq]

/-- Three processes of one group: the shell that leads it, with pid 5, and two others. -/
def shell : Table := fun i =>
  if i = 1 then some ⟨5, 5, 0, 0⟩ else if i = 2 then some ⟨6, 5, 0, 0⟩ else if i = 3
    then some ⟨7, 5, 0, 0⟩ else none

theorem kill_reaches_shell : (1 ≤ (15 : ℤ) ∧ (15 : ℤ) ≤ 32) ∧
      (Reaches ⟨5, 5, 0, 0⟩ 0 15 shell (sys_kill ⟨5, 5, 0, 0⟩ 0 15 shell) ↔ Works ⟨5, 5, 0, 0⟩ 0 15 shell) :=
  ⟨by decide, kill_reaches_iff ⟨5, 5, 0, 0⟩ 0 15 shell (by decide)⟩

/-- Sent by the second process of the group, `kill(0, SIGTERM)` reaches nobody. -/
theorem kill_misses_the_group : ¬Reaches ⟨6, 5, 0, 0⟩ 0 15 shell (sys_kill ⟨6, 5, 0, 0⟩ 0 15 shell) := by
  intro h
  exact absurd (h.tasks 1) (by decide)

end OldLinux.Tasks.Kill
