import Mathlib.Data.BitVec
import OldLinux.Lib.Trace

/-!
# Signal masks and signal actions

`sys_ssetmask`, `sys_signal` and `sys_sigaction`, the choice of a signal in `ret_from_sys_call` and
`do_signal`.  Bit `i` of a mask is signal `i + 1`.  User memory can be read and written; a process that
finds out otherwise exits.
-/

namespace OldLinux.Tasks

open Function Lib

structure Action where
  handler : BitVec 32
  mask : BitVec 32
  flags : BitVec 32
  restorer : BitVec 32

structure SigTask where
  /-- the pending signals -/
  signal : BitVec 32
  blocked : BitVec 32
  sigaction : Fin 32 → Action
  zombie : Bool

/-- `SIGKILL - 1`. -/
def sigkill : Fin 32 := 8

/-- `SIGCHLD - 1`. -/
def sigchld : Fin 32 := 16

/-- `SA_NOMASK` and `SA_ONESHOT`. -/
def saNomask : BitVec 32 := 0x40000000
def saOneshot : BitVec 32 := 0x80000000

namespace SigTask

def setAction (t : SigTask) (i : Fin 32) (a : Action) : SigTask :=
  { t with sigaction := update t.sigaction i a }

def sysSsetmask (t : SigTask) (newmask : BitVec 32) : SigTask :=
  { t with blocked := newmask &&& ~~~(1#32 <<< sigkill.val) }

/-- The action that a call may change. -/
def settable (signum : ℤ) : Option (Fin 32) :=
  if signum < 1 ∨ 32 < signum ∨ signum = 9 then none
  else if h : (signum - 1).toNat < 32 then some ⟨(signum - 1).toNat, h⟩ else none

def sysSignal (t : SigTask) (signum : ℤ) (handler restorer : BitVec 32) : SigTask :=
  match settable signum with
  | none => t
  | some i => t.setAction i ⟨handler, 0, saOneshot ||| saNomask, restorer⟩

def sysSigaction (t : SigTask) (signum : ℤ) (action : Action) : SigTask :=
  match settable signum with
  | none => t
  | some i =>
    if action.flags &&& saNomask ≠ 0 then t.setAction i { action with mask := 0 }
    else t.setAction i { action with mask := action.mask ||| 1#32 <<< i.val }

/-- `send_sig`. -/
def send (t : SigTask) (i : Fin 32) : SigTask := { t with signal := t.signal ||| 1#32 <<< i.val }

/-- The signals that `ret_from_sys_call` chooses from. -/
def candidates (t : SigTask) : BitVec 32 := t.signal &&& ~~~t.blocked

/-- The signal it chooses. -/
def chosen (t : SigTask) : Option (Fin 32) :=
  (List.finRange 32).find? fun i => t.candidates.getLsbD i.val

/-- `do_signal`. -/
def doSignal (t : SigTask) (i : Fin 32) : SigTask :=
  let sa := t.sigaction i
  if sa.handler = 1 then t
  else if sa.handler = 0 then
    if i = sigchld then t else { t with zombie := true }
  else
    let t := if sa.flags &&& saOneshot ≠ 0 then t.setAction i { sa with handler := 0 } else t
    { t with blocked := t.blocked ||| sa.mask }

/-- The way back to user mode. -/
def deliver (t : SigTask) : SigTask :=
  match t.chosen with
  | none => t
  | some i => { t with signal := t.signal &&& ~~~(1#32 <<< i.val) }.doSignal i

/-- A handler of the process is called for the signal. -/
def catches (t : SigTask) (i : Fin 32) : Prop := (t.sigaction i).handler ≠ 0 ∧ (t.sigaction i).handler ≠ 1

/-- `do_execve` sets every handler to the default. -/
def execve (t : SigTask) : SigTask :=
  { t with sigaction := fun i => { t.sigaction i with handler := 0 } }

end SigTask

abbrev SigTable := Fin 64 → Option SigTask

inductive SigEvent where
  | sysSsetmask (newmask : BitVec 32)
  | sysSignal (signum : ℤ) (handler restorer : BitVec 32)
  | sysSigaction (signum : ℤ) (action : Action)
  | send (j : Fin 64) (i : Fin 32)
  | deliver
  | fork
  | execve
  | exit
  | release (j : Fin 64)

namespace SigTable

/-- The task in slot `P` becomes `t`. -/
def set (σ : SigTable) (P : Fin 64) (t : SigTask) : SigTable := update σ P (some t)

def step (σ : SigTable) (e : Fin 64 × SigEvent) : Option SigTable :=
  match σ e.1 with
  | none => none
  | some t =>
    if t.zombie then none
    else match e.2 with
      | .sysSsetmask newmask => some (σ.set e.1 (t.sysSsetmask newmask))
      | .sysSignal signum handler restorer => some (σ.set e.1 (t.sysSignal signum handler restorer))
      | .sysSigaction signum action => some (σ.set e.1 (t.sysSigaction signum action))
      | .send j i => (σ j).map fun u => σ.set j (u.send i)
      | .deliver =>
        -- task 0 has no signals
        if e.1 = 0 then none else some (σ.set e.1 t.deliver)
      | .fork =>
        ((List.finRange 64).find? fun nr => decide (nr ≠ 0 ∧ (σ nr).isNone)).map fun nr =>
          σ.set nr { t with signal := 0 }
      | .execve => some (σ.set e.1 t.execve)
      | .exit => if e.1 = 0 then none else some (σ.set e.1 { t with zombie := true })
      | .release j => (σ j).bind fun u => if u.zombie then some (update σ j none) else none

/-- Task 0, with no signal pending or blocked. -/
def boot : SigTable := fun i =>
  if i = 0 then some ⟨0, 0, fun _ => ⟨0, 0, 0, 0⟩, false⟩ else none

end SigTable

/-! ### `SIGKILL` -/

namespace SigTask

variable {t : SigTask} {i : Fin 32}

/-- `SIGKILL` is not blocked, and its action is the default. -/
structure Killable (t : SigTask) : Prop where
  blocked : t.blocked.getLsbD sigkill.val = false
  action : (t.sigaction sigkill).handler = 0

theorem settable_ne {signum : ℤ} (h : settable signum = some i) : i ≠ sigkill := by
  rw [settable] at h
  split at h
  · cases h
  · rename_i hrange
    split at h
    · cases h
      intro heq
      have hval := congrArg Fin.val heq
      change (signum - 1).toNat = 8 at hval
      omega
    · cases h

theorem Killable.setAction (h : t.Killable) (hi : i ≠ sigkill) (a : Action) : (t.setAction i a).Killable := by
  refine ⟨h.blocked, ?_⟩
  show (update t.sigaction i a sigkill).handler = 0
  rw [update_of_ne hi.symm]
  exact h.action

theorem Killable.sysSsetmask (h : t.Killable) (newmask : BitVec 32) : (t.sysSsetmask newmask).Killable := by
  refine ⟨?_, h.action⟩
  show (newmask &&& ~~~(1#32 <<< sigkill.val)).getLsbD sigkill.val = false
  simp [sigkill]

theorem Killable.sysSignal (h : t.Killable) (signum : ℤ) (handler restorer : BitVec 32) :
    (t.sysSignal signum handler restorer).Killable := by
  rw [SigTask.sysSignal]
  cases hset : settable signum with
  | none => exact h
  | some i => exact h.setAction (settable_ne hset) _

theorem Killable.sysSigaction (h : t.Killable) (signum : ℤ) (action : Action) :
    (t.sysSigaction signum action).Killable := by
  rw [SigTask.sysSigaction]
  cases hset : settable signum with
  | none => exact h
  | some i =>
    simp only
    split
    · exact h.setAction (settable_ne hset) _
    · exact h.setAction (settable_ne hset) _

/-- The mask of a handler is added to what is blocked. -/
theorem Killable.doSignal (h : t.Killable)
    (hmask : t.catches i → (t.sigaction i).mask.getLsbD sigkill.val = false) : (t.doSignal i).Killable := by
  rw [SigTask.doSignal]
  simp only
  split
  · exact h
  · rename_i hone
    split
    · split
      · exact h
      · exact ⟨h.blocked, h.action⟩
    · rename_i hzero
      have hne : i ≠ sigkill := by
        rintro rfl
        exact hzero h.action
      have hbits : (t.blocked ||| (t.sigaction i).mask).getLsbD sigkill.val = false := by
        rw [BitVec.getLsbD_or, h.blocked, hmask ⟨hzero, hone⟩]
        rfl
      split
      · exact ⟨hbits, (h.setAction hne _).action⟩
      · exact ⟨hbits, h.action⟩

theorem Killable.deliver (h : t.Killable) (hmask : ∀ i, t.chosen = some i → t.catches i →
    (t.sigaction i).mask.getLsbD sigkill.val = false) : t.deliver.Killable := by
  rw [SigTask.deliver]
  cases hi : t.chosen with
  | none => exact h
  | some i =>
    have hpending : { t with signal := t.signal &&& ~~~(1#32 <<< i.val) }.Killable := ⟨h.blocked, h.action⟩
    exact hpending.doSignal (hmask i hi)

/-- A pending `SIGKILL` can be chosen. -/
theorem Killable.candidate (h : t.Killable) (hp : t.signal.getLsbD sigkill.val = true) :
    t.candidates.getLsbD sigkill.val = true := by
  rw [candidates, BitVec.getLsbD_and, hp, BitVec.getLsbD_not, h.blocked]
  rfl

end SigTask

namespace SigTable

variable {σ τ : SigTable} {P : Fin 64} {e : Fin 64 × SigEvent}

/-- No handler is called that has `SIGKILL` in its mask. -/
def SafeMask (σ : SigTable) (e : Fin 64 × SigEvent) : Prop :=
  e.2 = .deliver → ∀ t i, σ e.1 = some t → t.chosen = some i → t.catches i →
    (t.sigaction i).mask.getLsbD sigkill.val = false

def Sound (σ : SigTable) : Prop := ∀ P t, σ P = some t → t.Killable

theorem Sound.set (h : Sound σ) {t : SigTask} (ht : t.Killable) (P : Fin 64) : Sound (σ.set P t) := by
  intro Q u hu
  rw [SigTable.set, update_apply] at hu
  split at hu
  · cases hu
    exact ht
  · exact h Q u hu

theorem step_sound (h : Sound σ) (hsafe : SafeMask σ e) (hs : σ.step e = some τ) : Sound τ := by
  obtain ⟨P, ev⟩ := e
  rw [step] at hs
  split at hs
  · cases hs
  · rename_i t ht
    have hkill := h P t ht
    split at hs
    · cases hs
    · cases ev with
      | sysSsetmask newmask =>
        cases hs
        exact h.set (hkill.sysSsetmask newmask) P
      | sysSignal signum handler restorer =>
        cases hs
        exact h.set (hkill.sysSignal signum handler restorer) P
      | sysSigaction signum action =>
        cases hs
        exact h.set (hkill.sysSigaction signum action) P
      | send j i =>
        obtain ⟨u, hu, heq⟩ := Option.map_eq_some_iff.1 hs
        cases heq
        have hsend : (u.send i).Killable := ⟨(h j u hu).blocked, (h j u hu).action⟩
        exact h.set hsend j
      | deliver =>
        obtain ⟨_, heq⟩ := Option.ite_none_left_eq_some.1 hs
        cases heq
        exact h.set (hkill.deliver fun i hi hc => hsafe rfl t i ht hi hc) P
      | fork =>
        obtain ⟨nr, _, heq⟩ := Option.map_eq_some_iff.1 hs
        cases heq
        have hchild : { t with signal := 0 }.Killable := ⟨hkill.blocked, hkill.action⟩
        exact h.set hchild nr
      | execve =>
        cases hs
        have hnew : t.execve.Killable := ⟨hkill.blocked, rfl⟩
        exact h.set hnew P
      | exit =>
        obtain ⟨_, heq⟩ := Option.ite_none_left_eq_some.1 hs
        cases heq
        have hdead : { t with zombie := true }.Killable := ⟨hkill.blocked, hkill.action⟩
        exact h.set hdead P
      | release j =>
        obtain ⟨u, _, hrest⟩ := Option.bind_eq_some_iff.1 hs
        obtain ⟨_, heq⟩ := Option.ite_none_right_eq_some.1 hrest
        cases heq
        intro Q w hw
        rw [update_apply] at hw
        split at hw
        · cases hw
        · exact h Q w hw

theorem boot_sound : Sound boot := by
  intro P t ht
  rw [boot] at ht
  split at ht
  · cases ht
    exact ⟨rfl, rfl⟩
  · cases ht

/-- **`SIGKILL` gets through**, in every run in which no handler is called that has `SIGKILL` in its
`sa_mask`: it is not blocked, its action is the default, and when it is pending it can be chosen. -/
theorem sigkill_gets_through (h : Reach (fun σ => σ = boot) step SafeMask σ) {t : SigTask}
    (ht : σ P = some t) : t.blocked.getLsbD sigkill.val = false ∧ (t.sigaction sigkill).handler = 0 ∧
      (t.signal.getLsbD sigkill.val = true → t.candidates.getLsbD sigkill.val = true) := by
  have hsound : Sound σ := h.invariant (I := Sound) (fun _ hs => by rw [hs]; exact boot_sound)
    fun _ _ _ hI ha hs => step_sound hI ha hs
  have hkill := hsound P t ht
  exact ⟨hkill.blocked, hkill.action, hkill.candidate⟩

/-- `SafeMask`, whether or not the signal has a handler. -/
def safeMask (σ : SigTable) (e : Fin 64 × SigEvent) : Bool :=
  match e.2 with
  | .deliver => (σ e.1).all fun t => t.chosen.all fun i => !(t.sigaction i).mask.getLsbD sigkill.val
  | _ => true

theorem safeMask_of (σ : SigTable) (e : Fin 64 × SigEvent) (h : safeMask σ e = true) : SafeMask σ e := by
  intro hdeliver t i ht hi _
  rw [safeMask, hdeliver, ht] at h
  simp only [hi, Option.all_some, Bool.not_eq_eq_eq_not, Bool.not_true] at h
  exact h

/-- In a handler with all other signals in its mask, the child of task 0 is sent `SIGKILL`. -/
def handled : List (Fin 64 × SigEvent) :=
  [(0, .fork), (1, .sysSigaction 10 ⟨0x1000, 0xfffffeff, 0, 0⟩), (0, .send 1 9), (1, .deliver),
    (0, .send 1 sigkill)]

theorem sigkill_gets_through_all : ∃ σ t, exec step boot handled = some σ ∧ σ 1 = some t ∧
    t.blocked = 0xfffffeff ∧ t.candidates.getLsbD sigkill.val = true := by
  obtain ⟨σ, hexec, t, ht, hblocked, hpending⟩ : ∃ σ, exec step boot handled = some σ ∧
    ∃ t, σ 1 = some t ∧ t.blocked = 0xfffffeff ∧ t.signal.getLsbD sigkill.val = true :=
    ⟨_, rfl, _, rfl, by decide, by decide⟩
  have hreach : Reach (fun σ => σ = boot) step SafeMask σ :=
    Reach.exec (Reach.start rfl) ((along_of_checks (by decide)).mono safeMask_of) hexec
  exact ⟨σ, t, hexec, ht, hblocked, (sigkill_gets_through hreach ht).2.2 hpending⟩

/-- A handler for `SIGUSR1` with `SIGKILL` in its mask is called; after that `SIGKILL` is blocked. -/
theorem sigkill_blocked : ∃ σ t, Reach (fun σ => σ = boot) step (fun _ _ => True) σ ∧ σ 1 = some t ∧
    t.blocked.getLsbD sigkill.val = true ∧ t.signal.getLsbD sigkill.val = true ∧
    t.candidates.getLsbD sigkill.val = false := by
  obtain ⟨σ, hexec, t, ht, hbits⟩ : ∃ σ, exec step boot
      [(0, .fork), (1, .sysSigaction 10 ⟨0x1000, 0x100, 0, 0⟩), (0, .send 1 9), (1, .deliver),
        (0, .send 1 sigkill)] = some σ ∧
    ∃ t, σ 1 = some t ∧ t.blocked.getLsbD sigkill.val = true ∧ t.signal.getLsbD sigkill.val = true ∧
      t.candidates.getLsbD sigkill.val = false :=
    ⟨_, rfl, _, rfl, by decide, by decide, by decide⟩
  exact ⟨σ, t, Reach.exec (Reach.start rfl) (along_true _ _) hexec, ht, hbits⟩

end SigTable

end OldLinux.Tasks
