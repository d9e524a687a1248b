import Mathlib.Algebra.Order.Ring.Int
import OldLinux.Sched.WaitQueue

/-!
# The scheduler

`schedule` with the fields it works on, the timer interrupt, `sys_nice`, and everything that makes
tasks come, sleep, wake up and go.  Longs have 32 bits and wrap around.
-/

namespace OldLinux.Sched

open Function Lib

/-- A signed 32-bit value. -/
def long (x : ℤ) : ℤ := (x + 2 ^ 31) % 2 ^ 32 - 2 ^ 31

theorem long_of_range {x : ℤ} (h1 : -2 ^ 31 ≤ x) (h2 : x < 2 ^ 31) : long x = x := by
  rw [long]
  omega

theorem long_range (x : ℤ) : -2 ^ 31 ≤ long x ∧ long x < 2 ^ 31 := by
  rw [long]
  omega

structure SchedTask where
  state : TaskState
  counter : ℤ
  priority : ℤ
  signal : BitVec 32
  blocked : BitVec 32
  alarm : ℤ
  utime : ℤ
  stime : ℤ

structure Scheduler where
  task : ℕ → Option SchedTask
  current : ℕ
  jiffies : ℤ

def sigAlrm : BitVec 32 := 1#32 <<< 13

/-- `_BLOCKABLE`: every signal but `SIGKILL` and `SIGSTOP`. -/
def blockable : BitVec 32 := ~~~(1#32 <<< 8 ||| 1#32 <<< 18)

/-- The first loop of `schedule` for one task: its alarm, then its signals. -/
def SchedTask.checkSignals (t : SchedTask) (jiffies : ℤ) : SchedTask :=
  let t := if t.alarm ≠ 0 ∧ t.alarm < jiffies then
    { t with signal := t.signal ||| sigAlrm, alarm := 0 } else t
  if t.signal &&& ~~~(blockable &&& t.blocked) ≠ 0 ∧ t.state = .interruptible then
    { t with state := .running } else t

/-- `counter = (counter >> 1) + priority`. -/
def SchedTask.recharge (t : SchedTask) : SchedTask :=
  { t with counter := long (t.counter / 2 + t.priority) }

/-- The accounting of `do_timer`. -/
def SchedTask.tick (cpl : Bool) (t : SchedTask) : SchedTask :=
  let t := if cpl then { t with utime := long (t.utime + 1) }
    else { t with stime := long (t.stime + 1) }
  let t := { t with counter := long (t.counter - 1) }
  if t.counter > 0 then t else { t with counter := 0 }

def SchedTask.nice (increment : ℤ) (t : SchedTask) : SchedTask :=
  if long (t.priority - increment) > 0 then { t with priority := long (t.priority - increment) }
  else t

/-- What `copy_process` leaves of the parent in these fields. -/
def SchedTask.child (t : SchedTask) : SchedTask :=
  { t with state := .running, counter := t.priority, signal := 0, alarm := 0, utime := 0, stime := 0 }

/-- Only sleepers are woken up. -/
def SchedTask.wake (t : SchedTask) : SchedTask :=
  if t.state = .interruptible ∨ t.state = .uninterruptible then { t with state := .running } else t

namespace Scheduler

/-- Something done to every task but task 0. -/
def mapTasks (σ : Scheduler) (f : SchedTask → SchedTask) : Scheduler :=
  { σ with task := fun i => if 0 < i ∧ i < 64 then (σ.task i).map f else σ.task i }

/-- The inner loop of `schedule` over the tasks `i`, .., 1. -/
def scan (σ : Scheduler) : ℕ → ℤ × ℕ → ℤ × ℕ
  | 0, r => r
  | i + 1, (c, next) =>
    match σ.task (i + 1) with
    | none => σ.scan i (c, next)
    | some t =>
      if t.state = .running ∧ t.counter > c then σ.scan i (t.counter, i + 1)
      else σ.scan i (c, next)

/-- `while (1)`, at most `fuel` times. -/
def scheduleLoop : ℕ → Scheduler → Option Scheduler
  | 0, _ => none
  | fuel + 1, σ =>
    let r := σ.scan 63 (-1, 0)
    if r.1 ≠ 0 then some { σ with current := r.2 }
    else scheduleLoop fuel (σ.mapTasks SchedTask.recharge)

def checkSignals (σ : Scheduler) : Scheduler := σ.mapTasks fun t => t.checkSignals σ.jiffies

/-- `schedule` with one recalculation at most; `schedule_ends` shows that it never needs more. -/
def schedule (σ : Scheduler) : Option Scheduler := scheduleLoop 2 σ.checkSignals

def modifyTask (σ : Scheduler) (i : ℕ) (f : SchedTask → SchedTask) : Scheduler :=
  { σ with task := update σ.task i ((σ.task i).map f) }

/-- The timer interrupt up to the point where `do_timer` may call `schedule`. -/
def tick (σ : Scheduler) (cpl : Bool) : Scheduler :=
  { σ.modifyTask σ.current (SchedTask.tick cpl) with jiffies := long (σ.jiffies + 1) }

/-- The counter of the process that runs is used up. -/
def expires (σ : Scheduler) : Bool :=
  match σ.task σ.current with
  | none => false
  | some t => decide (long (t.counter - 1) ≤ 0)

/-- `do_timer`, which calls `schedule` when user mode was interrupted. -/
def doTimer (σ : Scheduler) (cpl : Bool) : Option Scheduler :=
  if σ.expires = true ∧ cpl = true then (σ.tick cpl).schedule else some (σ.tick cpl)

inductive Event where
  | schedule
  | timer (cpl : Bool)
  /-- the argument is a long -/
  | nice (increment : ℤ)
  | fork (nr : ℕ)
  /-- the process that runs changes its state: it is about to sleep, or it exits -/
  | sleep (s : TaskState)
  | wake (i : ℕ)
  | signal (i : ℕ) (bits : BitVec 32)
  | block (mask : BitVec 32)
  | alarm (seconds : ℤ)
  /-- `release` of a zombie -/
  | release (i : ℕ)

def step (σ : Scheduler) : Event → Option Scheduler
  | .schedule => σ.schedule
  | .timer cpl => σ.doTimer cpl
  | .nice increment => some (σ.modifyTask σ.current (SchedTask.nice (long increment)))
  | .fork nr =>
    if 0 < nr ∧ nr < 64 ∧ (σ.task nr).isNone then
      some { σ with task := update σ.task nr ((σ.task σ.current).map SchedTask.child) }
    else none
  | .sleep s => some (σ.modifyTask σ.current fun t => { t with state := s })
  | .wake i => some (σ.modifyTask i SchedTask.wake)
  | .signal i bits => some (σ.modifyTask i fun t => { t with signal := t.signal ||| bits })
  | .block mask => some (σ.modifyTask σ.current fun t => { t with blocked := mask })
  | .alarm seconds => some (σ.modifyTask σ.current fun t =>
    { t with alarm := if seconds > 0 then long (σ.jiffies + 100 * seconds) else 0 })
  | .release i =>
    if 0 < i ∧ i ≠ σ.current ∧ (σ.task i).map SchedTask.state = some .zombie then
      some { σ with task := update σ.task i none }
    else none

/-- Boot: there is task 0. -/
def boot : Scheduler where
  task := fun i => if i = 0 then some ⟨.running, 15, 15, 0, 0, 0, 0, 0⟩ else none
  current := 0
  jiffies := 0

/-! ### What holds of every task -/

/-- Something true of every task. -/
def All (I : SchedTask → Prop) (σ : Scheduler) : Prop := ∀ i t, σ.task i = some t → I t

variable {I : SchedTask → Prop} {σ τ : Scheduler} {i : ℕ}

theorem All.mapTasks (h : σ.All I) {f : SchedTask → SchedTask}
    (hf : ∀ i t, 0 < i → i < 64 → σ.task i = some t → I t → I (f t)) : (σ.mapTasks f).All I := by
  intro i t ht
  simp only [Scheduler.mapTasks] at ht
  split at ht
  · rename_i hi
    obtain ⟨u, hu, rfl⟩ := Option.map_eq_some_iff.1 ht
    exact hf i u hi.1 hi.2 hu (h i u hu)
  · exact h i t ht

theorem All.modifyTask (h : σ.All I) {f : SchedTask → SchedTask}
    (hf : ∀ t, σ.task i = some t → I t → I (f t)) : (σ.modifyTask i f).All I := by
  intro j t ht
  simp only [Scheduler.modifyTask, update_apply] at ht
  split at ht
  · obtain ⟨u, hu, rfl⟩ := Option.map_eq_some_iff.1 ht
    exact hf u hu (h i u hu)
  · exact h j t ht

theorem checkSignals_fields (t : SchedTask) (jiffies : ℤ) :
    (t.checkSignals jiffies).counter = t.counter ∧ (t.checkSignals jiffies).priority = t.priority := by
  rw [SchedTask.checkSignals]
  split <;> split <;> exact ⟨rfl, rfl⟩

/-! ### The search for the next task -/

/-- What the inner loop finds: the first of the best, if there is one above `c`. -/
theorem scan_spec (σ : Scheduler) (i : ℕ) (c : ℤ) (next : ℕ) : c ≤ (σ.scan i (c, next)).1 ∧
    (∀ j t, 0 < j → j ≤ i → σ.task j = some t → t.state = .running → t.counter ≤ (σ.scan i (c, next)).1) ∧
    (σ.scan i (c, next) = (c, next) ∨ ∃ t, 0 < (σ.scan i (c, next)).2 ∧
      (σ.scan i (c, next)).2 ≤ i ∧ σ.task (σ.scan i (c, next)).2 = some t ∧ t.state = .running ∧
      t.counter = (σ.scan i (c, next)).1) := by
  induction i generalizing c next with
  | zero =>
    refine ⟨le_rfl, ?_, Or.inl rfl⟩
    intro j t h1 h2
    omega
  | succ i ih =>
    -- the task `i + 1` does not count
    have hskip : (∀ t, σ.task (i + 1) = some t → t.state = .running → t.counter ≤ c) →
        σ.scan (i + 1) (c, next) = σ.scan i (c, next) →
        c ≤ (σ.scan (i + 1) (c, next)).1 ∧
        (∀ j t, 0 < j → j ≤ i + 1 → σ.task j = some t → t.state = .running →
          t.counter ≤ (σ.scan (i + 1) (c, next)).1) ∧
        (σ.scan (i + 1) (c, next) = (c, next) ∨ ∃ t, 0 < (σ.scan (i + 1) (c, next)).2 ∧
          (σ.scan (i + 1) (c, next)).2 ≤ i + 1 ∧ σ.task (σ.scan (i + 1) (c, next)).2 = some t ∧
          t.state = .running ∧ t.counter = (σ.scan (i + 1) (c, next)).1) := by
      intro hlow heq
      obtain ⟨h1, h2, h3⟩ := ih c next
      rw [heq]
      refine ⟨h1, ?_, ?_⟩
      · intro j t hj0 hj ht hrun
        by_cases hlast : j = i + 1
        · rw [hlast] at ht
          exact le_trans (hlow t ht hrun) h1
        · exact h2 j t hj0 (by omega) ht hrun
      · rcases h3 with h3 | ⟨t, h3, h4, h5⟩
        · exact Or.inl h3
        · exact Or.inr ⟨t, h3, by omega, h5⟩
    cases htask : σ.task (i + 1) with
    | none =>
      apply hskip
      · intro t ht
        cases ht.symm.trans htask
      · rw [scan, htask]
    | some u =>
      by_cases hbetter : u.state = .running ∧ u.counter > c
      · have heq : σ.scan (i + 1) (c, next) = σ.scan i (u.counter, i + 1) := by
          rw [scan, htask]
          simp only [if_pos hbetter]
        obtain ⟨h1, h2, h3⟩ := ih u.counter (i + 1)
        rw [heq]
        refine ⟨by omega, ?_, ?_⟩
        · intro j t hj0 hj ht hrun
          by_cases hlast : j = i + 1
          · rw [hlast, htask] at ht
            cases ht
            exact h1
          · exact h2 j t hj0 (by omega) ht hrun
        · right
          rcases h3 with h3 | ⟨t, h3, h4, h5⟩
          · rw [h3]
            exact ⟨u, Nat.succ_pos i, le_rfl, htask, hbetter.1, rfl⟩
          · exact ⟨t, h3, by omega, h5⟩
      · apply hskip
        · intro t ht hrun
          cases ht.symm.trans htask
          exact not_lt.1 (fun h => hbetter ⟨hrun, h⟩)
        · rw [scan, htask]
          simp only [if_neg hbetter]

/-! ### `schedule` -/

/-- The priority is a positive long. -/
def Ranked (t : SchedTask) : Prop := 1 ≤ t.priority ∧ t.priority < 2 ^ 31

/-- The state `schedule` works on needs a recalculation. -/
def Recharges (σ : Scheduler) : Prop := (σ.checkSignals.scan 63 (-1, 0)).1 = 0

theorem checkSignals_ranked (h : σ.All Ranked) : σ.checkSignals.All Ranked := by
  apply h.mapTasks
  intro _ t _ _ _ ht
  rw [Ranked, (checkSignals_fields t _).2]
  exact ht

/-- After a recalculation somebody has time left. -/
theorem scan_recharged (h : σ.All Ranked) (hc : (σ.scan 63 (-1, 0)).1 = 0) :
    1 ≤ ((σ.mapTasks SchedTask.recharge).scan 63 (-1, 0)).1 := by
  obtain ⟨-, -, h3⟩ := scan_spec σ 63 (-1) 0
  rcases h3 with h3 | ⟨t, h4, h5, h6, h7, h8⟩
  · rw [h3] at hc
    cases hc
  · obtain ⟨-, hbest, -⟩ := scan_spec (σ.mapTasks SchedTask.recharge) 63 (-1) 0
    have htask : (σ.mapTasks SchedTask.recharge).task (σ.scan 63 (-1, 0)).2 = some t.recharge := by
      simp only [mapTasks]
      rw [if_pos ⟨h4, by omega⟩, h6]
      rfl
    have hcounter : t.recharge.counter = t.priority := by
      obtain ⟨hp1, hp2⟩ := h _ t h6
      rw [SchedTask.recharge]
      show long (t.counter / 2 + t.priority) = t.priority
      rw [h8, hc, Int.zero_ediv, Int.zero_add]
      exact long_of_range (by omega) (by omega)
    have hle := hbest _ _ h4 h5 htask h7
    rw [hcounter] at hle
    have := (h _ t h6).1
    omega

/-- **`schedule` ends** after one recalculation at most, however long it may take. -/
theorem schedule_ends (h : σ.All Ranked) : ∃ τ, (∀ fuel, 2 ≤ fuel → scheduleLoop fuel σ.checkSignals = some τ) ∧
    ((¬σ.Recharges ∧ τ = { σ.checkSignals with current := (σ.checkSignals.scan 63 (-1, 0)).2 }) ∨
      σ.Recharges ∧ τ = { σ.checkSignals.mapTasks SchedTask.recharge with
        current := ((σ.checkSignals.mapTasks SchedTask.recharge).scan 63 (-1, 0)).2 }) := by
  have hR := checkSignals_ranked h
  have hfuel : ∀ fuel, 2 ≤ fuel → ∃ n, fuel = n + 2 := fun fuel hf => ⟨fuel - 2, by omega⟩
  by_cases hc : σ.Recharges
  · refine ⟨_, ?_, Or.inr ⟨hc, rfl⟩⟩
    intro fuel hf
    obtain ⟨n, rfl⟩ := hfuel fuel hf
    have hpos := scan_recharged hR hc
    have hzero : (σ.checkSignals.scan 63 (-1, 0)).1 = 0 := hc
    rw [scheduleLoop]
    simp only [hzero, ne_eq, not_true_eq_false, if_false]
    rw [scheduleLoop]
    exact if_pos (by omega)
  · refine ⟨_, ?_, Or.inl ⟨hc, rfl⟩⟩
    intro fuel hf
    obtain ⟨n, rfl⟩ := hfuel fuel hf
    rw [scheduleLoop]
    exact if_pos hc

/-- `schedule` has switched to a task that may run and has the most time left, or to task 0 when none
may run. -/
def Picks (τ : Scheduler) : Prop :=
  (0 < τ.current ∧ τ.current < 64 ∧ ∃ t, τ.task τ.current = some t ∧ t.state = .running ∧
    ∀ j u, 0 < j → j < 64 → τ.task j = some u → u.state = .running → u.counter ≤ t.counter) ∨
  (τ.current = 0 ∧ ∀ j u, 0 < j → j < 64 → τ.task j = some u → u.state ≠ .running)

theorem picks_of_scan (hc : 0 ≤ (σ.scan 63 (-1, 0)).1) : Picks { σ with current := (σ.scan 63 (-1, 0)).2 } := by
  obtain ⟨-, hbest, hfound⟩ := scan_spec σ 63 (-1) 0
  rcases hfound with h | ⟨t, h1, h2, h3, h4, h5⟩
  · rw [h] at hc
    simp at hc
  · refine Or.inl ⟨h1, by show (σ.scan 63 (-1, 0)).2 < 64; omega, t, h3, h4, ?_⟩
    intro j u hj0 hj hu hrun
    rw [h5]
    exact hbest j u hj0 (by omega) hu hrun

theorem picks_zero (h : ∀ i t, σ.task i = some t → 0 ≤ t.counter)
    (hc : (σ.scan 63 (-1, 0)).1 < 0) : Picks { σ with current := (σ.scan 63 (-1, 0)).2 } := by
  obtain ⟨-, hbest, hfound⟩ := scan_spec σ 63 (-1) 0
  right
  rcases hfound with hnone | ⟨t, h1, h2, h3, h4, h5⟩
  · refine ⟨by rw [hnone], ?_⟩
    intro j u hj0 hj hu hrun
    have h1 := hbest j u hj0 (by omega) hu hrun
    have h2 := h j u hu
    omega
  · have := h _ t h3
    omega

theorem schedule_picks (hR : σ.All Ranked) (h : ∀ i t, σ.task i = some t → 0 ≤ t.counter)
    (hs : σ.schedule = some τ) : τ.Picks := by
  obtain ⟨τ', hfuel, hτ⟩ := schedule_ends hR
  rw [schedule, hfuel 2 le_rfl] at hs
  cases hs
  have hcheck : ∀ i t, σ.checkSignals.task i = some t → 0 ≤ t.counter := by
    have hall : σ.checkSignals.All fun t => 0 ≤ t.counter := by
      apply All.mapTasks (I := fun t => 0 ≤ t.counter) h
      intro _ t _ _ _ ht
      rw [(checkSignals_fields t _).1]
      exact ht
    exact hall
  rcases hτ with ⟨hc, rfl⟩ | ⟨hc, rfl⟩
  · by_cases hneg : (σ.checkSignals.scan 63 (-1, 0)).1 < 0
    · exact picks_zero hcheck hneg
    · exact picks_of_scan (not_lt.1 hneg)
  · have := scan_recharged (checkSignals_ranked hR) hc
    exact picks_of_scan (by omega)

/-! ### What the steps keep -/

section Steps

variable {J : ℤ → ℤ → Prop}

/-- The state in which an event calls `schedule`. -/
def calls (σ : Scheduler) : Event → Option Scheduler
  | .schedule => some σ
  | .timer cpl => if σ.expires = true ∧ cpl = true then some (σ.tick cpl) else none
  | _ => none

theorem schedule_all (hR : σ.All Ranked) (h : σ.All fun t => J t.priority t.counter)
    (hcharge : σ.Recharges → ∀ i t, 0 < i → i < 64 → σ.task i = some t →
      J t.priority t.counter → J t.priority (long (t.counter / 2 + t.priority)))
    (hs : σ.schedule = some τ) : τ.All fun t => J t.priority t.counter := by
  obtain ⟨τ', hfuel, hτ⟩ := schedule_ends hR
  rw [schedule, hfuel 2 le_rfl] at hs
  cases hs
  have hcheck : σ.checkSignals.All fun t => J t.priority t.counter := by
    apply All.mapTasks h
    intro _ t _ _ _ ht
    rw [(checkSignals_fields t _).1, (checkSignals_fields t _).2]
    exact ht
  rcases hτ with ⟨-, rfl⟩ | ⟨hc, rfl⟩
  · exact hcheck
  · have hall : (σ.checkSignals.mapTasks SchedTask.recharge).All fun t => J t.priority t.counter := by
      apply All.mapTasks hcheck
      intro i t h0 h1 ht hJ
      simp only [checkSignals, mapTasks] at ht
      rw [if_pos ⟨h0, h1⟩] at ht
      obtain ⟨u, hu, rfl⟩ := Option.map_eq_some_iff.1 ht
      rw [(checkSignals_fields u _).1, (checkSignals_fields u _).2] at hJ
      show J (u.checkSignals _).priority (long ((u.checkSignals _).counter / 2 + (u.checkSignals _).priority))
      rw [(checkSignals_fields u _).1, (checkSignals_fields u _).2]
      exact hcharge hc i u h0 h1 hu hJ
    exact hall

theorem tick_fields (t : SchedTask) (cpl : Bool) : (t.tick cpl).priority = t.priority ∧
    (t.tick cpl).counter = if long (t.counter - 1) > 0 then long (t.counter - 1) else 0 := by
  cases cpl with
  | false =>
    simp only [SchedTask.tick, Bool.false_eq_true, if_false]
    split <;> exact ⟨rfl, rfl⟩
  | true =>
    simp only [SchedTask.tick, if_true]
    split <;> exact ⟨rfl, rfl⟩

theorem tick_all {cpl : Bool} (h : σ.All fun t => J t.priority t.counter)
    (htick : ∀ p c, J p c → J p (if long (c - 1) > 0 then long (c - 1) else 0)) :
    (σ.tick cpl).All fun t => J t.priority t.counter := by
  apply All.modifyTask h
  intro t _ ht
  rw [(tick_fields t cpl).1, (tick_fields t cpl).2]
  exact htick _ _ ht

/-- `nice` leaves a positive priority. -/
theorem nice_ranked {t : SchedTask} (h : Ranked t) (increment : ℤ) : Ranked (t.nice increment) := by
  rw [SchedTask.nice]
  split
  · rename_i hpos
    exact ⟨hpos, (long_range _).2⟩
  · exact h

/-- A step keeps what a tick, a new priority, a new task and a recalculation keep. -/
theorem step_all {e : Event} (hR : σ.All Ranked) (h : σ.All fun t => J t.priority t.counter)
    (htick : ∀ p c, J p c → J p (if long (c - 1) > 0 then long (c - 1) else 0))
    (hnice : ∀ x (t : SchedTask), J t.priority t.counter → J (t.nice (long x)).priority t.counter)
    (hchild : ∀ p c, J p c → J p p)
    (hcharge : ∀ ρ, σ.calls e = some ρ → ρ.Recharges → ∀ i t, 0 < i → i < 64 →
      ρ.task i = some t → J t.priority t.counter → J t.priority (long (t.counter / 2 + t.priority)))
    (hs : σ.step e = some τ) : τ.All fun t => J t.priority t.counter := by
  cases e with
  | schedule => exact schedule_all hR h (hcharge σ rfl) hs
  | timer cpl =>
    have hcalls : ∀ ρ, (if σ.expires = true ∧ cpl = true then some (σ.tick cpl) else none) = some ρ →
        _ := fun ρ hρ => hcharge ρ hρ
    rw [step, doTimer] at hs
    split at hs
    · rename_i hc
      have hR' : (σ.tick cpl).All Ranked := by
        apply All.modifyTask hR
        intro t _ ht
        rw [Ranked, (tick_fields t cpl).1]
        exact ht
      exact schedule_all hR' (tick_all h htick) (hcalls _ (if_pos hc)) hs
    · cases hs
      exact tick_all h htick
  | nice increment =>
    cases hs
    apply All.modifyTask h
    intro t _ ht
    have hcounter : (t.nice (long increment)).counter = t.counter := by
      rw [SchedTask.nice]
      split <;> rfl
    rw [hcounter]
    exact hnice increment t ht
  | fork nr =>
    obtain ⟨-, hs⟩ := Option.ite_none_right_eq_some.1 hs
    cases hs
    intro i t ht
    simp only [update_apply] at ht
    split at ht
    · obtain ⟨u, hu, rfl⟩ := Option.map_eq_some_iff.1 ht
      exact hchild _ _ (h _ u hu)
    · exact h i t ht
  | sleep s =>
    cases hs
    exact All.modifyTask h (fun _ _ ht => ht)
  | wake i =>
    cases hs
    apply All.modifyTask h
    intro t _ ht
    rw [SchedTask.wake]
    split
    · exact ht
    · exact ht
  | signal i bits =>
    cases hs
    exact All.modifyTask h (fun _ _ ht => ht)
  | block mask =>
    cases hs
    exact All.modifyTask h (fun _ _ ht => ht)
  | alarm seconds =>
    cases hs
    exact All.modifyTask h (fun _ _ ht => ht)
  | release i =>
    obtain ⟨-, hs⟩ := Option.ite_none_right_eq_some.1 hs
    cases hs
    intro j t ht
    simp only [update_apply] at ht
    split at ht
    · cases ht
    · exact h j t ht

end Steps

/-! ### Runs -/

/-- Nobody's counter leaves the longs when it is recalculated. -/
def Fits (σ : Scheduler) (e : Event) : Prop :=
  ∀ ρ, σ.calls e = some ρ → ρ.Recharges → ∀ i t, 0 < i → i < 64 → ρ.task i = some t →
    t.counter / 2 + t.priority < 2 ^ 31

theorem boot_all {I : SchedTask → Prop} (h : I ⟨.running, 15, 15, 0, 0, 0, 0, 0⟩) : boot.All I := by
  intro i t ht
  simp only [boot] at ht
  split at ht
  · cases ht
    exact h
  · cases ht

/-- Priority and counter are what they should be. -/
def Timed (t : SchedTask) : Prop :=
  (1 ≤ t.priority ∧ t.priority < 2 ^ 31) ∧ 0 ≤ t.counter ∧ t.counter < 2 ^ 31

theorem step_timed {e : Event} (h : σ.All Timed) (hfits : σ.Fits e) (hs : σ.step e = some τ) : τ.All Timed := by
  refine step_all (J := fun p c => (1 ≤ p ∧ p < 2 ^ 31) ∧ 0 ≤ c ∧ c < 2 ^ 31)
    (fun i t ht => (h i t ht).1) h ?_ ?_ ?_ ?_ hs
  · intro p c hJ
    have hc : long (c - 1) = c - 1 := long_of_range (by omega) (by omega)
    rw [hc]
    split <;> omega
  · intro x t hJ
    exact ⟨nice_ranked hJ.1 (long x), hJ.2⟩
  · intro p c hJ
    omega
  · intro ρ hρ hc i t h0 h1 ht hJ
    have hlt := hfits ρ hρ hc i t h0 h1 ht
    rw [long_of_range (by omega) (by omega)]
    omega

/-- **The scheduler always finds work.**  In every run in which no recalculation overflows, every
priority is at least 1 and every counter at least 0, `schedule` ends after one recalculation at most,
and it switches to a task that may run and has the largest counter of those, or to task 0 when there is
none. -/
theorem scheduler_finds_work (h : Reach (fun σ => σ = boot) step Fits σ) :
    (∀ i t, σ.task i = some t → 1 ≤ t.priority ∧ 0 ≤ t.counter) ∧
    ∃ τ, σ.schedule = some τ ∧ (∀ fuel, 2 ≤ fuel → scheduleLoop fuel σ.checkSignals = some τ) ∧ τ.Picks := by
  have hall : σ.All Timed := h.invariant (I := fun σ => σ.All Timed)
    (fun _ hs => by rw [hs]; exact boot_all ⟨⟨by decide, by decide⟩, by decide, by decide⟩)
    (fun _ _ _ hI ha hs => step_timed hI ha hs)
  have hR : σ.All Ranked := fun i t ht => (hall i t ht).1
  obtain ⟨τ, hfuel, -⟩ := schedule_ends hR
  have hs : σ.schedule = some τ := hfuel 2 le_rfl
  refine ⟨fun i t ht => ⟨(hall i t ht).1.1, (hall i t ht).2.1⟩, τ, hs, hfuel, ?_⟩
  exact schedule_picks hR (fun i t ht => (hall i t ht).2.1) hs

/-- `Fits`, task by task. -/
def fits (σ : Scheduler) (e : Event) : Bool :=
  (σ.calls e).all fun ρ => (List.range 64).all fun i => (ρ.task i).all fun t =>
  t.counter / 2 + t.priority < 2 ^ 31

theorem fits_of (σ : Scheduler) (e : Event) (h : fits σ e = true) : Fits σ e := by
  intro ρ hρ _ i t _ hi ht
  rw [fits, hρ, Option.all_some, List.all_eq_true] at h
  have hone := h i (List.mem_range.2 hi)
  rw [ht] at hone
  exact of_decide_eq_true hone

/-- Task 1 lowers its priority to 1, forks task 2 and raises its own priority to 21; task 2 uses up its counter
while task 1 sleeps. -/
def recharged : List Event :=
  [.fork 1, .schedule, .nice 14, .fork 2, .nice (-20), .sleep .uninterruptible, .schedule,
    .timer false, .schedule,
    .wake 1]

set_option maxRecDepth 8000 in
theorem scheduler_finds_work_forked : ∃ σ τ, exec step boot recharged = some σ ∧
    (∃ t, σ.task 1 = some t ∧ t.counter = 28) ∧ σ.schedule = some τ ∧ τ.current = 1 ∧ τ.Picks := by
  obtain ⟨σ, τ, t, hσ, ht, hcounter, hτ, hcur⟩ : ∃ σ τ t, exec step boot recharged = some σ ∧
    σ.task 1 = some t ∧ t.counter = 28 ∧ σ.schedule = some τ ∧ τ.current = 1 :=
    ⟨_, _, _, rfl, rfl, rfl, rfl, rfl⟩
  have h : Reach (fun σ => σ = boot) step Fits σ :=
    Reach.exec (Reach.start rfl) ((along_of_checks (by rfl)).mono fits_of) hσ
  obtain ⟨-, τ', hs, -, hpicks⟩ := scheduler_finds_work h
  rw [hτ] at hs
  cases hs
  exact ⟨σ, τ, hσ, ⟨t, ht, hcounter⟩, hτ, hcur, hpicks⟩

/-- Task 1 lowers its priority to 1, forks task 2, raises its own priority to the largest long and
sleeps; task 2 uses up its counter, and the recalculation runs over. -/
def niceRun : List Event :=
  [.fork 1, .schedule, .nice 14, .fork 2, .nice (-2147483646), .sleep .uninterruptible, .schedule,
    .timer false, .schedule]

set_option maxRecDepth 8000 in
theorem nice_makes_counter_negative : ¬∀ σ, Reach (fun σ => σ = boot) step (fun _ _ => True) σ →
      (∀ i t, σ.task i = some t → 1 ≤ t.priority ∧ 0 ≤ t.counter) ∧
      ∃ τ, σ.schedule = some τ ∧ (∀ fuel, 2 ≤ fuel → scheduleLoop fuel σ.checkSignals = some τ) ∧ τ.Picks := by
  intro hall
  obtain ⟨σ, t, hexec, htask, hcounter⟩ : ∃ σ t, exec step boot niceRun = some σ ∧
      σ.task 1 = some t ∧ t.counter = -2147483642 := ⟨_, _, rfl, rfl, rfl⟩
  have h0 : Reach (fun σ => σ = boot) step (fun _ _ => True) boot := Reach.start rfl
  have h := h0.exec (along_true _ _) hexec
  have := ((hall σ h).1 1 t htask).2
  omega

end Scheduler

end OldLinux.Sched
