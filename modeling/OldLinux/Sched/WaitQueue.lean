import OldLinux.Lib.Trace

/-!
# Wait queues

`sleep_on` and `wake_up` on one wait queue.  The queue is a pointer to one task; the rest of it are
the variables `tmp` on the kernel stacks of the tasks that sleep.  A task is inside `sleep_on` from
its call of `schedule` until it has run again and has passed the wake-up on to the task in its `tmp`.
-/

namespace OldLinux.Sched

open Function Lib

inductive TaskState where
  | running
  | interruptible
  | uninterruptible
  | zombie
  | stopped
deriving DecidableEq

/-- A wait queue and the tasks that may sleep on it. -/
structure WaitQueue where
  /-- `*p` -/
  head : Option ℕ
  state : ℕ → TaskState
  /-- the variable `tmp` of the tasks that are inside `sleep_on` -/
  tmp : ℕ → Option (Option ℕ)

namespace WaitQueue

variable {q q' : WaitQueue} {P t h : ℕ} {x : Option ℕ}

/-- `if (tmp) tmp->state=0`. -/
def wake (q : WaitQueue) : Option ℕ → WaitQueue
  | none => q
  | some t => { q with state := update q.state t .running }

/-- `sleep_on` up to its call of `schedule`. -/
def sleepOn (q : WaitQueue) (P : ℕ) : WaitQueue where
  head := some P
  state := update q.state P .uninterruptible
  tmp := update q.tmp P (some q.head)

/-- The rest of `sleep_on`, after `schedule`. -/
def slept (q : WaitQueue) (P : ℕ) : WaitQueue :=
  match q.tmp P with
  | none => q
  | some t => { q.wake t with tmp := update q.tmp P none }

def wakeUp (q : WaitQueue) : WaitQueue := { q.wake q.head with head := none }

/-- The first loop of `schedule`: the interruptible tasks that have a signal run. -/
def signal (q : WaitQueue) (signalled : ℕ → Bool) : WaitQueue :=
  { q with state := fun t =>
      if signalled t = true ∧ q.state t = .interruptible then .running else q.state t }

inductive Event where
  /-- the task calls `sleep_on` -/
  | sleepOn (P : ℕ)
  /-- the task runs again after `schedule` and returns from `sleep_on` -/
  | slept (P : ℕ)
  /-- somebody, perhaps an interrupt, calls `wake_up` -/
  | wakeUp
  | schedule (signalled : ℕ → Bool)
  /-- a task that is not inside `sleep_on` for this queue changes its state -/
  | other (P : ℕ) (s : TaskState)

/-- A task calls `sleep_on` when it runs and is not inside it; task 0 never does, that is a panic. -/
def step (q : WaitQueue) : Event → Option WaitQueue
  | .sleepOn P =>
    if P ≠ 0 ∧ q.state P = .running ∧ q.tmp P = none then some (q.sleepOn P) else none
  | .slept P =>
    if q.state P = .running ∧ q.tmp P ≠ none then some (q.slept P) else none
  | .wakeUp => some q.wakeUp
  | .schedule signalled => some (q.signal signalled)
  | .other P s =>
    if q.tmp P = none then some { q with state := update q.state P s } else none

/-- Nobody sleeps. -/
def Start (q : WaitQueue) : Prop := q.head = none ∧ ∀ t, q.tmp t = none

/-! ### Sleepers, and how they are found -/

/-- The task is inside `sleep_on` and does not run. -/
def Asleep (q : WaitQueue) (t : ℕ) : Prop := q.state t = .uninterruptible ∧ q.tmp t ≠ none

instance (q : WaitQueue) (t : ℕ) : Decidable (q.Asleep t) := inferInstanceAs (Decidable (_ ∧ _))

/-- The task is inside `sleep_on` and has been made runnable. -/
def Woken (q : WaitQueue) (t : ℕ) : Prop := q.state t = .running ∧ q.tmp t ≠ none

/-- The task `t` is found from the pointer `x` through the variables `tmp` of sleepers. -/
inductive Finds (q : WaitQueue) : Option ℕ → ℕ → Prop
  | here {t : ℕ} : q.Asleep t → Finds q (some t) t
  | next {u t : ℕ} {x : Option ℕ} : q.Asleep u → q.tmp u = some x → Finds q x t → Finds q (some u) t

/-- The task is found from the `tmp` of a task that has been made runnable and has not returned. -/
def Pending (q : WaitQueue) (t : ℕ) : Prop := ∃ w x, q.Woken w ∧ q.tmp w = some x ∧ q.Finds x t

/-- Inside `sleep_on` a task is uninterruptible or running, and every sleeper is found. -/
structure Sound (q : WaitQueue) : Prop where
  inside : ∀ t, q.tmp t ≠ none → q.state t = .uninterruptible ∨ q.state t = .running
  found : ∀ t, q.Asleep t → q.Finds q.head t ∨ q.Pending t

/-- Sleepers that stay as they are are found as before. -/
theorem Finds.mono (hkeep : ∀ u, q.Asleep u → q'.Asleep u ∧ q'.tmp u = q.tmp u)
    (hf : q.Finds x t) : q'.Finds x t := by
  induction hf with
  | here ha => exact Finds.here (hkeep _ ha).1
  | next ha htmp _ ih => exact Finds.next (hkeep _ ha).1 ((hkeep _ ha).2.trans htmp) ih

/-- One sleeper `h` stops sleeping: the others are found as before, or from the `tmp` of `h`. -/
theorem Finds.without (hkeep : ∀ u, u ≠ h → q.Asleep u → q'.Asleep u ∧ q'.tmp u = q.tmp u)
    (hf : q.Finds x t) (hth : t ≠ h) :
    q'.Finds x t ∨ ∃ z, q.tmp h = some z ∧ q'.Finds z t := by
  induction hf with
  | here ha => exact Or.inl (Finds.here (hkeep _ hth ha).1)
  | @next u t x ha htmp _ ih =>
    rcases ih hth with hx | hz
    · -- the way from `u` on avoids `h`
      by_cases huh : u = h
      · exact Or.inr ⟨x, by rw [← huh, htmp], hx⟩
      · exact Or.inl (Finds.next (hkeep u huh ha).1 ((hkeep u huh ha).2.trans htmp) hx)
    · exact Or.inr hz

/-! ### Waking one task -/

theorem wake_tmp (q : WaitQueue) (x : Option ℕ) : (q.wake x).tmp = q.tmp := by
  cases x with
  | none => rfl
  | some _ => rfl

theorem wake_head (q : WaitQueue) (x : Option ℕ) : (q.wake x).head = q.head := by
  cases x with
  | none => rfl
  | some _ => rfl

theorem wake_state (q : WaitQueue) (x : Option ℕ) (t : ℕ) :
    (q.wake x).state t = if x = some t then .running else q.state t := by
  cases x with
  | none => rfl
  | some h =>
    show update q.state h .running t = _
    by_cases ht : t = h
    · rw [ht, update_self, if_pos rfl]
    · rw [update_of_ne ht, if_neg (by rintro ⟨⟩; exact ht rfl)]

theorem wake_asleep (q : WaitQueue) (x : Option ℕ) (t : ℕ) : (q.wake x).Asleep t ↔ x ≠ some t ∧ q.Asleep t := by
  rw [Asleep, Asleep, wake_state, wake_tmp]
  by_cases hx : x = some t
  · rw [if_pos hx]
    exact ⟨fun h => (by cases h.1), fun h => absurd hx h.1⟩
  · rw [if_neg hx]
    exact ⟨fun h => ⟨hx, h⟩, fun h => h.2⟩

theorem Woken.wake {w : ℕ} (hw : q.Woken w) (x : Option ℕ) : (q.wake x).Woken w := by
  rw [Woken, wake_state, wake_tmp]
  refine ⟨?_, hw.2⟩
  split
  · rfl
  · exact hw.1

/-- After a wake-up of `x`, whoever still sleeps is found as before or is pending. -/
theorem Finds.wake {y : Option ℕ} (hf : q.Finds y t) (hx : x ≠ some t) :
    (q.wake x).Finds y t ∨ (q.wake x).Pending t := by
  cases x with
  | none => exact Or.inl hf
  | some h =>
    have hkeep : ∀ u, u ≠ h → q.Asleep u → (q.wake (some h)).Asleep u ∧ (q.wake (some h)).tmp u = q.tmp u := by
      intro u hu ha
      exact ⟨(wake_asleep q _ u).2 ⟨fun heq => hu (Option.some.inj heq).symm, ha⟩, rfl⟩
    rcases hf.without hkeep (fun ht => hx (congrArg some ht.symm)) with hf | ⟨z, hz, hf⟩
    · exact Or.inl hf
    · refine Or.inr ⟨h, z, ⟨?_, ?_⟩, hz, hf⟩
      · rw [wake_state, if_pos rfl]
      · rw [wake_tmp, hz]
        exact Option.some_ne_none z

/-- The sleepers behind the task that is woken are pending. -/
theorem Finds.woken (hf : q.Finds x t) (hx : x ≠ some t) : (q.wake x).Pending t := by
  cases hf with
  | here _ => exact absurd rfl hx
  | @next u _ z ha htmp hrest =>
    rcases hrest.wake hx with h | h
    · refine ⟨u, z, ⟨?_, ?_⟩, htmp, h⟩
      · rw [wake_state, if_pos rfl]
      · rw [wake_tmp, htmp]
        exact Option.some_ne_none z
    · exact h

theorem Pending.wake (hp : q.Pending t) (hx : x ≠ some t) : (q.wake x).Pending t := by
  obtain ⟨w, y, hw, htmp, hf⟩ := hp
  rcases hf.wake hx with h | h
  · exact ⟨w, y, hw.wake x, by rw [wake_tmp]; exact htmp, h⟩
  · exact h

theorem wake_inside (h : q.Sound) (ht : (q.wake x).tmp t ≠ none) :
    (q.wake x).state t = .uninterruptible ∨ (q.wake x).state t = .running := by
  rw [wake_state]
  split
  · exact Or.inr rfl
  · rw [wake_tmp] at ht
    exact h.inside t ht

/-! ### The steps -/

/-- The tasks inside `sleep_on` stay as they are. -/
def Keeps (q q' : WaitQueue) : Prop :=
  ∀ u, q.tmp u ≠ none → q'.state u = q.state u ∧ q'.tmp u = q.tmp u

theorem Keeps.finds (hk : q.Keeps q') (hf : q.Finds x t) : q'.Finds x t := by
  apply hf.mono
  intro u ha
  obtain ⟨hs, ht⟩ := hk u ha.2
  rw [Asleep, hs, ht]
  exact ⟨ha, rfl⟩

theorem Keeps.pending (hk : q.Keeps q') (hp : q.Pending t) : q'.Pending t := by
  obtain ⟨w, x, hw, htmp, hf⟩ := hp
  obtain ⟨hs, ht⟩ := hk w hw.2
  refine ⟨w, x, ?_, by rw [ht, htmp], hk.finds hf⟩
  rw [Woken, hs, ht]
  exact hw

theorem keeps_sleepOn (hP : q.tmp P = none) : q.Keeps (q.sleepOn P) := by
  intro u hu
  have hne : u ≠ P := by
    rintro rfl
    exact hu hP
  simp [sleepOn, hne]

theorem keeps_other (hP : q.tmp P = none) (s : TaskState) : q.Keeps { q with state := update q.state P s } := by
  intro u hu
  have hne : u ≠ P := by
    rintro rfl
    exact hu hP
  simp [hne]

theorem keeps_signal (h : q.Sound) (signalled : ℕ → Bool) : q.Keeps (q.signal signalled) := by
  intro u hu
  rcases h.inside u hu with hs | hs
  · simp [signal, hs]
  · simp [signal, hs]

theorem sleepOn_sound (h : q.Sound) (hP : q.tmp P = none) : (q.sleepOn P).Sound := by
  have hk := keeps_sleepOn hP
  have hself : (q.sleepOn P).Asleep P := by simp [Asleep, sleepOn]
  have hother : ∀ t, t ≠ P → (q.sleepOn P).tmp t = q.tmp t := by
    intro t ht
    simp [sleepOn, ht]
  constructor
  · intro t ht
    by_cases htP : t = P
    · rw [htP]
      exact Or.inl hself.1
    · rw [hother t htP] at ht
      rw [(hk t ht).1]
      exact h.inside t ht
  · intro t ht
    by_cases htP : t = P
    · rw [htP]
      exact Or.inl (Finds.here hself)
    · have hin : q.tmp t ≠ none := by
        rw [← hother t htP]
        exact ht.2
      have hasleep : q.Asleep t := ⟨by rw [← (hk t hin).1]; exact ht.1, hin⟩
      rcases h.found t hasleep with hf | hp
      · -- the old queue hangs on the `tmp` of the new sleeper
        exact Or.inl (Finds.next hself (by simp [sleepOn]) (hk.finds hf))
      · exact Or.inr (hk.pending hp)

/-- A step that leaves the tasks inside `sleep_on` and the queue alone. -/
theorem Sound.keeps (h : q.Sound) (hk : q.Keeps q') (hhead : q'.head = q.head)
    (htmp : q'.tmp = q.tmp) : q'.Sound := by
  constructor
  · intro t ht
    rw [htmp] at ht
    rw [(hk t ht).1]
    exact h.inside t ht
  · intro t ht
    have hin : q.tmp t ≠ none := by
      rw [← htmp]
      exact ht.2
    rw [hhead]
    rcases h.found t ⟨by rw [← (hk t hin).1]; exact ht.1, hin⟩ with hf | hp
    · exact Or.inl (hk.finds hf)
    · exact Or.inr (hk.pending hp)

theorem wakeUp_pending (hp : q.Pending t) : q.wakeUp.Pending t ∨ q.wakeUp.state t = .running := by
  by_cases hhead : q.head = some t
  · right
    show (q.wake q.head).state t = _
    rw [wake_state, if_pos hhead]
  · left
    obtain ⟨w, x, hw, htmp, hf⟩ := hp.wake hhead
    exact ⟨w, x, hw, htmp, Finds.mono (q := q.wake q.head) (fun _ ha => ⟨ha, rfl⟩) hf⟩

/-- After `wake_up` every sleeper is pending. -/
theorem pending_of_wakeUp (h : q.Sound) (ht : q.Asleep t) :
    q.wakeUp.Pending t ∨ q.wakeUp.state t = .running := by
  rcases h.found t ht with hf | hp
  · by_cases hhead : q.head = some t
    · right
      show (q.wake q.head).state t = _
      rw [wake_state, if_pos hhead]
    · left
      obtain ⟨w, x, hw, htmp, hf⟩ := hf.woken hhead
      exact ⟨w, x, hw, htmp, Finds.mono (q := q.wake q.head) (fun _ ha => ⟨ha, rfl⟩) hf⟩
  · exact wakeUp_pending hp

theorem wakeUp_sound (h : q.Sound) : q.wakeUp.Sound := by
  constructor
  · intro t ht
    exact wake_inside (x := q.head) h ht
  · intro t ht
    have ht' : (q.wake q.head).Asleep t := ht
    rcases pending_of_wakeUp h ((wake_asleep q q.head t).1 ht').2 with hp | hr
    · exact Or.inr hp
    · rw [ht.1] at hr
      cases hr

/-- The task is no longer inside `sleep_on`. -/
def leave (q : WaitQueue) (P : ℕ) : WaitQueue := { q with tmp := update q.tmp P none }

theorem slept_eq (hP : q.tmp P = some x) : q.slept P = (q.wake x).leave P := by
  rw [slept]
  simp only [hP, leave, wake_tmp]

theorem leave_tmp (q : WaitQueue) (ht : t ≠ P) : (q.leave P).tmp t = q.tmp t :=
  update_of_ne ht _ _

theorem leave_asleep (h : (q.leave P).Asleep t) : t ≠ P ∧ q.Asleep t := by
  have htP : t ≠ P := by
    rintro rfl
    exact h.2 (update_self ..)
  exact ⟨htP, h.1, by rw [← leave_tmp q htP]; exact h.2⟩

theorem Finds.leave (hP : q.state P = .running) (hf : q.Finds x t) : (q.leave P).Finds x t := by
  apply hf.mono
  intro u ha
  have hu : u ≠ P := by
    rintro rfl
    have := ha.1
    rw [hP] at this
    cases this
  exact ⟨⟨ha.1, by rw [leave_tmp q hu]; exact ha.2⟩, leave_tmp q hu⟩

/-- Nobody is found from a pointer to a task that runs. -/
theorem not_finds_wake : ¬(q.wake x).Finds x t := by
  intro hf
  cases hf with
  | here ha => exact ((wake_asleep q _ _).1 ha).1 rfl
  | next ha _ _ => exact ((wake_asleep q _ _).1 ha).1 rfl

/-- A woken task that has passed the wake-up on may go: nobody is found from its `tmp`. -/
theorem Pending.leave (hw : q.Woken P) (hP : q.tmp P = some x) (hp : (q.wake x).Pending t) :
    ((q.wake x).leave P).Pending t := by
  obtain ⟨w, y, hwoken, htmp, hf⟩ := hp
  have hwP : w ≠ P := by
    rintro rfl
    rw [wake_tmp, hP] at htmp
    rw [← Option.some.inj htmp] at hf
    exact not_finds_wake hf
  refine ⟨w, y, ⟨hwoken.1, ?_⟩, ?_, hf.leave (hw.wake x).1⟩
  · rw [leave_tmp _ hwP]
    exact hwoken.2
  · rw [leave_tmp _ hwP]
    exact htmp

theorem slept_pending (hw : q.Woken P) (hp : q.Pending t) :
    (q.slept P).Pending t ∨ (q.slept P).state t = .running := by
  obtain ⟨y, hy⟩ := Option.ne_none_iff_exists'.1 hw.2
  rw [slept_eq hy]
  by_cases hyt : y = some t
  · right
    show (q.wake y).state t = _
    rw [wake_state, if_pos hyt]
  · exact Or.inl (Pending.leave hw hy (hp.wake hyt))

theorem slept_sound (h : q.Sound) (hw : q.Woken P) : (q.slept P).Sound := by
  obtain ⟨y, hy⟩ := Option.ne_none_iff_exists'.1 hw.2
  rw [slept_eq hy]
  constructor
  · intro t ht
    have htP : t ≠ P := by
      rintro rfl
      exact ht (update_self ..)
    rw [leave_tmp _ htP] at ht
    exact wake_inside h ht
  · intro t ht
    obtain ⟨-, ha⟩ := leave_asleep ht
    obtain ⟨hyt, ha⟩ := (wake_asleep q y t).1 ha
    rcases h.found t ha with hf | hp
    · rcases hf.wake hyt with hf | hp
      · left
        show ((q.wake y).leave P).Finds (q.wake y).head t
        rw [wake_head]
        exact hf.leave (hw.wake y).1
      · exact Or.inr (Pending.leave hw hy hp)
    · exact Or.inr (Pending.leave hw hy (hp.wake hyt))

/-! ### Runs -/

theorem start_sound (h : q.Start) : q.Sound :=
  ⟨fun t ht => absurd (h.2 t) ht, fun t ht => absurd (h.2 t) ht.2⟩

theorem step_sound {e : Event} (h : q.Sound) (hs : q.step e = some q') : q'.Sound := by
  cases e with
  | sleepOn P =>
    obtain ⟨hc, hs⟩ := Option.ite_none_right_eq_some.1 hs
    cases hs
    exact sleepOn_sound h hc.2.2
  | slept P =>
    obtain ⟨hc, hs⟩ := Option.ite_none_right_eq_some.1 hs
    cases hs
    exact slept_sound h hc
  | wakeUp =>
    cases hs
    exact wakeUp_sound h
  | schedule signalled =>
    cases hs
    exact h.keeps (keeps_signal h signalled) rfl rfl
  | other P s =>
    obtain ⟨hc, hs⟩ := Option.ite_none_right_eq_some.1 hs
    cases hs
    exact h.keeps (keeps_other hc s) rfl rfl

/-- A pending task stays pending until it is made runnable. -/
theorem step_pending {e : Event} (h : q.Sound) (hp : q.Pending t) (hs : q.step e = some q') :
    q'.Pending t ∨ q'.state t = .running := by
  cases e with
  | sleepOn P =>
    obtain ⟨hc, hs⟩ := Option.ite_none_right_eq_some.1 hs
    cases hs
    exact Or.inl ((keeps_sleepOn hc.2.2).pending hp)
  | slept P =>
    obtain ⟨hc, hs⟩ := Option.ite_none_right_eq_some.1 hs
    cases hs
    exact slept_pending hc hp
  | wakeUp =>
    cases hs
    exact wakeUp_pending hp
  | schedule signalled =>
    cases hs
    exact Or.inl ((keeps_signal h signalled).pending hp)
  | other P s =>
    obtain ⟨hc, hs⟩ := Option.ite_none_right_eq_some.1 hs
    cases hs
    exact Or.inl ((keeps_other hc s).pending hp)

/-- **No sleeper is lost.**  At every moment of every run each sleeper is found from the queue, or
from the `tmp` of a task that has been made runnable and has not returned.  When the step at `n` is
a `wake_up` and at a later moment every woken task has returned, every task that slept at `n` has
been made runnable in between. -/
theorem no_sleeper_lost (r : Trace Start step) (n : ℕ) :
    (∀ t, (r.state n).Asleep t → (r.state n).Finds (r.state n).head t ∨ (r.state n).Pending t) ∧
    (r.event n = .wakeUp → ∀ m, n < m → (∀ w, ¬(r.state m).Woken w) →
      ∀ t, (r.state n).Asleep t → ∃ k, n < k ∧ k ≤ m ∧ (r.state k).state t = .running) := by
  have hsound : ∀ n, (r.state n).Sound :=
    r.invariant (fun _ h => start_sound h) (fun _ _ _ h hs => step_sound h hs)
  refine ⟨(hsound n).found, ?_⟩
  intro he m hm hdone t ht
  by_contra hnot
  have hnot : ∀ k, n < k → k ≤ m → (r.state k).state t ≠ .running :=
    fun k h1 h2 h3 => hnot ⟨k, h1, h2, h3⟩
  have hstep := r.steps n
  rw [he] at hstep
  have hfirst : (r.state (n + 1)).Pending t := by
    rcases pending_of_wakeUp (hsound n) ht with hp | hr
    · rw [Option.some.inj hstep] at hp
      exact hp
    · rw [Option.some.inj hstep] at hr
      exact absurd hr (hnot (n + 1) (Nat.lt_succ_self n) hm)
  have hlast : (r.state m).Sound ∧ (r.state m).Pending t := by
    apply r.until (I := fun q => q.Sound ∧ q.Pending t) (G := fun q => q.state t = .running)
      (show n + 1 ≤ m from hm) ⟨hsound _, hfirst⟩
    · intro q e q' hq hs
      rcases step_pending hq.1 hq.2 hs with hp | hr
      · exact Or.inl ⟨step_sound hq.1 hs, hp⟩
      · exact Or.inr hr
    · intro k h1 h2
      exact hnot k (Nat.lt_of_succ_lt h1) h2
  obtain ⟨w, x, hw, -, -⟩ := hlast.2
  exact hdone w hw

/-! ### Two sleepers -/

/-- Tasks 1 and 2 sleep; after one `wake_up`, task 2 runs and then task 1. -/
def twoSleepers : ℕ → Event
  | 0 => .sleepOn 1
  | 1 => .sleepOn 2
  | 2 => .wakeUp
  | 3 => .slept 2
  | 4 => .slept 1
  | _ => .wakeUp

def twoSleepersState : ℕ → WaitQueue
  | 0 => ⟨none, fun _ => .running, fun _ => none⟩
  | n + 1 => ((twoSleepersState n).step (twoSleepers n)).getD (twoSleepersState n)

def twoSleepersTrace : Trace Start step where
  state := twoSleepersState
  event := twoSleepers
  starts := ⟨rfl, fun _ => rfl⟩
  steps := by
    intro n
    have hsome : ((twoSleepersState n).step (twoSleepers n)).isSome = true := by
      match n with
      | 0 => decide
      | 1 => decide
      | 2 => rfl
      | 3 => decide
      | 4 => decide
      | _ + 5 => rfl
    obtain ⟨q, hq⟩ := Option.isSome_iff_exists.1 hsome
    rw [twoSleepersState, hq]
    rfl

theorem no_sleeper_lost_two_sleepers :
    (twoSleepersTrace.state 2).Asleep 1 ∧ (twoSleepersTrace.state 2).Asleep 2 ∧
    ∀ t, (twoSleepersTrace.state 2).Asleep t →
      ∃ k, 2 < k ∧ k ≤ 5 ∧ (twoSleepersTrace.state k).state t = .running := by
  refine ⟨by decide, by decide, ?_⟩
  refine (no_sleeper_lost twoSleepersTrace 2).2 rfl 5 (by decide) ?_
  intro w hw
  have htmp : (twoSleepersTrace.state 5).tmp w = none := by
    show update (twoSleepersTrace.state 4).tmp 1 none w = none
    by_cases h1 : w = 1
    · rw [h1, update_self]
    · by_cases h2 : w = 2
      · rw [h2]
        rfl
      · rw [update_of_ne h1]
        show update (twoSleepersTrace.state 3).tmp 2 none w = none
        rw [update_of_ne h2]
        show update (update (fun _ => none) 1 _) 2 _ w = none
        rw [update_of_ne h2, update_of_ne h1]
  exact hw.2 htmp

end WaitQueue

end OldLinux.Sched
