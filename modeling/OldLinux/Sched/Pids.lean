import OldLinux.Sched.Reaping
import OldLinux.Sched.Scheduler

/-!
# Process ids

`find_empty_process` counts `last_pid` on until no task has it; it wraps after the largest `long`.  The
64 slots have at most 64 pids, so the loop is left after 65 rounds.  Nothing happens between the choice
of the pid and the store of it by `copy_process`, and everything else that changes the table keeps the
pids or empties slots.

* `newPid_spec`: the loop ends with a positive pid that no task has.
* `Thins`: the tasks after a step are tasks from before.
* `pids_unique`: in all runs the pids are different, and `find_empty_process` finds what it should.
-/

namespace OldLinux.Sched.Tree

open Function Lib

variable {σ τ ρ : Tree} {P i : ℕ} {t u : Proc} {pid : ℤ}

/-! ### `find_empty_process` -/

def EAGAIN : ℤ := 11

/-- The loop of `find_empty_process` for the pid, for a bounded number of rounds. -/
def newPid (σ : Tree) : ℕ → ℤ → Option ℤ
  | 0, _ => none
  | n + 1, last_pid =>
    let last_pid := long (last_pid + 1)
    let last_pid := if last_pid < 0 then 1 else last_pid
    if σ.HasPid last_pid then σ.newPid n last_pid else some last_pid

/-- The value of `find_empty_process`. -/
def slotNumber : Option ℕ → ℤ
  | some i => i
  | none => -EAGAIN

/-- `find_empty_process`. -/
def find_empty_process (σ : Tree) (rounds : ℕ) : Option (Tree × ℤ) :=
  (σ.newPid rounds σ.lastPid).map fun last_pid =>
    ({ σ with lastPid := last_pid }, slotNumber σ.emptySlot)

/-- `last_pid` never is negative. -/
def InRange (pid : ℤ) : Prop := 0 ≤ pid ∧ pid < 2 ^ 31

theorem nextPid_eq (h : InRange pid) : nextPid pid = if long (pid + 1) < 0 then 1 else long (pid + 1) := by
  obtain ⟨h0, h1⟩ := h
  unfold nextPid long
  split_ifs <;> omega

theorem nextPid_pos (h : InRange pid) : 0 < nextPid pid ∧ InRange (nextPid pid) := by
  obtain ⟨h0, h1⟩ := h
  unfold nextPid InRange
  split_ifs <;> omega

theorem inRange_iterate (h : InRange pid) (n : ℕ) : InRange (nextPid^[n] pid) := by
  induction n with
  | zero => exact h
  | succ n ih =>
    rw [Function.iterate_succ_apply']
    exact (nextPid_pos ih).2

/-- The candidates one after the other: they go round. -/
theorem iterate_nextPid (h : InRange pid) (n : ℕ) : nextPid^[n + 1] pid = (pid + n) % (2 ^ 31 - 1) + 1 := by
  obtain ⟨h0, h1⟩ := h
  induction n with
  | zero =>
    show nextPid pid = _
    unfold nextPid
    split_ifs <;> omega
  | succ n ih =>
    rw [Function.iterate_succ_apply', ih]
    unfold nextPid
    split_ifs <;> omega

/-- A task has one pid, so 64 of them have not all of 65 candidates. -/
theorem exists_candidate (σ : Tree) (h : InRange pid) : ∃ k ≤ 64, ¬σ.HasPid (nextPid^[k + 1] pid) := by
  by_contra hall
  push Not at hall
  choose! slot hslot hpid using hall
  have hcard : (Finset.range 64).card < (Finset.range 65).card := by decide
  have hmaps : ∀ k ∈ Finset.range 65, slot k ∈ Finset.range 64 := fun k hk =>
    Finset.mem_range.2 (hslot k (Nat.le_of_lt_succ (Finset.mem_range.1 hk)))
  obtain ⟨a, ha, b, hb, hab, heq⟩ := Finset.exists_ne_map_eq_of_card_lt_of_maps_to hcard hmaps
  have ha' := Finset.mem_range.1 ha
  have hb' := Finset.mem_range.1 hb
  have hsame : nextPid^[a + 1] pid = nextPid^[b + 1] pid := by
    have h1 := hpid a (Nat.le_of_lt_succ ha')
    have h2 := hpid b (Nat.le_of_lt_succ hb')
    rw [heq] at h1
    exact Option.some.inj (h1.symm.trans h2)
  rw [iterate_nextPid h, iterate_nextPid h] at hsame
  omega

theorem exists_pidAfter (σ : Tree) (h : InRange σ.lastPid) : ∃ k ≤ 64, σ.PidAfter k := by
  obtain ⟨n, hn, hfree⟩ := exists_candidate σ h
  have hex : ∃ k, ¬σ.HasPid (nextPid^[k + 1] σ.lastPid) := ⟨n, hfree⟩
  refine ⟨Nat.find hex, (Nat.find_min' hex hfree).trans hn, fun j hj => ?_, Nat.find_spec hex⟩
  exact not_not.1 (Nat.find_min hex hj)

/-- The loop is left after the rounds for the candidates that tasks have. -/
theorem newPid_eq (h : InRange pid) {k n : ℕ} (hbusy : ∀ j < k, σ.HasPid (nextPid^[j + 1] pid))
    (hfree : ¬σ.HasPid (nextPid^[k + 1] pid)) (hn : k < n) :
    σ.newPid n pid = some (nextPid^[k + 1] pid) := by
  induction k generalizing pid n with
  | zero =>
    cases n with
    | zero => exact absurd hn (Nat.lt_irrefl 0)
    | succ n =>
      rw [newPid, ← nextPid_eq h]
      exact if_neg hfree
  | succ k ih =>
    cases n with
    | zero => exact absurd hn (Nat.not_lt_zero _)
    | succ n =>
      have hfirst : σ.HasPid (nextPid pid) := hbusy 0 (Nat.succ_pos k)
      rw [newPid, ← nextPid_eq h, if_pos hfirst]
      refine ih (nextPid_pos h).2 (fun j hj => ?_) ?_ (Nat.lt_of_succ_lt_succ hn)
      · exact hbusy (j + 1) (Nat.succ_lt_succ hj)
      · exact hfree

/-- **The loop ends**, after 65 rounds at most. -/
theorem newPid_spec (σ : Tree) (h : InRange σ.lastPid) : ∃ pid, 0 < pid ∧ InRange pid ∧
    ¬σ.HasPid pid ∧ ∀ n, 65 ≤ n → σ.newPid n σ.lastPid = some pid := by
  obtain ⟨k, hk, hbusy, hfree⟩ := exists_pidAfter σ h
  have hrange := inRange_iterate h k
  refine ⟨nextPid^[k + 1] σ.lastPid, ?_, inRange_iterate h (k + 1), hfree, fun n hn => ?_⟩
  · rw [Function.iterate_succ_apply']
    exact (nextPid_pos hrange).1
  · exact newPid_eq h hbusy hfree (by omega)

theorem emptySlot_none (h : σ.emptySlot = none) {i : ℕ} (h1 : 1 ≤ i) (h2 : i < 64) : σ.task i ≠ none := by
  intro hi
  rw [emptySlot, List.find?_eq_none] at h
  refine h i (List.mem_map.2 ⟨i - 1, List.mem_range.2 (by omega), by omega⟩) ?_
  rw [hi]
  rfl

/-- The pid is positive and nobody has it; the value is the number of an empty slot, or `-EAGAIN` if
there is none. -/
structure FindsEmpty (σ τ : Tree) (value : ℤ) : Prop where
  table : τ.task = σ.task
  positive : 0 < τ.lastPid
  range : InRange τ.lastPid
  fresh : ∀ i t, σ.task i = some t → t.pid ≠ τ.lastPid
  full : value = -EAGAIN ↔ ∀ i, 1 ≤ i → i < 64 → σ.task i ≠ none
  empty : value ≠ -EAGAIN → ∃ i : ℕ, value = i ∧ 1 ≤ i ∧ i < 64 ∧ σ.task i = none

theorem find_empty_process_spec (h : InRange σ.lastPid) (hslots : ∀ i t, σ.task i = some t → i < 64) :
    ∃ τ value, FindsEmpty σ τ value ∧ ∀ n, 65 ≤ n → σ.find_empty_process n = some (τ, value) := by
  obtain ⟨pid, hpos, hrange, hfree, hn⟩ := newPid_spec σ h
  have hfresh : ∀ i t, σ.task i = some t → t.pid ≠ pid := by
    intro i t ht heq
    exact hfree ⟨i, hslots i t ht, by rw [ht, ← heq]; rfl⟩
  refine ⟨{ σ with lastPid := pid }, slotNumber σ.emptySlot, ⟨rfl, hpos, hrange, hfresh, ?_, ?_⟩,
    fun n h65 => by rw [find_empty_process, hn n h65, Option.map_some]⟩
  · cases hslot : σ.emptySlot with
    | none => exact ⟨fun _ i h1 h2 => emptySlot_none hslot h1 h2, fun _ => rfl⟩
    | some i =>
      obtain ⟨h1, h2, h3⟩ := emptySlot_spec hslot
      refine ⟨fun heq => ?_, fun hall => absurd h3 (hall i h1 h2)⟩
      rw [slotNumber, EAGAIN] at heq
      omega
  · intro hne
    cases hslot : σ.emptySlot with
    | none =>
      rw [hslot] at hne
      exact absurd rfl hne
    | some i =>
      obtain ⟨h1, h2, h3⟩ := emptySlot_spec hslot
      exact ⟨i, rfl, h1, h2, h3⟩

set_option maxRecDepth 8000 in
/-- After the largest `long` come 0 and 1, which task 0 and init have. -/
example : (find_empty_process { justInit with lastPid := 2 ^ 31 - 1 } 65).map
    (fun r => (r.1.lastPid, r.2)) = some (2, 2) := by rfl

/-- `sys_fork` is `find_empty_process`, and `copy_process` when there is an empty slot. -/
theorem fork_eq (h : InRange σ.lastPid) {k n : ℕ} (hk : σ.PidAfter k) (hn : k < n) (t : Proc)
    (page : Option ℕ) : (σ.find_empty_process n).map (fun r =>
      if r.2 < 0 then r.1 else r.1.copyProcess t r.2.toNat page) = some (σ.fork t k page) := by
  rw [find_empty_process, newPid_eq h hk.1 hk.2 hn, fork]
  have hsame : ({ σ with lastPid := nextPid^[k + 1] σ.lastPid } : Tree).emptySlot = σ.emptySlot := rfl
  rw [hsame]
  cases σ.emptySlot with
  | none => rfl
  | some i => rfl

/-! ### Steps that bring no new pid -/

/-- Every task was there before, with its pid. -/
structure Thins (σ τ : Tree) : Prop where
  back : ∀ i u, τ.task i = some u → ∃ t, σ.task i = some t ∧ t.pid = u.pid
  lastPid : τ.lastPid = σ.lastPid

theorem Thins.trans (h : Thins σ τ) (h' : Thins τ ρ) : Thins σ ρ := by
  refine ⟨fun i u hu => ?_, h'.lastPid.trans h.lastPid⟩
  obtain ⟨v, hv, heq⟩ := h'.back i u hu
  obtain ⟨t, ht, heq'⟩ := h.back i v hv
  exact ⟨t, ht, heq'.trans heq⟩

theorem thins_same (htask : τ.task = σ.task) (hlast : τ.lastPid = σ.lastPid) : Thins σ τ :=
  ⟨fun _ u hu => ⟨u, htask ▸ hu, rfl⟩, hlast⟩

theorem thins_set (ht : σ.task P = some t) (hpid : t.pid = u.pid) : Thins σ (σ.set P u) := by
  refine ⟨fun i v hv => ?_, rfl⟩
  rw [set_task] at hv
  split at hv
  · rename_i hi
    cases hv
    exact ⟨t, hi ▸ ht, hpid⟩
  · exact ⟨v, hv, rfl⟩

theorem thins_map {f : ℕ → Proc → Proc} (hf : ∀ j t, (f j t).pid = t.pid)
    (htask : ∀ i, τ.task i = (σ.task i).map (f i)) (hlast : τ.lastPid = σ.lastPid) : Thins σ τ := by
  refine ⟨fun i u hu => ?_, hlast⟩
  rw [htask] at hu
  obtain ⟨t, ht, rfl⟩ := Option.map_eq_some_iff.1 hu
  exact ⟨t, ht, (hf i t).symm⟩

theorem thins_empty (σ : Tree) (i : ℕ) : Thins σ { σ with task := update σ.task i none } := by
  refine ⟨fun j u hu => ?_, rfl⟩
  by_cases hj : j = i
  · rw [hj] at hu
    exact absurd hu (by simp)
  · exact ⟨u, by simpa [update_of_ne hj] using hu, rfl⟩

theorem thins_addSignal (σ : Tree) (i : ℕ) : Thins σ { σ with task := addSignal σ.task i } :=
  thins_map (fun j t => by split <;> rfl) (addSignal_task σ.task i) rfl

theorem thins_freePage (σ : Tree) (page : ℕ) : Thins σ (σ.freePage page) := by
  rw [freePage]
  split
  · exact thins_same rfl rfl
  · exact thins_same rfl rfl

theorem thins_release (σ : Tree) (page : ℕ) : Thins σ (σ.release page) := by
  rw [release]
  split
  · exact thins_same rfl rfl
  · rename_i i _
    exact (thins_empty σ i).trans (thins_freePage _ page)

theorem thins_tellFather (σ : Tree) (page : ℕ) (father : ℤ) : Thins σ (σ.tellFather page father) := by
  rw [tellFather]
  split
  · exact (thins_same rfl rfl : Thins σ { σ with complained := true }).trans (thins_release _ page)
  · rename_i i _
    exact thins_addSignal σ i

theorem thins_exit (σ : Tree) (P : ℕ) (t : Proc) (code : ℤ) : Thins σ (σ.exit P t code) := by
  have hgive : Thins σ { σ with task := σ.giveAway t.pid } :=
    thins_map (fun j u => by split <;> rfl) (fun _ => rfl) rfl
  have htold : Thins { σ with task := σ.giveAway t.pid } { σ with
      task := if σ.HasZombie t.pid then addSignal (σ.giveAway t.pid) 1 else σ.giveAway t.pid } := by
    split
    · exact thins_addSignal { σ with task := σ.giveAway t.pid } 1
    · exact thins_same rfl rfl
  refine (hgive.trans htold).trans (thins_map (f := fun i u => if i = P then { u with pc := .exiting code }
    else u) (fun i u => by split <;> rfl) (fun i => ?_) rfl)
  rw [exit]
  dsimp only
  by_cases hi : i = P
  · rw [hi, update_self]
    simp
  · rw [update_of_ne hi]
    simp [hi]

theorem thins_exited (ht : σ.task P = some t) (code : ℤ) : Thins σ (σ.exited P t code) := by
  have hset : Thins σ (σ.set P { t with state := .zombie, exitCode := code, pc := .zombie }) :=
    thins_set ht rfl
  have hrecord : Thins (σ.set P { t with state := .zombie, exitCode := code, pc := .zombie })
      { σ.set P { t with state := .zombie, exitCode := code, pc := .zombie } with
        exits := σ.exits ++ [(t.serial, t.pid, code)] } := thins_same rfl rfl
  exact (hset.trans hrecord).trans (thins_tellFather _ t.page t.father)

theorem thins_reap (ht : σ.task P = some t) {v : Proc} (hpid : t.pid = v.pid) (u : Proc) :
    Thins σ (σ.reap P v u) := by
  have hset : Thins σ (σ.set P (reaping v u)) := thins_set ht hpid
  have hrecord : Thins (σ.set P (reaping v u)) { σ.set P (reaping v u) with
      collected := σ.collected ++ [⟨u.serial, v.serial, u.pid, u.exitCode, u.utime, u.stime⟩] } :=
    thins_same rfl rfl
  exact (hset.trans hrecord).trans (thins_release _ u.page)

theorem thins_waitpid (ht : σ.task P = some t) {v : Proc} (hpid : t.pid = v.pid) (pid : ℤ)
    (nohang untraced : Bool) : Thins σ (σ.waitpid P v pid nohang untraced) := by
  rw [waitpid]
  split
  · split
    · exact thins_same rfl rfl
    · rename_i u _
      exact thins_reap ht hpid u
  · exact thins_set ht hpid
  · split
    · exact thins_set ht hpid
    · exact thins_set ht hpid

theorem thins_waited (ht : σ.task P = some t) (pid : ℤ) (nohang untraced : Bool) :
    Thins σ (σ.waited P t pid nohang untraced) := by
  have hpid : t.pid = ({ t with signal := t.signal &&& ~~~sigChld } : Proc).pid := rfl
  rw [waited]
  dsimp only
  split
  · exact thins_waitpid ht hpid pid nohang untraced
  · exact thins_set ht rfl

/-- **A step** brings no new pid, or it is a `fork`. -/
theorem step_pids {e : ℕ × TreeEvent} (h : step σ e = some τ) : Thins σ τ ∨
    ∃ t k page, e.2 = .fork k page ∧ σ.PidAfter k ∧ τ = σ.fork t k page := by
  obtain ⟨P, e⟩ := e
  rw [step] at h
  cases ht : σ.task P with
  | none =>
    simp only [ht] at h
    cases h
  | some t =>
    simp only [ht] at h
    split at h
    · split_ifs at h with hguard
      cases h
      exact .inr ⟨t, _, _, rfl, hguard.2.1, rfl⟩
    · split_ifs at h
      cases h
      exact .inl (thins_exit σ P t _)
    · split_ifs at h
      cases h
      refine .inl (thins_waitpid ht ?_ _ _ _)
      rfl
    · cases h
      exact .inl (thins_set ht rfl)
    · cases h
      exact .inl (thins_exited ht _)
    · cases h
      exact .inl (thins_waited ht _ _ _)
    · cases h
      rw [finish]
      split
      · have hset : Thins σ (σ.set P { t with pc := .user }) := thins_set ht rfl
        exact .inl (hset.trans (thins_same rfl rfl))
      · exact .inl (thins_exit σ P t 11)
    · cases h
      exact .inl (thins_set ht rfl)
    · cases h
      refine .inl (thins_set ht ?_)
      split <;> rfl
    · cases h

/-! ### All runs -/

/-- Different tasks have different pids. -/
def Distinct (σ : Tree) : Prop :=
  ∀ i j t u, σ.task i = some t → σ.task j = some u → t.pid = u.pid → i = j

structure Pids (σ : Tree) : Prop where
  slots : ∀ i t, σ.task i = some t → i < 64
  distinct : Distinct σ
  range : InRange σ.lastPid

theorem Pids.thins (h : Pids σ) (ht : Thins σ τ) : Pids τ := by
  refine ⟨fun i u hu => ?_, fun i j u v hu hv heq => ?_, ?_⟩
  · obtain ⟨t, ht, -⟩ := ht.back i u hu
    exact h.slots i t ht
  · obtain ⟨t, ht1, hp⟩ := ht.back i u hu
    obtain ⟨t', ht2, hp'⟩ := ht.back j v hv
    exact h.distinct i j t t' ht1 ht2 (by rw [hp, hp', heq])
  · rw [ht.lastPid]
    exact h.range

/-- What `fork` does to the table. -/
theorem fork_task (σ : Tree) (t : Proc) (k : ℕ) (page : Option ℕ) :
    (σ.fork t k page).lastPid = nextPid^[k + 1] σ.lastPid ∧
      ∀ i u, (σ.fork t k page).task i = some u → σ.task i = some u ∨
        i < 64 ∧ σ.task i = none ∧ u.pid = nextPid^[k + 1] σ.lastPid ∧
          ∀ j, j ≠ i → (σ.fork t k page).task j = σ.task j := by
  rw [fork]
  cases hslot : ({ σ with lastPid := nextPid^[k + 1] σ.lastPid } : Tree).emptySlot with
  | none => exact ⟨rfl, fun i u hu => .inl hu⟩
  | some nr =>
    obtain ⟨h1, h2, h3⟩ := emptySlot_spec hslot
    cases page with
    | none => exact ⟨rfl, fun i u hu => .inl hu⟩
    | some p =>
      refine ⟨rfl, fun i u hu => ?_⟩
      have htask : ∀ j, (copyProcess { σ with lastPid := nextPid^[k + 1] σ.lastPid } t nr
          (some p)).task j = if j = nr then some (child _ t p) else σ.task j := set_task _ nr _
      dsimp only at hu ⊢
      rw [htask] at hu
      split at hu
      · rename_i hi
        cases hu
        refine .inr ⟨hi ▸ h2, hi ▸ h3, rfl, fun j hj => ?_⟩
        rw [htask, if_neg (hi ▸ hj)]
      · exact .inl hu

/-- The new pid is the only one of its kind. -/
theorem Pids.fork (h : Pids σ) {k : ℕ} (hk : σ.PidAfter k) (t : Proc) (page : Option ℕ) :
    Pids (σ.fork t k page) := by
  obtain ⟨hlast, htask⟩ := fork_task σ t k page
  have hfresh : ∀ j v, σ.task j = some v → v.pid ≠ nextPid^[k + 1] σ.lastPid := by
    intro j v hv heq
    exact hk.2 ⟨j, h.slots j v hv, by rw [hv, ← heq]; rfl⟩
  refine ⟨fun i u hu => ?_, fun i j u v hu hv heq => ?_, ?_⟩
  · rcases htask i u hu with hold | hnew
    · exact h.slots i u hold
    · exact hnew.1
  · rcases htask i u hu with hold | ⟨-, -, hnew, hrest⟩
    · rcases htask j v hv with hold' | ⟨-, -, hnew', -⟩
      · exact h.distinct i j u v hold hold' heq
      · exact absurd (heq.trans hnew') (hfresh i u hold)
    · by_contra hij
      have hold' := (hrest j (Ne.symm hij)).symm.trans hv
      exact hfresh j v hold' (heq.symm.trans hnew)
  · rw [hlast]
    exact inRange_iterate h.range (k + 1)

theorem Pids.step {e : ℕ × TreeEvent} (h : Pids σ) (hs : Tree.step σ e = some τ) : Pids τ := by
  rcases step_pids hs with hthins | ⟨t, k, page, -, hk, rfl⟩
  · exact h.thins hthins
  · exact h.fork hk t page

theorem pids_start (h : Start σ) : Pids σ := by
  obtain ⟨t0, ht0, hp0, -⟩ := h.zero
  obtain ⟨t1, ht1, hp1, -⟩ := h.init
  have hcases : ∀ i t, σ.task i = some t → i = 0 ∧ t.pid = 0 ∨ i = 1 ∧ t.pid = 1 := by
    intro i t ht
    rcases Nat.lt_trichotomy i 1 with hi | hi | hi
    · obtain rfl : i = 0 := by omega
      rw [ht0] at ht
      cases ht
      exact .inl ⟨rfl, hp0⟩
    · rw [hi, ht1] at ht
      cases ht
      exact .inr ⟨hi, hp1⟩
    · rw [h.others i hi] at ht
      cases ht
  refine ⟨fun i t ht => ?_, fun i j t u ht hu heq => ?_, ?_⟩
  · rcases hcases i t ht with ⟨rfl, -⟩ | ⟨rfl, -⟩
    · decide
    · decide
  · rcases hcases i t ht with ⟨rfl, hp⟩ | ⟨rfl, hp⟩
    · rcases hcases j u hu with ⟨rfl, -⟩ | ⟨rfl, hp'⟩
      · rfl
      · omega
    · rcases hcases j u hu with ⟨rfl, hp'⟩ | ⟨rfl, -⟩
      · omega
      · rfl
  · rw [h.lastPid]
    exact ⟨by decide, by decide⟩

/-- A step gives a pid that is positive and that nobody has, and to nobody else another one. -/
def GivesFresh (σ τ : Tree) : Prop :=
  ∀ i u, τ.task i = some u → (∃ t, σ.task i = some t ∧ t.pid = u.pid) ∨
    σ.task i = none ∧ 0 < u.pid ∧ ∀ j t, σ.task j = some t → t.pid ≠ u.pid

theorem Pids.givesFresh {e : ℕ × TreeEvent} (h : Pids σ) (hs : Tree.step σ e = some τ) : GivesFresh σ τ := by
  intro i u hu
  rcases step_pids hs with hthins | ⟨t, k, page, -, hk, rfl⟩
  · exact .inl (hthins.back i u hu)
  · rcases (fork_task σ t k page).2 i u hu with hold | ⟨-, hnone, hpid, -⟩
    · exact .inl ⟨u, hold, rfl⟩
    · refine .inr ⟨hnone, ?_, fun j v hv heq => ?_⟩
      · rw [hpid, Function.iterate_succ_apply']
        exact (nextPid_pos (inRange_iterate h.range k)).1
      · exact hk.2 ⟨j, h.slots j v hv, by rw [hv, ← hpid, ← heq]; rfl⟩

/-- **Process ids are unique.**  In every run of `fork`, `exit` and `waitpid` no two tasks have the same
pid; `find_empty_process` ends, with a pid nobody has and an empty slot if there is one; and a step
gives no other pid than such a one. -/
theorem pids_unique (h : Reach Start step (fun _ _ => True) σ) :
    Distinct σ ∧ (∃ τ value, FindsEmpty σ τ value ∧ ∀ n, 65 ≤ n → σ.find_empty_process n = some (τ, value)) ∧
      ∀ e τ, step σ e = some τ → GivesFresh σ τ := by
  have hpids : Pids σ := Reach.invariant (fun _ hs => pids_start hs)
    (fun _ _ _ hI _ hs => hI.step hs) h
  exact ⟨hpids.distinct, find_empty_process_spec hpids.range hpids.slots, fun _ _ hs => hpids.givesFresh hs⟩

/-- Init forks a child. -/
theorem pids_unique_fork : ∃ σ, step justInit (1, .fork 0 (some 2)) = some σ ∧ Distinct σ := by
  obtain ⟨σ, hstep⟩ : ∃ σ, step justInit (1, .fork 0 (some 2)) = some σ := ⟨_, rfl⟩
  have hreach : Reach Start step (fun _ _ => True) σ := (Reach.start justInit_start).step _ trivial hstep
  exact ⟨σ, hstep, (pids_unique hreach).1⟩

end OldLinux.Sched.Tree
