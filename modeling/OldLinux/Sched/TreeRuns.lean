import OldLinux.Sched.Tree

/-!
# No process is lost

Every process but task 0 and init has a father that is alive, and every process that has exited is
a zombie in its slot until its father has collected it, once.  The invariant has three parts: what tells
the tasks apart, who is whose father, and what the history says of the processes that have exited.
-/

namespace OldLinux.Sched.Tree

open Function Lib

variable {σ τ : Tree} {P i j : ℕ} {t u : Proc}

/-! ### The invariant -/

/-- What tells the tasks apart, and the times they have collected. -/
structure Table (σ : Tree) : Prop where
  slots : ∀ i t, σ.task i = some t → i < 64
  pids : ∀ i j t u, σ.task i = some t → σ.task j = some u → t.pid = u.pid → i = j
  pages : ∀ i j t u, 0 < i → 0 < j → σ.task i = some t → σ.task j = some u → t.page = u.page → i = j
  used : ∀ i t, 0 < i → σ.task i = some t → t.page ∈ σ.used
  serials : ∀ i j t u, σ.task i = some t → σ.task j = some u → t.serial = u.serial → i = j
  born : ∀ i t, σ.task i = some t → t.serial < σ.born
  live : ∀ i t, σ.task i = some t → ∀ r ∈ σ.collected, r.child ≠ t.serial
  old : ∀ r ∈ σ.collected, r.child < σ.born ∧ r.father < σ.born
  once : (σ.collected.map Collected.child).Nodup
  cutime : ∀ i t, σ.task i = some t →
    t.cutime = ((σ.collected.filter (·.father = t.serial)).map Collected.utime).sum
  cstime : ∀ i t, σ.task i = some t →
    t.cstime = ((σ.collected.filter (·.father = t.serial)).map Collected.stime).sum

/-- The process is neither a zombie nor on the way to become one. -/
def Stays (t : Proc) : Prop := t.pc ≠ .zombie ∧ ∀ code, t.pc ≠ .exiting code

structure Family (σ : Tree) : Prop where
  zero : ∃ t, σ.task 0 = some t ∧ t.pid = 0 ∧ t.pc = .user
  init : ∃ t, σ.task 1 = some t ∧ t.pid = 1 ∧ Stays t
  zombie : ∀ i t, σ.task i = some t → (t.state = .zombie ↔ t.pc = .zombie)
  father : ∀ i t, 1 < i → σ.task i = some t → t.father ≠ 0 ∧ ∃ j u, σ.task j = some u ∧
    u.pid = t.father ∧ Stays u
  clean : σ.complained = false ∧ σ.panicked = false

structure Records (σ : Tree) : Prop where
  exits : ∀ s p c, (s, p, c) ∈ σ.exits →
    (∃ i t, σ.task i = some t ∧ t.serial = s ∧ t.pc = .zombie ∧ t.pid = p ∧ t.exitCode = c) ∨
    ∃ r ∈ σ.collected, r.child = s ∧ r.pid = p ∧ r.code = c
  returns : ∀ r ∈ σ.collected, (r.child, r.pid, r.code) ∈ σ.returned ∨
    ∃ i t, σ.task i = some t ∧ t.serial = r.father ∧ t.pc = .reaped r.pid r.code r.child
  returned : ∀ x ∈ σ.returned, ∃ r ∈ σ.collected, x = (r.child, r.pid, r.code)
  returnedOnce : (σ.returned.map Prod.fst).Nodup
  pending : ∀ i t f c s, σ.task i = some t → t.pc = .reaped f c s →
    (∃ r ∈ σ.collected, r.child = s ∧ r.father = t.serial ∧ r.pid = f ∧ r.code = c) ∧
    s ∉ σ.returned.map Prod.fst

structure Sound (σ : Tree) : Prop extends Table σ, Family σ, Records σ

/-! ### Steps that keep who is who -/

/-- The fields that tell a process apart. -/
structure Same (t u : Proc) : Prop where
  pid : u.pid = t.pid
  page : u.page = t.page
  serial : u.serial = t.serial
  cutime : u.cutime = t.cutime
  cstime : u.cstime = t.cstime

/-- Every slot has the process it had. -/
structure Kept (σ τ : Tree) : Prop where
  back : ∀ i u, τ.task i = some u → ∃ t, σ.task i = some t ∧ Same t u
  used : τ.used = σ.used
  born : τ.born = σ.born
  collected : τ.collected = σ.collected

theorem Table.kept (T : Table σ) (K : Kept σ τ) : Table τ where
  slots := by
    intro i u hu
    obtain ⟨t, ht, -⟩ := K.back i u hu
    exact T.slots i t ht
  pids := by
    intro i j u v hu hv heq
    obtain ⟨t, ht, hs⟩ := K.back i u hu
    obtain ⟨t', ht', hs'⟩ := K.back j v hv
    exact T.pids i j t t' ht ht' (by rw [← hs.pid, ← hs'.pid, heq])
  pages := by
    intro i j u v hi hj hu hv heq
    obtain ⟨t, ht, hs⟩ := K.back i u hu
    obtain ⟨t', ht', hs'⟩ := K.back j v hv
    exact T.pages i j t t' hi hj ht ht' (by rw [← hs.page, ← hs'.page, heq])
  used := by
    intro i u hi hu
    obtain ⟨t, ht, hs⟩ := K.back i u hu
    rw [K.used, hs.page]
    exact T.used i t hi ht
  serials := by
    intro i j u v hu hv heq
    obtain ⟨t, ht, hs⟩ := K.back i u hu
    obtain ⟨t', ht', hs'⟩ := K.back j v hv
    exact T.serials i j t t' ht ht' (by rw [← hs.serial, ← hs'.serial, heq])
  born := by
    intro i u hu
    obtain ⟨t, ht, hs⟩ := K.back i u hu
    rw [K.born, hs.serial]
    exact T.born i t ht
  live := by
    intro i u hu r hr
    obtain ⟨t, ht, hs⟩ := K.back i u hu
    rw [K.collected] at hr
    rw [hs.serial]
    exact T.live i t ht r hr
  old := by
    intro r hr
    rw [K.collected] at hr
    rw [K.born]
    exact T.old r hr
  once := by
    rw [K.collected]
    exact T.once
  cutime := by
    intro i u hu
    obtain ⟨t, ht, hs⟩ := K.back i u hu
    rw [K.collected, hs.cutime, hs.serial]
    exact T.cutime i t ht
  cstime := by
    intro i u hu
    obtain ⟨t, ht, hs⟩ := K.back i u hu
    rw [K.collected, hs.cstime, hs.serial]
    exact T.cstime i t ht

theorem set_task (σ : Tree) (P : ℕ) (t : Proc) (i : ℕ) :
    (σ.set P t).task i = if i = P then some t else σ.task i := update_apply ..

theorem kept_set (ht : σ.task P = some t) (hs : Same t u) : Kept σ (σ.set P u) where
  back := by
    intro i v hv
    rw [set_task] at hv
    split at hv
    · rename_i hi
      cases hv
      rw [hi]
      exact ⟨t, ht, hs⟩
    · exact ⟨v, hv, ⟨rfl, rfl, rfl, rfl, rfl⟩⟩
  used := rfl
  born := rfl
  collected := rfl

/-- Every process is where it was, as far as the records are concerned. -/
def Carried (σ τ : Tree) : Prop := ∀ i v, σ.task i = some v → ∃ w, τ.task i = some w ∧ Same v w ∧
  (v.pc = .zombie → w.pc = .zombie ∧ w.exitCode = v.exitCode) ∧
  ∀ f c s, w.pc = .reaped f c s ↔ v.pc = .reaped f c s

theorem Records.carried (h : Records σ) (K : Kept σ τ) (hfwd : Carried σ τ)
    (hexits : ∀ s p c, (s, p, c) ∈ τ.exits → (s, p, c) ∈ σ.exits ∨
      ∃ i t, τ.task i = some t ∧ t.serial = s ∧ t.pc = .zombie ∧ t.pid = p ∧ t.exitCode = c)
    (hreturned : τ.returned = σ.returned) : Records τ where
  exits := by
    intro s p c hmem
    rw [K.collected]
    rcases hexits s p c hmem with hmem | hnew
    swap
    · exact Or.inl hnew
    rcases h.exits s p c hmem with ⟨i, v, hv, h1, h2, h3, h4⟩ | hr
    · obtain ⟨w, hw, hsame, hz, -⟩ := hfwd i v hv
      exact Or.inl ⟨i, w, hw, hsame.serial.trans h1, (hz h2).1, hsame.pid.trans h3, (hz h2).2.trans h4⟩
    · exact Or.inr hr
  returns := by
    intro r hr
    rw [K.collected] at hr
    rw [hreturned]
    rcases h.returns r hr with h1 | ⟨i, v, hv, h1, h2⟩
    · exact Or.inl h1
    · obtain ⟨w, hw, hsame, -, hre⟩ := hfwd i v hv
      exact Or.inr ⟨i, w, hw, hsame.serial.trans h1, (hre _ _ _).2 h2⟩
  returned := by
    rw [hreturned, K.collected]
    exact h.returned
  returnedOnce := by
    rw [hreturned]
    exact h.returnedOnce
  pending := by
    intro i v f c s hv hpc
    obtain ⟨w, hw, hsame⟩ := K.back i v hv
    obtain ⟨w', hw', -, -, hre⟩ := hfwd i w hw
    rw [hv] at hw'
    cases hw'
    rw [hsame.serial, hreturned, K.collected]
    exact h.pending i w f c s hw ((hre f c s).1 hpc)

/-- A process goes on and stays, if it stayed. -/
theorem Family.set (h : Family σ) (ht : σ.task P = some t) (hpid' : u.pid = t.pid)
    (hP : P ≠ 0 ∨ u.pc = .user) (hfather : u.father = t.father)
    (hstate : u.state = .zombie ↔ u.pc = .zombie) (hstays : Stays t → Stays u) :
    Family (σ.set P u) := by
  have hstay : ∀ i v, σ.task i = some v → Stays v → ∃ w, (σ.set P u).task i = some w ∧
      w.pid = v.pid ∧ Stays w := by
    intro i v hv hst
    rw [set_task]
    by_cases hi : i = P
    · rw [hi, ht] at hv
      cases hv
      exact ⟨u, if_pos hi, hpid', hstays hst⟩
    · exact ⟨v, by rw [if_neg hi, hv], rfl, hst⟩
  refine ⟨?_, ?_, ?_, ?_, h.clean⟩
  · obtain ⟨v, hv, hpid, hpc⟩ := h.zero
    rw [set_task]
    by_cases h0 : 0 = P
    · rw [h0, ht] at hv
      cases hv
      rcases hP with hP | hP
      · exact absurd h0.symm hP
      · exact ⟨u, if_pos h0, hpid'.trans hpid, hP⟩
    · exact ⟨v, by rw [if_neg h0, hv], hpid, hpc⟩
  · obtain ⟨v, hv, hpid, hst⟩ := h.init
    obtain ⟨w, hw, hwp, hws⟩ := hstay 1 v hv hst
    exact ⟨w, hw, hwp.trans hpid, hws⟩
  · intro i v hv
    rw [set_task] at hv
    split at hv
    · cases hv
      exact hstate
    · exact h.zombie i v hv
  · intro i v hi hv
    have hold : ∃ w, σ.task i = some w ∧ v.father = w.father := by
      rw [set_task] at hv
      split at hv
      · rename_i hiP
        cases hv
        exact ⟨t, by rw [hiP, ht], hfather⟩
      · exact ⟨v, hv, rfl⟩
    obtain ⟨w, hw, hf⟩ := hold
    rw [hf]
    obtain ⟨h0, j, x, hx, hpid, hst⟩ := h.father i w hi hw
    obtain ⟨y, hy, hyp, hys⟩ := hstay j x hx hst
    exact ⟨h0, j, y, hy, hyp.trans hpid, hys⟩

/-- A process goes on, neither towards its end nor out of a `waitpid` that has collected somebody. -/
theorem Sound.set (h : Sound σ) (ht : σ.task P = some t) (hs : Same t u) (hP : P ≠ 0 ∨ u.pc = .user)
    (hfather : u.father = t.father) (hexit : u.exitCode = t.exitCode)
    (hstate : u.state = .zombie ↔ u.pc = .zombie) (hstays : Stays t → Stays u)
    (hzombie : t.pc = .zombie → u.pc = .zombie)
    (hreaped : ∀ f c s, u.pc = .reaped f c s ↔ t.pc = .reaped f c s) : Sound (σ.set P u) := by
  have hcarried : Carried σ (σ.set P u) := by
    intro i v hv
    rw [set_task]
    by_cases hi : i = P
    · rw [hi, ht] at hv
      cases hv
      exact ⟨u, if_pos hi, hs, fun h => ⟨hzombie h, hexit⟩, hreaped⟩
    · exact ⟨v, by rw [if_neg hi, hv], ⟨rfl, rfl, rfl, rfl, rfl⟩, fun h => ⟨h, rfl⟩,
        fun _ _ _ => Iff.rfl⟩
  exact { h.toTable.kept (kept_set ht hs), h.toFamily.set ht hs.pid hP hfather hstate hstays,
    h.toRecords.carried (kept_set ht hs) hcarried (fun _ _ _ h => Or.inl h) rfl with }

/-! ### `fork` -/

/-- The history and the flags do not see the last pid. -/
theorem Sound.lastPid (h : Sound σ) (pid : ℤ) : Sound { σ with lastPid := pid } where
  slots := h.slots
  pids := h.pids
  pages := h.pages
  used := h.used
  serials := h.serials
  born := h.born
  live := h.live
  old := h.old
  once := h.once
  cutime := h.cutime
  cstime := h.cstime
  zero := h.zero
  init := h.init
  zombie := h.zombie
  father := h.father
  clean := h.clean
  exits := h.exits
  returns := h.returns
  returned := h.returned
  returnedOnce := h.returnedOnce
  pending := h.pending

theorem emptySlot_spec {nr : ℕ} (h : σ.emptySlot = some nr) : 0 < nr ∧ nr < 64 ∧ σ.task nr = none := by
  have hmem := List.mem_of_find?_eq_some h
  have hnone := List.find?_some h
  obtain ⟨k, hk, rfl⟩ := List.mem_map.1 hmem
  have := List.mem_range.1 hk
  exact ⟨Nat.succ_pos k, by omega, Option.isNone_iff_eq_none.1 hnone⟩

/-- The child `copy_process` makes. -/
def child (σ : Tree) (t : Proc) (p : ℕ) : Proc :=
  { t with
    pid := σ.lastPid, father := t.pid, state := .running, signal := 0, utime := 0, stime := 0,
    cutime := 0, cstime := 0, page := p, pc := .user, serial := σ.born }

theorem filter_father_fresh (T : Table σ) :
    σ.collected.filter (·.father = σ.born) = [] := by
  rw [List.filter_eq_nil_iff]
  intro r hr h
  have h1 := (T.old r hr).2
  simp only [decide_eq_true_eq] at h
  omega

theorem copyProcess_table (T : Table σ) {nr p : ℕ} (hnr : nr < 64)
    (hnone : σ.task nr = none) (hpid : ¬σ.HasPid σ.lastPid) (hp : p ∉ σ.used) :
    Table (σ.copyProcess t nr (some p)) := by
  have htask : ∀ i, (σ.copyProcess t nr (some p)).task i =
      if i = nr then some (child σ t p) else σ.task i := fun i => set_task σ nr _ i
  have hold : ∀ i v, (σ.copyProcess t nr (some p)).task i = some v →
      (i = nr ∧ v = child σ t p) ∨ i ≠ nr ∧ σ.task i = some v := by
    intro i v hv
    rw [htask] at hv
    split at hv
    · cases hv
      exact Or.inl ⟨by assumption, rfl⟩
    · exact Or.inr ⟨by assumption, hv⟩
  have hfresh : ∀ i v, σ.task i = some v → v.pid ≠ σ.lastPid := by
    intro i v hv heq
    exact hpid ⟨i, T.slots i v hv, by rw [hv, ← heq]; rfl⟩
  refine ⟨?_, ?_, ?_, ?_, ?_, ?_, ?_, ?_, T.once, ?_, ?_⟩
  · intro i v hv
    rcases hold i v hv with ⟨rfl, -⟩ | ⟨-, hv'⟩
    · exact hnr
    · exact T.slots i v hv'
  · intro i j v w hv hw heq
    rcases hold i v hv with ⟨rfl, rfl⟩ | ⟨-, hv'⟩
    · rcases hold j w hw with ⟨rfl, -⟩ | ⟨-, hw'⟩
      · rfl
      · exact absurd heq.symm (hfresh j w hw')
    · rcases hold j w hw with ⟨rfl, rfl⟩ | ⟨-, hw'⟩
      · exact absurd heq (hfresh i v hv')
      · exact T.pids i j v w hv' hw' heq
  · intro i j v w hi hj hv hw heq
    rcases hold i v hv with ⟨rfl, rfl⟩ | ⟨-, hv'⟩
    · rcases hold j w hw with ⟨rfl, -⟩ | ⟨-, hw'⟩
      · rfl
      · have hused := T.used j w hj hw'
        rw [← heq] at hused
        exact absurd hused hp
    · rcases hold j w hw with ⟨rfl, rfl⟩ | ⟨-, hw'⟩
      · have hused := T.used i v hi hv'
        rw [heq] at hused
        exact absurd hused hp
      · exact T.pages i j v w hi hj hv' hw' heq
  · intro i v hi hv
    show v.page ∈ insert p σ.used
    rcases hold i v hv with ⟨-, rfl⟩ | ⟨-, hv'⟩
    · exact Finset.mem_insert_self ..
    · exact Finset.mem_insert_of_mem (T.used i v hi hv')
  · intro i j v w hv hw heq
    rcases hold i v hv with ⟨rfl, rfl⟩ | ⟨-, hv'⟩
    · rcases hold j w hw with ⟨rfl, -⟩ | ⟨-, hw'⟩
      · rfl
      · have hlt := T.born j w hw'
        have hserial : σ.born = w.serial := heq
        omega
    · rcases hold j w hw with ⟨rfl, rfl⟩ | ⟨-, hw'⟩
      · have hlt := T.born i v hv'
        have hserial : v.serial = σ.born := heq
        omega
      · exact T.serials i j v w hv' hw' heq
  · intro i v hv
    show v.serial < σ.born + 1
    rcases hold i v hv with ⟨-, rfl⟩ | ⟨-, hv'⟩
    · exact Nat.lt_succ_self _
    · exact Nat.lt_succ_of_lt (T.born i v hv')
  · intro i v hv r hr
    rcases hold i v hv with ⟨-, rfl⟩ | ⟨-, hv'⟩
    · have hlt := (T.old r hr).1
      show r.child ≠ σ.born
      omega
    · exact T.live i v hv' r hr
  · intro r hr
    have hlt := T.old r hr
    show r.child < σ.born + 1 ∧ r.father < σ.born + 1
    omega
  · intro i v hv
    rcases hold i v hv with ⟨-, rfl⟩ | ⟨-, hv'⟩
    · show 0 = ((σ.collected.filter (·.father = σ.born)).map Collected.utime).sum
      rw [filter_father_fresh T]
      rfl
    · exact T.cutime i v hv'
  · intro i v hv
    rcases hold i v hv with ⟨-, rfl⟩ | ⟨-, hv'⟩
    · show 0 = ((σ.collected.filter (·.father = σ.born)).map Collected.stime).sum
      rw [filter_father_fresh T]
      rfl
    · exact T.cstime i v hv'

theorem copyProcess_sound (h : Sound σ) (ht : σ.task P = some t) (hpid0 : t.pid ≠ 0) (hst : Stays t)
    {nr p : ℕ} (hnr0 : 0 < nr) (hnr : nr < 64) (hnone : σ.task nr = none)
    (hpid : ¬σ.HasPid σ.lastPid) (hp : p ∉ σ.used) : Sound (σ.copyProcess t nr (some p)) := by
  have htask : ∀ i, (σ.copyProcess t nr (some p)).task i =
      if i = nr then some (child σ t p) else σ.task i := fun i => set_task σ nr _ i
  have hkeep : ∀ i v, σ.task i = some v → (σ.copyProcess t nr (some p)).task i = some v := by
    intro i v hv
    rw [htask, if_neg, hv]
    rintro rfl
    rw [hnone] at hv
    cases hv
  have hold : ∀ i v, (σ.copyProcess t nr (some p)).task i = some v → v = child σ t p ∨ σ.task i = some v := by
    intro i v hv
    rw [htask] at hv
    split at hv
    · cases hv
      exact Or.inl rfl
    · exact Or.inr hv
  refine { copyProcess_table h.toTable hnr hnone hpid hp with
    zero := ?_, init := ?_, zombie := ?_, father := ?_, clean := h.clean, exits := ?_, returns := ?_,
    returned := h.returned, returnedOnce := h.returnedOnce, pending := ?_ }
  · obtain ⟨v, hv, hrest⟩ := h.zero
    exact ⟨v, hkeep 0 v hv, hrest⟩
  · obtain ⟨v, hv, hrest⟩ := h.init
    exact ⟨v, hkeep 1 v hv, hrest⟩
  · intro i v hv
    rcases hold i v hv with rfl | hv
    · exact ⟨fun h => (by cases h), fun h => (by cases h)⟩
    · exact h.zombie i v hv
  · intro i v hi hv
    rcases hold i v hv with rfl | hv
    · exact ⟨hpid0, P, t, hkeep P t ht, rfl, hst⟩
    · obtain ⟨h0, j, x, hx, hrest⟩ := h.father i v hi hv
      exact ⟨h0, j, x, hkeep j x hx, hrest⟩
  · intro s q c hmem
    rcases h.exits s q c hmem with ⟨i, v, hv, hrest⟩ | hr
    · exact Or.inl ⟨i, v, hkeep i v hv, hrest⟩
    · exact Or.inr hr
  · intro r hr
    rcases h.returns r hr with h1 | ⟨i, v, hv, hrest⟩
    · exact Or.inl h1
    · exact Or.inr ⟨i, v, hkeep i v hv, hrest⟩
  · intro i v f c s hv hpc
    rcases hold i v hv with rfl | hv
    · cases hpc
    · exact h.pending i v f c s hv hpc

/-- Only task 0 has the pid 0. -/
theorem Sound.pid_ne_zero (h : Sound σ) (ht : σ.task P = some t) (hP : P ≠ 0) : t.pid ≠ 0 := by
  obtain ⟨v, hv, hpid, -⟩ := h.zero
  intro h0
  exact hP (h.pids P 0 t v ht hv (by rw [h0, hpid]))

theorem stays_of_user (h : t.pc = .user) : Stays t := by
  rw [Stays, h]
  exact ⟨fun h => (by cases h), fun _ h => (by cases h)⟩

theorem fork_sound (h : Sound σ) (ht : σ.task P = some t) (hpc : t.pc = .user) (hP : P ≠ 0) {k : ℕ}
    {page : Option ℕ} (hk : σ.PidAfter k) (hpage : ∀ p ∈ page, p ∉ σ.used) :
    Sound (σ.fork t k page) := by
  have h' := h.lastPid (nextPid^[k + 1] σ.lastPid)
  rw [fork]
  cases hslot : ({ σ with lastPid := nextPid^[k + 1] σ.lastPid } : Tree).emptySlot with
  | none => exact h'
  | some nr =>
    cases page with
    | none => exact h'
    | some p =>
      obtain ⟨h0, h1, h2⟩ := emptySlot_spec hslot
      exact copyProcess_sound h' ht (h.pid_ne_zero ht hP) (stays_of_user hpc) h0 h1 h2 hk.2 (hpage p rfl)

/-! ### `exit` -/

theorem addSignal_task (task : ℕ → Option Proc) (i j : ℕ) : addSignal task i j =
    (task j).map fun u => if j = i then { u with signal := u.signal ||| sigChld } else u := by
  rw [addSignal, update_apply]
  split
  · rename_i hij
    simp [hij]
  · simp

/-- What `exit` leaves of each process. -/
theorem exit_task (T : Table σ) (P : ℕ) (t : Proc) (code : ℤ) (i : ℕ) :
    (σ.task i = none → (σ.exit P t code).task i = none) ∧
    ∀ v, σ.task i = some v → ∃ w, (σ.exit P t code).task i = some w ∧ Same v w ∧
      w.exitCode = v.exitCode ∧ w.state = v.state ∧
      w.father = (if v.father = t.pid then 1 else v.father) ∧
      w.pc = if i = P then .exiting code else v.pc := by
  have hgive : ∀ v, σ.task i = some v → ∃ w, σ.giveAway t.pid i = some w ∧ Same v w ∧
      w.exitCode = v.exitCode ∧ w.state = v.state ∧
      w.father = (if v.father = t.pid then 1 else v.father) ∧ w.pc = v.pc := by
    intro v hv
    have hi := T.slots i v hv
    rw [giveAway, hv, Option.map_some]
    by_cases hf : v.father = t.pid
    · rw [if_pos ⟨hf, hi⟩, if_pos hf]
      exact ⟨_, rfl, ⟨rfl, rfl, rfl, rfl, rfl⟩, rfl, rfl, rfl, rfl⟩
    · rw [if_neg (fun h => hf h.1), if_neg hf]
      exact ⟨_, rfl, ⟨rfl, rfl, rfl, rfl, rfl⟩, rfl, rfl, rfl, rfl⟩
  obtain ⟨task, htask⟩ : ∃ task, (if σ.HasZombie t.pid then addSignal (σ.giveAway t.pid) 1
    else σ.giveAway t.pid) = task := ⟨_, rfl⟩
  have hsome : ∀ v, σ.task i = some v → ∃ w, task i = some w ∧ Same v w ∧
      w.exitCode = v.exitCode ∧ w.state = v.state ∧
      w.father = (if v.father = t.pid then 1 else v.father) ∧ w.pc = v.pc := by
    intro v hv
    obtain ⟨w, hw, hsame, h1, h2, h3, h4⟩ := hgive v hv
    rw [← htask]
    split
    · rw [addSignal_task, hw, Option.map_some]
      refine ⟨_, rfl, ?_⟩
      split
      · exact ⟨⟨hsame.pid, hsame.page, hsame.serial, hsame.cutime, hsame.cstime⟩, h1, h2, h3, h4⟩
      · exact ⟨hsame, h1, h2, h3, h4⟩
    · exact ⟨w, hw, hsame, h1, h2, h3, h4⟩
  have hnone : σ.task i = none → task i = none := by
    intro hv
    have hg : σ.giveAway t.pid i = none := by
      rw [giveAway, hv]
      rfl
    rw [← htask]
    split
    · rw [addSignal_task, hg]
      rfl
    · exact hg
  have hexit : (σ.exit P t code).task i =
      if i = P then (task P).map (fun u => { u with pc := .exiting code }) else task i := by
    rw [exit]
    simp only [htask, update_apply]
  constructor
  · intro hv
    rw [hexit]
    split
    · rename_i hi
      rw [← hi, hnone hv]
      rfl
    · exact hnone hv
  · intro v hv
    obtain ⟨w, hw, hsame, h1, h2, h3, h4⟩ := hsome v hv
    rw [hexit]
    split
    · rename_i hi
      rw [← hi, hw, Option.map_some]
      exact ⟨_, rfl, ⟨hsame.pid, hsame.page, hsame.serial, hsame.cutime, hsame.cstime⟩, h1, h2, h3, rfl⟩
    · exact ⟨w, hw, hsame, h1, h2, h3, h4⟩

/-- **The children are given away** before the process is on its way out. -/
theorem exit_sound (h : Sound σ) (ht : σ.task P = some t) (hpc : t.pc = .user) (hP0 : P ≠ 0)
    (hP1 : P ≠ 1) (code : ℤ) : Sound (σ.exit P t code) := by
  have hfwd := fun i => (exit_task h.toTable P t code i).2
  have hback : ∀ i w, (σ.exit P t code).task i = some w → ∃ v, σ.task i = some v ∧ Same v w ∧
      w.exitCode = v.exitCode ∧ w.state = v.state ∧
      w.father = (if v.father = t.pid then 1 else v.father) ∧
      w.pc = if i = P then .exiting code else v.pc := by
    intro i w hw
    cases hv : σ.task i with
    | none =>
      rw [(exit_task h.toTable P t code i).1 hv] at hw
      cases hw
    | some v =>
      obtain ⟨w', hw', hrest⟩ := hfwd i v hv
      rw [hw] at hw'
      cases hw'
      exact ⟨v, rfl, hrest⟩
  have K : Kept σ (σ.exit P t code) := by
    refine ⟨?_, rfl, rfl, rfl⟩
    intro i w hw
    obtain ⟨v, hv, hsame, -⟩ := hback i w hw
    exact ⟨v, hv, hsame⟩
  have hcarried : Carried σ (σ.exit P t code) := by
    intro i v hv
    obtain ⟨w, hw, hsame, h1, -, -, h4⟩ := hfwd i v hv
    refine ⟨w, hw, hsame, ?_, ?_⟩
    · intro hz
      rw [h4, if_neg]
      · exact ⟨hz, h1⟩
      · rintro rfl
        rw [ht] at hv
        cases hv
        rw [hpc] at hz
        cases hz
    · intro f c s
      rw [h4]
      split
      · rename_i hi
        rw [hi, ht] at hv
        cases hv
        rw [hpc]
        exact ⟨fun h => (by cases h), fun h => (by cases h)⟩
      · exact Iff.rfl
  have hstay : ∀ i v, σ.task i = some v → Stays v → i ≠ P →
      ∃ w, (σ.exit P t code).task i = some w ∧ w.pid = v.pid ∧ Stays w := by
    intro i v hv hst hi
    obtain ⟨w, hw, hsame, -, -, -, h4⟩ := hfwd i v hv
    rw [if_neg hi] at h4
    exact ⟨w, hw, hsame.pid, by rw [Stays, h4]; exact hst⟩
  refine { h.toTable.kept K, h.toRecords.carried K hcarried (fun _ _ _ h => Or.inl h) rfl with
    zero := ?_, init := ?_, zombie := ?_, father := ?_, clean := h.clean }
  · obtain ⟨v, hv, hpid, hu⟩ := h.zero
    obtain ⟨w, hw, hsame, -, -, -, h4⟩ := hfwd 0 v hv
    rw [if_neg (Ne.symm hP0)] at h4
    exact ⟨w, hw, hsame.pid.trans hpid, h4.trans hu⟩
  · obtain ⟨v, hv, hpid, hst⟩ := h.init
    obtain ⟨w, hw, hwp, hws⟩ := hstay 1 v hv hst (Ne.symm hP1)
    exact ⟨w, hw, hwp.trans hpid, hws⟩
  · intro i w hw
    obtain ⟨v, hv, -, -, h2, -, h4⟩ := hback i w hw
    rw [h2, h4, h.zombie i v hv]
    split
    · rename_i hi
      rw [hi, ht] at hv
      cases hv
      rw [hpc]
      exact ⟨fun h => (by cases h), fun h => (by cases h)⟩
    · exact Iff.rfl
  · intro i w hi hw
    obtain ⟨v, hv, -, -, -, h3, -⟩ := hback i w hw
    rw [h3]
    split
    · -- the father is init now
      obtain ⟨x, hx, hpid, hst⟩ := h.init
      obtain ⟨y, hy, hyp, hys⟩ := hstay 1 x hx hst (Ne.symm hP1)
      exact ⟨by decide, 1, y, hy, hyp.trans hpid, hys⟩
    · rename_i hne
      obtain ⟨h0, j, x, hx, hpid, hst⟩ := h.father i v hi hv
      have hj : j ≠ P := by
        rintro rfl
        rw [ht] at hx
        cases hx
        exact hne hpid.symm
      obtain ⟨y, hy, hyp, hys⟩ := hstay j x hx hst hj
      exact ⟨h0, j, y, hy, hyp.trans hpid, hys⟩

/-- A process that is on its way out is neither task 0 nor init. -/
theorem Sound.one_lt_of_exiting (h : Sound σ) (ht : σ.task P = some t) {code : ℤ}
    (hpc : t.pc = .exiting code) : 1 < P := by
  obtain ⟨v, hv, -, hv0⟩ := h.zero
  obtain ⟨w, hw, -, hw1⟩ := h.init
  have h0 : P ≠ 0 := by
    rintro rfl
    rw [ht] at hv
    cases hv
    rw [hpc] at hv0
    cases hv0
  have h1 : P ≠ 1 := by
    rintro rfl
    rw [ht] at hw
    cases hw
    exact hw1.2 code hpc
  omega

/-- A task with this pid is found. -/
theorem findPid_some (hi : i < 64) (hv : σ.task i = some t) : ∃ j, σ.findPid t.pid = some j := by
  have hsome : (σ.findPid t.pid).isSome = true := by
    rw [findPid, List.find?_isSome]
    exact ⟨i, List.mem_range.2 hi, by simp [hv]⟩
  exact Option.isSome_iff_exists.1 hsome

theorem tellFather_eq {page : ℕ} {father : ℤ} (h0 : father ≠ 0) (hj : σ.findPid father = some j) :
    σ.tellFather page father = { σ with task := addSignal σ.task j } := by
  simp only [tellFather, if_neg h0, hj]

/-- **The father is told**: there is one. -/
theorem exited_eq (h : Sound σ) (ht : σ.task P = some t) {code : ℤ} (hpc : t.pc = .exiting code) :
    ∃ j, σ.exited P t code =
      { σ.set P { t with state := .zombie, exitCode := code, pc := .zombie } with
        task := addSignal (σ.set P { t with state := .zombie, exitCode := code, pc := .zombie }).task j
        exits := σ.exits ++ [(t.serial, t.pid, code)] } := by
  obtain ⟨h0, k, u, hu, hpid, hst⟩ := h.father P t (h.one_lt_of_exiting ht hpc) ht
  have hkP : k ≠ P := by
    rintro rfl
    rw [ht] at hu
    cases hu
    exact hst.2 code hpc
  let ρ : Tree := { σ.set P { t with state := .zombie, exitCode := code, pc := .zombie } with
    exits := σ.exits ++ [(t.serial, t.pid, code)] }
  have hu' : ρ.task k = some u := (set_task σ P _ k).trans (by rw [if_neg hkP, hu])
  obtain ⟨j, hj⟩ := findPid_some (h.slots k u hu) hu'
  rw [hpid] at hj
  exact ⟨j, tellFather_eq h0 hj⟩

theorem exited_sound (h : Sound σ) (ht : σ.task P = some t) {code : ℤ} (hpc : t.pc = .exiting code) :
    Sound (σ.exited P t code) := by
  obtain ⟨j, heq⟩ := exited_eq h ht hpc
  have htask : ∀ i, (σ.exited P t code).task i =
      (if i = P then some { t with state := .zombie, exitCode := code, pc := .zombie }
        else σ.task i).map fun u => if i = j then { u with signal := u.signal ||| sigChld } else u := by
    intro i
    rw [heq]
    show addSignal _ j i = _
    rw [addSignal_task, set_task]
  have hself : ∃ w, (σ.exited P t code).task P = some w ∧ Same t w ∧ w.father = t.father ∧
      w.pc = .zombie ∧ w.state = .zombie ∧ w.exitCode = code := by
    rw [htask, if_pos rfl, Option.map_some]
    refine ⟨_, rfl, ?_⟩
    split
    · exact ⟨⟨rfl, rfl, rfl, rfl, rfl⟩, rfl, rfl, rfl, rfl⟩
    · exact ⟨⟨rfl, rfl, rfl, rfl, rfl⟩, rfl, rfl, rfl, rfl⟩
  have hothers : ∀ i v, i ≠ P → σ.task i = some v → ∃ w, (σ.exited P t code).task i = some w ∧
      Same v w ∧ w.father = v.father ∧ w.pc = v.pc ∧ w.state = v.state ∧ w.exitCode = v.exitCode := by
    intro i v hi hv
    rw [htask, if_neg hi, hv, Option.map_some]
    refine ⟨_, rfl, ?_⟩
    split
    · exact ⟨⟨rfl, rfl, rfl, rfl, rfl⟩, rfl, rfl, rfl, rfl⟩
    · exact ⟨⟨rfl, rfl, rfl, rfl, rfl⟩, rfl, rfl, rfl, rfl⟩
  have hback : ∀ i w, (σ.exited P t code).task i = some w → (i = P ∧ Same t w ∧ w.father = t.father ∧
      w.pc = .zombie ∧ w.state = .zombie) ∨ ∃ v, i ≠ P ∧ σ.task i = some v ∧ Same v w ∧
        w.father = v.father ∧ w.pc = v.pc ∧ w.state = v.state := by
    intro i w hw
    by_cases hi : i = P
    · left
      rw [hi] at hw
      obtain ⟨w', hw', h1, h2, h3, h4, -⟩ := hself
      rw [hw] at hw'
      cases hw'
      exact ⟨hi, h1, h2, h3, h4⟩
    · right
      cases hv : σ.task i with
      | none =>
        rw [htask, if_neg hi, hv] at hw
        cases hw
      | some v =>
        obtain ⟨w', hw', h1, h2, h3, h4, -⟩ := hothers i v hi hv
        rw [hw] at hw'
        cases hw'
        exact ⟨v, hi, rfl, h1, h2, h3, h4⟩
  have K : Kept σ (σ.exited P t code) := by
    refine ⟨?_, by rw [heq]; rfl, by rw [heq]; rfl, by rw [heq]; rfl⟩
    intro i w hw
    rcases hback i w hw with ⟨rfl, hs, -⟩ | ⟨v, -, hv, hs, -⟩
    · exact ⟨t, ht, hs⟩
    · exact ⟨v, hv, hs⟩
  have hcarried : Carried σ (σ.exited P t code) := by
    intro i v hv
    by_cases hi : i = P
    · rw [hi, ht] at hv
      cases hv
      obtain ⟨w, hw, h1, -, h3, -, -⟩ := hself
      refine ⟨w, by rw [hi]; exact hw, h1, ?_, ?_⟩
      · intro hz
        rw [hpc] at hz
        cases hz
      · intro f c s
        rw [h3, hpc]
        exact ⟨fun h => (by cases h), fun h => (by cases h)⟩
    · obtain ⟨w, hw, h1, -, h3, -, h5⟩ := hothers i v hi hv
      refine ⟨w, hw, h1, fun hz => ⟨h3.trans hz, h5⟩, ?_⟩
      intro f c s
      rw [h3]
  have hstay : ∀ i v, σ.task i = some v → Stays v →
      ∃ w, (σ.exited P t code).task i = some w ∧ w.pid = v.pid ∧ Stays w := by
    intro i v hv hst
    have hi : i ≠ P := by
      rintro rfl
      rw [ht] at hv
      cases hv
      exact hst.2 code hpc
    obtain ⟨w, hw, h1, -, h3, -, -⟩ := hothers i v hi hv
    exact ⟨w, hw, h1.pid, by rw [Stays, h3]; exact hst⟩
  have hexits : ∀ s p c, (s, p, c) ∈ (σ.exited P t code).exits → (s, p, c) ∈ σ.exits ∨
      ∃ i t', (σ.exited P t code).task i = some t' ∧ t'.serial = s ∧ t'.pc = .zombie ∧ t'.pid = p ∧
        t'.exitCode = c := by
    intro s p c hmem
    rw [heq] at hmem
    rcases List.mem_append.1 hmem with hmem | hmem
    · exact Or.inl hmem
    · right
      cases List.mem_singleton.1 hmem
      obtain ⟨w, hw, h1, -, h3, -, h5⟩ := hself
      exact ⟨P, w, hw, h1.serial, h3, h1.pid, h5⟩
  refine { h.toTable.kept K, h.toRecords.carried K hcarried hexits (by rw [heq]; rfl) with
    zero := ?_, init := ?_, zombie := ?_, father := ?_, clean := by rw [heq]; exact h.clean }
  · obtain ⟨v, hv, hpid, hu⟩ := h.zero
    have h0 : 0 ≠ P := by
      have := h.one_lt_of_exiting ht hpc
      omega
    obtain ⟨w, hw, hsame, -, h3, -, -⟩ := hothers 0 v h0 hv
    exact ⟨w, hw, hsame.pid.trans hpid, h3.trans hu⟩
  · obtain ⟨v, hv, hpid, hst⟩ := h.init
    obtain ⟨w, hw, hwp, hws⟩ := hstay 1 v hv hst
    exact ⟨w, hw, hwp.trans hpid, hws⟩
  · intro i w hw
    rcases hback i w hw with ⟨-, -, -, h3, h4⟩ | ⟨v, -, hv, -, -, h3, h4⟩
    · rw [h3, h4]
      exact ⟨fun _ => rfl, fun _ => rfl⟩
    · rw [h3, h4]
      exact h.zombie i v hv
  · intro i w hi hw
    have hold : ∃ v, σ.task i = some v ∧ w.father = v.father := by
      rcases hback i w hw with ⟨rfl, -, hf, -, -⟩ | ⟨v, -, hv, -, hf, -, -⟩
      · exact ⟨t, ht, hf⟩
      · exact ⟨v, hv, hf⟩
    obtain ⟨v, hv, hf⟩ := hold
    rw [hf]
    obtain ⟨h0, k, x, hx, hpid, hst⟩ := h.father i v hi hv
    obtain ⟨y, hy, hyp, hys⟩ := hstay k x hx hst
    exact ⟨h0, k, y, hy, hyp.trans hpid, hys⟩

end OldLinux.Sched.Tree
