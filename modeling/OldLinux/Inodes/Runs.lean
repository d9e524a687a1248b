import OldLinux.Inodes.Steps

/-!
# Runs of the inode table

With what each step does, the invariant holds in every run in which `iget` installs only inodes whose
bit is set; and when it installs one whose bit is clear, `new_inode` gives out the same number again.
-/

namespace OldLinux.Inodes.Table

open Function Lib

variable {n : ℕ}

/-- What a process in the kernel does when it goes on. -/
inductive Ran (σ : Table n) (P : Fin n) : Pc → Table n → Prop
  | flush {c i} : (σ.inode i).lock = false → (σ.inode i).dirt = true →
    Ran σ P (.emptyWait c i) ((σ.setLock i).setPc P (.emptyWrite c i))
  | take {c i} : (σ.inode i).lock = false → (σ.inode i).dirt = false → (σ.inode i).count = 0 →
    Ran σ P (.emptyWait c i) (σ.take P c i)
  | again {c i} : (σ.inode i).lock = false → (σ.inode i).dirt = false → (σ.inode i).count ≠ 0 →
    Ran σ P (.emptyWait c i) (σ.getEmpty P c)
  | flushed {c i} : Ran σ P (.emptyWrite c i) ((σ.written i).setPc P (.emptyWait c i))
  | look {e dev nr} : Ran σ P (.look e dev nr) (σ.look P e dev nr)
  | found {e dev nr i} : (σ.inode i).lock = false → (σ.inode i).is dev nr →
    Ran σ P (.lookWait e dev nr i) (σ.hit P e i)
  | retry {e dev nr i} : Ran σ P (.lookWait e dev nr i) (σ.setPc P (.look e dev nr))
  | loaded {i} : Ran σ P (.read i) (σ.loaded P i)
  | put {i k} : (σ.inode i).lock = false → Ran σ P (.put i k) (σ.put P i k)
  | putAgain {i k} : (σ.inode i).lock = false → Ran σ P (.putAgain i k) (σ.putRepeat P i k)
  | wrote {i k} : Ran σ P (.putWrite i k) ((σ.written i).setPc P (.putAgain i k))
  | freed {i k} : Ran σ P (.putTrunc i k) (σ.freeInode P i k)

theorem run_cases {σ τ : Table n} {P : Fin n} (hs : σ.run P = some τ) : Ran σ P (σ.proc P).pc τ := by
  rw [run] at hs
  split at hs
  case h_10 => cases hs
  all_goals
    rename_i hpc
    rw [hpc]
  · split at hs
    · cases hs
    rename_i hlock
    split at hs
    · rename_i hdirt
      split at hs <;> cases hs
      exact .flush (eq_false_of_ne_true hlock) hdirt
    · rename_i hdirt
      split at hs <;> cases hs
      · exact .take (eq_false_of_ne_true hlock) (eq_false_of_ne_true hdirt) ‹_›
      · exact .again (eq_false_of_ne_true hlock) (eq_false_of_ne_true hdirt) ‹_›
  · cases hs
    exact .flushed
  · cases hs
    exact .look
  · split at hs
    · cases hs
    · split at hs <;> cases hs
      · exact .found (eq_false_of_ne_true ‹_›) ‹_›
      · exact .retry
  · cases hs
    exact .loaded
  · split at hs <;> cases hs
    exact .put (eq_false_of_ne_true ‹_›)
  · split at hs <;> cases hs
    exact .putAgain (eq_false_of_ne_true ‹_›)
  · cases hs
    exact .wrote
  · cases hs
    exact .freed

variable {σ τ : Table n} {P Q : Fin n} {p : Proc} {i j e : Fin 32} {k : After} {dev nr : ℕ}

/-! ### Calls -/

theorem count_erase {l : List (Fin 32)} (hi : i ∈ l) (j : Fin 32) :
    (l.erase i).count j + (if j = i then 1 else 0) = l.count j := by
  rw [(List.perm_cons_erase hi).count_eq, count_cons]

theorem iput_spec (h : Sound σ) (hpc : (σ.proc P).pc = .user) (hi : i ∈ (σ.proc P).held) :
    Sound (σ.setProc P ⟨.put i .done, (σ.proc P).held.erase i⟩) ∧
    Tidy σ (σ.setProc P ⟨.put i .done, (σ.proc P).held.erase i⟩) P := by
  have S : SameNames σ (σ.setProc P ⟨.put i .done, (σ.proc P).held.erase i⟩) :=
    ⟨fun _ => rfl, fun _ => rfl, rfl, h.sb, rfl⟩
  refine ⟨(S.move h (fun _ => rfl) rfl ?_ (fun _ he => (by cases he)) trivial).sound h, S.tidy P⟩
  intro j
  have herase := count_erase hi j
  simp only [Proc.refs, hpc, List.count_append]
  show _ + [i].count j = _ + 0
  rw [count_singleton]
  omega

theorem share_spec (h : Sound σ) (hi : i ∈ (σ.proc P).held) :
    Sound ((σ.setCount i ((σ.inode i).count + 1)).hold Q i) ∧
    Tidy σ ((σ.setCount i ((σ.inode i).count + 1)).hold Q i) P := by
  have S₀ := sameNames_setInode (i := i) (t := { σ.inode i with count := (σ.inode i).count + 1 }) h rfl rfl
  have S : SameNames σ ((σ.setCount i ((σ.inode i).count + 1)).hold Q i) :=
    ⟨S₀.dev, S₀.num, rfl, h.sb, rfl⟩
  have hin : ∀ j, ((σ.setCount i ((σ.inode i).count + 1)).hold Q i).inode j =
      if j = i then { σ.inode i with count := (σ.inode i).count + 1 } else σ.inode j :=
    setCount_inode _
  have hcount : ∀ j, (((σ.setCount i ((σ.inode i).count + 1)).hold Q i).inode j).count =
      (σ.inode j).count + if j = i then 1 else 0 := by
    intro j
    rw [hin]
    split
    · rename_i hj
      rw [hj]
    · rfl
  have hM : Move σ ((σ.setCount i ((σ.inode i).count + 1)).hold Q i) Q
      { σ.proc Q with held := i :: (σ.proc Q).held } := by
    refine ⟨rfl, ?_, ?_, h.real Q, ?_, S.single h, S.bits h, S.sb⟩
    · intro j
      simp only [hcount, Proc.refs, List.count_append, count_cons]
      omega
    · intro e he
      obtain ⟨h0, h1⟩ := h.blank Q e he
      have hne : e ≠ i := by
        rintro rfl
        exact h.not_held (Pc.refs_of_empty he) (Nat.le_of_eq h1) hi
      rw [hin, if_neg hne]
      exact ⟨h0, h1⟩
    · intro j hne
      by_cases hj : j = i
      · rw [hj]
        exact Or.inr (Or.inr (Or.inr ⟨P, hi⟩))
      · rw [hin, if_neg hj] at hne
        rcases hne with hne | hne
        · exact absurd rfl hne
        · exact absurd rfl hne
  exact ⟨hM.sound h, S.tidy P⟩

/-- The references of all processes together stay the same. -/
theorem give_spec (h : Sound σ) (hpc : (σ.proc P).pc = .user) (hi : i ∈ (σ.proc P).held) :
    Sound ((σ.setProc P ⟨.user, (σ.proc P).held.erase i⟩).hold Q i) ∧
    Tidy σ ((σ.setProc P ⟨.user, (σ.proc P).held.erase i⟩).hold Q i) P := by
  obtain ⟨ρ, hρ⟩ : ∃ ρ, σ.setProc P ⟨.user, (σ.proc P).held.erase i⟩ = ρ := ⟨_, rfl⟩
  have hρproc : ρ.proc = update σ.proc P ⟨.user, (σ.proc P).held.erase i⟩ := by
    rw [← hρ]
    rfl
  have hsame : ρ.inode = σ.inode ∧ ρ.bit = σ.bit ∧ ρ.sb = σ.sb ∧ ρ.freed = σ.freed := by
    rw [← hρ]
    exact ⟨rfl, rfl, rfl, rfl⟩
  obtain ⟨hinode, hbit, hsb, hfreed⟩ := hsame
  have hpcρ : ∀ R, (ρ.proc R).pc = (σ.proc R).pc := by
    intro R
    rw [hρproc, update_apply]
    split
    · rename_i hR
      rw [hR, hpc]
    · rfl
  have hpcs : ∀ R, ((ρ.hold Q i).proc R).pc = (σ.proc R).pc := by
    intro R
    rw [← hpcρ R]
    show (update ρ.proc Q _ R).pc = _
    rw [update_apply]
    split
    · rename_i hR
      rw [hR]
    · rfl
  rw [hρ]
  refine ⟨⟨?_, ?_, ?_, ?_, ?_, ?_⟩, fun j => Or.inr (Or.inr ?_), fun _ _ => Or.inr ?_⟩
  · intro j
    have h1 := sum_replace (fun p : Proc => p.refs.count j) σ.proc P ⟨.user, (σ.proc P).held.erase i⟩
    have h2 := sum_replace (fun p : Proc => p.refs.count j) ρ.proc Q
      { ρ.proc Q with held := i :: (ρ.proc Q).held }
    have h3 := h.counts j
    have herase := count_erase hi j
    show (ρ.inode j).count = ∑ R, (update ρ.proc Q _ R).refs.count j
    rw [hinode]
    rw [← hρproc] at h1
    simp only [Proc.refs, hpc, List.count_append, count_cons, Pc.refs, List.count_nil] at h1 h2 h3 ⊢
    omega
  · rw [show (ρ.hold Q i).inode = σ.inode from hinode]
    exact h.single
  · rw [show (ρ.hold Q i).inode = σ.inode from hinode, show (ρ.hold Q i).bit = σ.bit from hbit]
    exact h.bits
  · intro R x hx
    rw [hpcs] at hx
    show (ρ.inode x).dev = 0 ∧ (ρ.inode x).count = 1
    rw [hinode]
    exact h.blank R x hx
  · intro R
    rw [hpcs]
    exact h.real R
  · show ∀ a, ρ.sb a ≠ some 0
    rw [hsb]
    exact h.sb
  · show (ρ.inode j).dev = _ ∧ (ρ.inode j).num = _
    rw [hinode]
    exact ⟨rfl, rfl⟩
  · show ρ.freed _ _ = _
    rw [hfreed]

/-- An inode that the process has is changed, but not its name. -/
theorem modify_spec (h : Sound σ) {t : Inode} (hdev : t.dev = (σ.inode i).dev)
    (hnum : t.num = (σ.inode i).num) (hcount : t.count = (σ.inode i).count)
    (hin : τ.inode = (σ.setInode i t).inode) (hbit : τ.bit = σ.bit) (hsb : ∀ i, τ.sb i ≠ some 0)
    (hfreed : τ.freed = σ.freed) (hproc : τ.proc = σ.proc) (P : Fin n) : Sound τ ∧ Tidy σ τ P := by
  have S₀ := sameNames_setInode h hdev hnum
  have S : SameNames σ τ := ⟨by rw [hin]; exact S₀.dev, by rw [hin]; exact S₀.num, hbit, hsb, hfreed⟩
  refine ⟨(S.move (P := P) (p := σ.proc P) h ?_ ?_ (fun _ => rfl) (fun _ he => he)
    (h.real P)).sound h, S.tidy P⟩
  · intro j
    rw [hin, setInode_inode]
    split
    · rename_i hj
      rw [hj, hcount]
    · rfl
  · rw [hproc, update_eq_self]

/-! ### In the kernel -/

/-- The `repeat` of `iput`. -/
theorem putRepeat_spec (h : Sound σ) (hrefs : (σ.proc P).pc.refs = i :: k.refs)
    (hempty : (σ.proc P).pc.empty = k.refs) (hk : k.Real) :
    Sound (σ.putRepeat P i k) ∧ Tidy σ (σ.putRepeat P i k) P := by
  rw [putRepeat]
  split
  · exact drop_spec h hrefs hempty hk
  · split
    · refine Next.setPc ⟨?_, ?_, hk⟩ h
      · intro j
        rw [hrefs]
        rfl
      · intro e he
        rw [hempty]
        exact he
    · split
      · refine Next.spec (q := .putWrite i k) ⟨?_, ?_, hk⟩ h ?_ (fun j => setLock_count j) rfl
        · intro j
          rw [hrefs]
          rfl
        · intro e he
          rw [hempty]
          exact he
        · have S := setLock_sameNames (i := i) h
          exact ⟨S.dev, S.num, rfl, h.sb, rfl⟩
      · exact drop_spec h hrefs hempty hk

theorem put_spec (h : Sound σ) (hpc : (σ.proc P).pc = .put i k) :
    Sound (σ.put P i k) ∧ Tidy σ (σ.put P i k) P := by
  have hrefs : (σ.proc P).pc.refs = i :: k.refs := by rw [hpc]; rfl
  have hempty : (σ.proc P).pc.empty = k.refs := by rw [hpc]; rfl
  have hk : k.Real := by
    have hreal := h.real P
    rwa [hpc] at hreal
  rw [put]
  split
  · exact panic_spec h P
  · split
    · exact drop_spec h hrefs hempty hk
    · split
      · refine Next.setPc ⟨?_, ?_, hk⟩ h
        · intro j
          rw [hrefs]
          rfl
        · intro e he
          rw [hempty]
          exact he
      · exact putRepeat_spec h hrefs hempty hk

/-- `iget` is not asked for a number that is free by now, or it finds it in the table. -/
def Listed (σ : Table n) (e : Fin n × Event n) : Prop :=
  match e.2, (σ.proc e.1).pc with
  | .run, .look _ dev nr => σ.lookup dev nr = none → σ.bit dev nr = true
  | _, _ => True

theorem look_spec (h : Sound σ) (hpc : (σ.proc P).pc = .look e dev nr)
    (hlisted : σ.lookup dev nr = none → σ.bit dev nr = true) :
    Sound (σ.look P e dev nr) ∧ Tidy σ (σ.look P e dev nr) P := by
  have hdev : dev ≠ 0 := by
    have hreal := h.real P
    rwa [hpc] at hreal
  rw [look]
  cases hlook : σ.lookup dev nr with
  | none => exact install_spec h hpc hlook (hlisted hlook)
  | some i =>
    simp only
    split
    · refine Next.setPc ⟨?_, ?_, hdev⟩ h
      · intro j
        rw [hpc]
        rfl
      · intro x hx
        rw [hpc]
        exact hx
    · refine hit_spec h (by rw [hpc]; rfl) (by rw [hpc]; rfl) ?_
      rw [(lookup_some hlook).1]
      exact hdev

theorem run_spec (h : Sound σ) (hlisted : ∀ e dev nr, (σ.proc P).pc = .look e dev nr → σ.lookup dev nr = none →
      σ.bit dev nr = true) (hs : σ.run P = some τ) : Sound τ ∧ Tidy σ τ P := by
  have hreal := h.real P
  have hran := run_cases hs
  generalize hpc : (σ.proc P).pc = pc at hran hreal
  cases hran with
  | @flush c i =>
    have S := setLock_sameNames (i := i) h
    refine Next.spec (q := .emptyWrite c i) ⟨?_, fun _ he => (by cases he), hreal⟩ h
      ⟨S.dev, S.num, rfl, h.sb, rfl⟩ (fun j => setLock_count j) rfl
    intro j
    rw [hpc]
    rfl
  | take _ _ hcount => exact take_spec h hpc hcount
  | again => exact getEmpty_spec h (by rw [hpc]; rfl) hreal
  | @flushed c i =>
    have S := written_sameNames (i := i) h
    refine Next.spec (q := .emptyWait c i) ⟨?_, fun _ he => (by cases he), hreal⟩ h
      ⟨S.dev, S.num, rfl, h.sb, rfl⟩ (fun j => written_count j) rfl
    intro j
    rw [hpc]
    rfl
  | look => exact look_spec h hpc (hlisted _ _ _ hpc)
  | found _ his =>
    refine hit_spec h (by rw [hpc]; rfl) (by rw [hpc]; rfl) ?_
    rw [his.1]
    exact hreal
  | retry =>
    refine Next.setPc ⟨?_, ?_, hreal⟩ h
    · intro j
      rw [hpc]
      rfl
    · intro x hx
      rw [hpc]
      exact hx
  | loaded => exact loaded_spec h hpc
  | put => exact put_spec h hpc
  | putAgain => exact putRepeat_spec h (by rw [hpc]; rfl) (by rw [hpc]; rfl) hreal
  | @wrote i k =>
    have S := written_sameNames (i := i) h
    refine Next.spec (q := .putAgain i k) ⟨?_, ?_, hreal⟩ h
      ⟨S.dev, S.num, rfl, h.sb, rfl⟩ (fun j => written_count j) rfl
    · intro j
      rw [hpc]
      rfl
    · intro x hx
      rw [hpc]
      exact hx
  | freed => exact freeInode_spec h hpc

theorem step_spec {e : Fin n × Event n} (h : Sound σ) (ha : Listed σ e) (hs : step σ e = some τ) :
    Sound τ ∧ Tidy σ τ e.1 := by
  obtain ⟨P, ev⟩ := e
  rw [step] at hs
  split at hs
  · cases hs
  · cases ev with
    | run =>
      refine run_spec h ?_ hs
      intro e dev nr hpc
      simpa only [Listed, hpc] using ha
    | iget dev nr =>
      cases hpc : (σ.proc P).pc <;> simp only [hpc, reduceCtorEq] at hs
      obtain ⟨hdev, heq⟩ := Option.ite_none_right_eq_some.1 hs
      cases heq
      exact getEmpty_spec h (by rw [hpc]; rfl) hdev
    | newInode dev =>
      cases hpc : (σ.proc P).pc <;> simp only [hpc, reduceCtorEq] at hs
      obtain ⟨hdev, heq⟩ := Option.ite_none_right_eq_some.1 hs
      cases heq
      exact getEmpty_spec h (by rw [hpc]; rfl) hdev
    | getEmpty =>
      cases hpc : (σ.proc P).pc <;> simp only [hpc, reduceCtorEq] at hs
      cases hs
      exact getEmpty_spec h (by rw [hpc]; rfl) trivial
    | iput i =>
      cases hpc : (σ.proc P).pc <;> simp only [hpc, reduceCtorEq] at hs
      obtain ⟨hi, heq⟩ := Option.ite_none_right_eq_some.1 hs
      cases heq
      exact iput_spec h hpc hi
    | share i Q =>
      cases hpc : (σ.proc P).pc <;> simp only [hpc, reduceCtorEq] at hs
      obtain ⟨hi, heq⟩ := Option.ite_none_right_eq_some.1 hs
      cases heq
      exact share_spec h hi
    | give i Q =>
      cases hpc : (σ.proc P).pc <;> simp only [hpc, reduceCtorEq] at hs
      obtain ⟨hi, heq⟩ := Option.ite_none_right_eq_some.1 hs
      cases heq
      exact give_spec h hpc hi
    | modify i disk =>
      cases hpc : (σ.proc P).pc <;> simp only [hpc, reduceCtorEq] at hs
      obtain ⟨-, heq⟩ := Option.ite_none_right_eq_some.1 hs
      cases heq
      exact modify_spec (t := { σ.inode i with disk := disk, dirt := true }) h rfl rfl rfl rfl
        rfl h.sb rfl rfl P
    | mount i dev =>
      cases hpc : (σ.proc P).pc <;> simp only [hpc, reduceCtorEq] at hs
      obtain ⟨⟨-, hdev⟩, heq⟩ := Option.ite_none_right_eq_some.1 hs
      cases heq
      refine modify_spec (t := { σ.inode i with mount := dev.isSome })
        (τ := { σ.setInode i { σ.inode i with mount := dev.isSome } with
          sb := update σ.sb i dev }) h rfl rfl rfl rfl rfl ?_ rfl rfl P
      intro j
      show update σ.sb i dev j ≠ some 0
      rw [update_apply]
      split
      · exact hdev
      · exact h.sb j
    | bit nr =>
      cases nr with
      | none =>
        cases hpc : (σ.proc P).pc <;> simp only [hpc, reduceCtorEq] at hs
        cases hs
        refine Next.setPc ⟨?_, fun _ he => (by cases he), trivial⟩ h
        intro j
        rw [hpc]
        rfl
      | some nr =>
        cases hpc : (σ.proc P).pc <;> simp only [hpc, reduceCtorEq] at hs
        obtain ⟨hbit, heq⟩ := Option.ite_none_right_eq_some.1 hs
        cases heq
        exact allocated_spec h hpc hbit

theorem reach_sound (h : Reach Start step Listed σ) : Sound σ :=
  h.invariant (I := Sound) (fun _ hs => hs.sound) (fun _ _ _ hI ha hs => (step_spec hI ha hs).1)

/-- No two entries that are in use have the same inode, and no step changes the name of an entry that
somebody has got and not given back. -/
def OneEach (allowed : Table n → Fin n × Event n → Prop) (σ : Table n) : Prop :=
  (∀ i j, 0 < (σ.inode i).count → 0 < (σ.inode j).count → (σ.inode i).dev ≠ 0 →
    (σ.inode j).is (σ.inode i).dev (σ.inode i).num → i = j) ∧
  ∀ e τ, allowed σ e → step σ e = some τ → Keeps σ τ

/-- **An inode has one entry** in every run in which `iget` installs only inodes whose bit is set. -/
theorem inode_has_one_entry (h : Reach Start step Listed σ) : OneEach Listed σ := by
  have hsound := reach_sound h
  exact ⟨fun i j _ _ => hsound.single i j, fun _ _ ha hs => (step_spec hsound ha hs).2.keeps hsound⟩

/-- An empty table, and a disk on which every inode is in use and has one link. -/
def boot (n : ℕ) : Table n where
  inode _ := Inode.zero
  last := 0
  sb _ := none
  disk _ _ := ⟨1, false⟩
  bit _ _ := true
  proc _ := ⟨.user, []⟩
  panicked := false
  freed _ _ := 0

theorem boot_start (n : ℕ) : Start (boot n) := ⟨fun _ => rfl, fun _ => rfl, fun _ => rfl, rfl⟩

/-- `iget` of an inode that is not in the table. -/
def igetRun (P : Fin n) : List (Fin n × Event n) :=
  [(P, .iget 1 5), (P, .run), (P, .run), (P, .run)]

set_option maxRecDepth 8000 in
theorem reach_igetRun : ∃ σ : Table 3, Reach Start step Listed σ ∧ (σ.inode 1).is 1 5 ∧ (σ.inode 1).count = 1 ∧
    1 ∈ (σ.proc 0).held ∧ (σ.proc 0).pc = .user ∧ σ.panicked = false := by
  obtain ⟨σ, hexec, hone⟩ : ∃ σ, exec step (boot 3) (igetRun 0) = some σ ∧ (σ.inode 1).is 1 5 ∧
    (σ.inode 1).count = 1 ∧ 1 ∈ (σ.proc 0).held ∧ (σ.proc 0).pc = .user ∧ σ.panicked = false :=
    ⟨_, rfl, ⟨rfl, rfl⟩, rfl, by decide, rfl, rfl⟩
  have halong : Along step Listed (boot 3) (igetRun 0) := by
    refine ⟨trivial, fun s hs => ?_⟩
    cases hs
    refine ⟨trivial, fun s hs => ?_⟩
    cases hs
    refine ⟨fun _ => rfl, fun s hs => ?_⟩
    cases hs
    exact ⟨trivial, fun _ _ => trivial⟩
  exact ⟨σ, (Reach.start (boot_start 3)).exec halong hexec, hone⟩

theorem inode_has_one_entry_iget : ∃ σ : Table 3, Reach Start step Listed σ ∧
    ((σ.inode 1).is 1 5 ∧ (σ.inode 1).count = 1) ∧ OneEach Listed σ := by
  obtain ⟨σ, h, his, hone, -⟩ := reach_igetRun
  exact ⟨σ, h, ⟨his, hone⟩, inode_has_one_entry h⟩

/-- **An entry counts its references**, those on the way included, and the inode it has is in use. -/
theorem references_exact (h : Reach Start step Listed σ) (i : Fin 32) :
    (σ.inode i).count = ∑ P, (σ.proc P).refs.count i ∧
      ((σ.inode i).dev ≠ 0 → σ.bit (σ.inode i).dev (σ.inode i).num = true) :=
  ⟨(reach_sound h).counts i, (reach_sound h).bits i⟩

/-- A second process has the inode, too. -/
theorem references_exact_boot : ∃ σ : Table 3, (σ.inode 1).is 1 5 ∧ (σ.inode 1).count = 2 ∧
    ∑ P, (σ.proc P).refs.count 1 = 2 ∧ σ.bit 1 5 = true := by
  obtain ⟨σ, h, his, hone, hheld, hpc, hcalm⟩ := reach_igetRun
  have hs : step σ (0, .share 1 2) = some ((σ.setCount 1 ((σ.inode 1).count + 1)).hold 2 1) := by
    simp only [step, hcalm, hpc, hheld, Bool.false_eq_true, if_true, if_false]
  obtain ⟨hcount, hbit⟩ := references_exact (Reach.step (0, .share 1 2) h trivial hs) 1
  have his' : (((σ.setCount 1 ((σ.inode 1).count + 1)).hold 2 1).inode 1).is 1 5 := by
    simpa [setCount, setInode, hold, Inode.is] using his
  have htwo : (((σ.setCount 1 ((σ.inode 1).count + 1)).hold 2 1).inode 1).count = 2 := by
    simp [setCount, setInode, hold, hone]
  have hb := hbit (by rw [his'.1]; decide)
  rw [his'.1, his'.2] at hb
  exact ⟨_, his', htwo, hcount.symm.trans htwo, hb⟩

/-- The last link of an inode goes, and `iput` frees it. -/
def unlinkRun (P : Fin n) : List (Fin n × Event n) :=
  igetRun P ++ [(P, Event.modify 1 ⟨0, false⟩), (P, .iput 1), (P, .run), (P, .run)]

/-- `new_inode` gets the number 5. -/
def newRun (P : Fin n) : List (Fin n × Event n) := [(P, .newInode 1), (P, .run), (P, .bit (some 5))]

set_option maxRecDepth 8000 in
/-- One process frees the inode, another one that has read its number before does `iget`, and a third
one gets the number from `new_inode`. -/
theorem freed_number_gets_two_entries :
    ¬∀ σ : Table 3, Reach Start step (fun _ _ => True) σ → OneEach (fun _ _ => True) σ := by
  intro hall
  obtain ⟨σ, hexec, h2, h3, hdev, his⟩ : ∃ σ,
      exec step (boot 3) (unlinkRun 0 ++ igetRun 1 ++ newRun 2) = some σ ∧
      (σ.inode 2).count = 1 ∧ (σ.inode 3).count = 1 ∧ (σ.inode 2).dev = 1 ∧
      (σ.inode 3).is (σ.inode 2).dev (σ.inode 2).num := ⟨_, rfl, rfl, rfl, rfl, ⟨rfl, rfl⟩⟩
  have h0 : Reach Start step (fun _ _ => True) (boot 3) := Reach.start (boot_start 3)
  have h := h0.exec (along_true _ _) hexec
  have heq := (hall σ h).1 2 3 (by omega) (by omega) (by omega) his
  exact absurd heq (by decide)

end OldLinux.Inodes.Table
