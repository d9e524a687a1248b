import OldLinux.Sched.TreeRuns

/-!
# Every zombie is collected once

`sys_waitpid` adds the times of a zombie to those of its father and releases its slot and its page
before it calls `schedule`, so that from then on the slot and the page may be somebody else's; only
then does it store the exit code and return the pid.  A father that is killed by this store takes the
pid and the exit code of its child along (`killed_father_loses_child`).
-/

namespace OldLinux.Sched.Tree

open Function Lib

variable {σ τ : Tree} {P i j : ℕ} {t u v : Proc}

/-! ### The zombie -/

/-- **What the loop finds** is a zombie, and a child of the process. -/
theorem look_zombie {pid : ℤ} {untraced flag : Bool} {n : ℕ} (h : σ.look P t pid untraced n flag = .zombie i) :
    0 < i ∧ i ≤ n ∧ i ≠ P ∧ ∃ u, σ.task i = some u ∧ u.father = t.pid ∧ u.state = .zombie := by
  induction n generalizing flag with
  | zero => cases h
  | succ n ih =>
    have hrest : ∀ {flag : Bool}, σ.look P t pid untraced n flag = .zombie i → 0 < i ∧ i ≤ n + 1 ∧
        i ≠ P ∧ ∃ u, σ.task i = some u ∧ u.father = t.pid ∧ u.state = .zombie := by
      intro flag h
      obtain ⟨h1, h2, h3⟩ := ih h
      exact ⟨h1, Nat.le_succ_of_le h2, h3⟩
    rw [look] at h
    cases hu : σ.task (n + 1) with
    | none =>
      simp only [hu] at h
      exact hrest h
    | some u =>
      simp only [hu] at h
      split at h
      · exact hrest h
      · rename_i hskip
        rw [not_or, not_or, not_not] at hskip
        cases hstate : u.state with
        | zombie =>
          simp only [hstate] at h
          cases h
          exact ⟨Nat.succ_pos n, Nat.le_refl _, hskip.1, u, hu, hskip.2.1, hstate⟩
        | stopped =>
          simp only [hstate] at h
          split at h
          · cases h
          · exact hrest h
        | running =>
          simp only [hstate] at h
          exact hrest h
        | interruptible =>
          simp only [hstate] at h
          exact hrest h
        | uninterruptible =>
          simp only [hstate] at h
          exact hrest h

/-- **`release`** finds the slot by its page. -/
theorem release_eq (hi : 0 < i) (hi' : i < 64) (hu : σ.task i = some u) (hused : u.page ∈ σ.used)
    (hpages : ∀ j v, 0 < j → σ.task j = some v → v.page = u.page → j = i) :
    σ.release u.page = { σ with task := update σ.task i none, used := σ.used.erase u.page } := by
  have hfind : ((List.range 63).map (· + 1)).find?
      (fun j => decide ((σ.task j).map Proc.page = some u.page)) = some i := by
    have hsome : (((List.range 63).map (· + 1)).find?
        (fun j => decide ((σ.task j).map Proc.page = some u.page))).isSome = true := by
      rw [List.find?_isSome]
      refine ⟨i, List.mem_map.2 ⟨i - 1, List.mem_range.2 (by omega), by omega⟩, ?_⟩
      simp [hu]
    obtain ⟨j, hj⟩ := Option.isSome_iff_exists.1 hsome
    obtain ⟨k, -, hk⟩ := List.mem_map.1 (List.mem_of_find?_eq_some hj)
    have hpage := List.find?_some hj
    rw [decide_eq_true_eq, Option.map_eq_some_iff] at hpage
    obtain ⟨v, hv, hvu⟩ := hpage
    rw [hj, hpages j v (by omega) hv hvu]
  rw [release, hfind]
  exact if_pos hused

/-- What a process looks like when it collects a child: it waits, and neither exits nor has it
collected anybody before. -/
structure Collects (σ : Tree) (P : ℕ) (t : Proc) (i : ℕ) (u : Proc) : Prop where
  self : ∃ t₀, σ.task P = some t₀ ∧ Same t₀ t ∧ t.father = t₀.father ∧ Stays t₀ ∧ ∀ f c s, t₀.pc ≠ .reaped f c s
  notZero : P ≠ 0
  slot : σ.task i = some u
  other : i ≠ P
  father : u.father = t.pid
  zombie : u.state = .zombie

variable (h : Sound σ) (C : Collects σ P t i u)
include h C

theorem Collects.one_lt : 1 < i := by
  have hz := (h.zombie i u C.slot).1 C.zombie
  obtain ⟨v, hv, -, hv0⟩ := h.zero
  obtain ⟨w, hw, -, hw1⟩ := h.init
  have h0 : i ≠ 0 := by
    intro h0
    rw [← h0, C.slot] at hv
    cases hv
    rw [hz] at hv0
    cases hv0
  have h1 : i ≠ 1 := by
    intro h1
    rw [← h1, C.slot] at hw
    cases hw
    exact hw1.1 hz
  omega

/-- **The slot and the page** of the child are free. -/
theorem reap_eq : σ.reap P t u =
    { σ with
      task := update (update σ.task P (some (reaping t u))) i none
      used := σ.used.erase u.page
      collected := σ.collected ++ [⟨u.serial, t.serial, u.pid, u.exitCode, u.utime, u.stime⟩] } := by
  obtain ⟨t₀, ht₀, hsame, -⟩ := C.self
  have hi := C.one_lt h
  have hslot : (σ.set P (reaping t u)).task i = some u := by
    rw [set_task, if_neg C.other, C.slot]
  have hpages : ∀ j v, 0 < j → (σ.set P (reaping t u)).task j = some v → v.page = u.page → j = i := by
    intro j v hj hv heq
    rw [set_task] at hv
    split at hv
    · rename_i hjP
      cases hv
      refine h.pages j i t₀ u hj (by omega) (by rw [hjP, ht₀]) C.slot ?_
      rw [← hsame.page]
      exact heq
    · exact h.pages j i v u hj (by omega) hv C.slot heq
  exact release_eq (by omega) (h.slots i u C.slot) hslot (h.used i u (by omega) C.slot) hpages

theorem reap_task (j : ℕ) : (σ.reap P t u).task j =
    if j = i then none else if j = P then some (reaping t u) else σ.task j := by
  rw [reap_eq h C]
  simp only [update_apply]

/-- Whoever is there afterwards was there before. -/
theorem reap_back (hv : (σ.reap P t u).task j = some v) : j ≠ i ∧ ((j = P ∧ v = reaping t u) ∨
    j ≠ P ∧ σ.task j = some v) := by
  rw [reap_task h C] at hv
  split at hv
  · cases hv
  · rename_i hji
    split at hv
    · rename_i hjP
      cases hv
      exact ⟨hji, Or.inl ⟨hjP, rfl⟩⟩
    · exact ⟨hji, Or.inr ⟨by assumption, hv⟩⟩

/-- The fields that tell a process apart have not changed. -/
theorem reap_same (hv : (σ.reap P t u).task j = some v) : ∃ w, σ.task j = some w ∧ v.pid = w.pid ∧
    v.page = w.page ∧ v.serial = w.serial ∧ v.father = w.father := by
  obtain ⟨t₀, ht₀, hsame, hfather, -⟩ := C.self
  obtain ⟨-, ⟨rfl, rfl⟩ | ⟨-, hw⟩⟩ := reap_back h C hv
  · exact ⟨t₀, ht₀, hsame.pid, hsame.page, hsame.serial, hfather⟩
  · exact ⟨v, hw, rfl, rfl, rfl, rfl⟩

theorem reap_collected : (σ.reap P t u).collected =
    σ.collected ++ [⟨u.serial, t.serial, u.pid, u.exitCode, u.utime, u.stime⟩] := by
  rw [reap_eq h C]

/-- The children of the others are the same as before. -/
theorem filter_reap_other {s : ℕ} (hs : s ≠ t.serial) :
    (σ.reap P t u).collected.filter (·.father = s) = σ.collected.filter (·.father = s) := by
  rw [reap_collected h C, List.filter_append]
  simp [Ne.symm hs]

theorem filter_reap_self : (σ.reap P t u).collected.filter (·.father = t.serial) =
    σ.collected.filter (·.father = t.serial) ++
    [⟨u.serial, t.serial, u.pid, u.exitCode, u.utime, u.stime⟩] := by
  rw [reap_collected h C, List.filter_append]
  simp

theorem reap_table : Table (σ.reap P t u) := by
  obtain ⟨t₀, ht₀, hsame, -⟩ := C.self
  have hold := fun {j v} hv => reap_same h C (j := j) (v := v) hv
  have hused : (σ.reap P t u).used = σ.used.erase u.page := by rw [reap_eq h C]
  have hborn : (σ.reap P t u).born = σ.born := by rw [reap_eq h C]
  have hi := C.one_lt h
  refine ⟨?_, ?_, ?_, ?_, ?_, ?_, ?_, ?_, ?_, ?_, ?_⟩
  · intro j v hv
    obtain ⟨w, hw, -⟩ := hold hv
    exact h.slots j w hw
  · intro j k v w hv hw heq
    obtain ⟨v', hv', hp, -⟩ := hold hv
    obtain ⟨w', hw', hq, -⟩ := hold hw
    exact h.pids j k v' w' hv' hw' (by rw [← hp, ← hq, heq])
  · intro j k v w hj hk hv hw heq
    obtain ⟨v', hv', -, hp, -⟩ := hold hv
    obtain ⟨w', hw', -, hq, -⟩ := hold hw
    exact h.pages j k v' w' hj hk hv' hw' (by rw [← hp, ← hq, heq])
  · intro j v hj hv
    obtain ⟨w, hw, -, hp, -⟩ := hold hv
    rw [hused, hp]
    refine Finset.mem_erase.2 ⟨?_, h.used j w hj hw⟩
    intro heq
    exact (reap_back h C hv).1 (h.pages j i w u hj (by omega) hw C.slot heq)
  · intro j k v w hv hw heq
    obtain ⟨v', hv', -, -, hp, -⟩ := hold hv
    obtain ⟨w', hw', -, -, hq, -⟩ := hold hw
    exact h.serials j k v' w' hv' hw' (by rw [← hp, ← hq, heq])
  · intro j v hv
    obtain ⟨w, hw, -, -, hp, -⟩ := hold hv
    rw [hborn, hp]
    exact h.born j w hw
  · intro j v hv r hr
    obtain ⟨w, hw, -, -, hp, -⟩ := hold hv
    rw [hp]
    rw [reap_collected h C] at hr
    rcases List.mem_append.1 hr with hr | hr
    · exact h.live j w hw r hr
    · cases List.mem_singleton.1 hr
      intro heq
      exact (reap_back h C hv).1 (h.serials i j u w C.slot hw heq).symm
  · intro r hr
    rw [hborn]
    rw [reap_collected h C] at hr
    rcases List.mem_append.1 hr with hr | hr
    · exact h.old r hr
    · cases List.mem_singleton.1 hr
      have hlt := h.born P t₀ ht₀
      rw [← hsame.serial] at hlt
      exact ⟨h.born i u C.slot, hlt⟩
  · rw [reap_collected h C, List.map_append, List.nodup_append]
    refine ⟨h.once, List.nodup_singleton _, ?_⟩
    intro a ha b hb hab
    obtain ⟨r, hr, rfl⟩ := List.mem_map.1 ha
    exact h.live i u C.slot r hr (hab.trans (List.mem_singleton.1 hb))
  · intro j v hv
    obtain ⟨-, ⟨rfl, rfl⟩ | ⟨hjP, hw⟩⟩ := reap_back h C hv
    · show t.cutime + u.utime =
        (((σ.reap j t u).collected.filter (·.father = t.serial)).map Collected.utime).sum
      rw [filter_reap_self h C, List.map_append, List.sum_append, hsame.cutime, h.cutime j t₀ ht₀, hsame.serial]
      simp
    · rw [filter_reap_other h C, h.cutime j v hw]
      intro heq
      exact hjP (h.serials j P v t₀ hw ht₀ (heq.trans hsame.serial))
  · intro j v hv
    obtain ⟨-, ⟨rfl, rfl⟩ | ⟨hjP, hw⟩⟩ := reap_back h C hv
    · show t.cstime + u.stime =
        (((σ.reap j t u).collected.filter (·.father = t.serial)).map Collected.stime).sum
      rw [filter_reap_self h C, List.map_append, List.sum_append, hsame.cstime, h.cstime j t₀ ht₀, hsame.serial]
      simp
    · rw [filter_reap_other h C, h.cstime j v hw]
      intro heq
      exact hjP (h.serials j P v t₀ hw ht₀ (heq.trans hsame.serial))

/-- Whoever stays is still there. -/
theorem reap_stays (hv : σ.task j = some v) (hst : Stays v) :
    ∃ w, (σ.reap P t u).task j = some w ∧ w.pid = v.pid ∧ Stays w := by
  obtain ⟨t₀, ht₀, hsame, -⟩ := C.self
  have hji : j ≠ i := by
    rintro rfl
    rw [C.slot] at hv
    cases hv
    exact hst.1 ((h.zombie j u C.slot).1 C.zombie)
  rw [reap_task h C, if_neg hji]
  by_cases hjP : j = P
  · rw [if_pos hjP]
    rw [hjP, ht₀] at hv
    cases hv
    exact ⟨_, rfl, hsame.pid, fun h => (by cases h), fun _ h => (by cases h)⟩
  · rw [if_neg hjP]
    exact ⟨v, hv, rfl, hst⟩

theorem reap_family : Family (σ.reap P t u) := by
  have hi := C.one_lt h
  refine ⟨?_, ?_, ?_, ?_, ?_⟩
  · obtain ⟨v, hv, hrest⟩ := h.zero
    refine ⟨v, ?_, hrest⟩
    rw [reap_task h C, if_neg (by omega), if_neg (Ne.symm C.notZero), hv]
  · obtain ⟨v, hv, hpid, hst⟩ := h.init
    obtain ⟨w, hw, hwp, hws⟩ := reap_stays h C hv hst
    exact ⟨w, hw, hwp.trans hpid, hws⟩
  · intro j v hv
    obtain ⟨-, ⟨rfl, rfl⟩ | ⟨-, hw⟩⟩ := reap_back h C hv
    · exact ⟨fun h => (by cases h), fun h => (by cases h)⟩
    · exact h.zombie j v hw
  · intro j v hj hv
    obtain ⟨w, hw, -, -, -, hf⟩ := reap_same h C hv
    rw [hf]
    obtain ⟨h0, k, x, hx, hpid, hst⟩ := h.father j w hj hw
    obtain ⟨y, hy, hyp, hys⟩ := reap_stays h C hx hst
    exact ⟨h0, k, y, hy, hyp.trans hpid, hys⟩
  · rw [reap_eq h C]
    exact h.clean

/-- **The zombie** goes from its slot to the records of its father. -/
theorem reap_records : Records (σ.reap P t u) := by
  obtain ⟨t₀, ht₀, hsame, -, hst, hnot⟩ := C.self
  have hz := (h.zombie i u C.slot).1 C.zombie
  have hkeep : ∀ k v, k ≠ i → k ≠ P → σ.task k = some v → (σ.reap P t u).task k = some v := by
    intro k v hki hkP hv
    rw [reap_task h C, if_neg hki, if_neg hkP, hv]
  have hself : (σ.reap P t u).task P = some (reaping t u) := by
    rw [reap_task h C, if_neg (Ne.symm C.other), if_pos rfl]
  have hreturned : (σ.reap P t u).returned = σ.returned := by rw [reap_eq h C]
  have hexits : (σ.reap P t u).exits = σ.exits := by rw [reap_eq h C]
  refine ⟨?_, ?_, ?_, ?_, ?_⟩
  · intro s p c hmem
    rw [hexits] at hmem
    rw [reap_collected h C]
    rcases h.exits s p c hmem with ⟨k, v, hv, h1, h2, h3, h4⟩ | ⟨r, hr, hrest⟩
    · by_cases hki : k = i
      · rw [hki, C.slot] at hv
        cases hv
        exact Or.inr ⟨_, List.mem_append.2 (Or.inr (List.mem_singleton.2 rfl)), h1, h3, h4⟩
      · have hkP : k ≠ P := by
          rintro rfl
          rw [ht₀] at hv
          cases hv
          exact hst.1 h2
        exact Or.inl ⟨k, v, hkeep k v hki hkP hv, h1, h2, h3, h4⟩
    · exact Or.inr ⟨r, List.mem_append.2 (Or.inl hr), hrest⟩
  · intro r hr
    rw [hreturned]
    rw [reap_collected h C] at hr
    rcases List.mem_append.1 hr with hr | hr
    · rcases h.returns r hr with h1 | ⟨k, v, hv, h1, h2⟩
      · exact Or.inl h1
      · have hki : k ≠ i := by
          rintro rfl
          rw [C.slot] at hv
          cases hv
          rw [hz] at h2
          cases h2
        have hkP : k ≠ P := by
          rintro rfl
          rw [ht₀] at hv
          cases hv
          exact hnot _ _ _ h2
        exact Or.inr ⟨k, v, hkeep k v hki hkP hv, h1, h2⟩
    · cases List.mem_singleton.1 hr
      exact Or.inr ⟨P, _, hself, rfl, rfl⟩
  · rw [hreturned]
    intro x hx
    obtain ⟨r, hr, heq⟩ := h.returned x hx
    rw [reap_collected h C]
    exact ⟨r, List.mem_append.2 (Or.inl hr), heq⟩
  · rw [hreturned]
    exact h.returnedOnce
  · intro k v f c s hv hpc
    rw [reap_collected h C, hreturned]
    obtain ⟨-, ⟨rfl, rfl⟩ | ⟨-, hw⟩⟩ := reap_back h C hv
    · cases hpc
      refine ⟨⟨_, List.mem_append.2 (Or.inr (List.mem_singleton.2 rfl)), rfl, rfl, rfl, rfl⟩, ?_⟩
      -- what was returned was collected, and the child was still there
      intro hmem
      obtain ⟨x, hx, hxs⟩ := List.mem_map.1 hmem
      obtain ⟨r, hr, rfl⟩ := h.returned x hx
      exact h.live i u C.slot r hr hxs
    · obtain ⟨⟨r, hr, hrest⟩, hno⟩ := h.pending k v f c s hw hpc
      exact ⟨⟨r, List.mem_append.2 (Or.inl hr), hrest⟩, hno⟩

theorem reap_sound : Sound (σ.reap P t u) :=
  { reap_table h C, reap_family h C, reap_records h C with }

omit h C

/-! ### The steps of a process -/

/-- **The pid and the code** are returned for the child that was collected. -/
theorem finish_sound (h : Sound σ) (ht : σ.task P = some t) {f c : ℤ} {s : ℕ}
    (hpc : t.pc = .reaped f c s) (hstat : t.stat = true) : Sound (σ.finish P t f c s) := by
  rw [finish, if_pos hstat]
  have hsame : Same t { t with pc := .user } := ⟨rfl, rfl, rfl, rfl, rfl⟩
  have hP : P ≠ 0 := by
    rintro rfl
    obtain ⟨v, hv, -, hu⟩ := h.zero
    rw [ht] at hv
    cases hv
    rw [hpc] at hu
    cases hu
  have hstate : t.state = .zombie ↔ TreePc.user = .zombie := by
    rw [h.zombie P t ht, hpc]
    exact ⟨fun h => (by cases h), fun h => (by cases h)⟩
  have T : Table (σ.report P t f c s) := h.toTable.kept ⟨(kept_set ht hsame).back, rfl, rfl, rfl⟩
  have F := h.toFamily.set (u := { t with pc := .user }) ht rfl (Or.inl hP) rfl hstate
    (fun _ => stays_of_user rfl)
  obtain ⟨⟨r, hr, hchild, hserial, hpid, hcode⟩, hnew⟩ := h.pending P t f c s ht hpc
  have htask : ∀ k, (σ.report P t f c s).task k = if k = P then some { t with pc := .user }
    else σ.task k := fun k => set_task σ P _ k
  refine { T with
    zero := F.zero, init := F.init, zombie := F.zombie, father := F.father, clean := F.clean
    exits := ?_, returns := ?_, returned := ?_, returnedOnce := ?_, pending := ?_ }
  · intro s' p c' hmem
    rcases h.exits s' p c' hmem with ⟨k, v, hv, h1, h2, hrest⟩ | hr'
    · have hkP : k ≠ P := by
        rintro rfl
        rw [ht] at hv
        cases hv
        rw [hpc] at h2
        cases h2
      exact Or.inl ⟨k, v, by rw [htask, if_neg hkP, hv], h1, h2, hrest⟩
    · exact Or.inr hr'
  · intro r' hr'
    show _ ∈ σ.returned ++ [(s, f, c)] ∨ _
    rcases h.returns r' hr' with h1 | ⟨k, v, hv, h1, h2⟩
    · exact Or.inl (List.mem_append.2 (Or.inl h1))
    · by_cases hkP : k = P
      · rw [hkP, ht] at hv
        cases hv
        rw [hpc] at h2
        cases h2
        exact Or.inl (List.mem_append.2 (Or.inr (List.mem_singleton.2 rfl)))
      · exact Or.inr ⟨k, v, by rw [htask, if_neg hkP, hv], h1, h2⟩
  · intro x hx
    rcases List.mem_append.1 hx with hx | hx
    · exact h.returned x hx
    · cases List.mem_singleton.1 hx
      exact ⟨r, hr, by rw [hchild, hpid, hcode]⟩
  · show ((σ.returned ++ [(s, f, c)]).map Prod.fst).Nodup
    rw [List.map_append, List.nodup_append]
    refine ⟨h.returnedOnce, List.nodup_singleton _, ?_⟩
    rintro a ha b hb rfl
    rw [List.mem_singleton.1 hb] at ha
    exact hnew ha
  · intro k v f' c' s' hv hpc'
    rw [htask] at hv
    split at hv
    · cases hv
      cases hpc'
    · rename_i hkP
      obtain ⟨⟨r', hr', h1, h2, h3⟩, hno⟩ := h.pending k v f' c' s' hv hpc'
      refine ⟨⟨r', hr', h1, h2, h3⟩, ?_⟩
      show s' ∉ (σ.returned ++ [(s, f, c)]).map Prod.fst
      rw [List.map_append, List.mem_append, not_or]
      refine ⟨hno, ?_⟩
      -- one child has one father
      intro hmem
      have hss : s' = s := List.mem_singleton.1 hmem
      have hrr : r' = r := List.inj_on_of_nodup_map h.once hr' hr (by rw [h1, hchild, hss])
      rw [hrr, hserial] at h2
      exact hkP (h.serials P k t v ht hv h2).symm

/-- The process asks for a child, with the signal mask it has by then. -/
structure Asks (σ : Tree) (P : ℕ) (t : Proc) : Prop where
  self : ∃ t₀, σ.task P = some t₀ ∧ Same t₀ t ∧ t.father = t₀.father ∧ t.exitCode = t₀.exitCode ∧
    Stays t₀ ∧ ∀ f c s, t₀.pc ≠ .reaped f c s
  notZero : P ≠ 0

theorem asks_of_task (ht : σ.task P = some t) (hP : P ≠ 0) (hst : Stays t)
    (hnot : ∀ f c s, t.pc ≠ .reaped f c s) (signal : BitVec 32) (stat : Bool) :
    Asks σ P { t with signal := signal, stat := stat } :=
  ⟨⟨t, ht, ⟨rfl, rfl, rfl, rfl, rfl⟩, rfl, rfl, hst, hnot⟩, hP⟩

/-- It goes on waiting, or back to user mode. -/
theorem Asks.set_sound (h : Sound σ) (A : Asks σ P t) {state : TaskState} {pc : TreePc}
    (hstate : state ≠ .zombie) (hst : Stays { t with state := state, pc := pc })
    (hpc : ∀ f c s, pc ≠ .reaped f c s) : Sound (σ.set P { t with state := state, pc := pc }) := by
  obtain ⟨t₀, ht₀, hsame, hfather, hexit, hst₀, hnot⟩ := A.self
  refine h.set ht₀ ⟨hsame.pid, hsame.page, hsame.serial, hsame.cutime, hsame.cstime⟩
    (Or.inl A.notZero) hfather hexit ?_ (fun _ => hst) ?_ ?_
  · exact ⟨fun h => absurd h hstate, fun h => absurd h hst.1⟩
  · intro hz
    exact absurd hz hst₀.1
  · intro f c s
    exact ⟨fun h => absurd h (hpc f c s), fun h => absurd h (hnot f c s)⟩

/-- **What `sys_waitpid` does** up to the next call of `schedule`: it collects a zombie, or nobody. -/
theorem waitpid_does (σ : Tree) (A : Asks σ P t) (pid : ℤ) (nohang untraced : Bool) :
    (∃ i u, Collects σ P t i u ∧ σ.waitpid P t pid nohang untraced = σ.reap P t u) ∨
    ∃ state pc, state ≠ TaskState.zombie ∧ Stays { t with state := state, pc := pc } ∧
    (∀ f c s, pc ≠ .reaped f c s) ∧
      σ.waitpid P t pid nohang untraced = σ.set P { t with state := state, pc := pc } := by
  have huser : ∃ state pc, state ≠ TaskState.zombie ∧ Stays { t with state := state, pc := pc } ∧
      (∀ f c s, pc ≠ .reaped f c s) ∧
      σ.set P { t with state := .running, pc := .user } = σ.set P { t with state := state, pc := pc } :=
    ⟨.running, .user, fun h => (by cases h), stays_of_user rfl, fun _ _ _ h => (by cases h), rfl⟩
  cases hlook : σ.look P t pid untraced 63 false with
  | zombie i =>
    obtain ⟨-, -, hiP, u, hu, hf, hz⟩ := look_zombie hlook
    obtain ⟨t₀, ht₀, hsame, hfather, -, hst₀, hnot⟩ := A.self
    left
    refine ⟨i, u, ⟨⟨t₀, ht₀, hsame, hfather, hst₀, hnot⟩, A.notZero, hu, hiP, hf, hz⟩, ?_⟩
    simp only [waitpid, hlook, hu]
  | stopped i =>
    right
    simp only [waitpid, hlook]
    exact huser
  | nobody flag =>
    right
    simp only [waitpid, hlook]
    split
    · exact ⟨.interruptible, .waiting pid nohang untraced, fun h => (by cases h),
        ⟨fun h => (by cases h), fun _ h => (by cases h)⟩, fun _ _ _ h => (by cases h), rfl⟩
    · exact huser

theorem waitpid_sound (h : Sound σ) (A : Asks σ P t) (pid : ℤ) (nohang untraced : Bool) :
    Sound (σ.waitpid P t pid nohang untraced) := by
  rcases waitpid_does σ A pid nohang untraced with ⟨i, u, C, heq⟩ | ⟨state, pc, h1, h2, h3, heq⟩
  · rw [heq]
    exact reap_sound h C
  · rw [heq]
    exact A.set_sound h h1 h2 h3

/-! ### Slots and pages -/

/-- Nobody is released. -/
structure Quiet (σ τ : Tree) : Prop where
  tasks : ∀ i v, σ.task i = some v → ∃ w, τ.task i = some w ∧ w.serial = v.serial
  used : σ.used ⊆ τ.used
  collected : τ.collected = σ.collected

/-- The process in slot `P` has released a zombie, its child, and nobody else. -/
structure Released (σ τ : Tree) (P : ℕ) (t : Proc) (i : ℕ) (u : Proc) : Prop where
  self : σ.task P = some t
  slot : σ.task i = some u
  zombie : u.state = .zombie
  father : u.father = t.pid
  asks : t.pc = .user ∨ ∃ pid nohang untraced, t.pc = .waiting pid nohang untraced
  emptied : τ.task i = none
  others : ∀ j v, j ≠ i → σ.task j = some v → ∃ w, τ.task j = some w ∧ w.serial = v.serial
  page : u.page ∈ σ.used ∧ τ.used = σ.used.erase u.page
  collected : τ.collected = σ.collected ++ [⟨u.serial, t.serial, u.pid, u.exitCode, u.utime, u.stime⟩]

theorem quiet_set (ht : σ.task P = some t) (hs : u.serial = t.serial) : Quiet σ (σ.set P u) := by
  refine ⟨?_, fun _ h => h, rfl⟩
  intro i v hv
  rw [set_task]
  by_cases hi : i = P
  · rw [hi, ht] at hv
    cases hv
    exact ⟨u, if_pos hi, hs⟩
  · exact ⟨v, by rw [if_neg hi, hv], rfl⟩

theorem quiet_fork {k : ℕ} {page : Option ℕ} : Quiet σ (σ.fork t k page) := by
  rw [fork]
  cases hslot : ({ σ with lastPid := nextPid^[k + 1] σ.lastPid } : Tree).emptySlot with
  | none => exact ⟨fun _ v hv => ⟨v, hv, rfl⟩, fun _ h => h, rfl⟩
  | some nr =>
    cases page with
    | none => exact ⟨fun _ v hv => ⟨v, hv, rfl⟩, fun _ h => h, rfl⟩
    | some p =>
      refine ⟨?_, fun _ h => Finset.mem_insert_of_mem h, rfl⟩
      intro i v hv
      have hnone := (emptySlot_spec hslot).2.2
      have hi : i ≠ nr := by
        rintro rfl
        exact absurd (hv.symm.trans hnone) (by simp)
      exact ⟨v, (set_task _ nr _ i).trans (by rw [if_neg hi]; exact hv), rfl⟩

theorem quiet_exit (h : Sound σ) (code : ℤ) : Quiet σ (σ.exit P t code) := by
  refine ⟨?_, fun _ h => h, rfl⟩
  intro i v hv
  obtain ⟨w, hw, hsame, -⟩ := (exit_task h.toTable P t code i).2 v hv
  exact ⟨w, hw, hsame.serial⟩

theorem quiet_exited (h : Sound σ) (ht : σ.task P = some t) {code : ℤ} (hpc : t.pc = .exiting code) :
    Quiet σ (σ.exited P t code) := by
  obtain ⟨j, heq⟩ := exited_eq h ht hpc
  rw [heq]
  refine ⟨?_, fun _ h => h, rfl⟩
  intro i v hv
  have htask : addSignal (σ.set P { t with state := .zombie, exitCode := code, pc := .zombie }).task j i =
      _ := addSignal_task _ j i
  obtain ⟨w, hw, hs⟩ := (quiet_set (u := { t with state := .zombie, exitCode := code, pc := .zombie })
    ht rfl).tasks i v hv
  rw [hw, Option.map_some] at htask
  refine ⟨_, htask, ?_⟩
  split
  · exact hs
  · exact hs

theorem waitpid_releases (h : Sound σ) (ht : σ.task P = some t) (hP : P ≠ 0) (signal : BitVec 32) (stat : Bool)
    (hasks : t.pc = .user ∨ ∃ pid nohang untraced, t.pc = .waiting pid nohang untraced) (pid : ℤ)
    (nohang untraced : Bool) :
    Quiet σ (σ.waitpid P { t with signal := signal, stat := stat } pid nohang untraced) ∨
    ∃ i u, Released σ (σ.waitpid P { t with signal := signal, stat := stat } pid nohang untraced) P t i u := by
  have hpc : Stays t ∧ ∀ f c s, t.pc ≠ .reaped f c s := by
    rcases hasks with hpc | ⟨p, n, k, hpc⟩
    · rw [Stays, hpc]
      exact ⟨⟨fun h => (by cases h), fun _ h => (by cases h)⟩, fun _ _ _ h => (by cases h)⟩
    · rw [Stays, hpc]
      exact ⟨⟨fun h => (by cases h), fun _ h => (by cases h)⟩, fun _ _ _ h => (by cases h)⟩
  rcases waitpid_does σ (asks_of_task ht hP hpc.1 hpc.2 signal stat) pid nohang untraced with
    ⟨i, u, C, heq⟩ | ⟨state, pc, -, -, -, heq⟩
  · right
    rw [heq]
    refine ⟨i, u, ht, C.slot, C.zombie, C.father, hasks, ?_, ?_, ?_, reap_collected h C⟩
    · rw [reap_task h C, if_pos rfl]
    · intro j v hj hv
      rw [reap_task h C, if_neg hj]
      by_cases hjP : j = P
      · rw [hjP, ht] at hv
        cases hv
        exact ⟨_, if_pos hjP, rfl⟩
      · exact ⟨v, by rw [if_neg hjP, hv], rfl⟩
    · have hi := C.one_lt h
      exact ⟨h.used i u (by omega) C.slot, by rw [reap_eq h C]⟩
  · left
    rw [heq]
    exact quiet_set ht rfl

/-! ### Runs -/

/-- Signals, the clock and the process group change nothing here. -/
theorem Sound.touch (h : Sound σ) (ht : σ.task P = some t) (hs : Same t u)
    (hfather : u.father = t.father) (hexit : u.exitCode = t.exitCode) (hstate : u.state = t.state)
    (hpc : u.pc = t.pc) : Sound (σ.set P u) := by
  refine h.set ht hs ?_ hfather hexit ?_ ?_ ?_ ?_
  · by_cases hP : P = 0
    · right
      obtain ⟨v, hv, -, hu⟩ := h.zero
      rw [hP, hv] at ht
      cases ht
      rw [hpc, hu]
    · exact Or.inl hP
  · rw [hstate, hpc]
    exact h.zombie P t ht
  · rw [Stays, Stays, hpc]
    exact id
  · rw [hpc]
    exact id
  · intro f c s
    rw [hpc]

/-- Somebody who is in the kernel is not task 0. -/
theorem Sound.ne_zero (h : Sound σ) (ht : σ.task P = some t) (hpc : t.pc ≠ .user) : P ≠ 0 := by
  rintro rfl
  obtain ⟨v, hv, -, hu⟩ := h.zero
  rw [ht] at hv
  cases hv
  exact hpc hu

theorem waited_spec (h : Sound σ) (ht : σ.task P = some t) {pid : ℤ} {nohang untraced : Bool}
    (hpc : t.pc = .waiting pid nohang untraced) :
    Sound (σ.waited P t pid nohang untraced) ∧ (Quiet σ (σ.waited P t pid nohang untraced) ∨
      ∃ i u, Released σ (σ.waited P t pid nohang untraced) P t i u) := by
  have hP : P ≠ 0 := h.ne_zero ht (by rw [hpc]; exact fun h => (by cases h))
  have hst : Stays t := by
    rw [Stays, hpc]
    exact ⟨fun h => (by cases h), fun _ h => (by cases h)⟩
  have hnot : ∀ f c s, t.pc ≠ .reaped f c s := by
    rw [hpc]
    exact fun _ _ _ h => (by cases h)
  have A := asks_of_task ht hP hst hnot (t.signal &&& ~~~sigChld) t.stat
  rw [waited]
  simp only
  split
  · exact ⟨waitpid_sound h A pid nohang untraced,
      waitpid_releases h ht hP _ _ (Or.inr ⟨_, _, _, hpc⟩) pid nohang untraced⟩
  · exact ⟨A.set_sound h (fun h => (by cases h)) (stays_of_user rfl) (fun _ _ _ h => (by cases h)),
      Or.inl (quiet_set ht rfl)⟩

/-- **One step**: the invariant stays when an exit code can be stored, and only a father releases
somebody. -/
theorem step_spec {e : ℕ × TreeEvent} (h : Sound σ) (ha : InitStays σ e) (hs : step σ e = some τ) :
    (StatusStored σ e → Sound τ) ∧ (Quiet σ τ ∨ ∃ t i u, Released σ τ e.1 t i u) := by
  obtain ⟨P, ev⟩ := e
  cases ht : σ.task P with
  | none =>
    simp only [step, ht] at hs
    cases hs
  | some t =>
    simp only [step, ht] at hs
    cases ev with
    | fork k page =>
      cases hpc : t.pc <;> simp only [hpc, reduceCtorEq] at hs
      obtain ⟨⟨hP, hk, hpage⟩, heq⟩ := Option.ite_none_right_eq_some.1 hs
      cases heq
      exact ⟨fun _ => fork_sound h ht hpc hP hk hpage, Or.inl quiet_fork⟩
    | exit code =>
      cases hpc : t.pc <;> simp only [hpc, reduceCtorEq] at hs
      obtain ⟨hP, heq⟩ := Option.ite_none_right_eq_some.1 hs
      cases heq
      exact ⟨fun _ => exit_sound h ht hpc hP (fun h1 => ha h1 code rfl) code, Or.inl (quiet_exit h code)⟩
    | waitpid pid nohang untraced stat =>
      cases hpc : t.pc <;> simp only [hpc, reduceCtorEq] at hs
      obtain ⟨hP, heq⟩ := Option.ite_none_right_eq_some.1 hs
      cases heq
      have hnot : ∀ f c s, t.pc ≠ .reaped f c s := by
        rw [hpc]
        exact fun _ _ _ h => (by cases h)
      refine ⟨fun _ => waitpid_sound h (asks_of_task ht hP (stays_of_user hpc) hnot t.signal stat) _ _ _, ?_⟩
      rcases waitpid_releases h ht hP t.signal stat (Or.inl hpc) pid nohang untraced with hq | ⟨i, u, hr⟩
      · exact Or.inl hq
      · exact Or.inr ⟨t, i, u, hr⟩
    | run =>
      cases hpc : t.pc with
      | user => simp only [hpc, reduceCtorEq] at hs
      | zombie => simp only [hpc, reduceCtorEq] at hs
      | exiting code =>
        simp only [hpc] at hs
        cases hs
        exact ⟨fun _ => exited_sound h ht hpc, Or.inl (quiet_exited h ht hpc)⟩
      | waiting pid nohang untraced =>
        simp only [hpc] at hs
        cases hs
        obtain ⟨hsound, hq | ⟨i, u, hr⟩⟩ := waited_spec h ht hpc
        · exact ⟨fun _ => hsound, Or.inl hq⟩
        · exact ⟨fun _ => hsound, Or.inr ⟨t, i, u, hr⟩⟩
      | reaped f c s =>
        simp only [hpc] at hs
        cases hs
        refine ⟨fun hstored => finish_sound h ht hpc (hstored t f c s ht hpc), Or.inl ?_⟩
        rw [finish]
        split
        · have hq := quiet_set (u := { t with pc := .user }) ht rfl
          exact ⟨hq.tasks, hq.used, hq.collected⟩
        · exact quiet_exit h 11
    | setPgrp pgrp =>
      cases hpc : t.pc <;> simp only [hpc, reduceCtorEq] at hs
      cases hs
      exact ⟨fun _ => h.touch ht ⟨rfl, rfl, rfl, rfl, rfl⟩ rfl rfl rfl hpc.symm, Or.inl (quiet_set ht rfl)⟩
    | signal bits =>
      cases hs
      exact ⟨fun _ => h.touch ht ⟨rfl, rfl, rfl, rfl, rfl⟩ rfl rfl rfl rfl, Or.inl (quiet_set ht rfl)⟩
    | tick user =>
      cases hpc : t.pc <;> simp only [hpc, reduceCtorEq] at hs
      cases hs
      cases user
      · exact ⟨fun _ => h.touch ht ⟨rfl, rfl, rfl, rfl, rfl⟩ rfl rfl rfl hpc.symm, Or.inl (quiet_set ht rfl)⟩
      · exact ⟨fun _ => h.touch ht ⟨rfl, rfl, rfl, rfl, rfl⟩ rfl rfl rfl hpc.symm, Or.inl (quiet_set ht rfl)⟩

theorem start_sound (h : Start σ) : Sound σ := by
  obtain ⟨a, ha, ha1, ha2, ha3, ha4, ha5, ha6, ha7⟩ := h.zero
  obtain ⟨b, hb, hb1, hb2, hb3, hb4, hb5, hb6, hb7, hused, -⟩ := h.init
  obtain ⟨hexits, hcollected, hreturned⟩ := h.history
  have hwho : ∀ i t, σ.task i = some t → (i = 0 ∧ t = a) ∨ i = 1 ∧ t = b := by
    intro i t ht
    by_cases hi : 1 < i
    · rw [h.others i hi] at ht
      cases ht
    · obtain rfl | rfl : i = 0 ∨ i = 1 := by omega
      · rw [ha] at ht
        exact Or.inl ⟨rfl, (Option.some.inj ht).symm⟩
      · rw [hb] at ht
        exact Or.inr ⟨rfl, (Option.some.inj ht).symm⟩
  refine {
    slots := ?_, pids := ?_, pages := ?_, used := ?_, serials := ?_, born := ?_, live := ?_,
    old := ?_, once := ?_, cutime := ?_, cstime := ?_, zero := ⟨a, ha, ha1, ha4⟩,
    init := ⟨b, hb, hb1, stays_of_user hb4⟩, zombie := ?_, father := ?_, clean := h.clean,
    exits := ?_, returns := ?_, returned := ?_, returnedOnce := ?_, pending := ?_ }
  · intro i t ht
    rcases hwho i t ht with ⟨rfl, -⟩ | ⟨rfl, -⟩
    · decide
    · decide
  · intro i j t u ht hu heq
    rcases hwho i t ht with ⟨rfl, rfl⟩ | ⟨rfl, rfl⟩
    · rcases hwho j u hu with ⟨rfl, rfl⟩ | ⟨rfl, rfl⟩
      · rfl
      · rw [ha1, hb1] at heq
        cases heq
    · rcases hwho j u hu with ⟨rfl, rfl⟩ | ⟨rfl, rfl⟩
      · rw [ha1, hb1] at heq
        cases heq
      · rfl
  · intro i j t u hi hj ht hu _
    rcases hwho i t ht with ⟨rfl, -⟩ | ⟨rfl, -⟩
    · omega
    · rcases hwho j u hu with ⟨rfl, -⟩ | ⟨rfl, -⟩
      · omega
      · rfl
  · intro i t hi ht
    rcases hwho i t ht with ⟨rfl, -⟩ | ⟨-, rfl⟩
    · omega
    · rw [hused]
      exact Finset.mem_singleton_self _
  · intro i j t u ht hu heq
    rcases hwho i t ht with ⟨rfl, rfl⟩ | ⟨rfl, rfl⟩
    · rcases hwho j u hu with ⟨rfl, rfl⟩ | ⟨rfl, rfl⟩
      · rfl
      · omega
    · rcases hwho j u hu with ⟨rfl, rfl⟩ | ⟨rfl, rfl⟩
      · omega
      · rfl
  · intro i t ht
    rw [h.born]
    rcases hwho i t ht with ⟨-, rfl⟩ | ⟨-, rfl⟩
    · omega
    · omega
  · intro i t _ r hr
    rw [hcollected] at hr
    cases hr
  · intro r hr
    rw [hcollected] at hr
    cases hr
  · rw [hcollected]
    exact List.nodup_nil
  · intro i t ht
    rw [hcollected]
    rcases hwho i t ht with ⟨-, rfl⟩ | ⟨-, rfl⟩
    · exact ha6
    · exact hb6
  · intro i t ht
    rw [hcollected]
    rcases hwho i t ht with ⟨-, rfl⟩ | ⟨-, rfl⟩
    · exact ha7
    · exact hb7
  · intro i t ht
    rcases hwho i t ht with ⟨-, rfl⟩ | ⟨-, rfl⟩
    · rw [ha3, ha4]
      exact ⟨fun h => (by cases h), fun h => (by cases h)⟩
    · rw [hb3, hb4]
      exact ⟨fun h => (by cases h), fun h => (by cases h)⟩
  · intro i t hi ht
    rw [h.others i hi] at ht
    cases ht
  · intro s p c hmem
    rw [hexits] at hmem
    cases hmem
  · intro r hr
    rw [hcollected] at hr
    cases hr
  · intro x hx
    rw [hreturned] at hx
    cases hx
  · rw [hreturned]
    exact List.nodup_nil
  · intro i t f c s ht hpc
    rcases hwho i t ht with ⟨-, rfl⟩ | ⟨-, rfl⟩
    · rw [ha4] at hpc
      cases hpc
    · rw [hb4] at hpc
      cases hpc

theorem reach_sound (h : Reach Start step Careful σ) : Sound σ :=
  h.invariant (I := Sound) (fun _ hs => start_sound hs) (fun _ _ _ hI ha hs => (step_spec hI ha.1 hs).1 ha.2)

/-- Who has exited is a zombie in its slot, not yet collected, or was collected once. -/
def Accounted (σ : Tree) (s : ℕ) (p c : ℤ) : Prop :=
  (∃ i t, σ.task i = some t ∧ t.serial = s ∧ t.state = .zombie ∧ t.pid = p ∧ t.exitCode = c ∧
    ∀ r ∈ σ.collected, r.child ≠ s) ∨
  ∃ r ∈ σ.collected, (r.child = s ∧ r.pid = p ∧ r.code = c) ∧ (∀ r' ∈ σ.collected, r'.child = s → r' = r) ∧
    -- its father has returned from `waitpid` with pid and code, or is about to
    ((s, p, c) ∈ σ.returned ∨ ∃ i t, σ.task i = some t ∧ t.serial = r.father ∧ t.pc = .reaped p c s)

theorem Sound.accounted (h : Sound σ) {s : ℕ} {p c : ℤ} (hmem : (s, p, c) ∈ σ.exits) : Accounted σ s p c := by
  rcases h.exits s p c hmem with ⟨i, t, ht, h1, h2, h3, h4⟩ | ⟨r, hr, h1, h2, h3⟩
  · refine Or.inl ⟨i, t, ht, h1, (h.zombie i t ht).2 h2, h3, h4, ?_⟩
    rw [← h1]
    exact h.live i t ht
  · refine Or.inr ⟨r, hr, ⟨h1, h2, h3⟩, ?_, ?_⟩
    · intro r' hr' heq
      exact List.inj_on_of_nodup_map h.once hr' hr (heq.trans h1.symm)
    · have hret := h.returns r hr
      rw [h1, h2, h3] at hret
      exact hret

/-- **No process is lost.**  In every run in which init does not exit and every father that has collected
a child can store its exit code, every process but task 0 and init has a father that is there and no zombie; who
has exited is a zombie in its slot until its father collects it, once, and returns its pid and its code, once;
the times are added once; only such a `waitpid` empties a slot and frees its page; `tell_father` finds a father
and `release` its task. -/
theorem process_tree_loses_nobody (h : Reach Start step Careful σ) : (∀ i t, 1 < i → σ.task i = some t →
      ∃ j u, σ.task j = some u ∧ u.pid = t.father ∧ u.state ≠ .zombie) ∧
    (∀ s p c, (s, p, c) ∈ σ.exits → Accounted σ s p c) ∧
    ((σ.returned.map Prod.fst).Nodup ∧ ∀ x ∈ σ.returned, ∃ r ∈ σ.collected, x = (r.child, r.pid, r.code)) ∧
    (∀ i t, σ.task i = some t →
      t.cutime = ((σ.collected.filter (·.father = t.serial)).map Collected.utime).sum ∧
      t.cstime = ((σ.collected.filter (·.father = t.serial)).map Collected.stime).sum) ∧
    (∀ e τ, InitStays σ e → step σ e = some τ → Quiet σ τ ∨ ∃ t i u, Released σ τ e.1 t i u) ∧
    σ.complained = false ∧ σ.panicked = false := by
  have hsound := reach_sound h
  refine ⟨?_, fun s p c hmem => hsound.accounted hmem, ⟨hsound.returnedOnce, hsound.returned⟩,
    fun i t ht => ⟨hsound.cutime i t ht, hsound.cstime i t ht⟩,
    fun e τ ha hs => (step_spec hsound ha hs).2, hsound.clean⟩
  intro i t hi ht
  obtain ⟨-, j, u, hu, hpid, hst⟩ := hsound.father i t hi ht
  exact ⟨j, u, hu, hpid, fun hz => hst.1 ((hsound.zombie j u hu).1 hz)⟩

/-- Task 0 and init. -/
def justInit : Tree where
  task i :=
    if i = 0 then some ⟨0, -1, 0, .running, 0, 0, 0, 0, 0, 0, 0, .user, true, 0⟩
    else if i = 1 then some ⟨1, 0, 0, .running, 0, 0, 0, 0, 0, 0, 1, .user, true, 1⟩
    else none
  lastPid := 1
  used := {1}
  complained := false
  panicked := false
  born := 2
  exits := []
  collected := []
  returned := []

theorem justInit_start : Start justInit := by
  refine ⟨⟨_, rfl, rfl, rfl, rfl, rfl, rfl, rfl, rfl⟩,
    ⟨_, rfl, rfl, rfl, rfl, rfl, rfl, rfl, rfl, rfl, ?_⟩, ?_, rfl, ⟨rfl, rfl⟩, rfl, rfl, rfl, rfl⟩
  · intro h
    cases h
  · intro i hi
    have h0 : i ≠ 0 := by omega
    have h1 : i ≠ 1 := by omega
    simp [justInit, h0, h1]

/-- For a run in which init does not exit and all addresses are good. -/
theorem careful_along (es : List (ℕ × TreeEvent)) (h : checks step (fun σ e => (match e.2 with
    | .exit _ => e.1 != 1
    | _ => true) && (σ.task e.1).all Proc.stat) justInit es = true) : Along step Careful justInit es := by
  refine (along_of_checks h).mono fun σ e hok => ?_
  obtain ⟨hexit, hstat⟩ := Bool.and_eq_true_iff.1 hok
  refine ⟨fun h1 code heq => ?_, fun t f c s ht _ => ?_⟩
  · rw [heq, h1] at hexit
    cases hexit
  · rw [ht] at hstat
    exact hstat

/-- A child of init forks, and asks for its child with a bad address; the child has exited. -/
def badAddress : List (ℕ × TreeEvent) :=
  [(1, .fork 0 (some 2)), (2, .fork 0 (some 3)), (3, .exit 256), (3, .run),
    (2, .waitpid (-1) false false false)]

set_option maxRecDepth 8000 in
/-- **A child is lost.**  Its father has released it when the store of the exit code kills it: nobody
returns the pid of the child. -/
theorem killed_father_loses_child : ¬∀ σ, Reach Start step InitStays σ →
    ∀ s p c, (s, p, c) ∈ σ.exits → Accounted σ s p c := by
  intro hall
  obtain ⟨σ, t, hexec, ht, hcollected, hexits, hpc, hstat, hserial, hreturned⟩ :
      ∃ σ t, exec step justInit badAddress = some σ ∧ σ.task 2 = some t ∧ σ.collected = [⟨3, 2, 3, 256, 0, 0⟩] ∧
        (3, 3, 256) ∈ σ.exits ∧ t.pc = .reaped 3 256 3 ∧ t.stat = false ∧ t.serial = 2 ∧ σ.returned = [] :=
    ⟨_, _, rfl, rfl, rfl, List.mem_singleton.2 rfl, rfl, rfl, rfl, rfl⟩
  have hcareful : Along step Careful justInit badAddress := careful_along badAddress (by rfl)
  have hreach := (Reach.start justInit_start).exec (hcareful.mono fun _ _ h => h.1) hexec
  have hsound := reach_sound ((Reach.start justInit_start).exec hcareful hexec)
  have hstep : step σ (2, .run) = some (σ.exit 2 t 11) := by
    simp [step, ht, hpc, finish, hstat]
  have hkilled : Reach Start step InitStays (σ.exit 2 t 11) :=
    .step _ hreach (fun h1 => absurd h1 (by decide)) hstep
  rcases hall _ hkilled 3 3 256 hexits with ⟨-, -, -, -, -, -, -, hnone⟩ | ⟨r, hr, -, -,
    hret | ⟨i, w, hw, hfather, hwpc⟩⟩
  · exact hnone ⟨3, 2, 3, 256, 0, 0⟩ (hcollected ▸ List.mem_singleton.2 rfl) rfl
  · have hret' : (3, 3, 256) ∈ σ.returned := hret
    rw [hreturned] at hret'
    cases hret'
  · -- the father is on its way out
    have hr' : r ∈ σ.collected := hr
    rw [hcollected, List.mem_singleton] at hr'
    obtain ⟨hback, hfwd⟩ := exit_task hsound.toTable 2 t 11 i
    cases hv : σ.task i with
    | none =>
      rw [hback hv] at hw
      cases hw
    | some v =>
      obtain ⟨w', hw', hsame, -, -, -, hpc'⟩ := hfwd v hv
      obtain rfl : w = w' := Option.some.inj (hw.symm.trans hw')
      have hi : i = 2 := hsound.serials i 2 v t hv ht (by rw [← hsame.serial, hfather, hr', hserial])
      rw [if_pos hi, hwpc] at hpc'
      cases hpc'

/-- Init forks a child and waits for it; the child runs for a tick and exits. -/
def orphanRun : List (ℕ × TreeEvent) :=
  [(1, .fork 0 (some 2)), (1, .waitpid (-1) false false true), (2, .tick true), (2, .exit 256), (2, .run),
    (1, .run), (1, .run)]

set_option maxRecDepth 8000 in
theorem process_tree_loses_nobody_waitpid : ∃ σ, Reach Start step Careful σ ∧
    σ.returned = [(2, 2, 256)] ∧ σ.complained = false ∧ σ.panicked = false := by
  obtain ⟨σ, hexec, hreturned⟩ : ∃ σ, exec step justInit orphanRun = some σ ∧
    σ.returned = [(2, 2, 256)] := ⟨_, rfl, rfl⟩
  have h := (Reach.start justInit_start).exec (careful_along orphanRun (by rfl)) hexec
  exact ⟨σ, h, hreturned, (process_tree_loses_nobody h).2.2.2.2.2⟩

end OldLinux.Sched.Tree
