import OldLinux.Inodes.Single

/-!
# The steps of `iget`, `iput` and `new_inode`

Each step moves the references of one process, and the counts with them.
-/

namespace OldLinux.Inodes.Table

open Function Lib

variable {n : ℕ} {σ τ : Table n} {P Q : Fin n} {p : Proc} {i j e : Fin 32} {k : After} {dev nr : ℕ}

/-! ### `get_empty_inode` -/

theorem count_singleton (i j : Fin 32) : [i].count j = if j = i then 1 else 0 := by
  rw [List.count_singleton]
  by_cases h : j = i
  · simp [h]
  · simp [h, Ne.symm h]

/-- **An entry without references** is cleared and taken. -/
theorem take_spec (h : Sound σ) {k : Caller} (hpc : (σ.proc P).pc = .emptyWait k i)
    (hcount : (σ.inode i).count = 0) : Sound (σ.take P k i) ∧ Tidy σ (σ.take P k i) P := by
  have hk : k.Real := by
    have hreal := h.real P
    rwa [hpc] at hreal
  obtain ⟨ρ, hρ⟩ : ∃ ρ, σ.setInode i { Inode.zero with count := 1 } = ρ := ⟨_, rfl⟩
  have hinode : ∀ j, ρ.inode j = if j = i then { Inode.zero with count := 1 } else σ.inode j := by
    intro j
    rw [← hρ, setInode_inode]
  have hsub : ∀ j, (ρ.inode j).dev ≠ 0 → (ρ.inode j).dev = (σ.inode j).dev ∧
      (ρ.inode j).num = (σ.inode j).num := by
    intro j hj
    rw [hinode] at hj ⊢
    split at hj
    · exact absurd rfl hj
    · rename_i hne
      rw [if_neg hne]
      exact ⟨rfl, rfl⟩
  have hbits : ∀ j, (ρ.inode j).dev ≠ 0 → σ.bit (ρ.inode j).dev (ρ.inode j).num = true := by
    intro j hj
    obtain ⟨h1, h2⟩ := hsub j hj
    rw [h1] at hj
    rw [h1, h2]
    exact h.bits j hj
  have hmove : ∀ (p : Proc) (τ : Table n), τ.inode = ρ.inode → τ.bit = σ.bit → τ.sb = σ.sb →
      τ.proc = update σ.proc P p →
      (∀ j, p.refs.count j = (σ.proc P).refs.count j + if j = i then 1 else 0) →
      (∀ e ∈ p.pc.empty, e = i) → p.pc.Real → Sound τ := by
    intro p τ hin hbit hsb hproc hrefs hempty hreal
    refine Move.sound (p := p) ⟨hproc, ?_, ?_, hreal, ?_, ?_, ?_, ?_⟩ h
    · intro j
      rw [hin, hinode, hrefs]
      split
      · rename_i hj
        rw [hj, hcount]
        show 1 + _ = _
        omega
      · omega
    · intro e he
      rw [hempty e he, hin, hinode, if_pos rfl]
      exact ⟨rfl, rfl⟩
    · intro j hne
      rw [hin, hinode] at hne
      by_cases hj : j = i
      · rw [hj]
        exact Or.inl hcount
      · rw [if_neg hj] at hne
        rcases hne with hne | hne
        · exact absurd rfl hne
        · exact absurd rfl hne
    · rw [hin]
      exact single_of_sub (τ := ρ) h hsub
    · rw [hin, hbit]
      exact hbits
    · rw [hsb]
      exact h.sb
  have htidy : ∀ τ : Table n, τ.inode = ρ.inode → τ.freed = σ.freed → Tidy σ τ P := by
    intro τ hin hfreed
    refine ⟨?_, fun _ _ => Or.inr (by rw [hfreed])⟩
    intro j
    by_cases hj : j = i
    · rw [hj]
      exact Or.inl hcount
    · rw [hin, hinode, if_neg hj]
      exact Or.inr (Or.inr ⟨rfl, rfl⟩)
  have hproc : ρ.proc = σ.proc := by rw [← hρ]; rfl
  have hrest : ρ.bit = σ.bit ∧ ρ.sb = σ.sb := by rw [← hρ]; exact ⟨rfl, rfl⟩
  have hfreed : ρ.freed = σ.freed := by rw [← hρ]; rfl
  cases k with
  | iget dev nr =>
    simp only [take, hρ]
    refine ⟨hmove ⟨.look i dev nr, (σ.proc P).held⟩ _ rfl hrest.1 hrest.2 ?_ ?_ ?_ hk, htidy _ rfl hfreed⟩
    · show update ρ.proc P _ = _
      rw [hproc]
    · intro j
      rw [Proc.refs, Proc.refs, hpc, List.count_append, List.count_append]
      show _ + [i].count j = _ + 0 + _
      rw [count_singleton]
      rfl
    · intro e he
      exact List.mem_singleton.1 he
  | newInode dev =>
    simp only [take, hρ]
    refine ⟨hmove ⟨.newInode i dev, (σ.proc P).held⟩ _ rfl hrest.1 hrest.2 ?_ ?_ ?_ hk, htidy _ rfl hfreed⟩
    · show update ρ.proc P _ = _
      rw [hproc]
    · intro j
      rw [Proc.refs, Proc.refs, hpc, List.count_append, List.count_append]
      show _ + [i].count j = _ + 0 + _
      rw [count_singleton]
      rfl
    · intro e he
      exact List.mem_singleton.1 he
  | other =>
    simp only [take, hρ]
    refine ⟨hmove ⟨.user, i :: (σ.proc P).held⟩ _ rfl hrest.1 hrest.2 ?_ ?_ ?_ trivial, htidy _ rfl hfreed⟩
    · show update ρ.proc P _ = _
      rw [hproc]
    · intro j
      rw [Proc.refs, Proc.refs, hpc, List.count_append, List.count_append, List.count_cons]
      show _ + 0 = _ + 0 + _
      by_cases hj : j = i
      · simp [hj]
      · simp [hj, Ne.symm hj]
    · intro e he
      cases he

/-! ### `iget` -/

theorem count_cons (i j : Fin 32) (l : List (Fin 32)) :
    (i :: l).count j = l.count j + if j = i then 1 else 0 := by
  rw [List.count_cons]
  by_cases h : j = i
  · simp [h]
  · simp [h, Ne.symm h]

/-- **The entry that was found** has one more reference. -/
theorem hit_spec (h : Sound σ) (hrefs : (σ.proc P).pc.refs = [e]) (hempty : (σ.proc P).pc.empty = [e])
    (hdev : (σ.inode i).dev ≠ 0) : Sound (σ.hit P e i) ∧ Tidy σ (σ.hit P e i) P := by
  obtain ⟨he0, he1⟩ := h.blank P e (by rw [hempty]; exact List.mem_singleton_self e)
  have hei : e ≠ i := by
    rintro rfl
    exact hdev he0
  have hmove : ∀ (p : Proc) (τ : Table n),
      (∀ j, τ.inode j = if j = i then { σ.inode i with count := (σ.inode i).count + 1 }
        else σ.inode j) → τ.bit = σ.bit → τ.sb = σ.sb → τ.freed = σ.freed →
      τ.proc = update σ.proc P p →
      (∀ j, p.refs.count j = (σ.proc P).refs.count j + if j = i then 1 else 0) →
      (∀ x ∈ p.pc.empty, x = e) → p.pc.Real → Sound τ ∧ Tidy σ τ P := by
    intro p τ hin hbit hsb hfreed hproc hp hblank hreal
    have S : SameNames σ τ := by
      refine ⟨?_, ?_, hbit, by rw [hsb]; exact h.sb, hfreed⟩
      · intro j
        rw [hin]
        split
        · rename_i hj
          rw [hj]
        · rfl
      · intro j
        rw [hin]
        split
        · rename_i hj
          rw [hj]
        · rfl
    refine ⟨Move.sound (p := p) ⟨hproc, ?_, ?_, hreal, ?_, S.single h, S.bits h, S.sb⟩ h, S.tidy P⟩
    · intro j
      rw [hin, hp]
      split
      · rename_i hj
        rw [hj]
        show _ + 1 + _ = _
        omega
      · omega
    · intro x hx
      rw [hblank x hx, hin, if_neg hei]
      exact ⟨he0, he1⟩
    · intro j hne
      by_cases hj : j = i
      · rw [hj]
        exact Or.inr (Or.inr (Or.inl hdev))
      · rw [hin, if_neg hj] at hne
        rcases hne with hne | hne
        · exact absurd rfl hne
        · exact absurd rfl hne
  rw [hit.eq_def]
  simp only
  split
  · refine hmove ⟨.put e .done, i :: (σ.proc P).held⟩ _ (setCount_inode _) rfl rfl rfl rfl ?_ ?_ trivial
    · intro j
      rw [Proc.refs, Proc.refs, hrefs, List.count_append, List.count_append, count_cons]
      show _ + [e].count j = _
      omega
    · intro x hx
      cases hx
  · rename_i dev hsb
    refine hmove ⟨.put i (.cross e dev), (σ.proc P).held⟩ _ (setCount_inode _) rfl rfl rfl rfl ?_ ?_ ?_
    · intro j
      rw [Proc.refs, Proc.refs, hrefs, List.count_append, List.count_append]
      show (σ.proc P).held.count j + (i :: [e]).count j = _
      rw [count_cons]
      omega
    · intro x hx
      exact List.mem_singleton.1 hx
    · rintro rfl
      split at hsb
      · exact h.sb i hsb
      · cases hsb

/-- No entry has the inode. -/
theorem lookup_none (hnone : σ.lookup dev nr = none) (i : Fin 32) : ¬(σ.inode i).is dev nr := by
  have := List.find?_eq_none.1 hnone i (List.mem_finRange i)
  simpa using this

theorem lookup_some (hsome : σ.lookup dev nr = some i) : (σ.inode i).is dev nr := by
  have := List.find?_some hsome
  simpa using this

/-- **The empty entry** gets an inode that no entry has and whose bit is set. -/
theorem Sound.named {t : Inode} (h : Sound σ) (hmem : e ∈ (σ.proc P).pc.empty)
    (hfresh : ∀ j, ¬(σ.inode j).is dev nr) (ht : t.is dev nr) (hcount : t.count = (σ.inode e).count)
    (hin : ∀ j, τ.inode j = if j = e then t else σ.inode j) (hproc : τ.proc = update σ.proc P p)
    (hrefs : ∀ j, p.refs.count j = (σ.proc P).refs.count j) (hempty : p.pc.empty = []) (hreal : p.pc.Real)
    (hsb : τ.sb = σ.sb) (hfreed : τ.freed = σ.freed) (hbit : τ.bit dev nr = true)
    (hbits : ∀ d m, σ.bit d m = true → τ.bit d m = true) : Sound τ ∧ Tidy σ τ P := by
  have he : e ∈ (σ.proc P).pc.refs := Pc.refs_of_empty hmem
  have hM : Move σ τ P p := by
    refine ⟨hproc, ?_, fun x hx => ?_, hreal, ?_, ?_, ?_, fun i => hsb ▸ h.sb i⟩
    · intro j
      have hsame : (τ.inode j).count = (σ.inode j).count := by
        rw [hin]
        split
        · rename_i hj
          rw [hj, hcount]
        · rfl
      rw [hsame, hrefs]
    · rw [hempty] at hx
      cases hx
    · intro j hne
      by_cases hj : j = e
      · rw [hj]
        exact Or.inr (Or.inl (List.mem_append_right _ he))
      · rw [hin, if_neg hj] at hne
        rcases hne with hne | hne
        · exact absurd rfl hne
        · exact absurd rfl hne
    · intro a b ha hb
      by_cases hae : a = e
      · by_cases hbe : b = e
        · rw [hae, hbe]
        · rw [hae, hin e, if_pos rfl, hin b, if_neg hbe, ht.1, ht.2] at hb
          exact absurd hb (hfresh b)
      · rw [hin a, if_neg hae] at ha hb
        by_cases hbe : b = e
        · rw [hbe, hin, if_pos rfl] at hb
          exact absurd ⟨hb.1.symm.trans ht.1, hb.2.symm.trans ht.2⟩ (hfresh a)
        · rw [hin, if_neg hbe] at hb
          exact h.single a b ha hb
    · intro j hj
      rw [hin] at hj ⊢
      split
      · rw [ht.1, ht.2]
        exact hbit
      · rename_i hne
        rw [if_neg hne] at hj
        exact hbits _ _ (h.bits j hj)
  refine ⟨hM.sound h, fun j => ?_, fun _ _ => Or.inr (by rw [hfreed])⟩
  by_cases hj : j = e
  · rw [hj]
    exact Or.inr (Or.inl ⟨he, Nat.le_of_eq (h.blank P e hmem).2⟩)
  · rw [hin, if_neg hj]
    exact Or.inr (Or.inr ⟨rfl, rfl⟩)

theorem install_spec (h : Sound σ) (hpc : (σ.proc P).pc = .look e dev nr)
    (hnone : σ.lookup dev nr = none) (hbit : σ.bit dev nr = true) :
    Sound (σ.install P e dev nr) ∧ Tidy σ (σ.install P e dev nr) P := by
  have hmem : e ∈ (σ.proc P).pc.empty := by
    rw [hpc]
    exact List.mem_singleton_self e
  refine h.named (t := { σ.inode e with dev := dev, num := nr, lock := true })
    (p := ⟨.read e, (σ.proc P).held⟩) hmem (lookup_none hnone) ⟨rfl, rfl⟩ rfl (setInode_inode _) rfl
    (fun j => ?_) rfl trivial rfl rfl hbit fun _ _ hset => hset
  rw [Proc.refs, Proc.refs, hpc]
  rfl

theorem loaded_spec (h : Sound σ) (hpc : (σ.proc P).pc = .read i) :
    Sound (σ.loaded P i) ∧ Tidy σ (σ.loaded P i) P := by
  have S₀ := sameNames_setInode (i := i)
    (t := { σ.inode i with disk := σ.disk (σ.inode i).dev (σ.inode i).num, lock := false }) h rfl rfl
  have S : SameNames σ (σ.loaded P i) := ⟨S₀.dev, S₀.num, rfl, h.sb, rfl⟩
  have hM : Move σ (σ.loaded P i) P ⟨.user, i :: (σ.proc P).held⟩ := by
    refine S.move h ?_ rfl ?_ (fun _ he => (by cases he)) trivial
    · intro j
      show ((σ.setInode i _).inode j).count = _
      rw [setInode_inode]
      split
      · rename_i hj
        rw [hj]
      · rfl
    · intro j
      rw [Proc.refs, Proc.refs, hpc, List.count_append, List.count_append, count_cons]
      show _ + 0 = _ + [i].count j
      rw [count_singleton]
      omega
  exact ⟨hM.sound h, S.tidy P⟩

/-! ### `new_inode` -/

/-- **A number whose bit was clear** is in no entry. -/
theorem allocated_spec (h : Sound σ) (hpc : (σ.proc P).pc = .newInode i dev) (hbit : σ.bit dev nr = false) :
    Sound (σ.allocated P i dev nr) ∧ Tidy σ (σ.allocated P i dev nr) P := by
  have hmem : i ∈ (σ.proc P).pc.empty := by
    rw [hpc]
    exact List.mem_singleton_self i
  have hdev : dev ≠ 0 := by
    have hreal := h.real P
    rwa [hpc] at hreal
  have hfresh : ∀ j, ¬(σ.inode j).is dev nr := by
    rintro j ⟨h1, h2⟩
    have hset := h.bits j (by rw [h1]; exact hdev)
    rw [h1, h2, hbit] at hset
    cases hset
  refine h.named (p := ⟨.user, i :: (σ.proc P).held⟩) hmem hfresh ⟨rfl, rfl⟩ (h.blank P i hmem).2.symm
    (setInode_inode _) rfl (fun j => ?_) rfl trivial rfl rfl ?_ fun d m hset => ?_
  · rw [Proc.refs, Proc.refs, hpc, List.count_append, List.count_append, count_cons]
    show _ + 0 = _ + [i].count j
    rw [count_singleton]
    omega
  · show update σ.bit dev (update (σ.bit dev) nr true) dev nr = true
    rw [update_self, update_self]
  · show update σ.bit dev (update (σ.bit dev) nr true) d m = true
    rw [update_apply]
    split
    · rename_i hd
      rw [update_apply, ← hd]
      split
      · rfl
      · exact hset
    · exact hset

/-! ### `iput` -/

/-- The entry that `iput` works on is not the empty one of the `iget` that has called it. -/
theorem Sound.ne_empty (h : Sound σ) (hrefs : (σ.proc P).pc.refs = i :: k.refs)
    (hempty : (σ.proc P).pc.empty = k.refs) (he : e ∈ k.refs) : e ≠ i := by
  rintro rfl
  have h1 := (h.blank P e (by rw [hempty]; exact he)).2
  have hle := le_sum_univ (fun P => (σ.proc P).refs.count e) P
  have hpos := List.count_pos_iff.2 he
  rw [h.counts] at h1
  simp only [Proc.refs, hrefs, List.count_append, count_cons, if_true] at hle h1
  omega

theorem after_refs (k : After) : (After.pc k).refs = k.refs ∧ (After.pc k).empty = k.refs := by
  cases k <;> exact ⟨rfl, rfl⟩

theorem after_real (hk : k.Real) : (After.pc k).Real := by
  cases k
  · trivial
  · exact hk

/-- **A reference is given back.** -/
theorem drop_spec (h : Sound σ) (hrefs : (σ.proc P).pc.refs = i :: k.refs)
    (hempty : (σ.proc P).pc.empty = k.refs) (hk : k.Real) :
    Sound (σ.drop P i k) ∧ Tidy σ (σ.drop P i k) P := by
  have hpos : 0 < (σ.inode i).count :=
    h.count_pos (List.mem_append_right _ (by rw [hrefs]; exact List.mem_cons_self))
  have S₀ := sameNames_setInode (i := i) (t := { σ.inode i with count := (σ.inode i).count - 1 }) h rfl rfl
  have S : SameNames σ (σ.drop P i k) := ⟨S₀.dev, S₀.num, rfl, h.sb, rfl⟩
  have hin : ∀ j, (σ.drop P i k).inode j =
      if j = i then { σ.inode i with count := (σ.inode i).count - 1 } else σ.inode j :=
    setCount_inode _
  have hM : Move σ (σ.drop P i k) P ⟨After.pc k, (σ.proc P).held⟩ := by
    refine ⟨rfl, ?_, ?_, after_real hk, ?_, S.single h, S.bits h, S.sb⟩
    · intro j
      simp only [hin, Proc.refs, hrefs, (after_refs k).1, List.count_append, count_cons]
      split
      · rename_i hj
        rw [hj]
        show _ - 1 + _ = _
        omega
      · omega
    · intro e he
      have he' : e ∈ k.refs := by
        rw [← (after_refs k).2]
        exact he
      rw [hin, if_neg (h.ne_empty hrefs hempty he')]
      exact h.blank P e (by rw [hempty]; exact he')
    · intro j hne
      by_cases hj : j = i
      · rw [hj]
        refine Or.inr (Or.inl (List.mem_append_right _ ?_))
        rw [hrefs]
        exact List.mem_cons_self
      · rw [hin, if_neg hj] at hne
        rcases hne with hne | hne
        · exact absurd rfl hne
        · exact absurd rfl hne
  exact ⟨hM.sound h, S.tidy P⟩

/-- **The inode is freed**, and its bit is cleared: nobody else has a reference to it. -/
theorem freeInode_spec (h : Sound σ) (hpc : (σ.proc P).pc = .putTrunc i k) :
    Sound (σ.freeInode P i k) ∧ Tidy σ (σ.freeInode P i k) P := by
  have hrefs : (σ.proc P).pc.refs = i :: k.refs := by rw [hpc]; rfl
  have hempty : (σ.proc P).pc.empty = k.refs := by rw [hpc]; rfl
  have hk : k.Real := by
    have hreal := h.real P
    rwa [hpc] at hreal
  have hmem : i ∈ (σ.proc P).pc.refs := by
    rw [hrefs]
    exact List.mem_cons_self
  have hpos := h.count_pos (List.mem_append_right _ hmem)
  by_cases hbad : 1 < (σ.inode i).count ∨ (σ.inode i).disk.nlinks ≠ 0
  · rw [freeInode, if_pos hbad]
    exact panic_spec h P
  · obtain ⟨τ, hτ⟩ : ∃ τ, σ.freeInode P i k = τ := ⟨_, rfl⟩
    have hparts : (∀ j, τ.inode j = if j = i then Inode.zero else σ.inode j) ∧
          τ.bit = update σ.bit (σ.inode i).dev
          (update (σ.bit (σ.inode i).dev) (σ.inode i).num false) ∧
        τ.sb = σ.sb ∧ τ.proc = update σ.proc P ⟨After.pc k, (σ.proc P).held⟩ ∧
        τ.freed = update σ.freed (σ.inode i).dev (update (σ.freed (σ.inode i).dev)
          (σ.inode i).num (σ.freed (σ.inode i).dev (σ.inode i).num + 1)) := by
      rw [← hτ, freeInode, if_neg hbad]
      exact ⟨setInode_inode _, rfl, rfl, rfl, rfl⟩
    obtain ⟨hin, hbit, hsb, hproc, hfreed⟩ := hparts
    rw [hτ]
    rw [not_or, Nat.not_lt] at hbad
    have hsub : ∀ j, (τ.inode j).dev ≠ 0 → j ≠ i := by
      rintro j hj rfl
      rw [hin, if_pos rfl] at hj
      exact hj rfl
    have hM : Move σ τ P ⟨After.pc k, (σ.proc P).held⟩ := by
      refine ⟨hproc, ?_, ?_, after_real hk, ?_, ?_, ?_, by rw [hsb]; exact h.sb⟩
      · intro j
        simp only [hin, Proc.refs, hrefs, (after_refs k).1, List.count_append, count_cons]
        split
        · rename_i hj
          rw [hj]
          show 0 + _ = _
          omega
        · omega
      · intro e he
        have he' : e ∈ k.refs := by
          rw [← (after_refs k).2]
          exact he
        rw [hin, if_neg (h.ne_empty hrefs hempty he')]
        exact h.blank P e (by rw [hempty]; exact he')
      · intro j hne
        by_cases hj : j = i
        · rw [hj]
          exact Or.inr (Or.inl (List.mem_append_right _ hmem))
        · rw [hin, if_neg hj] at hne
          rcases hne with hne | hne
          · exact absurd rfl hne
          · exact absurd rfl hne
      · refine single_of_sub h ?_
        intro j hj
        rw [hin, if_neg (hsub j hj)]
        exact ⟨rfl, rfl⟩
      · intro j hj
        have hji := hsub j hj
        rw [hin, if_neg hji] at hj ⊢
        have hset := h.bits j hj
        rw [hbit, update_apply]
        split
        · rename_i hd
          rw [update_of_ne]
          · rw [← hd]
            exact hset
          · intro hnum
            exact hji (h.single j i hj ⟨hd.symm, hnum.symm⟩)
        · exact hset
    refine ⟨hM.sound h, ?_⟩
    refine ⟨?_, ?_⟩
    · intro j
      by_cases hj : j = i
      · rw [hj]
        exact Or.inr (Or.inl ⟨hmem, hbad.1⟩)
      · rw [hin, if_neg hj]
        exact Or.inr (Or.inr ⟨rfl, rfl⟩)
    · intro dev nr
      by_cases his : (σ.inode i).is dev nr
      · exact Or.inl ⟨i, hmem, hbad.1, his⟩
      · right
        rw [hfreed, update_apply]
        split
        · rename_i hd
          rw [update_of_ne, hd]
          intro hnum
          exact his ⟨hd.symm, hnum.symm⟩
        · rfl

end OldLinux.Inodes.Table
