import OldLinux.Directory.Unique

/-!
# Filling and clearing entries

The two writes to the entries of a directory, and with them the runs: names stay unique and none is
lost as long as the calls do not cross.  Two calls that create the same name and cross make it twice.
-/

namespace OldLinux.Directory

open Function Lib

variable {σ τ : Dir} {P Q b b' v block inode : ℕ} {k k' : Fin 64} {pc : Pc} {x y : Name} {c : Component}

namespace Dir

theorem setEntry_data (e : Entry) (v : ℕ) (j : Fin 64) : (σ.setEntry block k e).data v j =
    if v = block ∧ j = k then e else σ.data v j := by
  simp only [setEntry, update_apply]
  by_cases hv : v = block
  · subst hv
    by_cases hj : j = k
    · simp [hj]
    · simp [hj]
  · simp [hv]

/-! ### The entry that is filled -/

/-- What is known when `add_entry` has found a free entry. -/
structure Fills (σ : Dir) (P : ℕ) (c : Component) (inode b block : ℕ) (k : Fin 64) : Prop where
  pc : σ.proc P = .addIn c inode b block
  slot : σ.freeSlot b block = some k
  real : inode ≠ 0
  size : 64 * b ≤ σ.size
  there : block ≠ 0
  bmap : σ.bmap b = block
  absent : Absent σ c.padded

theorem Sound.fills (h : Sound σ) (hpc : σ.proc P = .addIn c inode b block)
    (hslot : σ.freeSlot b block = some k) : Fills σ P c inode b block k := by
  have hk := h.knows P
  rw [hpc] at hk
  obtain ⟨h1, h2, h3, h4⟩ := hk.walks
  exact ⟨hpc, hslot, h1, h2, h3, h4, fun b' k hl => hk.missed _ b' k hl rfl⟩

variable (F : Fills σ P c inode b block k)
include F

/-- The entry was not live, and it is not far behind the end. -/
theorem Fills.free : (σ.size ≤ 64 * b + k.val → 64 * b + k.val = σ.size) ∧ ¬Live σ b k := by
  have hsome := List.find?_some F.slot
  rw [decide_eq_true_eq] at hsome
  constructor
  · intro hge
    -- the entries before it are inside, or the search would have stopped there
    by_contra hne
    have hsize := F.size
    have hlt : σ.size - 64 * b < 64 := by
      omega
    obtain ⟨as, bs, hlist, hbefore⟩ := List.find?_eq_some_iff_append.1 F.slot |>.2
    have hmem : (⟨σ.size - 64 * b, hlt⟩ : Fin 64) ∈ as := by
      have hall := List.mem_finRange (⟨σ.size - 64 * b, hlt⟩ : Fin 64)
      rw [hlist] at hall
      rcases List.mem_append.1 hall with hin | hin
      · exact hin
      · have hsorted : (List.finRange 64).Pairwise (· < ·) := List.pairwise_lt_finRange 64
        rw [hlist] at hsorted
        have hk := (List.pairwise_append.1 hsorted).2.1
        rcases List.mem_cons.1 hin with heq | hin
        · have hval : σ.size - 64 * b = k.val := congrArg Fin.val heq
          omega
        · have hltk : k.val < σ.size - 64 * b := (List.pairwise_cons.1 hk).1 _ hin
          omega
    have hno := hbefore _ hmem
    simp only [Bool.not_eq_true', decide_eq_false_iff_not, not_or] at hno
    omega
  · intro hl
    have hinside := hl.inside
    have hinode := hl.inode
    rw [F.bmap] at hinode
    rcases hsome with hge | h0
    · omega
    · exact hinode h0

/-- The live entries afterwards. -/
theorem Fills.live (hinj : ∀ r r', σ.ptr r ≠ 0 → σ.ptr r = σ.ptr r' → r = r') :
    (∀ b' k', Live (σ.fill P c inode b block k) b' k' ↔ (b' = b ∧ k' = k) ∨ Live σ b' k') ∧
    (σ.fill P c inode b block k).nameAt b k = c.padded ∧
    ∀ b' k', Live σ b' k' → (σ.fill P c inode b block k).nameAt b' k' = σ.nameAt b' k' := by
  have hdata : ∀ v j, (σ.fill P c inode b block k).data v j =
      if v = block ∧ j = k then ⟨inode, c.padded⟩ else σ.data v j := setEntry_data _
  have hbmap : ∀ b', (σ.fill P c inode b block k).bmap b' = σ.bmap b' := fun _ => rfl
  obtain ⟨hend, hdead⟩ := F.free
  have hother : ∀ b' k', σ.bmap b' ≠ 0 → ¬(b' = b ∧ k' = k) → ¬(σ.bmap b' = block ∧ k' = k) := by
    intro b' k' hne hno heq
    refine hno ⟨bmap_injective hinj hne (heq.1.trans F.bmap.symm), heq.2⟩
  have hsize : (σ.fill P c inode b block k).size =
      if σ.size ≤ 64 * b + k.val then 64 * b + k.val + 1 else σ.size := rfl
  refine ⟨?_, ?_, ?_⟩
  · intro b' k'
    by_cases hnew : b' = b ∧ k' = k
    · obtain ⟨rfl, rfl⟩ := hnew
      refine ⟨fun _ => Or.inl ⟨rfl, rfl⟩, fun _ => ⟨?_, ?_, ?_⟩⟩
      · rw [hbmap, F.bmap]
        exact F.there
      · rw [hsize]
        split <;> omega
      · rw [hbmap, hdata, if_pos ⟨F.bmap, rfl⟩]
        exact F.real
    · constructor
      · intro hl
        have hmapped := hl.mapped
        have hinside := hl.inside
        have hinode := hl.inode
        rw [hbmap] at hmapped
        rw [hbmap, hdata, if_neg (hother b' k' hmapped hnew)] at hinode
        refine Or.inr ⟨hmapped, ?_, hinode⟩
        rw [hsize] at hinside
        split at hinside
        · rename_i hge
          have heq := hend hge
          have hne : 64 * b' + k'.val ≠ 64 * b + k.val := by
            intro hval
            exact hnew ⟨by omega, Fin.ext (by omega)⟩
          omega
        · exact hinside
      · rintro (hnew' | hl)
        · exact absurd hnew' hnew
        · refine ⟨by rw [hbmap]; exact hl.mapped, ?_, ?_⟩
          · have hinside := hl.inside
            rw [hsize]
            split <;> omega
          · rw [hbmap, hdata, if_neg (hother b' k' hl.mapped hnew)]
            exact hl.inode
  · rw [nameAt, hbmap, hdata, if_pos ⟨F.bmap, rfl⟩]
  · intro b' k' hl
    have hnew : ¬(b' = b ∧ k' = k) := by
      rintro ⟨rfl, rfl⟩
      exact hdead hl
    rw [nameAt, hbmap, hdata, if_neg (hother b' k' hl.mapped hnew), nameAt]

/-- **A name is added**, and no process that is about to add it or to clear the entry had already looked
there. -/
theorem fill_sound (h : Sound σ) (hapart : ∀ Q, Q ≠ P →
    ¬Past (σ.proc Q) c.padded (64 * b + k.val) ∧ ¬Clears (σ.proc Q) block k) :
    Sound (σ.fill P c inode b block k) := by
  obtain ⟨hlive, hnew, hold⟩ := F.live h.inj
  have hsize : σ.size ≤ (σ.fill P c inode b block k).size := by
    show σ.size ≤ if σ.size ≤ 64 * b + k.val then 64 * b + k.val + 1 else σ.size
    split <;> omega
  have hdata : ∀ v j, (σ.fill P c inode b block k).data v j =
      if v = block ∧ j = k then ⟨inode, c.padded⟩ else σ.data v j := setEntry_data _
  refine ⟨h.first, h.inj, h.used, h.inner, ?_, ?_, ?_, ?_, ?_⟩
  · intro Q
    show Knows _ (update σ.proc P .idle Q)
    rw [update_apply]
    split
    · exact knows_idle
    · rename_i hQ
      obtain ⟨hpast, hclears⟩ := hapart Q hQ
      have hk := h.knows Q
      refine ⟨?_, ?_, ?_⟩
      · have hw := hk.walks
        cases hpc : σ.proc Q with
        | idle => trivial
        | create _ => trivial
        | remove _ _ _ => trivial
        | find call entries b' r rest =>
          rw [hpc] at hw
          exact ⟨hw.1, Nat.le_trans hw.2.1 hsize, hw.2.2⟩
        | findIn call entries b' blk =>
          rw [hpc] at hw
          exact ⟨hw.1, Nat.le_trans hw.2.1 hsize, hw.2.2⟩
        | add c' inode' b' r rest =>
          rw [hpc] at hw
          exact ⟨hw.1, Nat.le_trans hw.2.1 hsize, hw.2.2⟩
        | addIn c' inode' b' blk =>
          rw [hpc] at hw
          exact ⟨hw.1, Nat.le_trans hw.2.1 hsize, hw.2.2⟩
        | store c' inode' b' r rest blk =>
          rw [hpc] at hw
          exact ⟨hw.1, Nat.le_trans hw.2.1 hsize, hw.2.2⟩
      · intro x b' k' hl hp
        rcases (hlive b' k').1 hl with ⟨rfl, rfl⟩ | hl
        · rw [hnew]
          rintro rfl
          exact hpast hp
        · rw [hold b' k' hl]
          exact hk.missed x b' k' hl hp
      · intro c' v j heq
        rw [hdata, if_neg]
        · exact hk.removes c' v j heq
        · rintro ⟨rfl, rfl⟩
          rw [heq] at hclears
          exact hclears ⟨rfl, rfl⟩
  · exact h.stores_other fun _ => id
  · intro b₁ k₁ b₂ k₂ hl₁ hl₂ heq
    rcases (hlive b₁ k₁).1 hl₁ with ⟨rfl, rfl⟩ | hold₁
    · rcases (hlive b₂ k₂).1 hl₂ with ⟨rfl, rfl⟩ | hold₂
      · exact ⟨rfl, rfl⟩
      · rw [hnew, hold b₂ k₂ hold₂] at heq
        exact absurd heq.symm (F.absent b₂ k₂ hold₂)
    · rw [hold b₁ k₁ hold₁] at heq
      rcases (hlive b₂ k₂).1 hl₂ with ⟨rfl, rfl⟩ | hold₂
      · rw [hnew] at heq
        exact absurd heq (F.absent b₁ k₁ hold₁)
      · rw [hold b₂ k₂ hold₂] at heq
        exact h.unique b₁ k₁ b₂ k₂ hold₁ hold₂ heq
  · intro b' k' hl
    rcases (hlive b' k').1 hl with ⟨rfl, rfl⟩ | hl
    · rw [hnew]
      exact nulPadded_padded c
    · rw [hold b' k' hl]
      exact h.padded b' k' hl
  · intro x hx
    have hx' : update σ.owed c.padded true x = true := hx
    rw [update_apply] at hx'
    split at hx'
    · rename_i heq
      exact ⟨b, k, (hlive b k).2 (Or.inl ⟨rfl, rfl⟩), by rw [hnew, heq]⟩
    · obtain ⟨b', k', hl, hname⟩ := h.owed x hx'
      exact ⟨b', k', (hlive b' k').2 (Or.inr hl), by rw [hold b' k' hl, hname]⟩

omit F

theorem addBlock_sound (h : Sound σ) (hpc : σ.proc P = .addIn c inode b block)
    (hapart : ∀ k, σ.freeSlot b block = some k → ∀ Q, Q ≠ P →
      ¬Past (σ.proc Q) c.padded (64 * b + k.val) ∧ ¬Clears (σ.proc Q) block k) :
    Sound (σ.addBlock P c inode b block) := by
  rw [addBlock]
  cases hslot : σ.freeSlot b block with
  | some k => exact fill_sound (h.fills hpc hslot) h (hapart k hslot)
  | none =>
    have hk := h.knows P
    rw [hpc] at hk
    obtain ⟨hinode, -, -, -⟩ := hk.walks
    have hlast := List.find?_eq_none.1 hslot 63 (List.mem_finRange _)
    rw [decide_eq_true_eq, not_or] at hlast
    refine h.setProc ⟨⟨hinode, ?_, Leads.start⟩, hk.missed, fun _ _ _ h => (by cases h)⟩
      (fun _ => id)
    omega

/-! ### The entry that is cleared -/

/-- **A name is removed**: the entry still has the name, or nobody has it. -/
theorem clear_sound (h : Sound σ) (hpc : σ.proc P = .remove c block k) : Sound (σ.clear P c block k) := by
  have hname := (h.knows P).removes c block k hpc
  have hdata : ∀ v j, (σ.clear P c block k).data v j =
      if v = block ∧ j = k then ⟨0, (σ.data block k).name⟩ else σ.data v j := setEntry_data _
  have hback : ∀ b' k', Live (σ.clear P c block k) b' k' → Live σ b' k' ∧ ¬(σ.bmap b' = block ∧ k' = k) := by
    intro b' k' hl
    have hinode := hl.inode
    rw [hdata] at hinode
    split at hinode
    · exact absurd rfl hinode
    · rename_i hne
      exact ⟨⟨hl.mapped, hl.inside, hinode⟩, hne⟩
  have hsame : ∀ b' k', (σ.clear P c block k).nameAt b' k' = σ.nameAt b' k' := by
    intro b' k'
    show ((σ.clear P c block k).data (σ.bmap b') k').name = (σ.data (σ.bmap b') k').name
    rw [hdata]
    split
    · rename_i heq
      rw [heq.1, heq.2]
    · rfl
  refine ⟨h.first, h.inj, h.used, h.inner, ?_, ?_, ?_, ?_, ?_⟩
  · intro Q
    show Knows _ (update σ.proc P .idle Q)
    rw [update_apply]
    split
    · exact knows_idle
    · have hk := h.knows Q
      refine ⟨?_, ?_, ?_⟩
      · have hw := hk.walks
        revert hw
        cases σ.proc Q <;> exact id
      · intro x b' k' hl hp
        rw [hsame]
        exact hk.missed x b' k' (hback b' k' hl).1 hp
      · intro c' v j heq
        rw [hdata]
        split
        · exact Or.inl rfl
        · exact hk.removes c' v j heq
  · exact h.stores_other fun _ => id
  · intro b₁ k₁ b₂ k₂ hl₁ hl₂ heq
    rw [hsame, hsame] at heq
    exact h.unique b₁ k₁ b₂ k₂ (hback b₁ k₁ hl₁).1 (hback b₂ k₂ hl₂).1 heq
  · intro b' k' hl
    rw [hsame]
    exact h.padded b' k' (hback b' k' hl).1
  · intro x hx
    have hx' : update σ.owed c.padded false x = true := hx
    rw [update_apply] at hx'
    split at hx'
    · cases hx'
    · rename_i hxc
      obtain ⟨b', k', hl, hn⟩ := h.owed x hx'
      -- the entry that is cleared has another name
      have hne : ¬(σ.bmap b' = block ∧ k' = k) := by
        rintro ⟨rfl, rfl⟩
        rcases hname with h0 | hc
        · exact hl.inode h0
        · exact hxc (hn.symm.trans hc)
      refine ⟨b', k', ⟨hl.mapped, hl.inside, ?_⟩, by rw [hsame, hn]⟩
      show ((σ.clear P c block k).data (σ.bmap b') k').inode ≠ 0
      rw [hdata, if_neg hne]
      exact hl.inode

/-! ### Runs -/

theorem step_sound {e : ℕ × Event} (h : Sound σ) (ha : Apart σ e) (hs : step σ e = some τ) : Sound τ := by
  obtain ⟨P, ev⟩ := e
  have hk := h.knows P
  cases hpc : σ.proc P with
  | idle =>
    cases ev <;> simp only [step, hpc, reduceCtorEq] at hs
    obtain ⟨hreal, heq⟩ := Option.ite_none_right_eq_some.1 hs
    cases heq
    exact call_sound h hreal
  | find call entries b r rest =>
    rw [hpc] at hk
    cases ev with
    | run _ =>
      simp only [step, hpc] at hs
      cases hs
      exact findPtr_sound h hpc
    | unread =>
      simp only [Apart, hpc] at ha
      cases r with
      | zone k => simp only [step, hpc, reduceCtorEq] at hs
      | indirect blk k =>
        simp only [step, hpc] at hs
        cases hs
        exact skip_sound h hk.walks.1 hk.walks.2.1 (fun x b' k hl hx hs => hk.missed x b' k hl ⟨hx, hs⟩) ha
    | _ => simp only [step, hpc, reduceCtorEq] at hs
  | findIn call entries b block =>
    rw [hpc] at hk
    cases ev with
    | run _ =>
      simp only [step, hpc] at hs
      cases hs
      exact findBlock_sound h hpc
    | unread =>
      simp only [Apart, hpc] at ha
      simp only [step, hpc] at hs
      cases hs
      exact skip_sound h hk.walks.1 hk.walks.2.1 (fun x b' k hl hx hs => hk.missed x b' k hl ⟨hx, hs⟩) ha
    | _ => simp only [step, hpc, reduceCtorEq] at hs
  | create c =>
    cases ev with
    | inode n =>
      cases n with
      | none =>
        simp only [step, hpc] at hs
        cases hs
        exact h.setProc knows_idle (fun _ => id)
      | some n =>
        simp only [step, hpc] at hs
        obtain ⟨hn, heq⟩ := Option.ite_none_right_eq_some.1 hs
        cases heq
        rw [hpc] at hk
        exact h.setProc ⟨⟨hn, Nat.zero_le _, Leads.start⟩, hk.missed, fun _ _ _ h => (by cases h)⟩
          (fun _ => id)
    | _ => simp only [step, hpc, reduceCtorEq] at hs
  | add c inode b r rest =>
    cases ev with
    | run new =>
      simp only [step, hpc] at hs
      exact addPtr_sound h hpc hs
    | unread =>
      cases r with
      | zone k => simp only [step, hpc, reduceCtorEq] at hs
      | indirect blk k =>
        simp only [step, hpc] at hs
        cases hs
        exact h.setProc knows_idle (fun _ => id)
    | _ => simp only [step, hpc, reduceCtorEq] at hs
  | store c inode b r rest block =>
    cases ev <;> simp only [step, hpc, reduceCtorEq] at hs
    cases hs
    simp only [Apart, hpc] at ha
    exact storePtr_sound h hpc ha
  | addIn c inode b block =>
    cases ev with
    | run new =>
      simp only [step, hpc] at hs
      cases hs
      simp only [Apart, hpc] at ha
      exact addBlock_sound h hpc ha
    | unread =>
      rw [hpc] at hk
      simp only [Apart, hpc] at ha
      simp only [step, hpc] at hs
      cases hs
      rw [addSkip]
      split
      · exact h.setProc knows_idle (fun _ => id)
      · rename_i hb
        exact h.setProc ⟨⟨hk.walks.1, ha.resolve_left hb, Leads.start⟩, hk.missed, fun _ _ _ h => (by cases h)⟩
          (fun _ => id)
    | _ => simp only [step, hpc, reduceCtorEq] at hs
  | remove c block k =>
    cases ev <;> simp only [step, hpc, reduceCtorEq] at hs
    · cases hs
      exact clear_sound h hpc
    · cases hs
      exact h.setProc knows_idle (fun _ => id)

/-- No name is there twice, and every name that was created and not removed is there. -/
def NamesKept (σ : Dir) : Prop :=
  (∀ b k b' k', Live σ b k → Live σ b' k' → σ.nameAt b k = σ.nameAt b' k' → b = b' ∧ k = k') ∧
  ∀ x, σ.owed x = true → ∃ b k, Live σ b k ∧ σ.nameAt b k = x

/-- **Names stay unique** and none is lost in every run in which no write crosses another call. -/
theorem names_stay_unique (h : Reach Start step Apart σ) : NamesKept σ := by
  have hsound : Sound σ := h.invariant (I := Sound) (fun _ hs => hs.sound)
    (fun _ _ _ hI ha hs => step_sound hI ha hs)
  exact ⟨hsound.unique, hsound.owed⟩

/-! ### A directory with one block -/

def dot : Component := ⟨[46], by decide, by decide⟩

def dotdot : Component := ⟨[46, 46], by decide, by decide⟩

/-- `.` and `..`. -/
def newDir : Dir where
  size := 2
  ptr r := if r = .zone 0 then 9 else 0
  data _ k := if k = 0 then ⟨1, dot.padded⟩ else if k = 1 then ⟨1, dotdot.padded⟩ else ⟨0, fun _ => 0⟩
  used := {9}
  proc _ := .idle
  owed x := decide (x = dot.padded ∨ x = dotdot.padded)

theorem newDir_live (hl : Live newDir b k) : b = 0 ∧ (k = 0 ∨ k = 1) := by
  have hlt : 64 * b + k.val < 2 := hl.inside
  refine ⟨by omega, ?_⟩
  rcases Nat.lt_or_ge k.val 1 with h | h
  · exact Or.inl (Fin.ext (by simp; omega))
  · exact Or.inr (Fin.ext (by simp; omega))

/-- A directory with one block. -/
theorem start_of_one (hptr : ∀ r, σ.ptr r ≠ 0 ↔ r = .zone 0) (hidle : ∀ P, σ.proc P = .idle)
    (hused : σ.ptr (.zone 0) ∈ σ.used) (hnames : ∀ b k b' k', Live σ b k → Live σ b' k' →
      σ.nameAt b k = σ.nameAt b' k' → b = b' ∧ k = k') (hpad : ∀ b k, Live σ b k → NulPadded (σ.nameAt b k))
    (howed : ∀ x, σ.owed x = true → ∃ b k, Live σ b k ∧ σ.nameAt b k = x) : Start σ := by
  refine ⟨hidle, (hptr (.zone 0)).2 rfl, ?_, ?_, ?_, hnames, hpad, howed⟩
  · intro r r' hr heq
    rw [(hptr r).1 hr, (hptr r').1 (by rw [← heq]; exact hr)]
  · intro r hr
    rw [(hptr r).1 hr]
    exact hused
  · intro v k hv
    cases (hptr _).1 hv

theorem newDir_start : Start newDir := by
  have hdots : dot.padded ≠ dotdot.padded := by decide
  have hname : newDir.nameAt 0 0 = dot.padded ∧ newDir.nameAt 0 1 = dotdot.padded := ⟨rfl, rfl⟩
  refine start_of_one (fun r => by simp [newDir]) (fun _ => rfl) (by decide) ?_ ?_ ?_
  · intro b k b' k' hl hl' heq
    obtain ⟨rfl, rfl | rfl⟩ := newDir_live hl
    · obtain ⟨rfl, rfl | rfl⟩ := newDir_live hl'
      · exact ⟨rfl, rfl⟩
      · exact absurd (hname.1.symm.trans (heq.trans hname.2)) hdots
    · obtain ⟨rfl, rfl | rfl⟩ := newDir_live hl'
      · exact absurd (hname.1.symm.trans (heq.symm.trans hname.2)) hdots
      · exact ⟨rfl, rfl⟩
  · intro b k hl
    obtain ⟨rfl, rfl | rfl⟩ := newDir_live hl
    · exact nulPadded_padded dot
    · exact nulPadded_padded dotdot
  · intro x hx
    rcases of_decide_eq_true hx with rfl | rfl
    · exact ⟨0, 0, ⟨by decide, by decide, by decide⟩, rfl⟩
    · exact ⟨0, 1, ⟨by decide, by decide, by decide⟩, rfl⟩

/-- **The blocks stay apart**: no two pointers lead to one block, and all lead to allocated ones. -/
theorem blocks_stay_apart (h : Reach Start step Apart σ) :
    Set.InjOn σ.ptr {r | σ.ptr r ≠ 0} ∧ ∀ r, σ.ptr r ≠ 0 → σ.ptr r ∈ σ.used := by
  have hsound : Sound σ := h.invariant (fun _ hs => hs.sound) fun _ _ _ hI ha hs => step_sound hI ha hs
  exact ⟨fun r hr r' _ => hsound.inj r r' hr, hsound.used⟩

/-! ### A process on its own -/

theorem addPtr_frame {r : Ref} {rest : List ℕ} {new : Option ℕ} {Q : ℕ}
    (hs : σ.addPtr P c inode b r rest new = some τ) (hQ : Q ≠ P) : τ.proc Q = σ.proc Q := by
  simp only [addPtr] at hs
  split at hs
  · split at hs
    · cases hs
      exact update_of_ne hQ ..
    · split at hs
      · cases hs
        exact update_of_ne hQ ..
      · split at hs <;> cases hs
        exact update_of_ne hQ ..
  · cases hs
    exact update_of_ne hQ ..

/-- A step leaves the other processes where they are. -/
theorem step_frame {e : ℕ × Event} {Q : ℕ} (hs : step σ e = some τ) (hQ : Q ≠ e.1) : τ.proc Q = σ.proc Q := by
  have hset : ∀ pc, (σ.setProc e.1 pc).proc Q = σ.proc Q := fun pc => update_of_ne hQ ..
  rw [step] at hs
  split at hs
  case h_8 => exact addPtr_frame hs hQ
  case h_10 =>
    cases hs
    simp only [addBlock]
    split <;> exact hset _
  all_goals first
    | (cases hs; done)
    | (cases hs; exact hset _)
    | (split at hs <;> cases hs; exact hset _)

/-- All blocks can be read, and the pointer to be stored is not set. -/
def quietly (σ : Dir) (e : ℕ × Event) : Bool :=
  match σ.proc e.1, e.2 with
  | _, .unread => false
  | .store _ _ _ r _ _, _ => σ.ptr r = 0
  | _, _ => true

theorem along_alone {es : List (ℕ × Event)} (hall : ∀ e ∈ es, e.1 = P) (hidle : ∀ Q, Q ≠ P → σ.proc Q = .idle)
    (hok : checks step quietly σ es = true) : Along step Apart σ es := by
  induction es generalizing σ with
  | nil => trivial
  | cons e es ih =>
    obtain ⟨hquiet, hrest⟩ := Bool.and_eq_true_iff.1 hok
    obtain rfl := hall e List.mem_cons_self
    refine ⟨?_, fun τ hs => ?_⟩
    · rw [quietly] at hquiet
      rw [Apart]
      cases hpc : σ.proc e.1 <;> cases hev : e.2 <;> rw [hpc, hev] at hquiet <;> first
        | trivial
        | (cases hquiet; done)
        | exact of_decide_eq_true hquiet
        | (intro k _ Q hQ
           rw [hidle Q hQ]
           exact ⟨id, id⟩)
    · refine ih (fun e' he => hall e' (List.mem_cons_of_mem _ he)) (fun Q hQ => ?_) ?_
      · rw [step_frame hs hQ]
        exact hidle Q hQ
      · rw [hs] at hrest
        exact hrest

/-- The name `a`. -/
def letterA : Component := ⟨[97], by decide, by decide⟩

/-- One process creates `a` with the inode 5. -/
def createRun (P n : ℕ) : List (ℕ × Event) :=
  [(P, .inode (some n)), (P, .run none), (P, .run none)]

/-- `find_entry` for `a`. -/
def lookRun (P : ℕ) : List (ℕ × Event) := [(P, .call (.create letterA)), (P, .run none), (P, .run none)]

/-- One block, all of whose entries are in use. -/
def fullDir : Dir where
  size := 64
  ptr r := if r = .zone 0 then 9 else 0
  data _ k := ⟨1, fun i => if i = 0 then BitVec.ofNat 8 (k.val + 1) else 0⟩
  used := {9}
  proc _ := .idle
  owed _ := false

theorem fullDir_start : Start fullDir := by
  refine start_of_one (fun r => by simp [fullDir]) (fun _ => rfl) (by decide) ?_ ?_ (fun x hx => by cases hx)
  · intro b k b' k' hl hl' heq
    have hb : 64 * b + k.val < 64 := hl.inside
    have hb' : 64 * b' + k'.val < 64 := hl'.inside
    have hfirst : BitVec.ofNat 8 (k.val + 1) = BitVec.ofNat 8 (k'.val + 1) := congrFun heq 0
    have hnat := congrArg BitVec.toNat hfirst
    rw [BitVec.toNat_ofNat, BitVec.toNat_ofNat] at hnat
    exact ⟨by omega, Fin.ext (by omega)⟩
  · intro b k _ i j hij _
    exact if_neg (by omega)

set_option maxRecDepth 8000 in
/-- A process creates `a` there: the entry needs a second block. -/
theorem blocks_stay_apart_second : ∃ σ, Reach Start step Apart σ ∧ σ.ptr (.zone 0) = 9 ∧ σ.ptr (.zone 1) = 10 ∧
    Set.InjOn σ.ptr {r | σ.ptr r ≠ 0} := by
  let es := lookRun 1 ++ createRun 1 5 ++ [(1, .run (some 10)), (1, .run none), (1, .run none)]
  obtain ⟨σ, hexec, hzero, hone⟩ : ∃ σ, exec step fullDir es = some σ ∧ σ.ptr (.zone 0) = 9 ∧
    σ.ptr (.zone 1) = 10 := ⟨_, rfl, rfl, rfl⟩
  have halong : Along step Apart fullDir es := along_alone (P := 1) (by simp [es, lookRun, createRun])
    (fun _ _ => rfl) (by rfl)
  have h := (Reach.start fullDir_start).exec halong hexec
  exact ⟨σ, h, hzero, hone, (blocks_stay_apart h).1⟩

set_option maxRecDepth 8000 in
/-- A process creates `a` while nobody else does anything. -/
theorem names_stay_unique_created :
    ∃ σ, Reach Start step Apart σ ∧ σ.owed letterA.padded = true ∧ NamesKept σ := by
  obtain ⟨σ, hexec, howed⟩ : ∃ σ, exec step newDir (lookRun 1 ++ createRun 1 5) = some σ ∧
    σ.owed letterA.padded = true := ⟨_, rfl, by decide⟩
  have halong : Along step Apart newDir (lookRun 1 ++ createRun 1 5) :=
    along_alone (P := 1) (by simp [lookRun, createRun]) (fun _ _ => rfl) (by rfl)
  have h := (Reach.start newDir_start).exec halong hexec
  exact ⟨σ, h, howed, names_stay_unique h⟩

set_option maxRecDepth 8000 in
/-- Two processes look for `a`, sleep in `new_inode`, and create it. -/
theorem two_creators_make_name_twice : ¬∀ σ, Reach Start step (fun _ _ => True) σ → NamesKept σ := by
  intro hall
  obtain ⟨σ, hexec, hlive, hlive', hname⟩ : ∃ σ,
      exec step newDir (lookRun 1 ++ lookRun 2 ++ createRun 1 5 ++ createRun 2 6) = some σ ∧
      (σ.bmap 0 ≠ 0 ∧ 2 < σ.size ∧ (σ.data (σ.bmap 0) 2).inode ≠ 0) ∧
      (σ.bmap 0 ≠ 0 ∧ 3 < σ.size ∧ (σ.data (σ.bmap 0) 3).inode ≠ 0) ∧
      σ.nameAt 0 2 = σ.nameAt 0 3 := ⟨_, rfl, by decide, by decide, by decide⟩
  have h0 : Reach Start step (fun _ _ => True) newDir := Reach.start newDir_start
  have h := h0.exec (along_true _ _) hexec
  have heq := (hall σ h).1 0 2 0 3 ⟨hlive.1, hlive.2.1, hlive.2.2⟩ ⟨hlive'.1, hlive'.2.1, hlive'.2.2⟩ hname
  exact absurd heq.2 (by decide)

end Dir

end OldLinux.Directory
