import OldLinux.Inodes.Opening

/-!
# Runs of `sys_open` and `sys_unlink`

Each step of a call keeps the invariant, so an open file keeps its inode in every run in which nobody frees
an inode that somebody is looking up; and when `iget` takes a reference to an inode that is being freed,
`free_inode` panics.
-/

namespace OldLinux.Inodes

open Function Lib Table

variable {n : ℕ} {σ τ : Table n} {p q : Proc} {pc : Pc} {i j : Fin 32} {k : After} {l : List (Fin 32)}
variable {dev nr : ℕ}

/-! ### The process that goes on -/

theorem Pc.done_of_returns (h : pc.returns = true) (hputs : pc.puts = some (i, k)) : k = .done := by
  cases pc <;> cases hputs <;> cases k <;> first | rfl | cases h

theorem Pc.wants_of_returns (h : pc.returns = true) : pc.wants = none := by
  cases pc <;> first | rfl | cases h

theorem Table.Turn.not_user (T : Turn σ τ ⟨.user, l⟩ q) : False := by
  cases T with
  | back pc i k l hputs => cases hputs
  | write pc i k l hputs => cases hputs
  | trunc pc i k l hfrees hputs => cases hputs

theorem Table.Turn.returns (T : Turn σ τ p q) (h : p.pc.returns = true) :
    q.pc.returns = true ∧ q.held = p.held := by
  cases T with
  | back pc i k l hputs =>
    cases Pc.done_of_returns h hputs
    exact ⟨rfl, rfl⟩
  | sync i k l =>
    cases Pc.done_of_returns h rfl
    exact ⟨rfl, rfl⟩
  | write pc i k l hputs =>
    cases Pc.done_of_returns h hputs
    exact ⟨rfl, rfl⟩
  | wrote i k l =>
    cases Pc.done_of_returns h rfl
    exact ⟨rfl, rfl⟩
  | trunc pc i k l hfrees hputs =>
    cases Pc.done_of_returns h hputs
    exact ⟨rfl, rfl⟩
  | _ => cases h

theorem Pc.puts_of_pipes (h : pc.pipes = true) : pc.puts = none := by
  cases pc <;> first | rfl | cases h

theorem Table.Turn.pipes (T : Turn σ τ p q) (h : p.pc.pipes = true) :
    (q.pc.returns = true ∨ q.pc.pipes = true) ∧ ∀ j, p.held.count j ≤ q.held.count j := by
  cases T with
  | again k i j l => exact ⟨Or.inr (by cases k <;> first | rfl | cases h), fun _ => Nat.le_refl _⟩
  | flush k i l => exact ⟨Or.inr (by cases k <;> first | rfl | cases h), fun _ => Nat.le_refl _⟩
  | flushed k i l => exact ⟨Or.inr (by cases k <;> first | rfl | cases h), fun _ => Nat.le_refl _⟩
  | forPipe i l => exact ⟨Or.inl rfl, fun j => List.count_le_count_cons⟩
  | back pc i k l hputs => rw [Pc.puts_of_pipes h] at hputs; cases hputs
  | write pc i k l hputs => rw [Pc.puts_of_pipes h] at hputs; cases hputs
  | trunc pc i k l hfrees hputs => rw [Pc.puts_of_pipes h] at hputs; cases hputs
  | _ => cases h

theorem Pc.puts_of_makes (h : pc.makes = true) : pc.puts = none := by
  cases pc <;> first | rfl | cases h

theorem Table.Turn.makes (T : Turn σ τ p q) (h : p.pc.makes = true) : q.pc.makes = true ∧ q.held = p.held := by
  cases T with
  | again k i j l => exact ⟨(by cases k <;> first | rfl | cases h), rfl⟩
  | flush k i l => exact ⟨(by cases k <;> first | rfl | cases h), rfl⟩
  | flushed k i l => exact ⟨(by cases k <;> first | rfl | cases h), rfl⟩
  | forNew dev i l => exact ⟨rfl, rfl⟩
  | back pc i k l hputs => rw [Pc.puts_of_makes h] at hputs; cases hputs
  | write pc i k l hputs => rw [Pc.puts_of_makes h] at hputs; cases hputs
  | trunc pc i k l hfrees hputs => rw [Pc.puts_of_makes h] at hputs; cases hputs
  | _ => cases h

theorem Table.Turn.trunc_frees (T : Turn σ τ p q) (hq : q.pc = .putTrunc i k) :
    p.pc.Frees σ.inode i ∧ i ∈ p.pc.refs ∧ τ.inode = σ.inode := by
  cases T with
  | back pc i k l hputs => cases k <;> cases hq
  | trunc pc i k l hfrees hputs hsame =>
    cases hq
    refine ⟨hfrees, ?_, hsame⟩
    cases pc <;> cases hputs <;> exact List.mem_cons_self
  | _ => cases hq

theorem Pc.Frees.count {t : Fin 32 → Inode} (h : pc.Frees t i) : (t i).count ≤ 1 ∧ (t i).disk.nlinks = 0 := by
  cases pc with
  | put j k => exact h.2.2.2
  | putAgain j k => exact h.2
  | _ => cases h

theorem Pc.puts_of_wants {x : ℕ × ℕ} (h : pc.wants = some x) : pc.puts = none := by
  cases pc <;> first | rfl | cases h

theorem Pc.returns_of_wants {x : ℕ × ℕ} (h : pc.wants = some x) : pc.returns = false := by
  cases pc <;> first | rfl | cases h

/-- What is left to give back is there. -/
def Lookup.Has (c : Lookup) (m : Fin 32 → ℕ) (p : Proc) : Prop :=
  ∀ j, m j + (p.last ++ c.dirs).count j ≤ p.held.count j

/-- **`iget` from one sleep to the next.** -/
theorem Table.Turn.fetch (T : Turn σ τ p q) {c : Lookup} (h : c.Fetch σ p)
    (hfresh : p.pc.wants = some (c.dev, c.nr) → τ.freed c.dev c.nr = σ.freed c.dev c.nr)
    (hread : ∀ i, p.pc = .read i → σ.Names i c.dev c.nr c.gen → τ.freed c.dev c.nr = σ.freed c.dev c.nr)
    (hheld : ∀ i ∈ p.held, σ.Names i c.dev c.nr c.gen → τ.Names i c.dev c.nr c.gen)
    {m : Fin 32 → ℕ} (hhas : c.Has m p) :
    c.Fetch τ q ∧ c.Has m q ∧ ∀ x, q.pc.wants = some x → p.pc.wants = some x := by
  cases h with
  | search pc l hwants hold =>
    have hnone := Pc.puts_of_wants hwants
    have hnew : c.Fresh τ := ⟨(hfresh hwants).trans hold.1, hold.2⟩
    have hlast : Proc.last ⟨pc, l⟩ = [] := by
      rw [Proc.last, Pc.returns_of_wants hwants, if_neg Bool.false_ne_true]
    have hstay : ∀ pc', pc'.wants = pc.wants →
        c.Fetch τ ⟨pc', l⟩ ∧ c.Has m ⟨pc', l⟩ ∧ ∀ x, pc'.wants = some x → pc.wants = some x := by
      intro pc' hpc'
      have hw := hpc'.trans hwants
      refine ⟨.search pc' l hw hnew, ?_, fun x hx => hpc'.symm.trans hx⟩
      intro j
      have hj := hhas j
      rw [hlast] at hj
      rw [Proc.last, Pc.returns_of_wants hw, if_neg Bool.false_ne_true]
      exact hj
    have hgot : ∀ e i, (τ.inode i).is c.dev c.nr → c.Fetch τ ⟨.put e .done, i :: l⟩ ∧
        c.Has m ⟨.put e .done, i :: l⟩ ∧
        ∀ x, (Pc.put e .done).wants = some x → pc.wants = some x := by
      intro e i his
      refine ⟨.got _ i l rfl ⟨his, hnew.1, hnew.2⟩, ?_, fun x hx => (by cases hx)⟩
      intro j
      have hj := hhas j
      rw [hlast, List.nil_append] at hj
      show m j + (i :: c.dirs).count j ≤ (i :: l).count j
      rw [count_cons, count_cons]
      have hl : (⟨pc, l⟩ : Proc).held.count j = l.count j := rfl
      omega
    cases T with
    | again k i j l => exact hstay _ (by cases k <;> rfl)
    | flush k i l => exact hstay _ (by cases k <;> rfl)
    | flushed k i l => exact hstay _ (by cases k <;> rfl)
    | forIget dev nr i l => exact hstay _ rfl
    | forNew dev i l => cases hwants
    | forPipe i l => cases hwants
    | wait e dev nr i l => exact hstay _ rfl
    | retry e dev nr i l => exact hstay _ rfl
    | found e dev nr i l his =>
      cases hwants
      exact hgot e i his
    | foundWait e dev nr i l his =>
      cases hwants
      exact hgot e i his
    | install e dev nr l his =>
      cases hwants
      refine ⟨.read e l ⟨his, hnew.1, hnew.2⟩, ?_, fun x hx => (by cases hx)⟩
      intro j
      have hj := hhas j
      rw [hlast] at hj
      exact hj
    | loaded i l => cases hwants
    | back pc i k l hputs => rw [hnone] at hputs; cases hputs
    | sync i k l => cases hwants
    | write pc i k l hputs => rw [hnone] at hputs; cases hputs
    | wrote i k l => cases hwants
    | trunc pc i k l hfrees hputs => rw [hnone] at hputs; cases hputs
  | read i l N =>
    cases T with
    | loaded i l his =>
      refine ⟨.got _ i l rfl ⟨?_, (hread i rfl N).trans N.freed, N.dev⟩, ?_, fun x hx => (by cases hx)⟩
      · rw [N.is.1, N.is.2] at his
        exact his
      · intro j
        have hj : m j + (c.dirs).count j ≤ l.count j := hhas j
        show m j + (i :: c.dirs).count j ≤ (i :: l).count j
        rw [count_cons, count_cons]
        omega
    | back pc i k l hputs => cases hputs
    | write pc i k l hputs => cases hputs
    | trunc pc i k l hfrees hputs => cases hputs
  | got pc i l hreturns N =>
    obtain ⟨hq, hl⟩ := T.returns hreturns
    obtain ⟨pc', l'⟩ := q
    cases hl
    refine ⟨.got pc' i l hq (hheld i List.mem_cons_self N), ?_, ?_⟩
    · intro j
      have hj := hhas j
      rw [Proc.last, if_pos hreturns] at hj
      rw [Proc.last, if_pos hq]
      exact hj
    · intro x hx
      rw [Pc.wants_of_returns hq] at hx
      cases hx

namespace World

variable {α : Type} {w w' : World n α} {P Q : Fin n} {s : Script α} {ev : Event n} {d : Fin 32} {x : α}

/-! ### Steps of the inode table -/

theorem call_some (hs : w.call P ev s = some w') :
    ∃ t, w.table.step (P, ev) = some t ∧ w' = ⟨t, w.dir, update w.script P s, w.files⟩ := by
  obtain ⟨t, ht, rfl⟩ := Option.map_eq_some_iff.1 hs
  exact ⟨t, ht, rfl⟩

/-- `iget` looks for inodes that stay. -/
theorem Safe.listed (h : Safe w) : Listed w.table (P, ev) := by
  cases ev with
  | run =>
    cases hpc : (w.table.proc P).pc with
    | look e dev nr =>
      simp only [Listed, hpc]
      intro _
      exact (h.sought P dev nr (h.wants_seeks (by rw [hpc]; rfl))).1
    | _ => simp only [Listed, hpc]
  | _ => trivial

theorem Safe.kept (h : Safe w) {t : Table n} (hs : w.table.step (P, ev) = some t)
    (hlocal : ev.Local P) (hroom : w.table.RoomFor P ev) :
    Kept w.table t P ∧ Did w.table t ev (w.table.proc P) (t.proc P) :=
  step_kept h.sound h.listed h.sb h.calm h.lone hlocal hroom hs

theorem Safe.trunc_of_turn (h : Safe w) (T : Turn w.table τ (w.table.proc P) (τ.proc P))
    (hpc : (τ.proc P).pc = .putTrunc i k) :
    (w.table.proc P).pc.Frees w.table.inode i ∧ (τ.inode i).count = 1 ∧
    (τ.inode i).disk.nlinks = 0 ∧ τ.inode = w.table.inode := by
  obtain ⟨hfrees, hmem, hsame⟩ := T.trunc_frees hpc
  obtain ⟨h1, h2⟩ := hfrees.count
  have hpos := h.sound.count_pos (List.mem_append_right _ hmem)
  rw [hsame]
  exact ⟨hfrees, by omega, h2, rfl⟩

/-- The process goes on in the inode code, and its call stays where it is. -/
theorem Safe.here_of_turn (h : Safe w) (K : Kept w.table τ P) (T : Turn w.table τ (w.table.proc P) (τ.proc P)) :
    (w.script P).At τ (τ.proc P) ∧
    (∀ j, ((w.files P).map File.inode).count j + ((w.script P).owes (τ.proc P)).count j ≤
      (τ.proc P).held.count j) ∧
    ∀ dev nr, Seeks { w with table := τ } P dev nr → w.Seeks P dev nr := by
  have hhere := h.here P
  have howns := h.owns P
  have hsought := h.sought P
  obtain ⟨p, hp⟩ : ∃ p, w.table.proc P = p := ⟨_, rfl⟩
  obtain ⟨q, hq⟩ : ∃ q, τ.proc P = q := ⟨_, rfl⟩
  simp only [owned, Seeks, hp, hq] at hhere howns hsought T ⊢
  cases hs : w.script P with
  | idle =>
    simp only [hs] at hhere howns ⊢
    rcases hhere with hr | hpipe
    · obtain ⟨h1, h2⟩ := T.returns hr
      rw [h2]
      exact ⟨Or.inl h1, howns, fun _ _ hf => hf⟩
    · obtain ⟨h1, h2⟩ := T.pipes hpipe
      exact ⟨h1, fun j => (howns j).trans (h2 j), fun _ _ hf => hf⟩
  | putDir d c =>
    simp only [hs] at hhere
    obtain ⟨pc, l⟩ := p
    cases hhere.1
    exact T.not_user.elim
  | get c =>
    simp only [hs] at hhere howns hsought ⊢
    obtain ⟨h1, h2⟩ := T.returns hhere.1
    rw [h2]
    refine ⟨⟨h1, ?_⟩, howns, fun _ _ hf => hf⟩
    exact fresh_kept K (hsought c.dev c.nr ⟨rfl, rfl⟩) hhere.2
  | getting c =>
    simp only [hs] at hhere howns hsought ⊢
    have hfetch := T.fetch (m := fun j => ((w.files P).map File.inode).count j) hhere ?_ ?_ ?_ howns
    · exact ⟨hfetch.1, hfetch.2.1, fun dev nr => hfetch.2.2 (dev, nr)⟩
    · intro hwants
      have hst := hsought c.dev c.nr hwants
      exact (K.bits c.dev c.nr (fun i k => hst.2 P i k) hst.1).2
    · intro i hpc N
      refine (K.bits c.dev c.nr ?_ (N.bit h.sound)).2
      intro j k htrunc
      rw [hp, hpc] at htrunc
      cases htrunc
    · intro i hi N
      refine N.kept h.sound K (Q := P) (Or.inl ?_)
      rw [hp]
      exact hi
  | making x d =>
    simp only [hs] at hhere howns ⊢
    obtain ⟨h1, h2⟩ := T.makes hhere
    rw [h2]
    exact ⟨h1, howns, fun _ _ hf => hf⟩
  | made x d =>
    simp only [hs] at hhere
    obtain ⟨pc, l⟩ := p
    cases hhere.1
    exact T.not_user.elim
  | ending l =>
    simp only [hs] at hhere howns ⊢
    obtain ⟨h1, h2⟩ := T.returns hhere
    rw [h2]
    exact ⟨h1, howns, fun _ _ hf => hf⟩

theorem Safe.run (h : Safe w) (hroom : w.table.Retries P → w.table.Room)
    (hapart : ∀ i, (w.table.proc P).pc.Frees w.table.inode i →
      ∀ Q, ¬w.Seeks Q (w.table.inode i).dev (w.table.inode i).num)
    (hs : w.call P .run (w.script P) = some w') : Safe w' := by
  obtain ⟨t, ht, rfl⟩ := call_some hs
  obtain ⟨K, hdid⟩ := h.kept ht trivial hroom
  have T : Turn w.table t (w.table.proc P) (t.proc P) := by
    cases hdid with
    | run p q T => exact T
  rw [update_eq_self]
  obtain ⟨hhere, howns, hseek⟩ := h.here_of_turn K T
  refine h.step_of_kept K (fun _ _ => rfl) (fun _ _ => rfl) hhere howns (fun f hf => Or.inl hf) ?_ ?_
  · intro dev nr hsk
    exact h.sought P dev nr (hseek dev nr hsk)
  · intro i k hpc
    obtain ⟨hfrees, h1, h2, hsame⟩ := h.trunc_of_turn T hpc
    refine ⟨h1, h2, ?_⟩
    intro Q dev nr hsk his
    have hsk' : w.Seeks Q dev nr := by
      by_cases hQP : Q = P
      · rw [hQP] at hsk ⊢
        exact hseek dev nr hsk
      · rw [Seeks] at hsk ⊢
        rw [← K.others Q hQP]
        exact hsk
    have his' : (w.table.inode i).is dev nr := by
      rw [← hsame]
      exact his
    refine hapart i hfrees Q ?_
    rw [his'.1, his'.2]
    exact hsk'

/-- A step that does not begin to free an inode. -/
theorem Safe.own (h : Safe w) (K : Kept w.table τ P) {dir : ℕ → ℕ → ℕ → DirEntry α}
    {files : Fin n → List File} (hfiles : ∀ Q, Q ≠ P → files Q = w.files Q)
    (hhere : s.At τ (τ.proc P))
    (howns : ∀ j, ((files P).map File.inode).count j + (s.owes (τ.proc P)).count j ≤ (τ.proc P).held.count j)
    (hnew : ∀ f ∈ files P, f ∈ w.files P ∨ τ.Names f.inode f.dev f.nr f.gen)
    (hseek : ∀ dev nr, Seeks ⟨τ, dir, update w.script P s, files⟩ P dev nr → w.Stays dev nr)
    (hpc : ∀ i k, (τ.proc P).pc ≠ .putTrunc i k) :
    Safe (⟨τ, dir, update w.script P s, files⟩ : World n α) := by
  refine h.step_of_kept K ?_ hfiles ?_ ?_ hnew hseek ?_
  · intro Q hQ
    exact update_of_ne hQ _ _
  · show (update w.script P s P).At τ _
    rw [update_self]
    exact hhere
  · intro j
    show _ + ((update w.script P s P).owes _).count j ≤ _
    rw [update_self]
    exact howns j
  · intro i k hk
    exact absurd hk (hpc i k)

/-- Nothing is looked up. -/
theorem not_seeks {dir : ℕ → ℕ → ℕ → DirEntry α} {files : Fin n → List File}
    (hs : match s with | .putDir _ _ => False | .get _ => False | .getting _ => False | _ => True) :
    ¬Seeks ⟨τ, dir, update w.script P s, files⟩ P dev nr := by
  rw [Seeks, show (World.mk τ dir (update w.script P s) files).script P = s from
    update_self _ _ _]
  cases s <;> first | exact id | exact hs.elim

theorem count_map_erase {f : File} {fs : List File} (hf : f ∈ fs) (j : Fin 32) :
    ((fs.erase f).map File.inode).count j + (if j = f.inode then 1 else 0) = (fs.map File.inode).count j := by
  rw [((List.perm_cons_erase hf).map File.inode).count_eq, List.map_cons, count_cons]

/-- An inode is given back that the process has to spare. -/
theorem Safe.iput (h : Safe w) (ht : w.table.step (P, .iput i) = some τ)
    {dir : ℕ → ℕ → ℕ → DirEntry α} {files : Fin n → List File}
    (hfiles : ∀ Q, Q ≠ P → files Q = w.files Q) (hsub : ∀ f ∈ files P, f ∈ w.files P)
    (hhere : ∀ p, p.pc.returns = true → Kept w.table τ P → s.At τ p)
    (howns : ∀ j p, ((files P).map File.inode).count j + (s.owes p).count j +
      (if j = i then 1 else 0) ≤ (w.table.proc P).held.count j)
    (hseek : ∀ dev nr, Seeks ⟨τ, dir, update w.script P s, files⟩ P dev nr → w.Stays dev nr) :
    Safe (⟨τ, dir, update w.script P s, files⟩ : World n α) := by
  obtain ⟨K, hdid⟩ := h.kept ht trivial trivial
  obtain ⟨p, hp⟩ : ∃ p, w.table.proc P = p := ⟨_, rfl⟩
  obtain ⟨q, hq⟩ : ∃ q, τ.proc P = q := ⟨_, rfl⟩
  rw [hp] at howns hdid
  rw [hq] at hdid
  cases hdid with
  | iput i l hi =>
    refine h.own K hfiles ?_ ?_ (fun f hf => Or.inl (hsub f hf)) hseek ?_
    · rw [hq]
      exact hhere _ rfl K
    · intro j
      have hj := howns j ⟨.put i .done, l.erase i⟩
      have herase := count_erase hi j
      rw [hq]
      show _ ≤ (l.erase i).count j
      have hl : (⟨.user, l⟩ : Proc).held.count j = l.count j := rfl
      omega
    · intro j k
      rw [hq]
      exact fun h => (by cases h)

/-! ### Between two calls -/

theorem Safe.owns_idle (h : Safe w) (hs : w.script P = .idle) (j : Fin 32) :
    ((w.files P).map File.inode).count j ≤ (w.table.proc P).held.count j := by
  have hj := h.owns P j
  rw [owned, hs] at hj
  exact hj

/-- A step after which the process is not in a call. -/
theorem Safe.idle (h : Safe w) (hs : w.script P = .idle) (K : Kept w.table τ P)
    (hhere : (τ.proc P).pc.returns = true ∨ (τ.proc P).pc.pipes = true)
    (hheld : ∀ j, (w.table.proc P).held.count j ≤ (τ.proc P).held.count j)
    (hpc : ∀ i k, (τ.proc P).pc ≠ .putTrunc i k) :
    Safe (⟨τ, w.dir, update w.script P .idle, w.files⟩ : World n α) := by
  refine h.own K (fun _ _ => rfl) hhere ?_ (fun f hf => Or.inl hf)
    (fun _ _ hsk => absurd hsk (not_seeks trivial)) hpc
  intro j
  exact (h.owns_idle hs j).trans (hheld j)

theorem Safe.share (h : Safe w) (hs : w.script P = .idle)
    (hcall : w.call P (.share i P) .idle = some w') : Safe w' := by
  obtain ⟨t, ht, rfl⟩ := call_some hcall
  obtain ⟨K, hdid⟩ := h.kept ht rfl trivial
  generalize hp : w.table.proc P = p at hdid
  generalize hq : t.proc P = q at hdid
  cases hdid with
  | share i Q l hi =>
    refine h.idle hs K ?_ ?_ ?_
    · rw [hq]
      exact Or.inl rfl
    · intro j
      rw [hp, hq]
      exact List.count_le_count_cons
    · intro j k
      rw [hq]
      exact fun h => (by cases h)

theorem Safe.pipe (h : Safe w) (hs : w.script P = .idle) (hroom : w.table.Room)
    (hcall : w.call P .getEmpty .idle = some w') : Safe w' := by
  obtain ⟨t, ht, rfl⟩ := call_some hcall
  obtain ⟨K, hdid⟩ := h.kept ht trivial hroom
  generalize hp : w.table.proc P = p at hdid
  generalize hq : t.proc P = q at hdid
  cases hdid with
  | getEmpty j l =>
    refine h.idle hs K ?_ ?_ ?_
    · rw [hq]
      exact Or.inr rfl
    · intro j
      rw [hp, hq]
    · intro j k
      rw [hq]
      exact fun h => (by cases h)

theorem Safe.modify (h : Safe w) (hs : w.script P = .idle) {disk : DInode}
    (hcall : w.call P (.modify i disk) .idle = some w') : Safe w' := by
  obtain ⟨t, ht, rfl⟩ := call_some hcall
  obtain ⟨K, hdid⟩ := h.kept ht trivial trivial
  generalize hp : w.table.proc P = p at hdid
  generalize hq : t.proc P = q at hdid
  cases hdid with
  | modify i disk l hi =>
    refine h.idle hs K ?_ ?_ ?_
    · rw [hq]
      exact Or.inl rfl
    · intro j
      rw [hp, hq]
    · intro j k
      rw [hq]
      exact fun h => (by cases h)

theorem Safe.put (h : Safe w) (hs : w.script P = .idle) (hspare : w.spare P i = true)
    (hcall : w.call P (.iput i) .idle = some w') : Safe w' := by
  obtain ⟨t, ht, rfl⟩ := call_some hcall
  have hlt := of_decide_eq_true hspare
  refine h.iput ht (fun _ _ => rfl) (fun _ hf => hf) (fun p hp _ => Or.inl hp) ?_
    (fun _ _ hsk => absurd hsk (not_seeks trivial))
  intro j p
  have hj := h.owns_idle hs j
  show _ + 0 + _ ≤ _
  split
  · rename_i hji
    rw [hji]
    omega
  · omega

theorem Safe.close (h : Safe w) (hs : w.script P = .idle) {f : File} (hf : f ∈ w.files P)
    (hcall : { w with files := update w.files P ((w.files P).erase f) }.call P
      (.iput f.inode) .idle = some w') : Safe w' := by
  obtain ⟨t, ht, rfl⟩ := call_some hcall
  refine h.iput (s := .idle) (i := f.inode) ht ?_ ?_ (fun p hp _ => Or.inl hp) ?_
    (fun _ _ hsk => absurd hsk (not_seeks trivial))
  · intro Q hQ
    exact update_of_ne hQ _ _
  · intro g hg
    simp only [update_self] at hg
    exact List.mem_of_mem_erase hg
  · intro j p
    have hj := h.owns_idle hs j
    have herase := count_map_erase hf j
    simp only [update_self]
    show _ + 0 + _ ≤ _
    omega

/-! ### Looking up -/

theorem ready_user (h : w.ready P = true) : (w.table.proc P).pc = .user := by
  rw [ready] at h
  cases hpc : (w.table.proc P).pc <;> first | rfl | (rw [hpc] at h; cases h)

theorem Safe.same (h : Safe w) (P : Fin n) : Kept w.table w.table P :=
  Kept.same h.sound h.sb h.calm P

/-- Only the point in the call changes. -/
theorem Safe.setScript (h : Safe w) (hready : w.ready P = true) {dir : ℕ → ℕ → ℕ → DirEntry α}
    {files : Fin n → List File} (hfiles : ∀ Q, Q ≠ P → files Q = w.files Q)
    (hhere : s.At w.table (w.table.proc P))
    (howns : ∀ j, ((files P).map File.inode).count j + (s.owes (w.table.proc P)).count j ≤
      (w.table.proc P).held.count j)
    (hnew : ∀ f ∈ files P, f ∈ w.files P ∨ w.table.Names f.inode f.dev f.nr f.gen)
    (hseek : ∀ dev nr, Seeks ⟨w.table, dir, update w.script P s, files⟩ P dev nr → w.Stays dev nr) :
    Safe (⟨w.table, dir, update w.script P s, files⟩ : World n α) := by
  refine h.own (h.same P) hfiles hhere howns hnew hseek ?_
  intro i k
  rw [ready_user hready]
  exact fun h => (by cases h)

theorem seeks_putDir {c : Lookup} {dir : ℕ → ℕ → ℕ → DirEntry α} {files : Fin n → List File}
    (h : Seeks ⟨τ, dir, update w.script P (.putDir d c), files⟩ P dev nr) :
    c.dev = dev ∧ c.nr = nr := by
  simpa only [Seeks, update_self] using h

theorem seeks_get {c : Lookup} {dir : ℕ → ℕ → ℕ → DirEntry α} {files : Fin n → List File}
    (h : Seeks ⟨τ, dir, update w.script P (.get c), files⟩ P dev nr) :
    c.dev = dev ∧ c.nr = nr := by
  simpa only [Seeks, update_self] using h

theorem seeks_getting {c : Lookup} {dir : ℕ → ℕ → ℕ → DirEntry α} {files : Fin n → List File}
    (h : Seeks ⟨τ, dir, update w.script P (.getting c), files⟩ P dev nr) :
    (τ.proc P).pc.wants = some (dev, nr) := by
  simpa only [Seeks, update_self] using h

section Found

variable [DecidableEq α] {place : ℕ} {goal : Goal}

theorem Safe.found_putDir (h : Safe w) (hidle : w.script P = .idle)
    (hstays : w.Stays (w.table.inode d).dev (w.entry d place).inode)
    (hgoal : ∀ dev nr gen, (Lookup.mk goal dev nr gen).dirs = [])
    (hs : w.found P d x place (.putDir d) goal = some w') : Safe w' := by
  obtain ⟨⟨hready, hspare, hdev, -⟩, heq⟩ := Option.ite_none_right_eq_some.1 hs
  cases heq
  refine h.setScript hready (fun _ _ => rfl) ⟨ready_user hready, rfl, hdev⟩ ?_
    (fun f hf => Or.inl hf) ?_
  · intro j
    have hlt := of_decide_eq_true hspare
    have hj := h.owns_idle hidle j
    simp only [Script.owes, hgoal, count_cons, List.count_nil]
    show ((w.files P).map File.inode).count j + _ ≤ _
    split
    · rename_i hji
      rw [hji]
      omega
    · omega
  · intro dev nr hsk
    obtain ⟨h1, h2⟩ := seeks_putDir hsk
    rw [← h1, ← h2]
    exact hstays

theorem Safe.found_unlink (h : Safe w) (hidle : w.script P = .idle)
    (hstays : w.Stays (w.table.inode d).dev (w.entry d place).inode)
    (hs : w.found P d x place .get (.unlink d place) = some w') : Safe w' := by
  obtain ⟨⟨hready, hspare, hdev, -⟩, heq⟩ := Option.ite_none_right_eq_some.1 hs
  cases heq
  refine h.setScript hready (fun _ _ => rfl) ⟨?_, rfl, hdev⟩ ?_ (fun f hf => Or.inl hf) ?_
  · rw [ready_user hready]
    rfl
  · intro j
    have hlt := of_decide_eq_true hspare
    have hj := h.owns_idle hidle j
    simp only [Script.owes, Lookup.dirs, count_singleton]
    show ((w.files P).map File.inode).count j + _ ≤ _
    split
    · rename_i hji
      rw [hji]
      omega
    · omega
  · intro dev nr hsk
    obtain ⟨h1, h2⟩ := seeks_get hsk
    rw [← h1, ← h2]
    exact hstays

end Found

theorem Safe.root (h : Safe w) (hidle : w.script P = .idle) (hready : w.ready P = true)
    (hdev : dev ≠ 0) (hstays : w.Stays dev nr) :
    Safe (w.setScript P (.get ⟨.walk, dev, nr, w.table.freed dev nr⟩)) := by
  refine h.setScript hready (fun _ _ => rfl) ⟨?_, rfl, hdev⟩ ?_ (fun f hf => Or.inl hf) ?_
  · rw [ready_user hready]
    rfl
  · intro j
    exact h.owns_idle hidle j
  · intro d m hsk
    obtain ⟨h1, h2⟩ := seeks_get hsk
    rw [← h1, ← h2]
    exact hstays

theorem Safe.next_putDir (h : Safe w) {c : Lookup} (hs : w.script P = .putDir d c)
    (hcall : w.call P (.iput d) (.get c) = some w') : Safe w' := by
  obtain ⟨t, ht, rfl⟩ := call_some hcall
  have hstays : w.Stays c.dev c.nr := by
    refine h.sought P _ _ ?_
    simp only [Seeks, hs]
    exact ⟨trivial, trivial⟩
  have hhere := h.here P
  rw [hs] at hhere
  refine h.iput ht (fun _ _ => rfl) (fun _ hf => hf) ?_ ?_ ?_
  · intro p hp K
    exact ⟨hp, fresh_kept K hstays hhere.2⟩
  · intro j p
    have hj := h.owns P j
    simp only [owned, hs, Script.owes, count_cons] at hj
    show _ + c.dirs.count j + _ ≤ _
    omega
  · intro dev nr hsk
    obtain ⟨h1, h2⟩ := seeks_get hsk
    rw [← h1, ← h2]
    exact hstays

theorem Safe.next_get (h : Safe w) {c : Lookup} (hs : w.script P = .get c) (hroom : w.table.Room)
    (hcall : w.call P (.iget c.dev c.nr) (.getting c) = some w') : Safe w' := by
  obtain ⟨t, ht, rfl⟩ := call_some hcall
  have hstays : w.Stays c.dev c.nr := by
    refine h.sought P _ _ ?_
    simp only [Seeks, hs]
    exact ⟨trivial, trivial⟩
  have hhere := h.here P
  have howns := h.owns P
  simp only [owned, hs, Script.owes] at howns
  rw [hs] at hhere
  obtain ⟨K, hdid⟩ := h.kept ht trivial hroom
  have hfresh := fresh_kept K hstays hhere.2
  generalize hp : w.table.proc P = p at hdid
  generalize hq : t.proc P = q at hdid
  cases hdid with
  | iget dev nr j l hdev =>
    refine h.own K (fun _ _ => rfl) ?_ ?_ (fun f hf => Or.inl hf) ?_ ?_
    · rw [hq]
      exact .search _ l rfl hfresh
    · intro j
      rw [hq]
      have hj := howns j
      rw [hp] at hj
      exact hj
    · intro dev nr hsk
      have hwants := seeks_getting hsk
      rw [hq] at hwants
      cases hwants
      exact hstays
    · intro i k
      rw [hq]
      exact fun h => (by cases h)

/-! ### The inode is there -/

theorem got_some (h : w.got P = some i) : w.ready P = true ∧ ∃ l, w.table.proc P = ⟨.user, i :: l⟩ := by
  obtain ⟨hready, hhead⟩ := Option.ite_none_right_eq_some.1 h
  refine ⟨hready, ?_⟩
  have hpc := ready_user hready
  cases hp : w.table.proc P with
  | mk pc l =>
    rw [hp] at hpc hhead
    cases l with
    | nil => cases hhead
    | cons j l =>
      cases hhead
      cases hpc
      exact ⟨l, rfl⟩

/-- `iget` returns the inode that was looked up, and the call has it. -/
theorem Safe.got_names (h : Safe w) {c : Lookup} (hs : w.script P = .getting c)
    (hgot : w.got P = some i) : w.table.Names i c.dev c.nr c.gen ∧
    ∀ j, ((w.files P).map File.inode).count j + (i :: c.dirs).count j ≤ (w.table.proc P).held.count j := by
  obtain ⟨-, l, hp⟩ := got_some hgot
  have hhere := h.here P
  have howns := h.owns P
  simp only [owned, hs, hp, Script.owes] at howns
  rw [hs, hp] at hhere
  rw [hp]
  refine ⟨?_, howns⟩
  cases hhere with
  | search pc l hwants => cases hwants
  | got pc i l hreturns N => exact N

/-- A changed inode, and a call that goes on. -/
theorem Safe.modified (h : Safe w) {disk : DInode} (ht : w.table.step (P, .modify i disk) = some τ)
    {dir : ℕ → ℕ → ℕ → DirEntry α}
    (howns : ∀ j, ((w.files P).map File.inode).count j + l.count j ≤ (w.table.proc P).held.count j) :
    Safe (⟨τ, dir, update w.script P (.ending l), w.files⟩ : World n α) := by
  obtain ⟨K, hdid⟩ := h.kept ht trivial trivial
  generalize hp : w.table.proc P = p at hdid howns
  generalize hq : τ.proc P = q at hdid
  cases hdid with
  | modify i disk l hi =>
    refine h.own K (fun _ _ => rfl) ?_ ?_ (fun f hf => Or.inl hf)
      (fun _ _ hsk => absurd hsk (not_seeks trivial)) ?_
    · rw [hq]
      rfl
    · rw [hq]
      exact howns
    · intro i k
      rw [hq]
      exact fun h => (by cases h)

theorem Safe.next (h : Safe w) {c : Lookup} (hs : w.script P = .getting c) (hgot : w.got P = some i)
    (hnext : w.next P c i = some w') : Safe w' := by
  obtain ⟨hready, -⟩ := got_some hgot
  obtain ⟨N, howns⟩ := h.got_names hs hgot
  have hreturns : (w.table.proc P).pc.returns = true := by
    rw [ready_user hready]
    rfl
  rw [World.next] at hnext
  split at hnext
  · cases hnext
    refine h.setScript hready (fun _ _ => rfl) (Or.inl hreturns) ?_ (fun f hf => Or.inl hf)
      (fun _ _ hsk => absurd hsk (not_seeks trivial))
    intro j
    exact (Nat.add_le_add_left (Nat.zero_le _) _).trans (howns j)
  · cases hnext
    refine h.setScript hready ?_ (Or.inl hreturns) ?_ ?_ (fun _ _ hsk => absurd hsk (not_seeks trivial))
    · intro Q hQ
      exact update_of_ne hQ _ _
    · intro j
      have hj := howns j
      show ((update w.files P _ P).map File.inode).count j + 0 ≤ _
      rw [update_self]
      show (i :: (w.files P).map File.inode).count j + 0 ≤ _
      rw [count_cons] at hj ⊢
      omega
    · intro f hf
      have hf' : f ∈ (⟨i, c.dev, c.nr, c.gen⟩ : File) :: w.files P := by
        simpa only [addFile, World.setScript, update_self] using hf
      rcases List.mem_cons.1 hf' with rfl | hmem
      · exact Or.inr N
      · exact Or.inl hmem
  · rename_i d place hgoal
    obtain ⟨t, ht, rfl⟩ := call_some hnext
    refine h.modified ht ?_
    intro j
    have hj := howns j
    rw [Lookup.dirs, hgoal] at hj
    exact hj

theorem Safe.fail (h : Safe w) {c : Lookup} (hs : w.script P = .getting c) (hgot : w.got P = some i)
    {sticky : Bool} (hfail : w.fail P c i sticky = some w') : Safe w' := by
  obtain ⟨hready, -⟩ := got_some hgot
  obtain ⟨-, howns⟩ := h.got_names hs hgot
  have hreturns : (w.table.proc P).pc.returns = true := by
    rw [ready_user hready]
    rfl
  rw [World.fail] at hfail
  split at hfail
  · cases hfail
  · cases hfail
    refine h.setScript hready (fun _ _ => rfl) hreturns ?_ (fun f hf => Or.inl hf)
      (fun _ _ hsk => absurd hsk (not_seeks trivial))
    intro j
    have hj := howns j
    rw [count_cons] at hj
    show _ + [i].count j ≤ _
    rw [count_singleton]
    show ((w.files P).map File.inode).count j + _ ≤ _
    omega
  · rename_i d place hgoal
    cases hfail
    refine h.setScript hready (fun _ _ => rfl) hreturns ?_ (fun f hf => Or.inl hf)
      (fun _ _ hsk => absurd hsk (not_seeks trivial))
    intro j
    have hj := howns j
    rw [Lookup.dirs, hgoal] at hj
    refine Nat.le_trans (Nat.add_le_add_left (Nat.le_of_eq ?_) _) hj
    cases sticky
    · rfl
    · exact (List.Perm.swap i d []).count_eq j

/-! ### A new file -/

theorem Safe.create (h : Safe w) (hs : w.script P = .idle) (hspare : w.spare P d = true)
    (hroom : w.table.Room) (hcall : w.call P (.newInode dev) (.making x d) = some w') : Safe w' := by
  obtain ⟨t, ht, rfl⟩ := call_some hcall
  obtain ⟨K, hdid⟩ := h.kept ht trivial hroom
  have hlt := of_decide_eq_true hspare
  have howns := h.owns_idle hs
  generalize hp : w.table.proc P = p at hdid
  generalize hq : t.proc P = q at hdid
  cases hdid with
  | newInode dev j l =>
    refine h.own K (fun _ _ => rfl) ?_ ?_ (fun f hf => Or.inl hf)
      (fun _ _ hsk => absurd hsk (not_seeks trivial)) ?_
    · rw [hq]
      rfl
    · intro j
      have hj := howns j
      rw [hp] at hj hlt
      rw [hq]
      show _ + [d].count j ≤ l.count j
      have hl : ∀ j, (⟨.user, l⟩ : Proc).held.count j = l.count j := fun _ => rfl
      rw [hl] at hj hlt
      rw [count_singleton]
      split
      · rename_i hjd
        rw [hjd]
        omega
      · omega
    · intro i k
      rw [hq]
      exact fun h => (by cases h)

theorem Safe.noBit (h : Safe w) (hs : w.script P = .making x d)
    (hcall : w.call P (.bit none) (.ending [d]) = some w') : Safe w' := by
  obtain ⟨t, ht, rfl⟩ := call_some hcall
  obtain ⟨K, hdid⟩ := h.kept ht trivial trivial
  have howns := h.owns P
  simp only [owned, hs, Script.owes] at howns
  generalize hp : w.table.proc P = p at hdid howns
  generalize hq : t.proc P = q at hdid
  cases hdid with
  | noBit i dev l =>
    refine h.own K (fun _ _ => rfl) ?_ ?_ (fun f hf => Or.inl hf)
      (fun _ _ hsk => absurd hsk (not_seeks trivial)) ?_
    · rw [hq]
      rfl
    · rw [hq]
      exact howns
    · intro i k
      rw [hq]
      exact fun h => (by cases h)

theorem Safe.bit (h : Safe w) (hs : w.script P = .making x d)
    (hcall : w.call P (.bit (some nr)) (.made x d) = some w') : Safe w' := by
  obtain ⟨t, ht, rfl⟩ := call_some hcall
  obtain ⟨K, hdid⟩ := h.kept ht trivial trivial
  have howns := h.owns P
  have hreal := h.sound.real P
  simp only [owned, hs, Script.owes] at howns
  generalize hp : w.table.proc P = p at hdid howns hreal
  generalize hq : t.proc P = q at hdid
  cases hdid with
  | bit i dev nr l his =>
    refine h.own K (fun _ _ => rfl) ?_ ?_ (fun f hf => Or.inl hf)
      (fun _ _ hsk => absurd hsk (not_seeks trivial)) ?_
    · rw [hq]
      refine ⟨rfl, i, l, rfl, ?_⟩
      rw [his.1]
      exact hreal
    · intro j
      have hj : _ + [d].count j ≤ l.count j := howns j
      rw [hq]
      show _ + (i :: [d]).count j ≤ (i :: l).count j
      rw [count_cons i j [d], count_cons i j l]
      omega
    · intro i k
      rw [hq]
      exact fun h => (by cases h)

theorem Safe.added (h : Safe w) (hs : w.script P = .made x d) (hgot : w.got P = some i)
    {place : Option ℕ} (hadd : w.added P x d i place = some w') : Safe w' := by
  obtain ⟨hready, l, hp⟩ := got_some hgot
  have hhere := h.here P
  have howns := h.owns P
  simp only [owned, hs, hp, Script.owes] at howns
  rw [hs, hp] at hhere
  obtain ⟨-, i', l', hl, hdev⟩ := hhere
  cases hl
  cases place with
  | none =>
    obtain ⟨t, ht, rfl⟩ := call_some hadd
    refine h.modified ht ?_
    rw [hp]
    exact howns
  | some place =>
    obtain ⟨-, heq⟩ := Option.ite_none_right_eq_some.1 hadd
    cases heq
    refine h.setScript hready ?_ ?_ ?_ ?_ (fun _ _ hsk => absurd hsk (not_seeks trivial))
    · intro Q hQ
      exact update_of_ne hQ _ _
    · rw [hp]
      rfl
    · intro j
      have hj : _ + (i :: [d]).count j ≤ (i :: l).count j := howns j
      rw [hp]
      show ((update w.files P _ P).map File.inode).count j + [d].count j ≤ (i :: l).count j
      rw [update_self]
      show (i :: (w.files P).map File.inode).count j + _ ≤ _
      rw [count_cons i j [d]] at hj
      rw [count_cons i j ((w.files P).map File.inode)]
      omega
    · intro f hf
      have hf' : f ∈ (⟨i, (w.table.inode i).dev, (w.table.inode i).num,
          w.table.freed (w.table.inode i).dev (w.table.inode i).num⟩ : File) :: w.files P := by
        simpa only [addFile, World.setScript, setEntry, update_self] using hf
      rcases List.mem_cons.1 hf' with rfl | hmem
      · exact Or.inr ⟨⟨rfl, rfl⟩, rfl, hdev⟩
      · exact Or.inl hmem

theorem Safe.ending (h : Safe w) (hs : w.script P = .ending (i :: l))
    (hcall : w.call P (.iput i) (.ending l) = some w') : Safe w' := by
  obtain ⟨t, ht, rfl⟩ := call_some hcall
  refine h.iput ht (fun _ _ => rfl) (fun _ hf => hf) (fun p hp _ => hp) ?_
    (fun _ _ hsk => absurd hsk (not_seeks trivial))
  intro j p
  have hj := h.owns P j
  simp only [owned, hs, Script.owes, count_cons] at hj
  show _ + l.count j + _ ≤ _
  omega

theorem Safe.ended (h : Safe w) (hs : w.script P = .ending []) (hready : w.ready P = true) :
    Safe (w.setScript P .idle) := by
  refine h.setScript hready (fun _ _ => rfl) (Or.inl ?_) ?_ (fun f hf => Or.inl hf)
    (fun _ _ hsk => absurd hsk (not_seeks trivial))
  · rw [ready_user hready]
    rfl
  · intro j
    have hj := h.owns P j
    simp only [owned, hs] at hj
    exact hj

/-! ### Runs -/

variable [DecidableEq α]

/-- **Every step keeps the invariant** if nobody frees what somebody looks up. -/
theorem Safe.step {e : Fin n × Act α} (h : Safe w) (ha : Apart w e) (hs : step w e = some w') : Safe w' := by
  obtain ⟨P, act⟩ := e
  simp only [World.step, h.calm, Bool.false_eq_true, if_false] at hs
  cases act with
  | run => exact h.run ha.1 ha.2 hs
  | unreadable => exact ha.elim
  | share i =>
    cases hsc : w.script P <;> simp only [hsc, reduceCtorEq] at hs
    exact h.share hsc hs
  | pipe =>
    cases hsc : w.script P <;> simp only [hsc, reduceCtorEq] at hs
    exact h.pipe hsc ha hs
  | modify i disk =>
    cases hsc : w.script P <;> simp only [hsc, reduceCtorEq] at hs
    exact h.modify hsc hs
  | put i =>
    cases hsc : w.script P <;> simp only [hsc, reduceCtorEq] at hs
    obtain ⟨hspare, hcall⟩ := Option.ite_none_right_eq_some.1 hs
    exact h.put hsc hspare hcall
  | close f =>
    cases hsc : w.script P <;> simp only [hsc, reduceCtorEq] at hs
    obtain ⟨hf, hcall⟩ := Option.ite_none_right_eq_some.1 hs
    exact h.close hsc hf hcall
  | walk d x place =>
    cases hsc : w.script P <;> simp only [hsc, reduceCtorEq] at hs
    exact h.found_putDir hsc ha (fun _ _ _ => rfl) hs
  | «open» d x place =>
    cases hsc : w.script P <;> simp only [hsc, reduceCtorEq] at hs
    exact h.found_putDir hsc ha (fun _ _ _ => rfl) hs
  | unlink d x place =>
    cases hsc : w.script P <;> simp only [hsc, reduceCtorEq] at hs
    exact h.found_unlink hsc ha hs
  | root dev nr =>
    cases hsc : w.script P <;> simp only [hsc, reduceCtorEq] at hs
    obtain ⟨⟨hready, hdev⟩, heq⟩ := Option.ite_none_right_eq_some.1 hs
    cases heq
    exact h.root hsc hready hdev ha
  | create x d =>
    cases hsc : w.script P <;> simp only [hsc, reduceCtorEq] at hs
    obtain ⟨hspare, hcall⟩ := Option.ite_none_right_eq_some.1 hs
    exact h.create hsc hspare ha hcall
  | next =>
    cases hsc : w.script P with
    | putDir d c =>
      simp only [hsc] at hs
      exact h.next_putDir hsc hs
    | get c =>
      simp only [Apart, hsc] at hs ha
      exact h.next_get hsc ha hs
    | getting c =>
      simp only [hsc] at hs
      obtain ⟨i, hgot, hnext⟩ := Option.bind_eq_some_iff.1 hs
      exact h.next hsc hgot hnext
    | ending l =>
      simp only [hsc] at hs
      cases l with
      | nil =>
        obtain ⟨hready, heq⟩ := Option.ite_none_right_eq_some.1 hs
        cases heq
        exact h.ended hsc hready
      | cons i l => exact h.ending hsc hs
    | _ => simp only [hsc, reduceCtorEq] at hs
  | fail sticky =>
    cases hsc : w.script P <;> simp only [hsc, reduceCtorEq] at hs
    obtain ⟨i, hgot, hfail⟩ := Option.bind_eq_some_iff.1 hs
    exact h.fail hsc hgot hfail
  | bit nr =>
    cases hsc : w.script P <;> cases nr <;> simp only [hsc, reduceCtorEq] at hs
    · exact h.noBit hsc hs
    · exact h.bit hsc hs
  | add place =>
    cases hsc : w.script P <;> simp only [hsc, reduceCtorEq] at hs
    obtain ⟨i, hgot, hadd⟩ := Option.bind_eq_some_iff.1 hs
    exact h.added hsc hgot hadd

/-- **An open file keeps its inode**, and nothing panics, in every run in which there is room in the inode
table, the blocks of inodes can be read and nobody frees an inode while somebody else looks it up. -/
theorem open_keeps_its_inode (h : Reach Start World.step Apart w) : OpenSafe w := by
  have hsafe : Safe w :=
    h.invariant (I := Safe) (fun _ hs => hs.safe) (fun _ _ _ hI ha hs => hI.step ha hs)
  exact hsafe.openSafe

/-- The root directory has one entry, for inode 5. -/
def disk (n : ℕ) : World n ℕ where
  table := Table.boot n
  dir dev num place := if dev = 1 ∧ num = 1 ∧ place = 0 then ⟨7, 5⟩ else ⟨0, 0⟩
  script _ := .idle
  files _ := []

theorem disk_start (n : ℕ) : Start (disk n) := ⟨boot_start n, fun _ => rfl, fun _ => rfl⟩

/-- The process gets the root directory. -/
def rootRun (P : Fin n) : List (Fin n × Act ℕ) :=
  [(P, .root 1 1), (P, .next), (P, .run), (P, .run), (P, .run), (P, .next)]

/-- `sys_open` of a file that is not in the inode table. -/
def openRun (P : Fin n) : List (Fin n × Act ℕ) :=
  [(P, .open 1 7 0), (P, .next), (P, .run), (P, .next), (P, .run), (P, .run), (P, .run), (P, .next)]

omit [DecidableEq α] in
/-- A process that goes on neither searches for an entry again nor frees an inode. -/
theorem apart_run (h1 : ¬w.table.Retries P) (h2 : ∀ i, ¬(w.table.proc P).pc.Frees w.table.inode i) :
    Apart w (P, .run) := ⟨fun h => absurd h h1, fun i h => absurd h (h2 i)⟩

set_option maxRecDepth 8000 in
theorem open_keeps_its_inode_opened : ∃ w : World 1 ℕ, Reach Start World.step Apart w ∧
    w.files 0 = [⟨2, 1, 5, 0⟩] ∧ OpenSafe w := by
  obtain ⟨w, hexec, hfiles⟩ : ∃ w, exec World.step (disk 1) (rootRun 0 ++ openRun 0) = some w ∧
    w.files 0 = [⟨2, 1, 5, 0⟩] := ⟨_, rfl, rfl⟩
  have halong : Along World.step Apart (disk 1) (rootRun 0 ++ openRun 0) := by
    refine ⟨⟨rfl, fun Q i k h => (by cases h)⟩, fun s hs => ?_⟩
    cases hs
    refine ⟨⟨0, rfl⟩, fun s hs => ?_⟩
    cases hs
    refine ⟨apart_run (fun h => h.2.2 rfl) (fun i h => h), fun s hs => ?_⟩
    cases hs
    refine ⟨apart_run (fun h => h) (fun i h => h), fun s hs => ?_⟩
    cases hs
    refine ⟨apart_run (fun h => h) (fun i h => h), fun s hs => ?_⟩
    cases hs
    refine ⟨trivial, fun s hs => ?_⟩
    cases hs
    refine ⟨⟨rfl, fun Q i k h => ?_⟩, fun s hs => ?_⟩
    · match Q with
      | 0 => cases h
    cases hs
    refine ⟨trivial, fun s hs => ?_⟩
    cases hs
    refine ⟨apart_run (fun h => h) (fun i h => ?_), fun s hs => ?_⟩
    · cases h.1
      cases h.2.2.2.2
    cases hs
    refine ⟨⟨0, rfl⟩, fun s hs => ?_⟩
    cases hs
    refine ⟨apart_run (fun h => h.2.2 rfl) (fun i h => h), fun s hs => ?_⟩
    cases hs
    refine ⟨apart_run (fun h => h) (fun i h => h), fun s hs => ?_⟩
    cases hs
    refine ⟨apart_run (fun h => h) (fun i h => h), fun s hs => ?_⟩
    cases hs
    exact ⟨trivial, fun _ _ => trivial⟩
  have h := (Reach.start (disk_start 1)).exec halong hexec
  exact ⟨w, h, hfiles, open_keeps_its_inode h⟩

/-- The unlinker is in `truncate` when the opener's `iget` finds the entry. -/
def raceRun : List (Fin 2 × Act ℕ) :=
  rootRun 0 ++ rootRun 1 ++
  [(0, Act.unlink 1 7 0), (0, .next), (0, .run), (0, .run), (0, .run), (1, .open 1 7 0), (0, .next),
    (0, .next), (0, .run), (1, .next), (1, .run), (1, .next), (1, .run), (1, .run), (0, .run)]

set_option maxRecDepth 8000 in
/-- One process has unlinked the file and is in `truncate`, another one that has read the number before
takes a reference, and `free_inode` panics. -/
theorem open_and_unlink_panic : ¬∀ w : World 2 ℕ, Reach Start World.step (fun _ _ => True) w → OpenSafe w := by
  intro hall
  obtain ⟨w, hexec, hpanic⟩ : ∃ w, exec World.step (disk 2) raceRun = some w ∧
    w.table.panicked = true := ⟨_, rfl, rfl⟩
  have h0 : Reach Start World.step (fun _ _ => True) (disk 2) := Reach.start (disk_start 2)
  have h := (hall w (h0.exec (along_true _ _) hexec)).1
  rw [hpanic] at h
  cases h

end World

end OldLinux.Inodes
