import OldLinux.Directory.Blocks

/-!
# Names in a directory stay unique, when calls do not cross

A call looks a name up, sleeps, and then changes an entry without looking again.  What it has seen
still holds then if, in the meantime, nobody has put the name into an entry that `find_entry` had
already passed, nobody has put anything into the entry that it is about to clear, and nobody has
stored the pointer that `create_block` is about to store.
-/

namespace OldLinux.Directory

open Function Lib

variable {σ τ : Dir} {P Q b b' v : ℕ} {k k' : Fin 64} {pc : Pc} {x y : Name} {c : Component}

/-! ### What a process relies on -/

/-- The name that a call is about to create. -/
def Call.makes (call : Call) (x : Name) : Prop :=
  match call with
  | .create c => c.padded = x
  | .link c _ => c.padded = x
  | .remove _ => False

/-- The process is about to create `x` and will not look at entry `s` any more. -/
def Past (pc : Pc) (x : Name) (s : ℕ) : Prop :=
  match pc with
  | .find call entries b _ _ => call.makes x ∧ (s < 64 * b ∨ entries ≤ s)
  | .findIn call entries b _ => call.makes x ∧ (s < 64 * b ∨ entries ≤ s)
  | .create c => c.padded = x
  | .add c _ _ _ _ => c.padded = x
  | .store c _ _ _ _ _ => c.padded = x
  | .addIn c _ _ _ => c.padded = x
  | _ => False

/-- The process is about to clear this entry. -/
def Clears (pc : Pc) (block : ℕ) (k : Fin 64) : Prop :=
  match pc with
  | .remove _ blk j => blk = block ∧ j = k
  | _ => False

/-- The process is about to store the number of this block. -/
def Stores (pc : Pc) (block : ℕ) : Prop :=
  match pc with
  | .store _ _ _ _ _ blk => blk = block
  | _ => False

/-- The name that the call is about to create is not in the block `b`; without the first block it is
nowhere. -/
def Elsewhere (σ : Dir) (call : Call) (b : ℕ) : Prop :=
  ∀ x b' k, call.makes x → σ.Live b' k → b = 0 ∨ b' = b → σ.nameAt b' k ≠ x

/-- What is written does not cross another call: the entry that is filled is not one that another
process has passed in its search for the name or is about to clear, and the pointer that is stored is
not set by now.  A search that cannot read a block does not pass the name there, and `add_entry` does not
go past the end. -/
def Apart (σ : Dir) (e : ℕ × Event) : Prop :=
  match σ.proc e.1, e.2 with
  | .find call _ b _ _, .unread => Elsewhere σ call b
  | .findIn call _ b _, .unread => Elsewhere σ call b
  | .addIn _ _ b _, .unread => b = 0 ∨ 64 * (b + 1) ≤ σ.size
  | .addIn c _ b block, _ => ∀ k, σ.freeSlot b block = some k → ∀ P, P ≠ e.1 →
      ¬Past (σ.proc P) c.padded (64 * b + k.val) ∧ ¬Clears (σ.proc P) block k
  | .store _ _ _ r _ _, _ => σ.ptr r = 0
  | _, _ => True

namespace Dir

/-- A directory that nobody is changing: its blocks form a tree, and its names differ. -/
structure Start (σ : Dir) : Prop where
  idle : ∀ P, σ.proc P = .idle
  first : σ.bmap 0 ≠ 0
  inj : ∀ r r', σ.ptr r ≠ 0 → σ.ptr r = σ.ptr r' → r = r'
  used : ∀ r, σ.ptr r ≠ 0 → σ.ptr r ∈ σ.used
  inner : ∀ v k, σ.ptr (.indirect v k) ≠ 0 → v ∈ σ.used
  unique : ∀ b k b' k', Live σ b k → Live σ b' k' → σ.nameAt b k = σ.nameAt b' k' → b = b' ∧ k = k'
  padded : ∀ b k, Live σ b k → NulPadded (σ.nameAt b k)
  owed : ∀ x, σ.owed x = true → ∃ b k, Live σ b k ∧ σ.nameAt b k = x

/-- What a process knows of the blocks. -/
def Walks (σ : Dir) : Pc → Prop
  | .find call entries b r rest => call.real = true ∧ entries ≤ σ.size ∧ Leads σ.ptr b r rest
  | .findIn call entries b block => call.real = true ∧ entries ≤ σ.size ∧ block ≠ 0 ∧
      σ.bmap b = block
  | .add _ inode b r rest => inode ≠ 0 ∧ 64 * b ≤ σ.size ∧ Leads σ.ptr b r rest
  | .store _ inode b r rest block => inode ≠ 0 ∧ 64 * b ≤ σ.size ∧ Leads σ.ptr b r rest ∧
      block ≠ 0 ∧ block ∈ σ.used ∧ (∀ s, σ.ptr s ≠ block) ∧ ∀ k, σ.ptr (.indirect block k) = 0
  | .addIn _ inode b block => inode ≠ 0 ∧ 64 * b ≤ σ.size ∧ block ≠ 0 ∧ σ.bmap b = block
  | _ => True

/-- What a process has seen of the entries still holds. -/
structure Knows (σ : Dir) (pc : Pc) : Prop where
  walks : Walks σ pc
  missed : ∀ x b k, Live σ b k → Past pc x (64 * b + k.val) → σ.nameAt b k ≠ x
  removes : ∀ c v k, pc = .remove c v k → (σ.data v k).inode = 0 ∨ (σ.data v k).name = c.padded

structure Sound (σ : Dir) : Prop where
  first : σ.bmap 0 ≠ 0
  inj : ∀ r r', σ.ptr r ≠ 0 → σ.ptr r = σ.ptr r' → r = r'
  used : ∀ r, σ.ptr r ≠ 0 → σ.ptr r ∈ σ.used
  inner : ∀ v k, σ.ptr (.indirect v k) ≠ 0 → v ∈ σ.used
  knows : ∀ P, Knows σ (σ.proc P)
  stores : ∀ P Q block, Stores (σ.proc P) block → Stores (σ.proc Q) block → P = Q
  unique : ∀ b k b' k', Live σ b k → Live σ b' k' → σ.nameAt b k = σ.nameAt b' k' → b = b' ∧ k = k'
  padded : ∀ b k, Live σ b k → NulPadded (σ.nameAt b k)
  owed : ∀ x, σ.owed x = true → ∃ b k, Live σ b k ∧ σ.nameAt b k = x

/-- A process that stores no pointer does not meet another one there. -/
theorem Sound.stores_other (h : Sound σ) {pc : Pc} (hs : ∀ block, ¬Stores pc block) (Q R block : ℕ)
    (hQ : Stores (update σ.proc P pc Q) block) (hR : Stores (update σ.proc P pc R) block) : Q = R := by
  rw [update_apply] at hQ hR
  split at hQ
  · exact absurd hQ (hs block)
  · split at hR
    · exact absurd hR (hs block)
    · exact h.stores Q R block hQ hR

theorem Start.sound (h : Start σ) : Sound σ := by
  refine ⟨h.first, h.inj, h.used, h.inner, ?_, ?_, h.unique, h.padded, h.owed⟩
  · intro P
    rw [h.idle P]
    exact ⟨trivial, fun _ _ _ _ h => h.elim, fun _ _ _ h => (by cases h)⟩
  · intro P Q block hP
    rw [h.idle P] at hP
    exact hP.elim

/-! ### Reading -/

theorem knows_idle : Knows σ .idle :=
  ⟨trivial, fun _ _ _ _ h => h.elim, fun _ _ _ h => (by cases h)⟩

/-- An entry is live as far as size, pointers and data say so. -/
theorem Live.congr (hl : Live τ b k) (hsize : σ.size = τ.size) (hptr : σ.ptr = τ.ptr)
    (hdata : σ.data = τ.data) : Live σ b k := by
  have hbmap : σ.bmap b = τ.bmap b := by rw [bmap, bmap, hptr]
  refine ⟨?_, ?_, ?_⟩
  · rw [hbmap]
    exact hl.mapped
  · rw [hsize]
    exact hl.inside
  · rw [hbmap, hdata]
    exact hl.inode

/-- What a process knows does not depend on where the others are. -/
theorem Knows.setProc {pc' : Pc} (hk : Knows σ pc) : Knows (σ.setProc P pc') pc := by
  refine ⟨?_, ?_, hk.removes⟩
  · cases pc <;> exact hk.walks
  · intro x b k hl hp
    exact hk.missed x b k (hl.congr rfl rfl rfl) hp

/-- A process goes on without writing anything. -/
theorem Sound.setProc (h : Sound σ) (hk : Knows σ pc) (hs : ∀ block, ¬Stores pc block) :
    Sound (σ.setProc P pc) := by
  refine ⟨h.first, h.inj, h.used, h.inner, ?_, ?_, ?_, ?_, ?_⟩
  · intro Q
    show Knows _ (update σ.proc P pc Q)
    rw [update_apply]
    split
    · exact hk.setProc
    · exact (h.knows Q).setProc
  · exact h.stores_other hs
  · intro b k b' k' hl hl'
    exact h.unique b k b' k' (hl.congr rfl rfl rfl) (hl'.congr rfl rfl rfl)
  · intro b k hl
    exact h.padded b k (hl.congr rfl rfl rfl)
  · intro x hx
    obtain ⟨b, k, hl, hname⟩ := h.owed x hx
    exact ⟨b, k, hl.congr rfl rfl rfl, hname⟩

/-- The name is nowhere. -/
def Absent (σ : Dir) (x : Name) : Prop := ∀ b k, Live σ b k → σ.nameAt b k ≠ x

/-- `find_entry` has looked everywhere. -/
theorem knows_notFound {call : Call} (hreal : call.real = true)
    (habsent : ∀ x, call.makes x → Absent σ x) : Knows σ (notFound call) := by
  cases call with
  | create c =>
    exact ⟨trivial, fun x b k hl hp => habsent x hp b k hl, fun _ _ _ h => (by cases h)⟩
  | link c inode =>
    exact ⟨⟨of_decide_eq_true hreal, Nat.zero_le _, Leads.start⟩,
      fun x b k hl hp => habsent x hp b k hl, fun _ _ _ h => (by cases h)⟩
  | remove c => exact knows_idle

theorem not_stores_notFound (call : Call) (block : ℕ) : ¬Stores (notFound call) block := by
  cases call <;> exact id

theorem not_stores_findFrom (call : Call) (entries b block : ℕ) : ¬Stores (findFrom call entries b) block := by
  rw [findFrom]
  split
  · exact id
  · exact not_stores_notFound call block

/-- `find_entry` has looked at all entries before block `b`. -/
theorem knows_findFrom {call : Call} {entries : ℕ} (hreal : call.real = true) (hentries : entries ≤ σ.size)
    (hmissed : ∀ x b' k, Live σ b' k → call.makes x →
      (64 * b' + k.val < 64 * b ∨ entries ≤ 64 * b' + k.val) → σ.nameAt b' k ≠ x) :
    Knows σ (findFrom call entries b) := by
  rw [findFrom]
  split
  · exact ⟨⟨hreal, hentries, Leads.start⟩, fun x b' k hl hp => hmissed x b' k hl hp.1 hp.2,
      fun _ _ _ h => (by cases h)⟩
  · rename_i hge
    refine knows_notFound hreal ?_
    intro x hx b' k hl
    refine hmissed x b' k hl hx ?_
    omega

/-- An entry of another block is before this block or behind it. -/
theorem before_of_lt (hb : b' ≠ b) (hlt : 64 * b' + k.val < 64 * (b + 1)) : 64 * b' + k.val < 64 * b := by
  omega

/-- `find_entry` passes a block in which the name is not. -/
theorem skip_sound (h : Sound σ) {call : Call} {entries : ℕ} (hreal : call.real = true)
    (hentries : entries ≤ σ.size)
    (hmissed : ∀ x b' k, Live σ b' k → call.makes x →
      (64 * b' + k.val < 64 * b ∨ entries ≤ 64 * b' + k.val) → σ.nameAt b' k ≠ x)
    (helse : Elsewhere σ call b) : Sound (σ.setProc P (findSkip call entries b)) := by
  rw [findSkip]
  split
  · rename_i hb
    exact h.setProc (knows_notFound hreal fun x hx b' k hl => helse x b' k hx hl (.inl hb))
      (not_stores_notFound _)
  · refine h.setProc (knows_findFrom hreal hentries ?_) (not_stores_findFrom _ _ _)
    intro x b' k hl hx hs
    by_cases hb : b' = b
    · exact helse x b' k hx hl (.inr hb)
    · exact hmissed x b' k hl hx (hs.imp_left (before_of_lt hb))

theorem findPtr_sound (h : Sound σ) {call : Call} {entries : ℕ} {r : Ref} {rest : List ℕ}
    (hpc : σ.proc P = .find call entries b r rest) :
    Sound (σ.setProc P (σ.findPtr call entries b r rest)) := by
  have hk := h.knows P
  rw [hpc] at hk
  obtain ⟨hreal, hentries, hleads⟩ := hk.walks
  rw [findPtr.eq_def]
  split
  · rename_i hzero
    -- there is no such block
    have hbmap : σ.bmap b = 0 := by
      rw [bmap, ← hleads.bmapFrom_eq]
      cases rest with
      | nil => exact hzero
      | cons k ks => exact if_pos hzero
    refine skip_sound h hreal hentries (fun x b' k hl hx hs => hk.missed x b' k hl ⟨hx, hs⟩) ?_
    rintro x b' k - hl (rfl | rfl)
    · exact absurd hbmap h.first
    · exact absurd hbmap hl.mapped
  · rename_i hne
    cases rest with
    | nil =>
      refine h.setProc ⟨⟨hreal, hentries, hne, ?_⟩, hk.missed, fun _ _ _ h => (by cases h)⟩
        (fun _ => id)
      rw [bmap, ← hleads.bmapFrom_eq]
      rfl
    | cons k ks =>
      exact h.setProc ⟨⟨hreal, hentries, Leads.next hleads hne⟩, hk.missed, fun _ _ _ h => (by cases h)⟩
        (fun _ => id)

theorem findBlock_sound (h : Sound σ) {call : Call} {entries block : ℕ}
    (hpc : σ.proc P = .findIn call entries b block) :
    Sound (σ.setProc P (σ.findBlock call entries b block)) := by
  have hk := h.knows P
  rw [hpc] at hk
  obtain ⟨hreal, hentries, hblock, hbmap⟩ := hk.walks
  rw [findBlock]
  split
  · rename_i k hfind
    have hsome := List.find?_some hfind
    rw [Bool.and_eq_true, decide_eq_true_eq] at hsome
    have hinode : (σ.data block k).inode ≠ 0 := by
      have hmatch := hsome.2
      rw [matches?, decide_eq_true_eq] at hmatch
      exact hmatch.1
    have hlive : Live σ b k := by
      refine ⟨by rw [hbmap]; exact hblock, by omega, ?_⟩
      rw [hbmap]
      exact hinode
    have hname : (σ.data block k).name = call.name.padded := by
      refine name_of_matches hsome.2 ?_
      have hpad := h.padded b k hlive
      rwa [nameAt, hbmap] at hpad
    cases call with
    | create c => exact h.setProc knows_idle (fun _ => id)
    | link c inode => exact h.setProc knows_idle (fun _ => id)
    | remove c =>
      refine h.setProc ⟨trivial, fun _ _ _ _ h => h.elim, ?_⟩ (fun _ => id)
      intro c' v k' heq
      cases heq
      exact Or.inr hname
  · rename_i hnone
    refine h.setProc (knows_findFrom hreal hentries ?_) (not_stores_findFrom _ _ _)
    intro x b' k hl hx hs
    by_cases hpast : 64 * b' + k.val < 64 * b ∨ entries ≤ 64 * b' + k.val
    · exact hk.missed x b' k hl ⟨hx, hpast⟩
    · -- the entry is in this block, and `match` has refused it
      rw [not_or] at hpast
      have hb : b' = b := by
        by_contra hb
        rcases hs with hs | hs
        · exact hpast.1 (before_of_lt hb hs)
        · exact hpast.2 hs
      subst hb
      intro hname
      have hmatch := List.find?_eq_none.1 hnone k (List.mem_finRange k)
      apply hmatch
      have hlt : 64 * b' + k.val < entries := by omega
      have hpad : call.name.padded = x := by
        cases call with
        | create c => exact hx
        | link c inode => exact hx
        | remove c => exact hx.elim
      rw [Bool.and_eq_true, decide_eq_true_eq]
      refine ⟨hlt, matches_of_name ?_ ?_⟩
      · rw [← hbmap]
        exact hl.inode
      · rw [hpad, ← hname, nameAt, hbmap]

theorem call_sound (h : Sound σ) {call : Call} (hreal : call.real = true) :
    Sound (σ.setProc P (findFrom call σ.size 0)) := by
  refine h.setProc (knows_findFrom hreal (Nat.le_refl _) ?_) (not_stores_findFrom _ _ _)
  intro x b k hl _ hs
  have hlt := hl.inside
  omega

/-! ### `create_block` -/

theorem not_stores_addVia (c : Component) (inode b block : ℕ) (rest : List ℕ) (blk : ℕ) :
    ¬Stores (addVia c inode b block rest) blk := by
  cases rest <;> exact id

/-- `add_entry` goes on with the number of a block. -/
theorem knows_addVia {inode block : ℕ} {r : Ref} {rest : List ℕ} (hinode : inode ≠ 0)
    (hsize : 64 * b ≤ σ.size) (hleads : Leads σ.ptr b r rest) (hptr : σ.ptr r = block)
    (hblock : block ≠ 0) (habsent : Absent σ c.padded) : Knows σ (addVia c inode b block rest) := by
  have hmissed : ∀ x b' k, Live σ b' k → c.padded = x → σ.nameAt b' k ≠ x := by
    rintro x b' k hl rfl
    exact habsent b' k hl
  cases rest with
  | nil =>
    refine ⟨⟨hinode, hsize, hblock, ?_⟩, hmissed, fun _ _ _ h => (by cases h)⟩
    rw [bmap, ← hleads.bmapFrom_eq]
    exact hptr
  | cons k ks =>
    refine ⟨⟨hinode, hsize, ?_⟩, hmissed, fun _ _ _ h => (by cases h)⟩
    rw [← hptr]
    exact Leads.next hleads (by rw [hptr]; exact hblock)

/-- More blocks are in use. -/
theorem Knows.use (hk : Knows σ pc) (block : ℕ) : Knows { σ with used := insert block σ.used } pc := by
  refine ⟨?_, ?_, hk.removes⟩
  · cases pc with
    | store c inode b r rest blk =>
      obtain ⟨h1, h2, h3, h4, h5, h6⟩ := hk.walks
      exact ⟨h1, h2, h3, h4, Finset.mem_insert_of_mem h5, h6⟩
    | idle => trivial
    | create _ => trivial
    | remove _ _ _ => trivial
    | find _ _ _ _ _ => exact hk.walks
    | findIn _ _ _ _ => exact hk.walks
    | add _ _ _ _ _ => exact hk.walks
    | addIn _ _ _ _ => exact hk.walks
  · intro x b k hl hp
    exact hk.missed x b k (hl.congr rfl rfl rfl) hp

theorem Walks.stores_used (hw : Walks σ pc) (hs : Stores pc v) : v ∈ σ.used := by
  cases pc with
  | store c inode b r rest blk =>
    obtain ⟨-, -, -, -, h5, -⟩ := hw
    rw [← show blk = v from hs]
    exact h5
  | _ => exact hs.elim

/-- `new_block` has got a block that nobody has. -/
theorem reserve_sound (h : Sound σ) {inode block : ℕ} {r : Ref} {rest : List ℕ}
    (hpc : σ.proc P = .add c inode b r rest) (hblock : block ≠ 0) (hfree : block ∉ σ.used) :
    Sound { σ.setProc P (.store c inode b r rest block) with used := insert block σ.used } := by
  have hk := h.knows P
  rw [hpc] at hk
  obtain ⟨hinode, hsize, hleads⟩ := hk.walks
  have hself : Knows { σ with used := insert block σ.used } (.store c inode b r rest block) := by
    refine ⟨⟨hinode, hsize, hleads, hblock, Finset.mem_insert_self .., ?_, ?_⟩, ?_, fun _ _ _ h => (by cases h)⟩
    · intro s hs
      exact hfree (by rw [← hs]; exact h.used s (by rw [hs]; exact hblock))
    · intro k
      by_contra hne
      exact hfree (h.inner block k hne)
    · exact (hk.use block).missed
  refine ⟨h.first, h.inj, fun r' hr' => Finset.mem_insert_of_mem (h.used r' hr'),
    fun v k hv => Finset.mem_insert_of_mem (h.inner v k hv), ?_, ?_, ?_, ?_, ?_⟩
  · intro Q
    show Knows (({ σ with used := insert block σ.used } : Dir).setProc P _)
      (update σ.proc P (.store c inode b r rest block) Q)
    rw [update_apply]
    split
    · exact hself.setProc
    · exact ((h.knows Q).use block).setProc
  · intro Q R blk hQ hR
    have hother : ∀ S, Stores (σ.proc S) block → False :=
      fun S hS => hfree ((h.knows S).walks.stores_used hS)
    simp only [Dir.setProc, update_apply] at hQ hR
    split at hQ
    · rename_i hQP
      have hblk : block = blk := hQ
      split at hR
      · rename_i hRP
        rw [hQP, hRP]
      · exact (hother R (by rw [hblk]; exact hR)).elim
    · split at hR
      · have hblk : block = blk := hR
        exact (hother Q (by rw [hblk]; exact hQ)).elim
      · exact h.stores Q R blk hQ hR
  · intro b k b' k' hl hl'
    exact h.unique b k b' k' (hl.congr rfl rfl rfl) (hl'.congr rfl rfl rfl)
  · intro b k hl
    exact h.padded b k (hl.congr rfl rfl rfl)
  · intro x hx
    obtain ⟨b, k, hl, hname⟩ := h.owed x hx
    exact ⟨b, k, hl.congr rfl rfl rfl, hname⟩

theorem addPtr_sound (h : Sound σ) {inode : ℕ} {r : Ref} {rest : List ℕ} {new : Option ℕ}
    (hpc : σ.proc P = .add c inode b r rest) (hs : σ.addPtr P c inode b r rest new = some τ) :
    Sound τ := by
  have hk := h.knows P
  rw [hpc] at hk
  obtain ⟨hinode, hsize, hleads⟩ := hk.walks
  rw [addPtr.eq_def] at hs
  split at hs
  · split at hs
    · cases hs
      exact h.setProc knows_idle (fun _ => id)
    · cases new with
      | none =>
        cases hs
        exact h.setProc knows_idle (fun _ => id)
      | some block =>
        obtain ⟨⟨hblock, hfree⟩, heq⟩ := Option.ite_none_right_eq_some.1 hs
        cases heq
        exact reserve_sound h hpc hblock hfree
  · rename_i hne
    cases hs
    exact h.setProc (knows_addVia hinode hsize hleads rfl hne (fun b' k hl => hk.missed _ b' k hl rfl))
      (not_stores_addVia _ _ _ _ _)

/-- The pointers after a store to one that was not set. -/
theorem storePtr_ptr {inode block : ℕ} {r : Ref} {rest : List ℕ}
    (hnew : ∀ k, σ.ptr (.indirect block k) = 0) (s : Ref) :
    (σ.storePtr P c inode b r rest block).ptr s = if s = r then block else σ.ptr s := by
  rw [storePtr]
  by_cases hs : s = r
  · simp only [if_pos hs]
  · simp only [if_neg hs]
    cases s with
    | zone k => rfl
    | indirect blk k =>
      by_cases hblk : blk = block
      · simp [hblk, hnew]
      · simp only [if_neg hblk]

/-- A block that was not there is still not there, or it is the new one. -/
theorem bmapFrom_store {ptr : Ref → ℕ} {r : Ref} {block : ℕ}
    (hnew : ∀ k, ptr (.indirect block k) = 0) (hrne : ∀ k, r ≠ .indirect block k) (rest : List ℕ) :
    ∀ s, bmapFrom ptr s rest = 0 → bmapFrom (fun s => if s = r then block else ptr s) s rest = 0 ∨
      bmapFrom (fun s => if s = r then block else ptr s) s rest = block := by
  induction rest with
  | nil =>
    intro s hs
    simp only [bmapFrom] at hs ⊢
    split
    · exact Or.inr rfl
    · exact Or.inl hs
  | cons k ks ih =>
    intro s hs
    by_cases hsr : s = r
    · left
      rw [bmapFrom]
      simp only [if_pos hsr]
      by_cases hb0 : block = 0
      · exact if_pos hb0
      · -- the new block points nowhere
        have hzero : (if Ref.indirect block k = r then block else ptr (.indirect block k)) = 0 := by
          rw [if_neg (Ne.symm (hrne k)), hnew]
        rw [if_neg hb0]
        cases ks with
        | nil => exact hzero
        | cons k' ks => exact if_pos hzero
    · rw [bmapFrom] at hs ⊢
      simp only [if_neg hsr]
      by_cases h0 : ptr s = 0
      · exact Or.inl (if_pos h0)
      · rw [if_neg h0] at hs
        simp only [if_neg h0]
        exact ih _ hs

/-- **`create_block`** stores the number of a block that nobody has, where no number was. -/
theorem storePtr_sound (h : Sound σ) {inode block : ℕ} {r : Ref} {rest : List ℕ}
    (hpc : σ.proc P = .store c inode b r rest block) (hr : σ.ptr r = 0) :
    Sound (σ.storePtr P c inode b r rest block) := by
  have hk := h.knows P
  rw [hpc] at hk
  obtain ⟨hinode, hsize, hleads, hblock, hused, hfresh, hnew⟩ := hk.walks
  have hrne : ∀ k, r ≠ .indirect block k := by
    rintro k rfl
    obtain ⟨s, hs, -⟩ := hleads.indirect
    exact hfresh s hs
  obtain ⟨τ, hτ⟩ : ∃ τ, σ.storePtr P c inode b r rest block = τ := ⟨_, rfl⟩
  have hptr : ∀ s, τ.ptr s = if s = r then block else σ.ptr s := by
    rw [← hτ]
    exact storePtr_ptr hnew
  have hdata : ∀ v, v ≠ block → τ.data v = σ.data v := by
    intro v hv
    rw [← hτ]
    exact update_of_ne hv ..
  have hzero : ∀ k, (τ.data block k).inode = 0 := by
    intro k
    rw [← hτ, storePtr]
    simp only [update_self]
  have hsame : τ.size = σ.size ∧ τ.used = σ.used ∧ τ.owed = σ.owed ∧
      τ.proc = update σ.proc P (addVia c inode b block rest) := by
    rw [← hτ]
    exact ⟨rfl, rfl, rfl, rfl⟩
  obtain ⟨hsz, hus, how, hproc⟩ := hsame
  rw [hτ]
  have hkeep : ∀ s, σ.ptr s ≠ 0 → τ.ptr s = σ.ptr s := by
    intro s hs
    rw [hptr, if_neg]
    rintro rfl
    exact hs hr
  have hbmap : ∀ b', σ.bmap b' ≠ 0 → τ.bmap b' = σ.bmap b' := fun b' hb' => bmapFrom_keep hkeep hb'
  have hne : ∀ b', σ.bmap b' ≠ 0 → σ.bmap b' ≠ block := by
    intro b' hb' heq
    obtain ⟨s, hs⟩ := exists_ptr_of_bmapFrom hb'
    exact hfresh s (hs.trans heq)
  have hback : ∀ b' k, Live τ b' k → Live σ b' k := by
    intro b' k hl
    have hb' : σ.bmap b' ≠ 0 := by
      intro h0
      have hcases := bmapFrom_store hnew hrne (restPath b') (firstRef b') h0
      rw [← funext hptr] at hcases
      rcases hcases with hzero' | hblk
      · exact hl.mapped hzero'
      · have hinode' := hl.inode
        rw [show τ.bmap b' = block from hblk] at hinode'
        exact hinode' (hzero k)
    refine ⟨hb', by rw [← hsz]; exact hl.inside, ?_⟩
    rw [← hdata _ (hne b' hb'), ← hbmap b' hb']
    exact hl.inode
  have hforth : ∀ b' k, Live σ b' k → Live τ b' k := by
    intro b' k hl
    refine ⟨by rw [hbmap b' hl.mapped]; exact hl.mapped, by rw [hsz]; exact hl.inside, ?_⟩
    rw [hbmap b' hl.mapped, hdata _ (hne b' hl.mapped)]
    exact hl.inode
  have hname : ∀ b' k, Live σ b' k → τ.nameAt b' k = σ.nameAt b' k := by
    intro b' k hl
    rw [nameAt, nameAt, hbmap b' hl.mapped, hdata _ (hne b' hl.mapped)]
  have hmissed : ∀ pc, Knows σ pc → ∀ x b' k, Live τ b' k → Past pc x (64 * b' + k.val) →
      τ.nameAt b' k ≠ x := by
    intro pc hpc x b' k hl hp
    rw [hname b' k (hback b' k hl)]
    exact hpc.missed x b' k (hback b' k hl) hp
  refine ⟨?_, ?_, ?_, ?_, ?_, ?_, ?_, ?_, ?_⟩
  · rw [hbmap 0 h.first]
    exact h.first
  · intro s s' hs heq
    rw [hptr, hptr] at heq
    rw [hptr] at hs
    by_cases hsr : s = r
    · by_cases hsr' : s' = r
      · rw [hsr, hsr']
      · rw [if_pos hsr, if_neg hsr'] at heq
        exact absurd heq.symm (hfresh s')
    · rw [if_neg hsr] at heq hs
      by_cases hsr' : s' = r
      · rw [if_pos hsr'] at heq
        exact absurd heq (hfresh s)
      · rw [if_neg hsr'] at heq
        exact h.inj s s' hs heq
  · intro s hs
    rw [hptr] at hs ⊢
    rw [hus]
    split
    · exact hused
    · rename_i hsr
      rw [if_neg hsr] at hs
      exact h.used s hs
  · intro v k hv
    rw [hus]
    rw [hptr] at hv
    split at hv
    · rename_i hvr
      rw [← hvr] at hleads
      obtain ⟨s, hs, hv0⟩ := hleads.indirect
      rw [← hs]
      exact h.used s (by rw [hs]; exact hv0)
    · exact h.inner v k hv
  · intro Q
    rw [hproc, update_apply]
    split
    · refine knows_addVia hinode (by rw [hsz]; exact hsize) (hleads.mono hkeep) ?_ hblock ?_
      · rw [hptr, if_pos rfl]
      · intro b' k hl
        exact hmissed _ hk _ b' k hl rfl
    · rename_i hQP
      have hkQ := h.knows Q
      refine ⟨?_, hmissed _ hkQ, ?_⟩
      · have hw := hkQ.walks
        cases hpcQ : σ.proc Q with
        | idle => trivial
        | create _ => trivial
        | remove _ _ _ => trivial
        | find call entries b' r' rest' =>
          rw [hpcQ] at hw
          exact ⟨hw.1, by rw [hsz]; exact hw.2.1, hw.2.2.mono hkeep⟩
        | findIn call entries b' blk =>
          rw [hpcQ] at hw
          obtain ⟨h1, h2, h3, h4⟩ := hw
          refine ⟨h1, by rw [hsz]; exact h2, h3, ?_⟩
          rw [hbmap b' (by rw [h4]; exact h3), h4]
        | add c' inode' b' r' rest' =>
          rw [hpcQ] at hw
          exact ⟨hw.1, by rw [hsz]; exact hw.2.1, hw.2.2.mono hkeep⟩
        | addIn c' inode' b' blk =>
          rw [hpcQ] at hw
          obtain ⟨h1, h2, h3, h4⟩ := hw
          refine ⟨h1, by rw [hsz]; exact h2, h3, ?_⟩
          rw [hbmap b' (by rw [h4]; exact h3), h4]
        | store c' inode' b' r' rest' blk =>
          rw [hpcQ] at hw
          obtain ⟨h1, h2, h3, h4, h5, h6, h7⟩ := hw
          have hblk : block ≠ blk := by
            intro heq
            refine hQP (h.stores Q P blk ?_ ?_)
            · rw [hpcQ]
              rfl
            · rw [hpc]
              exact heq
          refine ⟨h1, by rw [hsz]; exact h2, h3.mono hkeep, h4, by rw [hus]; exact h5, ?_, ?_⟩
          · intro s
            rw [hptr]
            split
            · exact hblk
            · exact h6 s
          · intro k
            rw [hptr, if_neg, h7]
            rintro rfl
            obtain ⟨s, hs, -⟩ := hleads.indirect
            exact h6 s hs
      · intro c' v k heq
        by_cases hv : v = block
        · rw [hv]
          exact Or.inl (hzero k)
        · rw [hdata v hv]
          exact hkQ.removes c' v k heq
  · intro Q R blk hQ hR
    rw [hproc, update_apply] at hQ hR
    split at hQ
    · exact absurd hQ (not_stores_addVia _ _ _ _ _ _)
    · split at hR
      · exact absurd hR (not_stores_addVia _ _ _ _ _ _)
      · exact h.stores Q R blk hQ hR
  · intro b₁ k₁ b₂ k₂ hl₁ hl₂ heq
    rw [hname b₁ k₁ (hback b₁ k₁ hl₁), hname b₂ k₂ (hback b₂ k₂ hl₂)] at heq
    exact h.unique b₁ k₁ b₂ k₂ (hback b₁ k₁ hl₁) (hback b₂ k₂ hl₂) heq
  · intro b' k hl
    rw [hname b' k (hback b' k hl)]
    exact h.padded b' k (hback b' k hl)
  · intro x hx
    rw [how] at hx
    obtain ⟨b', k, hl, hn⟩ := h.owed x hx
    exact ⟨b', k, hforth b' k hl, by rw [hname b' k hl]; exact hn⟩

end Dir

end OldLinux.Directory
