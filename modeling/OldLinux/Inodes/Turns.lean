import OldLinux.Inodes.Freeing

/-!
# Where a process goes

The program counter and the references of a process from one sleep to the next, on a system without
mounted devices, and the bits that it clears on the way.
-/

namespace OldLinux.Inodes

open Function Lib

/-- `iput` goes on to `truncate`. -/
def Pc.Frees (t : Fin 32 → Inode) (i : Fin 32) : Pc → Prop
  | .put j _ =>
    j = i ∧ (t i).dev ≠ 0 ∧ (t i).disk.blk = false ∧ (t i).count ≤ 1 ∧ (t i).disk.nlinks = 0
  | .putAgain j _ => j = i ∧ (t i).count ≤ 1 ∧ (t i).disk.nlinks = 0
  | _ => False

/-- The entry that `iput` has, and where it goes back to. -/
def Pc.puts : Pc → Option (Fin 32 × After)
  | .put i k => some (i, k)
  | .putAgain i k => some (i, k)
  | .putWrite i k => some (i, k)
  | .putTrunc i k => some (i, k)
  | _ => none

namespace Table

/-- The process before and after it has run. -/
inductive Turn {n : ℕ} (σ τ : Table n) : Proc → Proc → Prop
  | again (k : Caller) (i j) (l) : Turn σ τ ⟨.emptyWait k i, l⟩ ⟨.emptyWait k j, l⟩
  | flush (k : Caller) (i l) : Turn σ τ ⟨.emptyWait k i, l⟩ ⟨.emptyWrite k i, l⟩
  | flushed (k : Caller) (i l) : Turn σ τ ⟨.emptyWrite k i, l⟩ ⟨.emptyWait k i, l⟩
  | forIget (dev nr i l) : Turn σ τ ⟨.emptyWait (.iget dev nr) i, l⟩ ⟨.look i dev nr, l⟩
  | forNew (dev i l) : Turn σ τ ⟨.emptyWait (.newInode dev) i, l⟩ ⟨.newInode i dev, l⟩
  | forPipe (i l) : Turn σ τ ⟨.emptyWait .other i, l⟩ ⟨.user, i :: l⟩
  | wait (e dev nr i l) : Turn σ τ ⟨.look e dev nr, l⟩ ⟨.lookWait e dev nr i, l⟩
  | retry (e dev nr i l) : Turn σ τ ⟨.lookWait e dev nr i, l⟩ ⟨.look e dev nr, l⟩
  | found (e dev nr i l) : (τ.inode i).is dev nr → Turn σ τ ⟨.look e dev nr, l⟩ ⟨.put e .done, i :: l⟩
  | foundWait (e dev nr i l) : (τ.inode i).is dev nr → Turn σ τ ⟨.lookWait e dev nr i, l⟩ ⟨.put e .done, i :: l⟩
  | install (e dev nr l) : (τ.inode e).is dev nr → Turn σ τ ⟨.look e dev nr, l⟩ ⟨.read e, l⟩
  | loaded (i l) : (τ.inode i).is (σ.inode i).dev (σ.inode i).num → Turn σ τ ⟨.read i, l⟩ ⟨.user, i :: l⟩
  | back (pc i k l) : Pc.puts pc = some (i, k) → Turn σ τ ⟨pc, l⟩ ⟨After.pc k, l⟩
  | sync (i k l) : Turn σ τ ⟨.put i k, l⟩ ⟨.putAgain i k, l⟩
  | write (pc i k l) : Pc.puts pc = some (i, k) → Turn σ τ ⟨pc, l⟩ ⟨.putWrite i k, l⟩
  | wrote (i k l) : Turn σ τ ⟨.putWrite i k, l⟩ ⟨.putAgain i k, l⟩
  | trunc (pc i k l) : pc.Frees σ.inode i → Pc.puts pc = some (i, k) → τ.inode = σ.inode →
      Turn σ τ ⟨pc, l⟩ ⟨.putTrunc i k, l⟩

variable {n : ℕ} {σ τ : Table n} {P Q : Fin n} {i j e : Fin 32} {k : After} {dev nr : ℕ}
variable {l : List (Fin 32)} {pc : Pc}

theorem goes {p : Proc} (hproc : τ.proc = update σ.proc P p) (ht : Turn σ τ (σ.proc P) p) :
    Turn σ τ (σ.proc P) (τ.proc P) ∧ ∀ Q, Q ≠ P → τ.proc Q = σ.proc Q := by
  rw [hproc, update_self]
  refine ⟨ht, ?_⟩
  intro Q hQ
  rw [update_of_ne hQ]

theorem goes_setPc {ρ : Table n} (hρ : ρ.proc = σ.proc) (hp : σ.proc P = ⟨pc, l⟩) {pc' : Pc}
    (ht : Turn σ (ρ.setPc P pc') ⟨pc, l⟩ ⟨pc', l⟩) :
    Turn σ (ρ.setPc P pc') (σ.proc P) ((ρ.setPc P pc').proc P) ∧
    ∀ Q, Q ≠ P → (ρ.setPc P pc').proc Q = σ.proc Q := by
  refine goes (p := ⟨pc', l⟩) ?_ (by rw [hp]; exact ht)
  show update ρ.proc P { ρ.proc P with pc := pc' } = _
  rw [hρ, hp]

theorem goes_drop (hp : σ.proc P = ⟨pc, l⟩) (hputs : pc.puts = some (i, k)) :
    Turn σ (σ.drop P i k) (σ.proc P) ((σ.drop P i k).proc P) ∧
    ∀ Q, Q ≠ P → (σ.drop P i k).proc Q = σ.proc Q :=
  goes_setPc (by rfl) hp (.back _ _ _ _ hputs)

theorem goes_putRepeat (hp : σ.proc P = ⟨pc, l⟩) (hputs : pc.puts = some (i, k))
    (hfrees : (σ.inode i).count ≤ 1 → (σ.inode i).disk.nlinks = 0 → pc.Frees σ.inode i) :
    Turn σ (σ.putRepeat P i k) (σ.proc P) ((σ.putRepeat P i k).proc P) ∧
    ∀ Q, Q ≠ P → (σ.putRepeat P i k).proc Q = σ.proc Q := by
  rw [putRepeat]
  split
  · exact goes_drop hp hputs
  · rename_i hcount
    split
    · rename_i hlinks
      exact goes_setPc (by rfl) hp (.trunc _ _ _ _ (hfrees (Nat.not_lt.1 hcount) hlinks) hputs rfl)
    · split
      · exact goes_setPc (by rfl) hp (.write _ _ _ _ hputs)
      · exact goes_drop hp hputs

theorem goes_getEmpty {k : Caller} (hp : σ.proc P = ⟨.emptyWait k i, l⟩)
    (hcalm : (σ.getEmpty P k).panicked = false) :
    Turn σ (σ.getEmpty P k) (σ.proc P) ((σ.getEmpty P k).proc P) ∧
    ∀ Q, Q ≠ P → (σ.getEmpty P k).proc Q = σ.proc Q := by
  rw [getEmpty] at hcalm ⊢
  split
  · rename_i j _
    exact goes_setPc (by rfl) hp (.again _ _ _ _)
  · rename_i hnone
    rw [hnone] at hcalm
    split
    · exact goes_setPc (by rfl) hp (.again _ _ _ _)
    · rename_i hfree
      rw [hfree] at hcalm
      cases hcalm

theorem hit_is (his : (σ.inode i).is dev nr) : ((σ.hit P e i).inode i).is dev nr := by
  rw [hit.eq_def]
  simp only
  split
  · rw [setProc_inode, setCount_inode, if_pos rfl]
    exact his
  · rw [setPc_inode, setCount_inode, if_pos rfl]
    exact his

theorem goes_hit (hsb : ∀ i, σ.sb i = none) (hp : σ.proc P = ⟨pc, l⟩)
    (ht : Turn σ (σ.hit P e i) ⟨pc, l⟩ ⟨.put e .done, i :: l⟩) :
    Turn σ (σ.hit P e i) (σ.proc P) ((σ.hit P e i).proc P) ∧
    ∀ Q, Q ≠ P → (σ.hit P e i).proc Q = σ.proc Q := by
  refine goes (p := ⟨.put e .done, i :: l⟩) ?_ (by rw [hp]; exact ht)
  have hnone : ∀ b : Bool, (if b then (σ.setCount i ((σ.inode i).count + 1)).sb i else none) = none := by
    intro b
    cases b
    · rfl
    · exact hsb i
  rw [hit.eq_def]
  simp only [hnone]
  show update σ.proc P ⟨.put e .done, i :: (σ.proc P).held⟩ = _
  rw [hp]

/-- **From one sleep to the next.** -/
theorem run_turn (hsb : ∀ i, σ.sb i = none) (hs : σ.run P = some τ) (hcalm : τ.panicked = false) :
    Turn σ τ (σ.proc P) (τ.proc P) ∧ ∀ Q, Q ≠ P → τ.proc Q = σ.proc Q := by
  obtain ⟨pc, l, hp⟩ : ∃ pc l, σ.proc P = ⟨pc, l⟩ := ⟨_, _, rfl⟩
  have hran := run_cases hs
  simp only [hp] at hran
  cases hran with
  | flush => exact goes_setPc (by rfl) hp (.flush _ _ _)
  | @take c i =>
    cases c with
    | iget dev nr => exact goes_setPc (by rfl) hp (.forIget _ _ _ _)
    | newInode dev => exact goes_setPc (by rfl) hp (.forNew _ _ _)
    | other =>
      refine goes (p := ⟨.user, i :: l⟩) ?_ (by rw [hp]; exact .forPipe _ _)
      show update σ.proc P ⟨.user, i :: (σ.proc P).held⟩ = _
      rw [hp]
  | again => exact goes_getEmpty hp hcalm
  | flushed => exact goes_setPc (by rfl) hp (.flushed _ _ _)
  | look =>
    rw [look]
    split
    · rename_i i hlook
      split
      · exact goes_setPc (by rfl) hp (.wait _ _ _ _ _)
      · exact goes_hit hsb hp (.found _ _ _ _ _ (hit_is (lookup_some hlook)))
    · refine goes_setPc (by rfl) hp (.install _ _ _ _ ?_)
      rw [setPc_inode, setInode_inode, if_pos rfl]
      exact ⟨rfl, rfl⟩
  | found _ his => exact goes_hit hsb hp (.foundWait _ _ _ _ _ (hit_is his))
  | retry => exact goes_setPc (by rfl) hp (.retry _ _ _ _ _)
  | @loaded i =>
    refine goes (p := ⟨.user, i :: l⟩) ?_ ?_
    · show update σ.proc P ⟨.user, i :: (σ.proc P).held⟩ = _
      rw [hp]
    · rw [hp]
      refine .loaded _ _ ?_
      show ((σ.setInode i _).inode i).is _ _
      rw [setInode_inode, if_pos rfl]
      exact ⟨rfl, rfl⟩
  | put =>
    rw [put] at hcalm ⊢
    split
    · rename_i hzero
      rw [if_pos hzero] at hcalm
      cases hcalm
    · split
      · exact goes_drop hp rfl
      · rename_i hdev
        split
        · exact goes_setPc (by rfl) hp (.sync _ _ _)
        · rename_i hblk
          exact goes_putRepeat hp rfl fun h1 h2 => ⟨rfl, hdev, eq_false_of_ne_true hblk, h1, h2⟩
  | putAgain => exact goes_putRepeat hp rfl fun h1 h2 => ⟨rfl, h1, h2⟩
  | wrote => exact goes_setPc (by rfl) hp (.wrote _ _ _)
  | @freed i k =>
    rw [freeInode] at hcalm ⊢
    simp only at hcalm ⊢
    split
    · rename_i hbad
      rw [if_pos hbad] at hcalm
      cases hcalm
    · refine goes (p := ⟨After.pc k, l⟩) ?_ (by rw [hp]; exact .back _ _ _ _ rfl)
      show update σ.proc P { σ.proc P with pc := After.pc k } = _
      rw [hp]

/-- No inode is made or freed. -/
def SameBits (σ τ : Table n) : Prop := τ.bit = σ.bit ∧ τ.freed = σ.freed ∧ τ.sb = σ.sb

theorem getEmpty_sameBits (k : Caller) : SameBits σ (σ.getEmpty P k) := by
  rw [getEmpty]
  split
  · exact ⟨rfl, rfl, rfl⟩
  · split
    · exact ⟨rfl, rfl, rfl⟩
    · exact ⟨rfl, rfl, rfl⟩

theorem take_sameBits (k : Caller) : SameBits σ (σ.take P k i) := by
  cases k <;> exact ⟨rfl, rfl, rfl⟩

theorem hit_sameBits : SameBits σ (σ.hit P e i) := by
  rw [hit.eq_def]
  simp only
  split
  · exact ⟨rfl, rfl, rfl⟩
  · exact ⟨rfl, rfl, rfl⟩

theorem putRepeat_sameBits : SameBits σ (σ.putRepeat P i k) := by
  rw [putRepeat]
  split
  · exact ⟨rfl, rfl, rfl⟩
  · split
    · exact ⟨rfl, rfl, rfl⟩
    · split
      · exact ⟨rfl, rfl, rfl⟩
      · exact ⟨rfl, rfl, rfl⟩

theorem put_sameBits : SameBits σ (σ.put P i k) := by
  rw [put]
  split
  · exact ⟨rfl, rfl, rfl⟩
  · split
    · exact ⟨rfl, rfl, rfl⟩
    · split
      · exact ⟨rfl, rfl, rfl⟩
      · exact putRepeat_sameBits

theorem run_sameBits (hs : σ.run P = some τ) (hfree : ∀ i k, (σ.proc P).pc ≠ .putTrunc i k) : SameBits σ τ := by
  have hran := run_cases hs
  generalize hpc : (σ.proc P).pc = pc at hran
  cases hran with
  | take => exact take_sameBits _
  | again => exact getEmpty_sameBits _
  | look =>
    rw [look]
    split
    · split
      · exact ⟨rfl, rfl, rfl⟩
      · exact hit_sameBits
    · exact ⟨rfl, rfl, rfl⟩
  | found => exact hit_sameBits
  | put => exact put_sameBits
  | putAgain => exact putRepeat_sameBits
  | freed => exact absurd hpc (hfree _ _)
  | _ => exact ⟨rfl, rfl, rfl⟩

theorem update_update_of_not {α : Type*} {f : ℕ → ℕ → α} {v : α} {d m : ℕ} (h : ¬(d = dev ∧ m = nr)) :
    update f d (update (f d) m v) dev nr = f dev nr := by
  rw [update_apply]
  split
  · rename_i hd
    rw [update_of_ne, hd]
    intro hm
    exact h ⟨hd.symm, hm.symm⟩
  · rfl

/-- **The bit of an inode** and the number of times that it was freed change only in `free_inode`. -/
theorem run_bit (hs : σ.run P = some τ)
    (hfree : ∀ i k, (σ.proc P).pc = .putTrunc i k → ¬(σ.inode i).is dev nr) :
    τ.bit dev nr = σ.bit dev nr ∧ τ.freed dev nr = σ.freed dev nr := by
  by_cases htrunc : ∃ i k, (σ.proc P).pc = .putTrunc i k
  · obtain ⟨i, k, hpc⟩ := htrunc
    have his := hfree i k hpc
    simp only [run, hpc] at hs
    cases hs
    rw [freeInode]
    simp only
    split
    · exact ⟨rfl, rfl⟩
    · exact ⟨update_update_of_not his, update_update_of_not his⟩
  · rw [not_exists] at htrunc
    obtain ⟨h1, h2, -⟩ := run_sameBits hs fun i k hpc => htrunc i ⟨k, hpc⟩
    rw [h1, h2]
    exact ⟨rfl, rfl⟩

theorem run_sb (hs : σ.run P = some τ) : τ.sb = σ.sb := by
  by_cases htrunc : ∃ i k, (σ.proc P).pc = .putTrunc i k
  · obtain ⟨i, k, hpc⟩ := htrunc
    simp only [run, hpc] at hs
    cases hs
    rw [freeInode]
    simp only
    split
    · rfl
    · rfl
  · rw [not_exists] at htrunc
    exact (run_sameBits hs fun i k hpc => htrunc i ⟨k, hpc⟩).2.2

end Table

end OldLinux.Inodes
