import OldLinux.Namei.Scan
import Mathlib.Data.Nat.Find

/-!
# The buffers of a search

What `find_entry`, `add_entry` and `empty_dir` need to find on the disk in order to give back each buffer
that they take, and to use none that they do not hold.  A hole or a block that cannot be read leaves the
loops without a buffer, and the next turn looks at one all the same; `empty_dir` also keeps the buffer of
the first block if `.` and `..` are not what they should be.
-/

namespace OldLinux.Namei

open Function Lib Lib.BlockTree Creation

variable {α : Type} {fs : Fs} {nr b B n entries namelen : ℕ} {name : ℕ → ℕ}

/-- The references to the buffers are as they were, with one more for the buffer that is returned. -/
def Kept (buffer : α → Option ℕ) (fs : Fs) (a : α) (fs' : Fs) : Prop :=
  fs'.b_count = (buffer a).elim fs.b_count (held fs.b_count)

/-- `c` uses no buffer that it does not hold, comes to its end and gives back what it has taken. -/
def KeepsBuffers (c : NameiM α) (buffer : α → Option ℕ) (fs : Fs) : Prop :=
  wp c (Kept buffer fs) (fun _ _ => False) fs

/-- The buffer of an entry. -/
def entry_buffer (r : Option (ℕ × ℕ)) : Option ℕ := r.map Prod.fst

/-- The block of the entry `i`. -/
def entry_block (fs : Fs) (nr i : ℕ) : ℕ := fs.block nr (blockPlace (i / 64))

theorem entry_block_eq {e : ℕ} (he : e < 64) : entry_block fs nr (64 * b + e) = fs.block nr (blockPlace b) := by
  rw [entry_block, show (64 * b + e) / 64 = b by omega]

/-- The first of the entries in a block that has a property. -/
theorem exists_first {p : ℕ → Prop} (m : ℕ) : (∃ e < m, p e ∧ ∀ j < e, ¬p j) ∨ ∀ e < m, ¬p e := by
  by_cases h : ∃ e, e < m ∧ p e
  · classical
    have hspec := Nat.find_spec h
    refine .inl ⟨Nat.find h, hspec.1, hspec.2, fun j hj hp => ?_⟩
    exact Nat.find_min h hj ⟨hj.trans hspec.1, hp⟩
  · exact .inr fun e he hp => h ⟨e, he, hp⟩

/-! ### `find_entry` -/

/-- The entry `i` of the directory has the name. -/
def named (fs : Fs) (nr namelen : ℕ) (name : ℕ → ℕ) (i : ℕ) : Bool :=
  match_entry fs namelen name (entry_block fs nr i) (i % 64)

theorem named_eq {e : ℕ} (he : e < 64) : named fs nr namelen name (64 * b + e)
    = match_entry fs namelen name (fs.block nr (blockPlace b)) e := by
  rw [named, entry_block_eq he, show (64 * b + e) % 64 = e by omega]

/-- Up to the entry with the name, all blocks of the directory but the last one are there and can be
read. -/
def FindsBlocks (fs : Fs) (nr entries namelen : ℕ) (name : ℕ → ℕ) : Prop :=
  Had fs nr 0 → ∀ b, 0 < b → 64 * b < entries → (∀ i < 64 * b, named fs nr namelen name i = false) →
    b < MAX_BLOCKS ∧ (64 * (b + 1) < entries → Had fs nr b)

-- their equations, made once for the proofs below
attribute [local simp] find_loop empty_loop add_loop

section Find

variable {Q : Option (ℕ × ℕ) → Fs → Prop} {E : Fault → Fs → Prop} {i de : ℕ}

theorem wp_find_next (hde : de < 64) (hi : i < entries) (hno : match_entry fs namelen name B de = false) :
    wp (find_loop nr entries namelen name (n + 1) i (.held B) de) Q E fs
      ↔ wp (find_loop nr entries namelen name n (i + 1) (.held B) (de + 1)) Q E fs := by
  rw [find_loop, if_pos hi, wp_bind, wp_of_ok (next_here hde)]
  dsimp only
  rw [wp_bind, wp_get, hno, if_neg Bool.false_ne_true]

theorem wp_find_here (hde : de < 64) (hi : i < entries) (hyes : match_entry fs namelen name B de = true) :
    wp (find_loop nr entries namelen name (n + 1) i (.held B) de) Q E fs ↔ Q (some (B, de)) fs := by
  rw [find_loop, if_pos hi, wp_bind, wp_of_ok (next_here hde)]
  dsimp only
  rw [wp_bind, wp_get, hyes, if_pos rfl, wp_pure]

/-- The loop is over. -/
theorem wp_find_end {bh : Bh} (hi : ¬i < entries) : wp (find_loop nr entries namelen name n i bh de) Q E fs
      ↔ wp bh.brelse (fun _ fs' => Q none fs') E fs := by
  cases n with
  | zero => rw [find_loop, wp_bind]; rfl
  | succ n => rw [find_loop, if_neg hi, wp_bind]; rfl

/-- The first entry of the next block. -/
theorem wp_find_turn {fs' : Fs} {B' : ℕ} (hi : i < entries)
    (h : next_entry (bmap nr) i (.held B) de fs = .ok (.entry B' 0) fs') :
    wp (find_loop nr entries namelen name (n + 1) i (.held B) de) Q E fs
      ↔ wp (find_loop nr entries namelen name (n + 1) i (.held B') 0) Q E fs' := by
  rw [find_loop, find_loop, if_pos hi, if_pos hi, wp_bind, wp_bind, wp_of_ok h,
    wp_of_ok (next_here (by decide))]

/-- There is no next block, or it cannot be read. -/
theorem wp_find_skip {fs' : Fs} {bh : Bh} {r : Next} (hi : i < entries)
    (h : next_entry (bmap nr) i bh de fs = .ok r fs') (hr : r = .missing ∨ r = .unread) :
    wp (find_loop nr entries namelen name (n + 1) i bh de) Q E fs
      ↔ wp (find_loop nr entries namelen name n (i + 64) .null de) Q E fs' := by
  rw [find_loop, if_pos hi, wp_bind, wp_of_ok h]
  rcases hr with rfl | rfl <;> rfl

theorem not_wp_find_null (hi : i < entries) :
    ¬wp (find_loop nr entries namelen name (n + 1) i .null de) Q (fun _ _ => False) fs := by
  rw [find_loop, if_pos hi, wp_bind, next_entry, wp_bind, Bh.b_data, wp_throw]
  exact not_false

/-- The search in one block: it ends at the first entry with the name or behind the last entry, or it comes
to the end of the block. -/
theorem wp_find_in_block (fs : Fs) (nr B namelen : ℕ) (name : ℕ → ℕ) (Q : Option (ℕ × ℕ) → Fs → Prop)
    (E : Fault → Fs → Prop) (hn : entries ≤ 64 * b + n) :
    (∃ e < 64, 64 * b + e < entries ∧ match_entry fs namelen name B e = true ∧
      (∀ j < e, match_entry fs namelen name B j = false) ∧
      (wp (find_loop nr entries namelen name n (64 * b) (.held B) 0) Q E fs ↔ Q (some (B, e)) fs)) ∨
    (entries ≤ 64 * b + 64 ∧ (∀ e, 64 * b + e < entries → match_entry fs namelen name B e = false) ∧
      (wp (find_loop nr entries namelen name n (64 * b) (.held B) 0) Q E fs
        ↔ wp (Bh.held B).brelse (fun _ fs' => Q none fs') E fs)) ∨
    ∃ n', n = n' + 1 + 64 ∧ 64 * (b + 1) < entries ∧ (∀ e < 64, match_entry fs namelen name B e = false) ∧
      (wp (find_loop nr entries namelen name n (64 * b) (.held B) 0) Q E fs
        ↔ wp (find_loop nr entries namelen name (n' + 1) (64 * (b + 1)) (.held B) 64) Q E fs) := by
  have hpass : ∀ k n, 64 * b + k ≤ entries → k ≤ 64 → (∀ e < k, match_entry fs namelen name B e = false) →
      (wp (find_loop nr entries namelen name (n + k) (64 * b) (.held B) 0) Q E fs
      ↔ wp (find_loop nr entries namelen name n (64 * b + k) (.held B) (0 + k)) Q E fs) := by
    intro k n hk hk64 hno
    have hstep : ∀ n i de, de < 64 → i < entries ∧ match_entry fs namelen name B de = false →
        (wp (find_loop nr entries namelen name (n + 1) i (.held B) de) Q E fs
        ↔ wp (find_loop nr entries namelen name n (i + 1) (.held B) (de + 1)) Q E fs) :=
      fun n i de hde hgo => wp_find_next hde hgo.1 hgo.2
    refine wp_pass hstep k n (64 * b) 0 (by omega) fun j hj => ?_
    rw [Nat.zero_add]
    exact ⟨by omega, hno j hj⟩
  rcases exists_first (p := fun e => match_entry fs namelen name B e = true)
      (min 64 (entries - 64 * b)) with ⟨e, he, hyes, hbefore⟩ | hnone
  · have hno : ∀ j < e, match_entry fs namelen name B j = false := fun j hj => by simpa using hbefore j hj
    obtain ⟨n', rfl⟩ : ∃ n', n = n' + 1 + e := ⟨n - 1 - e, by omega⟩
    refine .inl ⟨e, by omega, by omega, hyes, hno, ?_⟩
    rw [hpass e (n' + 1) (by omega) (by omega) hno, Nat.zero_add, wp_find_here (by omega) (by omega) hyes]
  · have hno : ∀ e < 64, 64 * b + e < entries → match_entry fs namelen name B e = false := by
      intro e he hlt
      simpa using hnone e (by omega)
    by_cases hlast : entries ≤ 64 * b + 64
    · refine .inr (.inl ⟨hlast, fun e he => hno e (by omega) he, ?_⟩)
      obtain ⟨n', rfl⟩ : ∃ n', n = n' + (entries - 64 * b) := ⟨n - (entries - 64 * b), by omega⟩
      by_cases hb : 64 * b ≤ entries
      · rw [hpass _ _ (by omega) (by omega) fun e he => hno e (by omega) (by omega)]
        exact wp_find_end (by omega)
      · rw [show entries - 64 * b = 0 by omega]
        exact wp_find_end (by omega)
    · obtain ⟨n', rfl⟩ : ∃ n', n = n' + 1 + 64 := ⟨n - 1 - 64, by omega⟩
      refine .inr (.inr ⟨n', rfl, by omega, fun e he => hno e he (by omega), ?_⟩)
      rw [hpass 64 (n' + 1) (by omega) (Nat.le_refl 64) fun e he => hno e he (by omega), Nat.zero_add]
      exact Iff.rfl

/-- The search from the beginning of a block that is held. -/
theorem wp_find_block (hn : entries ≤ 64 * b + n) :
    wp (find_loop nr entries namelen name n (64 * b) (.held (fs.block nr (blockPlace b))) 0)
        (Kept entry_buffer fs) (fun _ _ => False)
        (holding (fs.block nr (blockPlace b)) (past (reads (b + 1)) fs))
      ↔ ∀ b', b < b' → 64 * b' < entries →
      (∀ i, 64 * b ≤ i → i < 64 * b' → named fs nr namelen name i = false) →
        b' < MAX_BLOCKS ∧ (64 * (b' + 1) < entries → Had fs nr b') := by
  induction hm : entries - 64 * b using Nat.strongRecOn generalizing b n with
  | ind m ih =>
  subst hm
  have hnamed : ∀ e < 64, named fs nr namelen name (64 * b + e)
      = match_entry fs namelen name (fs.block nr (blockPlace b)) e := fun e he => named_eq he
  set B := fs.block nr (blockPlace b) with hB
  set σ := holding B (past (reads (b + 1)) fs) with hσ
  rcases wp_find_in_block σ nr B namelen name (Kept entry_buffer fs) (fun _ _ => False) hn with
    ⟨e, he, hlt, hyes, -, h⟩ | ⟨hlast, -, h⟩ | ⟨n', rfl, hi, hno, h⟩
  · rw [h]
    refine iff_of_true rfl fun b' hb' hlt hall => ?_
    have hno := hall (64 * b + e) (by omega) (by omega)
    rw [hnamed e he] at hno
    exact absurd hyes (by rw [show match_entry σ = match_entry fs from rfl, hno]; exact Bool.false_ne_true)
  · rw [h, Bh.brelse, wp_of_ok (call_ok brelse_ok)]
    exact iff_of_true rfl fun b' hb' hlt _ => by omega
  · rw [h]
    have hbefore : ∀ i, 64 * b ≤ i → i < 64 * (b + 1) → named fs nr namelen name i = false := by
      intro i h1 h2
      have h3 := hno (i - 64 * b) (by omega)
      rwa [show match_entry σ = match_entry fs from rfl, ← hnamed _ (by omega), Nat.add_sub_cancel' h1] at h3
    by_cases hbig : b + 1 < MAX_BLOCKS
    · by_cases hhad : Had fs nr (b + 1)
      · rw [wp_find_turn hi (next_had hbig hhad), ih _ (by omega) (by omega) rfl]
        refine ⟨fun h b' hb' hlt hall => ?_, fun h b' hb' hlt hall => ?_⟩
        · by_cases heq : b' = b + 1
          · exact heq ▸ ⟨hbig, fun _ => hhad⟩
          · exact h b' (by omega) hlt fun i h1 h2 => hall i (by omega) h2
        · refine h b' (by omega) hlt fun i h1 h2 => ?_
          by_cases hi' : i < 64 * (b + 1)
          · exact hbefore i h1 hi'
          · exact hall i (by omega) h2
      · -- the next block is missing or cannot be read
        have hskip : ∃ r k, (r = .missing ∨ r = .unread) ∧
            next_entry (bmap nr) (64 * (b + 1)) (.held B) 64 σ = .ok r (past k fs) := by
          by_cases hfound : Found fs nr (b + 1)
          · obtain ⟨k, hk⟩ := next_unread (B := B) hbig hfound hhad
            exact ⟨_, k, .inr rfl, hk⟩
          · obtain ⟨k, hk⟩ := next_missing (B := B) hbig hfound
            exact ⟨_, k, .inl rfl, hk⟩
        obtain ⟨r, k, hr, hk⟩ := hskip
        rw [wp_find_skip hi hk hr]
        by_cases hlast' : entries ≤ 64 * (b + 1) + 64
        · rw [wp_find_end (by omega), Bh.brelse, wp_pure]
          refine iff_of_true rfl fun b' hb' hlt hall => ⟨by omega, fun h => ?_⟩
          omega
        · obtain ⟨n'', rfl⟩ : ∃ n'', n' = n'' + 1 := ⟨n' - 1, by omega⟩
          refine iff_of_false (not_wp_find_null (by omega)) fun h => hhad ?_
          exact (h (b + 1) (Nat.lt_succ_self b) hi hbefore).2 (by omega)
    · refine iff_of_false (fun h => ?_) fun h => hbig (h (b + 1) (Nat.lt_succ_self b) hi hbefore).1
      rw [find_loop, if_pos hi, wp_bind] at h
      exact next_big hbig h

theorem had_zero : Had fs nr 0 ↔ (fs.inode nr).i_zone 0 ≠ 0 ∧ fs.unreadable 0 = false :=
  ⟨fun h => ⟨h.found.1, h.read⟩, fun h => ⟨⟨h.1, fun k hk => absurd hk (Nat.not_lt_zero k)⟩, h.2⟩⟩

/-- The first block. -/
theorem wp_first {c : NameiM α} {a : α} {Q : α → Fs → Prop} {E : Fault → Fs → Prop}
    (hno : ∀ u, Q a { fs with unreadable := u }) :
    wp (if (fs.inode nr).i_zone 0 = 0 then pure a
        else do if ← call (bread ((fs.inode nr).i_zone 0)) then c else pure a) Q E fs
      ↔ (Had fs nr 0 → wp c Q E (holding (fs.block nr (blockPlace 0)) (past (reads 1) fs))) := by
  rw [had_zero]
  split_ifs with hzero
  · exact iff_of_true (hno fs.unreadable) fun h => absurd hzero h.1
  · rw [wp_bind]
    by_cases hread : fs.unreadable 0 = true
    · rw [wp_of_ok (call_ok (bread_fails hread)), if_neg Bool.false_ne_true, wp_pure]
      refine iff_of_true (hno _) fun h => ?_
      rw [hread] at h
      cases h.2
    · have hok : fs.unreadable 0 = false := by simpa using hread
      rw [wp_of_ok (call_ok (bread_ok hok)), if_pos rfl]
      exact ⟨fun h _ => h, fun h => h ⟨hzero, hok⟩⟩

/-- The condition under which the search for a name keeps its buffers. -/
theorem find_in_keeps : KeepsBuffers (find_in nr entries namelen name) entry_buffer fs ↔
    FindsBlocks fs nr entries namelen name := by
  rw [KeepsBuffers, FindsBlocks, find_in, wp_bind, wp_get, wp_first fun u => rfl]
  refine imp_congr_right fun _ => ?_
  refine (wp_find_block (b := 0) (n := entries) (Nat.le_add_left ..)).trans ?_
  refine forall₃_congr fun b' _ _ => ?_
  exact ⟨fun h hall => h fun i _ hi => hall i hi, fun h hall => h fun i hi => hall i (Nat.zero_le i) hi⟩

end Find

/-! ### `empty_dir` -/

/-- The entry `i` is in use. -/
def live (fs : Fs) (nr i : ℕ) : Prop := entry_inode fs (entry_block fs nr i) (i % 64) ≠ 0

/-- `.` and `..` are there, and up to the first entry in use and the first block that cannot be read there
is no hole. -/
def EmptyBlocks (fs : Fs) (nr : ℕ) : Prop :=
  2 ≤ (fs.inode nr).i_size / 16 → Had fs nr 0 → dots fs nr (fs.block nr (blockPlace 0)) ∧
    ∀ b, 0 < b → 64 * b < (fs.inode nr).i_size / 16 → (∀ i, 2 ≤ i → i < 64 * b → ¬live fs nr i) →
      (∀ b', 0 < b' → b' < b → Had fs nr b') → b < MAX_BLOCKS ∧ Found fs nr b

section Empty

variable {len i de s : ℕ} {Q : Bool → Fs → Prop} {E : Fault → Fs → Prop}

theorem wp_empty_next (hde : de < 64) (hi : i < len) (hfree : entry_inode fs B de = 0) :
    wp (empty_loop nr len (n + 1) i (.held B) de) Q E fs
      ↔ wp (empty_loop nr len n (i + 1) (.held B) (de + 1)) Q E fs := by
  rw [empty_loop, if_pos hi, wp_bind, wp_of_ok (next_here hde)]
  dsimp only
  rw [wp_bind, wp_get, if_pos hfree]

/-- An entry in use: the directory is not empty. -/
theorem wp_empty_here (hde : de < 64) (hi : i < len) (hlive : entry_inode fs B de ≠ 0) :
    wp (empty_loop nr len (n + 1) i (.held B) de) Q E fs
      ↔ wp (call (Creation.brelse B)) (fun _ fs' => Q false fs') E fs := by
  rw [empty_loop, if_pos hi, wp_bind, wp_of_ok (next_here hde)]
  dsimp only
  rw [wp_bind, wp_get, if_neg hlive, wp_bind]
  exact Iff.rfl

theorem wp_empty_end {bh : Bh} (hi : ¬i < len) :
    wp (empty_loop nr len n i bh de) Q E fs ↔ wp bh.brelse (fun _ fs' => Q true fs') E fs := by
  cases n with
  | zero => rw [empty_loop, wp_bind]; rfl
  | succ n => rw [empty_loop, if_neg hi, wp_bind]; rfl

theorem wp_empty_turn {fs' : Fs} {B' : ℕ} (hi : i < len)
    (h : next_entry (bmap nr) i (.held B) de fs = .ok (.entry B' 0) fs') :
    wp (empty_loop nr len (n + 1) i (.held B) de) Q E fs ↔
    wp (empty_loop nr len (n + 1) i (.held B') 0) Q E fs' := by
  rw [empty_loop, empty_loop, if_pos hi, if_pos hi, wp_bind, wp_bind, wp_of_ok h,
    wp_of_ok (next_here (by decide))]

theorem wp_empty_unread {fs' : Fs} (hi : i < len)
    (h : next_entry (bmap nr) i (.held B) de fs = .ok .unread fs') :
    wp (empty_loop nr len (n + 1) i (.held B) de) Q E fs ↔ Q false fs' := by
  rw [empty_loop, if_pos hi, wp_bind, wp_of_ok h]
  exact Iff.rfl

/-- After a hole the buffer that has been released is used, or released again. -/
theorem not_wp_empty_missing {fs' : Fs} (hi : i < len)
    (h : next_entry (bmap nr) i (.held B) de fs = .ok .missing fs') :
    ¬wp (empty_loop nr len (n + 1) i (.held B) de) Q (fun _ _ => False) fs := by
  rw [empty_loop, if_pos hi, wp_bind, wp_of_ok h]
  show ¬wp (empty_loop nr len n (i + 64) (.released B) de) Q (fun _ _ => False) fs'
  by_cases hi' : i + 64 < len
  · cases n with
    | zero =>
      rw [empty_loop, wp_bind, Bh.brelse, wp_throw]
      exact not_false
    | succ n =>
      rw [empty_loop, if_pos hi', wp_bind, next_entry, wp_bind, Bh.b_data, wp_throw]
      exact not_false
  · rw [wp_empty_end hi', Bh.brelse, wp_throw]
    exact not_false

/-- The rest of the directory, from an entry in a block that is held. -/
theorem wp_empty_block (hn : len ≤ 64 * b + s + n) (hs : s ≤ 64) :
    wp (empty_loop nr len n (64 * b + s) (.held (fs.block nr (blockPlace b))) s) (Kept (fun _ => none) fs)
        (fun _ _ => False) (holding (fs.block nr (blockPlace b)) (past (reads (b + 1)) fs))
      ↔ ∀ b', b < b' → 64 * b' < len → (∀ i, 64 * b + s ≤ i → i < 64 * b' → ¬live fs nr i) →
        (∀ b'', b < b'' → b'' < b' → Had fs nr b'') → b' < MAX_BLOCKS ∧ Found fs nr b' := by
  induction hm : len - 64 * b using Nat.strongRecOn generalizing b n s with
  | ind m ih =>
  subst hm
  set B := fs.block nr (blockPlace b) with hB
  set σ := holding B (past (reads (b + 1)) fs) with hσ
  have hlive : ∀ e < 64, entry_inode σ B e ≠ 0 ↔ live fs nr (64 * b + e) := by
    intro e he
    rw [live, entry_block_eq he, show (64 * b + e) % 64 = e by omega]
    exact Iff.rfl
  have hpass : ∀ k n, 64 * b + s + k ≤ len → s + k ≤ 64 → (∀ j < k, entry_inode σ B (s + j) = 0) →
      (wp (empty_loop nr len (n + k) (64 * b + s) (.held B) s) (Kept (fun _ => none) fs)
        (fun _ _ => False) σ
      ↔ wp (empty_loop nr len n (64 * b + s + k) (.held B) (s + k)) (Kept (fun _ => none) fs)
        (fun _ _ => False) σ) := by
    intro k n hk hk64 hfree
    have hstep : ∀ n i de, de < 64 → i < len ∧ entry_inode σ B de = 0 →
        (wp (empty_loop nr len (n + 1) i (.held B) de) (Kept (fun _ => none) fs) (fun _ _ => False) σ
        ↔ wp (empty_loop nr len n (i + 1) (.held B) (de + 1)) (Kept (fun _ => none) fs)
          (fun _ _ => False) σ) := fun n i de hde hgo => wp_empty_next hde hgo.1 hgo.2
    exact wp_pass hstep k n (64 * b + s) s hk64 fun j hj => ⟨by omega, hfree j hj⟩
  rcases exists_first (p := fun j => entry_inode σ B (s + j) ≠ 0)
      (min (64 - s) (len - (64 * b + s))) with ⟨j, hj, hyes, hbefore⟩ | hnone
  · -- the directory is not empty
    obtain ⟨n', rfl⟩ : ∃ n', n = n' + 1 + j := ⟨n - 1 - j, by omega⟩
    rw [hpass j (n' + 1) (by omega) (by omega) fun i hi => by simpa using hbefore i hi,
      wp_empty_here (by omega) (by omega) hyes, wp_of_ok (call_ok brelse_ok)]
    refine iff_of_true rfl fun b' hb' hlt hall _ => ?_
    have hno := hall (64 * b + (s + j)) (by omega) (by omega)
    exact absurd ((hlive (s + j) (by omega)).1 hyes) hno
  · have hfree : ∀ j, s + j < 64 → 64 * b + s + j < len → entry_inode σ B (s + j) = 0 := by
      intro j hj hlt
      simpa using hnone j (by omega)
    by_cases hlast : len ≤ 64 * b + 64
    · -- this is the last block
      have hend : ∀ n k, len ≤ 64 * b + s + k →
          wp (empty_loop nr len n (64 * b + s + k) (.held B) (s + k)) (Kept (fun _ => none) fs)
            (fun _ _ => False) σ := by
        intro n k hk
        rw [wp_empty_end (by omega), Bh.brelse, wp_of_ok (call_ok brelse_ok)]
        rfl
      refine iff_of_true ?_ fun b' hb' hlt _ _ => by omega
      obtain ⟨n', rfl⟩ : ∃ n', n = n' + (len - (64 * b + s)) := ⟨n - (len - (64 * b + s)), by omega⟩
      by_cases hb : 64 * b + s ≤ len
      · rw [hpass _ _ (by omega) (by omega) fun j hj => hfree j (by omega) (by omega)]
        exact hend _ _ (by omega)
      · rw [show len - (64 * b + s) = 0 by omega]
        exact hend _ 0 (by omega)
    · obtain ⟨n', rfl⟩ : ∃ n', n = n' + 1 + (64 - s) := ⟨n - 1 - (64 - s), by omega⟩
      rw [hpass (64 - s) (n' + 1) (by omega) (by omega) fun j hj => hfree j (by omega) (by omega),
        show 64 * b + s + (64 - s) = 64 * (b + 1) by omega, show s + (64 - s) = 64 by omega]
      have hi : 64 * (b + 1) < len := by omega
      have hbefore : ∀ i, 64 * b + s ≤ i → i < 64 * (b + 1) → ¬live fs nr i := by
        intro i h1 h2 hl
        have h3 := hfree (i - (64 * b + s)) (by omega) (by omega)
        refine (hlive (s + (i - (64 * b + s))) (by omega)).2 ?_ h3
        rwa [show 64 * b + (s + (i - (64 * b + s))) = i by omega]
      by_cases hbig : b + 1 < MAX_BLOCKS
      · by_cases hfound : Found fs nr (b + 1)
        · by_cases hhad : Had fs nr (b + 1)
          · rw [wp_empty_turn hi (next_had hbig hhad)]
            have hrest := ih (len - 64 * (b + 1)) (by omega) (n := n' + 1) (s := 0) (b := b + 1)
              (by omega) (Nat.zero_le 64) rfl
            refine Iff.trans hrest ?_
            refine ⟨fun h b' hb' hlt hall hhads => ?_, fun h b' hb' hlt hall hhads => ?_⟩
            · by_cases heq : b' = b + 1
              · exact heq ▸ ⟨hbig, hfound⟩
              · exact h b' (by omega) hlt (fun i h1 h2 => hall i (by omega) h2)
                  fun b'' h1 h2 => hhads b'' (by omega) h2
            · refine h b' (by omega) hlt (fun i h1 h2 => ?_) fun b'' h1 h2 => ?_
              · by_cases hi' : i < 64 * (b + 1)
                · exact hbefore i h1 hi'
                · exact hall i (by omega) h2
              · by_cases heq : b'' = b + 1
                · exact heq ▸ hhad
                · exact hhads b'' (by omega) h2
          · -- the next block cannot be read
            obtain ⟨k, hk⟩ := next_unread (B := B) hbig hfound hhad
            rw [wp_empty_unread hi hk]
            refine iff_of_true rfl fun b' hb' hlt hall hhads => ?_
            by_cases heq : b' = b + 1
            · exact heq ▸ ⟨hbig, hfound⟩
            · exact absurd (hhads (b + 1) (Nat.lt_succ_self b) (by omega)) hhad
        · obtain ⟨k, hk⟩ := next_missing (B := B) hbig hfound
          refine iff_of_false (not_wp_empty_missing hi hk) fun h => hfound ?_
          exact (h (b + 1) (Nat.lt_succ_self b) hi hbefore fun b'' h1 h2 => by omega).2
      · refine iff_of_false (fun h => ?_) fun h => hbig
          (h (b + 1) (Nat.lt_succ_self b) hi hbefore fun b'' h1 h2 => by omega).1
        rw [empty_loop, if_pos hi, wp_bind] at h
        exact next_big hbig h

theorem empty_dir_keeps : KeepsBuffers (empty_dir nr) (fun _ => none) fs ↔ EmptyBlocks fs nr := by
  rw [KeepsBuffers, EmptyBlocks, empty_dir, wp_bind, wp_get]
  dsimp only
  by_cases hlen : (fs.inode nr).i_size / 16 < 2
  · rw [if_pos (.inl hlen), wp_pure]
    exact iff_of_true rfl fun h => absurd hlen (Nat.not_lt.2 h)
  · have hiff : ((fs.inode nr).i_size / 16 < 2 ∨ (fs.inode nr).i_zone 0 = 0) ↔ (fs.inode nr).i_zone 0 = 0 :=
      ⟨fun h => h.resolve_left hlen, .inr⟩
    rw [if_congr hiff rfl rfl, wp_first fun u => rfl, wp_bind, wp_get,
      forall_prop_of_true (Nat.not_lt.1 hlen)]
    refine imp_congr_right fun _ => ?_
    have hsame : dots (holding (fs.block nr (blockPlace 0)) (past (reads 1) fs)) nr ((fs.inode nr).i_zone 0)
        ↔ dots fs nr (fs.block nr (blockPlace 0)) := Iff.rfl
    rw [if_congr hsame rfl rfl]
    by_cases hdots : dots fs nr (fs.block nr (blockPlace 0))
    · rw [if_pos hdots]
      exact (wp_empty_block (b := 0) (s := 2) (Nat.le_add_left ..) (by decide)).trans (and_iff_right hdots).symm
    · rw [if_neg hdots, wp_pure]
      refine iff_of_false (fun h => ?_) fun h => hdots h.1
      have hcount := congrFun h (fs.block nr (blockPlace 0))
      rw [show (holding (fs.block nr (blockPlace 0)) (past (reads 1) fs)).b_count _ = _ from held_self ..]
        at hcount
      exact absurd hcount (Nat.succ_ne_self _)

end Empty

/-! ### `add_entry` -/

/-- The entry `i` is in use and not behind the end. -/
def full (fs : Fs) (nr i : ℕ) : Prop := i * 16 < (fs.inode nr).i_size ∧ live fs nr i

/-- The block with index `b` can be got: `create_block` does not stop the kernel, and what it finds can be
read. -/
def Obtainable (fs : Fs) (nr b : ℕ) : Prop :=
  wp (create_block nr b) (fun block fs' => block = 0 ∨ fs'.unreadable 0 = false) (fun _ _ => False)
    (past (reads b) fs)

/-- Up to the first entry that is free, all blocks can be got. -/
def AddsBlocks (fs : Fs) (nr namelen : ℕ) : Prop :=
  namelen ≠ 0 → Had fs nr 0 → ∀ b, 0 < b → (∀ i < 64 * b, full fs nr i) →
    (∀ b', 0 < b' → b' < b → Had fs nr b') → Obtainable fs nr b

/-- The new entry. -/
def enter (nr i B de namelen : ℕ) (name : ℕ → ℕ) (fs : Fs) : Fs :=
  write_name B de namelen name (if (fs.inode nr).i_size ≤ i * 16 then extend nr i B de fs else fs)

section Add

variable {Q : Option (ℕ × ℕ) → Fs → Prop} {E : Fault → Fs → Prop} {i de : ℕ}

theorem wp_add_next (hde : de < 64) (hi : i * 16 < (fs.inode nr).i_size) (hlive : entry_inode fs B de ≠ 0) :
    wp (add_loop nr namelen name (n + 1) i (.held B) de) Q E fs
      ↔ wp (add_loop nr namelen name n (i + 1) (.held B) (de + 1)) Q E fs := by
  rw [add_loop, wp_bind, wp_of_ok (next_here hde)]
  dsimp only
  rw [wp_bind, wp_get, if_neg (Nat.not_le.2 hi), wp_bind, wp_pure, wp_bind, wp_get, if_neg hlive]

theorem wp_add_here (hde : de < 64) (hi : ¬(i * 16 < (fs.inode nr).i_size ∧ entry_inode fs B de ≠ 0)) :
    wp (add_loop nr namelen name (n + 1) i (.held B) de) Q E fs
      ↔ Q (some (B, de)) (enter nr i B de namelen name fs) := by
  rw [add_loop, wp_bind, wp_of_ok (next_here hde)]
  dsimp only
  rw [wp_bind, wp_get, enter]
  by_cases hend : (fs.inode nr).i_size ≤ i * 16
  · have hfree : entry_inode (extend nr i B de fs) B de = 0 := by
      show update fs.b_data B (update (fs.b_data B) (8 * de) 0) B (8 * de) = 0
      rw [update_self, update_self]
    rw [if_pos hend, if_pos hend, wp_bind, wp_modify, wp_bind, wp_get, if_pos hfree, wp_bind,
      wp_modify, wp_pure]
  · have hfree : entry_inode fs B de = 0 := by
      by_contra h
      exact hi ⟨Nat.not_le.1 hend, h⟩
    rw [if_neg hend, if_neg hend, wp_bind, wp_pure, wp_bind, wp_get, if_pos hfree, wp_bind, wp_modify, wp_pure]

theorem enter_b_count (nr i B de namelen : ℕ) (name : ℕ → ℕ) (fs : Fs) :
    (enter nr i B de namelen name fs).b_count = fs.b_count := by
  rw [enter]
  split_ifs <;> rfl

theorem not_wp_add_null (n : ℕ) : ¬wp (add_loop nr namelen name n i .null de) Q (fun _ _ => False) fs := by
  cases n with
  | zero =>
    rw [add_loop, wp_throw]
    exact not_false
  | succ n =>
    rw [add_loop, wp_bind, next_entry, wp_bind, Bh.b_data, wp_throw]
    exact not_false

theorem obtainable_found (hb : b < MAX_BLOCKS) (hfound : Found fs nr b) : Obtainable fs nr b ↔ Had fs nr b := by
  have hne : fs.block nr (blockPlace b) ≠ 0 := hfound.1
  rw [Obtainable, wp_of_ok (create_mapped hb hfound), past_past]
  refine ⟨fun h => ⟨hfound, ?_⟩, fun h => .inr ?_⟩
  · have hread := h.resolve_left hne
    rw [Nat.add_comm]
    simpa [past] using hread
  · have hread := h.read
    rw [Nat.add_comm] at hread
    simpa [past] using hread

theorem not_obtainable_big (hb : ¬b < MAX_BLOCKS) : ¬Obtainable fs nr b := by
  rw [Obtainable, create_block, if_pos (Nat.not_lt.1 hb), wp_throw]
  exact not_false

/-- The end of a block. -/
theorem wp_add_end (fs : Fs) (nr B namelen : ℕ) (name : ℕ → ℕ) (Q : Option (ℕ × ℕ) → Fs → Prop) (b n : ℕ) :
    wp (add_loop nr namelen name (n + 2) (64 * b) (.held B) 64) Q (fun _ _ => False)
        (holding B (past (reads b) fs))
      ↔ wp (create_block nr b) (fun block fs' => if block = 0 then Q none fs' else
          fs'.unreadable 0 = false ∧ wp (add_loop nr namelen name (n + 2) (64 * b) (.held block) 0) Q
            (fun _ _ => False) (holding block (past 1 fs'))) (fun _ _ => False) (past (reads b) fs) := by
  rw [add_loop, wp_bind, wp_next_entry (Nat.lt_irrefl 64), Nat.mul_div_cancel_left b (by decide), wp_call]
  refine Iff.of_eq ?_
  congr 1
  funext block fs'
  split_ifs with hzero
  · rfl
  · refine propext ?_
    by_cases hread : fs'.unreadable 0 = true
    · rw [wp_of_ok (call_ok (bread_fails hread)), hread]
      exact iff_of_false (not_wp_add_null _) fun h => Bool.noConfusion h.1
    · have hok : fs'.unreadable 0 = false := by simpa using hread
      rw [wp_of_ok (call_ok (bread_ok hok)), and_iff_right hok]
      conv_rhs => rw [add_loop, wp_bind, wp_of_ok (next_here (by decide))]
      exact Iff.rfl

/-- The search for room in one block: there is room in it, or it is full. -/
theorem wp_add_in_block (fs : Fs) (nr B namelen : ℕ) (name : ℕ → ℕ) (Q : Option (ℕ × ℕ) → Fs → Prop)
    (E : Fault → Fs → Prop) (b n : ℕ) :
    (∃ e < 64, ¬((64 * b + e) * 16 < (fs.inode nr).i_size ∧ entry_inode fs B e ≠ 0) ∧
      (∀ j < e, (64 * b + j) * 16 < (fs.inode nr).i_size ∧ entry_inode fs B j ≠ 0) ∧
      (wp (add_loop nr namelen name (n + 1 + 64) (64 * b) (.held B) 0) Q E fs
        ↔ Q (some (B, e)) (enter nr (64 * b + e) B e namelen name fs))) ∨
    (∀ e < 64, (64 * b + e) * 16 < (fs.inode nr).i_size ∧ entry_inode fs B e ≠ 0) ∧
      (wp (add_loop nr namelen name (n + 1 + 64) (64 * b) (.held B) 0) Q E fs
        ↔ wp (add_loop nr namelen name (n + 1) (64 * (b + 1)) (.held B) 64) Q E fs) := by
  have hpass : ∀ k n, k ≤ 64 → (∀ e < k, (64 * b + e) * 16 < (fs.inode nr).i_size ∧ entry_inode fs B e ≠ 0) →
      (wp (add_loop nr namelen name (n + k) (64 * b) (.held B) 0) Q E fs
      ↔ wp (add_loop nr namelen name n (64 * b + k) (.held B) (0 + k)) Q E fs) := by
    intro k n hk hall
    have hstep : ∀ n i de, de < 64 → i * 16 < (fs.inode nr).i_size ∧ entry_inode fs B de ≠ 0 →
        (wp (add_loop nr namelen name (n + 1) i (.held B) de) Q E fs
        ↔ wp (add_loop nr namelen name n (i + 1) (.held B) (de + 1)) Q E fs) :=
      fun n i de hde hgo => wp_add_next hde hgo.1 hgo.2
    refine wp_pass hstep k n (64 * b) 0 (by omega) fun j hj => ?_
    rw [Nat.zero_add]
    exact hall j hj
  rcases exists_first (p := fun e => ¬((64 * b + e) * 16 < (fs.inode nr).i_size ∧ entry_inode fs B e ≠ 0)) 64
    with ⟨e, he, hfree, hbefore⟩ | hnone
  · have hfull : ∀ j < e, (64 * b + j) * 16 < (fs.inode nr).i_size ∧ entry_inode fs B j ≠ 0 :=
      fun j hj => by simpa using hbefore j hj
    refine .inl ⟨e, he, hfree, hfull, ?_⟩
    rw [show n + 1 + 64 = n + 1 + (64 - e) + e by omega, hpass e _ (by omega) hfull, Nat.zero_add,
      show n + 1 + (64 - e) = n + (64 - e) + 1 by omega, wp_add_here he hfree]
  · have hfull : ∀ e < 64, (64 * b + e) * 16 < (fs.inode nr).i_size ∧ entry_inode fs B e ≠ 0 :=
      fun e he => by simpa using hnone e he
    refine .inr ⟨hfull, ?_⟩
    rw [hpass 64 (n + 1) (Nat.le_refl 64) hfull, Nat.zero_add]
    exact Iff.rfl

theorem full_iff {e : ℕ} (he : e < 64) : full fs nr (64 * b + e) ↔ (64 * b + e) * 16 < (fs.inode nr).i_size ∧
    entry_inode fs (fs.block nr (blockPlace b)) e ≠ 0 := by
  rw [full, live, entry_block_eq he, show (64 * b + e) % 64 = e by omega]

/-- The rest of the directory, from the beginning of a block that is held. -/
theorem wp_add_block (hn : 64 * b + n = 64 * MAX_BLOCKS + 1) (hb : b < MAX_BLOCKS) :
    wp (add_loop nr namelen name n (64 * b) (.held (fs.block nr (blockPlace b))) 0) (Kept entry_buffer fs)
        (fun _ _ => False) (holding (fs.block nr (blockPlace b)) (past (reads (b + 1)) fs))
      ↔ ∀ b', b < b' → (∀ i, 64 * b ≤ i → i < 64 * b' → full fs nr i) →
        (∀ b'', b < b'' → b'' < b' → Had fs nr b'') → Obtainable fs nr b' := by
  induction hm : MAX_BLOCKS - b using Nat.strongRecOn generalizing b n with
  | ind m ih =>
  subst hm
  set B := fs.block nr (blockPlace b) with hB
  set σ := holding B (past (reads (b + 1)) fs) with hσ
  obtain ⟨n', rfl⟩ : ∃ n', n = n' + 1 + 64 := ⟨n - 1 - 64, by omega⟩
  rcases wp_add_in_block σ nr B namelen name (Kept entry_buffer fs) (fun _ _ => False) b n' with
    ⟨e, he, hfree, -, h⟩ | ⟨hnone, h⟩
  · -- there is room in this block
    rw [h]
    refine iff_of_true ?_ fun b' hb' hall _ =>
      absurd ((full_iff he).1 (hall (64 * b + e) (by omega) (by omega))) hfree
    show (enter nr (64 * b + e) B e namelen name σ).b_count = held fs.b_count B
    rw [enter_b_count]
    rfl
  · have hall : ∀ i, 64 * b ≤ i → i < 64 * (b + 1) → full fs nr i := by
      intro i h1 h2
      rw [← Nat.add_sub_cancel' h1]
      exact (full_iff (by omega)).2 (hnone (i - 64 * b) (by omega))
    have hnothing : ∀ b'', b < b'' → b'' < b + 1 → Had fs nr b'' := fun b'' h1 h2 => by omega
    rw [h]
    by_cases hbig : b + 1 < MAX_BLOCKS
    · obtain ⟨n'', rfl⟩ : ∃ n'', n' = n'' + 1 := ⟨n' - 1, by omega⟩
      rw [wp_add_end]
      by_cases hhad : Had fs nr (b + 1)
      · have hread : (past ((blockPlace (b + 1)).2.length + reads (b + 1)) fs).unreadable 0 = false := by
          have hr := hhad.read
          rw [Nat.add_comm] at hr
          simpa [past] using hr
        have hstate : past 1 (past ((blockPlace (b + 1)).2.length + reads (b + 1)) fs)
            = past (reads (b + 1 + 1)) fs := by
          show _ = past (reads (b + 1) + (blockPlace (b + 1)).2.length + 1) fs
          rw [past_past, Nat.add_comm 1, Nat.add_comm (reads (b + 1))]
        rw [wp_of_ok (create_mapped hbig hhad.found), past_past]
        rw [show (past (reads (b + 1)) fs).block nr (blockPlace (b + 1)) = fs.block nr (blockPlace (b + 1))
          from rfl, if_neg hhad.block_ne, hstate, ih _ (by omega) (by omega) hbig rfl, and_iff_right hread]
        refine ⟨fun h b' hb' hfulls hhads => ?_, fun h b' hb' hfulls hhads => ?_⟩
        · by_cases heq : b' = b + 1
          · exact heq ▸ (obtainable_found hbig hhad.found).2 hhad
          · exact h b' (by omega) (fun i h1 h2 => hfulls i (by omega) h2)
              fun b'' h1 h2 => hhads b'' (by omega) h2
        · refine h b' (by omega) (fun i h1 h2 => ?_) fun b'' h1 h2 => ?_
          · by_cases hi' : i < 64 * (b + 1)
            · exact hall i h1 hi'
            · exact hfulls i (by omega) h2
          · by_cases heq : b'' = b + 1
            · exact heq ▸ hhad
            · exact hhads b'' (by omega) h2
      · -- whatever is found now, the search ends here
        have hiff : wp (create_block nr (b + 1))
            (fun block fs' => if block = 0 then Kept entry_buffer fs none fs'
            else fs'.unreadable 0 = false ∧ wp (add_loop nr namelen name (n'' + 2) (64 * (b + 1))
              (.held block) 0) (Kept entry_buffer fs) (fun _ _ => False) (holding block (past 1 fs')))
            (fun _ _ => False) (past (reads (b + 1)) fs) ↔ Obtainable fs nr (b + 1) := by
          by_cases hfound : Found fs nr (b + 1)
          · rw [obtainable_found hbig hfound, wp_of_ok (create_mapped hbig hfound)]
            refine iff_of_false (fun h => hhad ⟨hfound, ?_⟩) hhad
            have hne : fs.block nr (blockPlace (b + 1)) ≠ 0 := hfound.1
            rw [show (past (reads (b + 1)) fs).block nr (blockPlace (b + 1))
              = fs.block nr (blockPlace (b + 1)) from rfl] at h
            rw [if_neg hne, past_past] at h
            rw [Nat.add_comm]
            simpa [past] using h.1
          · refine ⟨fun h => wp_mono h (fun block fs' h' => ?_) fun _ _ h' => h', fun h => ?_⟩
            · split_ifs at h' with hzero
              · exact .inl hzero
              · exact .inr h'.1
            · refine wp_mono (wp_and h wp_create_block_any) (fun block fs' h' => ?_) fun _ _ h' => h'.1
              obtain ⟨hok, hcount, hnew⟩ := h'
              split_ifs with hzero
              · exact hcount
              · refine ⟨hok.resolve_left hzero, ?_⟩
                have hclear := (hnew hzero).resolve_left hfound
                have hfree : entry_inode (holding block (past 1 fs')) block 0 = 0 := congrFun hclear _
                rw [wp_add_here (by decide) fun h => h.2 hfree]
                show (enter _ _ _ _ _ _ _).b_count = held fs.b_count block
                rw [enter_b_count]
                show held fs'.b_count block = _
                rw [hcount]
                rfl
        rw [hiff]
        refine ⟨fun h b' hb' hfulls hhads => ?_, fun h => h (b + 1) (Nat.lt_succ_self b) hall hnothing⟩
        by_cases heq : b' = b + 1
        · exact heq ▸ h
        · exact absurd (hhads (b + 1) (Nat.lt_succ_self b) (by omega)) hhad
    · refine iff_of_false (fun h => ?_) fun h => not_obtainable_big hbig
        (h (b + 1) (Nat.lt_succ_self b) hall hnothing)
      rw [add_loop, wp_bind, wp_next_entry (Nat.lt_irrefl 64), Nat.mul_div_cancel_left _ (by decide),
        wp_call, create_block, if_pos (Nat.not_lt.1 hbig), wp_throw] at h
      exact h

theorem add_entry_keeps : KeepsBuffers (add_entry nr namelen name) entry_buffer fs ↔
    AddsBlocks fs nr namelen := by
  rw [KeepsBuffers, AddsBlocks, add_entry, wp_bind, wp_get]
  dsimp only
  by_cases hlen : namelen = 0
  · have hmin : min namelen NAME_LEN = 0 := by rw [hlen, Nat.zero_min]
    rw [if_pos (.inl hmin), wp_pure]
    exact iff_of_true rfl fun h => absurd hlen h
  · have hmin : min namelen NAME_LEN ≠ 0 := by
      rw [NAME_LEN]
      omega
    have hiff : (min namelen NAME_LEN = 0 ∨ (fs.inode nr).i_zone 0 = 0) ↔ (fs.inode nr).i_zone 0 = 0 :=
      ⟨fun h => h.resolve_left hmin, .inr⟩
    rw [if_congr hiff rfl rfl, wp_first fun u => rfl, forall_prop_of_true hlen]
    refine imp_congr_right fun _ => ?_
    refine (wp_add_block (b := 0) (n := 64 * MAX_BLOCKS + 1) (Nat.zero_add _) (by decide)).trans ?_
    refine forall₂_congr fun b' _ => ?_
    exact ⟨fun h hall => h fun i _ hi => hall i hi, fun h hall => h fun i hi => hall i (Nat.zero_le i) hi⟩

end Add

/-! ### `..` -/

/-- Nothing has changed but how often inodes are used. -/
structure SameDisk (fs fs' : Fs) : Prop where
  zone : ∀ nr, (fs'.inode nr).i_zone = (fs.inode nr).i_zone
  size : ∀ nr, (fs'.inode nr).i_size = (fs.inode nr).i_size
  data : fs'.b_data = fs.b_data
  count : fs'.b_count = fs.b_count
  unreadable : fs'.unreadable = fs.unreadable

theorem SameDisk.refl (fs : Fs) : SameDisk fs fs := ⟨fun _ => rfl, fun _ => rfl, rfl, rfl, rfl⟩

theorem SameDisk.trans {fs' fs'' : Fs} (h : SameDisk fs fs') (h' : SameDisk fs' fs'') : SameDisk fs fs'' :=
  ⟨fun nr => (h'.zone nr).trans (h.zone nr), fun nr => (h'.size nr).trans (h.size nr), h'.data.trans h.data,
    h'.count.trans h.count, h'.unreadable.trans h.unreadable⟩

theorem same_disk_count (fs : Fs) (dir c u : ℕ) :
    SameDisk fs { fs.set_inode dir { fs.inode dir with i_count := c } with unused := u } := by
  refine ⟨fun nr => ?_, fun nr => ?_, rfl, rfl, rfl⟩
  · show (update fs.inode dir _ nr).i_zone = _
    by_cases h : nr = dir
    · rw [h, update_self]
    · rw [update_of_ne h]
  · show (update fs.inode dir _ nr).i_size = _
    by_cases h : nr = dir
    · rw [h, update_self]
    · rw [update_of_ne h]

theorem SameDisk.block {fs' : Fs} (h : SameDisk fs fs') (nr : ℕ) (p : Place) :
    fs'.block nr p = fs.block nr p := by
  rw [Fs.block, Fs.block, h.zone, h.data]

theorem SameDisk.had {fs' : Fs} (h : SameDisk fs fs') : Had fs' nr b ↔ Had fs nr b := by
  have hfound : Found fs' nr b ↔ Found fs nr b := by
    show (fs'.block nr (blockPlace b) ≠ 0 ∧ ∀ k < (blockPlace b).2.length, fs'.unreadable (k + reads b) = false)
      ↔ (fs.block nr (blockPlace b) ≠ 0 ∧ ∀ k < (blockPlace b).2.length, fs.unreadable (k + reads b) = false)
    rw [h.block, h.unreadable]
  refine ⟨fun h' => ⟨hfound.1 h'.found, ?_⟩, fun h' => ⟨hfound.2 h'.found, ?_⟩⟩
  · rw [← h.unreadable]
    exact h'.read
  · rw [h.unreadable]
    exact h'.read

theorem match_entry_congr {fs' : Fs} (h : fs'.b_data = fs.b_data) : match_entry fs' = match_entry fs := by
  funext len name block de
  unfold match_entry entry_inode entry_name
  rw [h]

theorem SameDisk.named {fs' : Fs} (h : SameDisk fs fs') (i : ℕ) :
    named fs' nr namelen name i = named fs nr namelen name i := by
  rw [Namei.named, Namei.named, entry_block, entry_block, h.block, match_entry_congr h.data]

theorem SameDisk.finds {fs' : Fs} (h : SameDisk fs fs') :
    FindsBlocks fs' nr entries namelen name ↔ FindsBlocks fs nr entries namelen name := by
  simp only [FindsBlocks, h.had, h.named]

/-- The directory that is searched, and the length of the name that is looked for. -/
def target (v : View) (dir namelen : ℕ) (name : ℕ → ℕ) : ℕ × ℕ :=
  if namelen = 2 ∧ name 0 = 46 ∧ name 1 = 46 then
    if dir = v.root then (dir, 1)
    else if dir = ROOT_INO then (v.s_imount.getD dir, namelen) else (dir, namelen)
  else (dir, namelen)

theorem iput_ok {dir : ℕ} (hcount : (fs.inode dir).i_count ≠ 0) (hlinks : (fs.inode dir).i_nlinks ≠ 0) :
    ∃ fs', iput dir fs = .ok () fs' ∧ SameDisk fs fs' := by
  suffices hwp : wp (iput dir) (fun _ fs' => SameDisk fs fs') (fun _ _ => False) fs by
    obtain ⟨r, fs', h, hsame⟩ := returns_of_wp hwp
    exact ⟨fs', h, hsame⟩
  rw [iput, wp_bind, wp_get, if_neg hcount, wp_ite]
  refine ⟨fun _ => same_disk_count fs dir _ fs.unused, fun _ => ?_⟩
  rw [if_neg hlinks, wp_modify]
  exact same_disk_count fs dir 0 _

theorem dotdot_ok (v : View) {dir : ℕ} (namelen : ℕ) (name : ℕ → ℕ) (hcount : (fs.inode dir).i_count ≠ 0)
    (hlinks : (fs.inode dir).i_nlinks ≠ 0) :
    ∃ fs', dotdot v dir namelen name fs = .ok (target v dir namelen name) fs' ∧ SameDisk fs fs' := by
  rw [dotdot, target]
  split_ifs with h1 h2 h3
  · exact ⟨fs, rfl, SameDisk.refl fs⟩
  · cases himount : v.s_imount with
    | none => exact ⟨fs, rfl, SameDisk.refl fs⟩
    | some imount =>
      obtain ⟨fs1, h, hsame⟩ := iput_ok hcount hlinks
      refine ⟨{ fs1.set_inode imount { fs1.inode imount with i_count := (fs1.inode imount).i_count + 1 } with
        unused := if (fs1.inode imount).i_count = 0 then fs1.unused - 1 else fs1.unused },
        eq_ok_of_wp ?_, hsame.trans (same_disk_count fs1 imount _ _)⟩
      rw [wp_bind, wp_of_ok (call_ok h), wp_bind, wp_modify, wp_pure]
      exact ⟨rfl, rfl⟩
  · exact ⟨fs, rfl, SameDisk.refl fs⟩
  · exact ⟨fs, rfl, SameDisk.refl fs⟩

theorem find_entry_keeps {v : View} {dir : ℕ} (hcount : (fs.inode dir).i_count ≠ 0)
    (hlinks : (fs.inode dir).i_nlinks ≠ 0) :
    KeepsBuffers (find_entry v dir namelen name) (fun r => entry_buffer r.2) fs ↔
      (namelen ≠ 0 → FindsBlocks fs (target v dir (min namelen NAME_LEN) name).1
        ((fs.inode dir).i_size / 16) (target v dir (min namelen NAME_LEN) name).2 name) := by
  rw [KeepsBuffers, find_entry]
  dsimp only
  rw [wp_bind, wp_get]
  by_cases hlen : namelen = 0
  · have hmin : min namelen NAME_LEN = 0 := by rw [hlen, Nat.zero_min]
    rw [if_pos hmin, wp_pure]
    exact iff_of_true rfl fun h => absurd hlen h
  · have hmin : min namelen NAME_LEN ≠ 0 := by
      rw [NAME_LEN]
      omega
    obtain ⟨fs1, h, hsame⟩ := dotdot_ok v (min namelen NAME_LEN) name hcount hlinks
    rw [if_neg hmin, wp_bind, wp_of_ok h, forall_prop_of_true hlen, ← hsame.finds, ← find_in_keeps,
      KeepsBuffers, wp_bind]
    refine Iff.of_eq ?_
    congr 1
    funext r fs'
    rw [wp_pure, Kept, Kept, hsame.count]

/-- **Scans of a directory and their buffers.**  `find_entry`, `add_entry` and `empty_dir` come to their end,
use no buffer that they do not hold and leave all but the one they return as it was, if and only if the
blocks that they come to are there and can be read, as far as each of them needs that. -/
theorem scans_keep_buffers (v : View) (dir : ℕ) (namelen : ℕ) (name : ℕ → ℕ) (fs : Fs)
    (hcount : (fs.inode dir).i_count ≠ 0) (hlinks : (fs.inode dir).i_nlinks ≠ 0) :
    (KeepsBuffers (find_entry v dir namelen name) (fun r => entry_buffer r.2) fs ↔
      (namelen ≠ 0 → FindsBlocks fs (target v dir (min namelen NAME_LEN) name).1
        ((fs.inode dir).i_size / 16) (target v dir (min namelen NAME_LEN) name).2 name)) ∧
    (KeepsBuffers (add_entry dir namelen name) entry_buffer fs ↔ AddsBlocks fs dir namelen) ∧
    (KeepsBuffers (empty_dir dir) (fun _ => none) fs ↔ EmptyBlocks fs dir) :=
  ⟨find_entry_keeps hcount hlinks, add_entry_keeps, empty_dir_keeps⟩

/-- A directory of `size` bytes with two blocks; block 5 is full of entries. -/
def two_blocks (size : ℕ) (unreadable : ℕ → Bool) : Fs where
  sb := ⟨100, 100, 1, 1, 5⟩
  imap := fun _ => true
  zmap := fun _ => true
  inode := fun _ => ⟨I_DIRECTORY, 2, size, fun k => if k = 0 then 5 else if k = 1 then 6 else 0, 1⟩
  b_data := fun _ _ => 1
  b_count := fun _ => 0
  unused := 32
  unreadable := unreadable

/-- A process in the root. -/
def plain_view : View := ⟨1, 1, 0, 0, fun _ => 0, fun _ => 0, some 1⟩

theorem two_blocks_had {size : ℕ} (hfs : two_blocks size (fun _ => false) = fs) : Had fs 2 1 := by
  rw [← hfs]
  exact ⟨⟨Nat.succ_ne_zero 5, fun k hk => absurd hk (Nat.not_lt_zero k)⟩, rfl⟩

/-- A search through three blocks, of which the last is missing, and one for a place in the second block. -/
theorem two_blocks_keep_buffers :
    KeepsBuffers (find_entry plain_view 2 1 fun _ => 97) (fun r => entry_buffer r.2)
    (two_blocks 3072 fun _ => false) ∧
    KeepsBuffers (add_entry 2 1 fun _ => 97) entry_buffer (two_blocks 2032 fun _ => false) := by
  constructor
  · generalize hfs : two_blocks 3072 (fun _ => false) = fs
    have hsize : (fs.inode 2).i_size = 3072 := by rw [← hfs]; rfl
    refine (scans_keep_buffers plain_view 2 1 (fun _ => 97) fs (by rw [← hfs]; decide)
      (by rw [← hfs]; decide)).1.2 fun _ _ b hb hlt _ => ?_
    rw [hsize] at hlt ⊢
    rw [MAX_BLOCKS]
    refine ⟨by omega, fun hnext => ?_⟩
    obtain rfl : b = 1 := by omega
    exact two_blocks_had hfs
  · generalize hfs : two_blocks 2032 (fun _ => false) = fs
    have hsize : (fs.inode 2).i_size = 2032 := by rw [← hfs]; rfl
    refine (scans_keep_buffers plain_view 2 1 (fun _ => 97) fs (by rw [← hfs]; decide)
      (by rw [← hfs]; decide)).2.1.2 fun _ _ b hb hfull _ => ?_
    by_cases hone : b = 1
    · rw [hone]
      exact (obtainable_found (by decide) (two_blocks_had hfs).found).2 (two_blocks_had hfs)
    · have hbehind := (hfull 127 (by omega)).1
      rw [hsize] at hbehind
      omega

/-- The second of four blocks cannot be read, and the first entries are not `.` and `..`. -/
theorem bad_directory_loses_buffers :
    (¬KeepsBuffers (find_entry plain_view 2 1 fun _ => 97) (fun r => entry_buffer r.2)
      (two_blocks 4096 fun n => n == 1)) ∧
    (¬KeepsBuffers (add_entry 2 1 fun _ => 97) entry_buffer (two_blocks 4096 fun n => n == 1)) ∧
    ¬KeepsBuffers (empty_dir 2) (fun _ => none) (two_blocks 4096 fun n => n == 1) := by
  generalize hbad : two_blocks 4096 (fun n => n == 1) = bad
  have hinode : bad.inode 2 = ⟨I_DIRECTORY, 2, 4096, fun k => if k = 0 then 5 else if k = 1
      then 6 else 0, 1⟩ := by
    rw [← hbad]
    rfl
  have hword : ∀ block w, bad.b_data block w = 1 := by
    rw [← hbad]
    exact fun _ _ => rfl
  have hunreadable : ∀ n, bad.unreadable n = (n == 1) := by
    rw [← hbad]
    exact fun _ => rfl
  have hzero : Had bad 2 0 := had_zero.2 ⟨by rw [hinode]; decide, hunreadable 0⟩
  have hone : ¬Had bad 2 1 := by
    intro h
    have hread := h.read
    rw [hunreadable] at hread
    cases hread
  have hsize : (bad.inode 2).i_size = 4096 := by rw [hinode]
  refine ⟨fun h => ?_, fun h => ?_, fun h => ?_⟩
  · have hfinds := (find_entry_keeps (by rw [hinode]; decide) (by rw [hinode]; decide)).1 h (by decide)
    refine hone ((hfinds hzero 1 (by decide) (by rw [hsize]; decide) fun i _ => ?_).2 (by rw [hsize]; decide))
    -- no entry has the name
    rw [named, match_entry]
    split_ifs
    · rfl
    · rfl
    · refine decide_eq_false fun hall => ?_
      have hbyte := hall 0 (by decide)
      rw [entry_name, hword] at hbyte
      cases hbyte
  · have hadds : AddsBlocks bad 2 1 := add_entry_keeps.1 h
    have hobtain := hadds (by decide) hzero 1 (by decide) (fun i hi => ⟨?_, ?_⟩) fun b' h1 h2 => by omega
    · have hfound : Found bad 2 1 := by
        refine ⟨?_, fun k hk => absurd hk (Nat.not_lt_zero k)⟩
        show (bad.inode 2).i_zone 1 ≠ 0
        rw [hinode]
        decide
      exact hone ((obtainable_found (by decide) hfound).1 hobtain)
    · rw [hsize]
      omega
    · show bad.b_data _ _ ≠ 0
      rw [hword]
      exact Nat.one_ne_zero
  · have hempty : EmptyBlocks bad 2 := empty_dir_keeps.1 h
    have hdots := (hempty (by rw [hsize]; decide) hzero).1
    have hname := hdots.2.2.1.1
    rw [entry_name, hword] at hname
    cases hname

end OldLinux.Namei
