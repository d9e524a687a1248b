import OldLinux.Namei.Buffers

/-!
# What a search finds

In a directory without holes, and when all blocks can be read, `find_entry` finds the first entry with the
name, and it leaves everything as it was.
-/

namespace OldLinux.Namei

open Function Lib Lib.BlockTree Creation

variable {fs : Fs} {nr b B n entries namelen : ℕ} {name : ℕ → ℕ}

/-- All blocks can be read. -/
def Readable (fs : Fs) : Prop := fs.unreadable = fun _ => false

theorem Readable.past (h : Readable fs) (k : ℕ) : past k fs = fs := by
  show { fs with unreadable := fun n => fs.unreadable (n + k) } = fs
  rw [show (fun n => fs.unreadable (n + k)) = fs.unreadable by rw [h]]

theorem Readable.had (h : Readable fs) : Had fs nr b ↔ fs.block nr (blockPlace b) ≠ 0 := by
  refine ⟨Had.block_ne, fun hne => ⟨⟨hne, fun k _ => ?_⟩, ?_⟩⟩
  · rw [h.past, h]
  · rw [h]

/-- The first `entries` entries of the directory are there. -/
structure Solid (fs : Fs) (nr entries : ℕ) : Prop where
  zone : (fs.inode nr).i_zone 0 ≠ 0
  small : entries ≤ 64 * MAX_BLOCKS
  block : ∀ i < entries, entry_block fs nr i ≠ 0

/-- The first entry with the name, from the entry `start` on, or none. -/
def Finds (fs : Fs) (nr entries namelen : ℕ) (name : ℕ → ℕ) (start : ℕ) (r : Option (ℕ × ℕ)) (fs' : Fs) :
    Prop :=
  (∃ i, start ≤ i ∧ i < entries ∧ named fs nr namelen name i = true ∧
    (∀ j, start ≤ j → j < i → named fs nr namelen name j = false) ∧
    r = some (entry_block fs nr i, i % 64) ∧ fs' = holding (entry_block fs nr i) fs) ∨
  (∀ j, start ≤ j → j < entries → named fs nr namelen name j = false) ∧ r = none ∧ fs' = fs

theorem finds_block (hread : Readable fs) (hsolid : Solid fs nr entries) (hn : entries ≤ 64 * b + n) :
    wp (find_loop nr entries namelen name n (64 * b) (.held (fs.block nr (blockPlace b))) 0)
      (Finds fs nr entries namelen name (64 * b)) (fun _ _ => False)
      (holding (fs.block nr (blockPlace b)) fs) := by
  induction hm : entries - 64 * b using Nat.strongRecOn generalizing b n with
  | ind m ih =>
  subst hm
  set B := fs.block nr (blockPlace b) with hB
  have hnamed : ∀ i, 64 * b ≤ i → i < 64 * (b + 1) → named fs nr namelen name i
      = match_entry (holding B fs) namelen name B (i - 64 * b) := by
    intro i h1 h2
    rw [show match_entry (holding B fs) = match_entry fs from rfl, hB, ← named_eq (by omega),
      Nat.add_sub_cancel' h1]
  rcases wp_find_in_block (holding B fs) nr B namelen name (Finds fs nr entries namelen name (64 * b))
    (fun _ _ => False) hn with ⟨e, he, hlt, hyes, hbefore, h⟩ | ⟨hlast, hno, h⟩ | ⟨n', rfl, hi, hno, h⟩
  · rw [h]
    refine .inl ⟨64 * b + e, by omega, hlt, ?_, fun j h1 h2 => ?_, ?_, ?_⟩
    · rw [hnamed _ (by omega) (by omega), Nat.add_sub_cancel_left, hyes]
    · rw [hnamed j h1 (by omega), hbefore _ (by omega)]
    · rw [entry_block_eq he, show (64 * b + e) % 64 = e by omega]
    · rw [entry_block_eq he]
  · rw [h, Bh.brelse, wp_of_ok (call_ok brelse_ok)]
    refine .inr ⟨fun j h1 h2 => ?_, rfl, rfl⟩
    rw [hnamed j h1 (by omega), hno _ (by omega)]
  · have hbig : b + 1 < MAX_BLOCKS := by
      have hsmall := hsolid.small
      omega
    have hblock : fs.block nr (blockPlace (b + 1)) ≠ 0 := by
      have h0 := hsolid.block (64 * (b + 1)) hi
      rwa [entry_block, Nat.mul_div_cancel_left _ (by decide)] at h0
    have hnext := next_had (B := B) hbig (hread.had.2 hblock)
    rw [hread.past, hread.past] at hnext
    rw [h, wp_find_turn hi hnext]
    have hfree : ∀ j, 64 * b ≤ j → j < 64 * (b + 1) → named fs nr namelen name j = false := by
      intro j h1 h2
      rw [hnamed j h1 h2, hno _ (by omega)]
    have hrest := ih _ (by omega) (by omega) rfl (b := b + 1) (n := n' + 1)
    refine wp_mono hrest (fun r fs' hr => ?_) fun _ _ h => h
    rcases hr with ⟨i, h1, h2, h3, h4, h5⟩ | ⟨h1, h2⟩
    · refine .inl ⟨i, by omega, h2, h3, fun j h6 h7 => ?_, h5⟩
      by_cases hj : j < 64 * (b + 1)
      · exact hfree j h6 hj
      · exact h4 j (by omega) h7
    · refine .inr ⟨fun j h6 h7 => ?_, h2⟩
      by_cases hj : j < 64 * (b + 1)
      · exact hfree j h6 hj
      · exact h1 j (by omega) h7

/-- **The first entry with the name.** -/
theorem find_in_ok (namelen : ℕ) (name : ℕ → ℕ) (hread : Readable fs) (hsolid : Solid fs nr entries) :
    ∃ r fs', find_in nr entries namelen name fs = .ok r fs' ∧ Finds fs nr entries namelen name 0 r fs' := by
  refine returns_of_wp ?_
  have hok : fs.unreadable 0 = false := congrFun hread 0
  rw [find_in, wp_bind, wp_get]
  dsimp only
  rw [if_neg hsolid.zone, wp_bind, wp_of_ok (call_ok (bread_ok hok)), if_pos rfl, hread.past]
  exact finds_block (b := 0) hread hsolid (Nat.le_add_left ..)

/-- `..` does not lead to another directory. -/
theorem dotdot_plain {v : View} {dir : ℕ} (hcount : (fs.inode dir).i_count ≠ 0)
    (hlinks : (fs.inode dir).i_nlinks ≠ 0) (h : target v dir namelen name = (dir, namelen)) :
    dotdot v dir namelen name fs = .ok (dir, namelen) fs := by
  rw [dotdot]
  rw [target] at h
  split_ifs at h ⊢ with h1 h2 h3
  · rw [h]
    rfl
  · cases himount : v.s_imount with
    | none => rfl
    | some imount =>
      -- the root is mounted on itself: it is given up and taken again
      rw [himount] at h
      obtain rfl : imount = dir := congrArg Prod.fst h
      refine eq_ok_of_wp ?_
      rw [wp_bind, wp_call, iput, wp_bind, wp_get, if_neg hcount, wp_ite]
      have hsame : ∀ c u, c + 1 = (fs.inode imount).i_count → (if c = 0 then u - 1 else u) = fs.unused →
          (fun fs1 : Fs => { fs1.set_inode imount
              { fs1.inode imount with i_count := (fs1.inode imount).i_count + 1 } with
            unused := if (fs1.inode imount).i_count = 0 then fs1.unused - 1 else fs1.unused })
            { fs.set_inode imount { fs.inode imount with i_count := c } with unused := u } = fs := by
        intro c u hc hu
        simp only [Fs.set_inode, update_self, update_idem, hc, hu, update_eq_self]
      refine ⟨fun hmany => ?_, fun hone => ?_⟩
      · rw [wp_modify, wp_bind, wp_modify, wp_pure]
        exact ⟨rfl, hsame _ fs.unused (by omega) (if_neg (by omega))⟩
      · rw [if_neg hlinks, wp_modify, wp_bind, wp_modify, wp_pure]
        exact ⟨rfl, hsame 0 (fs.unused + 1) (by omega) (if_pos rfl)⟩
  · rfl
  · rfl

/-- `find_entry` where `..` plays no part. -/
theorem find_entry_ok {v : View} {dir : ℕ} (hread : Readable fs) (hcount : (fs.inode dir).i_count ≠ 0)
    (hlinks : (fs.inode dir).i_nlinks ≠ 0) (hlen : namelen ≠ 0)
    (hplain : target v dir (min namelen NAME_LEN) name = (dir, min namelen NAME_LEN))
    (hsolid : Solid fs dir ((fs.inode dir).i_size / 16)) :
    ∃ r fs', find_entry v dir namelen name fs = .ok (dir, r) fs' ∧
      Finds fs dir ((fs.inode dir).i_size / 16) (min namelen NAME_LEN) name 0 r fs' := by
  obtain ⟨r, fs', h, hfinds⟩ := find_in_ok (min namelen NAME_LEN) name hread hsolid
  refine ⟨r, fs', eq_ok_of_wp ?_, hfinds⟩
  have hmin : min namelen NAME_LEN ≠ 0 := by
    rw [NAME_LEN]
    omega
  rw [find_entry]
  dsimp only
  rw [wp_bind, wp_get, if_neg hmin, wp_bind, wp_of_ok (dotdot_plain hcount hlinks hplain), wp_bind,
    wp_of_ok h, wp_pure]
  exact ⟨rfl, rfl⟩

end OldLinux.Namei
