import OldLinux.Directory.Entries
import OldLinux.Lib.SlotMap
import OldLinux.Namei.Lookup

/-!
# A directory is a map

Entries are added and removed in a directory that was empty in the beginning.  Which names it has, and
with which inodes, is a `SlotMap` at any time: a slot that has been freed is used again, and the directory
grows by one slot when there is none.
-/

namespace OldLinux.Namei

open OldLinux.Lib OldLinux.Lib.BlockTree OldLinux.Creation
open OldLinux.Directory (Component NulPadded matches? matches_of_name name_of_matches nulPadded_padded)

variable {fs fs1 fs' : Fs} {d b B n s namelen : ℕ} {name : ℕ → ℕ} {c : Component}

/-! ### The bytes of a name -/

/-- A name as `get_fs_byte` reads it. -/
def bytes (c : Component) (k : ℕ) : ℕ := (c.bytes.getD k 0).toNat

/-- The fourteen bytes of the name in an entry. -/
def full_name (fs : Fs) (block de : ℕ) : Directory.Name := fun k => BitVec.ofNat 8 (entry_name fs block de k)

theorem bytes_lt (c : Component) (k : ℕ) : bytes c k < 256 := (c.bytes.getD k 0).isLt

theorem entry_name_lt (fs : Fs) (block de k : ℕ) : entry_name fs block de k < 256 := Nat.mod_lt _ (by decide)

theorem ofNat_eq {x : ℕ} (hx : x < 256) {y : BitVec 8} : BitVec.ofNat 8 x = y ↔ x = y.toNat := by
  rw [← BitVec.toNat_inj, BitVec.toNat_ofNat, Nat.mod_eq_of_lt hx]

theorem len_eq (c : Component) : min c.bytes.length NAME_LEN = c.len := rfl

theorem match_entry_eq : match_entry fs c.len (bytes c) B n = matches? c
    ⟨entry_inode fs B n, full_name fs B n⟩ := by
  have hlen : c.len ≤ NAME_LEN := Nat.min_le_right ..
  rw [Bool.eq_iff_iff, match_entry, matches?, decide_eq_true_iff]
  have hbyte : ∀ k x, (entry_name fs B n k = BitVec.toNat x) ↔ BitVec.ofNat 8 (entry_name fs B n k) = x :=
    fun k x => (ofNat_eq (entry_name_lt fs B n k)).symm
  split_ifs with h1 h2
  · refine iff_of_false not_false fun h => ?_
    exact h1.elim h.1 fun h' => absurd hlen (Nat.not_le.2 h')
  · refine iff_of_false not_false fun h => h2.2 ?_
    exact (hbyte c.len 0).2 ((h.2 ⟨c.len, h2.1⟩).1 rfl)
  · rw [decide_eq_true_iff]
    refine ⟨fun h => ⟨fun h0 => h1 (.inl h0), fun i => ⟨fun hi => ?_, fun hi => ?_⟩⟩, fun h k hk => ?_⟩
    · by_contra hne
      refine h2 ⟨hi ▸ i.isLt, fun h0 => hne ?_⟩
      rw [← hi] at h0
      exact (hbyte i.val 0).1 h0
    · exact (hbyte i.val _).1 (h i.val hi)
    · exact (hbyte k _).2 ((h.2 ⟨k, Nat.lt_of_lt_of_le hk hlen⟩).2 hk)

/-! ### Slots -/

/-- The name in the `i`-th slot. -/
def slot_key (fs : Fs) (d i : ℕ) : Directory.Name := full_name fs (entry_block fs d i) (i % 64)

/-- The inode in the `i`-th slot, if it is in use. -/
def slot_val (fs : Fs) (d i : ℕ) : Option ℕ :=
  if entry_inode fs (entry_block fs d i) (i % 64) = 0 then none
  else some (entry_inode fs (entry_block fs d i) (i % 64))

theorem slot_val_ne {i : ℕ} : slot_val fs d i ≠ none ↔ live fs d i := by
  rw [slot_val, live]
  split_ifs with h
  · exact iff_of_false (fun h' => h' rfl) fun h' => h' h
  · exact iff_of_true (Option.some_ne_none _) h

theorem named_iff {i : ℕ} (hpad : slot_val fs d i ≠ none → NulPadded (slot_key fs d i)) :
    named fs d c.len (bytes c) i = true ↔ slot_val fs d i ≠ none ∧ slot_key fs d i = c.padded := by
  rw [named, match_entry_eq]
  refine ⟨fun h => ?_, fun h => matches_of_name (slot_val_ne.1 h.1) h.2⟩
  have hlive : slot_val fs d i ≠ none := by
    rw [matches?, decide_eq_true_iff] at h
    exact slot_val_ne.2 h.1
  exact ⟨hlive, name_of_matches h (hpad hlive)⟩

/-- Two states with the same words in a slot. -/
theorem slot_congr {i : ℕ} (hblock : entry_block fs' d i = entry_block fs d i)
    (hwords : ∀ w, 8 * (i % 64) ≤ w → w < 8 * (i % 64) + 8 →
      fs'.b_data (entry_block fs d i) w = fs.b_data (entry_block fs d i) w) :
    slot_key fs' d i = slot_key fs d i ∧ slot_val fs' d i = slot_val fs d i := by
  have hinode : entry_inode fs' (entry_block fs d i) (i % 64) = entry_inode fs (entry_block fs d i) (i % 64) :=
    hwords _ (Nat.le_refl _) (by omega)
  refine ⟨?_, ?_⟩
  · funext k
    have hk := k.isLt
    rw [slot_key, slot_key, full_name, full_name, entry_name, entry_name, hblock,
      hwords _ (by omega) (by omega)]
  · rw [slot_val, slot_val, hblock, hinode]

/-! ### A slot is written -/

/-- Only the words of one slot have changed, and the size of the directory. -/
structure Writes (d B e : ℕ) (fs fs' : Fs) : Prop where
  sb : fs'.sb = fs.sb
  zmap : fs'.zmap = fs.zmap
  zone : (fs'.inode d).i_zone = (fs.inode d).i_zone
  i_count : (fs'.inode d).i_count = (fs.inode d).i_count
  i_nlinks : (fs'.inode d).i_nlinks = (fs.inode d).i_nlinks
  data : ∀ z w, z ≠ B ∨ w < 8 * e ∨ 8 * e + 8 ≤ w → fs'.b_data z w = fs.b_data z w
  unreadable : fs'.unreadable = fs.unreadable

theorem Writes.trans {e : ℕ} (h : Writes d B e fs fs1) (h' : Writes d B e fs1 fs') : Writes d B e fs fs' :=
  ⟨h'.sb.trans h.sb, h'.zmap.trans h.zmap, h'.zone.trans h.zone, h'.i_count.trans h.i_count,
    h'.i_nlinks.trans h.i_nlinks, fun z w hw => (h'.data z w hw).trans (h.data z w hw),
    h'.unreadable.trans h.unreadable⟩

/-- A data block is no indirect block. -/
theorem Writes.block {e : ℕ} (W : Writes d B e fs fs') (S : Sound (· = d) fs) (hb : b < MAX_BLOCKS)
    (hB : fs.block d (blockPlace b) = B) {p : Place} (hp : p.Valid) :
    fs'.block d p = fs.block d p := by
  obtain ⟨k, m⟩ := p
  induction m using List.reverseRecOn with
  | nil => rw [block_nil, block_nil, W.zone]
  | append_singleton m i ih =>
    have hm := Place.Valid.init hp
    rw [block_concat, block_concat, ih hm]
    by_cases hzero : fs.block d (k, m) = 0
    · rw [if_pos hzero, if_pos hzero]
    · rw [if_neg hzero, if_neg hzero]
      refine W.data _ _ (.inl fun heq => ?_)
      obtain ⟨hvalid, hfull⟩ := blockPlace_spec hb
      have hplace := (S.unique d (k, m) d (blockPlace b) rfl rfl hm hvalid hzero (heq.trans hB.symm)).2
      have hlen : (m ++ [i]).length ≤ depth k := hp.length
      rw [Place.Full, ← hplace] at hfull
      rw [List.length_append, hfull] at hlen
      exact absurd hlen (Nat.not_succ_le_self _)

theorem Writes.sound {e : ℕ} (W : Writes d B e fs fs') (S : Sound (· = d) fs) (hb : b < MAX_BLOCKS)
    (hB : fs.block d (blockPlace b) = B) (hcount : fs'.b_count = fs.b_count) :
    Sound (· = d) fs' := by
  have hzone : ∀ z, fs'.InZone z ↔ fs.InZone z := fun z => by rw [Fs.InZone, Fs.InZone, W.sb]
  have hused : ∀ z, fs'.used z = fs.used z := fun z => by rw [Fs.used, Fs.used, W.sb, W.zmap]
  have hblock : ∀ p : Place, p.Valid → fs'.block d p = fs.block d p := fun p hp => W.block S hb hB hp
  refine ⟨W.sb ▸ S.first, W.sb ▸ S.nzones, W.zmap ▸ S.reserved, ?_, ?_, fun z hz hfree => ?_⟩
  · rintro nr p rfl hp h
    rw [hblock p hp] at h ⊢
    rw [hzone, hused]
    exact S.inside _ p rfl hp h
  · rintro nr p nr' p' rfl rfl hp hp' h heq
    rw [hblock p hp] at h heq
    rw [hblock p' hp'] at heq
    exact S.unique _ p _ p' rfl rfl hp hp' h heq
  · rw [hcount]
    exact S.idle z ((hzone z).1 hz) ((hused z).symm.trans hfree)

/-- The other slots stay as they are. -/
theorem Writes.other (W : Writes d (entry_block fs d s) (s % 64) fs fs') (S : Sound (· = d) fs)
    (hs : s < 64 * MAX_BLOCKS) {i : ℕ} (hi : i < 64 * MAX_BLOCKS)
    (hnei : entry_block fs d i ≠ 0) (his : i ≠ s) :
    slot_key fs' d i = slot_key fs d i ∧ slot_val fs' d i = slot_val fs d i := by
  have hib : i / 64 < MAX_BLOCKS := by omega
  have hsb : s / 64 < MAX_BLOCKS := by omega
  refine slot_congr (W.block S hsb rfl (blockPlace_spec hib).1) fun w h1 h2 => W.data _ _ ?_
  by_cases hblock : entry_block fs d i = entry_block fs d s
  · have hplace := (S.unique d _ d _ rfl rfl (blockPlace_spec hib).1 (blockPlace_spec hsb).1 hnei hblock).2
    have hdiv := blockPlace_inj hplace
    refine .inr ?_
    omega
  · exact .inl hblock

theorem enter_writes (fs : Fs) (d i B e namelen : ℕ) (name : ℕ → ℕ) :
    Writes d B e fs (enter d i B e namelen name fs) := by
  have hname : ∀ fs1, Writes d B e fs1 (write_name B e namelen name fs1) := by
    refine fun fs1 => ⟨rfl, rfl, rfl, rfl, rfl, fun z w hw => ?_, rfl⟩
    show Function.update fs1.b_data B _ z w = fs1.b_data z w
    by_cases hz : z = B
    · rw [hz, Function.update_self, if_neg (by omega)]
    · rw [Function.update_of_ne hz]
  have hextend : Writes d B e fs (extend d i B e fs) := by
    have hinode : (extend d i B e fs).inode d = { fs.inode d with i_size := (i + 1) * 16 } :=
      Function.update_self ..
    refine ⟨rfl, rfl, by rw [hinode], by rw [hinode], by rw [hinode], fun z w hw => ?_, rfl⟩
    show Function.update fs.b_data B (Function.update (fs.b_data B) (8 * e) 0) z w = _
    by_cases hz : z = B
    · rw [hz, Function.update_self, Function.update_of_ne (by omega)]
    · rw [Function.update_of_ne hz]
  rw [enter]
  split_ifs
  · exact hextend.trans (hname _)
  · exact hname fs

theorem set_word_writes (fs : Fs) (d B e v : ℕ) : Writes d B e fs (fs.set_word B (8 * e) v) := by
  refine ⟨rfl, rfl, rfl, rfl, rfl, fun z w hw => ?_, rfl⟩
  show Function.update fs.b_data B (Function.update (fs.b_data B) (8 * e) v) z w = _
  by_cases hz : z = B
  · rw [hz, Function.update_self, Function.update_of_ne (by omega)]
  · rw [Function.update_of_ne hz]

theorem count_writes (fs : Fs) (d B e : ℕ) (c : ℕ → ℕ) : Writes d B e fs { fs with b_count := c } :=
  ⟨rfl, rfl, rfl, rfl, rfl, fun _ _ _ => rfl, rfl⟩

theorem enter_size (fs : Fs) (d i B e namelen : ℕ) (name : ℕ → ℕ) :
    ((enter d i B e namelen name fs).inode d).i_size
      = if (fs.inode d).i_size ≤ i * 16 then (i + 1) * 16 else (fs.inode d).i_size := by
  rw [enter]
  split_ifs
  · show (Function.update fs.inode d { fs.inode d with i_size := (i + 1) * 16 } d).i_size = _
    rw [Function.update_self]
  · rfl

/-- A byte of a word. -/
theorem name_word_byte {k : ℕ} (hname : ∀ j, name j < 256) :
    name_word namelen name (k / 2) / 256 ^ (k % 2) % 256 = if k < namelen then name k else 0 := by
  have hbyte : ∀ j, (if j < namelen then name j else 0) < 256 := by
    intro j
    split_ifs
    · exact hname j
    · decide
  rw [name_word]
  have hlow := hbyte (2 * (k / 2))
  have hhigh := hbyte (2 * (k / 2) + 1)
  rcases Nat.mod_two_eq_zero_or_one k with h | h
  · rw [h, Nat.pow_zero, Nat.div_one, Nat.add_mul_mod_self_left, Nat.mod_eq_of_lt hlow,
      show 2 * (k / 2) = k by omega]
  · rw [h, Nat.pow_one, Nat.add_mul_div_left _ _ (by decide), Nat.div_eq_of_lt hlow, Nat.zero_add,
      Nat.mod_eq_of_lt hhigh, show 2 * (k / 2) + 1 = k by omega]

/-- What is written can be read. -/
theorem full_name_enter (i v : ℕ) :
    full_name ((enter d i B n c.len (bytes c) fs).set_word B (8 * n) v) B n = c.padded := by
  funext k
  have hk := k.isLt
  have hword : ((enter d i B n c.len (bytes c) fs).set_word B (8 * n) v).b_data B (8 * n + 1 + k / 2)
      = name_word c.len (bytes c) (k / 2) := by
    rw [Fs.set_word]
    dsimp only
    rw [Function.update_self, Function.update_of_ne (by omega), enter, write_name]
    dsimp only
    rw [Function.update_self, if_pos (by omega), show 8 * n + 1 + k.val / 2 - (8 * n + 1) = k.val / 2 by omega]
  rw [full_name, entry_name, hword, name_word_byte (bytes_lt c), Component.padded]
  split_ifs
  · rw [bytes, BitVec.ofNat_toNat, BitVec.setWidth_eq]
  · rfl

theorem entry_inode_set (fs : Fs) (B n v : ℕ) : entry_inode (fs.set_word B (8 * n) v) B n = v := by
  show Function.update fs.b_data B (Function.update (fs.b_data B) (8 * n) v) B (8 * n) = v
  rw [Function.update_self, Function.update_self]

/-! ### `create_block` leaves the readers alone -/

theorem leaves_readable {nr b : ℕ} : Leaves Readable (create_block nr b) := by
  have hnew : Leaves Readable new_block := by
    refine Leaves.look fun fs _ => ?_
    split
    · exact Leaves.pure 0
    · refine Leaves.bind (Leaves.modify fun s h => h) fun _ => ?_
      refine Leaves.ite (fun _ => Leaves.pure 0) fun _ => Leaves.ite (fun _ => Leaves.throw _) fun _ => ?_
      exact Leaves.bind (Leaves.modify fun s h => h) fun _ => Leaves.pure _
  have hzone : ∀ k, Leaves Readable (create_zone nr k) := by
    refine fun k => Leaves.look fun fs _ => Leaves.ite (fun _ => ?_) fun _ => Leaves.pure _
    exact Leaves.bind hnew fun block => Leaves.bind (Leaves.modify fun s h => h) fun _ => Leaves.pure _
  have hword : ∀ ind i, Leaves Readable (create_word ind i) := by
    intro ind i
    have hbread : Leaves Readable (bread ind) := by
      intro fs hfs
      refine wp_bread (fun _ => ?_) fun _ => ?_
      · show (fun n => fs.unreadable (n + 1)) = _
        rw [hfs]
      · show (fun n => fs.unreadable (n + 1)) = _
        rw [hfs]
    have hbrelse : Leaves Readable (Creation.brelse ind) :=
      Leaves.look fun fs _ => Leaves.ite (fun _ => Leaves.throw _) fun _ => Leaves.modify fun s h => h
    refine Leaves.bind hbread fun ok => Leaves.ite (fun _ => ?_) fun _ => Leaves.pure 0
    refine Leaves.bind ?_ fun block => Leaves.bind hbrelse fun _ => Leaves.pure _
    refine Leaves.look fun fs _ => Leaves.ite (fun _ => ?_) fun _ => Leaves.pure _
    refine Leaves.bind hnew fun block => Leaves.ite (fun _ => Leaves.pure 0) fun _ => ?_
    exact Leaves.bind (Leaves.modify fun s h => h) fun _ => Leaves.pure _
  rw [create_block]
  refine Leaves.ite (fun _ => Leaves.throw _) fun _ => Leaves.ite (fun _ => hzone b) fun _ => ?_
  refine Leaves.ite (fun _ => Leaves.bind (hzone 7) fun ind => ?_) fun _ => ?_
  · exact Leaves.ite (fun _ => Leaves.pure 0) fun _ => hword _ _
  · refine Leaves.bind (hzone 8) fun dind => Leaves.ite (fun _ => Leaves.pure 0) fun _ => ?_
    exact Leaves.bind (hword _ _) fun ind => Leaves.ite (fun _ => Leaves.pure 0) fun _ => hword _ _

/-! ### Where `add_entry` finds room -/

/-- Either there is no room on the disk, or the name is in the first slot that is free, at the end of the
directory at the latest. -/
def Adds (fs : Fs) (d namelen : ℕ) (name : ℕ → ℕ) (N : ℕ) (r : Option (ℕ × ℕ)) (fs' : Fs) : Prop :=
  ∃ fs1, Grown (· = d) d fs fs1 ∧ Readable fs1 ∧ (r = none ∧ fs' = fs1 ∨
    ∃ s, s ≤ N ∧ s < 64 * MAX_BLOCKS ∧ ¬full fs d s ∧ entry_block fs1 d s ≠ 0 ∧
      r = some (entry_block fs1 d s, s % 64) ∧
      fs' = enter d s (entry_block fs1 d s) (s % 64) namelen name (holding (entry_block fs1 d s) fs1))

theorem adds_block {N : ℕ} (S : Sound (· = d) fs) (hread : Readable fs) (hsize : (fs.inode d).i_size = 16 * N)
    (hsolid : Solid fs d N) (hb : b < MAX_BLOCKS) (hbN : 64 * b ≤ N)
    (hne : fs.block d (blockPlace b) ≠ 0) (hn : 64 * b + n = 64 * MAX_BLOCKS + 1) :
    wp (add_loop d namelen name n (64 * b) (.held (fs.block d (blockPlace b))) 0) (Adds fs d namelen name N)
      (fun _ _ => False) (holding (fs.block d (blockPlace b)) fs) := by
  induction hm : MAX_BLOCKS - b using Nat.strongRecOn generalizing b n with
  | ind m ih =>
  subst hm
  set B := fs.block d (blockPlace b) with hB
  obtain ⟨n', rfl⟩ : ∃ n', n = n' + 1 + 64 := ⟨n - 1 - 64, by omega⟩
  rcases wp_add_in_block (holding B fs) d B namelen name (Adds fs d namelen name N) (fun _ _ => False) b n'
    with ⟨e, he, hfree, hbefore, h⟩ | ⟨hfull, h⟩
  · rw [h]
    have hnot : ¬full fs d (64 * b + e) := fun hf => hfree ((full_iff he).1 hf)
    have hle : 64 * b + e ≤ N := by
      by_contra hlt
      have hlast := (hbefore (N - 64 * b) (by omega)).1
      rw [show (holding B fs).inode = fs.inode from rfl, hsize, Nat.add_sub_cancel' hbN] at hlast
      omega
    have hblock : entry_block fs d (64 * b + e) = B := entry_block_eq he
    refine ⟨fs, Grown.refl S d, hread, .inr ⟨64 * b + e, hle, by omega, hnot, ?_, ?_, ?_⟩⟩
    · rwa [hblock]
    · rw [hblock, show (64 * b + e) % 64 = e by omega]
    · rw [hblock, show (64 * b + e) % 64 = e by omega]
  · rw [h]
    have hmore : 64 * (b + 1) ≤ N := by
      have hlast := (hfull 63 (by decide)).1
      rw [show (holding B fs).inode = fs.inode from rfl, hsize] at hlast
      omega
    have hbig : b + 1 < MAX_BLOCKS := by
      -- otherwise the directory would have a block in each place
      by_contra hbig
      refine S.not_all rfl fun b' hb' => ?_
      have hblock := hsolid.block (64 * b') (by omega)
      rwa [entry_block, Nat.mul_div_cancel_left _ (by decide)] at hblock
    obtain ⟨n'', rfl⟩ : ∃ n'', n' = n'' + 1 := ⟨n' - 1, by omega⟩
    have hend := wp_add_end fs d B namelen name (Adds fs d namelen name N) (b + 1) n''
    rw [hread.past] at hend
    rw [hend]
    by_cases hin : 64 * (b + 1) < N
    · -- the next block is there
      have hblock := hsolid.block (64 * (b + 1)) hin
      rw [entry_block, Nat.mul_div_cancel_left _ (by decide)] at hblock
      have hcreate := create_mapped hbig (hread.had.2 hblock).found
      rw [hread.past, hread.past] at hcreate
      rw [wp_of_ok hcreate, if_neg hblock, hread.past]
      exact ⟨congrFun hread 0, ih _ (by omega) hbig hmore hblock (by omega) rfl⟩
    · obtain rfl : N = 64 * (b + 1) := by omega
      refine wp_mono (wp_and (wp_create_block S rfl hbig) (leaves_readable fs hread)) ?_ fun _ _ h => h.1
      rintro r fs1 ⟨⟨G, hr⟩, hread1⟩
      split_ifs with hzero
      · exact ⟨fs1, G, hread1, .inl ⟨rfl, rfl⟩⟩
      · have hsize1 : (fs1.inode d).i_size = 16 * (64 * (b + 1)) := by
          obtain ⟨zone, hzone⟩ := G.rest.parent
          rw [hzone]
          exact hsize
        have hblock : entry_block fs1 d (64 * (b + 1)) = r := by
          rw [entry_block, Nat.mul_div_cancel_left _ (by decide), hr hzero]
        refine ⟨congrFun hread1 0, ?_⟩
        rw [hread1.past, wp_add_here (by decide) fun hf => ?_]
        · refine ⟨fs1, G, hread1, .inr ⟨64 * (b + 1), Nat.le_refl _, by omega, ?_, ?_, ?_, ?_⟩⟩
          · rintro ⟨hlt, -⟩
            rw [hsize] at hlt
            omega
          · rwa [hblock]
          · rw [hblock, Nat.mul_mod_right]
          · rw [hblock, Nat.mul_mod_right]
        · have hlt := hf.1
          rw [show (holding r fs1).inode = fs1.inode from rfl, hsize1] at hlt
          omega

theorem wp_add_entry_adds {N : ℕ} (namelen : ℕ) (name : ℕ → ℕ) (S : Sound (· = d) fs) (hread : Readable fs)
    (hsize : (fs.inode d).i_size = 16 * N) (hsolid : Solid fs d N) (hlen : namelen ≠ 0) :
    wp (Namei.add_entry d namelen name) (Adds fs d (min namelen NAME_LEN) name N) (fun _ _ => False) fs := by
  have hmin : min namelen NAME_LEN ≠ 0 := by
    rw [NAME_LEN]
    omega
  have hok : fs.unreadable 0 = false := congrFun hread 0
  rw [Namei.add_entry]
  dsimp only
  rw [wp_bind, wp_get, if_neg (fun h => h.elim hmin hsolid.zone), wp_bind, wp_of_ok (call_ok (bread_ok hok)),
    if_pos rfl, hread.past]
  exact adds_block (b := 0) S hread hsize hsolid (by decide) (Nat.zero_le _) hsolid.zone (Nat.zero_add _)

/-! ### Additions and removals -/

/-- `..` does not lead out of the directory. -/
def Plain (v : View) (d : ℕ) (c : Component) : Prop := target v d c.len (bytes c) = (d, c.len)

instance (v : View) (d : ℕ) (c : Component) : Decidable (Plain v d c) :=
  inferInstanceAs (Decidable (_ = _))

/-- What has been done so far: the names added and not removed since, with the inode of the last addition,
and the slots that have been used. -/
structure History where
  names : Directory.Name → Option ℕ
  slots : Finset (ℕ × ℕ)

inductive Op
  /-- `add_entry` and `de->inode = inode`, for a name that is not there -/
  | add (c : Component) (inode : ℕ)
  /-- `find_entry` and `de->inode = 0` -/
  | remove (v : View) (c : Component)

/-- `de->inode = inode` and `brelse(bh)`. -/
def set_inode (block de inode : ℕ) : NameiM Unit := do
  modify fun fs => fs.set_word block (8 * de) inode
  (Bh.held block).brelse

def Op.perform (d : ℕ) (h : History) : Op → NameiM History
  | .add c inode =>
    if (h.names c.padded).isSome ∨ inode = 0 then pure h
    else do
      match ← Namei.add_entry d c.bytes.length (bytes c) with
      | none => pure h
      | some (block, de) => do
          set_inode block de inode
          pure ⟨Function.update h.names c.padded (some inode), insert (block, de) h.slots⟩
  | .remove v c =>
    if Plain v d c then do
      let r ← find_entry v d c.bytes.length (bytes c)
      match r.2 with
      | none => pure h
      | some (block, de) => do
          set_inode block de 0
          pure { h with names := Function.update h.names c.padded none }
    else pure h

def perform (d : ℕ) : List Op → History → NameiM History
  | [], h => pure h
  | op :: ops, h => do
      let h ← op.perform d h
      perform d ops h

/-- An empty directory in use: it has its first block and no entry. -/
structure Empty (d : ℕ) (fs : Fs) : Prop where
  sound : Sound (· = d) fs
  readable : Readable fs
  zone : (fs.inode d).i_zone 0 ≠ 0
  size : (fs.inode d).i_size = 0
  i_count : (fs.inode d).i_count ≠ 0
  i_nlinks : (fs.inode d).i_nlinks ≠ 0

/-- The directory has `N` slots, and they hold what has been added and not removed. -/
structure Holds (d N : ℕ) (fs : Fs) (h : History) : Prop where
  sound : Sound (· = d) fs
  readable : Readable fs
  size : (fs.inode d).i_size = 16 * N
  solid : Solid fs d N
  i_count : (fs.inode d).i_count ≠ 0
  i_nlinks : (fs.inode d).i_nlinks ≠ 0
  map : SlotMap N (slot_key fs d) (slot_val fs d) h.names
  padded : ∀ i < N, slot_val fs d i ≠ none → NulPadded (slot_key fs d i)
  slots : h.slots = (Finset.range N).image fun i => (entry_block fs d i, i % 64)

theorem Empty.holds (h : Empty d fs) : Holds d 0 fs ⟨fun _ => none, ∅⟩ where
  sound := h.sound
  readable := h.readable
  size := h.size
  solid := ⟨h.zone, Nat.zero_le _, fun i hi => absurd hi (Nat.not_lt_zero i)⟩
  i_count := h.i_count
  i_nlinks := h.i_nlinks
  map := SlotMap.empty _ _
  padded := fun i hi => absurd hi (Nat.not_lt_zero i)
  slots := rfl

section Holds

variable {N : ℕ} {h : History}

theorem wp_set_inode {Q : Unit → Fs → Prop} {E : Fault → Fs → Prop} {v : ℕ} {c : ℕ → ℕ}
    (hc : fs.b_count = held c B) (hQ : Q () { fs.set_word B (8 * n) v with b_count := c }) :
    wp (set_inode B n v) Q E fs := by
  rw [set_inode, wp_bind, wp_modify, Bh.brelse, wp_call]
  exact wp_brelse hc hQ

/-- A directory that has only grown holds the same. -/
theorem Holds.grown (H : Holds d N fs h) (G : Grown (· = d) d fs fs1) (hread : Readable fs1) :
    Holds d N fs1 h ∧
      ∀ i < N, slot_key fs1 d i = slot_key fs d i ∧ slot_val fs1 d i = slot_val fs d i := by
  obtain ⟨zone, hzone⟩ := G.rest.parent
  have hplace : ∀ i < N, (blockPlace (i / 64)).Valid ∧ (blockPlace (i / 64)).Full := by
    intro i hi
    have hsmall := H.solid.small
    exact blockPlace_spec (show _ < MAX_BLOCKS by omega)
  have hblock : ∀ i < N, entry_block fs1 d i = entry_block fs d i := fun i hi =>
    G.grows.keep rfl (hplace i hi).1 (H.solid.block i hi)
  have hslot : ∀ i < N, slot_key fs1 d i = slot_key fs d i ∧ slot_val fs1 d i = slot_val fs d i := by
    intro i hi
    refine slot_congr (hblock i hi) fun w _ _ => ?_
    exact congrFun (G.grows.data d _ rfl (hplace i hi).1 (hplace i hi).2 (H.solid.block i hi)) w
  refine ⟨⟨G.sound, hread, ?_, ⟨?_, H.solid.small, fun i hi => ?_⟩, ?_, ?_, H.map.congr hslot,
    fun i hi hv => ?_, ?_⟩, hslot⟩
  · rw [hzone]
    exact H.size
  · have hvalid : (blockPlace 0).Valid := (blockPlace_spec (by decide)).1
    have hkeep := G.grows.keep rfl hvalid (show fs.block d (blockPlace 0) ≠ 0 from H.solid.zone)
    show fs1.block d (blockPlace 0) ≠ 0
    rw [hkeep]
    exact H.solid.zone
  · rw [hblock i hi]
    exact H.solid.block i hi
  · rw [hzone]
    exact H.i_count
  · rw [hzone]
    exact H.i_nlinks
  · rw [(hslot i hi).2] at hv
    rw [(hslot i hi).1]
    exact H.padded i hi hv
  · rw [H.slots]
    refine Finset.image_congr fun i hi => ?_
    rw [hblock i (Finset.mem_range.1 hi)]

/-- A slot is written, the next one after the last at most. -/
theorem Holds.written {h' : History} (H : Holds d N fs h)
    (W : Writes d (entry_block fs d s) (s % 64) fs fs') (hcount : fs'.b_count = fs.b_count) (hs : s ≤ N)
    (hsmall : s < 64 * MAX_BLOCKS) (hne : entry_block fs d s ≠ 0)
    (hsize : (fs'.inode d).i_size = 16 * max N (s + 1))
    (hmap : SlotMap (max N (s + 1)) (slot_key fs' d) (slot_val fs' d) h'.names)
    (hpad : slot_val fs' d s ≠ none → NulPadded (slot_key fs' d s))
    (hslots : h'.slots = insert (entry_block fs d s, s % 64) h.slots) : Holds d (max N (s + 1)) fs' h' := by
  have hsb : s / 64 < MAX_BLOCKS := by omega
  have hblock : ∀ i < 64 * MAX_BLOCKS, entry_block fs' d i = entry_block fs d i := fun i hi =>
    W.block H.sound hsb rfl (blockPlace_spec (show _ < MAX_BLOCKS by omega)).1
  have hlast : ∀ i < max N (s + 1), i < 64 * MAX_BLOCKS := by
    have hN := H.solid.small
    omega
  have hthere : ∀ i < max N (s + 1), entry_block fs d i ≠ 0 := by
    intro i hi
    by_cases his : i = s
    · rwa [his]
    · exact H.solid.block i (by omega)
  refine ⟨W.sound H.sound hsb rfl hcount, W.unreadable.trans H.readable, hsize, ⟨?_, ?_, fun i hi => ?_⟩,
    ?_, ?_, hmap, fun i hi hv => ?_, ?_⟩
  · rw [W.zone]
    exact H.solid.zone
  · have hN := H.solid.small
    omega
  · rw [hblock i (hlast i hi)]
    exact hthere i hi
  · rw [W.i_count]
    exact H.i_count
  · rw [W.i_nlinks]
    exact H.i_nlinks
  · by_cases his : i = s
    · rw [his] at hv ⊢
      exact hpad hv
    · obtain ⟨hkey, hval⟩ := W.other H.sound hsmall (hlast i hi) (hthere i hi) his
      rw [hval] at hv
      rw [hkey]
      exact H.padded i (by omega) hv
  · rw [hslots, H.slots]
    have himage : (Finset.range (max N (s + 1))).image (fun i => (entry_block fs' d i, i % 64))
        = (Finset.range (max N (s + 1))).image fun i => (entry_block fs d i, i % 64) :=
      Finset.image_congr fun i hi => by
        rw [hblock i (hlast i (Finset.mem_range.1 hi))]
    have hrange : Finset.range (max N (s + 1)) = insert s (Finset.range N) := by
      ext i
      rw [Finset.mem_insert, Finset.mem_range, Finset.mem_range]
      omega
    rw [himage, hrange, Finset.image_insert]

theorem holds_add (H : Holds d N fs h) (c : Component) (inode : ℕ) :
    wp ((Op.add c inode).perform d h) (fun h' fs' => ∃ N', Holds d N' fs' h') (fun _ _ => False) fs := by
  rw [Op.perform, wp_ite]
  refine ⟨fun _ => ⟨N, H⟩, fun hnew => ?_⟩
  rw [not_or] at hnew
  obtain ⟨hnone, hinode⟩ := hnew
  have hlen : c.bytes.length ≠ 0 := Nat.pos_iff_ne_zero.1 c.nonempty
  rw [wp_bind]
  refine wp_mono (wp_add_entry_adds c.bytes.length (bytes c) H.sound H.readable H.size H.solid hlen) ?_
    fun _ _ hf => hf
  rintro r fs' ⟨fs1, G, hread1, hcases⟩
  obtain ⟨H1, hsame⟩ := H.grown G hread1
  rcases hcases with ⟨rfl, rfl⟩ | ⟨s, hs, hsmall, hfree, hne, rfl, rfl⟩
  · exact ⟨N, H1⟩
  dsimp only
  rw [wp_bind]
  set B := entry_block fs1 d s with hB
  refine wp_set_inode (c := fs1.b_count) (by rw [enter_b_count]; rfl) ?_
  rw [wp_pure]
  rw [len_eq]
  generalize hfs2 : (enter d s B (s % 64) c.len (bytes c) (holding B fs1)).set_word B (8 * (s % 64)) inode = fs2
  have W : Writes d B (s % 64) fs1 { fs2 with b_count := fs1.b_count } := by
    rw [← hfs2]
    exact ((count_writes fs1 d B (s % 64) _).trans (enter_writes _ d s B (s % 64) c.len (bytes c))).trans
      ((set_word_writes _ d B (s % 64) inode).trans (count_writes _ d B (s % 64) _))
  have hblock' : entry_block { fs2 with b_count := fs1.b_count } d s = B :=
    W.block H1.sound (by omega) rfl (blockPlace_spec (show _ < MAX_BLOCKS by omega)).1
  have hkey : slot_key { fs2 with b_count := fs1.b_count } d s = c.padded := by
    rw [slot_key, hblock', ← hfs2]
    exact full_name_enter s inode
  have hval : slot_val { fs2 with b_count := fs1.b_count } d s = some inode := by
    have hword : entry_inode { fs2 with b_count := fs1.b_count } B (s % 64) = inode := by
      rw [← hfs2]
      exact entry_inode_set _ B (s % 64) inode
    rw [slot_val, hblock', hword, if_neg hinode]
  have hfree' : s < N → slot_val fs d s = none := by
    intro hlt
    by_contra hv
    refine hfree ⟨?_, slot_val_ne.1 hv⟩
    rw [H.size]
    omega
  refine ⟨max N (s + 1), H1.written W rfl hs hsmall hne ?_ ?_ (fun _ => ?_) rfl⟩
  · have hsize1 := H1.size
    show (fs2.inode d).i_size = _
    rw [← hfs2]
    show ((enter d s B (s % 64) c.len (bytes c) (holding B fs1)).inode d).i_size = _
    rw [enter_size, show (holding B fs1).inode = fs1.inode from rfl, hsize1]
    split_ifs <;> omega
  · refine H1.map.put hs (fun hlt => ?_) (by simpa using hnone) hkey hval fun i hi his => ?_
    · rw [(hsame s hlt).2]
      exact hfree' hlt
    · have hN := H.solid.small
      exact W.other H1.sound hsmall (by omega) (H1.solid.block i hi) his
  · rw [hkey]
    exact nulPadded_padded c

/-- `find_entry` finds what the directory holds. -/
theorem Holds.finds (H : Holds d N fs h) {v : View} {c : Component} (hplain : Plain v d c) :
    ∃ r fs', find_entry v d c.bytes.length (bytes c) fs = .ok (d, r) fs' ∧
      ((∃ i < N, slot_val fs d i = h.names c.padded ∧ slot_val fs d i ≠ none ∧ slot_key fs d i = c.padded ∧
        r = some (entry_block fs d i, i % 64) ∧ fs' = holding (entry_block fs d i) fs) ∨
      h.names c.padded = none ∧ r = none ∧ fs' = fs) := by
  have hlen : c.bytes.length ≠ 0 := Nat.pos_iff_ne_zero.1 c.nonempty
  have hN : (fs.inode d).i_size / 16 = N := by
    rw [H.size]
    omega
  obtain ⟨r, fs', hfind, hr⟩ := find_entry_ok H.readable H.i_count H.i_nlinks hlen
    (show target v d (min c.bytes.length NAME_LEN) (bytes c) = _ from hplain) (hN.symm ▸ H.solid)
  rw [hN, len_eq] at hr
  refine ⟨r, fs', hfind, ?_⟩
  rcases hr with ⟨i, -, hi, hnamed, -, hr⟩ | ⟨hnone, hr⟩
  · obtain ⟨hv, hkey⟩ := (named_iff (H.padded i hi)).1 hnamed
    refine .inl ⟨i, hi, ?_, hv, hkey, hr⟩
    cases hval : slot_val fs d i with
    | none => exact absurd hval hv
    | some inode =>
      rw [← hkey]
      exact (H.map.holds i hi inode hval).symm
  · refine .inr ⟨H.map.absent.2 fun i hi hkey => ?_, hr⟩
    by_contra hv
    have hno := hnone i (Nat.zero_le i) hi
    rw [(named_iff (H.padded i hi)).2 ⟨hv, hkey⟩] at hno
    cases hno

theorem holds_remove (H : Holds d N fs h) (v : View) (c : Component) :
    wp ((Op.remove v c).perform d h) (fun h' fs' => ∃ N', Holds d N' fs' h') (fun _ _ => False) fs := by
  rw [Op.perform, wp_ite]
  refine ⟨fun hplain => ?_, fun _ => ⟨N, H⟩⟩
  obtain ⟨r, fs', hfind, hcases⟩ := H.finds hplain
  rw [wp_bind, wp_of_ok hfind]
  rcases hcases with ⟨i, hi, -, hv, hkey, rfl, rfl⟩ | ⟨-, rfl, rfl⟩
  swap
  · exact ⟨N, H⟩
  dsimp only
  rw [wp_bind]
  have hsmall : i < 64 * MAX_BLOCKS := Nat.lt_of_lt_of_le hi H.solid.small
  have hne := H.solid.block i hi
  set B := entry_block fs d i with hB
  refine wp_set_inode (c := fs.b_count) rfl ?_
  rw [wp_pure]
  generalize hfs2 : (holding B fs).set_word B (8 * (i % 64)) 0 = fs2
  have W : Writes d B (i % 64) fs { fs2 with b_count := fs.b_count } := by
    rw [← hfs2]
    exact (count_writes fs d B (i % 64) _).trans
      ((set_word_writes _ d B (i % 64) 0).trans (count_writes _ d B (i % 64) _))
  have hblock' : entry_block { fs2 with b_count := fs.b_count } d i = B :=
    W.block H.sound (by omega) rfl (blockPlace_spec (show _ < MAX_BLOCKS by omega)).1
  have hval : slot_val { fs2 with b_count := fs.b_count } d i = none := by
    have hword : entry_inode { fs2 with b_count := fs.b_count } B (i % 64) = 0 := by
      rw [← hfs2]
      exact entry_inode_set _ B (i % 64) 0
    rw [slot_val, hblock', hword, if_pos rfl]
  have hmax : max N (i + 1) = N := by omega
  refine ⟨max N (i + 1), H.written W rfl hi.le hsmall hne ?_ ?_ (fun hv' => absurd hval hv') ?_⟩
  · rw [hmax, ← H.size, ← hfs2]
    rfl
  · rw [hmax, ← hkey]
    refine H.map.clear hi hv hval fun j hj hji => ?_
    exact W.other H.sound hsmall (Nat.lt_of_lt_of_le hj H.solid.small) (H.solid.block j hj) hji
  · refine (Finset.insert_eq_self.2 ?_).symm
    show (B, i % 64) ∈ h.slots
    rw [H.slots]
    exact Finset.mem_image.2 ⟨i, Finset.mem_range.2 hi, rfl⟩

/-- **After any additions and removals** the directory holds what has been added and not removed since. -/
theorem holds_perform (H : Holds d N fs h) (ops : List Op) :
    wp (perform d ops h) (fun h' fs' => ∃ N', Holds d N' fs' h') (fun _ _ => False) fs := by
  induction ops generalizing N fs h with
  | nil => exact ⟨N, H⟩
  | cons op ops ih =>
    rw [perform, wp_bind]
    have hstep : wp (op.perform d h) (fun h' fs' => ∃ N', Holds d N' fs' h') (fun _ _ => False) fs := by
      cases op with
      | add c inode => exact holds_add H c inode
      | remove v c => exact holds_remove H v c
    refine wp_mono hstep ?_ fun _ _ hf => hf
    rintro h' fs' ⟨N', H'⟩
    exact ih H'

end Holds

/-- **A directory is a finite map.**  After any sequence of additions and removals in a directory that was
empty, `find_entry` finds a name if it has been added and not removed since, with the inode of the last
addition; the size counts the slots that have been used, and all of them are inside. -/
theorem directory_is_map (ops : List Op) (h : Empty d fs) :
    wp (perform d ops ⟨fun _ => none, ∅⟩) (fun past fs' =>
      (∀ (v : View) (c : Component), Plain v d c →
        wp (find_entry v d c.bytes.length (bytes c)) (fun r fs'' => r.1 = d ∧
          r.2.map (fun e => entry_inode fs'' e.1 e.2) = past.names c.padded) (fun _ _ => False) fs') ∧
      (fs'.inode d).i_size = 16 * past.slots.card ∧
      ∀ e ∈ past.slots, ∃ i, 16 * i < (fs'.inode d).i_size ∧ e = (entry_block fs' d i, i % 64))
      (fun _ _ => False) fs := by
  refine wp_mono (holds_perform h.holds ops) ?_ fun _ _ hf => hf
  rintro past fs' ⟨N, H⟩
  refine ⟨fun v c hplain => ?_, ?_, fun e he => ?_⟩
  · obtain ⟨r, fs'', hfind, hcases⟩ := H.finds hplain
    rw [wp_of_ok hfind]
    refine ⟨rfl, ?_⟩
    rcases hcases with ⟨i, hi, hval, hv, -, rfl, rfl⟩ | ⟨hnone, rfl, rfl⟩
    · rw [← hval, slot_val]
      rw [slot_val] at hv
      split_ifs at hv ⊢ with hzero
      · exact absurd rfl hv
      · rfl
    · exact hnone.symm
  · rw [H.size, H.slots, Finset.card_image_of_injOn, Finset.card_range]
    intro i hi j hj heq
    have hi' := Finset.mem_range.1 (Finset.mem_coe.1 hi)
    have hj' := Finset.mem_range.1 (Finset.mem_coe.1 hj)
    have hsmall := H.solid.small
    have hblock : entry_block fs' d i = entry_block fs' d j := congrArg Prod.fst heq
    have hmod : i % 64 = j % 64 := congrArg Prod.snd heq
    have hplace := (H.sound.unique d _ d _ rfl rfl (blockPlace_spec (show _ < MAX_BLOCKS by omega)).1
      (blockPlace_spec (show _ < MAX_BLOCKS by omega)).1 (H.solid.block i hi') hblock).2
    have hdiv := blockPlace_inj hplace
    omega
  · rw [H.slots, Finset.mem_image] at he
    obtain ⟨i, hi, rfl⟩ := he
    refine ⟨i, ?_, rfl⟩
    rw [H.size]
    have hlt := Finset.mem_range.1 hi
    omega

/-- An empty directory with the block 5. -/
def new_dir : Fs where
  sb := ⟨100, 100, 1, 1, 5⟩
  imap := fun _ => true
  zmap := fun j => j < 10
  inode := fun _ => ⟨I_DIRECTORY, 2, 0, fun k => if k = 0 then 5 else 0, 1⟩
  b_data := fun _ _ => 0
  b_count := fun _ => 0
  unused := 32
  unreadable := fun _ => false

theorem new_dir_block {p : Place} (hp : p.Valid) : new_dir.block 2 p = if p = (0, []) then 5 else 0 := by
  obtain ⟨k, m⟩ := p
  cases m with
  | nil =>
    show (if k = 0 then 5 else 0) = _
    by_cases hk : k = 0
    · rw [if_pos hk, hk, if_pos rfl]
    · rw [if_neg hk, if_neg fun h => hk (congrArg Prod.fst h)]
  | cons i m =>
    have hk : k ≠ 0 := by
      rintro rfl
      exact absurd hp.length (by simp [depth])
    have hzone : (new_dir.inode 2).i_zone k = 0 := if_neg hk
    rw [if_neg fun h => hk (congrArg Prod.fst h), Fs.block, follow, if_pos hzone]

theorem new_dir_empty : Empty 2 new_dir where
  sound := by
    refine ⟨by decide, by decide, by decide, ?_, ?_, fun z _ _ => rfl⟩
    · rintro nr p rfl hp h
      rw [new_dir_block hp] at h ⊢
      split_ifs at h ⊢
      · exact ⟨⟨by decide, by decide⟩, by decide⟩
      · exact absurd rfl h
    · rintro nr p nr' p' rfl rfl hp hp' h heq
      rw [new_dir_block hp] at h heq
      rw [new_dir_block hp'] at heq
      split_ifs at h heq with h1 h2
      · exact ⟨rfl, h1.trans h2.symm⟩
      · exact absurd rfl h
  readable := rfl
  zone := by decide
  size := rfl
  i_count := by decide
  i_nlinks := by decide

def dot : Component := ⟨[46], Directory.Dir.dot.nonempty, Directory.Dir.dot.noNul⟩

def dot_dot : Component := ⟨[46, 46], Directory.Dir.dotdot.nonempty, Directory.Dir.dotdot.noNul⟩

/-- A process in the directory 2, which is its root. -/
def rooted_view : View := ⟨2, 2, 0, 0, fun _ => 0, fun _ => 0, some 1⟩

/-- `.` and `..` are added, and `.` is taken out again. -/
theorem directory_is_map_new :
    wp (perform 2 [.add dot 2, .add dot_dot 1, .remove rooted_view dot] ⟨fun _ => none, ∅⟩)
    (fun past fs' => (∀ (v : View) (c : Component), Plain v 2 c →
        wp (find_entry v 2 c.bytes.length (bytes c)) (fun r fs'' => r.1 = 2 ∧
          r.2.map (fun e => entry_inode fs'' e.1 e.2) = past.names c.padded) (fun _ _ => False) fs') ∧
      (fs'.inode 2).i_size = 16 * past.slots.card ∧
      ∀ e ∈ past.slots, ∃ i, 16 * i < (fs'.inode 2).i_size ∧ e = (entry_block fs' 2 i, i % 64))
    (fun _ _ => False) new_dir :=
  directory_is_map [.add dot 2, .add dot_dot 1, .remove rooted_view dot] new_dir_empty

/-- `..` has been added, but it is not found in the root of a process: it stands for `.` there. -/
theorem dotdot_hidden_at_root : wp (perform 2 [.add dot_dot 1] ⟨fun _ => none, ∅⟩) (fun past fs' =>
    past.names dot_dot.padded = some 1 ∧ wp (find_entry rooted_view 2 dot_dot.bytes.length (bytes dot_dot))
      (fun r _ => r.2 = none) (fun _ _ => False) fs') (fun _ _ => False) new_dir := by
  decide

end OldLinux.Namei
