import OldLinux.Creation.Growing
import OldLinux.Namei.Machine

/-!
# From one block of a directory to the next

While a directory is gone through, nothing is held but the buffer that is looked at, and the blocks before
it have been read: how many calls of `bread` there have been is known from its index.  So what comes next
is known from the state at the beginning.
-/

namespace OldLinux.Namei

open Function Lib Lib.BlockTree Creation

variable {α : Type} {fs : Fs} {nr b B ind i n k de : ℕ} {c : FsM α}

/-! ### Commands -/

theorem wp_call {Q : α → Fs → Prop} {E : Fault → Fs → Prop} :
    wp (call c) Q E fs ↔ wp c Q (fun t fs' => E (.trap t) fs') fs := wp_adaptExcept ..

theorem call_ok {a : α} {fs' : Fs} (h : c fs = .ok a fs') : call c fs = .ok a fs' := by
  show EStateM.adaptExcept _ c fs = _
  rw [EStateM.adaptExcept, h]

/-- The state after some calls of `bread`. -/
def past (k : ℕ) (fs : Fs) : Fs := { fs with unreadable := fun n => fs.unreadable (n + k) }

theorem past_past (j k : ℕ) (fs : Fs) : past j (past k fs) = past (j + k) fs := by
  rw [past, past, past]
  simp only [Nat.add_assoc]

theorem past_zero (fs : Fs) : past 0 fs = fs := rfl

/-- The buffer of a block is held. -/
def holding (B : ℕ) (fs : Fs) : Fs := { fs with b_count := held fs.b_count B }

theorem bread_ok (h : fs.unreadable 0 = false) : bread B fs = .ok true (holding B (past 1 fs)) := by
  refine eq_ok_of_wp (wp_bread (fun h' => ?_) fun _ => ⟨rfl, rfl⟩)
  rw [h] at h'
  cases h'

theorem bread_fails (h : fs.unreadable 0 = true) : bread B fs = .ok false (past 1 fs) := by
  refine eq_ok_of_wp (wp_bread (fun _ => ⟨rfl, rfl⟩) fun h' => ?_)
  rw [h] at h'
  cases h'

theorem brelse_ok : Creation.brelse B (holding B fs) = .ok () fs :=
  eq_ok_of_wp (wp_brelse rfl ⟨rfl, rfl⟩)

/-! ### `bmap` -/

theorem bmap_word_zero : bmap_word 0 i fs = .ok 0 fs := by
  rw [bmap_word, if_pos rfl]
  rfl

theorem bmap_word_fails (hind : ind ≠ 0) (h : fs.unreadable 0 = true) :
    bmap_word ind i fs = .ok 0 (past 1 fs) := by
  rw [bmap_word, if_neg hind]
  refine eq_ok_of_wp ?_
  rw [wp_bind, wp_of_ok (bread_fails h), if_neg Bool.false_ne_true]
  exact ⟨rfl, rfl⟩

theorem bmap_word_ok (hind : ind ≠ 0) (h : fs.unreadable 0 = false) :
    bmap_word ind i fs = .ok (fs.b_data ind i) (past 1 fs) := by
  rw [bmap_word, if_neg hind]
  refine eq_ok_of_wp ?_
  rw [wp_bind, wp_of_ok (bread_ok h), if_pos rfl, wp_bind, wp_get, wp_bind, wp_of_ok brelse_ok]
  exact ⟨rfl, rfl⟩

/-- The indirect blocks of the block with index `b` are there and can be read. -/
def Mapped (fs : Fs) (nr b : ℕ) : Prop :=
  fs.block nr (blockPlace b) ≠ 0 ∧ ∀ k < (blockPlace b).2.length, fs.unreadable k = false

theorem bmap_mapped (hb : b < MAX_BLOCKS) (h : Mapped fs nr b) :
    bmap nr b fs = .ok (fs.block nr (blockPlace b)) (past (blockPlace b).2.length fs) := by
  obtain ⟨hne, hread⟩ := h
  rw [bmap, if_neg (Nat.not_le.2 hb)]
  refine eq_ok_of_wp ?_
  rw [wp_bind, wp_get]
  rw [blockPlace] at hne hread ⊢
  split_ifs at hne hread ⊢ with h1 h2
  · exact ⟨rfl, rfl⟩
  · have hind : (fs.inode nr).i_zone 7 ≠ 0 := fun h0 => hne (by rw [Fs.block, h0, follow_zero])
    rw [wp_of_ok (bmap_word_ok hind (hread 0 Nat.one_pos))]
    refine ⟨?_, rfl⟩
    rw [Fs.block, follow, if_neg hind]
    rfl
  · have hind : (fs.inode nr).i_zone 8 ≠ 0 := fun h0 => hne (by rw [Fs.block, h0, follow_zero])
    have hblock : fs.block nr (8, [(b - 519) / 512, (b - 519) % 512]) = follow fs.b_data
        (fs.b_data ((fs.inode nr).i_zone 8) ((b - 519) / 512)) [(b - 519) % 512] := by
      rw [Fs.block, follow, if_neg hind]
    rw [hblock] at hne ⊢
    rw [wp_bind, wp_of_ok (bmap_word_ok hind (hread 0 Nat.two_pos))]
    generalize hz : fs.b_data ((fs.inode nr).i_zone 8) ((b - 519) / 512) = z at hne ⊢
    have hind' : z ≠ 0 := fun h0 => hne (by rw [h0, follow_zero])
    rw [wp_of_ok (bmap_word_ok hind' (hread 1 Nat.one_lt_two)), past_past]
    refine ⟨?_, rfl⟩
    rw [follow, if_neg hind']
    rfl

theorem bmap_unmapped (hb : b < MAX_BLOCKS) (h : ¬Mapped fs nr b) : ∃ k, bmap nr b fs = .ok 0 (past k fs) := by
  suffices hwp : wp (bmap nr b) (fun r fs' => r = 0 ∧ ∃ k, fs' = past k fs) (fun _ _ => False) fs by
    obtain ⟨r, fs', hr, rfl, k, rfl⟩ := returns_of_wp hwp
    exact ⟨k, hr⟩
  have hword : ∀ ind i k, (ind = 0 ∨ fs.unreadable k = true ∨ fs.b_data ind i = 0) →
      wp (bmap_word ind i) (fun r fs' => r = 0 ∧ ∃ k, fs' = past k fs) (fun _ _ => False) (past k fs) := by
    intro ind i k hfail
    by_cases hind : ind = 0
    · rw [hind, wp_of_ok bmap_word_zero]
      exact ⟨rfl, k, rfl⟩
    · by_cases hread : fs.unreadable k = true
      · rw [wp_of_ok (bmap_word_fails hind (by simpa [past] using hread)), past_past]
        exact ⟨rfl, _, rfl⟩
      · have hok : (past k fs).unreadable 0 = false := by simpa [past] using hread
        rw [wp_of_ok (bmap_word_ok hind hok), past_past]
        exact ⟨(hfail.resolve_left hind).resolve_left hread, _, rfl⟩
  rw [bmap, if_neg (Nat.not_le.2 hb), wp_bind, wp_get]
  rw [Mapped, blockPlace] at h
  split_ifs at h ⊢ with h1 h2
  · rw [wp_pure]
    refine ⟨?_, 0, (past_zero fs).symm⟩
    by_contra hne
    exact h ⟨hne, fun k hk => absurd hk (Nat.not_lt_zero k)⟩
  · refine hword _ _ 0 ?_
    by_contra hall
    rw [not_or, not_or] at hall
    refine h ⟨?_, fun k hk => ?_⟩
    · rw [Fs.block, follow, if_neg hall.1]
      exact hall.2.2
    · obtain rfl : k = 0 := Nat.lt_one_iff.1 hk
      simpa using hall.2.1
  · rw [wp_bind]
    by_cases hind : (fs.inode nr).i_zone 8 = 0
    · rw [hind, wp_of_ok bmap_word_zero]
      exact hword 0 _ 0 (.inl rfl)
    · by_cases hread : fs.unreadable 0 = true
      · rw [wp_of_ok (bmap_word_fails hind hread)]
        exact hword 0 _ 1 (.inl rfl)
      · rw [wp_of_ok (bmap_word_ok hind (by simpa using hread))]
        refine hword _ _ 1 ?_
        by_contra hall
        rw [not_or, not_or] at hall
        refine h ⟨?_, fun k hk => ?_⟩
        · rw [Fs.block, follow, if_neg hind, follow, if_neg hall.1]
          exact hall.2.2
        · have hk2 : k < 2 := hk
          obtain rfl | rfl : k = 0 ∨ k = 1 := by omega
          · simpa using hread
          · simpa using hall.2.1

/-! ### `create_block` -/

theorem create_zone_ok {z : ℕ} (hz : (fs.inode nr).i_zone k = z) (hne : z ≠ 0) :
    create_zone nr k fs = .ok z fs := by
  refine eq_ok_of_wp ?_
  rw [create_zone, wp_bind, wp_get, if_neg (hz ▸ hne), wp_pure]
  exact ⟨hz, rfl⟩

theorem create_word_ok (hread : fs.unreadable 0 = false) (hne : fs.b_data ind i ≠ 0) :
    create_word ind i fs = .ok (fs.b_data ind i) (past 1 fs) := by
  refine eq_ok_of_wp ?_
  rw [create_word, wp_bind, wp_of_ok (bread_ok hread), if_pos rfl, wp_bind, word_block, wp_bind, wp_get]
  rw [show (holding ind (past 1 fs)).b_data = fs.b_data from rfl, if_neg hne, wp_pure, wp_bind,
    wp_of_ok brelse_ok]
  exact ⟨rfl, rfl⟩

theorem create_mapped (hb : b < MAX_BLOCKS) (h : Mapped fs nr b) :
    create_block nr b fs = .ok (fs.block nr (blockPlace b)) (past (blockPlace b).2.length fs) := by
  obtain ⟨hne, hread⟩ := h
  rw [create_block, if_neg (Nat.not_le.2 hb)]
  refine eq_ok_of_wp ?_
  rw [blockPlace] at hne hread ⊢
  split_ifs at hne hread ⊢ with h1 h2
  · rw [wp_of_ok (create_zone_ok rfl hne)]
    exact ⟨rfl, rfl⟩
  · have hind : (fs.inode nr).i_zone 7 ≠ 0 := fun h0 => hne (by rw [Fs.block, h0, follow_zero])
    have hblock : fs.block nr (7, [b - 7]) = fs.b_data ((fs.inode nr).i_zone 7) (b - 7) := by
      rw [Fs.block, follow, if_neg hind]
      rfl
    rw [hblock] at hne ⊢
    rw [wp_bind, wp_of_ok (create_zone_ok rfl hind), if_neg hind,
      wp_of_ok (create_word_ok (hread 0 Nat.one_pos) hne)]
    exact ⟨rfl, rfl⟩
  · have hind : (fs.inode nr).i_zone 8 ≠ 0 := fun h0 => hne (by rw [Fs.block, h0, follow_zero])
    have hblock : fs.block nr (8, [(b - 519) / 512, (b - 519) % 512]) = follow fs.b_data
        (fs.b_data ((fs.inode nr).i_zone 8) ((b - 519) / 512)) [(b - 519) % 512] := by
      rw [Fs.block, follow, if_neg hind]
    have hword : fs.b_data ((fs.inode nr).i_zone 8) ((b - 519) / 512) ≠ 0 :=
      fun h0 => hne (by rw [hblock, h0, follow_zero])
    rw [hblock, follow, if_neg hword, follow] at hne ⊢
    rw [wp_bind, wp_of_ok (create_zone_ok rfl hind), if_neg hind, wp_bind,
      wp_of_ok (create_word_ok (hread 0 Nat.two_pos) hword), if_neg hword]
    have hread' : (past 1 fs).unreadable 0 = false := hread 1 Nat.one_lt_two
    rw [wp_of_ok (create_word_ok hread' hne), past_past]
    exact ⟨rfl, rfl⟩

/-- No bit is clear for a buffer that is in use, and the new block is empty. -/
theorem wp_new_block_any : wp new_block (fun r fs' => fs'.b_count = fs.b_count ∧
    (r ≠ 0 → fs.b_count r = 0 ∧ fs'.b_data r = fun _ => 0)) (fun _ _ => True) fs := by
  rw [new_block, wp_bind, wp_get]
  split
  · rw [wp_pure]
    exact ⟨rfl, fun h => absurd rfl h⟩
  · rw [wp_bind, wp_modify]
    dsimp only
    rw [wp_ite]
    refine ⟨fun _ => ⟨rfl, fun h => absurd rfl h⟩, fun _ => ?_⟩
    rw [wp_ite]
    refine ⟨fun _ => trivial, fun hcount => ?_⟩
    rw [wp_bind, wp_modify, wp_pure]
    exact ⟨rfl, fun _ => ⟨by omega, update_self ..⟩⟩

/-- The block that is found or created: one that was not there is empty. -/
def Obtained (fs : Fs) (old : Prop) (r : ℕ) (fs' : Fs) : Prop :=
  fs'.b_count = fs.b_count ∧ (r ≠ 0 → old ∨ fs'.b_data r = fun _ => 0)

theorem wp_create_zone_any : wp (create_zone nr k) (fun r fs' =>
    Obtained fs (r = (fs.inode nr).i_zone k ∧ fs' = fs) r fs') (fun _ _ => True) fs := by
  rw [create_zone, wp_bind, wp_get, wp_ite]
  refine ⟨fun _ => ?_, fun _ => ⟨rfl, fun _ => .inl ⟨rfl, rfl⟩⟩⟩
  rw [wp_bind]
  refine wp_mono wp_new_block_any (fun r fs' h => ?_) fun _ _ _ => trivial
  rw [wp_bind, wp_modify, wp_pure]
  exact ⟨h.1, fun hr => .inr (h.2 hr).2⟩

theorem wp_create_word_any : wp (create_word ind i) (fun r fs' =>
    Obtained fs (r = fs.b_data ind i ∧ fs.unreadable 0 = false ∧ fs' = past 1 fs) r fs')
    (fun _ _ => True) fs := by
  rw [create_word, wp_bind]
  by_cases hread : fs.unreadable 0 = true
  · rw [wp_of_ok (bread_fails hread), if_neg Bool.false_ne_true, wp_pure]
    exact ⟨rfl, fun h => absurd rfl h⟩
  · have hok : fs.unreadable 0 = false := by simpa using hread
    rw [wp_of_ok (bread_ok hok), if_pos rfl, wp_bind, word_block, wp_bind, wp_get, wp_ite]
    refine ⟨fun _ => ?_, fun _ => ?_⟩
    · rw [wp_bind]
      refine wp_mono wp_new_block_any (fun r fs' h => ?_) fun _ _ _ => trivial
      rw [wp_ite]
      have hrelease : ∀ fs1 : Fs, fs1.b_count = held fs.b_count ind →
          Creation.brelse ind fs1 = .ok () { fs1 with b_count := fs.b_count } := fun fs1 h1 =>
        eq_ok_of_wp (wp_brelse h1 ⟨rfl, rfl⟩)
      refine ⟨fun _ => ?_, fun hr => ?_⟩
      · rw [wp_pure, wp_bind, wp_of_ok (hrelease fs' h.1), wp_pure]
        exact ⟨rfl, fun h0 => absurd rfl h0⟩
      · rw [wp_bind, wp_modify, wp_pure, wp_bind, wp_of_ok (hrelease (fs'.set_word ind i r) h.1), wp_pure]
        obtain ⟨hfree, hclear⟩ := h.2 hr
        refine ⟨rfl, fun _ => .inr ?_⟩
        have hne : r ≠ ind := by
          rintro rfl
          rw [show (holding r (past 1 fs)).b_count r = fs.b_count r + 1 from held_self ..] at hfree
          cases hfree
        show update fs'.b_data ind _ r = _
        rw [update_of_ne hne, hclear]
    · rw [wp_pure, wp_bind, wp_of_ok brelse_ok]
      exact ⟨rfl, fun _ => .inl ⟨rfl, hok, rfl⟩⟩

theorem wp_create_block_any : wp (create_block nr b) (fun r fs' => Obtained fs (Mapped fs nr b) r fs')
    (fun _ _ => True) fs := by
  rw [create_block, wp_ite]
  refine ⟨fun _ => trivial, fun _ => ?_⟩
  rw [Mapped, blockPlace]
  split_ifs with h1 h2
  · refine wp_mono wp_create_zone_any (fun r fs' h => ⟨h.1, fun hr => ?_⟩) fun _ _ _ => trivial
    refine (h.2 hr).imp_left fun hold => ⟨?_, fun k hk => absurd hk (Nat.not_lt_zero k)⟩
    show (fs.inode nr).i_zone b ≠ 0
    rwa [← hold.1]
  · rw [wp_bind]
    refine wp_mono wp_create_zone_any (fun z fs1 hz => ?_) fun _ _ _ => trivial
    rw [wp_ite]
    refine ⟨fun _ => ⟨hz.1, fun h => absurd rfl h⟩, fun hne => ?_⟩
    refine wp_mono wp_create_word_any (fun r fs2 hr => ⟨hr.1.trans hz.1, fun hr0 => ?_⟩) fun _ _ _ => trivial
    rcases hr.2 hr0 with ⟨hword, hread, -⟩ | hclear
    · rcases hz.2 hne with ⟨hold, rfl⟩ | hclear
      · refine .inl ⟨?_, fun k hk => ?_⟩
        · rw [Fs.block, follow, ← hold, if_neg hne]
          show fs1.b_data z (b - 7) ≠ 0
          rwa [← hword]
        · obtain rfl : k = 0 := Nat.lt_one_iff.1 hk
          exact hread
      · rw [hclear] at hword
        exact absurd hword hr0
    · exact .inr hclear
  · rw [wp_bind]
    refine wp_mono wp_create_zone_any (fun z fs1 hz => ?_) fun _ _ _ => trivial
    rw [wp_ite]
    refine ⟨fun _ => ⟨hz.1, fun h => absurd rfl h⟩, fun hne => ?_⟩
    rw [wp_bind]
    refine wp_mono wp_create_word_any (fun y fs2 hy => ?_) fun _ _ _ => trivial
    rw [wp_ite]
    refine ⟨fun _ => ⟨hy.1.trans hz.1, fun h => absurd rfl h⟩, fun hne' => ?_⟩
    refine wp_mono wp_create_word_any (fun r fs3 hr => ⟨hr.1.trans (hy.1.trans hz.1), fun hr0 => ?_⟩)
      fun _ _ _ => trivial
    rcases hr.2 hr0 with ⟨hword, hread, -⟩ | hclear
    · rcases hy.2 hne' with ⟨hword', hread', rfl⟩ | hclear
      · rcases hz.2 hne with ⟨hold, rfl⟩ | hclear
        · refine .inl ⟨?_, fun k hk => ?_⟩
          · rw [Fs.block, follow, ← hold, if_neg hne, ← hword', follow, if_neg hne']
            show (past 1 fs1).b_data y ((b - 519) % 512) ≠ 0
            rwa [← hword]
          · have hk2 : k < 2 := hk
            obtain rfl | rfl : k = 0 ∨ k = 1 := by omega
            · exact hread'
            · exact hread
        · rw [hclear] at hword'
          exact absurd hword' hne'
      · rw [hclear] at hword
        exact absurd hword hr0
    · exact .inr hclear

/-! ### The next block -/

/-- The calls of `bread` before the block with index `b` is looked for. -/
def reads : ℕ → ℕ
  | 0 => 0
  | b + 1 => reads b + (blockPlace b).2.length + 1

/-- The block with index `b` is there when its turn comes, as far as the indirect blocks go. -/
def Found (fs : Fs) (nr b : ℕ) : Prop := Mapped (past (reads b) fs) nr b

/-- The same, and the block itself can be read. -/
structure Had (fs : Fs) (nr b : ℕ) : Prop where
  found : Found fs nr b
  read : fs.unreadable (reads b + (blockPlace b).2.length) = false

theorem Had.block_ne (h : Had fs nr b) : fs.block nr (blockPlace b) ≠ 0 := h.found.1

/-- The end of a block: its buffer is released. -/
theorem wp_next_entry {map : ℕ → FsM ℕ} {Q : Next → Fs → Prop} {E : Fault → Fs → Prop} (hde : ¬de < 64) :
    wp (next_entry map i (.held B) de) Q E (holding B fs) ↔
      wp (call (map (i / 64))) (fun block fs' => if block = 0 then Q .missing fs'
        else wp (call (bread block)) (fun ok fs'' => Q (if ok then .entry block 0 else .unread) fs'') E fs')
        E fs := by
  rw [next_entry, wp_bind, Bh.b_data, wp_pure, if_neg hde, wp_bind, Bh.brelse,
    wp_of_ok (call_ok brelse_ok), wp_bind]
  refine Iff.of_eq ?_
  congr 1
  funext block fs'
  split_ifs with h0
  · rfl
  · refine propext ?_
    rw [wp_bind]
    refine Iff.of_eq ?_
    congr 1
    funext ok fs''
    cases ok <;> rfl

theorem next_had (hb : b < MAX_BLOCKS) (h : Had fs nr b) :
    next_entry (bmap nr) (64 * b) (.held B) 64 (holding B (past (reads b) fs))
      = .ok (.entry (fs.block nr (blockPlace b)) 0)
        (holding (fs.block nr (blockPlace b)) (past (reads (b + 1)) fs)) := by
  have hblock : (past (reads b) fs).block nr (blockPlace b) = fs.block nr (blockPlace b) := rfl
  refine eq_ok_of_wp ?_
  rw [wp_next_entry (Nat.lt_irrefl 64), Nat.mul_div_cancel_left b (by decide),
    wp_of_ok (call_ok (bmap_mapped hb h.found)), hblock, if_neg h.block_ne, past_past]
  have hread : (past ((blockPlace b).2.length + reads b) fs).unreadable 0 = false := by
    have hr := h.read
    rw [Nat.add_comm] at hr
    simpa [past] using hr
  rw [wp_of_ok (call_ok (bread_ok hread)), past_past]
  refine ⟨rfl, ?_⟩
  rw [reads, Nat.add_comm 1, Nat.add_comm (reads b)]

theorem next_unread (hb : b < MAX_BLOCKS) (hfound : Found fs nr b) (h : ¬Had fs nr b) :
    ∃ k, next_entry (bmap nr) (64 * b) (.held B) 64 (holding B (past (reads b) fs)) =
    .ok .unread (past k fs) := by
  have hblock : (past (reads b) fs).block nr (blockPlace b) = fs.block nr (blockPlace b) := rfl
  have hne : fs.block nr (blockPlace b) ≠ 0 := hfound.1
  refine ⟨1 + ((blockPlace b).2.length + reads b), eq_ok_of_wp ?_⟩
  rw [wp_next_entry (Nat.lt_irrefl 64), Nat.mul_div_cancel_left b (by decide),
    wp_of_ok (call_ok (bmap_mapped hb hfound)), hblock, if_neg hne, past_past]
  have hread : (past ((blockPlace b).2.length + reads b) fs).unreadable 0 = true := by
    by_contra hr
    refine h ⟨hfound, ?_⟩
    rw [Nat.add_comm]
    simpa [past] using hr
  rw [wp_of_ok (call_ok (bread_fails hread)), past_past]
  exact ⟨rfl, rfl⟩

theorem next_missing (hb : b < MAX_BLOCKS) (h : ¬Found fs nr b) :
    ∃ k, next_entry (bmap nr) (64 * b) (.held B) 64 (holding B (past (reads b) fs)) =
    .ok .missing (past k fs) := by
  obtain ⟨k, hk⟩ := bmap_unmapped hb h
  refine ⟨k + reads b, eq_ok_of_wp ?_⟩
  rw [wp_next_entry (Nat.lt_irrefl 64), Nat.mul_div_cancel_left b (by decide), wp_of_ok (call_ok hk),
    if_pos rfl, past_past]
  exact ⟨rfl, rfl⟩

/-- There are no more blocks in a directory. -/
theorem next_big {Q : Next → Fs → Prop} (hb : ¬b < MAX_BLOCKS) :
    ¬wp (next_entry (bmap nr) (64 * b) (.held B) 64) Q (fun _ _ => False) (holding B fs) := by
  rw [wp_next_entry (Nat.lt_irrefl 64), Nat.mul_div_cancel_left b (by decide), wp_call, bmap,
    if_pos (Nat.not_lt.1 hb), wp_throw]
  exact not_false

/-! ### The entries of a block -/

theorem next_here {map : ℕ → FsM ℕ} (hde : de < 64) :
    next_entry map i (.held B) de fs = .ok (.entry B de) fs := by
  refine eq_ok_of_wp ?_
  rw [next_entry, wp_bind, Bh.b_data, wp_pure, if_pos hde]
  exact ⟨rfl, rfl⟩

/-- A loop that goes on with the next entry wherever `go` holds. -/
theorem wp_pass {loop : ℕ → ℕ → Bh → ℕ → NameiM α} {go : ℕ → ℕ → Prop} {Q : α → Fs → Prop}
    {E : Fault → Fs → Prop}
    (hstep : ∀ n i de, de < 64 → go i de →
      (wp (loop (n + 1) i (.held B) de) Q E fs ↔ wp (loop n (i + 1) (.held B) (de + 1)) Q E fs)) :
    ∀ k n i de, de + k ≤ 64 → (∀ j < k, go (i + j) (de + j)) →
      (wp (loop (n + k) i (.held B) de) Q E fs ↔ wp (loop n (i + k) (.held B) (de + k)) Q E fs) := by
  intro k
  induction k with
  | zero => intro n i de _ _; exact Iff.rfl
  | succ k ih =>
    intro n i de hle hgo
    have hrest := ih n (i + 1) (de + 1) (by omega) fun j hj => by
      have h := hgo (j + 1) (by omega)
      rwa [Nat.add_right_comm i, Nat.add_right_comm de]
    rw [show n + (k + 1) = (n + k) + 1 from rfl, hstep (n + k) i de (by omega) (hgo 0 (by omega)), hrest,
      Nat.add_right_comm i, Nat.add_right_comm de]
    exact Iff.rfl

end OldLinux.Namei
