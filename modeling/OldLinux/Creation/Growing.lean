import OldLinux.Creation.Blocks
import Mathlib.Data.Finset.Card

/-!
# `create_block`

Each step of `create_block` finds the block in its place or enters a new one there, so that a directory
only grows.  It never comes to an end of the places: a device has fewer blocks than a directory has places
for them.
-/

namespace OldLinux.Creation

open Function Lib Lib.BlockTree

variable {T : ℕ → Prop} {fs fs' fs'' : Fs} {d nr k i z b n ind : ℕ} {m : List ℕ}

/-! ### A new block in its place -/

/-- It is in none of the places. -/
theorem Sound.fresh (S : Sound T fs) (hd : T d) (hz : fs.InZone z) (hunused : fs.used z = false)
    {data : ℕ → ℕ → ℕ} (hclear : data z = fun _ => 0) : Fresh (fs.inode d).i_zone fs.b_data data z := by
  have hz0 : z ≠ 0 := by
    have h1 := hz.1
    have h2 := S.first
    omega
  refine ⟨hz0, fun p hp h => ?_, hclear⟩
  have hblock : fs.block d p = z := h
  exact S.ne_new hunused hd hp (hblock ▸ hz0) hblock

/-- A zone of `d` gets a new block. -/
theorem attached_zone (S : Sound T fs) (hempty : (fs.inode d).i_zone k = 0)
    (hz : fs.InZone z) (hunused : fs.used z = false) :
    Attached T d (k, []) z fs ((fs.alloc z).set_inode d ((fs.inode d).set_zone k z)) := by
  have hother : ∀ {nr p}, T nr → p.Valid → fs.block nr p ≠ 0 →
      update fs.b_data z (fun _ => 0) (fs.block nr p) = fs.b_data (fs.block nr p) :=
    fun hT hp h => update_of_ne (S.ne_new hunused hT hp h) ..
  refine ⟨rfl, rfl, rfl, fun nr p hT hp => ?_, fun nr p hT hp _ h => hother hT hp h,
    update_self ..⟩
  show tree_at (update fs.inode d ((fs.inode d).set_zone k z) nr).i_zone (update fs.b_data z fun _ => 0) p = _
  by_cases hnr : nr = d
  · subst hnr
    rw [update_self]
    have hat := tree_at_zone (S.fresh hT hz hunused (update_self ..)) hempty (fun q hq h => hother hT hq h) hp
    simp only [true_and]
    exact hat
  · rw [update_of_ne hnr, if_neg fun h => hnr h.1]
    exact tree_at_congr (fun _ => rfl) (fun q hq h => hother hT hq h) hp

/-- A word of an indirect block of `d` gets a new block. -/
theorem attached_word (S : Sound T fs) (hd : T d) (hm : Place.Valid (k, m ++ [i]))
    (hind : fs.block d (k, m) = ind) (hne : ind ≠ 0) (hempty : fs.b_data ind i = 0)
    (hz : fs.InZone z) (hunused : fs.used z = false) :
    Attached T d (k, m ++ [i]) z fs ((fs.alloc z).set_word ind i z) := by
  have hvalid := Place.Valid.init hm
  have hindz : ind ≠ z := by
    rw [← hind] at hne ⊢
    exact S.ne_new hunused hd hvalid hne
  have hword : (fs.alloc z).b_data ind = fs.b_data ind := update_of_ne hindz ..
  rw [Fs.set_word, hword]
  generalize hdata : update (fs.alloc z).b_data ind (update (fs.b_data ind) i z) = data
  have hother : ∀ {nr p}, T nr → p.Valid → fs.block nr p ≠ 0 → fs.block nr p ≠ ind →
      data (fs.block nr p) = fs.b_data (fs.block nr p) := by
    intro nr p hT hp h hp'
    rw [← hdata, update_of_ne hp']
    exact update_of_ne (S.ne_new hunused hT hp h) ..
  have hclear : data z = fun _ => 0 := by
    rw [← hdata, update_of_ne (Ne.symm hindz)]
    exact update_self ..
  have hplace : ∀ {nr p}, T nr → p.Valid → fs.block nr p ≠ 0 → fs.block nr p = ind → nr = d ∧ p = (k, m) :=
    fun hT hp h heq => S.unique _ _ d (k, m) hT hd hp hvalid h (heq.trans hind.symm)
  refine ⟨rfl, rfl, rfl, fun nr p hT hp => ?_, fun nr p hT hp hfull h => ?_, hclear⟩
  · show tree_at (fs.inode nr).i_zone data p = _
    by_cases hnr : nr = d
    · subst hnr
      have honce : OncePerPlace (fs.inode nr).i_zone fs.b_data :=
        fun p q hp hq h heq => (S.unique nr p nr q hT hT hp hq h heq).2
      have hat := tree_at_word (S.fresh hT hz hunused hclear) honce hm hind hne hempty
        (by rw [← hdata, update_self]) (fun q hq h h' => hother hT hq h h') hp
      simp only [true_and]
      exact hat
    · rw [if_neg fun h => hnr h.1]
      exact tree_at_congr (fun _ => rfl) (fun q hq h => hother hT hq h fun h' => hnr (hplace hT hq h h').1) hp
  · refine hother hT hp h fun heq => ?_
    obtain ⟨-, rfl⟩ := hplace hT hp h heq
    exact not_full_of_concat hm hfull

/-! ### Buffers -/

/-- One reference to the buffer of a block more. -/
def held (c : ℕ → ℕ) (z : ℕ) : ℕ → ℕ := update c z (c z + 1)

theorem held_self (c : ℕ → ℕ) (z : ℕ) : held c z z = c z + 1 := update_self ..

theorem held_release (c : ℕ → ℕ) (z : ℕ) : update (held c z) z (held c z z - 1) = c := by
  rw [held, update_idem, update_self, Nat.add_sub_cancel, update_eq_self]

theorem wp_bread {Q : Bool → Fs → Prop} {E : Trap → Fs → Prop}
    (hfail : fs.unreadable 0 = true → Q false { fs with unreadable := fun n => fs.unreadable (n + 1) })
    (hok : fs.unreadable 0 = false → Q true
      { fs with unreadable := fun n => fs.unreadable (n + 1), b_count := held fs.b_count z }) :
    wp (bread z) Q E fs := by
  rw [bread, wp_bind, wp_get, wp_bind, wp_modify, wp_ite]
  refine ⟨fun h => hfail h, fun h => ?_⟩
  rw [wp_bind, wp_modify, wp_pure]
  exact hok (by simpa using h)

theorem wp_brelse {Q : Unit → Fs → Prop} {E : Trap → Fs → Prop} {c : ℕ → ℕ} (hc : fs.b_count = held c z)
    (hQ : Q () { fs with b_count := c }) : wp (brelse z) Q E fs := by
  rw [brelse, wp_bind, wp_get, wp_ite]
  refine ⟨fun h => ?_, fun _ => ?_⟩
  · rw [hc, held_self] at h
    cases h
  · rw [wp_modify, hc, held_release]
    exact hQ

/-- The buffers play no part in the trees. -/
theorem same_buffers (T : ℕ → Prop) (fs : Fs) (c : ℕ → ℕ) (u : ℕ → Bool) :
    SameTrees T fs { fs with b_count := c, unreadable := u } := ⟨rfl, fun _ _ => rfl, fun _ _ _ _ _ => rfl⟩

theorem Sound.hold (S : Sound T fs) {p : Place} (hT : T nr) (hp : p.Valid)
    (h : fs.block nr p ≠ 0) (u : ℕ → Bool) :
    Sound T { fs with unreadable := u, b_count := held fs.b_count (fs.block nr p) } := by
  refine (same_buffers T fs _ u).sound S S.reserved (fun _ _ h => h) fun z hz hfree => ?_
  have hne : z ≠ fs.block nr p := by
    rintro rfl
    rw [show Fs.used { fs with unreadable := u, b_count := held fs.b_count (fs.block nr p) } _ = _ from
      (S.inside nr p hT hp h).2] at hfree
    cases hfree
  show held fs.b_count (fs.block nr p) z = 0
  rw [held, update_of_ne hne]
  exact S.idle z hz hfree

/-! ### A directory grows -/

/-- Outside of the trees nothing has changed. -/
structure Rest (d : ℕ) (fs fs' : Fs) : Prop where
  imap : fs'.imap = fs.imap
  unused : fs'.unused = fs.unused
  b_count : fs'.b_count = fs.b_count
  inode : ∀ nr, nr ≠ d → fs'.inode nr = fs.inode nr
  parent : ∃ zone, fs'.inode d = { fs.inode d with i_zone := zone }

theorem Rest.refl (d : ℕ) (fs : Fs) : Rest d fs fs := ⟨rfl, rfl, rfl, fun _ _ => rfl, _, rfl⟩

theorem Rest.trans (h : Rest d fs fs') (h' : Rest d fs' fs'') : Rest d fs fs'' := by
  obtain ⟨zone, hzone⟩ := h.parent
  obtain ⟨zone', hzone'⟩ := h'.parent
  exact ⟨h'.imap.trans h.imap, h'.unused.trans h.unused, h'.b_count.trans h.b_count,
    fun nr hnr => (h'.inode nr hnr).trans (h.inode nr hnr), zone', by rw [hzone', hzone]⟩

structure Grown (T : ℕ → Prop) (d : ℕ) (fs fs' : Fs) : Prop where
  sound : Sound T fs'
  grows : Grows T d fs fs'
  rest : Rest d fs fs'

theorem Grown.refl (S : Sound T fs) (d : ℕ) : Grown T d fs fs := ⟨S, Grows.refl T d fs, Rest.refl d fs⟩

theorem Grown.trans (hd : T d) (S : Sound T fs) (h : Grown T d fs fs') (h' : Grown T d fs' fs'') :
    Grown T d fs fs'' :=
  ⟨h'.sound, h.grows.trans hd S.first h'.grows, h.rest.trans h'.rest⟩

/-- A block could not be read. -/
theorem Grown.unread (S : Sound T fs) (d : ℕ) (u : ℕ → Bool) : Grown T d fs { fs with unreadable := u } :=
  have h := same_buffers T fs fs.b_count u
  ⟨h.sound S S.reserved (fun _ _ h => h) S.idle, h.grows fun _ _ => rfl, rfl, rfl, rfl, fun _ _ => rfl, _, rfl⟩

/-- There is no block left; the bits behind the last block do not count. -/
theorem Grown.full (S : Sound T fs) (d : ℕ) {zmap : ℕ → Bool} (hzero : zmap 0 = true)
    (hused : ∀ z, fs.InZone z → ({ fs with zmap := zmap } : Fs).used z = fs.used z) :
    Grown T d fs { fs with zmap := zmap } := by
  have h : SameTrees T fs { fs with zmap := zmap } := ⟨rfl, fun _ _ => rfl, fun _ _ _ _ _ => rfl⟩
  refine ⟨h.sound S hzero (fun z hz hset => ?_) (fun z hz hfree => ?_), h.grows hused, rfl, rfl, rfl,
    fun _ _ => rfl, _, rfl⟩
  · rw [hused z hz, hset]
  · rw [hused z hz] at hfree
    exact S.idle z hz hfree

/-- A buffer that was held meanwhile has been released. -/
theorem Grown.release {u : ℕ → Bool} {c : ℕ → ℕ} (S : Sound T fs)
    (h : Grown T d { fs with unreadable := u, b_count := c } fs') :
    Grown T d fs { fs' with b_count := fs.b_count } := by
  have hafter := same_buffers T fs' fs.b_count fs'.unreadable
  refine ⟨hafter.sound h.sound h.sound.reserved (fun _ _ h => h) fun z hz hfree => ?_, ?_,
    h.rest.imap, h.rest.unused, rfl, h.rest.inode, h.rest.parent⟩
  · have hz' : fs.InZone z := h.grows.in_zone.1 hz
    refine S.idle z hz' ?_
    rcases h.grows.used z hz' with heq | ⟨hold, -⟩
    · exact heq.symm.trans hfree
    · exact hold
  · refine { h.grows with }

theorem wp_create_zone (S : Sound T fs) (hd : T d) (hk : k < 9) :
    wp (create_zone d k) (fun r fs' => Grown T d fs fs' ∧ fs'.block d (k, []) = r) (fun _ _ => False)
      fs := by
  have hvalid : Place.Valid (k, []) := ⟨hk, Nat.zero_le _, fun i hi => by cases hi⟩
  rw [create_zone, wp_bind, wp_get, wp_ite]
  refine ⟨fun hempty => ?_, fun _ => ?_⟩
  · rw [wp_bind]
    refine wp_new_block S (fun zmap hzero hused => ?_) fun z hz hunused => ?_
    · rw [wp_bind, wp_modify, wp_pure]
      have G := Grown.full S d hzero hused
      have hself : (fs.inode d).set_zone k 0 = fs.inode d := by
        rw [Inode.set_zone, ← hempty, update_eq_self]
      have hsame : Fs.set_inode { fs with zmap := zmap } d ((fs.inode d).set_zone k 0)
          = { fs with zmap := zmap } := by
        rw [hself, Fs.set_inode, update_eq_self]
      show Grown T d fs (Fs.set_inode { fs with zmap := zmap } d ((fs.inode d).set_zone k 0)) ∧ _
      rw [hsame]
      exact ⟨G, hempty⟩
    · rw [wp_bind, wp_modify, wp_pure]
      have A := attached_zone S hempty hz hunused
      refine ⟨⟨A.sound S hz hunused, A.grows hd hvalid hz hunused hempty, rfl, rfl, rfl, fun nr hnr => ?_, ?_⟩,
        ?_⟩
      · exact update_of_ne hnr ..
      · exact ⟨_, update_self ..⟩
      · exact (A.block d (k, []) hd hvalid).trans (if_pos ⟨rfl, rfl⟩)
  · rw [wp_pure]
    exact ⟨Grown.refl S d, rfl⟩

theorem wp_word_block (S : Sound T fs) (hd : T d) (hm : Place.Valid (k, m ++ [i]))
    (hind : fs.block d (k, m) = ind) (hne : ind ≠ 0) :
    wp (word_block ind i) (fun r fs' => Grown T d fs fs' ∧ (r ≠ 0 → fs'.block d (k, m ++ [i]) = r))
      (fun _ _ => False) fs := by
  have hblock : fs.block d (k, m ++ [i]) = fs.b_data ind i := by rw [block_concat, hind, if_neg hne]
  rw [word_block, wp_bind, wp_get, wp_ite]
  refine ⟨fun hempty => ?_, fun _ => ?_⟩
  · rw [wp_bind]
    refine wp_new_block S (fun zmap hzero hused => ?_) fun z hz hunused => ?_
    · rw [if_pos rfl, wp_pure]
      exact ⟨Grown.full S d hzero hused, fun h => absurd rfl h⟩
    · have hz0 : z ≠ 0 := by
        have h1 := hz.1
        have h2 := S.first
        omega
      rw [if_neg hz0, wp_bind, wp_modify, wp_pure]
      have A := attached_word S hd hm hind hne hempty hz hunused
      exact ⟨⟨A.sound S hz hunused, A.grows hd hm hz hunused (hblock.trans hempty), rfl, rfl, rfl,
        fun _ _ => rfl, _, rfl⟩, fun _ => (A.block d _ hd hm).trans (if_pos ⟨rfl, rfl⟩)⟩
  · rw [wp_pure]
    exact ⟨Grown.refl S d, fun _ => hblock⟩

theorem wp_create_word (S : Sound T fs) (hd : T d) (hm : Place.Valid (k, m ++ [i]))
    (hind : fs.block d (k, m) = ind) (hne : ind ≠ 0) :
    wp (create_word ind i) (fun r fs' => Grown T d fs fs' ∧ (r ≠ 0 → fs'.block d (k, m ++ [i]) = r))
      (fun _ _ => False) fs := by
  have hvalid := Place.Valid.init hm
  rw [create_word, wp_bind]
  refine wp_bread (fun _ => ?_) fun _ => ?_
  · rw [if_neg Bool.false_ne_true, wp_pure]
    exact ⟨Grown.unread S d _, fun h => absurd rfl h⟩
  · rw [if_pos rfl, wp_bind]
    have Sheld := S.hold hd hvalid (by rwa [hind]) fun n => fs.unreadable (n + 1)
    rw [hind] at Sheld
    refine wp_mono (wp_word_block Sheld hd hm hind hne) ?_ fun _ _ h => h
    rintro r fs' ⟨G, hr⟩
    rw [wp_bind]
    refine wp_brelse G.rest.b_count ?_
    rw [wp_pure]
    exact ⟨G.release S, hr⟩

/-! ### `create_block` -/

theorem wp_create_block (S : Sound T fs) (hd : T d) (hb : b < MAX_BLOCKS) :
    wp (create_block d b) (fun r fs' => Grown T d fs fs' ∧ (r ≠ 0 → fs'.block d (blockPlace b) = r))
      (fun _ _ => False) fs := by
  have hvalid := (blockPlace_spec hb).1
  rw [create_block, if_neg (Nat.not_le.2 hb)]
  rw [blockPlace] at hvalid ⊢
  split_ifs at hvalid ⊢ with h1 h2
  · exact wp_mono (wp_create_zone S hd (by omega)) (fun _ _ h => ⟨h.1, fun _ => h.2⟩) fun _ _ h => h
  · rw [wp_bind]
    refine wp_mono (wp_create_zone S hd (by decide)) ?_ fun _ _ h => h
    rintro ind fs1 ⟨G1, hind⟩
    rw [wp_ite]
    refine ⟨fun _ => ⟨G1, fun h => absurd rfl h⟩, fun hne => ?_⟩
    refine wp_mono (wp_create_word G1.sound hd (m := []) hvalid hind hne) ?_ fun _ _ h => h
    rintro r fs2 ⟨G2, hr⟩
    exact ⟨G1.trans hd S G2, hr⟩
  · rw [wp_bind]
    refine wp_mono (wp_create_zone S hd (by decide)) ?_ fun _ _ h => h
    rintro dind fs1 ⟨G1, hdind⟩
    rw [wp_ite]
    refine ⟨fun _ => ⟨G1, fun h => absurd rfl h⟩, fun hne => ?_⟩
    rw [wp_bind]
    have hfirst : Place.Valid (8, [] ++ [(b - 519) / 512]) :=
      Place.Valid.init (m := [(b - 519) / 512]) (i := (b - 519) % 512) hvalid
    refine wp_mono (wp_create_word G1.sound hd hfirst hdind hne) ?_ fun _ _ h => h
    rintro ind fs2 ⟨G2, hind⟩
    have G := G1.trans hd S G2
    rw [wp_ite]
    refine ⟨fun _ => ⟨G, fun h => absurd rfl h⟩, fun hne' => ?_⟩
    refine wp_mono (wp_create_word G2.sound hd (m := [(b - 519) / 512]) hvalid (hind hne') hne') ?_ fun _ _ h =>
      h
    rintro r fs3 ⟨G3, hr⟩
    exact ⟨G.trans hd S G3, hr⟩

/-! ### `add_entry` -/

/-- A device has not enough blocks for all places of a directory. -/
theorem Sound.not_all (S : Sound T fs) (hd : T d) : ¬∀ b < MAX_BLOCKS, fs.block d (blockPlace b) ≠ 0 := by
  intro hall
  have hbig : ∀ b ∈ Finset.range 65536, b < MAX_BLOCKS := by
    intro b hb
    rw [Finset.mem_range] at hb
    rw [MAX_BLOCKS]
    omega
  have hle := Finset.card_le_card_of_injOn (s := Finset.range 65536) (t := Finset.range 65535)
    (fun b => fs.block d (blockPlace b)) (fun b hb => ?_) fun b hb b' hb' heq => ?_
  · rw [Finset.card_range, Finset.card_range] at hle
    omega
  · have hin := (S.inside d _ hd (blockPlace_spec (hbig b hb)).1 (hall b (hbig b hb))).1.2
    have hlt := S.nzones
    exact Finset.mem_coe.2 (Finset.mem_range.2 (Nat.lt_of_lt_of_le hin hlt))
  · exact blockPlace_inj (S.unique d _ d _ hd hd (blockPlace_spec (hbig b hb)).1
      (blockPlace_spec (hbig b' hb')).1 (hall b (hbig b hb)) heq).2

end OldLinux.Creation
