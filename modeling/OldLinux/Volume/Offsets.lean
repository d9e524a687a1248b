import OldLinux.Volume.CreateBlock
import OldLinux.Volume.Modes
import OldLinux.Volume.ReadEnd

/-!
# The position in a file

`sys_lseek` bounds a position only from below, and `_bmap` stops the kernel behind the last block that a
file can have.  Which reads and writes do not get there.
-/

namespace OldLinux.Volume

open Function Lib Lib.BlockTree

variable {s t u : Kernel} {k : Key} {p q v : Process} {f inode n left buf b dev : ℕ} {block pos count : ℤ}
variable {sb : SuperBlock} {create : Bool} {F : Stop → Prop}

/-! ### What the calls keep -/

theorem set_file_self (p : Process) (f : ℕ) (file : File) : (p.set_file f file).file_table f = file :=
  update_self ..

theorem set_file_of_ne {g : ℕ} (p : Process) (file : File) (h : g ≠ f) :
    (p.set_file f file).file_table g = p.file_table g := update_of_ne h ..

/-- Nothing but the position of this file has changed of what decides where the calls go. -/
structure Kept (f : ℕ) (p q : Process) : Prop where
  filp : q.filp = p.filp
  f_inode : ∀ g, (q.file_table g).f_inode = (p.file_table g).f_inode
  others : ∀ g, g ≠ f → (q.file_table g).f_pos = (p.file_table g).f_pos
  modes : Modes p.kernel q.kernel

theorem Kept.refl (f : ℕ) (p : Process) : Kept f p p := ⟨rfl, fun _ => rfl, fun _ _ => rfl, Modes.refl _⟩

theorem Kept.set_kernel (h : Kept f p q) (hm : Modes q.kernel s) : Kept f p (q.set_kernel s) :=
  ⟨h.filp, h.f_inode, h.others, h.modes.trans hm⟩

theorem Kept.set_inode (h : Kept f p q) {x : Inode} (hmode : x.i_mode = (q.kernel.inode_table inode).i_mode)
    (hpipe : x.i_pipe = (q.kernel.inode_table inode).i_pipe) :
    Kept f p (q.set_kernel (q.kernel.set_inode inode x)) :=
  h.set_kernel ((Modes.refl _).set_inode hmode hpipe)

theorem Kept.set_pos (h : Kept f p q) (pos : ℤ) :
    Kept f p (q.set_file f { q.file_table f with f_pos := pos }) := by
  refine ⟨h.filp, fun g => ?_, fun g hg => ?_, h.modes⟩
  · by_cases hg : g = f
    · rw [hg, set_file_self]
      exact h.f_inode f
    · rw [set_file_of_ne _ _ hg]
      exact h.f_inode g
  · rw [set_file_of_ne _ _ hg]
    exact h.others g hg

theorem kept_volume {α : Type} {c : VolumeM α} (hc : ∀ u, LeavesOr (Modes u) F c) :
    LeavesOr (Kept f p) F (volume c) := by
  intro q hq
  rw [wp_volume]
  exact wp_mono (hc q.kernel q.kernel (Modes.refl _)) (fun _ s hs => hq.set_kernel hs) fun _ _ h => h

/-- It may stop in any way. -/
abbrev Any : Stop → Prop := fun _ => True

theorem kept_map_block : LeavesOr (Kept f p) Any (map_block inode block create) :=
  LeavesOr.bind (LeavesOr.modify fun _ hq => ⟨hq.filp, hq.f_inode, hq.others, hq.modes⟩) fun _ =>
    kept_volume fun _ => leaves_bmap.weaken fun _ _ => trivial

theorem kept_put_bytes (data : ℕ → ℕ) (n i buf : ℕ) : LeavesOr (Kept f p) F (put_bytes data n i buf) := by
  induction n generalizing i buf with
  | zero => exact LeavesOr.pure _
  | succ n ih =>
    exact LeavesOr.bind (LeavesOr.modify fun _ hq => ⟨hq.filp, hq.f_inode, hq.others, hq.modes⟩)
      fun _ => ih (i + 1) (buf + 1)

theorem kept_block {α : Type} {c : VolumeM α} (hc : ∀ u, LeavesOr (Modes u) NotBmap c) :
    LeavesOr (Kept f p) Any (volume c) := kept_volume fun u => (hc u).weaken fun _ _ => trivial

theorem kept_read_loop (n left buf : ℕ) : LeavesOr (Kept f p) Any (read_loop f inode n left buf) := by
  induction n generalizing left buf with
  | zero => exact LeavesOr.pure _
  | succ n ih =>
    refine LeavesOr.ite (fun _ => LeavesOr.pure _) fun _ => LeavesOr.look fun q _ => ?_
    refine LeavesOr.bind kept_map_block fun block => ?_
    refine LeavesOr.bind (LeavesOr.ite (fun _ => kept_block fun _ => leaves_bread) fun _ => LeavesOr.pure _)
      fun ok => ?_
    refine LeavesOr.ite (fun _ => LeavesOr.pure _) fun _ => ?_
    refine LeavesOr.bind (LeavesOr.modify fun q hq => hq.set_pos _) fun _ => ?_
    refine LeavesOr.bind (LeavesOr.ite (fun _ => ?_) fun _ => kept_put_bytes _ _ _ _) fun _ => ih _ _
    refine LeavesOr.ite (fun _ => LeavesOr.throw trivial) fun _ => ?_
    exact LeavesOr.bind (kept_block fun _ => leaves_the_buffer) fun b =>
      LeavesOr.bind (kept_put_bytes _ _ _ _) fun _ => kept_block fun _ => leaves_brelse

theorem kept_file_read : LeavesOr (Kept f p) Any (file_read inode f buf count) :=
  LeavesOr.ite (fun _ => LeavesOr.pure _) fun _ =>
    LeavesOr.bind (kept_read_loop _ _ _) fun _ =>
      LeavesOr.bind (LeavesOr.modify fun _ hq => hq.set_inode rfl rfl) fun _ => LeavesOr.pure _

theorem kept_write_loop (count n i : ℕ) (pos : ℤ) (buf : ℕ) :
    LeavesOr (Kept f p) Any (write_loop inode count n i pos buf) := by
  induction n generalizing i pos buf with
  | zero => exact LeavesOr.pure _
  | succ n ih =>
    refine LeavesOr.ite (fun _ => LeavesOr.pure _) fun _ => LeavesOr.bind kept_map_block fun block => ?_
    refine LeavesOr.ite (fun _ => LeavesOr.pure _) fun _ => LeavesOr.look fun q _ => ?_
    refine LeavesOr.bind (kept_block fun _ => leaves_bread) fun ok => ?_
    refine LeavesOr.ite (fun _ => ?_) fun _ => LeavesOr.pure _
    refine LeavesOr.ite (fun _ => LeavesOr.throw trivial) fun _ => ?_
    refine LeavesOr.bind (kept_block fun _ => leaves_the_buffer) fun b => ?_
    refine LeavesOr.bind (LeavesOr.modify fun q hq => ?_) fun _ => ?_
    · dsimp only
      split_ifs
      · exact hq.set_inode rfl rfl
      · exact hq
    · refine LeavesOr.bind (LeavesOr.modify fun q hq => hq.set_kernel ⟨fun _ => rfl, fun _ => rfl⟩) fun _ => ?_
      exact LeavesOr.bind (kept_block fun _ => leaves_brelse) fun _ => ih _ _ _

theorem kept_file_write : LeavesOr (Kept f p) Any (file_write inode f buf count) := by
  refine LeavesOr.look fun q _ => LeavesOr.bind (kept_write_loop _ _ _ _ _) fun r => ?_
  refine LeavesOr.bind (LeavesOr.modify fun _ hq => hq.set_inode rfl rfl) fun _ => ?_
  refine LeavesOr.bind (LeavesOr.ite (fun _ => LeavesOr.pure _) fun _ => LeavesOr.modify fun q hq => ?_)
    fun _ => LeavesOr.pure _
  exact (hq.set_pos r.2).set_inode rfl rfl

/-! ### The pieces, in any state -/

/-- Reading gives the same. -/
structure Shows (s t : Kernel) : Prop where
  inode_table : t.inode_table = s.inode_table
  view : t.view = s.view
  coherent : Coherent t

theorem Still.shows (h : Still s t) : Shows s t := ⟨h.inode_table, h.view, h.coherent⟩

theorem Shows.trans (h : Shows s t) (h' : Shows t u) : Shows s u :=
  ⟨h'.inode_table.trans h.inode_table, h'.view.trans h.view, h'.coherent⟩

/-- The file has this block, but it cannot be read. -/
def Unreadable (s : Kernel) (inode b : ℕ) : Prop :=
  s.place inode (blockPlace b) ≠ 0 ∧ s.view ((s.inode_table inode).i_dev, s.place inode (blockPlace b)) = none

theorem Shows.unreadable (h : Shows s t) (hb : Unreadable s inode b) : Unreadable t inode b := by
  have hdata : t.data = s.data := by
    funext dev z
    rw [Kernel.data, Kernel.data, h.view]
  have hplace : t.place inode (blockPlace b) = s.place inode (blockPlace b) := by
    rw [Kernel.place, Kernel.place, hdata, h.inode_table]
  rw [Unreadable, hplace, h.view, h.inode_table]
  exact hb

theorem wp_bmap_any (hpos : 0 ≤ block) (hlt : block < MAX_BLOCKS) : wp (bmap inode block)
    (fun r t => Coherent s → Shows s t ∧ r = s.place inode (blockPlace block.toNat))
    (fun e _ => NotBmap e) s := by
  by_cases C : Coherent s
  · exact wp_mono (wp_bmap C hpos hlt) (fun r t h _ => ⟨h.2.1.shows, h.1⟩) fun _ _ h => h
  · exact wp_mono (leaves_bmap s (Modes.refl s)) (fun _ _ _ C' => absurd C' C) fun _ _ h => h hpos hlt

theorem wp_bread_any : wp (bread k) (fun r t => Coherent s → Still s t ∧ (s.view k = none → r = false) ∧
    (r = true → t.count = held s.count k ∧ ∃ d, t.info k = some (d, true))) (fun e _ => NotBmap e) s := by
  by_cases C : Coherent s
  · refine wp_bread C (fun t _ hstill _ _ => ⟨hstill, fun _ => rfl, nofun⟩) fun d t hd hstill hcount hinfo _ =>
      ?_
    refine ⟨hstill, fun hnone => ?_, fun _ => ⟨hcount, d, hinfo⟩⟩
    rw [hd] at hnone
    cases hnone
  · exact wp_mono (leaves_bread s (Modes.refl s)) (fun _ _ _ C' => absurd C' C) fun _ _ h => h

theorem wp_the_buffer_any : wp (the_buffer k) (fun b t => t = s ∧ s.buffer k = some b)
    (fun e _ => NotBmap e) s := by
  cases hb : s.buffer k with
  | none =>
    rw [the_buffer, wp_bind, wp_get, hb, wp_throw]
    decide
  | some b => exact wp_the_buffer hb ⟨rfl, rfl⟩

theorem wp_brelse_any : wp (brelse k)
    (fun _ t => Coherent s → Still s t ∧ ∀ c, s.count = held c k → t.count = c)
    (fun e _ => NotBmap e) s := by
  rw [brelse, wp_bind]
  refine wp_mono wp_the_buffer_any ?_ fun _ _ h => h
  rintro b t ⟨rfl, hb⟩
  rw [wp_ite, wp_throw, wp_modify]
  refine ⟨fun _ => by decide, fun _ C => ⟨Still.recount C hb _, fun c hc => ?_⟩⟩
  rw [set_buffer_count, ← count_of_buffer hb, hc, held_release]

/-! ### Reading -/

/-- The loop that reads comes to its end, or to a block that cannot be read, before the last block. -/
def ReadStops (s : Kernel) (inode : ℕ) (pos : ℤ) (left : ℕ) : Prop :=
  pos + left ≤ MAX_SIZE ∨ Coherent s ∧ ∃ b : ℕ, pos / 1024 ≤ b ∧ b < MAX_BLOCKS ∧ Unreadable s inode b

theorem ReadStops.lt {left : ℕ} (h : ReadStops s inode pos left) (hne : left ≠ 0) :
    pos / 1024 < MAX_BLOCKS := by
  rcases h with h | ⟨-, b, h1, h2, -⟩
  · rw [MAX_SIZE] at h
    omega
  · omega

/-- One round: the block of the position has been read. -/
theorem ReadStops.next {left chars : ℕ} (h : ReadStops s inode pos left) (hshows : Coherent s → Shows s t)
    (hread : Coherent s → ¬Unreadable s inode (pos / 1024).toNat) (hpos : 0 ≤ pos) (hle : chars ≤ left)
    (hend : pos + chars ≤ 1024 * (pos / 1024 + 1)) : ReadStops t inode (pos + chars) (left - chars) := by
  rcases h with h | ⟨C, b, h1, h2, hb⟩
  · left
    omega
  · right
    refine ⟨(hshows C).coherent, b, ?_, h2, (hshows C).unreadable hb⟩
    have hne : (pos / 1024).toNat ≠ b := by
      rintro rfl
      exact hread C hb
    omega

theorem wp_read_loop_stops (f inode : ℕ) : ∀ n left buf pos p, (p.file_table f).f_pos = pos → 0 ≤ pos →
    ReadStops p.kernel inode pos left →
    wp (read_loop f inode n left buf) (fun _ t => 0 ≤ (t.file_table f).f_pos) (fun e _ => NotBmap e) p := by
  intro n
  induction n with
  | zero =>
    intro left buf pos p hp hpos _
    rw [read_loop, wp_pure, hp]
    exact hpos
  | succ n ih =>
    intro left buf pos p hp hpos hstops
    rw [read_loop, wp_ite]
    refine ⟨fun _ => ?_, fun hne => ?_⟩
    · rw [wp_pure, hp]
      exact hpos
    have hlt := hstops.lt hne
    have hdiv : pos.tdiv BLOCK_SIZE = pos / 1024 := Int.tdiv_eq_ediv_of_nonneg hpos
    have hmod : pos.tmod BLOCK_SIZE = pos % 1024 := Int.tmod_eq_emod_of_nonneg hpos
    have hblock : BLOCK_SIZE = 1024 := rfl
    rw [wp_bind, wp_get, wp_bind, hp, hdiv, hmod, map_block, wp_bind, wp_modify, wp_volume]
    refine wp_mono (wp_bmap_any (by omega) hlt) ?_ fun _ _ h => h
    intro r s hr
    dsimp only
    generalize hchars : min (BLOCK_SIZE - pos % 1024).toNat left = chars
    have hle : chars ≤ left := by omega
    have hend : pos + chars ≤ 1024 * (pos / 1024 + 1) := by omega
    have hint : int (pos + chars) = pos + chars := by
      rw [show (MAX_BLOCKS : ℤ) = 262663 by decide] at hlt
      exact int_eq_self (by omega) (by omega)
    -- the block has been read, or there is none
    have hrest : ∀ v : Process, (v.file_table f).f_pos = pos + chars →
        (Coherent p.kernel → Shows p.kernel v.kernel) →
        (Coherent p.kernel → ¬Unreadable p.kernel inode (pos / 1024).toNat) →
        wp (read_loop f inode n (left - chars) (buf + chars)) (fun _ t => 0 ≤ (t.file_table f).f_pos)
          (fun e _ => NotBmap e) v := by
      intro v hv hshows hread
      exact ih _ _ _ v hv (by omega) (hstops.next hshows hread hpos hle hend)
    generalize hq : Process.set_kernel { p with mapped := p.mapped ++ [pos / 1024] } s = q
    have hkernel : q.kernel = s := by rw [← hq]; rfl
    have hfile : q.file_table f = p.file_table f := by rw [← hq]; rfl
    rw [wp_bind]
    by_cases hzero : r = 0
    · rw [if_neg (not_not_intro hzero), wp_pure, if_neg (by decide), wp_bind, wp_modify, hfile, hp, hint,
        if_neg (not_not_intro hzero), wp_bind]
      refine wp_put_bytes _ _ _ _ _ fun v hv _ => hrest v ?_ (fun C => ?_) fun C hb => ?_
      · rw [hv.file_table, set_file_self]
      · rw [hv.kernel]
        show Shows p.kernel q.kernel
        rw [hkernel]
        exact (hr C).1
      · exact hb.1 ((hr C).2.symm.trans hzero)
    · rw [if_pos hzero, wp_volume, hkernel]
      refine wp_mono wp_bread_any ?_ fun _ _ h => h
      intro ok s₂ hok
      rw [wp_ite, wp_pure]
      refine ⟨fun _ => ?_, fun htrue => ?_⟩
      · show 0 ≤ (q.file_table f).f_pos
        rw [hfile, hp]
        exact hpos
      rw [wp_bind, wp_modify, if_pos hzero, wp_bind, if_neg (by omega), wp_bind, wp_volume]
      refine wp_mono wp_the_buffer_any ?_ fun _ _ h => h
      rintro d s₃ ⟨rfl, -⟩
      rw [wp_bind]
      refine wp_put_bytes _ _ _ _ _ fun v hv _ => ?_
      rw [wp_volume, hv.kernel]
      refine wp_mono wp_brelse_any ?_ fun _ _ h => h
      intro _ s₄ hs₄
      refine hrest _ ?_ (fun C => ?_) fun C hb => ?_
      · show (v.file_table f).f_pos = _
        rw [hv.file_table]
        show ((q.set_file f _).file_table f).f_pos = _
        rw [set_file_self]
        show int ((q.file_table f).f_pos + chars) = _
        rw [hfile, hp, hint]
      · have h1 := (hok (hr C).1.coherent).1
        exact ((hr C).1.trans h1.shows).trans (hs₄ h1.coherent).1.shows
      · have hnone : s.view ((p.kernel.inode_table inode).i_dev, r) = none := by
          rw [(hr C).1.view, (hr C).2]
          exact hb.2
        exact htrue ((hok (hr C).1.coherent).2.1 hnone)

/-! ### Writing to a block of the file -/

/-- The trees and the free zones are the same. -/
structure Alike (dev : ℕ) (sb : SuperBlock) (inode : ℕ) (s t : Kernel) : Prop where
  sound : Sound dev sb inode t
  place : ∀ p : Place, p.Valid → t.place inode p = s.place inode p
  clear : ∀ n, t.zbit dev sb n = some false → s.zbit dev sb n = some false

theorem Alike.refl (S : Sound dev sb inode s) : Alike dev sb inode s s := ⟨S, fun _ _ => rfl, fun _ h => h⟩

theorem Alike.trans (h : Alike dev sb inode s t) (h' : Alike dev sb inode t u) : Alike dev sb inode s u :=
  ⟨h'.sound, fun p hp => (h'.place p hp).trans (h.place p hp), fun n hn => h.clear n (h'.clear n hn)⟩

theorem SameTree.alike (h : SameTree dev sb s t) (S : Sound dev sb inode s) (M : Mounted t dev sb)
    (C : Coherent t) : Alike dev sb inode s t :=
  ⟨h.sound S M C, fun _ hp => h.place S hp, h.clear⟩

/-- Something else of the inode has changed. -/
theorem Sound.set_inode (S : Sound dev sb inode s) {x : Inode} (hdev : x.i_dev = (s.inode_table inode).i_dev)
    (hzone : x.i_zone = (s.inode_table inode).i_zone) : Alike dev sb inode s (s.set_inode inode x) := by
  have hself : (s.set_inode inode x).inode_table inode = x := update_self ..
  have hplace : ∀ p : Place, (s.set_inode inode x).place inode p = s.place inode p := by
    intro p
    rw [Kernel.place, Kernel.place, hself, hzone, hdev]
    rfl
  refine ⟨⟨⟨S.mounted.super, S.mounted.inj, S.mounted.held, S.mounted.read⟩,
    ⟨S.coherent.clean, S.coherent.dirty⟩,
    ?_, S.first, S.reserved, S.apart, S.readable, S.idle, fun p hp hne => ?_, ?_⟩, fun p _ => hplace p,
      fun _ h => h⟩
  · rw [hself, hdev, S.i_dev]
  · rw [hplace] at hne ⊢
    exact S.inside p hp hne
  · have honce := S.once
    rw [Kernel.OncePerPlace] at honce ⊢
    rw [hself, hdev, hzone]
    exact honce

/-- A data block has been written to. -/
theorem Sound.write (S : Sound dev sb inode s) {x : Place} (hx : x.Valid) (hfull : x.Full)
    (hne : s.place inode x ≠ 0) {d : Buffer} (hb : s.buffer (dev, s.place inode x) = some d)
    (hup : d.b_uptodate = true) (data : Words) :
    Alike dev sb inode s (s.set_buffer (dev, s.place inode x) { d with b_data := data, b_dirt := true }) := by
  generalize hz : s.place inode x = z at *
  generalize ht : s.set_buffer (dev, z) { d with b_data := data, b_dirt := true } = t
  have hzone : sb.InZone z := hz ▸ (S.inside x hx (hz ▸ hne)).1
  have C : Coherent t := ht ▸ S.coherent.set_buffer (fun _ h => (by cases h)) fun _ => hup
  have e : Effect dev sb (s.zbit dev sb) (fun y => y = z) s t := by
    rw [← ht] at C ⊢
    exact Effect.touch S.mounted (.inr (S.not_zmap hzone)) C
  have hcount : t.count = s.count := by
    rw [← ht, set_buffer_count, ← count_of_buffer hb, update_eq_self]
  have hinode : t.inode_table = s.inode_table := by rw [← ht]; rfl
  have hview : ∀ y, sb.InZone y → y ≠ z → t.view (dev, y) = s.view (dev, y) :=
    fun y hy hyz => e.view _ (fun h => hyz h.2) (S.not_zmap hy)
  have hplace : ∀ p : Place, p.Valid → t.place inode p = s.place inode p := by
    intro p hp
    rw [S.place_eq, Kernel.place, hinode, S.i_dev]
    refine tree_at_congr_indirect (fun _ => rfl) (fun y hy hnot hy0 => ?_) hp
    rw [← S.place_eq] at hy0 ⊢
    rw [Kernel.data, Kernel.data, hview _ (S.inside y hy hy0).1 fun heq => ?_]
    rw [← hz] at heq
    exact hnot (S.once y x hy hx hy0 heq ▸ hfull)
  refine ⟨⟨S.mounted.after e fun k => Nat.le_of_eq (congrFun hcount k).symm, C, by
    rw [hinode, S.i_dev], S.first,
    by rw [e.bits]; exact S.reserved, S.apart, fun y hy => ?_, fun y hy h => ?_, fun p hp hp0 => ?_,
    fun p p' hp hp' hp0 heq => ?_⟩, hplace, fun n hn => by rwa [e.bits] at hn⟩
  · by_cases hyz : y = z
    · have hinfo : t.info (dev, z) = some (data, true) := by rw [← ht, set_buffer_info_self, hup]
      rw [hyz, view_of_uptodate hinfo]
      exact Option.some_ne_none _
    · rw [hview y hy hyz]
      exact S.readable y hy
  · rw [e.bits] at h
    rw [hcount]
    exact S.idle y hy h
  · rw [hplace p hp] at hp0 ⊢
    rw [e.bits]
    exact S.inside p hp hp0
  · have h1 := hplace p hp
    have h2 := hplace p' hp'
    rw [Kernel.place] at h1 h2
    rw [h1] at hp0 heq
    rw [h2] at heq
    exact S.once p p' hp hp' hp0 heq

/-- The buffer of a block of the file has been taken by `bread`. -/
theorem Sound.read (S : Sound dev sb inode s) {x : Place} (hx : x.Valid) (hne : s.place inode x ≠ 0)
    (h : Still s t) (hcount : t.count = held s.count (dev, s.place inode x)) : Alike dev sb inode s t :=
  (S.hold h hcount (S.inside x hx hne).2).alike S
    (S.mounted.after (Effect.of_still S.mounted h) fun _ => hcount ▸ le_held ..) h.coherent

/-- It has been given back. -/
theorem Sound.release {c : Key → ℕ} (S : Sound dev sb inode s) (h : Still s t) (hcount : s.count = held c k)
    (hcount' : t.count = c) (hzmap : ∀ i bh, sb.zmap i = some bh → 0 < c (dev, bh)) :
    Alike dev sb inode s t := by
  have e := Effect.of_still S.mounted h
  refine SameTree.alike (h.sameTree S fun z hz hclear => ?_) S
    ⟨(h.get_super dev).trans S.mounted.super, S.mounted.inj, fun i bh hbh => ?_, e.read⟩ h.coherent
  · have hidle := S.idle z hz hclear
    have hle := le_held c k (dev, z)
    rw [← hcount, hidle] at hle
    rw [hcount']
    omega
  · rw [hcount']
    exact hzmap i bh hbh

/-- The end of a round: the block that was read into `t` is written to and given back. -/
theorem wp_brelse_written (dev : ℕ) (sb : SuperBlock) {x : Kernel} {y : Place} {r : ℕ} {d : Buffer}
    (hy : y.Valid) (hfull : y.Full) (hr : r ≠ 0)
    (hdev : (s.inode_table inode).i_dev = k.1) (hk : k.2 = r)
    (hread : Coherent s → Still s t ∧ t.count = held s.count k ∧ ∃ d, t.info k = some (d, true))
    (hbuffer : x.buffer = t.buffer) (halike : Sound dev sb inode t → Alike dev sb inode t x)
    (hd : t.buffer k = some d) (data : Words) :
    wp (brelse k) (fun _ w => Sound dev sb inode s → s.place inode y = r → Alike dev sb inode s w)
      (fun e _ => NotBmap e) (x.set_buffer k { d with b_data := data, b_dirt := true }) := by
  refine wp_mono wp_brelse_any ?_ fun _ _ h => h
  intro _ w hw S hplace
  have hkey : k = (dev, r) := by rw [← hk, ← S.i_dev, hdev]
  subst hkey
  obtain ⟨hstill, hcount, d', hinfo⟩ := hread S.coherent
  have hne : s.place inode y ≠ 0 := hplace ▸ hr
  have h1 : Alike dev sb inode s t := S.read hy hne hstill (by rw [hplace]; exact hcount)
  have h2 := halike h1.sound
  have hplace2 : x.place inode y = r := (h2.place y hy).trans ((h1.place y hy).trans hplace)
  have hup : d.b_uptodate = true := by
    rw [info_of_buffer hd] at hinfo
    exact (Prod.mk.inj (Option.some.inj hinfo)).2
  have hbuffer2 : x.buffer (dev, r) = some d := by rw [hbuffer, hd]
  have h3 := h2.sound.write hy hfull (hplace2 ▸ hr) (by rw [hplace2]; exact hbuffer2) hup data
  rw [hplace2] at h3
  have hcount3 : (x.set_buffer (dev, r) { d with b_data := data, b_dirt := true }).count =
      held s.count (dev, r) := by
    rw [set_buffer_count, ← count_of_buffer hbuffer2, update_eq_self, ← hcount]
    funext j
    rw [Kernel.count, Kernel.count, hbuffer]
  obtain ⟨hstill4, hcount4⟩ := hw h3.sound.coherent
  exact ((h1.trans h2).trans h3).trans
    (h3.sound.release hstill4 hcount3 (hcount4 _ hcount3) fun i bh hbh => S.mounted.held i bh hbh)

/-! ### A disk that runs full -/

/-- There are not as many free zones as the file needs from this block on to become as large as it can be. -/
structure RunsFull (dev : ℕ) (sb : SuperBlock) (inode lo : ℕ) (s : Kernel) : Prop where
  sound : Sound dev sb inode s
  less : s.free dev sb < s.missing inode (needed lo)

theorem RunsFull.lt {lo : ℕ} (h : RunsFull dev sb inode lo s) : lo < MAX_BLOCKS := by
  by_contra hbig
  have hless := h.less
  rw [missing_needed_big (Nat.not_lt.1 hbig)] at hless
  omega

theorem RunsFull.alike {lo : ℕ} (h : RunsFull dev sb inode lo s) (ha : Alike dev sb inode s t) :
    RunsFull dev sb inode lo t := by
  refine ⟨ha.sound, Nat.lt_of_le_of_lt (free_le ha.clear)
    (Nat.lt_of_lt_of_le h.less (missing_le fun p hp h0 => ?_))⟩
  exact (ha.place p (valid_of_needed hp)).trans h0

/-- `create_block` has found a block. -/
theorem RunsFull.created {lo r : ℕ} (h : RunsFull dev sb inode lo s)
    (hc : Created dev sb inode s t (blockPlace lo) r) : RunsFull dev sb inode lo t := by
  have hspends := hc.spends (needed lo) fun p hp => valid_of_needed hp
  have hless := h.less
  exact ⟨hc.sound, by omega⟩

theorem RunsFull.succ {lo : ℕ} (h : RunsFull dev sb inode lo s) (hplace : s.place inode (blockPlace lo) ≠ 0) :
    RunsFull dev sb inode (lo + 1) s :=
  ⟨h.sound, by
    rw [missing_needed_succ hplace]
    exact h.less⟩

/-- The loop that writes comes to its end, or the disk runs full, before the last block. -/
def WriteStops (dev : ℕ) (sb : SuperBlock) (s : Kernel) (inode : ℕ) (pos : ℤ) (left : ℕ) : Prop :=
  pos + left ≤ MAX_SIZE ∨ RunsFull dev sb inode (pos / 1024).toNat s

theorem WriteStops.lt {left : ℕ} (h : WriteStops dev sb s inode pos left) (hne : left ≠ 0) :
    pos / 1024 < MAX_BLOCKS := by
  rcases h with h | h
  · rw [MAX_SIZE] at h
    omega
  · have hlt := h.lt
    omega

theorem WriteStops.le {left : ℕ} (h : WriteStops dev sb s inode pos left) : pos ≤ MAX_SIZE := by
  rcases h with h | h
  · omega
  · have hlt := h.lt
    rw [MAX_SIZE]
    omega

/-- One round: the block of the position has been written to. -/
theorem WriteStops.next {left c : ℕ} (h : WriteStops dev sb s inode pos left) (hpos : 0 ≤ pos) (hle : c ≤ left)
    (hend : pos + c ≤ 1024 * (pos / 1024 + 1))
    (hfull : RunsFull dev sb inode (pos / 1024).toNat s → RunsFull dev sb inode (pos / 1024).toNat t ∧
      t.place inode (blockPlace (pos / 1024).toNat) ≠ 0) :
    WriteStops dev sb t inode (pos + c) (left - c) := by
  rcases h with h | h
  · left
    omega
  · right
    obtain ⟨h1, h2⟩ := hfull h
    rcases Int.lt_or_le ((pos + c) / 1024) (pos / 1024 + 1) with hlt | hge
    · rw [show (pos + c) / 1024 = pos / 1024 by omega]
      exact h1
    · rw [show (pos + c) / 1024 = pos / 1024 + 1 by omega, Int.toNat_add (by omega) (by decide)]
      exact h1.succ h2

theorem wp_create_block_any (dev : ℕ) (sb : SuperBlock) (hpos : 0 ≤ block) (hlt : block < MAX_BLOCKS) :
    wp (create_block inode block)
    (fun r t => Sound dev sb inode s → Created dev sb inode s t (blockPlace block.toNat) r)
    (fun e _ => NotBmap e) s := by
  by_cases S : Sound dev sb inode s
  · exact wp_mono (wp_create_block S hpos hlt) (fun _ _ h _ => h) fun _ _ h => h.elim
  · exact wp_mono (leaves_bmap s (Modes.refl s)) (fun _ _ _ S' => absurd S' S) fun _ _ h => h hpos hlt

theorem wp_write_loop_stops (dev : ℕ) (sb : SuperBlock) (inode count : ℕ) : ∀ n i pos buf p, count ≤ i + n →
    i ≤ count → 0 ≤ pos → WriteStops dev sb p.kernel inode pos (count - i) →
    wp (write_loop inode count n i pos buf)
      (fun r _ => 0 ≤ r.2 ∧ (MAX_SIZE < pos + (count - i : ℕ) → r.1 < count)) (fun e _ => NotBmap e) p := by
  intro n
  induction n with
  | zero =>
    intro i pos buf p hn hi hpos hstops
    rw [write_loop, wp_pure]
    refine ⟨hpos, fun hbig => ?_⟩
    have hle := hstops.le
    omega
  | succ n ih =>
    intro i pos buf p hn hi hpos hstops
    rw [write_loop, wp_ite, wp_pure]
    refine ⟨fun hge => ⟨hpos, fun hbig => ?_⟩, fun hnot => ?_⟩
    · have hle := hstops.le
      omega
    have hlt := hstops.lt (by omega)
    have hdiv : pos.tdiv BLOCK_SIZE = pos / 1024 := Int.tdiv_eq_ediv_of_nonneg hpos
    have hmod : pos.tmod BLOCK_SIZE = pos % 1024 := Int.tmod_eq_emod_of_nonneg hpos
    have hblock : BLOCK_SIZE = 1024 := rfl
    rw [wp_bind, hdiv, hmod, map_block, wp_bind, wp_modify, wp_volume]
    refine wp_mono (wp_create_block_any dev sb (by omega) hlt) ?_ fun _ _ h => h
    intro r s hcreated
    rw [wp_ite, wp_pure]
    refine ⟨fun _ => ⟨hpos, fun _ => Nat.not_le.1 hnot⟩, fun hr => ?_⟩
    dsimp only
    generalize hc : min (BLOCK_SIZE - pos % 1024).toNat (count - i) = c
    have hle : c ≤ count - i := by omega
    have hend : pos + c ≤ 1024 * (pos / 1024 + 1) := by omega
    have hint : int (pos + c) = pos + c := by
      rw [show (MAX_BLOCKS : ℤ) = 262663 by decide] at hlt
      exact int_eq_self (by omega) (by omega)
    rw [hint, wp_bind, wp_get, wp_bind, wp_volume]
    show wp (bread ((s.inode_table inode).i_dev, r)) _ _ s
    refine wp_mono wp_bread_any ?_ fun _ _ h => h
    intro ok t hread
    rw [wp_ite, wp_pure]
    refine ⟨fun hok => ?_, fun _ => ⟨hpos, fun _ => Nat.not_le.1 hnot⟩⟩
    rw [if_neg (by omega), wp_bind, wp_volume]
    refine wp_mono wp_the_buffer_any ?_ fun _ _ h => h
    rintro d t' ⟨rfl, hd⟩
    rw [wp_bind, wp_modify, wp_bind, wp_modify, wp_bind, wp_volume]
    obtain ⟨hvalid, hfull⟩ := blockPlace_spec (b := (pos / 1024).toNat) (by
      rw [MAX_BLOCKS] at hlt
      omega)
    refine wp_mono (wp_brelse_written dev sb (s := s) (t := t') hvalid hfull hr rfl rfl
      (fun C => ⟨(hread C).1, (hread C).2.2 hok⟩) ?_ (fun S => ?_) hd _) ?_ fun _ _ h => h
    · split_ifs <;> rfl
    · split_ifs
      · exact S.set_inode rfl rfl
      · exact Alike.refl S
    · intro _ w hw
      have hnext : WriteStops dev sb w inode (pos + c) (count - i - c) :=
        hstops.next hpos hle hend fun hfull => by
          have created := hcreated hfull.sound
          have halike := hw created.sound created.here
          refine ⟨(hfull.created created).alike halike, ?_⟩
          rw [halike.place _ hvalid, created.here]
          exact hr
      rw [Nat.sub_sub] at hnext
      refine wp_mono (ih _ _ _ _ (by omega) (by omega) (by omega) hnext) ?_ fun _ _ h => h
      rintro r t ⟨h1, h2⟩
      exact ⟨h1, fun hbig => h2 (by omega)⟩

end OldLinux.Volume
