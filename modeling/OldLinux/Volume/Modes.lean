import OldLinux.Volume.Machine

/-!
# What the block layer leaves alone

Whatever is on the disk and in the buffers: `_bmap` does not change what an inode is, and it stops with one
of its own panics only for a block that it cannot have.
-/

namespace OldLinux.Volume

open Lib

variable {s t u : Kernel} {k : Key} {dev inode ind i n : ℕ} {create : Bool} {block : ℤ} {sb : SuperBlock}

/-- The inodes are what they were. -/
structure Modes (s t : Kernel) : Prop where
  mode : ∀ i, (t.inode_table i).i_mode = (s.inode_table i).i_mode
  pipe : ∀ i, (t.inode_table i).i_pipe = (s.inode_table i).i_pipe

/-- Not one of the panics of `_bmap`. -/
def NotBmap (e : Stop) : Prop := e ≠ .panic "_bmap: block<0" ∧ e ≠ .panic "_bmap: block>big"

instance (e : Stop) : Decidable (NotBmap e) := inferInstanceAs (Decidable (_ ∧ _))

theorem Modes.refl (s : Kernel) : Modes s s := ⟨fun _ => rfl, fun _ => rfl⟩

theorem Modes.trans (h : Modes s t) (h' : Modes t u) : Modes s u :=
  ⟨fun i => (h'.mode i).trans (h.mode i), fun i => (h'.pipe i).trans (h.pipe i)⟩

theorem Modes.set_inode (h : Modes s t) {x : Inode} (hmode : x.i_mode = (t.inode_table inode).i_mode)
    (hpipe : x.i_pipe = (t.inode_table inode).i_pipe) : Modes s (t.set_inode inode x) := by
  have hat : ∀ i, (t.set_inode inode x).inode_table i = if i = inode then x else t.inode_table i := by
    intro i
    by_cases hi : i = inode
    · rw [if_pos hi, hi]
      exact Function.update_self ..
    · rw [if_neg hi]
      exact Function.update_of_ne hi ..
  refine ⟨fun i => ?_, fun i => ?_⟩
  · rw [hat]
    split_ifs with hi
    · rw [hmode, hi, h.mode]
    · exact h.mode i
  · rw [hat]
    split_ifs with hi
    · rw [hpipe, hi, h.pipe]
    · exact h.pipe i

theorem leaves_the_buffer : LeavesOr (Modes u) NotBmap (the_buffer k) := by
  refine LeavesOr.look fun s _ => ?_
  split
  · exact LeavesOr.throw (by decide)
  · exact LeavesOr.pure _

theorem leaves_get_hash_table : LeavesOr (Modes u) NotBmap (get_hash_table k) := by
  refine LeavesOr.look fun s _ => ?_
  split
  · exact LeavesOr.pure _
  · exact LeavesOr.bind (LeavesOr.modify fun _ hs => ⟨hs.mode, hs.pipe⟩) fun _ => LeavesOr.pure _

theorem leaves_getblk : LeavesOr (Modes u) NotBmap (getblk k) :=
  LeavesOr.bind leaves_get_hash_table fun _ =>
    LeavesOr.ite (fun _ => LeavesOr.pure _) fun _ => LeavesOr.modify fun _ hs => ⟨hs.mode, hs.pipe⟩

theorem leaves_brelse : LeavesOr (Modes u) NotBmap (brelse k) :=
  LeavesOr.bind leaves_the_buffer fun _ =>
    LeavesOr.ite (fun _ => LeavesOr.throw (by decide)) fun _ => LeavesOr.modify fun _ hs => ⟨hs.mode, hs.pipe⟩

theorem leaves_bread : LeavesOr (Modes u) NotBmap (bread k) := by
  refine LeavesOr.bind leaves_getblk fun _ => LeavesOr.bind leaves_the_buffer fun b => ?_
  refine LeavesOr.ite (fun _ => LeavesOr.pure _) fun _ => LeavesOr.look fun s _ => ?_
  split
  · exact LeavesOr.bind (LeavesOr.modify fun _ hs => ⟨hs.mode, hs.pipe⟩) fun _ => LeavesOr.pure _
  · exact LeavesOr.bind (LeavesOr.modify fun _ hs => ⟨hs.mode, hs.pipe⟩) fun _ =>
      LeavesOr.bind leaves_brelse fun _ => LeavesOr.pure _

theorem leaves_search_zmap (n i : ℕ) : LeavesOr (Modes u) NotBmap (search_zmap dev sb n i) := by
  induction n generalizing i with
  | zero => exact LeavesOr.pure _
  | succ n ih =>
    rw [search_zmap]
    split
    · exact ih (i + 1)
    · exact LeavesOr.bind leaves_the_buffer fun b => LeavesOr.ite (fun _ => LeavesOr.pure _) fun _ => ih (i + 1)

theorem leaves_new_block : LeavesOr (Modes u) NotBmap (new_block dev) := by
  refine LeavesOr.look fun s _ => ?_
  split
  · exact LeavesOr.throw (by decide)
  · refine LeavesOr.bind (leaves_search_zmap 8 0) fun r => ?_
    split
    · exact LeavesOr.pure _
    · refine LeavesOr.bind leaves_the_buffer fun b => LeavesOr.ite (fun _ => LeavesOr.throw (by decide))
        fun _ => ?_
      refine LeavesOr.bind (LeavesOr.modify fun _ hs => ⟨hs.mode, hs.pipe⟩) fun _ => ?_
      refine LeavesOr.ite (fun _ => LeavesOr.pure _) fun _ => LeavesOr.bind leaves_getblk fun _ => ?_
      refine LeavesOr.bind leaves_the_buffer fun b => LeavesOr.ite (fun _ => LeavesOr.throw (by decide))
        fun _ => ?_
      exact LeavesOr.bind (LeavesOr.modify fun _ hs => ⟨hs.mode, hs.pipe⟩) fun _ =>
        LeavesOr.bind leaves_brelse fun _ => LeavesOr.pure _

theorem leaves_zone_block : LeavesOr (Modes u) NotBmap (zone_block inode i create) := by
  refine LeavesOr.look fun s _ => LeavesOr.ite (fun _ => ?_) fun _ => LeavesOr.pure _
  refine LeavesOr.bind leaves_new_block fun block => ?_
  refine LeavesOr.bind (LeavesOr.modify fun _ hs => hs.set_inode ?_ ?_) fun _ => LeavesOr.pure _
  · split_ifs <;> rfl
  · split_ifs <;> rfl

theorem leaves_word_block : LeavesOr (Modes u) NotBmap (word_block dev ind i create) := by
  refine LeavesOr.ite (fun _ => LeavesOr.pure _) fun _ => LeavesOr.bind leaves_bread fun ok => ?_
  refine LeavesOr.ite (fun _ => ?_) fun _ => LeavesOr.pure _
  refine LeavesOr.bind leaves_the_buffer fun b => LeavesOr.bind ?_ fun block => ?_
  · refine LeavesOr.ite (fun _ => LeavesOr.bind leaves_new_block fun block => ?_) fun _ => LeavesOr.pure _
    refine LeavesOr.bind (LeavesOr.ite (fun _ => ?_) fun _ => LeavesOr.pure _) fun _ => LeavesOr.pure _
    exact LeavesOr.bind leaves_the_buffer fun b => LeavesOr.modify fun _ hs => ⟨hs.mode, hs.pipe⟩
  · exact LeavesOr.bind leaves_brelse fun _ => LeavesOr.pure _

/-- **`_bmap` stops with a panic of its own only for a block that no file can have.** -/
theorem leaves_bmap :
    LeavesOr (Modes u) (fun e => 0 ≤ block → block < MAX_BLOCKS → NotBmap e) (_bmap inode block create) := by
  refine LeavesOr.ite (fun hneg => LeavesOr.throw fun hpos => absurd hneg (Int.not_lt.2 hpos)) fun _ => ?_
  refine LeavesOr.ite (fun hbig => LeavesOr.throw fun _ hlt => absurd hbig (Int.not_le.2 hlt)) fun _ => ?_
  refine LeavesOr.weaken (F := NotBmap) (LeavesOr.look fun s _ => ?_) fun _ h _ _ => h
  refine LeavesOr.ite (fun _ => leaves_zone_block) fun _ => LeavesOr.ite (fun _ => ?_) fun _ => ?_
  · exact LeavesOr.bind leaves_zone_block fun ind => leaves_word_block
  · exact LeavesOr.bind leaves_zone_block fun dind =>
      LeavesOr.bind leaves_word_block fun ind => leaves_word_block

end OldLinux.Volume
