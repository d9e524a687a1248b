import OldLinux.Lib.BlockTree
import OldLinux.Volume.Allocation

/-!
# `bmap` and `create_block`

`bmap` follows the tree of an inode.  `create_block` goes the same way and enters a new block wherever it
finds an empty place.
-/

namespace OldLinux.Volume

open Lib Lib.BlockTree

variable {s t u : Kernel} {dev b n i k z r ind inode : ℕ} {sb : SuperBlock} {d : Words} {m : List ℕ}
variable {p q : Place}

/-! ### What is read -/

/-- What is in a block, zeros if it cannot be read. -/
def Kernel.data (s : Kernel) (dev z : ℕ) : Words := (s.view (dev, z)).getD fun _ => 0

/-- The block at a place of an inode. -/
def Kernel.place (s : Kernel) (inode : ℕ) (p : Place) : ℕ :=
  tree_at (s.inode_table inode).i_zone (s.data (s.inode_table inode).i_dev) p

theorem Still.data (h : Still s t) : t.data = s.data := by
  funext dev z
  rw [Kernel.data, Kernel.data, h.view]

/-- A block that has been read is given back. -/
theorem wp_word_read {E : Stop → Kernel → Prop} (C : Coherent s) (dev ind i : ℕ) :
      wp (word_block dev ind i false)
      (fun r t => r = (if ind = 0 then 0 else s.data dev ind i) ∧ Still s t ∧ t.count = s.count) E s := by
  rw [word_block, wp_ite]
  refine ⟨fun h => ?_, fun h => ?_⟩
  · rw [wp_pure, if_pos h]
    exact ⟨rfl, Still.refl C, rfl⟩
  · rw [wp_bind]
    refine wp_bread C (fun t hview hstill hcount => ?_) fun d t hview hstill hcount hinfo => ?_
    · rw [if_neg Bool.false_ne_true, wp_pure, if_neg h, Kernel.data, hview]
      exact ⟨rfl, hstill, hcount⟩
    · obtain ⟨b, hb, hdata, -⟩ := buffer_of_info hinfo
      rw [if_pos rfl, wp_bind]
      refine wp_the_buffer hb ?_
      rw [if_neg fun h' => Bool.false_ne_true h'.1, wp_bind, wp_pure, wp_bind]
      refine wp_brelse hstill.coherent hcount fun u hstill' hcount' => ?_
      rw [wp_pure, if_neg h, hdata, Kernel.data, hview]
      exact ⟨rfl, hstill.trans (fun j => hcount ▸ le_held ..) hstill', hcount'⟩

theorem wp_bmap {E : Stop → Kernel → Prop} {block : ℤ} (C : Coherent s) (hpos : 0 ≤ block)
    (hlt : block < MAX_BLOCKS) : wp (bmap inode block)
      (fun r t => r = s.place inode (blockPlace block.toNat) ∧ Still s t ∧ t.count = s.count) E s := by
  have hzone : ∀ i, wp (zone_block inode i false)
      (fun r t => r = (s.inode_table inode).i_zone i ∧ t = s) E s := by
    intro i
    rw [zone_block, wp_bind, wp_get]
    dsimp only
    rw [if_neg fun h => Bool.false_ne_true h.1, wp_pure]
    exact ⟨rfl, rfl⟩
  rw [bmap, _bmap, if_neg (by omega), if_neg (by omega), wp_bind, wp_get, blockPlace]
  dsimp only
  generalize block.toNat = b
  by_cases h1 : b < 7
  · rw [if_pos h1, if_pos h1]
    refine wp_mono (hzone b) ?_ fun _ _ h => h
    rintro r t ⟨rfl, rfl⟩
    exact ⟨rfl, Still.refl C, rfl⟩
  rw [if_neg h1, if_neg h1]
  by_cases h2 : b < 7 + 512
  · rw [if_pos h2, if_pos h2, wp_bind]
    refine wp_mono (hzone 7) ?_ fun _ _ h => h
    rintro ind t ⟨rfl, rfl⟩
    exact wp_word_read C _ _ _
  · rw [if_neg h2, if_neg h2, wp_bind]
    refine wp_mono (hzone 8) ?_ fun _ _ h => h
    rintro dind t ⟨rfl, rfl⟩
    rw [wp_bind]
    refine wp_mono (wp_word_read C _ _ _) ?_ fun _ _ h => h
    rintro ind u ⟨rfl, hstill, hcount⟩
    refine wp_mono (wp_word_read hstill.coherent _ _ _) ?_ fun _ _ h => h
    rintro r v ⟨rfl, hstill', hcount'⟩
    refine ⟨?_, hstill.trans (fun j => Nat.le_of_eq (congrFun hcount j).symm) hstill', hcount'.trans hcount⟩
    rw [hstill.data, Kernel.place]
    exact (tree_at_concat (t.inode_table inode).i_zone (t.data (t.inode_table inode).i_dev) 8
      [(b - 519) / 512] ((b - 519) % 512)).symm

/-- `bmap` returns this block. -/
def Maps (s : Kernel) (inode : ℕ) (block : ℤ) (r : ℕ) : Prop :=
  wp (bmap inode block) (fun x _ => x = r) (fun _ _ => False) s

theorem maps_iff {block : ℤ} (C : Coherent s) (hpos : 0 ≤ block) (hlt : block < MAX_BLOCKS) :
    Maps s inode block r ↔ s.place inode (blockPlace block.toNat) = r := by
  have hrun : wp (bmap inode block) _ (fun _ _ => False) s := wp_bmap C hpos hlt
  obtain ⟨x, t, hc, hx, -⟩ := returns_of_wp hrun
  rw [Maps, wp_of_ok hc, hx]

end OldLinux.Volume
