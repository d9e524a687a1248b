import OldLinux.Volume.Cache

/-!
# Inodes on the disk

`read_inode` and `write_inode`: an inode is one of the 32 records of a block behind the bitmaps of its
device.  The record is taken out of the buffer that `bread` gives, and put into it.
-/

namespace OldLinux.Volume

open Function Lib

variable {s t : Kernel} {dev nr dev' nr' i j : ℕ} {d : Words} {r : DInode} {sb : SuperBlock}

structure DInode where
  i_mode : UInt16
  i_uid : UInt16
  i_size : UInt32
  i_time : UInt32
  i_gid : UInt8
  i_nlinks : UInt8
  i_zone : Fin 9 → UInt16

/-- `memset`. -/
def DInode.zero : DInode := ⟨0, 0, 0, 0, 0, 0, fun _ => 0⟩

def INODES_PER_BLOCK : ℕ := 32

/-! ### Records of a block -/

/-- The record has 16 words. -/
def DInode.word (r : DInode) : ℕ → ℕ
  | 0 => r.i_mode.toNat
  | 1 => r.i_uid.toNat
  | 2 => r.i_size.toNat % 65536
  | 3 => r.i_size.toNat / 65536
  | 4 => r.i_time.toNat % 65536
  | 5 => r.i_time.toNat / 65536
  | 6 => r.i_gid.toNat + 256 * r.i_nlinks.toNat
  | w + 7 => if h : w < 9 then (r.i_zone ⟨w, h⟩).toNat else 0

/-- `((struct d_inode *)bh->b_data)[i]`. -/
def d_inode (d : Words) (i : ℕ) : DInode where
  i_mode := .ofNat (d (16 * i))
  i_uid := .ofNat (d (16 * i + 1))
  i_size := .ofNat (d (16 * i + 2) + 65536 * d (16 * i + 3))
  i_time := .ofNat (d (16 * i + 4) + 65536 * d (16 * i + 5))
  i_gid := .ofNat (d (16 * i + 6) % 256)
  i_nlinks := .ofNat (d (16 * i + 6) / 256)
  i_zone := fun k => .ofNat (d (16 * i + (k + 7)))

def set_d_inode (d : Words) (i : ℕ) (r : DInode) : Words :=
  fun w => if w / 16 = i then r.word (w % 16) else d w

theorem set_d_inode_word (d : Words) (i : ℕ) (r : DInode) {w : ℕ} (hw : w < 16) :
    set_d_inode d i r (16 * i + w) = r.word w := by
  rw [set_d_inode, if_pos (by omega), Nat.mul_add_mod, Nat.mod_eq_of_lt hw]

/-- What has been put in is taken out. -/
theorem d_inode_set_d_inode (d : Words) (i : ℕ) (r : DInode) : d_inode (set_d_inode d i r) i = r := by
  have h0 := set_d_inode_word d i r (show 0 < 16 by decide)
  rw [Nat.add_zero] at h0
  have hzone : ∀ k : Fin 9, set_d_inode d i r (16 * i + (k + 7)) = (r.i_zone k).toNat := by
    intro k
    rw [set_d_inode_word d i r (show k.1 + 7 < 16 by omega), DInode.word, dif_pos k.2]
  have hgid : (r.i_gid.toNat + 256 * r.i_nlinks.toNat) % 256 = r.i_gid.toNat := by
    have hlt := r.i_gid.toNat_lt
    omega
  have hnlinks : (r.i_gid.toNat + 256 * r.i_nlinks.toNat) / 256 = r.i_nlinks.toNat := by
    omega
  simp only [d_inode, h0, hzone, set_d_inode_word d i r (show 1 < 16 by decide),
    set_d_inode_word d i r (show 2 < 16 by decide), set_d_inode_word d i r (show 3 < 16 by decide),
    set_d_inode_word d i r (show 4 < 16 by decide), set_d_inode_word d i r (show 5 < 16 by decide),
    set_d_inode_word d i r (show 6 < 16 by decide), DInode.word, hgid, hnlinks, Nat.mod_add_div,
    UInt8.ofNat_toNat, UInt16.ofNat_toNat, UInt32.ofNat_toNat]

/-- The other records of the block are the same. -/
theorem d_inode_set_d_inode_of_ne (d : Words) (r : DInode) (h : j ≠ i) :
    d_inode (set_d_inode d i r) j = d_inode d j := by
  have hword : ∀ w, w < 16 → set_d_inode d i r (16 * j + w) = d (16 * j + w) := by
    intro w hw
    rw [set_d_inode, if_neg (by omega)]
  have h0 := hword 0 (by decide)
  rw [Nat.add_zero] at h0
  have hzone : ∀ k : Fin 9, set_d_inode d i r (16 * j + (k + 7)) = d (16 * j + (k + 7)) :=
    fun k => hword _ (by omega)
  simp only [d_inode, h0, hzone, hword 1 (by decide), hword 2 (by decide), hword 3 (by decide),
    hword 4 (by decide), hword 5 (by decide), hword 6 (by decide)]

/-! ### Through the buffers -/

/-- The block of an inode. -/
def SuperBlock.inode_block (sb : SuperBlock) (nr : ℕ) : ℕ :=
  2 + sb.s_imap_blocks + sb.s_zmap_blocks + (nr - 1) / INODES_PER_BLOCK

/-- What `read_inode` gets for the inode; the first one is 1. -/
def read_inode (dev nr : ℕ) : VolumeM DInode := do
  let s ← get
  match s.get_super dev with
  | none => throw (.panic "trying to read inode without dev")
  | some sb =>
    if ← bread (dev, sb.inode_block nr) then do
      let b ← the_buffer (dev, sb.inode_block nr)
      if nr = 0 then throw .outside
      else do
        brelse (dev, sb.inode_block nr)
        pure (d_inode b.b_data ((nr - 1) % INODES_PER_BLOCK))
    else throw (.panic "unable to read i-node block")

/-- What `write_inode` does with the fields of the inode. -/
def write_inode (dev nr : ℕ) (r : DInode) : VolumeM Unit := do
  let s ← get
  match s.get_super dev with
  | none => throw (.panic "trying to write inode without device")
  | some sb =>
    if ← bread (dev, sb.inode_block nr) then do
      let b ← the_buffer (dev, sb.inode_block nr)
      if nr = 0 then throw .outside
      else do
        modify fun s => s.set_buffer (dev, sb.inode_block nr)
          { b with b_data := set_d_inode b.b_data ((nr - 1) % INODES_PER_BLOCK) r, b_dirt := true }
        brelse (dev, sb.inode_block nr)
    else throw (.panic "unable to read i-node block")

/-- What is on the disk with this super block, or will be when the buffers have been written. -/
def Kernel.d_inode (s : Kernel) (sb : SuperBlock) (dev nr : ℕ) : Option DInode :=
  (s.view (dev, sb.inode_block nr)).map fun d => Volume.d_inode d ((nr - 1) % INODES_PER_BLOCK)

theorem Still.d_inode (h : Still s t) (sb : SuperBlock) (dev nr : ℕ) :
    t.d_inode sb dev nr = s.d_inode sb dev nr := by
  rw [Kernel.d_inode, Kernel.d_inode, h.view]

theorem inode_block_inj (h1 : 1 ≤ nr) (h2 : 1 ≤ nr') (hblock : sb.inode_block nr = sb.inode_block nr')
    (hindex : (nr - 1) % INODES_PER_BLOCK = (nr' - 1) % INODES_PER_BLOCK) : nr = nr' := by
  rw [SuperBlock.inode_block, SuperBlock.inode_block, INODES_PER_BLOCK] at hblock
  rw [INODES_PER_BLOCK] at hindex
  omega

theorem wp_read_inode {E : Stop → Kernel → Prop} (C : Coherent s) (hE : ∀ e t, E e t) : wp (read_inode dev nr)
      (fun r t => (∃ sb, s.get_super dev = some sb ∧ s.d_inode sb dev nr = some r) ∧ Still s t) E s := by
  rw [read_inode, wp_bind, wp_get]
  cases hsuper : s.get_super dev with
  | none => exact hE _ _
  | some sb =>
    dsimp only
    rw [wp_bind]
    refine wp_bread C (fun t _ _ _ => ?_) fun d t hd hstill hcount hinfo => ?_
    · rw [if_neg Bool.false_ne_true]
      exact hE _ _
    · obtain ⟨b, hb, hdata, -⟩ := buffer_of_info hinfo
      rw [if_pos rfl, wp_bind]
      refine wp_the_buffer hb ?_
      rw [wp_ite]
      refine ⟨fun _ => hE _ _, fun _ => ?_⟩
      rw [wp_bind]
      refine wp_brelse hstill.coherent hcount fun u hstill' _ => ?_
      rw [wp_pure, hdata]
      refine ⟨⟨sb, rfl, ?_⟩, hstill.trans (fun j => hcount ▸ le_held ..) hstill'⟩
      rw [Kernel.d_inode, hd, Option.map_some]

/-- **`write_inode` changes the record of its inode** and of no other one. -/
structure Writes (dev nr : ℕ) (r : DInode) (s t : Kernel) : Prop where
  coherent : Coherent t
  get_super : ∀ dev', t.get_super dev' = s.get_super dev'
  here : ∃ sb, s.get_super dev = some sb ∧ t.d_inode sb dev nr = some r
  others : ∀ sb dev' nr', (∀ sb', s.get_super dev' = some sb' → sb'.inode_block = sb.inode_block) → 1 ≤ nr' →
    ¬(dev' = dev ∧ nr' = nr) → t.d_inode sb dev' nr' = s.d_inode sb dev' nr'

theorem wp_write_inode {E : Stop → Kernel → Prop} (C : Coherent s) (hE : ∀ e t, E e t) :
    wp (write_inode dev nr r) (fun _ t => Writes dev nr r s t) E s := by
  rw [write_inode, wp_bind, wp_get]
  cases hsuper : s.get_super dev with
  | none => exact hE _ _
  | some sb =>
    dsimp only
    rw [wp_bind]
    refine wp_bread C (fun t _ _ _ => ?_) fun d t hd hstill hcount hinfo => ?_
    · rw [if_neg Bool.false_ne_true]
      exact hE _ _
    · obtain ⟨b, hb, hdata, hup⟩ := buffer_of_info hinfo
      rw [if_pos rfl, wp_bind]
      refine wp_the_buffer hb ?_
      rw [wp_ite]
      refine ⟨fun _ => hE _ _, fun hnr => ?_⟩
      rw [wp_bind, wp_modify, hdata]
      generalize hu : t.set_buffer (dev, sb.inode_block nr)
        { b with b_data := set_d_inode d ((nr - 1) % INODES_PER_BLOCK) r, b_dirt := true } = u
      have Cu : Coherent u := hu ▸ hstill.coherent.set_buffer (fun _ h => (by cases h)) fun _ => hup
      have hcountu : u.count = held s.count (dev, sb.inode_block nr) := by
        rw [← hu, set_buffer_count, ← count_of_buffer hb, update_eq_self, hcount]
      refine wp_brelse Cu hcountu fun v hv _ => ?_
      have hsame : ∀ dev', v.get_super dev' = s.get_super dev' := fun dev' => by
        rw [hv.get_super, ← hu]
        exact hstill.get_super dev'
      have hview : v.view = update s.view (dev, sb.inode_block nr)
          (some (set_d_inode d ((nr - 1) % INODES_PER_BLOCK) r)) := by
        rw [hv.view, ← hu, set_buffer_view, hstill.view, hup, if_pos rfl]
      refine ⟨hv.coherent, hsame, ⟨sb, hsuper, ?_⟩, fun sb' dev' nr' hmounted hnr' hne => ?_⟩
      · rw [Kernel.d_inode, hview, update_self, Option.map_some, d_inode_set_d_inode]
      · rw [Kernel.d_inode, Kernel.d_inode, hview]
        by_cases hkey : (dev', sb'.inode_block nr') = (dev, sb.inode_block nr)
        · -- another record of the same block
          obtain ⟨rfl, hblock⟩ := Prod.mk.inj hkey
          have hindex : (nr' - 1) % INODES_PER_BLOCK ≠ (nr - 1) % INODES_PER_BLOCK := by
            intro heq
            rw [← hmounted sb hsuper] at hblock
            exact hne ⟨rfl, inode_block_inj hnr' (by omega) hblock heq⟩
          rw [hkey, update_self, hd, Option.map_some, Option.map_some, d_inode_set_d_inode_of_ne _ _ hindex]
        · rw [update_of_ne hkey]

end OldLinux.Volume
