import OldLinux.Volume.Truncate

/-!
# References to buffers

`new_block` and `_bmap` give back every buffer they take.  `free_block` does not if somebody else uses the
buffer of the zone, and so `free_ind`, `free_dind` and `truncate` give all back exactly if nobody uses a
buffer of the zones and none of them is there twice.
-/

namespace OldLinux.Volume

open Lib

variable {s t u : Kernel} {dev b n i k z ind inode : ℕ} {sb : SuperBlock} {d : Words} {zs : List ℕ}
variable {f : (ℕ → Inode) → ℕ → Inode} {α β : Type} {c : VolumeM α} {create : Bool}

/-! ### What gives all back -/

/-- If the command returns, each buffer has as many users as before. -/
def Balanced (dev : ℕ) (sb : SuperBlock) (c : VolumeM α) (s : Kernel) : Prop :=
  wp c (fun _ t => (Mounted t dev sb ∧ Coherent t) ∧ t.count = s.count) (fun _ _ => True) s

theorem Balanced.bind {g : α → VolumeM β} (h : Balanced dev sb c s)
    (h' : ∀ a t, Mounted t dev sb → Coherent t → Balanced dev sb (g a) t) : Balanced dev sb (c >>= g) s := by
  rw [Balanced, wp_bind]
  refine wp_mono h (fun a t ht => ?_) fun _ _ h => h
  exact wp_mono (h' a t ht.1.1 ht.1.2) (fun _ _ hu => ⟨hu.1, hu.2.trans ht.2⟩) fun _ _ h => h

theorem Balanced.pure (M : Mounted s dev sb) (C : Coherent s) (a : α) : Balanced dev sb (pure a) s :=
  ⟨⟨M, C⟩, rfl⟩

theorem Mounted.after_eq {bits : ℕ → Option Bool} {touched : ℕ → Prop} (M : Mounted s dev sb)
    (e : Effect dev sb bits touched s t) (hcount : t.count = s.count) : Mounted t dev sb :=
  M.after e fun k => Nat.le_of_eq (congrFun hcount k).symm

theorem new_block_balanced (M : Mounted s dev sb) (C : Coherent s) : Balanced dev sb (new_block dev) s := by
  refine wp_new_block M C (fun _ => ⟨⟨M, C⟩, rfl⟩) (fun n t _ _ e _ hcount => ?_) (fun _ _ _ _ _ => trivial)
    fun n t _ _ _ e _ hcount _ => ?_
  · exact ⟨⟨M.after_eq e hcount, e.coherent⟩, hcount⟩
  · exact ⟨⟨M.after_eq e hcount, e.coherent⟩, hcount⟩

theorem zone_block_balanced (M : Mounted s dev sb) (C : Coherent s)
    (hdev : (s.inode_table inode).i_dev = dev) : Balanced dev sb (zone_block inode i create) s := by
  rw [zone_block, Balanced, wp_bind, wp_get]
  dsimp only
  rw [wp_ite]
  refine ⟨fun _ => ?_, fun _ => Balanced.pure M C _⟩
  rw [hdev]
  refine Balanced.bind (new_block_balanced M C) fun block t M C => ?_
  exact ⟨⟨⟨M.super, M.inj, M.held, M.read⟩, C.clean, C.dirty⟩, rfl⟩

/-- A word of a buffer is written. -/
theorem Mounted.set_data {k : Key} {b : Buffer} (M : Mounted s dev sb) (hb : s.buffer k = some b)
    (hup : b.b_uptodate = true) (d : Words) :
    Mounted (s.set_buffer k { b with b_data := d, b_dirt := true }) dev sb := by
  refine ⟨M.super, M.inj, fun i bh hi => ?_, fun i bh hi => ?_⟩
  · rw [set_buffer_count, ← count_of_buffer hb, Function.update_eq_self]
    exact M.held i bh hi
  · by_cases hk : (dev, bh) = k
    · refine ⟨d, ?_⟩
      rw [hk, set_buffer_info_self, hup]
    · rw [set_buffer_info _ _ hk]
      exact M.read i bh hi

theorem word_block_balanced (M : Mounted s dev sb) (C : Coherent s) :
    Balanced dev sb (word_block dev ind i create) s := by
  rw [word_block, Balanced, wp_ite]
  refine ⟨fun _ => Balanced.pure M C _, fun _ => ?_⟩
  rw [wp_bind]
  refine wp_bread C (fun t _ hstill hcount => ?_) fun d t _ hstill hcount hinfo => ?_
  · rw [if_neg Bool.false_ne_true, wp_pure]
    exact ⟨⟨M.after_eq (Effect.of_still M hstill) hcount, hstill.coherent⟩, hcount⟩
  have hle : ∀ j, s.count j ≤ t.count j := fun j => hcount ▸ le_held ..
  have Mt := M.after (Effect.of_still M hstill) hle
  have hpos : 0 < t.count (dev, ind) := by
    rw [hcount, held_self]
    omega
  -- what is left to do when the buffer is given back
  have hrelease : ∀ (u : Kernel) (r : ℕ), u.count = t.count → Mounted u dev sb → Coherent u →
      wp (brelse (dev, ind) >>= fun _ => pure r)
        (fun _ v => (Mounted v dev sb ∧ Coherent v) ∧ v.count = s.count) (fun _ _ => True) u := by
    intro u r hcountu M' C'
    rw [wp_bind]
    refine wp_brelse C' (hcountu.trans hcount) fun v hv hcountv => ⟨⟨?_, hv.coherent⟩, hcountv⟩
    have e := Effect.of_still M' hv
    refine ⟨(hv.get_super dev).trans M'.super, M.inj, fun i bh hbh => ?_, e.read⟩
    rw [hcountv]
    exact M.held i bh hbh
  obtain ⟨b, hb⟩ := exists_buffer hpos
  rw [if_pos rfl, wp_bind]
  refine wp_the_buffer hb ?_
  rw [wp_bind, wp_ite]
  refine ⟨fun _ => ?_, fun _ => hrelease t _ rfl Mt hstill.coherent⟩
  rw [wp_bind]
  refine wp_new_block Mt hstill.coherent (fun _ => ?_) (fun n u _ _ e _ hcountu => ?_)
    (fun _ _ _ _ _ => trivial) fun n u _ _ hidle e _ hcountu _ => ?_
  · rw [wp_bind, if_neg (not_not_intro rfl), wp_pure, wp_pure]
    exact hrelease t 0 rfl Mt hstill.coherent
  · rw [wp_bind, if_neg (not_not_intro rfl), wp_pure, wp_pure]
    exact hrelease u 0 hcountu (Mt.after_eq e hcountu) e.coherent
  · generalize n + sb.s_firstdatazone - 1 = z at *
    have Mu := Mt.after_eq e hcountu
    obtain ⟨d', hd'⟩ : ∃ d', u.info (dev, ind) = some (d', true) := by
      by_cases hmap : sb.IsZmap dev (dev, ind)
      · obtain ⟨-, i, hi⟩ := hmap
        exact e.read i ind hi
      · have hne : ind ≠ z := by
          rintro rfl
          omega
        exact ⟨d, e.info _ d (fun h => hne h.2) hmap hpos hinfo⟩
    obtain ⟨b', hb', -, hup⟩ := buffer_of_info hd'
    rw [wp_bind]
    by_cases hz : z = 0
    · rw [if_neg (not_not_intro hz), wp_pure, wp_pure]
      exact hrelease u z hcountu Mu e.coherent
    · rw [if_pos hz, wp_bind]
      refine wp_the_buffer hb' ?_
      rw [wp_modify, wp_pure]
      refine hrelease _ z ?_ (Mu.set_data hb' hup _)
        (e.coherent.set_buffer (fun _ h => (by cases h)) fun _ => hup)
      rw [set_buffer_count, ← count_of_buffer hb', Function.update_eq_self, hcountu]

theorem bmap_balanced {block : ℤ} (M : Mounted s dev sb) (C : Coherent s)
    (hdev : (s.inode_table inode).i_dev = dev) : Balanced dev sb (_bmap inode block create) s := by
  rw [_bmap, Balanced, wp_ite]
  refine ⟨fun _ => trivial, fun _ => ?_⟩
  rw [wp_ite]
  refine ⟨fun _ => trivial, fun _ => ?_⟩
  rw [wp_bind, wp_get]
  dsimp only
  rw [hdev, wp_ite]
  refine ⟨fun _ => zone_block_balanced M C hdev, fun _ => ?_⟩
  rw [wp_ite]
  refine ⟨fun _ => ?_, fun _ => ?_⟩
  · exact (zone_block_balanced M C hdev).bind fun ind t M C => word_block_balanced M C
  · refine (zone_block_balanced M C hdev).bind fun dind t M C => ?_
    exact (word_block_balanced M C).bind fun ind u M C => word_block_balanced M C

/-! ### What does not -/

/-- Each buffer has as many users as before. -/
def KeepsCount (c : VolumeM α) (s : Kernel) : Prop := ∀ a t, c s = .ok a t → t.count = s.count

def Returns (c : VolumeM α) (s : Kernel) : Prop := ∃ a t, c s = .ok a t

theorem Balanced.keepsCount (h : Balanced dev sb c s) : KeepsCount c s := fun _ _ hc => (wp_ok h hc).2

theorem Frees.keepsCount {c : VolumeM Unit} (h : Frees dev sb c zs zs f s) (hc : Returns c s) :
    KeepsCount c s ↔ Idle s dev zs ∧ zs.Nodup := by
  obtain ⟨a, t, hc⟩ := hc
  have ends := (wp_ok h hc).ends
  constructor
  · intro hkeep
    rcases ends with ⟨hfreeable, -⟩ | ⟨-, k, hk⟩
    · exact ⟨hfreeable.idle, hfreeable.nodup⟩
    · rw [hkeep a t hc] at hk
      exact absurd hk (Nat.lt_irrefl _)
  · intro hcond a' t' hc'
    rw [hc] at hc'
    cases hc'
    rcases ends with ⟨-, hfreed⟩ | ⟨hno, -⟩
    · exact hfreed.count
    · exact absurd hcond hno

/-- `free_block` clears the bit of the zone and forgets its buffer, or it changes nothing at all. -/
def FreesOrNot (dev : ℕ) (sb : SuperBlock) (z : ℕ) (s : Kernel) : Prop :=
  wp (free_block dev z)
    (fun _ t => t.zbit dev sb (sb.bit_nr z) = some false ∧ t.invalid (dev, z) ∨ t = s) (fun _ _ => False) s

theorem free_block_all_or_nothing (M : Mounted s dev sb) (C : Coherent s) (hzone : sb.InZone z)
    (htaken : s.zbit dev sb (sb.bit_nr z) = some true) : FreesOrNot dev sb z s ↔ s.count (dev, z) = 0 := by
  constructor
  · intro hP
    by_contra hbusy
    refine not_wp_false (wp_mono (wp_and hP (wp_free_block (E := fun _ _ => True)
      (Q := fun _ t => t.zbit dev sb = s.zbit dev sb ∧ t.count = held s.count (dev, z)) M C
      (fun t _ _ h hcount => ⟨(Effect.of_still M h).bits, hcount⟩)
      (fun t _ _ hidle => absurd hidle hbusy) fun _ _ _ => trivial)) ?_ fun _ _ h => h.1)
    rintro _ t ⟨⟨hclear, -⟩ | rfl, hbits, hcount⟩
    · rw [hbits, htaken] at hclear
      cases hclear
    · have hself := congrFun hcount (dev, z)
      rw [held_self] at hself
      omega
  · intro hidle
    refine wp_free_block M C (fun t _ hbusy => absurd hidle (Nat.ne_of_gt hbusy))
      (fun t _ _ _ e _ _ hinvalid => .inl ⟨?_, hinvalid⟩) fun hno => ?_
    · rw [e.bits, Kernel.cleared, if_pos ⟨z, List.mem_singleton.2 rfl, rfl⟩]
    · rcases hno with h | ⟨-, h⟩
      · exact absurd hzone h
      · exact absurd htaken h

/-- **Which helpers give back the buffers they take.**  `new_block` and `_bmap` always do; the others
exactly if nobody uses a buffer of the zones they are to free and none of these is there twice. -/
theorem references_given_back (M : Mounted s dev sb) (C : Coherent s) : KeepsCount (new_block dev) s ∧
    (∀ inode block create, (s.inode_table inode).i_dev = dev → KeepsCount (_bmap inode block create) s) ∧
    (∀ z, Returns (free_block dev z) s → (KeepsCount (free_block dev z) s ↔ s.count (dev, z) = 0)) ∧
    (∀ b, Returns (free_ind dev b) s →
      (KeepsCount (free_ind dev b) s ↔ Idle s dev (ind_zones dev s b) ∧ (ind_zones dev s b).Nodup)) ∧
    (∀ b, Returns (free_dind dev b) s →
      (KeepsCount (free_dind dev b) s ↔ Idle s dev (dind_zones dev s b) ∧ (dind_zones dev s b).Nodup)) ∧
    (∀ inode, (s.inode_table inode).i_dev = dev → Returns (truncate inode) s → (KeepsCount (truncate inode) s ↔
        ¬(S_ISREG (s.inode_table inode).i_mode = true ∨ S_ISDIR (s.inode_table inode).i_mode = true) ∨
        Idle s dev ((s.inode_table inode).zones s) ∧ ((s.inode_table inode).zones s).Nodup)) ∧
    (∀ z, sb.InZone z → s.zbit dev sb (sb.bit_nr z) = some true →
      (FreesOrNot dev sb z s ↔ s.count (dev, z) = 0)) := by
  refine ⟨(new_block_balanced M C).keepsCount, fun inode block create hdev =>
    (bmap_balanced M C hdev).keepsCount, fun z hc => ?_, fun b hc => (free_ind_frees M C b).keepsCount hc,
    fun b hc => (free_dind_frees M C b).keepsCount hc, fun inode hdev hc => ?_,
    fun z hzone htaken => free_block_all_or_nothing M C hzone htaken⟩
  · rw [(free_block_frees M C z).keepsCount hc]
    refine ⟨fun h => h.1 z (List.mem_singleton.2 rfl), fun h => ⟨fun y hy => ?_, List.nodup_singleton z⟩⟩
    rwa [List.mem_singleton.1 hy]
  · by_cases hmode : S_ISREG (s.inode_table inode).i_mode = true ∨ S_ISDIR (s.inode_table inode).i_mode = true
    · rw [(truncate_frees M C hdev hmode).keepsCount hc]
      exact ⟨.inr, fun h => h.resolve_left fun hno => hno hmode⟩
    · refine ⟨fun _ => .inl hmode, fun _ a t hc => ?_⟩
      rw [not_or, Bool.not_eq_true, Bool.not_eq_true] at hmode
      have hrun : wp (truncate inode) (fun _ t => t = s) (fun _ _ => True) s := by
        rw [truncate, wp_bind, wp_get]
        dsimp only
        rw [if_pos hmode, wp_pure]
      rw [wp_ok hrun hc]

/-- Nobody uses the buffer of the zone 5. -/
theorem references_given_back_small :
    KeepsCount (free_block 1 5) (smallKernel (fun w => if w = 0 then 7 else 65535) fun _ _ => 0) := by
  have hrun : wp (free_block 1 5) (fun _ _ => True) (fun _ _ => False)
      (smallKernel (fun w => if w = 0 then 7 else 65535) fun _ _ => 0) := by decide
  obtain ⟨a, t, hc, -⟩ := returns_of_wp hrun
  exact ((references_given_back (small_mounted _ _) (small_coherent _ _)).2.2.1 5 ⟨a, t, hc⟩).2 rfl

/-- Somebody uses it: a reference stays behind, and the zone is not freed. -/
theorem free_block_leaves_reference : ∃ s : Kernel, Mounted s 1 smallSuper ∧ Coherent s ∧ smallSuper.InZone 5 ∧
    s.zbit 1 smallSuper (smallSuper.bit_nr 5) = some true ∧
    ¬KeepsCount (free_block 1 5) s ∧ ¬FreesOrNot 1 smallSuper 5 s := by
  have M := small_mounted (fun w => if w = 0 then 7 else 65535) fun _ _ => 0
  have C := small_coherent (fun w => if w = 0 then 7 else 65535) fun _ _ => 0
  refine ⟨(smallKernel (fun w => if w = 0 then 7 else 65535) fun _ _ => 0).set_buffer (1, 5)
    ⟨fun _ => 0, 1, false, true⟩, ⟨M.super, M.inj, fun i bh hi => ?_, fun i bh hi => ?_⟩,
    C.set_buffer (fun _ _ => rfl) (fun h => (by cases h)), by decide, by decide, ?_⟩
  · rw [(small_zmap hi).2]
    exact Nat.one_pos
  · rw [(small_zmap hi).2]
    exact ⟨_, rfl⟩
  have hrun : wp (free_block 1 5)
      (fun _ t => t.count (1, 5) = 2 ∧ t.zbit 1 smallSuper (smallSuper.bit_nr 5) = some true) (fun _ _ => False)
      ((smallKernel (fun w => if w = 0 then 7 else 65535) fun _ _ => 0).set_buffer (1, 5)
        ⟨fun _ => 0, 1, false, true⟩) := by
    decide
  refine ⟨fun hP => ?_, fun hP => ?_⟩
  · obtain ⟨a, t, hc, htwo, -⟩ := returns_of_wp hrun
    rw [hP a t hc] at htwo
    exact absurd htwo (by decide)
  · refine not_wp_false (wp_mono (wp_and hP hrun) ?_ fun _ _ h => h.1)
    rintro _ t ⟨⟨hclear, -⟩ | rfl, htwo, hset⟩
    · rw [hset] at hclear
      cases hclear
    · exact absurd htwo (by decide)

end OldLinux.Volume
