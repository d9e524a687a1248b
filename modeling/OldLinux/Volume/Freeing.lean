import OldLinux.Volume.FreeBlock
import Mathlib.Data.List.Nodup

/-!
# Freeing a list of zones

What `free_block`, `free_ind`, `free_dind` and `truncate` have in common: each frees the zones of a list,
which is read from the blocks that are freed.  If the zones are taken, nobody uses their buffers and none
is there twice, they are freed and nothing else happens.  If somebody uses one of them or one is there
twice, the call stops or leaves a reference behind.
-/

namespace OldLinux.Volume

open Lib

variable {s t u : Kernel} {dev z b n i : ℕ} {sb : SuperBlock} {d : Words} {zs ys : List ℕ}
variable {f g : (ℕ → Inode) → ℕ → Inode} {c c' : VolumeM Unit}

/-! ### Commands that give back no more than they take -/

structure After (dev : ℕ) (sb : SuperBlock) (s t : Kernel) : Prop where
  mounted : Mounted t dev sb
  coherent : Coherent t
  time : t.CURRENT_TIME = s.CURRENT_TIME
  le : ∀ k, s.count k ≤ t.count k

theorem After.refl (M : Mounted s dev sb) (C : Coherent s) : After dev sb s s :=
  ⟨M, C, rfl, fun _ => Nat.le_refl _⟩

theorem After.trans (h : After dev sb s t) (h' : After dev sb t u) : After dev sb s u :=
  ⟨h'.mounted, h'.coherent, h'.time.trans h.time, fun k => (h.le k).trans (h'.le k)⟩

theorem After.of_still (M : Mounted s dev sb) (h : Still s t) (hle : ∀ k, s.count k ≤ t.count k) :
    After dev sb s t :=
  ⟨M.after (Effect.of_still M h) hle, h.coherent, h.time, hle⟩

/-- A buffer has been taken. -/
theorem After.hold (M : Mounted s dev sb) (h : Still s t) {k : Key} (hcount : t.count = held s.count k) :
    After dev sb s t :=
  After.of_still M h fun _ => hcount ▸ le_held ..

/-- The inodes have become those of `f`. -/
def Grows (dev : ℕ) (sb : SuperBlock) (c : VolumeM Unit) (f : (ℕ → Inode) → ℕ → Inode) (s : Kernel) : Prop :=
  wp c (fun _ t => After dev sb s t ∧ t.inode_table = f s.inode_table) (fun _ _ => True) s

theorem Grows.pure (M : Mounted s dev sb) (C : Coherent s) : Grows dev sb (pure ()) id s :=
  ⟨After.refl M C, rfl⟩

theorem Grows.bind (h : Grows dev sb c f s)
    (h' : ∀ t, After dev sb s t → t.inode_table = f s.inode_table → Grows dev sb c' g t) :
    Grows dev sb (c >>= fun _ => c') (g ∘ f) s := by
  rw [Grows, wp_bind]
  refine wp_mono h (fun _ t ht => ?_) fun _ _ h => h
  refine wp_mono (h' t ht.1 ht.2) (fun _ u hu => ⟨ht.1.trans hu.1, ?_⟩) fun _ _ h => h
  rw [hu.2, ht.2]
  rfl

theorem free_block_grows (M : Mounted s dev sb) (C : Coherent s) (z : ℕ) :
    Grows dev sb (free_block dev z) id s := by
  refine wp_free_block M C (fun t _ _ h hcount => ⟨After.hold M h hcount, h.inode_table⟩)
    (fun t _ _ _ e hinode hcount _ => ?_) fun _ _ _ => trivial
  have hle : ∀ k, s.count k ≤ t.count k := fun k => Nat.le_of_eq (congrFun hcount k).symm
  exact ⟨⟨M.after e hle, e.coherent, e.time, hle⟩, hinode⟩

/-! ### Lists of zones -/

def Idle (s : Kernel) (dev : ℕ) (zs : List ℕ) : Prop := ∀ z ∈ zs, s.count (dev, z) = 0

/-- The zones are taken and nobody uses their buffers, and none is there twice. -/
structure Freeable (s : Kernel) (dev : ℕ) (sb : SuperBlock) (zs : List ℕ) : Prop where
  idle : Idle s dev zs
  zone : ∀ z ∈ zs, sb.InZone z
  taken : ∀ z ∈ zs, s.zbit dev sb (sb.bit_nr z) = some true
  nodup : zs.Nodup

theorem Freeable.sublist (h : Freeable s dev sb ys) (hsub : zs.Sublist ys) : Freeable s dev sb zs :=
  ⟨fun z hz => h.idle z (hsub.subset hz), fun z hz => h.zone z (hsub.subset hz),
    fun z hz => h.taken z (hsub.subset hz), h.nodup.sublist hsub⟩

theorem freeable_nil : Freeable s dev sb [] :=
  ⟨fun _ h => (by cases h), fun _ h => (by cases h), fun _ h => (by cases h), List.nodup_nil⟩

/-- Their bits are cleared, and nothing else has happened but for the inodes. -/
structure Freed (dev : ℕ) (sb : SuperBlock) (zs : List ℕ) (s t : Kernel) : Prop where
  effect : Effect dev sb (s.cleared dev sb zs) (fun z => z ∈ zs) s t
  count : t.count = s.count

theorem cleared_nil (s : Kernel) (dev : ℕ) (sb : SuperBlock) : s.cleared dev sb [] = s.zbit dev sb := by
  funext m
  rw [Kernel.cleared, if_neg (by rintro ⟨z, hz, -⟩; cases hz)]

theorem Freed.nil (M : Mounted s dev sb) (h : Still s t) (hcount : t.count = s.count) :
    Freed dev sb [] s t := by
  refine ⟨?_, hcount⟩
  rw [cleared_nil]
  exact (Effect.of_still M h).mono fun _ h => h.elim

theorem Freed.append (h : Freed dev sb zs s t) (h' : Freed dev sb ys t u) : Freed dev sb (zs ++ ys) s u := by
  refine ⟨?_, h'.count.trans h.count⟩
  have e := h.effect.trans (fun k => Nat.le_of_eq (congrFun h.count k).symm) h'.effect
  have hbits : t.cleared dev sb ys = s.cleared dev sb (zs ++ ys) := by
    funext m
    rw [Kernel.cleared, Kernel.cleared, h.effect.bits, Kernel.cleared]
    by_cases hy : ∃ z ∈ ys, sb.bit_nr z = m
    · obtain ⟨z, hz, hm⟩ := hy
      rw [if_pos ⟨z, hz, hm⟩, if_pos ⟨z, List.mem_append_right _ hz, hm⟩]
    · rw [if_neg hy]
      by_cases hz : ∃ z ∈ zs, sb.bit_nr z = m
      · obtain ⟨z, hz, hm⟩ := hz
        rw [if_pos ⟨z, hz, hm⟩, if_pos ⟨z, List.mem_append_left _ hz, hm⟩]
      · rw [if_neg hz, if_neg]
        rintro ⟨z, hmem, hm⟩
        rcases List.mem_append.1 hmem with h1 | h1
        · exact hz ⟨z, h1, hm⟩
        · exact hy ⟨z, h1, hm⟩
  rw [hbits] at e
  exact e.mono fun y hy => List.mem_append.2 hy

/-- A zone that has been freed is not taken any more. -/
theorem Freed.not_taken (h : Freed dev sb zs s t) (hz : z ∈ zs) : t.zbit dev sb (sb.bit_nr z) = some false := by
  rw [h.effect.bits, Kernel.cleared, if_pos ⟨z, hz, rfl⟩]

theorem Freed.still_taken (h : Freed dev sb zs s t) (hzone : ∀ y ∈ zs, sb.InZone y) (hin : sb.InZone z)
    (hz : z ∉ zs) : t.zbit dev sb (sb.bit_nr z) = s.zbit dev sb (sb.bit_nr z) := by
  rw [h.effect.bits, Kernel.cleared, if_neg]
  rintro ⟨y, hy, heq⟩
  rw [SuperBlock.bit_nr_inj (hzone y hy) hin heq] at hy
  exact hz hy

theorem Freed.view (h : Freed dev sb zs s t) (M : Mounted s dev sb) (hidle : s.count (dev, z) = 0)
    (hz : z ∉ zs) : t.view (dev, z) = s.view (dev, z) :=
  h.effect.view _ (fun hk => hz hk.2) (M.not_zmap hidle)

/-! ### Commands that free the zones of a list -/

/-- The zones `zs` have been freed, or a reference has been left behind and somebody uses one of the zones
`ys` or one is there twice. -/
structure Outcome (dev : ℕ) (sb : SuperBlock) (zs ys : List ℕ) (f : (ℕ → Inode) → ℕ → Inode) (s t : Kernel) :
    Prop where
  after : After dev sb s t
  inode_table : t.inode_table = f s.inode_table
  ends : Freeable s dev sb zs ∧ Freed dev sb zs s t ∨ ¬(Idle s dev ys ∧ ys.Nodup) ∧ ∃ k, s.count k < t.count k

def Frees (dev : ℕ) (sb : SuperBlock) (c : VolumeM Unit) (zs ys : List ℕ) (f : (ℕ → Inode) → ℕ → Inode)
    (s : Kernel) : Prop :=
  wp c (fun _ t => Outcome dev sb zs ys f s t) (fun _ _ => ¬Freeable s dev sb ys) s

theorem Frees.pure (M : Mounted s dev sb) (C : Coherent s) : Frees dev sb (pure ()) [] [] id s :=
  ⟨After.refl M C, rfl, .inl ⟨freeable_nil, Freed.nil M (Still.refl C) rfl⟩⟩

theorem free_block_frees (M : Mounted s dev sb) (C : Coherent s) (z : ℕ) :
    Frees dev sb (free_block dev z) [z] [z] id s := by
  refine wp_free_block M C (fun t _ hbusy h hcount => ?_)
    (fun t hzone hset hidle e hinode hcount _ => ?_) fun hno _ _ hfreeable => ?_
  · refine ⟨After.hold M h hcount, h.inode_table, .inr ⟨fun hidle => ?_, (dev, z), ?_⟩⟩
    · have hzero := hidle.1 z (List.mem_singleton.2 rfl)
      omega
    · rw [hcount, held_self]
      omega
  · have hle : ∀ k, s.count k ≤ t.count k := fun k => Nat.le_of_eq (congrFun hcount k).symm
    refine ⟨⟨M.after e hle, e.coherent, e.time, hle⟩, hinode, .inl ⟨⟨?_, ?_, ?_, List.nodup_singleton z⟩,
      e.mono fun y hy => List.mem_singleton.2 hy, hcount⟩⟩
    · intro y hy
      rw [List.mem_singleton.1 hy, hidle]
    · intro y hy
      rwa [List.mem_singleton.1 hy]
    · intro y hy
      rwa [List.mem_singleton.1 hy]
  · have hmem : z ∈ [z] := List.mem_singleton.2 rfl
    rcases hno with hno | ⟨-, hno⟩
    · exact hno (hfreeable.zone z hmem)
    · exact hno (hfreeable.taken z hmem)

theorem Frees.grows (h : Frees dev sb c zs ys f s) : Grows dev sb c f s :=
  wp_mono h (fun _ _ ht => ⟨ht.after, ht.inode_table⟩) fun _ _ _ => trivial

theorem Frees.set_inodes {F : Kernel → Kernel} (M : Mounted s dev sb) (C : Coherent s)
    (hF : F s = { s with inode_table := f s.inode_table }) : Frees dev sb (modify F) [] [] f s := by
  rw [Frees, wp_modify, hF]
  have M' : Mounted { s with inode_table := f s.inode_table } dev sb := ⟨M.super, M.inj, M.held, M.read⟩
  have C' : Coherent { s with inode_table := f s.inode_table } := ⟨C.clean, C.dirty⟩
  refine ⟨⟨M', C', rfl, fun _ => Nat.le_refl _⟩, rfl, .inl ⟨freeable_nil, ?_, rfl⟩⟩
  rw [cleared_nil]
  exact ⟨rfl, rfl, rfl, M.read, fun _ _ _ => rfl, fun _ _ _ _ _ h => h, C'⟩

/-- The list depends on nothing but what its blocks hold. -/
def Local (dev : ℕ) (L : Kernel → List ℕ) : Prop :=
  ∀ s t, (∀ z ∈ L s, t.view (dev, z) = s.view (dev, z)) → L t = L s

theorem Local.append {L K : Kernel → List ℕ} (hL : Local dev L) (hK : Local dev K) :
    Local dev fun s => L s ++ K s := by
  intro s t hview
  have h1 := hL s t fun z hz => hview z (List.mem_append_left _ hz)
  have h2 := hK s t fun z hz => hview z (List.mem_append_right _ hz)
  dsimp only
  rw [h1, h2]

/-- **One after the other.**  What the second command frees may be read from blocks that the first one has
freed: then a zone is there twice. -/
theorem Frees.bind {L : Kernel → List ℕ} (M : Mounted s dev sb) (hlocal : Local dev L)
    (h : Frees dev sb c zs ys f s) (hsub : ys.Sublist (zs ++ L s))
    (hgrows : ∀ t, After dev sb s t → t.inode_table = f s.inode_table → Grows dev sb c' g t)
    (h' : ∀ t, After dev sb s t → t.inode_table = f s.inode_table → Freeable s dev sb zs →
      Freed dev sb zs s t → Frees dev sb c' (L t) (L t) g t) :
    Frees dev sb (c >>= fun _ => c') (zs ++ L s) (zs ++ L s) (g ∘ f) s := by
  rw [Frees, wp_bind]
  refine wp_mono h (fun _ t ht => ?_) fun _ _ hno hyes => hno (hyes.sublist hsub)
  obtain ⟨hafter, hinode, hends⟩ := ht
  have hinodes : ∀ u : Kernel, u.inode_table = g t.inode_table → u.inode_table = (g ∘ f) s.inode_table := by
    intro u hu
    rw [hu, hinode]
    rfl
  rcases hends with ⟨hfreeable, hfreed⟩ | ⟨hused, k, hk⟩
  · -- the first has freed its zones: as long as the others are not among them, they hold what they held
    have hsame : Idle s dev (L s) → (zs ++ L s).Nodup → L t = L s := fun hidle hnodup =>
      hlocal s t fun z hz => hfreed.view M (hidle z hz) fun hmem => hnodup.disjoint hmem hz
    refine wp_mono (h' t hafter hinode hfreeable hfreed) (fun _ u hu => ?_) fun _ _ hno hyes => hno ?_
    · obtain ⟨hafter', hinode', hends'⟩ := hu
      refine ⟨hafter.trans hafter', hinodes u hinode', ?_⟩
      rcases hends' with ⟨hfreeable', hfreed'⟩ | ⟨hused', k, hk⟩
      · refine .inl ?_
        have hnew : ∀ z ∈ L t, z ∉ zs := by
          intro z hz hmem
          have hset := hfreeable'.taken z hz
          rw [hfreed.not_taken hmem] at hset
          cases hset
        have hcount : ∀ z ∈ L t, s.count (dev, z) = 0 := by
          intro z hz
          rw [← hfreed.count]
          exact hfreeable'.idle z hz
        have heq : L s = L t := hlocal t s fun z hz => (hfreed.view M (hcount z hz) (hnew z hz)).symm
        rw [heq]
        refine ⟨⟨?_, ?_, ?_, ?_⟩, hfreed.append hfreed'⟩
        · intro z hz
          rcases List.mem_append.1 hz with hz | hz
          · exact hfreeable.idle z hz
          · exact hcount z hz
        · intro z hz
          rcases List.mem_append.1 hz with hz | hz
          · exact hfreeable.zone z hz
          · exact hfreeable'.zone z hz
        · intro z hz
          rcases List.mem_append.1 hz with hz | hz
          · exact hfreeable.taken z hz
          · rw [← hfreed.still_taken hfreeable.zone (hfreeable'.zone z hz) (hnew z hz)]
            exact hfreeable'.taken z hz
        · exact hfreeable.nodup.append hfreeable'.nodup fun z hz hz' => hnew z hz' hz
      · refine .inr ⟨fun hno => hused' ?_, k, by rwa [← hfreed.count]⟩
        have hidle : Idle s dev (L s) := fun z hz => hno.1 z (List.mem_append_right _ hz)
        rw [hsame hidle hno.2, Idle, hfreed.count]
        exact ⟨hidle, hno.2.of_append_right⟩
    · have hright := hyes.sublist (List.sublist_append_right zs (L s))
      rw [hsame hright.idle hyes.nodup]
      refine ⟨?_, hright.zone, fun z hz => ?_, hright.nodup⟩
      · rw [Idle, hfreed.count]
        exact hright.idle
      · rw [hfreed.still_taken hfreeable.zone (hright.zone z hz) fun hmem => hyes.nodup.disjoint hmem hz]
        exact hright.taken z hz
  · -- a reference has been left behind
    have hboth : ¬(Idle s dev (zs ++ L s) ∧ (zs ++ L s).Nodup) := fun hno =>
      hused ⟨fun z hz => hno.1 z (hsub.subset hz), hno.2.sublist hsub⟩
    refine wp_mono (hgrows t hafter hinode) (fun _ u hu => ?_) fun _ _ _ hyes => hboth ⟨hyes.idle, hyes.nodup⟩
    exact ⟨hafter.trans hu.1, hinodes u hu.2, .inr ⟨hboth, k, Nat.lt_of_lt_of_le hk (hu.1.le k)⟩⟩

end OldLinux.Volume
