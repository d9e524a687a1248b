import Mathlib.Data.List.OfFn
import Mathlib.Tactic.IntervalCases
import OldLinux.Volume.Allocation
import OldLinux.Volume.Super

/-!
# What `read_super` needs of a disk

The sizes of the bitmaps come from the disk.  The loops store behind the arrays if a bitmap has more than
eight blocks and the first eight can be read; and if a bitmap has none, the first bit is set through a null
pointer.
-/

namespace OldLinux.Volume

open Function Lib

variable {s t u : Kernel} {k : Key} {c : Key → ℕ} {ks : List Key} {dev n i block m : ℕ} {slot : Fin 8}
variable {sb : SuperBlock} {d : Words} {old : Fin 8 → Option ℕ}

/-! ### References -/

/-- One user more for each of these buffers. -/
def plus (c : Key → ℕ) (ks : List Key) (k : Key) : ℕ := c k + ks.count k

theorem plus_cons (c : Key → ℕ) (k : Key) (ks : List Key) : plus c (k :: ks) = held (plus c ks) k := by
  funext j
  by_cases h : j = k
  · rw [h, held_self, plus, plus, List.count_cons_self, Nat.add_assoc]
  · rw [held_of_ne _ h, plus, plus, List.count_cons_of_ne (Ne.symm h)]

theorem plus_held (c : Key → ℕ) (k : Key) (ks : List Key) : plus (held c k) ks = plus c (k :: ks) := by
  rw [plus_cons]
  funext j
  by_cases h : j = k
  · rw [h, held_self, plus, held_self, plus]
    omega
  · rw [held_of_ne _ h, plus, held_of_ne _ h, plus]

theorem plus_append (c : Key → ℕ) (ks ks' : List Key) : plus (plus c ks) ks' = plus c (ks ++ ks') := by
  funext j
  rw [plus, plus, plus, List.count_append, Nat.add_assoc]

/-- The states show the same blocks. -/
structure Looks (s t : Kernel) : Prop where
  view : t.view = s.view
  coherent : Coherent t

theorem Looks.trans (h : Looks s t) (h' : Looks t u) : Looks s u := ⟨h'.view.trans h.view, h'.coherent⟩

theorem Still.looks (h : Still s t) : Looks s t := ⟨h.view, h.coherent⟩

theorem Looks.set_super (C : Coherent s) (i : Fin 8) (f : SuperBlock → SuperBlock) :
    Looks s (s.set_super i f) := ⟨rfl, C.clean, C.dirty⟩

theorem set_super_self (s : Kernel) (i : Fin 8) (f : SuperBlock → SuperBlock) :
    (s.set_super i f).super_block i = f (s.super_block i) := update_self ..

theorem set_super_of_ne (s : Kernel) {i j : Fin 8} (f : SuperBlock → SuperBlock) (h : j ≠ i) :
    (s.set_super i f).super_block j = s.super_block j := update_of_ne h ..

/-- The buffers of a list of pointers. -/
def pointed (dev : ℕ) (map : List (Option ℕ)) : List Key := (map.filterMap id).map fun bh => (dev, bh)

theorem wp_brelse_map {Q : Unit → Kernel → Prop} {E : Stop → Kernel → Prop} (map : List (Option ℕ)) :
    ∀ s, Coherent s → s.count = plus c (pointed dev map) →
      (∀ t, Looks s t → t.super_block = s.super_block → t.count = c → Q () t) →
      wp (brelse_map dev map) Q E s := by
  induction map with
  | nil =>
    intro s C hcount hQ
    exact hQ s ⟨rfl, C⟩ rfl hcount
  | cons p map ih =>
    intro s C hcount hQ
    cases p with
    | none => exact ih s C hcount hQ
    | some bh =>
      have hheld : s.count = held (plus c (pointed dev map)) (dev, bh) := by
        rw [hcount, ← plus_cons]
        rfl
      rw [brelse_map, wp_bind]
      refine wp_brelse C hheld fun t hstill hcount' => ?_
      refine ih t hstill.coherent hcount' fun u hu hsuper hcountu => ?_
      exact hQ u (hstill.looks.trans hu) (hsuper.trans hstill.super_block) hcountu

/-- The buffers that a super block holds. -/
def SuperBlock.pointed (sb : SuperBlock) (dev : ℕ) : List Key :=
  Volume.pointed dev (List.ofFn sb.s_imap) ++ Volume.pointed dev (List.ofFn sb.s_zmap)

theorem wp_brelse_maps {Q : Unit → Kernel → Prop} {E : Stop → Kernel → Prop} (C : Coherent s)
    (hcount : s.count = plus c (sb.pointed dev))
    (hQ : ∀ t, Looks s t → t.super_block = s.super_block → t.count = c → Q () t) :
    wp (brelse_maps dev sb) Q E s := by
  have hswap : s.count = plus (plus c (pointed dev (List.ofFn sb.s_zmap)))
      (pointed dev (List.ofFn sb.s_imap)) := by
    rw [hcount]
    funext j
    rw [plus, plus, plus, SuperBlock.pointed, List.count_append]
    omega
  rw [brelse_maps, wp_bind]
  refine wp_brelse_map _ s C hswap fun t ht hsuper hcount' => ?_
  refine wp_brelse_map _ t ht.coherent hcount' fun u hu hsuper' hcountu => ?_
  exact hQ u (ht.trans hu) (hsuper'.trans hsuper) hcountu

/-! ### The loop -/

/-- The array when the blocks from `block` on have been read, as many as `m`, the first for the entry `i`. -/
def loaded (old : Fin 8 → Option ℕ) (i block m : ℕ) (j : Fin 8) : Option ℕ :=
  if i ≤ j.val ∧ j.val < i + m then some (block + (j.val - i)) else old j

theorem loaded_zero (old : Fin 8 → Option ℕ) (i block : ℕ) : loaded old i block 0 = old := by
  funext j
  rw [loaded, if_neg (by omega)]

theorem loaded_succ (old : Fin 8 → Option ℕ) (h : i < 8) (block m : ℕ) :
    loaded (update old ⟨i, h⟩ (some block)) (i + 1) (block + 1) m = loaded old i block (m + 1) := by
  funext j
  rw [loaded, loaded]
  by_cases hj : j.val = i
  · have hji : j = ⟨i, h⟩ := Fin.ext hj
    rw [if_neg (by omega), if_pos (by omega), hji, update_self, Nat.sub_self, Nat.add_zero]
  · rw [update_of_ne fun h' => hj (congrArg Fin.val h')]
    by_cases hin : i + 1 ≤ j.val ∧ j.val < i + 1 + m
    · rw [if_pos hin, if_pos (by omega)]
      congr 1
      omega
    · rw [if_neg hin, if_neg (by omega)]

theorem loaded_ne_none (block m : ℕ) (j : Fin 8) : loaded (fun _ => none) 0 block m j ≠ none ↔ j.val < m := by
  rw [loaded, Nat.zero_add]
  split_ifs with h
  · exact ⟨fun _ => h.2, fun _ => nofun⟩
  · exact ⟨fun h' => absurd rfl h', fun h' => absurd ⟨Nat.zero_le _, h'⟩ h⟩

theorem loaded_first (block m : ℕ) :
    loaded (fun _ => none) 0 block m 0 = if 0 < m then some block else none := by
  rw [loaded, Nat.zero_add]
  by_cases h : 0 < m
  · rw [if_pos h, if_pos ⟨Nat.le_refl _, h⟩]
    rfl
  · rw [if_neg h, if_neg fun h' => h h'.2]

theorem pointed_loaded (hm : m ≤ 8) (dev block : ℕ) :
      pointed dev (List.ofFn (loaded (fun _ => none) 0 block m)) =
      (List.range' block m).map fun bh => (dev, bh) := by
  rw [pointed]
  congr 1
  interval_cases m <;> rfl

/-- What the loop has done when it ends: it has read `m` blocks of `n`. -/
structure LoopEnd (set : (Fin 8 → Option ℕ) → SuperBlock → SuperBlock)
    (map : SuperBlock → Fin 8 → Option ℕ) (slot : Fin 8) (dev n i block m : ℕ) (s t : Kernel) : Prop where
  le : m ≤ n
  inside : i + m ≤ 8
  read : ∀ j < m, s.view (dev, block + j) ≠ none
  stop : m < n → i + m < 8 ∧ s.view (dev, block + m) = none
  looks : Looks s t
  count : t.count = plus s.count ((List.range' block m).map fun bh => (dev, bh))
  super_block : t.super_block = update s.super_block slot
    (set (loaded (map (s.super_block slot)) i block m) (s.super_block slot))

theorem wp_load_map (set : (Fin 8 → Option ℕ) → SuperBlock → SuperBlock)
    (map : SuperBlock → Fin 8 → Option ℕ) (slot : Fin 8) (dev : ℕ) (hget : ∀ m sb, map (set m sb) = m)
    (hset : ∀ m m' sb, set m' (set m sb) = set m' sb) (hself : ∀ sb, set (map sb) sb = sb) :
    ∀ n i block s, Coherent s → i ≤ 8 → (∀ j : Fin 8, i ≤ j.val → map (s.super_block slot) j = none) →
      wp (load_map set map slot dev n i block)
        (fun block' t => ∃ m, block' = block + m ∧ LoopEnd set map slot dev n i block m s t)
        (fun _ _ => ¬(i + n ≤ 8 ∨ ∃ j, i + j < 8 ∧ s.view (dev, block + j) = none)) s := by
  intro n
  induction n with
  | zero =>
    intro i block s C hi _
    refine ⟨0, rfl, Nat.le_refl 0, hi, fun j hj => absurd hj (Nat.not_lt_zero j),
      fun h => absurd h (Nat.lt_irrefl 0), ⟨rfl, C⟩, rfl, ?_⟩
    rw [loaded_zero, hself, update_eq_self]
  | succ n ih =>
    intro i block s C hi hnone
    rw [load_map, wp_bind]
    refine wp_bread C (fun t hview hstill hcount => ?_) fun d t hview hstill hcount _ => ?_
    · rw [wp_bind]
      by_cases h : i < 8
      · rw [dif_pos h, wp_modify, if_neg Bool.false_ne_true, wp_pure]
        have hsame : update (map (t.super_block slot)) ⟨i, h⟩
            (if false = true then some block else none) = map (t.super_block slot) := by
          rw [if_neg Bool.false_ne_true, hstill.super_block, ← hnone ⟨i, h⟩ (Nat.le_refl i), update_eq_self]
        refine ⟨0, rfl, Nat.zero_le _, hi, fun j hj => absurd hj (Nat.not_lt_zero j), fun _ => ⟨h, hview⟩,
          hstill.looks.trans (Looks.set_super hstill.coherent _ _), hcount, ?_⟩
        rw [loaded_zero, hself, Kernel.set_super]
        dsimp only
        rw [hsame, hself, hstill.super_block]
      · rw [dif_neg h, wp_throw]
        rintro (h' | ⟨j, h', -⟩) <;> omega
    · rw [wp_bind]
      by_cases h : i < 8
      · rw [dif_pos h, wp_modify, if_pos rfl, if_pos rfl]
        generalize hu : t.set_super slot _ = u
        have hlook : Looks s u := hu ▸ hstill.looks.trans (Looks.set_super hstill.coherent _ _)
        have hsuper : u.super_block = update s.super_block slot
            (set (update (map (s.super_block slot)) ⟨i, h⟩ (some block)) (s.super_block slot)) := by
          rw [← hu, ← hstill.super_block]
          rfl
        have hcountu : u.count = held s.count (dev, block) := by
          rw [← hu]
          exact hcount
        have hslot : map (u.super_block slot) = update (map (s.super_block slot)) ⟨i, h⟩ (some block) := by
          rw [hsuper, update_self, hget]
        refine wp_mono (ih (i + 1) (block + 1) u hlook.coherent h fun j hj => ?_) ?_ ?_
        · have hne : j ≠ ⟨i, h⟩ := fun heq => by
            rw [heq] at hj
            exact absurd hj (Nat.not_succ_le_self i)
          rw [hslot, update_of_ne hne]
          exact hnone j (by omega)
        · rintro block' v ⟨m, hblock, L⟩
          refine ⟨m + 1, by omega, Nat.succ_le_succ L.le, by have h1 := L.inside; omega, fun j hj => ?_,
            fun hlt => ?_, hlook.trans L.looks, ?_, ?_⟩
          · cases j with
            | zero =>
              rw [Nat.add_zero, hview]
              exact nofun
            | succ j =>
              have hread := L.read j (by omega)
              rwa [hlook.view, Nat.add_assoc, Nat.add_comm 1] at hread
          · obtain ⟨h1, h2⟩ := L.stop (by omega)
            rw [hlook.view, Nat.add_assoc, Nat.add_comm 1] at h2
            exact ⟨by omega, h2⟩
          · rw [L.count, hcountu, plus_held, List.range'_succ, List.map_cons]
          · rw [L.super_block, hslot, hsuper, update_idem, update_self, hset, loaded_succ]
        · intro e v hno
          rintro (h' | ⟨j, hj, hnone'⟩)
          · exact hno (.inl (by omega))
          · cases j with
            | zero =>
              rw [Nat.add_zero, hview] at hnone'
              cases hnone'
            | succ j =>
              refine hno (.inr ⟨j, by omega, ?_⟩)
              rw [hlook.view, ← hnone', Nat.add_assoc, Nat.add_comm 1]
      · rw [dif_neg h, wp_throw]
        rintro (h' | ⟨j, h', -⟩) <;> omega

/-- The bitmap has no more than eight blocks, or one of the first eight cannot be read. -/
def Fits (s : Kernel) (dev first n : ℕ) : Prop := n ≤ 8 ∨ ∃ j < 8, s.view (dev, first + j) = none

def AllRead (s : Kernel) (dev first n : ℕ) : Prop := ∀ j < n, s.view (dev, first + j) ≠ none

theorem Fits.congr {first : ℕ} (h : t.view = s.view) : Fits t dev first n ↔ Fits s dev first n := by
  rw [Fits, Fits, h]

theorem wp_load_imap (C : Coherent s) (hnone : ∀ j, (s.super_block slot).s_imap j = none) (n block : ℕ) :
    wp (load_imap slot dev n 0 block) (fun block' t => ∃ m, block' = block + m ∧
        LoopEnd (fun map sb => { sb with s_imap := map }) SuperBlock.s_imap slot dev n 0 block m s t)
      (fun _ _ => ¬Fits s dev block n) s := by
  have hrun := wp_load_map (fun map sb => { sb with s_imap := map }) SuperBlock.s_imap slot dev (fun _ _ => rfl)
    (fun _ _ _ => rfl) (fun _ => rfl) n 0 block s C (Nat.zero_le 8) fun j _ => hnone j
  simp only [Nat.zero_add] at hrun
  exact hrun

theorem wp_load_zmap (C : Coherent s) (hnone : ∀ j, (s.super_block slot).s_zmap j = none) (n block : ℕ) :
    wp (load_zmap slot dev n 0 block) (fun block' t => ∃ m, block' = block + m ∧
        LoopEnd (fun map sb => { sb with s_zmap := map }) SuperBlock.s_zmap slot dev n 0 block m s t)
      (fun _ _ => ¬Fits s dev block n) s := by
  have hrun := wp_load_map (fun map sb => { sb with s_zmap := map }) SuperBlock.s_zmap slot dev (fun _ _ => rfl)
    (fun _ _ _ => rfl) (fun _ => rfl) n 0 block s C (Nat.zero_le 8) fun j _ => hnone j
  simp only [Nat.zero_add] at hrun
  exact hrun

/-! ### The result -/

/-- A super block whose bitmaps are there, as many blocks of each as it says. -/
structure Loaded (sb : SuperBlock) : Prop where
  magic : sb.s_magic = SUPER_MAGIC
  imap_blocks : sb.s_imap_blocks ≤ 8
  zmap_blocks : sb.s_zmap_blocks ≤ 8
  imap : ∀ j, sb.s_imap j ≠ none ↔ j.val < sb.s_imap_blocks
  zmap : ∀ j, sb.s_zmap j ≠ none ↔ j.val < sb.s_zmap_blocks

/-- The slot is free again, and every buffer has been given back. -/
structure NotThere (slot : Fin 8) (c : Key → ℕ) (s t : Kernel) : Prop where
  others : ∀ j, j ≠ slot → t.super_block j = s.super_block j
  free : (t.super_block slot).s_dev = 0
  unlocked : (t.super_block slot).s_lock = false
  count : t.count = c

/-- The super block is in the slot and holds its bitmaps, with one reference each. -/
structure There (dev : ℕ) (slot : Fin 8) (c : Key → ℕ) (s t : Kernel) : Prop where
  others : ∀ j, j ≠ slot → t.super_block j = s.super_block j
  s_dev : (t.super_block slot).s_dev = dev
  unlocked : (t.super_block slot).s_lock = false
  loaded : Loaded (t.super_block slot)
  count : t.count = plus c ((t.super_block slot).pointed dev)

/-- What the sizes in block 1 must be like. -/
structure SafeHeader (s : Kernel) (dev : ℕ) (d : Words) : Prop where
  imap : Fits s dev 2 (d 2)
  zmap : AllRead s dev 2 (d 2) → Fits s dev (2 + d 2) (d 3)
  first : AllRead s dev 2 (d 2 + d 3) → 0 < d 2 ∧ 0 < d 3

theorem SafeHeader.congr (h : t.view = s.view) : SafeHeader t dev d ↔ SafeHeader s dev d := by
  have hfits : ∀ first n, Fits t dev first n ↔ Fits s dev first n := fun _ _ => Fits.congr h
  have hread : ∀ first n, AllRead t dev first n ↔ AllRead s dev first n := fun first n => by
    rw [AllRead, AllRead, h]
  constructor
  · intro H
    refine ⟨(hfits _ _).1 H.imap, fun h => (hfits _ _).1 (H.zmap ((hread _ _).2 h)), fun h => ?_⟩
    exact H.first ((hread _ _).2 h)
  · intro H
    refine ⟨(hfits _ _).2 H.imap, fun h => (hfits _ _).2 (H.zmap ((hread _ _).1 h)), fun h => ?_⟩
    exact H.first ((hread _ _).1 h)

theorem wp_no_super {Q : Option (Fin 8) → Kernel → Prop} {E : Stop → Kernel → Prop} (hcount : t.count = c)
    (hothers : ∀ j, j ≠ slot → t.super_block j = s.super_block j)
    (hQ : ∀ u, NotThere slot c s u → Q none u) : wp (no_super slot) Q E t := by
  rw [no_super, wp_bind, wp_modify, wp_bind, free_super, wp_modify, wp_pure]
  refine hQ _ ⟨fun j hj => ?_, ?_, ?_, hcount⟩
  · rw [set_super_of_ne _ _ hj, set_super_of_ne _ _ hj, hothers j hj]
  · rw [set_super_self, set_super_self]
  · rw [set_super_self]

theorem wp_set_first_bit {Q : Unit → Kernel → Prop} {E : Stop → Kernel → Prop} {bh : ℕ}
    (hpos : 0 < s.count (dev, bh)) (hQ : ∀ t, t.count = s.count → t.super_block = s.super_block → Q () t) :
    wp (set_first_bit dev (some bh)) Q E s := by
  obtain ⟨b, hb⟩ := exists_buffer hpos
  rw [set_first_bit, wp_bind]
  refine wp_the_buffer hb ?_
  rw [wp_modify]
  refine hQ _ ?_ rfl
  rw [set_buffer_count, ← count_of_buffer hb, update_eq_self]

theorem wp_load_super (C : Coherent s)
    (hinfo : s.info (dev, 1) = some (d, true)) (hcount : s.count = held c (dev, 1))
    (hdev : (s.super_block slot).s_dev = dev) :
    wp (load_super slot dev) (fun r t => (d 8 = SUPER_MAGIC → SafeHeader s dev d) ∧
        match r with
        | none => NotThere slot c s t
        | some i => i = slot ∧ There dev slot c s t)
      (fun _ _ => ¬(d 8 = SUPER_MAGIC → SafeHeader s dev d)) s := by
  obtain ⟨b, hb, hbd, -⟩ := buffer_of_info hinfo
  rw [load_super, wp_bind]
  refine wp_the_buffer hb ?_
  rw [wp_bind, wp_modify, wp_bind, hbd]
  have hcopy := Looks.set_super C slot fun sb => sb.copy d
  refine wp_brelse hcopy.coherent hcount fun t hstill hcountt => ?_
  have hlook := hcopy.trans hstill.looks
  have hsuper : t.super_block = update s.super_block slot ((s.super_block slot).copy d) :=
    hstill.super_block
  have hslot : t.super_block slot = (s.super_block slot).copy d := by rw [hsuper, update_self]
  have hothers : ∀ j, j ≠ slot → t.super_block j = s.super_block j := fun j hj => by
    rw [hsuper, update_of_ne hj]
  rw [wp_bind, wp_get]
  dsimp only
  rw [hslot, wp_ite]
  refine ⟨fun hmagic => ?_, fun hmagic => ?_⟩
  · have hno : d 8 ≠ SUPER_MAGIC := hmagic
    exact wp_no_super hcountt hothers fun u hu => ⟨fun h => absurd h hno, hu⟩
  have hyes : d 8 = SUPER_MAGIC := not_not.1 hmagic
  have hiff : (d 8 = SUPER_MAGIC → SafeHeader s dev d) ↔ SafeHeader s dev d :=
    ⟨fun h => h hyes, fun h _ => h⟩
  simp only [hiff]
  rw [wp_bind, wp_modify]
  generalize ht' : t.set_super slot _ = t'
  have hsuper' : t'.super_block = update s.super_block slot
      { (s.super_block slot).copy d with s_imap := fun _ => none, s_zmap := fun _ => none } := by
    rw [← ht']
    show update t.super_block slot _ = _
    rw [hslot, hsuper, update_idem]
  have hlook' : Looks s t' := hlook.trans (ht' ▸ Looks.set_super hlook.coherent _ _)
  have hcount' : t'.count = c := by
    rw [← ht']
    exact hcountt
  rw [wp_bind]
  refine wp_mono (wp_load_imap hlook'.coherent (fun j => by rw [hsuper', update_self]) (d 2) 2) ?_
    fun _ _ hno hsafe => hno ((Fits.congr hlook'.view).2 hsafe.imap)
  rintro _ u ⟨m, rfl, L⟩
  have hlooku := hlook'.trans L.looks
  have hsuperu := L.super_block
  rw [hsuper', update_self, update_idem] at hsuperu
  rw [wp_bind]
  refine wp_mono (wp_load_zmap hlooku.coherent (fun j => by rw [hsuperu, update_self]) (d 3)
    (2 + m)) ?_ fun _ _ hno hsafe => hno ?_
  rotate_left
  · by_cases hm : m < d 2
    · -- the block that could not be read is tried again
      refine .inr ⟨0, by omega, ?_⟩
      rw [L.looks.view]
      exact (L.stop hm).2
    · have hmd : m = d 2 := Nat.le_antisymm L.le (Nat.not_lt.1 hm)
      have hfits := hsafe.zmap fun j hj => by
        rw [← hlook'.view]
        exact L.read j (hmd ▸ hj)
      rwa [hmd, Fits.congr hlooku.view]
  rintro _ v ⟨n, rfl, L'⟩
  have hlookv := hlooku.trans L'.looks
  have hsuperv := L'.super_block
  rw [hsuperu, update_self, update_idem] at hsuperv
  have hslotv : v.super_block slot = { (s.super_block slot).copy d with
      s_imap := loaded (fun _ => none) 0 2 m, s_zmap := loaded (fun _ => none) 0 (2 + m) n } := by
    rw [hsuperv, update_self]
  have hothersv : ∀ j, j ≠ slot → v.super_block j = s.super_block j := fun j hj => by
    rw [hsuperv, update_of_ne hj]
  have hm8 : m ≤ 8 := by have h1 := L.inside; omega
  have hn8 : n ≤ 8 := by have h1 := L'.inside; omega
  have hcountv : v.count = plus c ((v.super_block slot).pointed dev) := by
    rw [L'.count, L.count, hcount', plus_append, hslotv, SuperBlock.pointed, pointed_loaded hm8,
      pointed_loaded hn8]
  rw [wp_bind, wp_get, wp_ite]
  refine ⟨fun hshort => ?_, fun hall => ?_⟩
  · have hblocks : 2 + m + n ≠ 2 + d 2 + d 3 := hshort
    have h1 := L.le
    have h2 := L'.le
    rw [wp_bind]
    refine wp_brelse_maps hlookv.coherent hcountv fun w hw hsuperw hcountw => ?_
    refine wp_no_super hcountw (fun j hj => by rw [hsuperw, hothersv j hj]) fun x hx => ⟨?_, hx⟩
    by_cases hm : m < d 2
    · obtain ⟨h3, h4⟩ := L.stop hm
      rw [hlook'.view] at h4
      exact ⟨.inr ⟨m, by omega, h4⟩, fun h => absurd h4 (h m hm), fun h => absurd h4 (h m (by omega))⟩
    · have hmd : m = d 2 := by omega
      obtain ⟨h3, h4⟩ := L'.stop (by omega)
      rw [hlooku.view, hmd] at h4
      refine ⟨.inl (by omega), fun _ => .inr ⟨n, by omega, h4⟩, fun h => ?_⟩
      rw [Nat.add_assoc] at h4
      exact absurd h4 (h (d 2 + n) (by omega))
  · have hblocks : 2 + m + n = 2 + d 2 + d 3 := not_not.1 hall
    have h1 := L.le
    have h2 := L'.le
    have hm : m = d 2 := by omega
    have hn : n = d 3 := by omega
    have hread : AllRead s dev 2 (d 2 + d 3) := by
      intro j hj
      by_cases hlt : j < m
      · rw [← hlook'.view]
        exact L.read j hlt
      · have h3 := L'.read (j - m) (by omega)
        rw [hlooku.view, show 2 + m + (j - m) = 2 + j by omega] at h3
        exact h3
    have hpos : ∀ bh, (dev, bh) ∈ (v.super_block slot).pointed dev → 0 < v.count (dev, bh) := by
      intro bh hmem
      rw [hcountv, plus]
      have hone := List.count_pos_iff.2 hmem
      omega
    have himap : (v.super_block slot).s_imap = loaded (fun _ => none) 0 2 m := by rw [hslotv]
    have hzmap : (v.super_block slot).s_zmap = loaded (fun _ => none) 0 (2 + m) n := by rw [hslotv]
    rw [wp_bind, himap, hzmap]
    by_cases hi0 : d 2 = 0
    · rw [loaded_first, if_neg (by omega)]
      intro hsafe
      have h3 := (hsafe.first hread).1
      omega
    rw [loaded_first, if_pos (by omega)]
    refine wp_set_first_bit (hpos 2 ?_) fun w hcountw hsuperw => ?_
    · rw [SuperBlock.pointed, himap, pointed_loaded hm8]
      exact List.mem_append_left _ (List.mem_map.2 ⟨2, List.mem_range'_1.2 (by omega), rfl⟩)
    rw [wp_bind]
    by_cases hz0 : d 3 = 0
    · rw [loaded_first, if_neg (by omega)]
      intro hsafe
      have h3 := (hsafe.first hread).2
      omega
    rw [loaded_first, if_pos (by omega)]
    refine wp_set_first_bit (hcountw ▸ hpos (2 + m) ?_) fun x hcountx hsuperx => ?_
    · rw [SuperBlock.pointed, hzmap, pointed_loaded hn8]
      exact List.mem_append_right _ (List.mem_map.2 ⟨2 + m, List.mem_range'_1.2 (by omega), rfl⟩)
    rw [wp_bind, free_super, wp_modify, wp_pure]
    have hslotx : x.super_block slot = v.super_block slot := by rw [hsuperx, hsuperw]
    refine ⟨⟨.inl (by omega), fun _ => .inl (by omega), fun _ => ⟨by omega, by omega⟩⟩, rfl, fun j hj => ?_,
      ?_, ?_, ?_, ?_⟩
    · rw [set_super_of_ne _ _ hj, hsuperx, hsuperw, hothersv j hj]
    · rw [set_super_self, hslotx, hslotv]
      exact hdev
    · rw [set_super_self]
    · rw [set_super_self, hslotx, hslotv]
      refine ⟨hyes, show d 2 ≤ 8 by omega, show d 3 ≤ 8 by omega, fun j => ?_, fun j => ?_⟩
      · show loaded (fun _ => none) 0 2 m j ≠ none ↔ j.val < d 2
        rw [loaded_ne_none, hm]
      · show loaded (fun _ => none) 0 (2 + m) n j ≠ none ↔ j.val < d 3
        rw [loaded_ne_none, hn]
    · rw [set_super_self, hslotx]
      show x.count = plus c ((v.super_block slot).pointed dev)
      rw [hcountx, hcountw, hcountv]

/-! ### The table -/

/-- Every device in the table has one slot, and its super block holds its bitmaps; nobody is at work on one. -/
structure Table (s : Kernel) : Prop where
  loaded : ∀ i, (s.super_block i).s_dev ≠ 0 → Loaded (s.super_block i)
  held : ∀ i, (s.super_block i).s_dev ≠ 0 →
    ∀ k, ((s.super_block i).pointed (s.super_block i).s_dev).count k ≤ s.count k
  unlocked : ∀ i, (s.super_block i).s_lock = false
  unique : ∀ i j, (s.super_block i).s_dev ≠ 0 → (s.super_block i).s_dev = (s.super_block j).s_dev → i = j

theorem find_super_some (h : s.find_super dev = some slot) : dev ≠ 0 ∧ (s.super_block slot).s_dev = dev := by
  rw [Kernel.find_super] at h
  split_ifs at h with hdev
  have hfound := List.find?_some h
  exact ⟨hdev, of_decide_eq_true hfound⟩

theorem free_slot_some (h : s.free_slot = some slot) : (s.super_block slot).s_dev = 0 := by
  rw [Kernel.free_slot] at h
  have hfound := List.find?_some h
  exact of_decide_eq_true hfound

/-- A buffer of another device is not among them. -/
theorem pointed_count_of_ne (sb : SuperBlock) (h : k.1 ≠ dev) : (sb.pointed dev).count k = 0 := by
  refine List.count_eq_zero.2 fun hmem => h ?_
  rcases List.mem_append.1 hmem with hmem | hmem
  · obtain ⟨bh, -, rfl⟩ := List.mem_map.1 hmem
    rfl
  · obtain ⟨bh, -, rfl⟩ := List.mem_map.1 hmem
    rfl

section Disks

variable (ROOT_DEV : ℕ) (floppy_change : ℕ → Bool)

theorem wp_put_super (T : Table s) (C : Coherent s) (dev : ℕ) :
    wp (put_super ROOT_DEV dev) (fun _ t => Table t ∧ Coherent t) (fun _ _ => False) s := by
  rw [put_super, wp_ite]
  refine ⟨fun _ => ⟨T, C⟩, fun _ => ?_⟩
  rw [wp_bind, wp_get]
  cases hfind : s.find_super dev with
  | none => exact ⟨T, C⟩
  | some i =>
    dsimp only
    rw [wp_ite]
    refine ⟨fun _ => ⟨T, C⟩, fun _ => ?_⟩
    obtain ⟨hdev, hi⟩ := find_super_some hfind
    have hne : (s.super_block i).s_dev ≠ 0 := hi ▸ hdev
    have hheld : ∀ k, ((s.super_block i).pointed dev).count k ≤ s.count k := by
      have hheld := T.held i hne
      rwa [hi] at hheld
    rw [wp_bind, lock_super, wp_modify, wp_bind, wp_modify]
    generalize ht : (s.set_super i fun sb => { sb with s_lock := true }).set_super i _ = t
    have hlook : Looks s t := by
      rw [← ht]
      exact (Looks.set_super C i _).trans (Looks.set_super (Looks.set_super C i _).coherent i _)
    have hcount : t.count = plus (fun k => s.count k - ((s.super_block i).pointed dev).count k)
        ((s.super_block i).pointed dev) := by
      rw [← ht]
      funext k
      have hk := hheld k
      show s.count k = _
      rw [plus]
      omega
    have hothers : ∀ j, j ≠ i → t.super_block j = s.super_block j := fun j hj => by
      rw [← ht, set_super_of_ne _ _ hj, set_super_of_ne _ _ hj]
    have hslot : (t.super_block i).s_dev = 0 := by rw [← ht, set_super_self]
    rw [wp_bind]
    refine wp_brelse_maps hlook.coherent hcount fun u hu hsuper hcountu => ?_
    rw [free_super, wp_modify]
    have hothers' : ∀ j, j ≠ i →
        (u.set_super i fun sb => { sb with s_lock := false }).super_block j = s.super_block j := fun j hj => by
      rw [set_super_of_ne _ _ hj, hsuper, hothers j hj]
    have hslot' : ((u.set_super i fun sb => { sb with s_lock := false }).super_block i).s_dev = 0 := by
      rw [set_super_self, hsuper]
      exact hslot
    refine ⟨⟨fun j hj => ?_, fun j hj k => ?_, fun j => ?_, fun j j' hj heq => ?_⟩, hu.coherent.clean,
      hu.coherent.dirty⟩
    · by_cases hji : j = i
      · rw [hji] at hj
        exact absurd hslot' hj
      · rw [hothers' j hji] at hj ⊢
        exact T.loaded j hj
    · by_cases hji : j = i
      · rw [hji] at hj
        exact absurd hslot' hj
      · rw [hothers' j hji] at hj ⊢
        show _ ≤ u.count k
        rw [hcountu]
        dsimp only
        by_cases hk : k.1 = (s.super_block j).s_dev
        · have hother : k.1 ≠ dev := by
            rw [hk, ← hi]
            exact fun h => hji (T.unique j i hj h)
          rw [pointed_count_of_ne _ hother]
          exact T.held j hj k
        · rw [pointed_count_of_ne _ hk]
          exact Nat.zero_le _
    · by_cases hji : j = i
      · rw [hji, set_super_self]
      · rw [hothers' j hji]
        exact T.unlocked j
    · by_cases hji : j = i
      · rw [hji] at hj
        exact absurd hslot' hj
      · by_cases hji' : j' = i
        · rw [hji', hslot'] at heq
          exact absurd heq hj
        · rw [hothers' j hji] at hj heq
          rw [hothers' j' hji'] at heq
          exact T.unique j j' hj heq

theorem wp_put_supers (dev : ℕ) (slots : List (Fin 8)) : ∀ s, Table s → Coherent s →
    wp (put_supers ROOT_DEV dev slots) (fun _ t => Table t ∧ Coherent t) (fun _ _ => False) s := by
  induction slots with
  | nil => exact fun s T C => ⟨T, C⟩
  | cons i slots ih =>
    intro s T C
    rw [put_supers, wp_bind, wp_get, wp_bind, wp_ite]
    refine ⟨fun _ => ?_, fun _ => ih s T C⟩
    exact wp_mono (wp_put_super ROOT_DEV T C dev) (fun _ t h => ih t h.1 h.2) fun _ _ h => h

theorem wp_check_disk_change (T : Table s) (C : Coherent s) (dev : ℕ) :
    wp (check_disk_change ROOT_DEV floppy_change dev) (fun _ t => Table t ∧ Coherent t)
    (fun _ _ => False) s := by
  rw [check_disk_change, wp_ite]
  refine ⟨fun _ => ⟨T, C⟩, fun _ => ?_⟩
  rw [wp_ite]
  refine ⟨fun _ => ⟨T, C⟩, fun _ => ?_⟩
  rw [wp_bind]
  refine wp_mono (wp_put_supers ROOT_DEV dev _ s T C) ?_ fun _ _ h => h
  rintro _ t ⟨T, C⟩
  rw [wp_bind, invalidate_inodes, wp_modify, invalidate_buffers, wp_modify]
  have hbuffer : ∀ k b, t.invalidate_buffers dev k = some b →
      (b.b_uptodate = false ∧ b.b_dirt = false) ∨ t.buffer k = some b := by
    intro k b hb
    rw [Kernel.invalidate_buffers] at hb
    split_ifs at hb with hk
    · obtain ⟨b', -, rfl⟩ := Option.map_eq_some_iff.1 hb
      exact .inl ⟨rfl, rfl⟩
    · exact .inr hb
  have hcount : ∀ k, (t.invalidate_buffers dev k).elim 0 Buffer.b_count = t.count k := by
    intro k
    rw [Kernel.invalidate_buffers, Kernel.count]
    split_ifs with hk
    · cases t.buffer k <;> rfl
    · rfl
  refine ⟨⟨T.loaded, fun i hi k => ?_, T.unlocked, T.unique⟩, fun k b hb hup hclean => ?_,
    fun k b hb hdirt => ?_⟩
  · exact (T.held i hi k).trans_eq (hcount k).symm
  · rcases hbuffer k b hb with ⟨h, -⟩ | h
    · rw [h] at hup
      cases hup
    · exact C.clean k b h hup hclean
  · rcases hbuffer k b hb with ⟨-, h⟩ | h
    · rw [h] at hdirt
      cases hdirt
    · exact C.dirty k b h hdirt

/-! ### The call -/

/-- It returns nothing, every slot is as free as it was and every buffer has been given back; or it returns
a super block that holds its bitmaps, the one that was there or a new one. -/
def SafeRead (dev : ℕ) (s t : Kernel) : Option (Fin 8) → Prop
  | none => t.count = s.count ∧
      ∀ i, (t.super_block i).s_dev = (s.super_block i).s_dev ∧ (t.super_block i).s_lock = false
  | some i => (t.super_block i).s_dev = dev ∧ (t.super_block i).s_lock = false ∧ Loaded (t.super_block i) ∧
      (t = s ∨ (s.super_block i).s_dev = 0 ∧ t.count = plus s.count ((t.super_block i).pointed dev))

/-- What the disk must be like if the super block is read. -/
def SafeDisk (s : Kernel) (dev : ℕ) : Prop := dev ≠ 0 → s.find_super dev = none → s.free_slot ≠ none →
  ∀ d, s.view (dev, 1) = some d → d 8 = SUPER_MAGIC → SafeHeader s dev d

/-- **Which disks `read_super` is safe for.**  After a look at the disk, it does what it should exactly if
the bitmaps fit in the arrays, or the first blocks behind cannot be read, and neither is empty. -/
theorem read_super_safe (T : Table s) (C : Coherent s) (dev : ℕ) :
    ∃ s₁, check_disk_change ROOT_DEV floppy_change dev s = .ok () s₁ ∧ Table s₁ ∧
      (wp (read_super ROOT_DEV floppy_change dev) (fun r t => SafeRead dev s₁ t r) (fun _ _ => False) s ↔
        SafeDisk s₁ dev) := by
  obtain ⟨⟨⟩, s₁, hcheck, T₁, C₁⟩ := returns_of_wp (wp_check_disk_change ROOT_DEV floppy_change T C dev)
  refine ⟨s₁, hcheck, T₁, ?_⟩
  have key : wp (read_super ROOT_DEV floppy_change dev) (fun r t => SafeRead dev s₁ t r ∧ SafeDisk s₁ dev)
      (fun _ _ => ¬SafeDisk s₁ dev) s := by
    rw [read_super]
    by_cases hdev : dev = 0
    · have hsame : s₁ = s := by
        rw [check_disk_change, if_pos (by omega)] at hcheck
        cases hcheck
        rfl
      rw [if_pos hdev, wp_pure, hsame]
      exact ⟨⟨rfl, fun i => ⟨rfl, T.unlocked i⟩⟩, fun h => absurd hdev h⟩
    rw [if_neg hdev, wp_bind, wp_of_ok hcheck, wp_bind, wp_get]
    cases hfind : s₁.find_super dev with
    | some i =>
      obtain ⟨-, hi⟩ := find_super_some hfind
      refine ⟨⟨hi, T₁.unlocked i, T₁.loaded i (hi ▸ hdev), .inl rfl⟩, fun _ h => ?_⟩
      rw [hfind] at h
      cases h
    | none =>
      cases hfree : s₁.free_slot with
      | none => exact ⟨⟨rfl, fun i => ⟨rfl, T₁.unlocked i⟩⟩, fun _ _ h => absurd hfree h⟩
      | some slot =>
        have hslot := free_slot_some hfree
        dsimp only
        rw [wp_bind, wp_modify, wp_bind, lock_super, wp_modify, wp_bind]
        generalize ht : (s₁.set_super slot _).set_super slot _ = t
        have hlook : Looks s₁ t := by
          rw [← ht]
          exact (Looks.set_super C₁ slot _).trans (Looks.set_super (Looks.set_super C₁ slot _).coherent slot _)
        have hcount : t.count = s₁.count := by
          rw [← ht]
          rfl
        have hothers : ∀ j, j ≠ slot → t.super_block j = s₁.super_block j := fun j hj => by
          rw [← ht, set_super_of_ne _ _ hj, set_super_of_ne _ _ hj]
        have hdevt : (t.super_block slot).s_dev = dev := by
          rw [← ht, set_super_self, set_super_self]
        have hgone : ∀ u, NotThere slot s₁.count t u → SafeRead dev s₁ u none := by
          refine fun u hu => ⟨hu.count, fun i => ?_⟩
          by_cases hi : i = slot
          · rw [hi, hu.free, hslot]
            exact ⟨rfl, hu.unlocked⟩
          · rw [hu.others i hi, hothers i hi]
            exact ⟨rfl, T₁.unlocked i⟩
        refine wp_bread hlook.coherent (fun u hview hstill hcountu => ?_)
          fun d u hview hstill hcountu hinfo => ?_
        · rw [if_neg Bool.false_ne_true]
          have hsame : ∀ j, j ≠ slot → u.super_block j = t.super_block j := fun j _ => by
            rw [hstill.super_block]
          refine wp_no_super (hcountu.trans hcount) hsame fun v hv => ⟨hgone v hv, fun _ _ _ d hd => ?_⟩
          rw [← hlook.view, hview] at hd
          cases hd
        · rw [if_pos rfl]
          have hlooku := hlook.trans hstill.looks
          have hheld : u.count = held s₁.count (dev, 1) := by rw [hcountu, hcount]
          have hviewu : u.view (dev, 1) = some d := by rw [hstill.view, hview]
          have hdevu : (u.super_block slot).s_dev = dev := by rw [hstill.super_block, hdevt]
          have hiff : (d 8 = SUPER_MAGIC → SafeHeader u dev d) ↔ SafeDisk s₁ dev := by
            rw [hlook.view] at hview
            refine ⟨fun h _ _ _ d' hd' hmagic => ?_, fun h hmagic => ?_⟩
            · rw [hview] at hd'
              cases hd'
              exact (SafeHeader.congr hlooku.view).1 (h hmagic)
            · exact (SafeHeader.congr hlooku.view).2 (h hdev hfind (by rw [hfree]; exact nofun) d hview hmagic)
          have hrun := wp_load_super hlooku.coherent hinfo hheld hdevu
          simp only [hiff] at hrun
          refine wp_mono hrun ?_ fun _ _ h => h
          rintro r v ⟨hsafe, hend⟩
          refine ⟨?_, hsafe⟩
          cases r with
          | none =>
            refine hgone v ⟨fun j hj => ?_, hend.free, hend.unlocked, hend.count⟩
            rw [hend.others j hj, hstill.super_block]
          | some i =>
            obtain ⟨rfl, hthere⟩ := hend
            exact ⟨hthere.s_dev, hthere.unlocked, hthere.loaded, .inr ⟨hslot, hthere.count⟩⟩
  constructor
  · intro hP
    have hboth : wp (read_super ROOT_DEV floppy_change dev) (fun _ _ => SafeDisk s₁ dev) (fun _ _ => False) s :=
      wp_mono (wp_and hP key) (fun _ _ h => h.2.2) fun _ _ h => h.1
    obtain ⟨-, -, -, h⟩ := returns_of_wp hboth
    exact h
  · exact fun hsafe => wp_mono key (fun _ _ h => h.1) fun _ _ h => h hsafe

end Disks

/-! ### An empty table -/

/-- Nothing is in memory, and all other blocks of the disk are empty. -/
def freshKernel (d : Words) : Kernel where
  super_block _ := ⟨0, 0, 0, 0, 0, 0, fun _ => none, fun _ => none, 0, none, false⟩
  buffer _ := none
  disk k := some (if k.2 = 1 then d else fun _ => 0)
  inode_table _ := ⟨0, 0, 0, 0, 0, 0, fun _ => 0, 0, 0, 0, 0, 0, false, false, false⟩
  last_inode := 0
  CURRENT_TIME := 0
  turn _ := ⟨fun _ => false, fun _ => 0⟩

theorem fresh_table (d : Words) : Table (freshKernel d) :=
  ⟨fun _ h => absurd rfl h, fun _ h => absurd rfl h, fun _ => rfl, fun _ _ h => absurd rfl h⟩

theorem fresh_coherent (d : Words) : Coherent (freshKernel d) :=
  ⟨fun _ _ h => (by cases h), fun _ _ h => (by cases h)⟩

/-- Block 1 of a device with so many blocks of either bitmap. -/
def header (imap_blocks zmap_blocks : ℕ) : Words := fun w =>
  if w = 2 then imap_blocks else if w = 3 then zmap_blocks else if w = 8 then SUPER_MAGIC else 0

/-- One block each. -/
theorem read_super_safe_one : ∃ s₁, check_disk_change 0 (fun _ => false) 1 (freshKernel (header 1 1)) =
    .ok () s₁ ∧
    wp (read_super 0 (fun _ => false) 1) (fun r t => SafeRead 1 s₁ t r) (fun _ _ => False)
      (freshKernel (header 1 1)) := by
  obtain ⟨s₁, hcheck, -, hiff⟩ := read_super_safe 0 (fun _ => false) (fresh_table _)
    (fresh_coherent (header 1 1)) 1
  refine ⟨s₁, hcheck, hiff.2 fun _ _ _ d hd _ => ?_⟩
  cases hcheck
  cases hd
  exact ⟨.inl (by decide), fun _ => .inl (by decide), fun _ => by decide⟩

/-- Nine blocks of one bitmap, or none: a store behind the array, or a null pointer. -/
theorem read_super_unsafe :
    wp (read_super 0 (fun _ => false) 1) (fun _ _ => False) (fun e _ => e = .outside)
    (freshKernel (header 9 1)) ∧
    wp (read_super 0 (fun _ => false) 1) (fun _ _ => False) (fun e _ => e = .fault) (freshKernel (header 0 1)) ∧
    ¬wp (read_super 0 (fun _ => false) 1) (fun r t => SafeRead 1 (freshKernel (header 9 1)) t r)
      (fun _ _ => False) (freshKernel (header 9 1)) := by
  have hnine : wp (read_super 0 (fun _ => false) 1) (fun _ _ => False) (fun e _ => e = .outside)
      (freshKernel (header 9 1)) := by decide
  refine ⟨hnine, by decide, fun hP => ?_⟩
  exact not_wp_false (wp_mono (wp_and hP hnine) (fun _ _ h => h.2) fun _ _ h => h.1)

end OldLinux.Volume
