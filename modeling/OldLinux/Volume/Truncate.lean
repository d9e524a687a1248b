import OldLinux.Volume.Freeing

/-!
# `truncate`

The zones of a file as lists: those of an indirect block are read from the block, and the block itself is
the last one that is freed.
-/

namespace OldLinux.Volume

open Function Lib

variable {s t u : Kernel} {dev b n i inode : ℕ} {sb : SuperBlock} {d : Words} {zs ys : List ℕ}
variable {leaf : Kernel → ℕ → List ℕ} {free : ℕ → ℕ → VolumeM Unit}

/-! ### The zones of a file -/

/-- The words from `i` to `i + n`, but for those that are 0. -/
def words (d : Words) (i n : ℕ) : List ℕ := ((List.range' i n).map d).filter (· ≠ 0)

/-- What is freed of the words of a block, and then the block. -/
def tree_zones (leaf : Kernel → ℕ → List ℕ) (dev : ℕ) (s : Kernel) (b : ℕ) : List ℕ :=
  if b = 0 then []
  else (match s.view (dev, b) with
    | none => []
    | some d => (words d 0 512).flatMap (leaf s)) ++ [b]

def ind_zones (dev : ℕ) (s : Kernel) (b : ℕ) : List ℕ := tree_zones (fun _ z => [z]) dev s b

def dind_zones (dev : ℕ) (s : Kernel) (b : ℕ) : List ℕ := tree_zones (ind_zones dev) dev s b

/-- All zones of an inode. -/
def Inode.zones (t : Inode) (s : Kernel) : List ℕ :=
  words t.i_zone 0 7 ++ (ind_zones t.i_dev s (t.i_zone 7) ++ dind_zones t.i_dev s (t.i_zone 8))

theorem words_succ (d : Words) (i n : ℕ) :
    words d i (n + 1) = (if d i ≠ 0 then [d i] else []) ++ words d (i + 1) n := by
  rw [words, List.range'_succ, List.map_cons, List.filter_cons]
  by_cases h : d i = 0
  · simp [words, h]
  · simp [words, h]

theorem flatMap_local (hleaf : ∀ z, Local dev fun s => leaf s z) (ws : List ℕ) :
    Local dev fun s => ws.flatMap (leaf s) := by
  intro s t hview
  refine List.flatMap_congr fun w hw => hleaf w s t fun z hz => hview z ?_
  exact List.mem_flatMap.2 ⟨w, hw, hz⟩

theorem tree_zones_local (hleaf : ∀ z, Local dev fun s => leaf s z) (b : ℕ) :
    Local dev fun s => tree_zones leaf dev s b := by
  intro s t hview
  dsimp only at hview ⊢
  rw [tree_zones, tree_zones]
  by_cases hb : b = 0
  · rw [if_pos hb, if_pos hb]
  · rw [tree_zones, if_neg hb] at hview
    rw [if_neg hb, if_neg hb, hview b (List.mem_append_right _ (List.mem_singleton.2 rfl))]
    cases hd : s.view (dev, b) with
    | none => rfl
    | some d =>
      rw [hd] at hview
      have hsame := flatMap_local hleaf (words d 0 512) s t fun z hz => hview z (List.mem_append_left _ hz)
      dsimp only at hsame ⊢
      rw [hsame]

theorem ind_zones_local (b : ℕ) : Local dev fun s => ind_zones dev s b :=
  tree_zones_local (fun _ _ _ _ => rfl) b

theorem dind_zones_local (b : ℕ) : Local dev fun s => dind_zones dev s b :=
  tree_zones_local ind_zones_local b

/-! ### The words of a block -/

/-- The caller has a block that is not of the bitmap. -/
structure Holds (dev : ℕ) (sb : SuperBlock) (b : ℕ) (d : Words) (s : Kernel) : Prop where
  info : s.info (dev, b) = some (d, true)
  pos : 0 < s.count (dev, b)
  not_zmap : ¬sb.IsZmap dev (dev, b)

theorem Holds.freed (h : Holds dev sb b d s) (hidle : Idle s dev zs) (hfreed : Freed dev sb zs s t) :
    Holds dev sb b d t := by
  refine ⟨hfreed.effect.info _ d (fun hk => ?_) h.not_zmap h.pos h.info, ?_, h.not_zmap⟩
  · have hzero := hidle b hk.2
    have hpos := h.pos
    omega
  · rw [hfreed.count]
    exact h.pos

theorem the_word_grows (hfree : ∀ z s, Mounted s dev sb → Coherent s → Grows dev sb (free dev z) id s)
    (M : Mounted s dev sb) (C : Coherent s) (w : ℕ) :
    Grows dev sb (if w ≠ 0 then free dev w else pure ()) id s := by
  by_cases hw : w = 0
  · rw [if_neg (not_not_intro hw)]
    exact Grows.pure M C
  · rw [if_pos hw]
    exact hfree w s M C

theorem free_words_grows (hfree : ∀ z s, Mounted s dev sb → Coherent s → Grows dev sb (free dev z) id s) :
    ∀ n i s, Mounted s dev sb → Coherent s → Grows dev sb (free_words dev b free n i) id s := by
  intro n
  induction n with
  | zero =>
    intro i s M C
    exact Grows.pure M C
  | succ n ih =>
    intro i s M C
    rw [free_words, Grows, wp_bind, the_buffer, wp_bind, wp_get]
    cases hb : s.buffer (dev, b) with
    | none => exact trivial
    | some buffer =>
      exact (the_word_grows hfree M C _).bind fun t ht _ => ih (i + 1) t ht.mounted ht.coherent

theorem free_words_frees (hleaf : ∀ z, Local dev fun s => leaf s z)
    (hgrows : ∀ z s, Mounted s dev sb → Coherent s → Grows dev sb (free dev z) id s)
    (hfree : ∀ z s, Mounted s dev sb → Coherent s → Frees dev sb (free dev z) (leaf s z) (leaf s z) id s) :
    ∀ n i s, Mounted s dev sb → Coherent s → Holds dev sb b d s →
      Frees dev sb (free_words dev b free n i) ((words d i n).flatMap (leaf s))
        ((words d i n).flatMap (leaf s)) id s := by
  intro n
  induction n with
  | zero =>
    intro i s M C _
    exact Frees.pure M C
  | succ n ih =>
    intro i s M C hold
    obtain ⟨buffer, hb, hdata, -⟩ := buffer_of_info hold.info
    rw [free_words, Frees, wp_bind]
    refine wp_the_buffer hb ?_
    rw [hdata, words_succ, List.flatMap_append]
    refine Frees.bind (L := fun s => (words d (i + 1) n).flatMap (leaf s)) M (flatMap_local hleaf _) ?_
      (List.sublist_append_left _ _)
      (fun t ht _ => free_words_grows hgrows n (i + 1) t ht.mounted ht.coherent)
      fun t ht _ hfreeable hfreed => ih (i + 1) t ht.mounted ht.coherent (hold.freed hfreeable.idle hfreed)
    by_cases hw : d i = 0
    · rw [if_neg (not_not_intro hw), if_neg (not_not_intro hw)]
      exact Frees.pure M C
    · rw [if_pos hw, if_pos hw, List.flatMap_singleton]
      exact hfree _ s M C

/-! ### An indirect block -/

/-- The block that has been taken is given back. -/
theorem wp_brelse_after {Q : Unit → Kernel → Prop} {E : Stop → Kernel → Prop} {k : Key} (M : Mounted s dev sb)
    (hstart : Still s t) (hcount : t.count = held s.count k) (hafter : After dev sb t u)
    (hQ : ∀ v, After dev sb s v → Still u v → u.count = held v.count k → Q () v) :
    wp (brelse k) Q E u := by
  have hle := hafter.le
  rw [hcount] at hle
  have hpos : 0 < u.count k := by
    have hself := hle k
    rw [held_self] at hself
    omega
  have hheld : u.count = held (update u.count k (u.count k - 1)) k := by
    rw [held, update_self, Nat.sub_add_cancel hpos, update_idem, update_eq_self]
  refine wp_brelse hafter.coherent hheld fun v hstill hcountv => ?_
  have hback : ∀ j, s.count j ≤ v.count j := by
    intro j
    have hj := hle j
    rw [hcountv]
    by_cases heq : j = k
    · rw [heq, held_self] at hj
      rw [heq, update_self]
      omega
    · rw [held_of_ne _ heq] at hj
      rwa [update_of_ne heq]
  have e := Effect.of_still hafter.mounted hstill
  have htime := (e.time.trans hafter.time).trans hstart.time
  refine hQ v ⟨⟨?_, M.inj, fun i bh hbh => Nat.lt_of_lt_of_le (M.held i bh hbh) (hback _), e.read⟩,
    hstill.coherent, htime, hback⟩ hstill ?_
  · rw [hstill.get_super]
    exact hafter.mounted.super
  · rw [hcountv]
    exact hheld

/-- The first half of `free_tree`. -/
def free_below (free : ℕ → ℕ → VolumeM Unit) (dev block : ℕ) : VolumeM Unit := do
  if ← bread (dev, block) then do
    free_words dev block free 512 0
    brelse (dev, block)
  else pure ()

theorem free_tree_eq (free : ℕ → ℕ → VolumeM Unit) (dev block : ℕ) : free_tree free dev block =
    if block = 0 then pure () else free_below free dev block >>= fun _ => free_block dev block := by
  rw [free_tree, free_below, bind_assoc]

theorem free_below_grows (hfree : ∀ z s, Mounted s dev sb → Coherent s → Grows dev sb (free dev z) id s)
    (M : Mounted s dev sb) (C : Coherent s) (b : ℕ) : Grows dev sb (free_below free dev b) id s := by
  rw [Grows, free_below, wp_bind]
  refine wp_bread C (fun t _ hstill hcount => ?_) fun d t _ hstill hcount _ => ?_
  · rw [if_neg Bool.false_ne_true, wp_pure]
    exact ⟨After.of_still M hstill fun k => Nat.le_of_eq (congrFun hcount k).symm, hstill.inode_table⟩
  · have hafter := After.hold M hstill hcount
    rw [if_pos rfl, wp_bind]
    refine wp_mono (free_words_grows hfree 512 0 t hafter.mounted hafter.coherent) (fun _ u hu => ?_)
      fun _ _ h => h
    refine wp_brelse_after M hstill hcount hu.1 fun v hv hstillv _ => ⟨hv, ?_⟩
    rw [hstillv.inode_table, hu.2]
    exact hstill.inode_table

/-- The zones in the words of a block. -/
def below (leaf : Kernel → ℕ → List ℕ) (s : Kernel) : Option Words → List ℕ
  | none => []
  | some d => (words d 0 512).flatMap (leaf s)

theorem tree_zones_eq (hb : b ≠ 0) : tree_zones leaf dev s b = below leaf s (s.view (dev, b)) ++ [b] := by
  rw [tree_zones, if_neg hb]
  cases s.view (dev, b) <;> rfl

theorem free_below_frees (hleaf : ∀ z, Local dev fun s => leaf s z)
    (hgrows : ∀ z s, Mounted s dev sb → Coherent s → Grows dev sb (free dev z) id s)
    (hfree : ∀ z s, Mounted s dev sb → Coherent s → Frees dev sb (free dev z) (leaf s z) (leaf s z) id s)
    (M : Mounted s dev sb) (C : Coherent s) (hidle : s.count (dev, b) = 0) :
    Frees dev sb (free_below free dev b) (below leaf s (s.view (dev, b)))
      (below leaf s (s.view (dev, b)) ++ [b]) id s := by
  rw [Frees, free_below, wp_bind]
  refine wp_bread C (fun t hview hstill hcount => ?_) fun d t hview hstill hcount hinfo => ?_
  · rw [if_neg Bool.false_ne_true, wp_pure, hview]
    exact ⟨After.of_still M hstill fun k => Nat.le_of_eq (congrFun hcount k).symm, hstill.inode_table,
      .inl ⟨freeable_nil, Freed.nil M hstill hcount⟩⟩
  · have hafter := After.hold M hstill hcount
    have hsame : (words d 0 512).flatMap (leaf t) = (words d 0 512).flatMap (leaf s) :=
      flatMap_local hleaf (words d 0 512) s t fun z _ => by rw [hstill.view]
    have hloop := free_words_frees hleaf hgrows hfree 512 0 t hafter.mounted hafter.coherent
      ⟨hinfo, by rw [hcount, held_self]; omega, M.not_zmap hidle⟩
    rw [hsame] at hloop
    rw [if_pos rfl, wp_bind, hview, below]
    generalize (words d 0 512).flatMap (leaf s) = zs at hloop
    -- the block is in use while its words are freed
    have hapart : b ∉ zs → Idle s dev zs → Idle t dev zs := by
      intro hb hzs z hz
      have hne : z ≠ b := by
        rintro rfl
        exact hb hz
      rw [hcount, held_of_ne _ fun h => hne (Prod.mk.inj h).2]
      exact hzs z hz
    have hback : Freeable t dev sb zs → Freeable s dev sb zs := fun h =>
      ⟨fun z hz => Nat.le_zero.1 (h.idle z hz ▸ hafter.le _), h.zone, fun z hz => by
        rw [← (Effect.of_still M hstill).bits]
        exact h.taken z hz, h.nodup⟩
    have hforth : Freeable s dev sb (zs ++ [b]) → Freeable t dev sb zs := fun h =>
      have h' := h.sublist (List.sublist_append_left zs [b])
      ⟨hapart (fun hb => h.nodup.disjoint hb (List.mem_singleton.2 rfl)) h'.idle, h'.zone, fun z hz => by
        rw [(Effect.of_still M hstill).bits]
        exact h'.taken z hz, h'.nodup⟩
    refine wp_mono hloop (fun _ u hu => ?_) fun _ _ hno hyes => hno (hforth hyes)
    refine wp_brelse_after M hstill hcount hu.after fun v hv hstillv hcountv => ⟨hv, ?_, ?_⟩
    · rw [hstillv.inode_table, hu.inode_table]
      exact hstill.inode_table
    · rcases hu.ends with ⟨hfreeable, hfreed⟩ | ⟨hused, k, hk⟩
      · refine .inl ⟨hback hfreeable, ?_⟩
        have hmid := (Effect.of_still M hstill).trans hafter.le hfreed.effect
        have hall := hmid.trans (hafter.trans hu.after).le (Effect.of_still hu.after.mounted hstillv)
        have hbits : u.zbit dev sb = s.cleared dev sb zs := by
          funext m
          rw [hfreed.effect.bits, Kernel.cleared, Kernel.cleared, (Effect.of_still M hstill).bits]
        rw [hbits] at hall
        refine ⟨hall.mono fun y hy => ?_, ?_⟩
        · rcases hy with (hy | hy) | hy
          · exact hy.elim
          · exact hy
          · exact hy.elim
        · rw [hfreed.count, hcount] at hcountv
          exact (held_inj hcountv).symm
      · refine .inr ⟨fun h => hused ⟨hapart (fun hb => h.2.disjoint hb (List.mem_singleton.2 rfl))
          fun z hz => h.1 z (List.mem_append_left _ hz), h.2.of_append_left⟩, k, ?_⟩
        rw [hcount, hcountv] at hk
        by_cases heq : k = (dev, b)
        · rw [heq, held_self, held_self] at hk
          rw [heq]
          omega
        · rwa [held_of_ne _ heq, held_of_ne _ heq] at hk

theorem free_tree_frees (hleaf : ∀ z, Local dev fun s => leaf s z)
    (hfree : ∀ z s, Mounted s dev sb → Coherent s → Frees dev sb (free dev z) (leaf s z) (leaf s z) id s)
    (M : Mounted s dev sb) (C : Coherent s) (b : ℕ) :
    Frees dev sb (free_tree free dev b) (tree_zones leaf dev s b) (tree_zones leaf dev s b) id s := by
  have hgrows : ∀ z s, Mounted s dev sb → Coherent s → Grows dev sb (free dev z) id s :=
    fun z s M C => (hfree z s M C).grows
  rw [free_tree_eq]
  by_cases hb : b = 0
  · rw [if_pos hb, tree_zones, if_pos hb]
    exact Frees.pure M C
  rw [if_neg hb, tree_zones_eq hb]
  by_cases hidle : s.count (dev, b) = 0
  · exact Frees.bind (L := fun _ => [b]) M (fun _ _ _ => rfl) (free_below_frees hleaf hgrows hfree M C hidle)
      (List.Sublist.refl _) (fun t ht _ => free_block_grows ht.mounted ht.coherent b)
      fun t ht _ _ _ => free_block_frees ht.mounted ht.coherent b
  · -- somebody has the block, so that it is not freed in the end
    have hno : ¬Idle s dev (below leaf s (s.view (dev, b)) ++ [b]) := fun h =>
      hidle (h b (List.mem_append_right _ (List.mem_singleton.2 rfl)))
    rw [Frees, wp_bind]
    refine wp_mono (free_below_grows hgrows M C b) (fun _ t ht => ?_) fun _ _ _ h => hno h.idle
    have hbusy : 0 < t.count (dev, b) := Nat.lt_of_lt_of_le (Nat.pos_of_ne_zero hidle) (ht.1.le _)
    refine wp_free_block ht.1.mounted ht.1.coherent (fun u _ _ hstill hcount => ?_)
      (fun u _ _ hzero _ _ _ _ => absurd hzero (Nat.ne_of_gt hbusy)) fun _ _ _ h => hno h.idle
    refine ⟨ht.1.trans (After.hold ht.1.mounted hstill hcount), ?_, .inr ⟨fun h => hno h.1, (dev, b), ?_⟩⟩
    · rw [hstill.inode_table, ht.2]
    · rw [hcount, held_self]
      exact Nat.lt_succ_of_le (ht.1.le _)

theorem free_ind_frees (M : Mounted s dev sb) (C : Coherent s) (b : ℕ) :
    Frees dev sb (free_ind dev b) (ind_zones dev s b) (ind_zones dev s b) id s :=
  free_tree_frees (fun _ _ _ _ => rfl) (fun z _ M C => free_block_frees M C z) M C b

theorem free_dind_frees (M : Mounted s dev sb) (C : Coherent s) (b : ℕ) :
    Frees dev sb (free_dind dev b) (dind_zones dev s b) (dind_zones dev s b) id s :=
  free_tree_frees ind_zones_local (fun z _ M C => free_ind_frees M C z) M C b

/-! ### An inode -/

def zero_zone (inode i : ℕ) (it : ℕ → Inode) : ℕ → Inode :=
  update it inode ((it inode).set_zone i 0)

def zero_zones (inode : ℕ) : ℕ → ℕ → (ℕ → Inode) → ℕ → Inode
  | 0, _ => id
  | n + 1, i => zero_zones inode n (i + 1) ∘ zero_zone inode i

theorem zero_zone_self (it : ℕ → Inode) : zero_zone inode i it inode = (it inode).set_zone i 0 :=
  update_self ..

theorem words_congr {d' : Words} (h : ∀ j, i ≤ j → d' j = d j) : words d' i n = words d i n := by
  rw [words, words, List.map_congr_left fun j hj => h j (List.mem_range'_1.1 hj).1]

/-- The body of the loop. -/
theorem zone_frees (M : Mounted s dev sb) (C : Coherent s) (hdev : (s.inode_table inode).i_dev = dev) (i : ℕ) :
    Frees dev sb (if (s.inode_table inode).i_zone i ≠ 0 then do
        free_block (s.inode_table inode).i_dev ((s.inode_table inode).i_zone i)
        modify fun s => s.set_inode inode ((s.inode_table inode).set_zone i 0)
      else pure ())
      (if (s.inode_table inode).i_zone i ≠ 0 then [(s.inode_table inode).i_zone i] else [])
      (if (s.inode_table inode).i_zone i ≠ 0 then [(s.inode_table inode).i_zone i] else [])
      (zero_zone inode i) s := by
  by_cases hzero : (s.inode_table inode).i_zone i = 0
  · rw [if_neg (not_not_intro hzero), if_neg (not_not_intro hzero)]
    have hsame : zero_zone inode i s.inode_table = s.inode_table := by
      rw [zero_zone, Inode.set_zone, ← hzero, update_eq_self, update_eq_self]
    have hpure := (Frees.pure M C : Frees dev sb (pure ()) [] [] id s)
    refine ⟨hpure.after, ?_, hpure.ends⟩
    rw [hsame]
  · rw [if_pos hzero, if_pos hzero, hdev]
    have hset : ∀ t, Mounted t dev sb → Coherent t → Frees dev sb
        (modify fun s => s.set_inode inode ((s.inode_table inode).set_zone i 0)) [] [] (zero_zone inode i) t :=
      fun t M C => Frees.set_inodes M C rfl
    have hboth := Frees.bind (L := fun _ => []) M (fun _ _ _ => rfl) 
      (free_block_frees M C ((s.inode_table inode).i_zone i)) (List.sublist_append_left _ _)
      (fun t ht _ => (hset t ht.mounted ht.coherent).grows)
      fun t ht _ _ _ => hset t ht.mounted ht.coherent
    rwa [List.append_nil] at hboth

theorem zero_zone_dev (it : ℕ → Inode) : (zero_zone inode i it inode).i_dev = (it inode).i_dev := by
  rw [zero_zone_self]
  rfl

theorem free_zones_grows : ∀ n i s, Mounted s dev sb → Coherent s → (s.inode_table inode).i_dev = dev →
    Grows dev sb (free_zones inode n i) (zero_zones inode n i) s := by
  intro n
  induction n with
  | zero =>
    intro i s M C _
    exact Grows.pure M C
  | succ n ih =>
    intro i s M C hdev
    rw [free_zones, Grows, wp_bind, wp_get]
    refine (zone_frees M C hdev i).grows.bind fun t ht hinode => ih (i + 1) t ht.mounted ht.coherent ?_
    rw [hinode, zero_zone_dev, hdev]

theorem free_zones_frees : ∀ n i s, Mounted s dev sb → Coherent s → (s.inode_table inode).i_dev = dev →
    Frees dev sb (free_zones inode n i) (words (s.inode_table inode).i_zone i n)
      (words (s.inode_table inode).i_zone i n) (zero_zones inode n i) s := by
  intro n
  induction n with
  | zero =>
    intro i s M C _
    exact Frees.pure M C
  | succ n ih =>
    intro i s M C hdev
    have hdev' : ∀ t : Kernel, t.inode_table = zero_zone inode i s.inode_table →
        (t.inode_table inode).i_dev = dev := by
      intro t hinode
      rw [hinode, zero_zone_dev, hdev]
    rw [free_zones, Frees, wp_bind, wp_get, words_succ]
    refine Frees.bind (L := fun _ => words (s.inode_table inode).i_zone (i + 1) n) M (fun _ _ _ => rfl)
      (zone_frees M C hdev i) (List.sublist_append_left _ _)
      (fun t ht hinode => free_zones_grows n (i + 1) t ht.mounted ht.coherent (hdev' t hinode))
      fun t ht hinode _ _ => ?_
    have hrest := ih (i + 1) t ht.mounted ht.coherent (hdev' t hinode)
    rwa [words_congr (d := (s.inode_table inode).i_zone)] at hrest
    intro j hj
    rw [hinode, zero_zone_self]
    exact update_of_ne (by omega) ..

/-- The inode when its zones have been freed. -/
def Inode.truncated (t : Inode) (time : ℕ) : Inode :=
  { (t.set_zone 7 0).set_zone 8 0 with i_size := 0, i_dirt := true, i_mtime := time, i_ctime := time }

/-- What `truncate` does to the inodes. -/
def truncate_inode (inode time : ℕ) (it : ℕ → Inode) : ℕ → Inode :=
  let zeroed := zero_zones inode 7 0 it
  update zeroed inode ((zeroed inode).truncated time)

theorem zero_zones_eq : ∀ n i it, zero_zones inode n i it = update it inode
    { it inode with i_zone := fun j => if i ≤ j ∧ j < i + n then 0 else (it inode).i_zone j } := by
  intro n
  induction n with
  | zero =>
    intro i it
    have hno : (fun j => if i ≤ j ∧ j < i + 0 then 0 else (it inode).i_zone j) = (it inode).i_zone := by
      funext j
      exact if_neg (by omega)
    rw [zero_zones, hno, update_eq_self]
    rfl
  | succ n ih =>
    intro i it
    have hstep : (fun j => if i + 1 ≤ j ∧ j < i + 1 + n then 0
          else update (it inode).i_zone i 0 j) =
        fun j => if i ≤ j ∧ j < i + (n + 1) then 0 else (it inode).i_zone j := by
      funext j
      by_cases hj : j = i
      · rw [hj, if_neg (by omega), if_pos (by omega), update_self]
      · rw [update_of_ne hj]
        by_cases hin : i + 1 ≤ j ∧ j < i + 1 + n
        · rw [if_pos hin, if_pos (by omega)]
        · rw [if_neg hin, if_neg (by omega)]
    rw [zero_zones, Function.comp_apply, ih, zero_zone_self, zero_zone, update_idem]
    rw [Inode.set_zone, hstep]

theorem truncate_inode_eq (inode time : ℕ) (it : ℕ → Inode) : truncate_inode inode time it =
    update it inode { it inode with
      i_zone := fun j => if j < 9 then 0 else (it inode).i_zone j
      i_size := 0, i_dirt := true, i_mtime := time, i_ctime := time } := by
  have hzones : update (update (fun j => if 0 ≤ j ∧ j < 0 + 7 then 0 else (it inode).i_zone j) 7 0) 8 0 =
      fun j => if j < 9 then 0 else (it inode).i_zone j := by
    funext j
    rw [update_apply, update_apply]
    split_ifs <;> first | rfl | omega
  rw [truncate_inode, zero_zones_eq, update_idem, update_self, Inode.truncated, Inode.set_zone, Inode.set_zone]
  dsimp only
  rw [hzones]

theorem truncate_frees (M : Mounted s dev sb) (C : Coherent s) (hdev : (s.inode_table inode).i_dev = dev)
    (hmode : S_ISREG (s.inode_table inode).i_mode = true ∨ S_ISDIR (s.inode_table inode).i_mode = true) :
    Frees dev sb (truncate inode) ((s.inode_table inode).zones s) ((s.inode_table inode).zones s)
      (truncate_inode inode s.CURRENT_TIME) s := by
  have hmode' : ¬(S_ISREG (s.inode_table inode).i_mode = false ∧
      S_ISDIR (s.inode_table inode).i_mode = false) := by
    rintro ⟨h1, h2⟩
    rw [h1, h2] at hmode
    rcases hmode with h | h <;> cases h
  rw [truncate, Frees, wp_bind, wp_get]
  dsimp only
  rw [if_neg hmode', Inode.zones, hdev]
  generalize hb : (s.inode_table inode).i_zone 7 = b
  generalize hb' : (s.inode_table inode).i_zone 8 = b'
  -- the end, from a state in which the clock still shows the same
  have hlast : ∀ t, t.CURRENT_TIME = s.CURRENT_TIME → Mounted t dev sb → Coherent t →
      Frees dev sb (modify fun s => s.set_inode inode
        { ((s.inode_table inode).set_zone 7 0).set_zone 8 0 with
          i_size := 0, i_dirt := true, i_mtime := s.CURRENT_TIME, i_ctime := s.CURRENT_TIME }) [] []
        (fun it => update it inode ((it inode).truncated s.CURRENT_TIME)) t := by
    intro t htime M C
    refine Frees.set_inodes M C ?_
    rw [← htime]
    rfl
  have hdind : ∀ t, t.CURRENT_TIME = s.CURRENT_TIME → Mounted t dev sb → Coherent t →
      Frees dev sb (free_dind dev b' >>= fun _ => modify fun s => s.set_inode inode
        { ((s.inode_table inode).set_zone 7 0).set_zone 8 0 with
          i_size := 0, i_dirt := true, i_mtime := s.CURRENT_TIME, i_ctime := s.CURRENT_TIME })
        (dind_zones dev t b') (dind_zones dev t b')
        (fun it => update it inode ((it inode).truncated s.CURRENT_TIME)) t := by
    intro t htime M C
    have hboth := Frees.bind (L := fun _ => []) M (fun _ _ _ => rfl) (free_dind_frees M C b')
      (List.sublist_append_left _ _)
      (fun u hu _ => (hlast u (hu.time.trans htime) hu.mounted hu.coherent).grows)
      fun u hu _ _ _ => hlast u (hu.time.trans htime) hu.mounted hu.coherent
    rwa [List.append_nil] at hboth
  have hind : ∀ t, t.CURRENT_TIME = s.CURRENT_TIME → Mounted t dev sb → Coherent t →
      Frees dev sb (free_ind dev b >>= fun _ => free_dind dev b' >>= fun _ => modify fun s => s.set_inode inode
        { ((s.inode_table inode).set_zone 7 0).set_zone 8 0 with
          i_size := 0, i_dirt := true, i_mtime := s.CURRENT_TIME, i_ctime := s.CURRENT_TIME })
        (ind_zones dev t b ++ dind_zones dev t b') (ind_zones dev t b ++ dind_zones dev t b')
        (fun it => update it inode ((it inode).truncated s.CURRENT_TIME)) t := by
    intro t htime M C
    exact Frees.bind M (dind_zones_local b') (free_ind_frees M C b) (List.sublist_append_left _ _)
      (fun u hu _ => (hdind u (hu.time.trans htime) hu.mounted hu.coherent).grows)
      fun u hu _ _ _ => hdind u (hu.time.trans htime) hu.mounted hu.coherent
  exact Frees.bind M ((ind_zones_local b).append (dind_zones_local b')) (free_zones_frees 7 0 s M C hdev)
    (List.sublist_append_left _ _) (fun t ht _ => (hind t ht.time ht.mounted ht.coherent).grows)
    fun t ht _ _ _ => hind t ht.time ht.mounted ht.coherent

/-- **`truncate` frees the zones of a file and nothing else.**  If they are taken zones of the data area,
none is there twice and nobody uses their buffers, then it does not stop; afterwards exactly their bits are
cleared, the nine numbers of zones and the size are 0, and every other block, other bitmaps among them,
shows what it did. -/
theorem truncate_frees_tree (M : Mounted s dev sb) (C : Coherent s) (hdev : (s.inode_table inode).i_dev = dev)
    (hmode : S_ISREG (s.inode_table inode).i_mode = true ∨ S_ISDIR (s.inode_table inode).i_mode = true)
    (htree : Freeable s dev sb ((s.inode_table inode).zones s)) :
    wp (truncate inode) (fun _ t =>
      (∀ z, sb.InZone z → t.zbit dev sb (sb.bit_nr z) =
        if z ∈ (s.inode_table inode).zones s then some false else s.zbit dev sb (sb.bit_nr z)) ∧
      (∀ m, (∀ z ∈ (s.inode_table inode).zones s, sb.bit_nr z ≠ m) → t.zbit dev sb m = s.zbit dev sb m) ∧
      t.inode_table = update s.inode_table inode { s.inode_table inode with
        i_zone := fun j => if j < 9 then 0 else (s.inode_table inode).i_zone j
        i_size := 0, i_dirt := true, i_mtime := s.CURRENT_TIME, i_ctime := s.CURRENT_TIME } ∧
      (∀ k, ¬(k.1 = dev ∧ k.2 ∈ (s.inode_table inode).zones s) → ¬sb.IsZmap dev k → t.view k = s.view k) ∧
      t.count = s.count ∧ t.super_block = s.super_block)
      (fun _ _ => False) s := by
  refine wp_mono (truncate_frees M C hdev hmode) (fun _ t ht => ?_) fun _ _ hno => hno htree
  have hinode := ht.inode_table
  rw [truncate_inode_eq] at hinode
  rcases ht.ends with ⟨-, hfreed⟩ | ⟨hused, -⟩
  · refine ⟨fun z hz => ?_, fun m hm => ?_, hinode, hfreed.effect.view, hfreed.count,
      hfreed.effect.super_block⟩
    · by_cases hmem : z ∈ (s.inode_table inode).zones s
      · rw [if_pos hmem, hfreed.not_taken hmem]
      · rw [if_neg hmem, hfreed.still_taken htree.zone hz hmem]
    · rw [hfreed.effect.bits, Kernel.cleared, if_neg]
      rintro ⟨z, hz, heq⟩
      exact hm z hz heq
  · exact (hused ⟨htree.idle, htree.nodup⟩).elim

/-- A file whose indirect block is the zone 6; the zone 5 is in one of its words. -/
def smallFile : Kernel :=
  { smallKernel (fun w => if w = 0 then 7 else 65535) (fun z w => if z = 6 ∧ w = 3 then 5 else 0) with
    inode_table := fun _ =>
      ⟨0o100644, 0, 1024, 0, 0, 1, fun k => if k = 7 then 6 else 0, 0, 0, 1, 1, 1, false, false, false⟩ }

set_option maxRecDepth 4000 in
theorem smallFile_zones : (smallFile.inode_table 0).zones smallFile = [5, 6] := by decide

theorem truncate_frees_tree_small :
    wp (truncate 0) (fun _ t => t.zbit 1 smallSuper (smallSuper.bit_nr 5) = some false ∧
      t.zbit 1 smallSuper (smallSuper.bit_nr 6) = some false) (fun _ _ => False) smallFile := by
  have M := small_mounted (fun w => if w = 0 then 7 else 65535) fun z w => if z = 6 ∧ w = 3 then 5 else 0
  have C := small_coherent (fun w => if w = 0 then 7 else 65535) fun z w => if z = 6 ∧ w = 3 then 5 else 0
  have M' : Mounted smallFile 1 smallSuper := ⟨M.super, M.inj, M.held, M.read⟩
  have C' : Coherent smallFile := ⟨C.clean, C.dirty⟩
  have hdev : (smallFile.inode_table 0).i_dev = 1 := rfl
  have hmode : S_ISREG (smallFile.inode_table 0).i_mode = true := by decide
  have htree : Freeable smallFile 1 smallSuper ((smallFile.inode_table 0).zones smallFile) := by
    rw [smallFile_zones]
    refine ⟨fun z hz => ?_, fun z hz => ?_, fun z hz => ?_, by decide⟩
    · rcases List.mem_pair.1 hz with rfl | rfl <;> rfl
    · rcases List.mem_pair.1 hz with rfl | rfl <;> decide
    · rcases List.mem_pair.1 hz with rfl | rfl <;> decide
  have hzones := smallFile_zones
  -- without its name the state is not evaluated
  generalize smallFile = s at *
  refine wp_mono (truncate_frees_tree M' C' hdev (.inl hmode) htree) ?_ fun _ _ h => h
  rintro _ t ⟨hbits, -⟩
  rw [hzones] at hbits
  exact ⟨hbits 5 (by decide), hbits 6 (by decide)⟩

end OldLinux.Volume
