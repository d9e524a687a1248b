import OldLinux.Volume.Room

/-!
# `create_block`

On a file system in which the blocks of the inode are taken zones and have one place each, every step finds
a block or enters a new one at an empty place, and nothing else changes in the tree.
-/

namespace OldLinux.Volume

open Function Lib Lib.BlockTree

variable {s t u : Kernel} {dev b n i k z r ind inode : ℕ} {sb : SuperBlock} {d : Words} {m : List ℕ}
variable {p q : Place}

/-! ### Sound file systems -/

/-- No block of the inode has two places. -/
def Kernel.OncePerPlace (s : Kernel) (inode : ℕ) : Prop :=
  BlockTree.OncePerPlace (s.inode_table inode).i_zone (s.data (s.inode_table inode).i_dev)

/-- The blocks of the inode are taken zones, with one place each; every zone can be read, and the buffer of a
free one is not in use. -/
structure Sound (dev : ℕ) (sb : SuperBlock) (inode : ℕ) (s : Kernel) : Prop where
  mounted : Mounted s dev sb
  coherent : Coherent s
  i_dev : (s.inode_table inode).i_dev = dev
  first : 1 ≤ sb.s_firstdatazone
  reserved : s.zbit dev sb 0 = some true
  apart : ∀ i bh, sb.zmap i = some bh → bh < sb.s_firstdatazone
  readable : ∀ z, sb.InZone z → s.view (dev, z) ≠ none
  idle : ∀ z, sb.InZone z → s.zbit dev sb (sb.bit_nr z) = some false → s.count (dev, z) = 0
  inside : ∀ p : Place, p.Valid → s.place inode p ≠ 0 →
    sb.InZone (s.place inode p) ∧ s.zbit dev sb (sb.bit_nr (s.place inode p)) = some true
  once : s.OncePerPlace inode

theorem Sound.not_zmap (S : Sound dev sb inode s) (h : sb.InZone z) : ¬sb.IsZmap dev (dev, z) := by
  rintro ⟨-, i, hi⟩
  have h1 := S.apart i z hi
  have h2 := h.1
  omega

theorem Sound.place_eq (S : Sound dev sb inode s) (p : Place) :
    s.place inode p = tree_at (s.inode_table inode).i_zone (s.data dev) p := by
  rw [Kernel.place, S.i_dev]

/-- What has changed is not in the trees. -/
structure SameTree (dev : ℕ) (sb : SuperBlock) (s t : Kernel) : Prop where
  inode_table : t.inode_table = s.inode_table
  view : ∀ z, sb.InZone z → t.view (dev, z) = s.view (dev, z)
  clear : ∀ n, t.zbit dev sb n = some false → s.zbit dev sb n = some false
  set : ∀ n, s.zbit dev sb n = some true → t.zbit dev sb n = some true
  idle : ∀ z, sb.InZone z → t.zbit dev sb (sb.bit_nr z) = some false → t.count (dev, z) = 0

theorem SameTree.place (h : SameTree dev sb s t) (S : Sound dev sb inode s) (hp : p.Valid) :
    t.place inode p = s.place inode p := by
  rw [S.place_eq, Kernel.place, h.inode_table, S.i_dev]
  refine tree_at_congr (fun _ => rfl) (fun q hq hne => ?_) hp
  rw [← S.place_eq] at hne ⊢
  rw [Kernel.data, Kernel.data, h.view _ (S.inside q hq hne).1]

theorem SameTree.trans (h : SameTree dev sb s t) (h' : SameTree dev sb t u) : SameTree dev sb s u :=
  ⟨h'.inode_table.trans h.inode_table, fun z hz => (h'.view z hz).trans (h.view z hz),
    fun n hn => h.clear n (h'.clear n hn), fun n hn => h'.set n (h.set n hn), h'.idle⟩

theorem SameTree.sound (h : SameTree dev sb s t) (S : Sound dev sb inode s) (M : Mounted t dev sb)
    (C : Coherent t) : Sound dev sb inode t where
  mounted := M
  coherent := C
  i_dev := by rw [h.inode_table, S.i_dev]
  first := S.first
  reserved := h.set 0 S.reserved
  apart := S.apart
  readable := fun z hz => by
    rw [h.view z hz]
    exact S.readable z hz
  idle := h.idle
  inside := fun p hp hne => by
    rw [h.place S hp] at hne ⊢
    obtain ⟨h1, h2⟩ := S.inside p hp hne
    exact ⟨h1, h.set _ h2⟩
  once := fun p p' hp hp' hne heq => by
    have h1 := h.place S hp
    have h2 := h.place S hp'
    rw [Kernel.place] at h1 h2
    rw [h1] at hne heq
    rw [h2] at heq
    exact S.once p p' hp hp' hne heq

theorem Still.sameTree (S : Sound dev sb inode s) (h : Still s t)
    (hidle : ∀ z, sb.InZone z → s.zbit dev sb (sb.bit_nr z) = some false → t.count (dev, z) = 0) :
    SameTree dev sb s t := by
  have hbits := (Effect.of_still S.mounted h).bits
  refine ⟨h.inode_table, fun z _ => by rw [h.view], fun n hn => ?_, fun n hn => ?_, fun z hz hn => ?_⟩
  · rwa [hbits] at hn
  · rwa [hbits]
  · rw [hbits] at hn
    exact hidle z hz hn

/-- A block of the tree is in use. -/
theorem Sound.hold (S : Sound dev sb inode s) (h : Still s t) (hcount : t.count = held s.count (dev, z))
    (hz : s.zbit dev sb (sb.bit_nr z) = some true) : SameTree dev sb s t := by
  refine h.sameTree S fun y hy hclear => ?_
  have hne : (dev, y) ≠ (dev, z) := by
    intro heq
    rw [(Prod.mk.inj heq).2, hz] at hclear
    cases hclear
  rw [hcount, held_of_ne _ hne]
  exact S.idle y hy hclear

/-! ### One step -/

/-- The step of `create_block` at the place `q`. -/
structure Step (dev : ℕ) (sb : SuperBlock) (inode : ℕ) (s t : Kernel) (q : Place) (r : ℕ) : Prop where
  sound : Sound dev sb inode t
  others : ∀ p : Place, p.Valid → p ≠ q → t.place inode p = s.place inode p
  here : t.place inode q = r
  kept : s.place inode q ≠ 0 → r = s.place inode q
  new : s.place inode q = 0 → r ≠ 0 →
    sb.InZone r ∧ s.zbit dev sb (sb.bit_nr r) = some false ∧ t.view (dev, r) = some fun _ => 0
  full : r = 0 → ∀ z, sb.InZone z → t.zbit dev sb (sb.bit_nr z) ≠ some false
  clear : ∀ n, t.zbit dev sb n = some false → s.zbit dev sb n = some false

/-- The block is there. -/
theorem Step.found (S : Sound dev sb inode s) (h : SameTree dev sb s t) (M : Mounted t dev sb)
    (C : Coherent t) (hq : q.Valid) (hr : s.place inode q = r) (hne : r ≠ 0) :
    Step dev sb inode s t q r where
  sound := h.sound S M C
  others := fun _ hp _ => h.place S hp
  here := by rw [h.place S hq, hr]
  kept := fun _ => hr.symm
  new := fun hzero _ => absurd (hr.symm.trans hzero) hne
  full := fun hzero => absurd hzero hne
  clear := h.clear

/-- There is no block, and none that could be entered. -/
theorem Step.no_block (S : Sound dev sb inode s) (h : SameTree dev sb s t) (M : Mounted t dev sb)
    (C : Coherent t) (hq : q.Valid) (hzero : s.place inode q = 0)
    (hfull : ∀ z, sb.InZone z → t.zbit dev sb (sb.bit_nr z) ≠ some false) : Step dev sb inode s t q 0 where
  sound := h.sound S M C
  others := fun _ hp _ => h.place S hp
  here := by rw [h.place S hq, hzero]
  kept := fun hne => absurd hzero hne
  new := fun _ hne => absurd rfl hne
  full := fun _ => hfull
  clear := h.clear

/-- A zone that is taken fills a place. -/
theorem Step.spends (h : Step dev sb inode s t q r) (hq : q.Valid) : Spends dev sb inode s t := by
  intro P hP
  by_cases hnew : s.place inode q = 0 ∧ r ≠ 0
  · obtain ⟨hzero, hr⟩ := hnew
    obtain ⟨hz, hclear, -⟩ := h.new hzero hr
    have htaken := (h.sound.inside q hq (by rw [h.here]; exact hr)).2
    rw [h.here] at htaken
    have hfree := free_lt h.clear hz hclear htaken
    have hmissing : s.missing inode P ≤ t.missing inode P + 1 :=
      missing_le_succ fun p hp hpq hp0 => (h.others p (hP p hp) hpq).trans hp0
    omega
  · have hfree := free_le h.clear
    have hmissing : s.missing inode P ≤ t.missing inode P := missing_le fun p hp hp0 => by
      by_cases hpq : p = q
      · subst hpq
        rw [h.here]
        by_contra hr
        exact hnew ⟨hp0, hr⟩
      · exact (h.others p (hP p hp) hpq).trans hp0
    omega

/-! ### A new block -/

theorem set_clear (h : t.zbit dev sb = s.set dev sb n) {k : ℕ} (hk : t.zbit dev sb k = some false) :
    k ≠ n ∧ s.zbit dev sb k = some false := by
  rw [h, Kernel.set] at hk
  by_cases hkn : k = n
  · rw [if_pos hkn] at hk
    cases hk
  · rw [if_neg hkn] at hk
    exact ⟨hkn, hk⟩

theorem set_set (h : t.zbit dev sb = s.set dev sb n) {k : ℕ} (hk : s.zbit dev sb k = some true) :
    t.zbit dev sb k = some true := by
  rw [h, Kernel.set, hk, ite_self]

/-- The first clear bit is that of a block. -/
theorem FirstClear.zone (hn : FirstClear s dev sb n) (S : Sound dev sb inode s)
    (hlt : n + sb.s_firstdatazone - 1 < sb.s_nzones) : sb.InZone (n + sb.s_firstdatazone - 1) ∧
      sb.bit_nr (n + sb.s_firstdatazone - 1) = n ∧ n + sb.s_firstdatazone - 1 ≠ 0 := by
  have hpos := hn.pos S.reserved
  have hfirst := S.first
  exact ⟨⟨by omega, hlt⟩, bit_nr_of_pos hpos, by omega⟩

/-- The first clear bit is behind the last zone, so that there is no free one. -/
theorem FirstClear.full (hn : FirstClear s dev sb n)
    (hpast : sb.s_nzones ≤ n + sb.s_firstdatazone - 1) (hz : sb.InZone z) :
    s.zbit dev sb (sb.bit_nr z) ≠ some false := by
  refine hn.first _ ?_
  have h1 := hz.1
  have h2 := hz.2
  rw [SuperBlock.bit_nr]
  omega

/-- A bit behind the last zone has been set. -/
theorem Sound.past (S : Sound dev sb inode s) (e : Effect dev sb (s.set dev sb n) (fun _ => False) s t)
    (hinode : t.inode_table = s.inode_table) (hcount : t.count = s.count) : SameTree dev sb s t :=
  ⟨hinode, fun z hz => e.view _ (fun h => h.2) (S.not_zmap hz), fun _ h => (set_clear e.bits h).2,
    fun _ h => set_set e.bits h, fun z hz h => by
      rw [hcount]
      exact S.idle z hz (set_clear e.bits h).2⟩

/-- A new block has been entered at the place `q`. -/
theorem Step.enter (S : Sound dev sb inode s) (M : Mounted t dev sb) (C : Coherent t)
    (hdev : (t.inode_table inode).i_dev = dev) (hz : sb.InZone z)
    (hclear : s.zbit dev sb (sb.bit_nr z) = some false)
    (hbits : t.zbit dev sb = s.set dev sb (sb.bit_nr z))
    (hread : ∀ y, sb.InZone y → t.view (dev, y) ≠ none) (hcount : t.count = s.count)
    (hempty : s.place inode q = 0) (hq : q.Valid) (hview : t.view (dev, z) = some fun _ => 0)
    (hat : Fresh (s.inode_table inode).i_zone (s.data dev) (t.data dev) z → ∀ p : Place, p.Valid →
      tree_at (t.inode_table inode).i_zone (t.data dev) p =
        if p = q then z else tree_at (s.inode_table inode).i_zone (s.data dev) p) :
    Step dev sb inode s t q z := by
  have hz0 : z ≠ 0 := by
    have h1 := hz.1
    have h2 := S.first
    omega
  have hfresh : Fresh (s.inode_table inode).i_zone (s.data dev) (t.data dev) z := by
    refine ⟨hz0, fun p hp heq => ?_, by rw [Kernel.data, hview]; rfl⟩
    rw [← S.place_eq] at heq
    have hset := (S.inside p hp (heq ▸ hz0)).2
    rw [heq, hclear] at hset
    cases hset
  have hplace : ∀ p : Place, p.Valid → t.place inode p = if p = q then z else s.place inode p := by
    intro p hp
    rw [S.place_eq, Kernel.place, hdev]
    exact hat hfresh p hp
  have honce := S.once
  rw [Kernel.OncePerPlace, S.i_dev] at honce
  refine ⟨⟨M, C, hdev, S.first, set_set hbits S.reserved, S.apart, hread, fun y hy h => ?_,
    fun p hp hne => ?_, ?_⟩, fun p hp hne => ?_, ?_, fun hne => absurd hempty hne,
    fun _ _ => ⟨hz, hclear, hview⟩, fun h => absurd h hz0, fun _ h => (set_clear hbits h).2⟩
  · rw [hcount]
    exact S.idle y hy (set_clear hbits h).2
  · rw [hplace p hp] at hne ⊢
    split_ifs at hne ⊢ with hpq
    · refine ⟨hz, ?_⟩
      rw [hbits, Kernel.set, if_pos rfl]
    · obtain ⟨h1, h2⟩ := S.inside p hp hne
      exact ⟨h1, set_set hbits h2⟩
  · rw [Kernel.OncePerPlace, hdev]
    exact honce.enter hfresh (hat hfresh)
  · rw [hplace p hp, if_neg hne]
  · rw [hplace q hq, if_pos rfl]

theorem Sound.read_after {bits : ℕ → Option Bool} {touched : ℕ → Prop} (S : Sound dev sb inode s)
    (e : Effect dev sb bits touched s t) (hview : ∀ y, touched y → t.view (dev, y) ≠ none)
    (hz : sb.InZone z) : t.view (dev, z) ≠ none := by
  by_cases h : touched z
  · exact hview z h
  · rw [e.view (dev, z) (fun h' => h h'.2) (S.not_zmap hz)]
    exact S.readable z hz

theorem Sound.data_after {bits : ℕ → Option Bool} {touched : ℕ → Prop} (S : Sound dev sb inode s)
    (e : Effect dev sb bits touched s t) (hp : p.Valid)
    (hne : tree_at (s.inode_table inode).i_zone (s.data dev) p ≠ 0)
    (hnot : ¬touched (tree_at (s.inode_table inode).i_zone (s.data dev) p)) :
    t.data dev (tree_at (s.inode_table inode).i_zone (s.data dev) p) =
      s.data dev (tree_at (s.inode_table inode).i_zone (s.data dev) p) := by
  rw [← S.place_eq] at hne hnot ⊢
  rw [Kernel.data, Kernel.data, e.view _ (fun h => hnot h.2) (S.not_zmap (S.inside p hp hne).1)]

theorem wp_create_zone (S : Sound dev sb inode s) (hk : k < 9) :
    wp (zone_block inode k true) (fun r t => Step dev sb inode s t (k, []) r) (fun _ _ => False) s := by
  have hq : Place.Valid (k, []) := ⟨hk, Nat.zero_le _, fun i hi => by cases hi⟩
  have hself : SameTree dev sb s s := (Still.refl S.coherent).sameTree S S.idle
  rw [zone_block, wp_bind, wp_get]
  dsimp only
  by_cases hzero : (s.inode_table inode).i_zone k = 0
  · have hnothing : ∀ t : Kernel, t.inode_table = s.inode_table →
        t.set_inode inode ((t.inode_table inode).set_zone k 0) = t := by
      intro t hinode
      rw [Kernel.set_inode, hinode, Inode.set_zone, ← hzero, update_eq_self, update_eq_self, ← hinode]
    rw [if_pos ⟨rfl, hzero⟩, wp_bind, S.i_dev]
    refine wp_new_block S.mounted S.coherent (fun hall => ?_) (fun n t hn hpast e hinode hcount => ?_)
      (fun n t hn hlt hbusy => ?_) fun n t hn hlt hidle e hinode hcount hinfo => ?_
    · rw [wp_bind, wp_modify, wp_pure, if_pos rfl, hnothing s rfl]
      exact Step.no_block S hself S.mounted S.coherent hq hzero fun z _ => hall _
    · rw [wp_bind, wp_modify, wp_pure, if_pos rfl, hnothing t hinode]
      have h := S.past e hinode hcount
      exact Step.no_block S h (S.mounted.after e fun k => Nat.le_of_eq (congrFun hcount k).symm) e.coherent
        hq hzero fun z hz hz' => hn.full hpast hz (h.clear _ hz')
    · obtain ⟨hzone, hnr, -⟩ := hn.zone S hlt
      exact hbusy (S.idle _ hzone (by rw [hnr]; exact hn.clear))
    · obtain ⟨hzone, hnr, hz0⟩ := hn.zone S hlt
      generalize n + sb.s_firstdatazone - 1 = z at *
      have M := S.mounted.after e fun k => Nat.le_of_eq (congrFun hcount k).symm
      have hview := view_of_uptodate hinfo
      have hread : ∀ y, sb.InZone y → t.view (dev, y) ≠ none := by
        refine fun y hy => S.read_after e (fun x hx => ?_) hy
        rw [hx, hview]
        exact Option.some_ne_none _
      rw [wp_bind, wp_modify, wp_pure, if_neg hz0]
      have hinode' : Kernel.inode_table (t.set_inode inode { (t.inode_table inode).set_zone k z with
          i_dirt := true, i_ctime := t.CURRENT_TIME }) inode =
          { (s.inode_table inode).set_zone k z with i_dirt := true, i_ctime := t.CURRENT_TIME } := by
        rw [← hinode]
        exact update_self ..
      refine Step.enter S (t := t.set_inode inode _) ⟨M.super, M.inj, M.held, M.read⟩
        ⟨e.coherent.clean, e.coherent.dirty⟩ ?_ hzone (hnr ▸ hn.clear) (hnr ▸ e.bits)
        hread hcount hzero hq hview fun F p hp => ?_
      · rw [hinode']
        exact S.i_dev
      · rw [hinode']
        have hdata : ∀ p : Place, p.Valid → tree_at (s.inode_table inode).i_zone (s.data dev) p ≠ 0 →
            t.data dev (tree_at (s.inode_table inode).i_zone (s.data dev) p) =
              s.data dev (tree_at (s.inode_table inode).i_zone (s.data dev) p) :=
          fun p hp hne => S.data_after e hp hne (F.new p hp)
        exact tree_at_zone F hzero hdata hp
  · rw [if_neg fun h => hzero h.2, wp_pure]
    exact Step.found S hself S.mounted S.coherent hq rfl hzero

theorem wp_create_word (S : Sound dev sb inode s) (hq : Place.Valid (k, m ++ [i]))
    (hind : s.place inode (k, m) = ind) (hne : ind ≠ 0) :
    wp (word_block dev ind i true) (fun r t => Step dev sb inode s t (k, m ++ [i]) r) (fun _ _ => False) s := by
  have hm := Place.Valid.init hq
  obtain ⟨hzone, htaken⟩ := S.inside (k, m) hm (hind ▸ hne)
  rw [hind] at hzone htaken
  have hplace : s.place inode (k, m ++ [i]) = s.data dev ind i := by
    rw [S.place_eq, tree_at_concat, ← S.place_eq, hind, if_neg hne]
  have hmap := S.not_zmap hzone
  rw [word_block, if_neg hne, wp_bind]
  refine wp_bread S.coherent (fun t hnone _ _ => absurd hnone (S.readable ind hzone))
    fun d t hd hstill hcount hinfo => ?_
  have hdata : s.data dev ind = d := by
    rw [Kernel.data, hd]
    rfl
  have hhold := S.hold hstill hcount htaken
  have Mt := S.mounted.after (Effect.of_still S.mounted hstill) fun j => hcount ▸ le_held ..
  have St := hhold.sound S Mt hstill.coherent
  obtain ⟨b, hb, hbd, -⟩ := buffer_of_info hinfo
  -- what is left to do when the buffer is given back
  have hrelease : ∀ {u : Kernel} {Q : Unit → Kernel → Prop}, u.count = t.count → Mounted u dev sb →
      Coherent u → (∀ v, Still u v → v.count = s.count → Mounted v dev sb → Q () v) →
      wp (brelse (dev, ind)) Q (fun _ _ => False) u := by
    intro u Q hcountu M C hQ
    refine wp_brelse C (hcountu.trans hcount) fun v hv hcountv => hQ v hv hcountv ?_
    have e := Effect.of_still M hv
    refine ⟨(hv.get_super dev).trans M.super, M.inj, fun i bh hbh => ?_, e.read⟩
    rw [hcountv]
    exact S.mounted.held i bh hbh
  rw [if_pos rfl, wp_bind]
  refine wp_the_buffer hb ?_
  rw [hbd]
  by_cases hzero : d i = 0
  · have hempty : s.place inode (k, m ++ [i]) = 0 := by rw [hplace, hdata, hzero]
    rw [if_pos ⟨rfl, hzero⟩, wp_bind, wp_bind]
    refine wp_new_block Mt hstill.coherent (fun hall => ?_) (fun n u hn hpast e hinode hcountu => ?_)
      (fun n u hn hlt hbusy => ?_) fun n u hn hlt hidle e hinode hcountu hinfou => ?_
    · rw [wp_bind, if_neg (not_not_intro rfl), wp_pure, wp_pure, wp_bind]
      refine hrelease rfl Mt hstill.coherent fun v hv hcountv M => ?_
      rw [wp_pure]
      have hbits := (Effect.of_still Mt hv).bits
      have hsame : SameTree dev sb t v := hv.sameTree St fun y hy h => by
        rw [hcountv]
        exact S.idle y hy (hhold.clear _ h)
      refine Step.no_block S (hhold.trans hsame) M hv.coherent hq hempty fun z _ => ?_
      rw [hbits]
      exact hall _
    · rw [wp_bind, if_neg (not_not_intro rfl), wp_pure, wp_pure, wp_bind]
      have hu := St.past e hinode hcountu
      have Mu := Mt.after e fun k => Nat.le_of_eq (congrFun hcountu k).symm
      refine hrelease hcountu Mu e.coherent fun v hv hcountv M => ?_
      rw [wp_pure]
      have hsame : SameTree dev sb u v := hv.sameTree (hu.sound St Mu e.coherent) fun y hy h => by
        rw [hcountv]
        exact S.idle y hy (hhold.clear _ (hu.clear _ h))
      refine Step.no_block S ((hhold.trans hu).trans hsame) M hv.coherent hq hempty fun z hz hz' => ?_
      exact hn.full hpast hz (hu.clear _ (hsame.clear _ hz'))
    · obtain ⟨hfree, hnr, -⟩ := hn.zone St hlt
      exact hbusy (St.idle _ hfree (by rw [hnr]; exact hn.clear))
    · obtain ⟨hfree, hnr, hz0⟩ := hn.zone St hlt
      generalize n + sb.s_firstdatazone - 1 = z at *
      have hclear : s.zbit dev sb (sb.bit_nr z) = some false := hnr ▸ hhold.clear n hn.clear
      have hindz : ind ≠ z := by
        rintro rfl
        rw [hclear] at htaken
        cases htaken
      have Mu := Mt.after e fun k => Nat.le_of_eq (congrFun hcountu k).symm
      have hinfo' : u.info (dev, ind) = some (d, true) :=
        e.info _ d (fun h => hindz h.2) hmap (by rw [hcount, held_self]; omega) hinfo
      obtain ⟨b', hb', hbd'⟩ := buffer_of_info hinfo'
      rw [wp_bind, if_pos hz0, wp_bind]
      refine wp_the_buffer hb' ?_
      rw [wp_modify, wp_pure, wp_bind, hbd'.1]
      generalize hw : u.set_buffer (dev, ind) { b' with b_data := update d i z, b_dirt := true } = w
      have hCw : Coherent w := hw ▸ e.coherent.set_buffer (fun _ h => (by cases h)) fun _ => hbd'.2
      have ew : Effect dev sb (u.zbit dev sb) (fun y => y = ind) u w := by
        rw [← hw] at hCw ⊢
        exact Effect.touch Mu (.inr hmap) hCw
      have hcountw : w.count = u.count := by
        rw [← hw, set_buffer_count, ← count_of_buffer hb', update_eq_self]
      have Mw := Mu.after ew fun k => Nat.le_of_eq (congrFun hcountw k).symm
      refine hrelease (hcountw.trans hcountu) Mw hCw fun v hv hcountv M => ?_
      rw [wp_pure]
      -- from the beginning to the end
      have hle : ∀ j, s.count j ≤ t.count j := fun j => hcount ▸ le_held ..
      have hle' : ∀ j, s.count j ≤ u.count j := fun j => hcountu ▸ hle j
      have e0 := Effect.of_still S.mounted hstill
      have hall := ((e0.trans hle e).trans hle' ew).trans (fun j => hcountw ▸ hle' j) (Effect.of_still Mw hv)
      have hbits : v.zbit dev sb = s.set dev sb (sb.bit_nr z) := by
        rw [hall.bits, ew.bits, e.bits, hnr]
        funext j
        rw [Kernel.set, Kernel.set, e0.bits]
      have hinodes : v.inode_table = s.inode_table := by
        rw [hv.inode_table, ← hw]
        exact hinode.trans hstill.inode_table
      have hviewz : v.view (dev, z) = some fun _ => 0 := by
        rw [hv.view, ew.view _ (fun h => hindz h.2.symm) (S.not_zmap hfree)]
        exact view_of_uptodate hinfou
      have hviewind : v.view (dev, ind) = some (update d i z) := by
        rw [hv.view, ← hw]
        refine view_of_uptodate ?_
        rw [set_buffer_info_self, hbd'.2]
      have hread : ∀ y, sb.InZone y → v.view (dev, y) ≠ none := by
        refine fun y hy => S.read_after hall (fun x hx => ?_) hy
        rcases hx with ((hx | hx) | hx) | hx
        · exact hx.elim
        · rw [hx, hviewz]
          exact Option.some_ne_none _
        · rw [hx, hviewind]
          exact Option.some_ne_none _
        · exact hx.elim
      refine Step.enter S M hv.coherent (by rw [hinodes, S.i_dev]) hfree hclear hbits hread hcountv hempty hq
        hviewz fun F p hp => ?_
      have honce := S.once
      rw [Kernel.OncePerPlace, S.i_dev] at honce
      rw [S.place_eq] at hind
      have hword : v.data dev ind = update (s.data dev ind) i z := by
        rw [hdata, Kernel.data, hviewind]
        rfl
      rw [hinodes]
      refine tree_at_word F honce hq hind hne (by rw [hdata, hzero]) hword (fun p hp hp0 hpind => ?_) hp
      refine S.data_after hall hp hp0 fun h => ?_
      rcases h with ((h | h) | h) | h
      · exact h.elim
      · exact F.new p hp h
      · exact hpind h
      · exact h.elim
  · rw [if_neg fun h => hzero h.2, wp_bind, wp_pure, wp_bind]
    refine hrelease rfl Mt hstill.coherent fun v hv hcountv M => ?_
    rw [wp_pure]
    have hall := hstill.trans (fun j => hcount ▸ le_held ..) hv
    have hsame : SameTree dev sb s v := hall.sameTree S fun y hy h => by
      rw [hcountv]
      exact S.idle y hy h
    exact Step.found S hsame M hv.coherent hq (by rw [hplace, hdata]) hzero

/-! ### The whole call -/

/-- The block at the place `q` of a data block is there now, or the disk is full. -/
structure Created (dev : ℕ) (sb : SuperBlock) (inode : ℕ) (s t : Kernel) (q : Place) (r : ℕ) : Prop where
  sound : Sound dev sb inode t
  others : ∀ p : Place, p.Valid → p.Full → p ≠ q → t.place inode p = s.place inode p
  here : t.place inode q = r
  kept : s.place inode q ≠ 0 → r = s.place inode q
  new : s.place inode q = 0 → r ≠ 0 →
    sb.InZone r ∧ s.zbit dev sb (sb.bit_nr r) = some false ∧ t.view (dev, r) = some fun _ => 0
  full : r = 0 → ∀ z, sb.InZone z → t.zbit dev sb (sb.bit_nr z) ≠ some false
  spends : Spends dev sb inode s t

theorem Step.created (h : Step dev sb inode s t q r) (hq : q.Valid) : Created dev sb inode s t q r :=
  ⟨h.sound, fun p hp _ hne => h.others p hp hne, h.here, h.kept, h.new, h.full, h.spends hq⟩

/-- An indirect block on the way has been found or entered. -/
theorem Created.after (h : Step dev sb inode s t p n) (hvalid : p.Valid) (hp : ¬p.Full) (hq : q.Valid)
    (hfull : q.Full)
    (h' : Created dev sb inode t u q r) : Created dev sb inode s u q r := by
  have hsame : ∀ p' : Place, p'.Valid → p'.Full → t.place inode p' = s.place inode p' :=
    fun p' hp' hf => h.others p' hp' fun heq => hp (heq ▸ hf)
  refine ⟨h'.sound, fun p' hp' hf hne => (h'.others p' hp' hf hne).trans (hsame p' hp' hf), h'.here,
    fun hne => ?_, fun hzero hr => ?_, h'.full, (h.spends hvalid).trans h'.spends⟩
  · rw [← hsame q hq hfull] at hne ⊢
    exact h'.kept hne
  · rw [← hsame q hq hfull] at hzero
    obtain ⟨h1, h2, h3⟩ := h'.new hzero hr
    exact ⟨h1, h.clear _ h2, h3⟩

theorem place_below (h : s.place inode (k, m) = 0) : s.place inode (k, m ++ [i]) = 0 := by
  rw [Kernel.place] at h ⊢
  rw [tree_at_concat, if_pos h]

/-- There was no room for an indirect block on the way. -/
theorem Created.stuck (h : Step dev sb inode s t p 0) (hvalid : p.Valid) (hp : ¬p.Full) (hq : q.Valid)
    (hfull : q.Full)
    (hbelow : ∀ s : Kernel, s.place inode p = 0 → s.place inode q = 0) : Created dev sb inode s t q 0 := by
  have hsame : ∀ p' : Place, p'.Valid → p'.Full → t.place inode p' = s.place inode p' :=
    fun p' hp' hf => h.others p' hp' fun heq => hp (heq ▸ hf)
  have hzero : t.place inode q = 0 := hbelow t h.here
  refine ⟨h.sound, fun p' hp' hf _ => hsame p' hp' hf, hzero, fun hne => ?_, fun _ hne => absurd rfl hne,
    h.full, h.spends hvalid⟩
  rw [← hsame q hq hfull] at hne
  exact absurd hzero hne

theorem wp_create_block {block : ℤ} (S : Sound dev sb inode s) (hpos : 0 ≤ block) (hlt : block < MAX_BLOCKS) :
    wp (create_block inode block) (fun r t => Created dev sb inode s t (blockPlace block.toNat) r)
      (fun _ _ => False) s := by
  have hplace := blockPlace_spec (b := block.toNat) (by rw [MAX_BLOCKS] at hlt; omega)
  rw [create_block, _bmap, if_neg (by omega), if_neg (by omega), wp_bind, wp_get]
  dsimp only
  generalize block.toNat = b at *
  obtain ⟨hvalid, hfull⟩ := hplace
  rw [blockPlace] at hvalid hfull ⊢
  rw [S.i_dev]
  by_cases h1 : b < 7
  · rw [if_pos h1] at hvalid hfull ⊢
    rw [if_pos h1]
    exact wp_mono (wp_create_zone S (by omega)) (fun _ _ h => h.created hvalid) fun _ _ h => h
  rw [if_neg h1] at hvalid hfull ⊢
  rw [if_neg h1]
  by_cases h2 : b < 7 + 512
  · rw [if_pos h2] at hvalid hfull ⊢
    rw [if_pos h2, wp_bind]
    refine wp_mono (wp_create_zone S (by decide)) (fun ind t h => ?_) fun _ _ h => h
    have hroot : Place.Valid (7, []) := Place.Valid.init (m := []) (i := b - 7) hvalid
    have hnot : ¬Place.Full (7, []) := fun h => absurd (show 0 = depth 7 from h) (by decide)
    by_cases hind : ind = 0
    · subst hind
      rw [word_block, if_pos rfl, wp_pure]
      exact Created.stuck h hroot hnot hvalid hfull fun s hs => place_below (m := []) hs
    · refine wp_mono (wp_create_word h.sound (m := []) hvalid h.here hind) (fun r u h' => ?_) fun _ _ h => h
      exact Created.after h hroot hnot hvalid hfull (h'.created hvalid)
  · rw [if_neg h2] at hvalid hfull ⊢
    rw [if_neg h2, wp_bind]
    refine wp_mono (wp_create_zone S (by decide)) (fun dind t h => ?_) fun _ _ h => h
    have hnot : ¬Place.Full (8, []) := fun h => absurd (show 0 = depth 8 from h) (by decide)
    have hfirst : Place.Valid (8, [] ++ [(b - 519) / 512]) :=
      Place.Valid.init (m := [(b - 519) / 512]) (i := (b - 519) % 512) hvalid
    have hroot : Place.Valid (8, []) := Place.Valid.init (m := []) hfirst
    have hnot' : ¬Place.Full (8, [(b - 519) / 512]) := fun h => absurd (show 1 = depth 8 from h) (by decide)
    by_cases hdind : dind = 0
    · subst hdind
      rw [word_block, if_pos rfl, wp_bind, wp_pure, word_block, if_pos rfl, wp_pure]
      refine Created.stuck h hroot hnot hvalid hfull fun s hs => ?_
      exact place_below (m := [(b - 519) / 512]) (place_below (m := []) hs)
    · rw [wp_bind]
      refine wp_mono (wp_create_word h.sound (m := []) hfirst h.here hdind) (fun ind u h' => ?_) fun _ _ h => h
      refine wp_mono ?_ (fun r v hv => Created.after h hroot hnot hvalid hfull hv) fun _ _ h => h
      by_cases hind : ind = 0
      · subst hind
        rw [word_block, if_pos rfl, wp_pure]
        exact Created.stuck h' hfirst hnot' hvalid hfull fun s hs => place_below (m := [(b - 519) / 512]) hs
      · refine wp_mono (wp_create_word h'.sound (m := [(b - 519) / 512]) hvalid h'.here hind)
          (fun r v h'' => ?_) fun _ _ h => h
        exact Created.after h' hfirst hnot' hvalid hfull (h''.created hvalid)

/-! ### The block map -/

/-- `create_block` is an update of the block map at one place: it finds the block, or enters one that was free
and is empty now, or the disk is full. -/
def UpdatesPoint (dev : ℕ) (sb : SuperBlock) (inode : ℕ) (block : ℤ) (s : Kernel) : Prop :=
  wp (create_block inode block) (fun r t => t.OncePerPlace inode ∧ Maps t inode block r ∧
    (∀ block' : ℤ, 0 ≤ block' → block' < MAX_BLOCKS → block' ≠ block →
      ∀ x, Maps s inode block' x → Maps t inode block' x) ∧
    (∀ x, x ≠ 0 → Maps s inode block x → r = x) ∧
    (Maps s inode block 0 → r ≠ 0 →
      sb.InZone r ∧ s.zbit dev sb (sb.bit_nr r) = some false ∧ t.view (dev, r) = some fun _ => 0) ∧
    (r = 0 → ∀ z, sb.InZone z → t.zbit dev sb (sb.bit_nr z) ≠ some false))
    (fun _ _ => False) s

/-- **`create_block` changes the block map at one place.** -/
theorem create_block_updates_point {block : ℤ} (S : Sound dev sb inode s) (hpos : 0 ≤ block)
    (hlt : block < MAX_BLOCKS) : UpdatesPoint dev sb inode block s := by
  have hvalid : ∀ c : ℤ, 0 ≤ c → c < MAX_BLOCKS → (blockPlace c.toNat).Valid ∧ (blockPlace c.toNat).Full := by
    intro c h0 h1
    refine blockPlace_spec ?_
    rw [MAX_BLOCKS] at h1
    omega
  refine wp_mono (wp_create_block S hpos hlt) (fun r t h => ?_) fun _ _ h => h
  have C := h.sound.coherent
  refine ⟨h.sound.once, (maps_iff C hpos hlt).2 h.here, fun c h0 h1 hne x hx => ?_, fun x hx hmaps => ?_,
    fun hmaps hr => ?_, h.full⟩
  · rw [maps_iff S.coherent h0 h1] at hx
    rw [maps_iff C h0 h1]
    obtain ⟨h2, h3⟩ := hvalid c h0 h1
    have hplace := h.others _ h2 h3 fun heq => hne (by have hb := blockPlace_inj heq; omega)
    exact hplace.trans hx
  · rw [maps_iff S.coherent hpos hlt] at hmaps
    rw [← hmaps] at hx ⊢
    exact h.kept hx
  · rw [maps_iff S.coherent hpos hlt] at hmaps
    exact h.new hmaps hr

/-! ### A small file -/

/-- A file with one indirect block, the zone 5. -/
def smallTree (zmap w : Words) : Kernel :=
  { smallKernel zmap (fun z => if z = 5 then w else fun _ => 0) with
    inode_table := fun _ =>
      ⟨0o100644, 0, 0, 0, 0, 1, fun k => if k = 7 then 5 else 0, 0, 0, 1, 1, 1, false, false, false⟩ }

section SmallTree

variable {zmap w : Words}

theorem smallTree_place (hw : ∀ i, w i ≠ 0 → i = 3 ∧ w i = 6) (p : Place)
    (hne : (smallTree zmap w).place 0 p ≠ 0) : p = (7, []) ∧ (smallTree zmap w).place 0 p = 5 ∨
      p = (7, [3]) ∧ (smallTree zmap w).place 0 p = 6 ∧ w 3 = 6 := by
  obtain ⟨k, m⟩ := p
  have hzone : ∀ m, (smallTree zmap w).place 0 (k, m) =
      follow ((smallTree zmap w).data 1) (if k = 7 then 5 else 0) m := fun _ => rfl
  rw [hzone] at hne ⊢
  by_cases hk : k = 7
  · rw [if_pos hk] at hne ⊢
    subst hk
    match m with
    | [] => exact .inl ⟨rfl, rfl⟩
    | i :: m =>
      have hi : follow ((smallTree zmap w).data 1) 5 (i :: m) =
          follow ((smallTree zmap w).data 1) (w i) m := rfl
      rw [hi] at hne ⊢
      have hwi : w i ≠ 0 := by
        intro h
        rw [h, follow_zero] at hne
        exact hne rfl
      obtain ⟨rfl, h6⟩ := hw i hwi
      rw [h6] at hne ⊢
      match m with
      | [] => exact .inr ⟨rfl, rfl, rfl⟩
      | j :: m =>
        have hj : follow ((smallTree zmap w).data 1) 6 (j :: m) =
            follow ((smallTree zmap w).data 1) 0 m := rfl
        rw [hj, follow_zero] at hne
        exact absurd rfl hne
  · rw [if_neg hk, follow_zero] at hne
    exact absurd rfl hne

theorem smallTree_once (hw : ∀ i, w i ≠ 0 → i = 3 ∧ w i = 6) : (smallTree zmap w).OncePerPlace 0 := by
  intro p q _ _ hne heq
  have hp := smallTree_place hw p hne
  have hq := smallTree_place hw q (fun h => hne (heq.trans h))
  have heq' : (smallTree zmap w).place 0 p = (smallTree zmap w).place 0 q := heq
  rcases hp with ⟨rfl, hp⟩ | ⟨rfl, hp, -⟩ <;> rcases hq with ⟨rfl, hq⟩ | ⟨rfl, hq, -⟩
  · rfl
  · rw [hp, hq] at heq'
    cases heq'
  · rw [hp, hq] at heq'
    cases heq'
  · rfl

end SmallTree

/-- The indirect block is taken and empty, and the other zone is free. -/
theorem create_block_updates_point_indirect :
    UpdatesPoint 1 smallSuper 0 7 (smallTree (fun w => if w = 0 then 3 else 65535) fun _ => 0) := by
  have hw : ∀ i, (fun _ => 0 : Words) i ≠ 0 → i = 3 ∧ (fun _ => 0 : Words) i = 6 := fun _ h => absurd rfl h
  have M := small_mounted (fun w => if w = 0 then 3 else 65535) fun z => if z = 5
    then fun _ => 0 else fun _ => 0
  have C := small_coherent (fun w => if w = 0 then 3 else 65535) fun z => if z = 5
    then fun _ => 0 else fun _ => 0
  refine create_block_updates_point ⟨⟨M.super, M.inj, M.held, M.read⟩, ⟨C.clean, C.dirty⟩, rfl, by decide,
    by decide, fun i bh hi => ?_, fun z hz => ?_, fun z hz _ => ?_, fun p _ hne => ?_,
    smallTree_once hw⟩ (by decide) (by decide)
  · rw [(small_zmap hi).2]
    decide
  · obtain ⟨h1, h2⟩ := hz
    have hzone : z = 5 ∨ z = 6 := by
      have h3 : 5 ≤ z := h1
      have h4 : z < 7 := h2
      omega
    rcases hzone with rfl | rfl <;> exact Option.some_ne_none _
  · obtain ⟨h1, -⟩ := hz
    have hne : ((1, z) : Key) ≠ (1, 3) := by
      intro h
      have h3 : 5 ≤ z := h1
      have h4 := (Prod.mk.inj h).2
      omega
    show Option.elim (if ((1, z) : Key) = (1, 3) then _ else _) _ _ = 0
    rw [if_neg hne]
    rfl
  · rcases smallTree_place hw p hne with ⟨-, h⟩ | ⟨-, -, h⟩
    · rw [h]
      exact ⟨by decide, by decide⟩
    · exact absurd h (by decide)

/-- The zones of the file are free in the bitmap: one of them is taken as a new block and emptied. -/
theorem create_block_takes_indirect : ∃ s : Kernel, s.OncePerPlace 0 ∧ (∀ k, s.disk k ≠ none) ∧
    ¬UpdatesPoint 1 smallSuper 0 0 s := by
  refine ⟨smallTree (fun w => if w = 0 then 1 else 65535) fun i => if i = 3 then 6 else 0,
    smallTree_once fun i hi => ?_, fun k => ?_, fun hP => ?_⟩
  · by_cases h : i = 3
    · exact ⟨h, if_pos h⟩
    · rw [if_neg h] at hi
      exact absurd rfl hi
  · show (if k = (1, 3) then _ else _) ≠ none
    split_ifs <;> exact Option.some_ne_none _
  · have hrun : wp (create_block 0 0) (fun _ t => wp (bmap 0 10) (fun x _ => x = 0) (fun _ _ => False) t)
        (fun _ _ => False) (smallTree (fun w => if w = 0 then 1 else 65535) fun i => if i = 3
          then 6 else 0) := by
      decide
    have hbefore : Maps (smallTree (fun w => if w = 0 then 1 else 65535) fun i => if i = 3 then 6 else 0)
        0 10 6 := by
      rw [Maps]
      decide
    refine not_wp_false (wp_mono (wp_and hP hrun) ?_ fun _ _ h => h.1)
    rintro r t ⟨⟨-, -, hothers, -⟩, hzero⟩
    have hafter := hothers 10 (by decide) (by decide) (by decide) 6 hbefore
    refine not_wp_false (wp_mono (wp_and hafter hzero) ?_ fun _ _ h => h.1)
    rintro x u ⟨h1, h2⟩
    omega

end OldLinux.Volume
