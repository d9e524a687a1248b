import OldLinux.Volume.Bitmap

/-!
# `new_block`

It takes the zone of the first clear bit and empties its buffer.  A bit behind the last zone is set as well
before it is noticed that there is no such zone.
-/

namespace OldLinux.Volume

open Function Lib

variable {s t u : Kernel} {k : Key} {b : Buffer} {d : Words} {dev i j n m bh z : ℕ} {sb : SuperBlock}
variable {E : Stop → Kernel → Prop}

/-! ### The search -/

/-- The first clear bit. -/
structure FirstClear (s : Kernel) (dev : ℕ) (sb : SuperBlock) (n : ℕ) : Prop where
  clear : s.zbit dev sb n = some false
  first : ∀ m < n, s.zbit dev sb m ≠ some false

/-- What the search from `i` on finds. -/
def Searched (s : Kernel) (dev : ℕ) (sb : SuperBlock) (i n : ℕ) : Option (ℕ × ℕ × ℕ) → Prop
  | none => ∀ m, i ≤ m / 8192 → m / 8192 < i + n → s.zbit dev sb m ≠ some false
  | some (i', bh, j) => sb.zmap i' = some bh ∧ j < 8192 ∧ s.zbit dev sb (j + i' * 8192) = some false ∧
      ∀ m < j + i' * 8192, i ≤ m / 8192 → s.zbit dev sb m ≠ some false

/-- Nothing is found in the first block. -/
theorem Searched.next {r : Option (ℕ × ℕ × ℕ)} (h : Searched s dev sb (i + 1) n r)
    (hset : ∀ m, m / 8192 = i → s.zbit dev sb m ≠ some false) : Searched s dev sb i (n + 1) r := by
  match r, h with
  | none, h =>
    intro m h1 h2
    by_cases hm : m / 8192 = i
    · exact hset m hm
    · exact h m (by omega) (by omega)
  | some (i', bh, j), ⟨hbh, hj, hclear, hfirst⟩ =>
    refine ⟨hbh, hj, hclear, fun m hlt h1 => ?_⟩
    by_cases hm : m / 8192 = i
    · exact hset m hm
    · exact hfirst m hlt (by omega)

theorem wp_search_zmap (M : Mounted s dev sb) (n i : ℕ) :
    wp (search_zmap dev sb n i) (fun r t => t = s ∧ Searched s dev sb i n r) E s := by
  induction n generalizing i with
  | zero =>
    rw [search_zmap, wp_pure]
    exact ⟨rfl, fun m h1 h2 => by omega⟩
  | succ n ih =>
    rw [search_zmap]
    cases hbh : sb.zmap i with
    | none =>
      refine wp_mono (ih (i + 1)) (fun r t h => ⟨h.1, h.2.next fun m hm hbit => ?_⟩) fun _ _ h => h
      rw [Kernel.zbit, hm, hbh] at hbit
      cases hbit
    | some bh =>
      obtain ⟨d, hd⟩ := M.read i bh hbh
      obtain ⟨b, hb, hdata, -⟩ := buffer_of_info hd
      have hbits : ∀ m, m / 8192 = i → s.zbit dev sb m = some (bit b.b_data (m % 8192)) := by
        intro m hm
        rw [hdata]
        exact zbit_eq (hm ▸ hbh) hd
      have hspec := find_first_zero_spec b.b_data
      dsimp only
      rw [wp_bind]
      refine wp_the_buffer hb ?_
      rw [wp_ite]
      refine ⟨fun hlt => ?_, fun hge => ?_⟩
      · rw [wp_pure]
        refine ⟨rfl, hbh, hlt, ?_, fun m hm hle => ?_⟩
        · rw [hbits _ (by omega), Nat.add_mul_mod_self_right, Nat.mod_eq_of_lt hlt, hspec.clear hlt]
        · rw [hbits m (by omega), hspec.set _ (by omega)]
          simp
      · refine wp_mono (ih (i + 1)) (fun r t h => ⟨h.1, h.2.next fun m hm => ?_⟩) fun _ _ h => h
        rw [hbits m hm, hspec.set _ (by omega)]
        simp

/-! ### Allocation -/

/-- The zone is written to, or its buffer is forgotten. -/
theorem Effect.touch (M : Mounted s dev sb) (hz : s.count (dev, z) = 0 ∨ ¬sb.IsZmap dev (dev, z))
    {b' : Buffer} (hcoherent : Coherent (s.set_buffer (dev, z) b')) :
    Effect dev sb (s.zbit dev sb) (fun y => y = z) s (s.set_buffer (dev, z) b') := by
  have hmap : ¬sb.IsZmap dev (dev, z) := by
    rcases hz with hz | hz
    · rintro ⟨-, i, hi⟩
      have hpos := M.held i z hi
      omega
    · exact hz
  have hother : ∀ i bh, sb.zmap i = some bh → (dev, bh) ≠ (dev, z) := by
    intro i bh hbh heq
    rw [(Prod.mk.inj heq).2] at hbh
    exact hmap ⟨rfl, i, hbh⟩
  have hne : ∀ k : Key, ¬(k.1 = dev ∧ k.2 = z) → k ≠ (dev, z) := by
    rintro k hk rfl
    exact hk ⟨rfl, rfl⟩
  refine ⟨rfl, rfl, ?_, fun i bh hbh => ?_, fun k hk _ => ?_, fun k d hk _ _ hd => ?_, hcoherent⟩
  · funext m
    rw [Kernel.zbit, Kernel.zbit]
    cases hbh : sb.zmap (m / 8192) with
    | none => rfl
    | some bh => rw [Option.bind_some, Option.bind_some, set_buffer_info _ _ (hother _ _ hbh)]
  · rw [set_buffer_info _ _ (hother i bh hbh)]
    exact M.read i bh hbh
  · rw [set_buffer_view, update_of_ne (hne k hk)]
  · rw [set_buffer_info _ _ (hne k hk), hd]

/-- The bits after one of them has been set. -/
def Kernel.set (s : Kernel) (dev : ℕ) (sb : SuperBlock) (n m : ℕ) : Option Bool :=
  if m = n then some true else s.zbit dev sb m

theorem wp_new_block {Q : ℕ → Kernel → Prop} (M : Mounted s dev sb) (C : Coherent s)
    (hfull : (∀ n, s.zbit dev sb n ≠ some false) → Q 0 s)
    (hpast : ∀ n t, FirstClear s dev sb n → sb.s_nzones ≤ n + sb.s_firstdatazone - 1 →
      Effect dev sb (s.set dev sb n) (fun _ => False) s t → t.inode_table = s.inode_table →
      t.count = s.count → Q 0 t)
    (hbusy : ∀ n t, FirstClear s dev sb n → n + sb.s_firstdatazone - 1 < sb.s_nzones →
      s.count (dev, n + sb.s_firstdatazone - 1) ≠ 0 → E (.panic "new block: count is != 1") t)
    (hnew : ∀ n t, FirstClear s dev sb n → n + sb.s_firstdatazone - 1 < sb.s_nzones →
      s.count (dev, n + sb.s_firstdatazone - 1) = 0 →
      Effect dev sb (s.set dev sb n) (fun y => y = n + sb.s_firstdatazone - 1) s t →
      t.inode_table = s.inode_table → t.count = s.count →
      t.info (dev, n + sb.s_firstdatazone - 1) = some (fun _ => 0, true) →
      Q (n + sb.s_firstdatazone - 1) t) : wp (new_block dev) Q E s := by
  rw [new_block, wp_bind, wp_get, M.super]
  dsimp only
  rw [wp_bind]
  refine wp_mono (wp_search_zmap M 8 0) ?_ fun _ _ h => h
  rintro r s' ⟨rfl, hr⟩
  match r, hr with
  | none, hr =>
    refine hfull fun n hn => ?_
    have hlt := zbit_lt hn
    exact hr n (Nat.zero_le _) (by omega) hn
  | some (i, bh, j), ⟨hbh, hj, hclear, hfirst⟩ =>
    have hF : FirstClear s' dev sb (j + i * 8192) := ⟨hclear, fun m hm => hfirst m hm (Nat.zero_le _)⟩
    obtain ⟨d, hd⟩ := M.read i bh hbh
    obtain ⟨b, hb, hdata, -⟩ := buffer_of_info hd
    have hdiv : (j + i * 8192) / 8192 = i := by omega
    have hbit : bit b.b_data j = false := by
      have hz := zbit_eq (n := j + i * 8192) (by rw [hdiv, hbh]) hd
      rw [hclear, ← hdata, Nat.add_mul_mod_self_right, Nat.mod_eq_of_lt hj] at hz
      exact (Option.some.inj hz).symm
    dsimp only
    rw [wp_bind]
    refine wp_the_buffer hb ?_
    rw [if_neg (by rw [hbit]; exact Bool.false_ne_true), wp_bind, wp_modify]
    -- the bit is set
    generalize ht : s'.set_buffer (dev, bh) { b with b_data := set_bit j b.b_data, b_dirt := true } = t
    have hset : Effect dev sb (s'.set dev sb (j + i * 8192)) (fun _ => False) s' t := by
      have h := Effect.write M C hbh hb (set_bit j b.b_data)
      rw [ht] at h
      refine { h with bits := h.bits.trans (funext fun m => ?_) }
      rw [Kernel.set]
      by_cases hm : m / 8192 = i
      · rw [if_pos hm, bit_set_bit]
        by_cases heq : m = j + i * 8192
        · rw [if_pos heq, decide_eq_true (by omega), Bool.true_or]
        · rw [if_neg heq, decide_eq_false (by omega), Bool.false_or, zbit_eq (by rw [hm, hbh]) hd, hdata]
      · rw [if_neg hm, if_neg (by rintro rfl; exact hm hdiv)]
    have hcount : t.count = s'.count := by
      rw [← ht, set_buffer_count, ← count_of_buffer hb, update_eq_self]
    have hle : ∀ k, s'.count k ≤ t.count k := fun k => Nat.le_of_eq (congrFun hcount k).symm
    rw [wp_ite]
    refine ⟨fun hge => ?_, fun hlt => ?_⟩
    · rw [wp_pure]
      exact hpast _ t hF hge hset (by rw [← ht]; rfl) hcount
    · have hlt := Nat.not_le.1 hlt
      generalize hz : j + i * 8192 + sb.s_firstdatazone - 1 = z at hlt ⊢
      have Mt := M.after hset hle
      rw [wp_bind]
      refine wp_getblk hset.coherent fun b₂ t₂ hstill hcount₂ hb₂ => ?_
      have hself : b₂.b_count = s'.count (dev, z) + 1 := by
        rw [← count_of_buffer hb₂, hcount₂, held_self, hcount]
      rw [wp_bind]
      refine wp_the_buffer hb₂ ?_
      rw [wp_ite]
      refine ⟨fun hne => ?_, fun heq => ?_⟩
      · rw [hself] at hne
        have hbusy' := hbusy _ t₂ hF (by rw [hz]; exact hlt) (by rw [hz]; omega)
        exact hbusy'
      · have hidle : s'.count (dev, z) = 0 := by omega
        have hstillE := Effect.of_still Mt hstill
        have hle₂ : ∀ k, t.count k ≤ t₂.count k := fun k => hcount₂ ▸ le_held ..
        have hnot : ¬sb.IsZmap dev (dev, z) := by
          rintro ⟨-, i', hi'⟩
          have hpos := M.held i' z hi'
          omega
        rw [wp_bind, wp_modify, wp_bind]
        generalize ht₃ : t₂.set_buffer (dev, z)
          { b₂ with b_data := fun _ => 0, b_uptodate := true, b_dirt := true } = t₃
        have hzero : Effect dev sb (t₂.zbit dev sb) (fun y => y = z) t₂ t₃ := by
          rw [← ht₃]
          refine Effect.touch (Mt.after hstillE hle₂) (.inr hnot) ?_
          exact hstill.coherent.set_buffer (fun _ h => (by cases h)) fun _ => rfl
        have hcount₃ : t₃.count = held s'.count (dev, z) := by
          rw [← ht₃, set_buffer_count, ← count_of_buffer hb₂, update_eq_self, hcount₂, hcount]
        have hle₃ : ∀ k, t₂.count k ≤ t₃.count k := fun k => by rw [hcount₃, hcount₂, hcount]
        refine wp_brelse hzero.coherent hcount₃ fun u hu hcount₄ => ?_
        rw [wp_pure, ← hz]
        have M₃ := (Mt.after hstillE hle₂).after hzero hle₃
        have hfinal := ((hset.trans hle hstillE).trans (fun k => (hle k).trans (hle₂ k)) hzero).trans
          (fun k => ((hle k).trans (hle₂ k)).trans (hle₃ k)) (Effect.of_still M₃ hu)
        refine hnew _ u hF (by rw [hz]; exact hlt) (by rw [hz]; exact hidle) ?_ ?_ hcount₄ ?_
        · rw [hz]
          have hbits : t₃.zbit dev sb = s'.set dev sb (j + i * 8192) := by
            rw [hzero.bits, hstillE.bits, hset.bits]
          rw [hbits] at hfinal
          refine hfinal.mono fun y hy => ?_
          rcases hy with ((hy | hy) | hy) | hy
          · exact hy.elim
          · exact hy.elim
          · exact hy
          · exact hy.elim
        · rw [hu.inode_table, ← ht₃]
          show t₂.inode_table = _
          rw [hstill.inode_table, ← ht]
          rfl
        · rw [hz]
          refine hu.info _ _ ?_ ?_
          · rw [hcount₃, held_self]
            omega
          · rw [← ht₃, set_buffer_info_self]

/-! ### A zone or nothing -/

/-- A zone that was free: exactly its bit has been set, and its buffer is empty. -/
def NewZone (s : Kernel) (dev : ℕ) (sb : SuperBlock) (z : ℕ) (t : Kernel) : Prop :=
  sb.InZone z ∧ s.zbit dev sb (sb.bit_nr z) = some false ∧
    t.zbit dev sb = s.set dev sb (sb.bit_nr z) ∧ t.info (dev, z) = some (fun _ => 0, true)

/-- No zone was free, and no bit has changed. -/
def NoZone (s : Kernel) (dev : ℕ) (sb : SuperBlock) (r : ℕ) (t : Kernel) : Prop :=
  r = 0 ∧ (∀ z, sb.InZone z → s.zbit dev sb (sb.bit_nr z) ≠ some false) ∧ t.zbit dev sb = s.zbit dev sb

/-- `new_block` returns, with a zone or with nothing. -/
def AllocatesOrNot (s : Kernel) (dev : ℕ) (sb : SuperBlock) : Prop :=
  wp (new_block dev) (fun r t => NewZone s dev sb r t ∨ NoZone s dev sb r t) (fun _ _ => False) s

/-- The first clear bit, if there is one, is that of a zone, and nobody uses its buffer. -/
def FirstClearFits (s : Kernel) (dev : ℕ) (sb : SuperBlock) : Prop :=
  ∀ n, FirstClear s dev sb n → ∃ z, sb.InZone z ∧ sb.bit_nr z = n ∧ s.count (dev, z) = 0

theorem FirstClear.pos (h : FirstClear s dev sb n) (hreserved : s.zbit dev sb 0 = some true) : 0 < n := by
  refine Nat.pos_of_ne_zero ?_
  rintro rfl
  rw [h.clear] at hreserved
  cases hreserved

theorem FirstClear.unique (h : FirstClear s dev sb n) (h' : FirstClear s dev sb m) : n = m := by
  rcases Nat.lt_trichotomy n m with hlt | heq | hlt
  · exact absurd h.clear (h'.first n hlt)
  · exact heq
  · exact absurd h'.clear (h.first m hlt)

theorem bit_nr_of_pos (hpos : 0 < n) : sb.bit_nr (n + sb.s_firstdatazone - 1) = n := by
  rw [SuperBlock.bit_nr]
  omega

theorem not_wp_false {α : Type} {c : VolumeM α} (h : wp c (fun _ _ => False) (fun _ _ => False) s) :
    False := (returns_of_wp h).elim fun _ h => h.elim fun _ h => h.2

/-- **`new_block` allocates a zone or changes nothing**, whatever the bitmap says, exactly if its first
clear bit is that of a zone whose buffer nobody uses. -/
theorem new_block_allocates (M : Mounted s dev sb) (C : Coherent s) (hreserved : s.zbit dev sb 0 = some true) :
    AllocatesOrNot s dev sb ↔ FirstClearFits s dev sb := by
  have hset : ∀ n, s.zbit dev sb n = some false → s.set dev sb n ≠ s.zbit dev sb := by
    intro n hn heq
    have hat := congrFun heq n
    rw [Kernel.set, if_pos rfl, hn] at hat
    cases hat
  constructor
  · intro hP n hn
    by_contra hcond
    rw [not_exists] at hcond
    have hpos := hn.pos hreserved
    -- what happens instead
    refine not_wp_false (wp_mono (wp_and hP (wp_new_block (E := fun _ _ => True)
      (Q := fun r t => ¬(NewZone s dev sb r t ∨ NoZone s dev sb r t)) M C ?_ ?_ ?_ ?_)) ?_ ?_)
    · exact fun hall => absurd hn.clear (hall n)
    · rintro n' t hn' hpast e - - (⟨hzone, hclear, hbits, -⟩ | ⟨-, -, hbits⟩)
      · rw [e.bits] at hbits
        have hat := congrFun hbits (sb.bit_nr 0)
        rw [Kernel.set, Kernel.set, if_pos rfl] at hat
        split at hat
        · rename_i heq
          have h1 := hzone.2
          have h2 := hzone.1
          rw [SuperBlock.bit_nr] at heq
          omega
        · rw [hclear] at hat
          cases hat
      · rw [e.bits] at hbits
        exact hset n' hn'.clear hbits
    · exact fun _ _ _ _ _ => trivial
    · intro n' t hn' hlt hidle e _ _ _ _
      have heq := hn.unique hn'
      subst heq
      exact hcond _ ⟨⟨by omega, hlt⟩, bit_nr_of_pos hpos, hidle⟩
    · rintro r t ⟨h1, h2⟩
      exact h2 h1
    · rintro _ _ ⟨h, -⟩
      exact h
  · intro hcond
    refine wp_new_block M C (fun hall => ?_) (fun n t hn hpast _ _ _ => ?_) (fun n t hn _ hbusy => ?_)
      fun n t hn hlt _ e _ _ hinfo => ?_
    · exact .inr ⟨rfl, fun z _ => hall _, rfl⟩
    · obtain ⟨z, hz, hnr, -⟩ := hcond n hn
      have h1 := hz.1
      have h2 := hz.2
      rw [SuperBlock.bit_nr] at hnr
      omega
    · obtain ⟨z, hz, hnr, hidle⟩ := hcond n hn
      have h1 := hz.1
      rw [SuperBlock.bit_nr] at hnr
      have hzeq : n + sb.s_firstdatazone - 1 = z := by omega
      rw [hzeq] at hbusy
      exact hbusy hidle
    · have hpos := hn.pos hreserved
      left
      refine ⟨⟨by omega, hlt⟩, ?_, ?_, hinfo⟩
      · rw [bit_nr_of_pos hpos]
        exact hn.clear
      · rw [bit_nr_of_pos hpos]
        exact e.bits

/-! ### A small device -/

/-- A device with the zones from 5 to 6 and one block of bitmap. -/
def smallSuper : SuperBlock where
  s_ninodes := 32
  s_nzones := 7
  s_imap_blocks := 1
  s_zmap_blocks := 1
  s_firstdatazone := 5
  s_magic := 0x137F
  s_imap i := if i = 0 then some 2 else none
  s_zmap i := if i = 0 then some 3 else none
  s_dev := 1
  s_imount := none
  s_lock := false

/-- The zones are there and empty, but those that are given; the bitmap is in its buffer. -/
def smallKernel (zmap : Words) (zones : ℕ → Words) : Kernel where
  super_block _ := smallSuper
  buffer k := if k = (1, 3) then some ⟨zmap, 1, false, true⟩ else none
  disk k := if k = (1, 3) then some zmap else some (zones k.2)
  inode_table _ := ⟨0o100644, 0, 0, 0, 0, 1, fun _ => 0, 0, 0, 1, 1, 1, false, false, false⟩
  last_inode := 0
  CURRENT_TIME := 0
  turn _ := ⟨fun _ => false, fun _ => 0⟩

theorem small_zmap (h : smallSuper.zmap i = some bh) : i = 0 ∧ bh = 3 := by
  rw [SuperBlock.zmap] at h
  split at h
  · rename_i hlt
    obtain ⟨h1, h2⟩ := Option.ite_none_right_eq_some.1 h
    exact ⟨congrArg Fin.val h1, (Option.some.inj h2).symm⟩
  · cases h

theorem small_mounted (zmap : Words) (zones : ℕ → Words) : Mounted (smallKernel zmap zones) 1 smallSuper := by
  refine ⟨rfl, fun i j bh hi hj => ?_, fun i bh hi => ?_, fun i bh hi => ⟨zmap, ?_⟩⟩
  · exact (small_zmap hi).1.trans (small_zmap hj).1.symm
  · rw [(small_zmap hi).2]
    exact Nat.one_pos
  · rw [(small_zmap hi).2]
    rfl

theorem small_coherent (zmap : Words) (zones : ℕ → Words) : Coherent (smallKernel zmap zones) := by
  refine ⟨fun k b hb _ _ => ?_, fun k b hb hdirt => ?_⟩
  · obtain ⟨hk, hb'⟩ := Option.ite_none_right_eq_some.1 hb
    rw [← Option.some.inj hb', hk]
    rfl
  · obtain ⟨-, hb'⟩ := Option.ite_none_right_eq_some.1 hb
    rw [← Option.some.inj hb'] at hdirt
    cases hdirt

/-- The first zone is free. -/
theorem new_block_allocates_first :
    AllocatesOrNot (smallKernel (fun w => if w = 0 then 1 else 65535) fun _ _ => 0) 1 smallSuper := by
  refine (new_block_allocates (small_mounted _ _) (small_coherent _ _) (by decide)).2 ?_
  intro n hn
  have hone : FirstClear (smallKernel (fun w => if w = 0 then 1 else 65535) fun _ _ => 0) 1 smallSuper 1 :=
    ⟨by decide, by decide⟩
  exact ⟨5, by decide, hone.unique hn, rfl⟩

/-- Both zones are taken, and the bit behind them is set. -/
theorem new_block_past_the_end :
    ¬AllocatesOrNot (smallKernel (fun w => if w = 0 then 7 else 65535) fun _ _ => 0) 1 smallSuper := by
  intro hP
  have hrun : wp (new_block 1) (fun r t => r = 0 ∧ t.zbit 1 smallSuper 3 = some true)
      (fun _ _ => False) (smallKernel (fun w => if w = 0 then 7 else 65535) fun _ _ => 0) := by
    decide
  refine not_wp_false (wp_mono (wp_and hP hrun) ?_ fun _ _ h => h.1)
  rintro r t ⟨h | h, rfl, hbit⟩
  · exact absurd h.1.1 (by decide)
  · rw [h.2.2] at hbit
    exact absurd hbit (by decide)

end OldLinux.Volume
