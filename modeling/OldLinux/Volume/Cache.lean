import OldLinux.Volume.Machine

/-!
# The buffer cache

What a caller sees of the cache: how often each block is in use, and what reading it gives, be it from the
buffer or from the disk.  Taking and giving back a buffer leaves the second alone as long as what is not
dirty is what is on the disk.
-/

namespace OldLinux.Volume

open Function Lib

variable {s t u : Kernel} {k j : Key} {b : Buffer} {d : Words} {c : Key → ℕ}

/-! ### Views of the cache -/

/-- The users of the buffer of a block. -/
def Kernel.count (s : Kernel) (k : Key) : ℕ := (s.buffer k).elim 0 Buffer.b_count

/-- What `bread` finds. -/
def Kernel.view (s : Kernel) (k : Key) : Option Words :=
  match s.buffer k with
  | none => s.disk k
  | some b => if b.b_uptodate then some b.b_data else s.disk k

/-- What is in the buffer, and whether it is up to date. -/
def Kernel.info (s : Kernel) (k : Key) : Option (Words × Bool) :=
  (s.buffer k).map fun b => (b.b_data, b.b_uptodate)

/-- A buffer that is up to date has what is on the disk, unless it is dirty; and what is dirty is up to
date. -/
structure Coherent (s : Kernel) : Prop where
  clean : ∀ k b, s.buffer k = some b → b.b_uptodate = true → b.b_dirt = false → s.disk k = some b.b_data
  dirty : ∀ k b, s.buffer k = some b → b.b_dirt = true → b.b_uptodate = true

/-- One user more. -/
def held (c : Key → ℕ) (k : Key) : Key → ℕ := update c k (c k + 1)

theorem held_self (c : Key → ℕ) (k : Key) : held c k k = c k + 1 := update_self ..

theorem held_of_ne (c : Key → ℕ) (h : j ≠ k) : held c k j = c j := update_of_ne h ..

theorem le_held (c : Key → ℕ) (k j : Key) : c j ≤ held c k j := by
  by_cases h : j = k
  · rw [h, held_self]
    omega
  · exact Nat.le_of_eq (held_of_ne c h).symm

theorem held_release (c : Key → ℕ) (k : Key) : update (held c k) k (held c k k - 1) = c := by
  rw [held_self, Nat.add_sub_cancel, held, update_idem, update_eq_self]

theorem held_inj {c c' : Key → ℕ} (h : held c k = held c' k) : c = c' := by
  rw [← held_release c k, h, held_release]

theorem count_of_buffer (h : s.buffer k = some b) : s.count k = b.b_count := by
  rw [Kernel.count, h]
  rfl

theorem info_of_buffer (h : s.buffer k = some b) : s.info k = some (b.b_data, b.b_uptodate) := by
  rw [Kernel.info, h]
  rfl

theorem exists_buffer (h : 0 < s.count k) : ∃ b, s.buffer k = some b := by
  cases hb : s.buffer k with
  | none =>
    rw [Kernel.count, hb] at h
    exact absurd h (Nat.lt_irrefl 0)
  | some b => exact ⟨b, rfl⟩

/-- The buffer of a block that is up to date. -/
theorem buffer_of_info (h : s.info k = some (d, true)) :
    ∃ b, s.buffer k = some b ∧ b.b_data = d ∧ b.b_uptodate = true := by
  cases hb : s.buffer k with
  | none =>
    rw [Kernel.info, hb] at h
    cases h
  | some b =>
    rw [info_of_buffer hb] at h
    exact ⟨b, rfl, Prod.mk.inj (Option.some.inj h)⟩

theorem view_of_uptodate (h : s.info k = some (d, true)) : s.view k = some d := by
  cases hb : s.buffer k with
  | none =>
    rw [Kernel.info, hb] at h
    cases h
  | some b =>
    rw [info_of_buffer hb] at h
    obtain ⟨h1, h2⟩ := Prod.mk.inj (Option.some.inj h)
    rw [Kernel.view, hb]
    dsimp only
    rw [if_pos h2, h1]

/-! ### Nothing but the users -/

/-- The caches show the same, and what is in use and up to date has stayed where it was. -/
structure Still (s t : Kernel) : Prop where
  super_block : t.super_block = s.super_block
  inode_table : t.inode_table = s.inode_table
  time : t.CURRENT_TIME = s.CURRENT_TIME
  view : t.view = s.view
  info : ∀ k d, 0 < s.count k → s.info k = some (d, true) → t.info k = some (d, true)
  coherent : Coherent t

theorem Still.refl (C : Coherent s) : Still s s := ⟨rfl, rfl, rfl, rfl, fun _ _ _ h => h, C⟩

theorem Still.trans (h : Still s t) (hcount : ∀ k, s.count k ≤ t.count k) (h' : Still t u) : Still s u :=
  ⟨h'.super_block.trans h.super_block, h'.inode_table.trans h.inode_table, h'.time.trans h.time,
    h'.view.trans h.view,
    fun k d hk hd => h'.info k d (Nat.lt_of_lt_of_le hk (hcount k)) (h.info k d hk hd), h'.coherent⟩

theorem Still.get_super (h : Still s t) (dev : ℕ) : t.get_super dev = s.get_super dev := by
  rw [Kernel.get_super, Kernel.get_super, h.super_block]

/-! ### One buffer -/

@[simp]
theorem set_buffer_self (s : Kernel) (k : Key) (b : Buffer) : (s.set_buffer k b).buffer k = some b :=
  update_self ..

theorem set_buffer_of_ne (s : Kernel) (b : Buffer) (h : j ≠ k) :
    (s.set_buffer k b).buffer j = s.buffer j := update_of_ne h ..

theorem set_buffer_count (s : Kernel) (k : Key) (b : Buffer) :
    (s.set_buffer k b).count = update s.count k b.b_count := by
  funext j
  by_cases h : j = k
  · rw [h, update_self, count_of_buffer (set_buffer_self ..)]
  · rw [update_of_ne h, Kernel.count, set_buffer_of_ne s b h]
    rfl

theorem set_buffer_info (s : Kernel) (b : Buffer) (h : j ≠ k) : (s.set_buffer k b).info j = s.info j := by
  rw [Kernel.info, Kernel.info, set_buffer_of_ne s b h]

theorem set_buffer_info_self (s : Kernel) (k : Key) (b : Buffer) :
    (s.set_buffer k b).info k = some (b.b_data, b.b_uptodate) := info_of_buffer (set_buffer_self ..)

theorem set_buffer_view (s : Kernel) (k : Key) (b : Buffer) : (s.set_buffer k b).view =
    update s.view k (if b.b_uptodate then some b.b_data else s.disk k) := by
  funext j
  by_cases h : j = k
  · rw [h, update_self, Kernel.view, set_buffer_self]
    rfl
  · rw [update_of_ne h, Kernel.view, set_buffer_of_ne s b h]
    rfl

theorem Coherent.set_buffer (C : Coherent s)
    (hclean : b.b_uptodate = true → b.b_dirt = false → s.disk k = some b.b_data)
    (hdirty : b.b_dirt = true → b.b_uptodate = true) : Coherent (s.set_buffer k b) := by
  refine ⟨fun j b' hb' => ?_, fun j b' hb' => ?_⟩
  · by_cases h : j = k
    · rw [h, set_buffer_self] at hb'
      cases hb'
      rw [h]
      exact hclean
    · rw [set_buffer_of_ne s b h] at hb'
      exact C.clean j b' hb'
  · by_cases h : j = k
    · rw [h, set_buffer_self] at hb'
      cases hb'
      exact hdirty
    · rw [set_buffer_of_ne s b h] at hb'
      exact C.dirty j b' hb'

/-- A buffer is changed, but not what reading it gives. -/
theorem Still.replace {b' : Buffer} (hb : s.buffer k = some b)
    (hview : (if b'.b_uptodate then some b'.b_data else s.disk k) = s.view k)
    (hinfo : b.b_uptodate = true → b'.b_data = b.b_data ∧ b'.b_uptodate = true)
    (hcoherent : Coherent (s.set_buffer k b')) : Still s (s.set_buffer k b') := by
  refine ⟨rfl, rfl, rfl, ?_, fun j d _ hd => ?_, hcoherent⟩
  · rw [set_buffer_view, hview, update_eq_self]
  · by_cases h : j = k
    · rw [h, info_of_buffer hb] at hd
      obtain ⟨h1, h2⟩ := Prod.mk.inj (Option.some.inj hd)
      rw [h, set_buffer_info_self, (hinfo h2).1, (hinfo h2).2, h1]
    · rw [set_buffer_info s _ h, hd]

/-- The users of a buffer are counted anew. -/
theorem Still.recount (C : Coherent s) (hb : s.buffer k = some b) (n : ℕ) :
    Still s (s.set_buffer k { b with b_count := n }) := by
  refine Still.replace hb ?_ (fun h => ⟨rfl, h⟩) (C.set_buffer (C.clean k b hb) (C.dirty k b hb))
  rw [Kernel.view, hb]

/-! ### Buffers that nobody uses -/

theorem recycle_buffer (hb : s.recycle.buffer k = some b) : s.buffer k = some b ∧ s.gone k b = false := by
  obtain ⟨h1, h2⟩ := Option.filter_eq_some_iff.1 hb
  exact ⟨h1, by simpa using h2⟩

theorem recycle_keeps (hb : s.buffer k = some b) (hgone : s.gone k b = false) :
    s.recycle.buffer k = some b := by
  show (s.buffer k).filter _ = some b
  rw [hb, Option.filter_some, hgone]
  rfl

theorem recycle_takes (hb : s.buffer k = some b) (hgone : s.gone k b = true) : s.recycle.buffer k = none := by
  show (s.buffer k).filter _ = none
  rw [hb, Option.filter_some, hgone]
  rfl

theorem recycle_none (hb : s.buffer k = none) : s.recycle.buffer k = none ∧ s.recycle.disk k = s.disk k := by
  refine ⟨?_, ?_⟩
  · show (s.buffer k).filter _ = none
    rw [hb]
    rfl
  · simp only [Kernel.recycle, hb]

theorem recycle_disk (hb : s.buffer k = some b) :
    s.recycle.disk k = if s.gone k b ∧ b.b_dirt then some b.b_data else s.disk k := by
  simp only [Kernel.recycle, hb]

theorem recycle_count (s : Kernel) : s.recycle.count = s.count := by
  funext k
  cases hb : s.buffer k with
  | none => rw [Kernel.count, Kernel.count, (recycle_none hb).1, hb]
  | some b =>
    cases hgone : s.gone k b with
    | false => rw [count_of_buffer (recycle_keeps hb hgone), count_of_buffer hb]
    | true =>
      rw [Kernel.gone, Bool.and_eq_true, decide_eq_true_eq] at hgone
      rw [count_of_buffer hb, hgone.1, Kernel.count, recycle_takes hb]
      · rfl
      · rw [Kernel.gone, Bool.and_eq_true, decide_eq_true_eq]
        exact hgone

theorem recycle_still (C : Coherent s) : Still s s.recycle := by
  refine ⟨rfl, rfl, rfl, ?_, fun k d hk hd => ?_, fun k b hb hup hclean => ?_, fun k b hb => ?_⟩
  · funext k
    cases hb : s.buffer k with
    | none => rw [Kernel.view, Kernel.view, (recycle_none hb).1, (recycle_none hb).2, hb]
    | some b =>
      cases hgone : s.gone k b with
      | false =>
        rw [Kernel.view, Kernel.view, recycle_keeps hb hgone, hb, recycle_disk hb, hgone]
        simp
      | true =>
        rw [Kernel.view, Kernel.view, recycle_takes hb hgone, hb, recycle_disk hb, hgone]
        dsimp only
        cases hdirt : b.b_dirt with
        | true =>
          rw [if_pos ⟨rfl, rfl⟩, if_pos (C.dirty k b hb hdirt)]
        | false =>
          rw [if_neg fun h => Bool.false_ne_true h.2]
          split_ifs with hup
          · exact C.clean k b hb hup hdirt
          · rfl
  · obtain ⟨b, hb⟩ := exists_buffer hk
    rw [count_of_buffer hb] at hk
    have hgone : s.gone k b = false := by
      rw [Kernel.gone, decide_eq_false (by omega), Bool.false_and]
    rw [info_of_buffer (recycle_keeps hb hgone), ← info_of_buffer hb, hd]
  · obtain ⟨hb, hgone⟩ := recycle_buffer hb
    rw [recycle_disk hb, hgone, if_neg fun h => Bool.false_ne_true h.1]
    exact C.clean k b hb hup hclean
  · exact C.dirty k b (recycle_buffer hb).1

/-! ### `buffer.c` -/

section Rules

variable {E : Stop → Kernel → Prop}

theorem wp_the_buffer {Q : Buffer → Kernel → Prop} (hb : s.buffer k = some b) (hQ : Q b s) :
    wp (the_buffer k) Q E s := by
  rw [the_buffer, wp_bind, wp_get]
  rw [hb]
  exact hQ

theorem wp_get_hash_table {Q : Bool → Kernel → Prop} (C : Coherent s) (hnone : s.buffer k = none → Q false s)
    (hsome : ∀ b t, s.buffer k = some b → Still s t → t.count = held s.count k →
      t.buffer k = some { b with b_count := b.b_count + 1 } → Q true t) :
    wp (get_hash_table k) Q E s := by
  rw [get_hash_table, wp_bind, wp_get]
  cases hb : s.buffer k with
  | none => exact hnone hb
  | some b =>
    dsimp only
    rw [wp_bind, wp_modify, wp_pure]
    refine hsome b _ hb (Still.recount C hb _) ?_ (set_buffer_self ..)
    rw [set_buffer_count, held, count_of_buffer hb]

/-- `getblk` of a block that has a buffer, or none: then the buffer is not up to date. -/
theorem wp_getblk {Q : Unit → Kernel → Prop} (C : Coherent s)
    (hQ : ∀ b t, Still s t → t.count = held s.count k → t.buffer k = some b → Q () t) :
    wp (getblk k) Q E s := by
  rw [getblk, wp_bind]
  refine wp_get_hash_table C (fun hnone => ?_) fun b t hb hstill hcount hbuffer => ?_
  · rw [if_neg Bool.false_ne_true, wp_modify]
    have hstill := recycle_still C
    have hzero : s.count k = 0 := by rw [Kernel.count, hnone]; rfl
    refine hQ _ _ ⟨rfl, rfl, rfl, ?_, fun j d hj hd => ?_, ?_⟩ ?_ (set_buffer_self ..)
    · have hview : s.recycle.view k = s.recycle.disk k := by rw [Kernel.view, (recycle_none hnone).1]
      rw [set_buffer_view, if_neg Bool.false_ne_true, ← hview, update_eq_self]
      exact hstill.view
    · have hne : j ≠ k := by
        rintro rfl
        omega
      rw [set_buffer_info _ _ hne]
      exact hstill.info j d hj hd
    · exact hstill.coherent.set_buffer (fun h => (by cases h)) fun h => (by cases h)
    · rw [set_buffer_count, recycle_count, held, hzero]
  · rw [if_pos rfl, wp_pure]
    exact hQ _ t hstill hcount hbuffer

theorem wp_brelse_buffer {Q : Unit → Kernel → Prop} (hb : s.buffer k = some b) (hpos : 0 < b.b_count)
    (hQ : Q () (s.set_buffer k { b with b_count := b.b_count - 1 })) : wp (brelse k) Q E s := by
  rw [brelse, wp_bind]
  refine wp_the_buffer hb ?_
  rw [if_neg (Nat.ne_of_gt hpos), wp_modify]
  exact hQ

theorem wp_brelse {Q : Unit → Kernel → Prop} (C : Coherent s) (hcount : s.count = held c k)
    (hQ : ∀ t, Still s t → t.count = c → Q () t) : wp (brelse k) Q E s := by
  have hpos : 0 < s.count k := by
    rw [hcount, held_self]
    omega
  obtain ⟨b, hb⟩ := exists_buffer hpos
  have hself : b.b_count = held c k k := by rw [← count_of_buffer hb, hcount]
  refine wp_brelse_buffer hb (by rwa [← count_of_buffer hb]) (hQ _ (Still.recount C hb _) ?_)
  rw [set_buffer_count, hcount]
  show update (held c k) k (b.b_count - 1) = c
  rw [hself, held_release]

theorem wp_bread {Q : Bool → Kernel → Prop} (C : Coherent s)
    (hfail : ∀ t, s.view k = none → Still s t → t.count = s.count → Q false t)
    (hok : ∀ d t, s.view k = some d → Still s t → t.count = held s.count k →
      t.info k = some (d, true) → Q true t) : wp (bread k) Q E s := by
  rw [bread, wp_bind]
  refine wp_getblk C fun b t hstill hcount hb => ?_
  rw [wp_bind]
  refine wp_the_buffer hb ?_
  rw [wp_ite]
  refine ⟨fun hup => ?_, fun hnot => ?_⟩
  · have hinfo : t.info k = some (b.b_data, true) := by rw [info_of_buffer hb, hup]
    refine hok b.b_data t ?_ hstill hcount hinfo
    rw [← hstill.view]
    exact view_of_uptodate hinfo
  · have hup : b.b_uptodate = false := by simpa using hnot
    have hview : t.view k = t.disk k := by
      rw [Kernel.view, hb]
      dsimp only
      rw [if_neg hnot]
    have hstep : ∀ k', s.count k' ≤ t.count k' := fun k' => hcount ▸ le_held ..
    rw [wp_bind, wp_get]
    cases hdisk : t.disk k with
    | some d =>
      dsimp only
      rw [wp_bind, wp_modify, wp_pure]
      have hread : Still t (t.set_buffer k { b with b_data := d, b_uptodate := true, b_dirt := false }) :=
        Still.replace hb (by rw [hview, hdisk, if_pos rfl]) (fun h => absurd h hnot)
          (hstill.coherent.set_buffer (fun _ _ => hdisk) fun h => (by cases h))
      refine hok d _ (by rw [← hstill.view, hview, hdisk]) (hstill.trans hstep hread) ?_
        (set_buffer_info_self ..)
      rw [set_buffer_count, ← count_of_buffer hb, update_eq_self, hcount]
    | none =>
      dsimp only
      rw [wp_bind, wp_modify, wp_bind]
      have hclean : Still t (t.set_buffer k { b with b_dirt := false }) :=
        Still.replace hb (by rw [if_neg hnot, hview]) (fun h => absurd h hnot)
          (hstill.coherent.set_buffer (fun h => absurd h hnot) fun h => (by cases h))
      have hcount₁ : (t.set_buffer k { b with b_dirt := false }).count = held s.count k := by
        rw [set_buffer_count, ← count_of_buffer hb, update_eq_self, hcount]
      refine wp_brelse hclean.coherent hcount₁ fun u hu hcount₂ => ?_
      rw [wp_pure]
      refine hfail u (by rw [← hstill.view, hview, hdisk]) ((hstill.trans hstep hclean).trans ?_ hu) hcount₂
      exact fun k' => hcount₁ ▸ le_held ..

end Rules

end OldLinux.Volume
