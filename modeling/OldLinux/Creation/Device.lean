import OldLinux.Creation.Blocks
import OldLinux.Volume.FreeBlock

/-!
# The buffers and the bitmap of a device

`Volume` keeps the bitmap in the buffers of the super block, and a block in its buffer or on the disk.  What
`bread`, `brelse`, `new_block` and `free_block` do there is what they do here.
-/

namespace OldLinux.Creation

open Function Lib
open Volume (Kernel Mounted Coherent Effect FirstClear Still VolumeM)

variable {fs fs' : Fs} {s t : Kernel} {dev n z : ℕ} {sb : Volume.SuperBlock} {b : Bool}

/-- The counts, the bitmap and the taken blocks that can be read are those of the device. -/
structure Fs.Of (fs : Fs) (s : Kernel) (dev : ℕ) (sb : Volume.SuperBlock) : Prop where
  mounted : Mounted s dev sb
  coherent : Coherent s
  apart : ∀ i bh, sb.zmap i = some bh → bh < sb.s_firstdatazone
  first : 1 ≤ sb.s_firstdatazone ∧ fs.sb.s_firstdatazone = sb.s_firstdatazone
  nzones : fs.sb.s_nzones = sb.s_nzones
  zmap : ∀ n, s.zbit dev sb n = if n < 8192 * fs.sb.s_zmap_blocks then some (fs.zmap n) else none
  outside : ∀ n, 8192 * fs.sb.s_zmap_blocks ≤ n → fs.zmap n = false
  b_count : ∀ z, s.count (dev, z) = fs.b_count z
  b_data : ∀ z, sb.InZone z → s.zbit dev sb (sb.bit_nr z) = some true → ∀ d, s.view (dev, z) = some d →
    fs.b_data z = d

/-- A mounted device with `k` blocks of bitmap has such a state. -/
theorem Fs.exists_of (M : Mounted s dev sb) (C : Coherent s) (hfirst : 1 ≤ sb.s_firstdatazone)
    (hapart : ∀ i bh, sb.zmap i = some bh → bh < sb.s_firstdatazone) {k : ℕ}
    (hmaps : ∀ i, i < k ↔ sb.zmap i ≠ none) : ∃ fs : Fs, fs.Of s dev sb := by
  have hzbit : ∀ n, s.zbit dev sb n =
      if n < 8192 * k then some ((s.zbit dev sb n).getD false) else none := by
    intro n
    have hdiv : n < 8192 * k ↔ sb.zmap (n / 8192) ≠ none := (by omega : _ ↔ n / 8192 < k).trans (hmaps _)
    cases hbh : sb.zmap (n / 8192) with
    | none =>
      rw [if_neg fun h => hdiv.1 h hbh, Kernel.zbit, hbh]
      rfl
    | some bh =>
      obtain ⟨d, hd⟩ := M.read _ bh hbh
      rw [if_pos (hdiv.2 (hbh ▸ Option.some_ne_none bh)), Volume.zbit_eq hbh hd]
      rfl
  refine ⟨⟨⟨0, sb.s_nzones, 0, k, sb.s_firstdatazone⟩, fun _ => false, fun n => (s.zbit dev sb n).getD false,
    fun _ => noInode, fun z => (s.view (dev, z)).getD fun _ => 0, fun z => s.count (dev, z), 0, fun _ => false⟩,
    M, C, hapart, ⟨hfirst, rfl⟩, rfl, hzbit, fun n hn => ?_, fun _ => rfl, fun z _ _ d hd => ?_⟩
  · show (s.zbit dev sb n).getD false = false
    rw [hzbit, if_neg (Nat.not_lt.2 hn)]
    rfl
  · show (s.view (dev, z)).getD _ = d
    rw [hd]
    rfl

/-- `c` returns what `a` returns and leaves what `a` leaves, and stops only where `a` stops. -/
def Does {α : Type} (dev : ℕ) (sb : Volume.SuperBlock) (s : Kernel) (fs : Fs) (c : VolumeM α) (a : FsM α) :
    Prop :=
  wp c (fun r t => wp a (fun r' fs' => r' = r ∧ fs'.Of t dev sb) (fun _ _ => False) fs)
    (fun _ _ => wp a (fun _ _ => False) (fun _ _ => True) fs) s

theorem Fs.Of.zmap_eq (h : fs.Of s dev sb) (hn : s.zbit dev sb n = some b) :
    n < 8192 * fs.sb.s_zmap_blocks ∧ fs.zmap n = b := by
  rw [h.zmap] at hn
  exact (Option.ite_none_right_eq_some.1 hn).imp_right Option.some.inj

theorem Fs.Of.first_clear (h : fs.Of s dev sb) (hn : FirstClear s dev sb n) :
    find_first_zero fs.zmap (8192 * fs.sb.s_zmap_blocks) 0 = some n := by
  obtain ⟨hlt, hclear⟩ := h.zmap_eq hn.clear
  rw [find_first_zero_eq, List.find?_range'_eq_some]
  refine ⟨by rw [hclear]; rfl, List.mem_range'_1.2 ⟨Nat.zero_le n, by omega⟩, fun m _ hm => ?_⟩
  have hset := hn.first m hm
  rw [h.zmap, if_pos (by omega)] at hset
  simpa using hset

/-- One bit has changed, and the blocks that are touched and still taken hold these data. -/
theorem Fs.Of.after (h : fs.Of s dev sb) {bits : ℕ → Option Bool} {touched : ℕ → Prop} {d : ℕ → ℕ → ℕ}
    (hn : n < 8192 * fs.sb.s_zmap_blocks) (e : Effect dev sb bits touched s t) (hcount : t.count = s.count)
    (hbits : ∀ m, bits m = if m = n then some b else s.zbit dev sb m)
    (hd : ∀ z, sb.InZone z → bits (sb.bit_nr z) = some true →
      t.view (dev, z) = some (d z) ∨ ¬touched z ∧ sb.bit_nr z ≠ n ∧ d z = fs.b_data z) :
    ({ fs with zmap := update fs.zmap n b, b_data := d } : Fs).Of t dev sb where
  mounted := h.mounted.after e fun k => Nat.le_of_eq (congrFun hcount k).symm
  coherent := e.coherent
  apart := h.apart
  first := h.first
  nzones := h.nzones
  zmap := fun m => by
    rw [e.bits, hbits, h.zmap]
    show _ = if m < 8192 * fs.sb.s_zmap_blocks then some (update fs.zmap n b m) else none
    by_cases hm : m = n
    · rw [hm, if_pos rfl, if_pos hn, update_self]
    · rw [if_neg hm, update_of_ne hm]
  outside := fun m hm => by
    have hm' : 8192 * fs.sb.s_zmap_blocks ≤ m := hm
    exact (update_of_ne (by omega) ..).trans (h.outside m hm)
  b_count := fun z => (congrFun hcount _).trans (h.b_count z)
  b_data := fun z hz hset x hx => by
    rw [e.bits] at hset
    rcases hd z hz hset with hview | ⟨hnot, hne, hdz⟩
    · exact Option.some.inj (hview.symm.trans hx)
    · rw [hbits, if_neg hne] at hset
      have hmap : ¬sb.IsZmap dev (dev, z) := by
        rintro ⟨-, i, hi⟩
        exact Nat.lt_irrefl _ (Nat.lt_of_lt_of_le (h.apart i z hi) hz.1)
      rw [e.view _ (fun hk => hnot hk.2) hmap] at hx
      exact hdz.trans (h.b_data z hz hset x hx)

/-- References have come or gone, but none to the bitmap. -/
theorem Fs.Of.still (h : fs.Of s dev sb) (hstill : Still s t) {c : ℕ → ℕ} {u : ℕ → Bool}
    (hcount : ∀ y, t.count (dev, y) = c y) (hle : ∀ y < sb.s_firstdatazone, fs.b_count y ≤ c y) :
    ({ fs with b_count := c, unreadable := u } : Fs).Of t dev sb := by
  have e := Effect.of_still h.mounted hstill
  refine { h with
    mounted := ⟨(e.get_super dev).trans h.mounted.super, h.mounted.inj, fun i bh hbh => ?_, e.read⟩
    coherent := hstill.coherent
    zmap := fun n => by rw [e.bits]; exact h.zmap n
    b_count := hcount
    b_data := fun y hy hset d hd => ?_ }
  · rw [hcount]
    have hheld := h.mounted.held i bh hbh
    rw [h.b_count] at hheld
    exact Nat.lt_of_lt_of_le hheld (hle bh (h.apart i bh hbh))
  · rw [e.bits] at hset
    rw [hstill.view] at hd
    exact h.b_data y hy hset d hd

theorem Fs.Of.recount (h : fs.Of s dev sb) (c y : ℕ) :
    update s.count (dev, z) c (dev, y) = update fs.b_count z c y := by
  by_cases hy : y = z
  · rw [hy, update_self, update_self]
  · rw [update_of_ne hy, update_of_ne fun hk => hy (Prod.mk.inj hk).2, h.b_count]

/-- One reference more. -/
theorem Fs.Of.hold (h : fs.Of s dev sb) (hstill : Still s t) {u : ℕ → Bool}
    (hcount : t.count = Volume.held s.count (dev, z)) :
    ({ fs with b_count := update fs.b_count z (fs.b_count z + 1), unreadable := u } : Fs).Of t dev sb := by
  refine h.still hstill (fun y => ?_) fun y _ => ?_
  · rw [hcount, Volume.held, h.b_count]
    exact h.recount ..
  · by_cases hy : y = z
    · rw [hy, update_self]
      exact Nat.le_succ _
    · rw [update_of_ne hy]

/-- **`bread`.** -/
theorem Fs.Of.bread (h : fs.Of s dev sb) (hread : fs.unreadable 0 = (s.view (dev, z)).isNone) :
    Does dev sb s fs (Volume.bread (dev, z)) (bread z) := by
  rw [Does]
  refine Volume.wp_bread h.coherent (fun t hnone hstill hcount => ?_) fun d t hd hstill hcount _ => ?_
  all_goals rw [Creation.bread, wp_bind, wp_get, wp_bind, wp_modify, hread]
  · rw [hnone, Option.isNone_none, if_pos rfl, wp_pure]
    exact ⟨rfl, h.still hstill (fun y => by rw [hcount]; exact h.b_count y) fun _ _ => Nat.le_refl _⟩
  · rw [hd, Option.isNone_some, if_neg Bool.false_ne_true, wp_bind, wp_modify, wp_pure]
    exact ⟨rfl, h.hold hstill hcount⟩

/-- **`brelse`.** -/
theorem Fs.Of.brelse (h : fs.Of s dev sb) (hz : sb.InZone z) :
    Does dev sb s fs (Volume.brelse (dev, z)) (brelse z) := by
  have hcount := h.b_count z
  rw [Does, Volume.brelse, wp_bind, Volume.the_buffer, wp_bind, wp_get]
  cases hb : s.buffer (dev, z) with
  | none =>
    rw [Kernel.count, hb] at hcount
    rw [wp_throw, Creation.brelse, wp_bind, wp_get, wp_ite]
    exact ⟨fun _ => trivial, fun hne => hne hcount.symm⟩
  | some b =>
    rw [Volume.count_of_buffer hb] at hcount
    rw [wp_pure, wp_ite, wp_throw, wp_modify, hcount]
    simp only [Creation.brelse, wp_bind, wp_get, wp_ite, wp_throw, wp_modify]
    refine ⟨fun hzero => ⟨fun _ => trivial, fun hne => hne hzero⟩, fun hne => ⟨fun hzero => hne hzero, fun _ =>
      ⟨trivial, h.still (Still.recount h.coherent hb _) (fun y => ?_) fun y hy => ?_⟩⟩⟩
    · rw [Volume.set_buffer_count]
      exact h.recount ..
    · rw [update_of_ne (Nat.ne_of_lt (Nat.lt_of_lt_of_le hy hz.1))]

/-- **`new_block`.** -/
theorem Fs.Of.new_block (h : fs.Of s dev sb) : Does dev sb s fs (Volume.new_block dev) new_block := by
  have hfirst := h.first
  rw [Does]
  refine Volume.wp_new_block h.mounted h.coherent (fun hall => ?_) (fun n t hn hpast e _ hcount => ?_)
    (fun n t hn hlt hbusy => ?_) fun n t hn hlt hidle e _ hcount hinfo => ?_
  · have hnone : find_first_zero fs.zmap (8192 * fs.sb.s_zmap_blocks) 0 = none := by
      rw [find_first_zero_eq, List.find?_range'_eq_none]
      intro m _ hm
      have hm' := hall m
      rw [h.zmap, if_pos (by omega)] at hm'
      simpa using hm'
    rw [Creation.new_block, wp_bind, wp_get, hnone]
    exact ⟨rfl, h⟩
  all_goals
    rw [Creation.new_block, wp_bind, wp_get, h.first_clear hn]
    dsimp only
    rw [wp_bind, wp_modify, wp_ite, h.nzones, hfirst.2]
  · refine ⟨fun _ => ⟨rfl, ?_⟩, fun hlt => absurd hpast hlt⟩
    refine h.after (h.zmap_eq hn.clear).1 e hcount (fun _ => rfl) fun z hz hset => .inr ⟨id, ?_, rfl⟩
    have h1 := hz.1
    have h2 := hz.2
    rw [Volume.SuperBlock.bit_nr]
    omega
  · refine ⟨fun hpast => absurd hlt (Nat.not_lt.2 hpast), fun _ => ?_⟩
    rw [wp_ite]
    refine ⟨fun _ => trivial, fun hzero => hbusy ?_⟩
    rw [h.b_count]
    omega
  · refine ⟨fun hpast => absurd hlt (Nat.not_lt.2 hpast), fun _ => ?_⟩
    rw [wp_ite]
    refine ⟨fun hone => ?_, fun _ => ?_⟩
    · rw [h.b_count] at hidle
      omega
    · rw [wp_bind, wp_modify]
      refine ⟨rfl, h.after (h.zmap_eq hn.clear).1 e hcount (fun _ => rfl) fun z hz hset => ?_⟩
      by_cases heq : z = n + sb.s_firstdatazone - 1
      · left
        rw [heq, Volume.view_of_uptodate hinfo, update_self]
      · have h1 := hz.1
        refine .inr ⟨heq, ?_, update_of_ne heq ..⟩
        rw [Volume.SuperBlock.bit_nr]
        omega

/-- **`free_block`.** -/
theorem Fs.Of.free_block (h : fs.Of s dev sb) : Does dev sb s fs (Volume.free_block dev z) (free_block z) := by
  have hfirst := h.first
  have hzone : z < fs.sb.s_firstdatazone ∨ fs.sb.s_nzones ≤ z ↔ ¬sb.InZone z := by
    rw [hfirst.2, h.nzones, Volume.SuperBlock.InZone]
    omega
  have hnr : sb.InZone z → z - (fs.sb.s_firstdatazone - 1) = sb.bit_nr z := fun hz => by
    have h1 := hz.1
    rw [hfirst.2, Volume.SuperBlock.bit_nr]
    omega
  rw [Does]
  refine Volume.wp_free_block h.mounted h.coherent (fun t hz hbusy hstill hcount => ?_)
    (fun t hz hset hidle e _ hcount _ => ?_) fun hstop _ _ => ?_
  all_goals rw [Creation.free_block, wp_bind, wp_get, wp_ite, hzone, wp_ite, ← h.b_count]
  · exact ⟨fun hno => absurd hz hno, fun _ => ⟨fun _ => ⟨rfl, h.hold hstill hcount⟩, fun hzero => by omega⟩⟩
  · obtain ⟨hlt, hbit⟩ := h.zmap_eq hset
    refine ⟨fun hno => absurd hz hno, fun _ => ⟨fun hne => absurd hidle hne, fun _ => ?_⟩⟩
    rw [hnr hz, hbit, wp_ite]
    refine ⟨fun hclear => (by cases hclear), fun _ => ⟨rfl, ?_⟩⟩
    show Fs.Of { fs with zmap := update fs.zmap (z - (fs.sb.s_firstdatazone - 1)) false } t dev sb
    rw [hnr hz]
    refine h.after (d := fs.b_data) hlt e hcount (fun m => ?_) fun y hy hset => ?_
    · simp only [Kernel.cleared, List.mem_singleton, exists_eq_left]
      exact if_congr eq_comm rfl rfl
    · have hne : sb.bit_nr y ≠ sb.bit_nr z := by
        intro heq
        rw [Kernel.cleared, heq, if_pos ⟨z, List.mem_singleton.2 rfl, rfl⟩] at hset
        cases hset
      exact .inr ⟨fun heq => hne (heq ▸ rfl), hne, rfl⟩
  · refine ⟨fun _ => trivial, fun hz => ⟨fun hne => ?_, fun _ => ?_⟩⟩
    · exact absurd (hstop.resolve_left hz).1 hne
    · have hz' := not_not.1 hz
      have hclear := (hstop.resolve_left hz).2
      rw [hnr hz', wp_ite]
      refine ⟨fun _ => trivial, fun hset => hclear ?_⟩
      rw [h.zmap, if_pos, (by simpa using hset : fs.zmap (sb.bit_nr z) = true)]
      by_contra hout
      exact hset (h.outside _ (Nat.not_lt.1 hout))

end OldLinux.Creation
