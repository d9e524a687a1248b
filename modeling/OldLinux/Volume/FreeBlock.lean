import OldLinux.Volume.Allocation

/-!
# `free_block`

A zone whose buffer nobody uses loses its bit, and its buffer is no longer up to date.  If somebody uses the
buffer, the zone stays, and so does the reference that `get_hash_table` has taken.
-/

namespace OldLinux.Volume

open Function Lib

variable {s t u : Kernel} {k : Key} {b : Buffer} {d : Words} {dev i j n m bh z : ℕ} {sb : SuperBlock}
variable {E : Stop → Kernel → Prop} {zs ys : List ℕ}

/-- The bits after those of these zones have been cleared. -/
def Kernel.cleared (s : Kernel) (dev : ℕ) (sb : SuperBlock) (zs : List ℕ) (m : ℕ) : Option Bool :=
  if ∃ z ∈ zs, sb.bit_nr z = m then some false else s.zbit dev sb m

theorem wp_clear_zone {Q : Unit → Kernel → Prop} (M : Mounted s dev sb) (C : Coherent s)
    (hset : ∀ t, s.zbit dev sb (sb.bit_nr z) = some true → Effect dev sb (s.cleared dev sb [z])
      (fun _ => False) s t → t.inode_table = s.inode_table → t.count = s.count →
      (∀ k, ¬sb.IsZmap dev k → t.buffer k = s.buffer k) → Q () t)
    (hstop : s.zbit dev sb (sb.bit_nr z) ≠ some true → ∀ e t, E e t) :
    wp (clear_zone dev sb z) Q E s := by
  rw [clear_zone]
  cases hbh : sb.zmap (sb.bit_nr z / 8192) with
  | none =>
    refine hstop ?_ _ _
    rw [Kernel.zbit, hbh]
    exact fun h => (by cases h)
  | some bh =>
    obtain ⟨d, hd⟩ := M.read _ bh hbh
    obtain ⟨b, hb, hdata, -⟩ := buffer_of_info hd
    have hbit : s.zbit dev sb (sb.bit_nr z) = some (bit b.b_data (sb.bit_nr z % 8192)) := by
      rw [zbit_eq hbh hd, ← hdata]
    dsimp only
    rw [wp_bind]
    refine wp_the_buffer hb ?_
    rw [wp_bind, wp_modify]
    show wp (if bit b.b_data (sb.bit_nr z % 8192) = false then _ else _) Q E _
    rw [wp_ite]
    refine ⟨fun hclear => hstop (by rw [hbit, hclear]; exact fun h => (by cases h)) _ _, fun hset' => ?_⟩
    rw [wp_bind]
    refine wp_the_buffer (set_buffer_self ..) ?_
    rw [wp_modify]
    have htwice : ((s.set_buffer (dev, bh)
        { b with b_data := clear_bit (sb.bit_nr z % 8192) b.b_data }).set_buffer (dev, bh)
        { b with b_data := clear_bit (sb.bit_nr z % 8192) b.b_data, b_dirt := true }) =
        s.set_buffer (dev, bh)
          { b with b_data := clear_bit (sb.bit_nr z % 8192) b.b_data, b_dirt := true } := by
      simp only [Kernel.set_buffer, update_idem]
    show Q () ((s.set_buffer (dev, bh) _).set_buffer (dev, bh) _)
    rw [htwice]
    have e := Effect.write M C hbh hb (clear_bit (sb.bit_nr z % 8192) b.b_data)
    refine hset _ (by rw [hbit]; simpa using hset') { e with bits := e.bits.trans ?_ } rfl ?_
      fun k hk => set_buffer_of_ne _ _ ?_
    · funext m
      rw [Kernel.cleared]
      simp only [List.mem_singleton, exists_eq_left]
      by_cases hm : m / 8192 = sb.bit_nr z / 8192
      · rw [if_pos hm, bit_clear_bit]
        by_cases heq : sb.bit_nr z = m
        · rw [if_pos heq, decide_eq_true (by rw [heq]), Bool.not_true, Bool.false_and]
        · rw [if_neg heq, decide_eq_false (by omega), Bool.not_false, Bool.true_and,
            zbit_eq (by rw [hm, hbh]) hd, ← hdata]
      · rw [if_neg hm, if_neg (by rintro rfl; exact hm rfl)]
    · rw [set_buffer_count, ← count_of_buffer hb, update_eq_self]
    · rintro rfl
      exact hk ⟨rfl, _, hbh⟩

theorem Mounted.not_zmap (M : Mounted s dev sb) (h : s.count (dev, z) = 0) : ¬sb.IsZmap dev (dev, z) := by
  rintro ⟨-, i, hi⟩
  have hpos := M.held i z hi
  omega

/-- The buffer of a block, if there is one, is not up to date. -/
def Kernel.invalid (s : Kernel) (k : Key) : Prop :=
  ∀ b, s.buffer k = some b → b.b_uptodate = false ∧ b.b_dirt = false

theorem wp_free_block {Q : Unit → Kernel → Prop} (M : Mounted s dev sb) (C : Coherent s)
    (hbusy : ∀ t, sb.InZone z → 0 < s.count (dev, z) → Still s t → t.count = held s.count (dev, z) → Q () t)
    (hfree : ∀ t, sb.InZone z → s.zbit dev sb (sb.bit_nr z) = some true → s.count (dev, z) = 0 →
      Effect dev sb (s.cleared dev sb [z]) (fun y => y = z) s t → t.inode_table = s.inode_table →
      t.count = s.count → t.invalid (dev, z) → Q () t)
    (hstop : ¬sb.InZone z ∨ s.count (dev, z) = 0 ∧ s.zbit dev sb (sb.bit_nr z) ≠ some true →
      ∀ e t, E e t) : wp (free_block dev z) Q E s := by
  rw [free_block, wp_bind, wp_get, M.super]
  dsimp only
  rw [wp_ite]
  refine ⟨fun hout => hstop (.inl fun h => ?_) _ _, fun hin => ?_⟩
  · have h1 := h.1
    have h2 := h.2
    omega
  have hzone : sb.InZone z := by
    rw [not_or] at hin
    exact ⟨Nat.not_lt.1 hin.1, Nat.not_le.1 hin.2⟩
  rw [wp_bind]
  refine wp_get_hash_table C (fun hnone => ?_) fun b t hb hstill hcount hbuffer => ?_
  · -- there is no buffer
    have hzero : s.count (dev, z) = 0 := by rw [Kernel.count, hnone]; rfl
    rw [if_neg Bool.false_ne_true]
    refine wp_clear_zone M C (fun t hset e hinode hcount hsame => ?_) fun hclear =>
      hstop (.inr ⟨hzero, hclear⟩)
    refine hfree t hzone hset hzero (e.mono fun y hy => hy.elim) hinode hcount fun b hb => ?_
    rw [hsame _ (M.not_zmap hzero), hnone] at hb
    cases hb
  · rw [if_pos rfl, wp_bind]
    refine wp_the_buffer hbuffer ?_
    have hself := count_of_buffer hb
    dsimp only
    rw [wp_ite]
    refine ⟨fun hne => ?_, fun heq => ?_⟩
    · rw [wp_pure]
      exact hbusy t hzone (by omega) hstill hcount
    · have hzero : s.count (dev, z) = 0 := by omega
      have hle : ∀ k, s.count k ≤ t.count k := fun k => hcount ▸ le_held ..
      have hstillE := Effect.of_still M hstill
      have Mt := M.after hstillE hle
      have hnot := M.not_zmap hzero
      rw [wp_bind, wp_modify, wp_bind]
      generalize ht₁ : t.set_buffer (dev, z)
        { b with b_count := b.b_count + 1, b_dirt := false, b_uptodate := false } = t₁
      have htouch : Effect dev sb (t.zbit dev sb) (fun y => y = z) t t₁ := by
        rw [← ht₁]
        refine Effect.touch Mt (.inr hnot) (hstill.coherent.set_buffer (fun h => (by cases h)) ?_)
        exact fun h => (by cases h)
      have hcount₁ : t₁.count = held s.count (dev, z) := by
        rw [← ht₁, set_buffer_count, ← hcount]
        have hat := count_of_buffer hbuffer
        rw [show b.b_count + 1 = t.count (dev, z) from hat.symm, update_eq_self]
      have hle₁ : ∀ k, t.count k ≤ t₁.count k := fun k => by rw [hcount₁, hcount]
      have hbuffer₁ : t₁.buffer (dev, z) = some ⟨b.b_data, b.b_count + 1, false, false⟩ := by
        rw [← ht₁, set_buffer_self]
      refine wp_brelse_buffer hbuffer₁ (Nat.succ_pos _) ?_
      generalize ht₂ : t₁.set_buffer (dev, z) _ = t₂
      have hstill₂ : Still t₁ t₂ := ht₂ ▸ Still.recount htouch.coherent hbuffer₁ _
      have hcount₂ : t₂.count = s.count := by
        rw [← ht₂, set_buffer_count, hcount₁]
        show update (held s.count (dev, z)) (dev, z) b.b_count = _
        rw [held, update_idem, ← hself, update_eq_self]
      have hinv₂ : t₂.invalid (dev, z) := by
        intro b' hb'
        rw [← ht₂, set_buffer_self] at hb'
        cases hb'
        exact ⟨rfl, rfl⟩
      have M₁ := Mt.after htouch hle₁
      have hE₂ := (hstillE.trans hle htouch).trans (fun k => (hle k).trans (hle₁ k))
        (Effect.of_still M₁ hstill₂)
      have M₂ := M.after hE₂ fun k => Nat.le_of_eq (congrFun hcount₂ k).symm
      have hbits : t₂.zbit dev sb = s.zbit dev sb := by
        rw [hE₂.bits, htouch.bits, hstillE.bits]
      refine wp_clear_zone M₂ hE₂.coherent (fun u hset e hinode hcount₃ hsame => ?_) fun hclear =>
        hstop (.inr ⟨hzero, by rwa [hbits] at hclear⟩)
      rw [hbits] at hset
      refine hfree u hzone hset hzero ?_ ?_ (hcount₃.trans hcount₂) fun b' hb' => ?_
      · have hall := hE₂.trans (fun k => Nat.le_of_eq (congrFun hcount₂ k).symm) e
        have hcleared : t₂.cleared dev sb [z] = s.cleared dev sb [z] := by
          funext m
          rw [Kernel.cleared, Kernel.cleared, hbits]
        rw [hcleared] at hall
        refine hall.mono fun y hy => ?_
        rcases hy with ((hy | hy) | hy) | hy
        · exact hy.elim
        · exact hy
        · exact hy.elim
        · exact hy.elim
      · rw [hinode, hstill₂.inode_table, ← ht₁]
        exact hstill.inode_table
      · rw [hsame _ hnot] at hb'
        exact hinv₂ b' hb'

end OldLinux.Volume
