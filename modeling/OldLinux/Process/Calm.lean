import OldLinux.Process.Machine

/-!
# What a step of one process leaves of the pages of the others

`Calm X D s s'` says that outside the places in `X` every page is still there, in a frame with the
same contents, and outside `D` still dirty if it was; and that a page table without a place in `X`
is there if it was.  It is transitive, and every function of the memory manager is calm outside the
pages it is called for.
-/

namespace OldLinux.Process

open Lib Memory

variable {M : MainMemory} {s s' s'' : Mm} {held : Multiset ℕ} {X D : ℕ × ℕ → Prop}

structure Calm (X D : ℕ × ℕ → Prop) (s s' : Mm) : Prop where
  present : ∀ q ∈ places, ¬X q → (present (s'.pte q) ↔ present (s.pte q))
  page : ∀ q ∈ places, ¬X q → Memory.present (s.pte q) → 256 ≤ frameOf (s.pte q) →
    256 ≤ frameOf (s'.pte q) ∧ s'.mem (frameOf (s'.pte q)) = s.mem (frameOf (s.pte q))
  dirty : ∀ q ∈ places, ¬X q → ¬D q → Memory.present (s.pte q) → dirty (s.pte q) → dirty (s'.pte q)
  dir : ∀ d, (∀ j, ¬X (d, j)) → (Memory.present (s'.mem 0 d) ↔ Memory.present (s.mem 0 d))

/-- No place. -/
def nowhere : ℕ × ℕ → Prop := fun _ => False

/-- The places of the slot `P`. -/
def inSlot (P : ℕ) : ℕ × ℕ → Prop := fun q => q.1 / 16 = P

theorem Calm.refl (X D : ℕ × ℕ → Prop) (s : Mm) : Calm X D s s where
  present := fun _ _ _ => Iff.rfl
  page := fun _ _ _ _ h => ⟨h, rfl⟩
  dirty := fun _ _ _ _ _ h => h
  dir := fun _ _ => Iff.rfl

theorem Calm.trans (h : Calm X D s s') (h' : Calm X D s' s'') : Calm X D s s'' where
  present := by
    intro q hq hX
    rw [h'.present q hq hX, h.present q hq hX]
  page := by
    intro q hq hX hp hf
    obtain ⟨hf', hmem⟩ := h.page q hq hX hp hf
    obtain ⟨hf'', hmem'⟩ := h'.page q hq hX ((h.present q hq hX).2 hp) hf'
    exact ⟨hf'', hmem'.trans hmem⟩
  dirty := by
    intro q hq hX hD hp hd
    exact h'.dirty q hq hX hD ((h.present q hq hX).2 hp) (h.dirty q hq hX hD hp hd)
  dir := by
    intro d hX
    rw [h'.dir d hX, h.dir d hX]

theorem Calm.mono {X' D' : ℕ × ℕ → Prop} (h : Calm X D s s') (hX : ∀ q, X q → X' q)
    (hD : ∀ q, D q → D' q) : Calm X' D' s s' where
  present := fun q hq h' => h.present q hq (fun hx => h' (hX q hx))
  page := fun q hq h' => h.page q hq (fun hx => h' (hX q hx))
  dirty := fun q hq h' hd => h.dirty q hq (fun hx => h' (hX q hx)) (fun hx => hd (hD q hx))
  dir := fun d h' => h.dir d (fun j hx => h' j (hX _ hx))

/-- Entries that only lose their write bit, and frames that keep their contents. -/
theorem calm_of_entries (hpte : ∀ q ∈ places, ¬X q → s'.pte q = s.pte q ∨ s'.pte q = readOnly (s.pte q))
    (hmem : ∀ q ∈ places, ¬X q → present (s.pte q) → 256 ≤ frameOf (s.pte q) →
      s'.mem (frameOf (s.pte q)) = s.mem (frameOf (s.pte q)))
    (hdir : ∀ d, (∀ j, ¬X (d, j)) → s'.mem 0 d = s.mem 0 d) : Calm X D s s' where
  present := by
    intro q hq hX
    rcases hpte q hq hX with h | h
    · rw [h]
    · rw [h]
      exact present_readOnly _
  page := by
    intro q hq hX hp hf
    have hm := hmem q hq hX hp hf
    rcases hpte q hq hX with h | h
    · rw [h]
      exact ⟨hf, hm⟩
    · rw [h, frameOf_readOnly]
      exact ⟨hf, hm⟩
  dirty := by
    intro q hq hX _ _ hd
    rcases hpte q hq hX with h | h
    · rw [h]
      exact hd
    · rw [h]
      exact (dirty_readOnly _).2 hd
  dir := by
    intro d hX
    rw [hdir d hX]

theorem preserved_of_maps (B : Books True M s held) (h : Preserved s held s') {q : ℕ × ℕ}
    (hq : q ∈ places) (hp : present (s.pte q)) (hf : 256 ≤ frameOf (s.pte q)) :
    s'.mem (frameOf (s.pte q)) = s.mem (frameOf (s.pte q)) :=
  h _ (B.data_of_maps trivial hq (maps_iff_pte.2 ⟨hp, rfl⟩) hf)

/-! ### The functions of the memory manager -/

/-- The entries stay, and so do the frames in use. -/
theorem calm_of_same (B : Books True M s held) (hpte : ∀ q ∈ places, s'.pte q = s.pte q)
    (h : Preserved s held s') (hdir : s'.mem 0 = s.mem 0) : Calm X D s s' :=
  calm_of_entries (fun q hq _ => Or.inl (hpte q hq)) (fun _ hq _ => preserved_of_maps B h hq)
    (fun _ _ => by rw [hdir])

theorem calm_of_mem (h : s'.mem = s.mem) : Calm X D s s' :=
  calm_of_entries (fun q _ _ => Or.inl (pte_of_mem h q)) (fun _ _ _ _ _ => by rw [h])
    (fun _ _ => by rw [h])

theorem Changed.calm {p : ℕ × ℕ} {e : Word} {held' : Multiset ℕ} (B : Books True M s held)
    (C : Changed True M s held p e held' s') : Calm (fun q => q = p) D s s' := by
  refine calm_of_entries ?_ (fun _ hq _ => preserved_of_maps B C.kept hq) ?_
  · intro q hq hne
    rw [C.pte q hq, if_neg hne]
    exact Or.inl rfl
  · intro d hne
    exact C.dir d (fun h => hne p.2 (by rw [h]))

theorem Shared.calm {p q : ℕ × ℕ} (B : Books True M s held) (C : Shared True M s held p q s') :
    Calm (fun r => r = q) D s s' := by
  refine calm_of_entries ?_ (fun _ hr _ => preserved_of_maps B C.kept hr) ?_
  · intro r hr hne
    rw [C.pte r hr]
    by_cases hrp : r = p
    · rw [if_pos (Or.inl hrp), hrp]
      exact Or.inr rfl
    · rw [if_neg (fun h => h.elim hrp hne)]
      exact Or.inl rfl
  · intro d hne
    exact C.dir d (fun h => hne q.2 (by rw [h]))

theorem Freed.calm {R : ℕ → Prop} [DecidablePred R] {P : ℕ} (B : Books True M s held)
    (F : Freed R s s') (hR : ∀ d, R d → d / 16 = P) : Calm (inSlot P) D s s' := by
  refine calm_of_entries ?_ ?_ ?_
  · intro q hq hX
    rw [F.pte q hq, if_neg (fun h => hX (hR _ h))]
    exact Or.inl rfl
  · intro q hq _ hp hf
    exact (F.kept _ hf (B.tableRefs_of_maps trivial hq (maps_iff_pte.2 ⟨hp, rfl⟩)).1).1
  · intro d hX
    exact F.dir d (fun h => hX 0 (hR d h))

/-- The copy of a slot leaves everything but the new slot. -/
theorem Copied.calm {a b : ℕ} {R : ℕ → Prop} (C : Copied True a b R s s') : Calm (inSlot b) D s s' := by
  refine calm_of_entries ?_ ?_ ?_
  · intro q hq hX
    by_cases hR : (q.1 / 16 = a ∨ q.1 / 16 = b) ∧ R (q.1 % 16)
    · obtain ⟨ha | hb, hr⟩ := hR
      · exact C.source q hq ha hr
      · exact absurd hb hX
    · exact Or.inl (C.others q hq hR)
  · intro q hq _ hp hf
    exact C.kept trivial q hq _ (maps_iff_pte.2 ⟨hp, rfl⟩) hf
  · intro d hX
    exact C.dir d (fun h => hX 0 h.1)

/-- Lifting write protection keeps the page, but may lose its dirty bit. -/
theorem Unshared.calm {p : ℕ × ℕ} (B : Books True M s held) (U : Unshared True M s held p s')
    (hpres : present (s.pte p))
    (hD : dirty (s.pte p) → ¬(256 ≤ frameOf (s.pte p) ∧ s.count (frameOf (s.pte p)) = 1) → D p) :
    Calm nowhere D s s' := by
  have C := Changed.calm (D := D) B U.changed
  have hp' : present (s'.pte p) := by
    rcases U.entry with ⟨_, _, he⟩ | ⟨_, f, _, he⟩
    · rw [he]
      exact (present_withWrite _).2 hpres
    · rw [he]
      exact present_userEntry _
  have hhigh : 256 ≤ frameOf (s'.pte p) := by
    rcases U.entry with ⟨hf, _, he⟩ | ⟨_, f, hf, he⟩
    · rw [he, frameOf_withWrite]
      exact hf
    · have hlt := hf.lt
      rw [he, frameOf_userEntry_frame (by omega)]
      exact hf.lowMem_le
  refine ⟨?_, ?_, ?_, ?_⟩
  · intro q hq _
    by_cases hqp : q = p
    · rw [hqp]
      exact ⟨fun _ => hpres, fun _ => hp'⟩
    · exact C.present q hq hqp
  · intro q hq _ hpq hf
    by_cases hqp : q = p
    · rw [hqp]
      exact ⟨hhigh, U.contents trivial⟩
    · exact C.page q hq hqp hpq hf
  · intro q hq _ hDq hpq hd
    by_cases hqp : q = p
    · rw [hqp] at hd hDq ⊢
      rcases U.entry with ⟨_, _, he⟩ | ⟨hnot, _⟩
      · rw [he]
        exact (dirty_withWrite _).2 hd
      · exact absurd (hD hd hnot) hDq
    · exact C.dirty q hq hqp hDq hpq hd
  · intro d _
    by_cases hdp : d = p.1
    · rw [hdp]
      exact ⟨fun _ => dir_of_pte hpres, fun _ => dir_of_pte hp'⟩
    · exact C.dir d (fun j h => hdp (by rw [← h]))

/-! ### Stores -/

theorem byteAt_word (w : Word) (b : Byte) (r j : ℕ) (hr : r < 4) (hj : j < 4) :
    ((w &&& ~~~(0xff#32 <<< (8 * r))) ||| (b.setWidth 32 <<< (8 * r))).extractLsb' (8 * j) 8 =
      if j = r then b else w.extractLsb' (8 * j) 8 := by
  apply BitVec.eq_of_getLsbD_eq
  intro i hi
  have hbit : 8 * j + i < 32 := by omega
  have hlow : ∀ n < 32, (0xff#32).getLsbD n = decide (n < 8) := by decide
  by_cases hjr : j = r
  · subst hjr
    have hmask : (0xff#32)[i] = true := by
      rw [← BitVec.getLsbD_eq_getElem, hlow _ (by omega)]
      exact decide_eq_true hi
    simp [hi, hbit, hmask]
  · simp only [hjr, if_false]
    by_cases hlt : j < r
    · simp [hi, hbit, show 8 * j + i < 8 * r by omega]
    · have hmask : (0xff#32)[8 * j + i - 8 * r] = false := by
        rw [← BitVec.getLsbD_eq_getElem, hlow _ (by omega)]
        exact decide_eq_false (by omega)
      simp [hi, hbit, show ¬8 * j + i < 8 * r by omega, hmask,
        BitVec.getLsbD_of_ge b (8 * j + i - 8 * r) (by omega)]

/-- A store of a byte changes that byte. -/
theorem byteAt_setByte (page : Page) (k : ℕ) (b : Byte) (j : ℕ) :
    byteAt (setByte page k b) j = if j = k then b else byteAt page j := by
  rw [byteAt, setByte, Function.update_apply]
  by_cases hw : j / 4 = k / 4
  · rw [if_pos hw, byteAt_word _ _ _ _ (by omega) (by omega), byteAt, hw]
    by_cases hjk : j = k
    · rw [if_pos hjk, if_pos (by rw [hjk])]
    · rw [if_neg hjk, if_neg (by omega)]
  · rw [if_neg hw, if_neg (fun h => hw (by rw [h])), byteAt]

/-- Two pages with the same bytes are the same page. -/
theorem page_ext {page page' : Page} (h : ∀ k, byteAt page k = byteAt page' k) : page = page' := by
  funext w
  apply BitVec.eq_of_getLsbD_eq
  intro i hi
  have hk := congrArg (fun b : Byte => b.getLsbD (i % 8)) (h (4 * w + i / 8))
  simp only [byteAt, show (4 * w + i / 8) / 4 = w from by omega,
    show (4 * w + i / 8) % 4 = i / 8 from by omega, BitVec.getLsbD_extractLsb',
    show 8 * (i / 8) + i % 8 = i from by omega, Nat.mod_lt i (show 8 > 0 by omega), decide_true,
    Bool.true_and] at hk
  exact hk

/-- A store of the byte that is there changes nothing. -/
theorem setByte_self {page : Page} {k : ℕ} {b : Byte} (h : byteAt page k = b) : setByte page k b = page := by
  apply page_ext
  intro j
  rw [byteAt_setByte]
  split
  · rename_i hjk
    rw [hjk, h]
  · rfl

/-- A page with a single reference, a page table entry. -/
def Private (s : Mm) (q : ℕ × ℕ) : Prop :=
  256 ≤ frameOf (s.pte q) ∧ s.count (frameOf (s.pte q)) = 1

theorem private_of_writable (B : Books True M s held) {q : ℕ × ℕ} (hq : q ∈ places)
    (hp : present (s.pte q)) (hw : writable (s.pte q)) : Private s q := by
  have hd := dir_of_pte hp
  have hm : s.Maps (frameOf (s.pte q)) q := maps_iff_pte.2 ⟨hp, rfl⟩
  rw [pte_of_present hd] at hw
  obtain ⟨hf, hc⟩ := B.shielded trivial q hq _ hm hw
  have hpos := B.ledger.count_pos_of_maps hq hm hf
  exact ⟨hf, by omega⟩

/-- What a store through the entry `p` leaves. -/
structure Poked (M : MainMemory) (held : Multiset ℕ) (p : ℕ × ℕ) (k : ℕ) (b : Byte) (s s' : Mm) :
    Prop where
  books : Books True M s' held
  pte : ∀ q ∈ places, s'.pte q = if q = p then withDirty (s.pte p) else s.pte q
  contents : s'.mem (frameOf (s.pte p)) = setByte (s.mem (frameOf (s.pte p))) k b
  calm : Calm (fun q => q = p) nowhere s s'
  counts : s'.memMap = s.memMap

/-- A store marks the entry of the page as dirty. -/
theorem wp_poke {address : ℕ} (hpres : present (s.pte (placeOf address))) {b : Byte} {Q : Unit → Mm → Prop}
    {E : Trap → Mm → Prop} : wp (poke address b) Q E s ↔ Q () ((s.store (s.table (placeOf address).1)
      (placeOf address).2 (withDirty (s.pte (placeOf address)))).storePage (frameOf (s.pte (placeOf address)))
        (setByte ((s.store (s.table (placeOf address).1) (placeOf address).2
          (withDirty (s.pte (placeOf address)))).mem
          (frameOf (s.pte (placeOf address)))) (address % 4096) b)) := by
  have hd := dir_of_pte hpres
  have hentry : s.mem (frameOf (s.mem 0 (dirIndex address))) (tableIndex address) =
      s.pte (placeOf address) := by
    rw [pte_of_present hd, Mm.entry, placeOf_fst, placeOf_snd, Mm.table]
  have htable : frameOf (s.mem 0 (dirIndex address)) = s.table (placeOf address).1 := by
    rw [placeOf_fst, Mm.table]
  rw [poke, wp_bind, wp_loadWord, wp_bind, wp_loadWord, wp_bind, wp_storeWord, wp_modify, hentry,
    htable, ← placeOf_snd]

/-- The flag changes nothing in the books. -/
theorem books_dirtied {p : ℕ × ℕ} (B : Books True M s held) (hp : p ∈ places) (hpres : present (s.pte p)) :
    Books True M (s.store (s.table p.1) p.2 (withDirty (s.pte p))) held := by
  have hd := dir_of_pte hpres
  have hpte := pte_of_present hd
  refine B.reflag hp hd (by rw [present_withDirty, hpte]) (by rw [frameOf_withDirty, hpte]) ?_
  intro _ _ hw
  rw [writable_withDirty] at hw
  have hpr := private_of_writable B hp hpres hw
  rw [frameOf_withDirty]
  exact ⟨hpr.1, le_of_eq hpr.2⟩

/-- **A store** into a page of its own, or of the byte that is there already. -/
theorem poke_spec (B : Books True M s held) {address : ℕ} (hp : placeOf address ∈ places)
    (hpres : present (s.pte (placeOf address))) {b : Byte}
    (hpriv : Private s (placeOf address) ∨ byteAt (s.mem (frameOf (s.pte (placeOf address))))
      (address % 4096) = b) :
    wp (poke address b) (fun _ s' => Poked M held (placeOf address) (address % 4096) b s s')
      (fun _ _ => False) s := by
  have hd := dir_of_pte hpres
  have hm : s.Maps (frameOf (s.pte (placeOf address))) (placeOf address) :=
    maps_iff_pte.2 ⟨hpres, rfl⟩
  rw [wp_poke hpres]
  generalize placeOf address = p at *
  have hne := B.ne_table_of_maps trivial hp hm (directory_of_places hp) hd
  have B1 := books_dirtied B hp hpres
  have hmem : (s.store (s.table p.1) p.2 (withDirty (s.pte p))).mem (frameOf (s.pte p)) =
      s.mem (frameOf (s.pte p)) := store_mem_of_ne s hne _ _
  have hptes : ∀ q ∈ places, (s.store (s.table p.1) p.2 (withDirty (s.pte p))).pte q =
      if q = p then withDirty (s.pte p) else s.pte q := fun q hq => B.ledger.pte_store hp hq hd _
  have C1 := Changed.calm (D := nowhere) B (B.ledger.changed_store hp hd rfl B1)
  rw [hmem]
  by_cases hsame : byteAt (s.mem (frameOf (s.pte p))) (address % 4096) = b
  · rw [setByte_self hsame, ← hmem]
    have hid : ∀ (u : Mm) (f : ℕ), u.storePage f (u.mem f) = u := by
      intro u f
      rw [Mm.storePage, Function.update_eq_self]
    rw [hid]
    exact ⟨B1, hptes, by rw [hmem, setByte_self hsame], C1, rfl⟩
  · have hpr := hpriv.resolve_right hsame
    have htr : (s.store (s.table p.1) p.2 (withDirty (s.pte p))).tableRefs (frameOf (s.pte p)) =
        0 := by
      rw [B.ledger.tableRefs_store hp hd]
      exact (B.tableRefs_of_maps trivial hp hm).1
    have hge := hpr.1
    have hptes' : ∀ q ∈ places, ((s.store (s.table p.1) p.2 (withDirty (s.pte p))).storePage
        (frameOf (s.pte p)) (setByte (s.mem (frameOf (s.pte p))) (address % 4096) b)).pte q =
        if q = p then withDirty (s.pte p) else s.pte q := by
      intro q hq
      rw [pte_storePage (by omega) htr _ hq, hptes q hq]
    refine ⟨B1.content (by omega) htr _, hptes', storePage_mem_self _ _ _, ?_, rfl⟩
    refine calm_of_entries ?_ ?_ ?_
    · intro q hq hqp
      rw [hptes' q hq, if_neg hqp]
      exact Or.inl rfl
    · -- nobody else maps the frame
      intro q hq hqp hpq hf
      have hmq : s.Maps (frameOf (s.pte q)) q := maps_iff_pte.2 ⟨hpq, rfl⟩
      have hother : frameOf (s.pte q) ≠ frameOf (s.pte p) := by
        intro h
        rw [h] at hmq
        have htwo := B.ledger.count_of_two hp hq (Ne.symm hqp) hge hm hmq
        have hone := hpr.2
        omega
      rw [storePage_mem_of_ne _ hother, store_mem_of_ne s
        (B.ne_table_of_maps trivial hq hmq (directory_of_places hp) hd)]
    · intro d _
      rw [storePage_mem_of_ne _ (show 0 ≠ frameOf (s.pte p) by omega), B.ledger.store_dir hp hd]

/-- What a store of the kernel does to a page that other processes share. -/
theorem poke_writes (B : Books True M s held) {address : ℕ} (hp : placeOf address ∈ places)
    (hpres : present (s.pte (placeOf address))) (hf : 256 ≤ frameOf (s.pte (placeOf address)))
    (b : Byte) :
    wp (poke address b) (fun _ s' => (∀ q ∈ places, s'.pte q =
          if q = placeOf address then withDirty (s.pte (placeOf address)) else s.pte q) ∧
        s'.mem (frameOf (s.pte (placeOf address))) =
          setByte (s.mem (frameOf (s.pte (placeOf address)))) (address % 4096) b)
      (fun _ _ => False) s := by
  have hd := dir_of_pte hpres
  have hm : s.Maps (frameOf (s.pte (placeOf address))) (placeOf address) :=
    maps_iff_pte.2 ⟨hpres, rfl⟩
  rw [wp_poke hpres]
  generalize placeOf address = p at *
  have hne := B.ne_table_of_maps trivial hp hm (directory_of_places hp) hd
  have htr : (s.store (s.table p.1) p.2 (withDirty (s.pte p))).tableRefs (frameOf (s.pte p)) =
      0 := by
    rw [B.ledger.tableRefs_store hp hd]
    exact (B.tableRefs_of_maps trivial hp hm).1
  constructor
  · intro q hq
    rw [pte_storePage (by omega) htr _ hq]
    exact B.ledger.pte_store hp hq hd _
  · rw [storePage_mem_self, store_mem_of_ne s hne]

/-! ### `verify_area` -/

/-- The addresses `verify_area` hands to `write_verify`. -/
def verifyAddress (start i : ℕ) : ℕ := (start + i * 4096) % 2 ^ 32

theorem verifyAddress_zero {start : ℕ} (h : start < 2 ^ 32) : verifyAddress start 0 = start := by
  rw [verifyAddress]
  omega

theorem verifyAddress_next (start i : ℕ) :
    verifyAddress ((start + 4096) % 2 ^ 32) i = verifyAddress start (i + 1) := by
  rw [verifyAddress, verifyAddress]
  omega

/-- The kernel's own pages are writable, so `write_verify` leaves them alone. -/
theorem writeVerify_kernel (B : Books True M s held) {address : ℕ} (ha : address < 0x4000000) :
    wp (writeVerify address) (fun _ s' => s' = s) (fun _ _ => False) s := by
  have hdir : dirIndex address < 16 := by
    rw [dirIndex]
    omega
  rw [writeVerify, wp_bind, wp_loadWord, wp_ite]
  constructor
  · intro hd
    have h4 := (B.ledger.kernelDir _ hdir).1 hd
    have htab := B.ledger.kernelTable _ h4
    rw [Mm.table] at htab
    rw [wp_bind, wp_loadWord, htab, wp_ite]
    constructor
    · intro h
      have hw := B.kernel trivial _ h4 (tableIndex address) (by rw [tableIndex]; omega)
      exact absurd hw h.2
    · intro _
      rfl
  · intro _
    rfl

/-- The places whose page may lose its dirty bit when it is verified. -/
def LosesDirty (s : Mm) (q : ℕ × ℕ) : Prop :=
  present (s.pte q) ∧ ¬writable (s.pte q) ∧ dirty (s.pte q) ∧ ¬Private s q

theorem Unshared.losesDirty {p : ℕ × ℕ} (hpres : present (s.pte p))
    (U : Unshared True M s held p s') {q : ℕ × ℕ} (hq : q ∈ places) (h : LosesDirty s' q) :
    LosesDirty s q := by
  have L' := U.changed.books.ledger
  have hp' := U.own hpres
  by_cases hqp : q = p
  · rw [hqp] at h
    exact absurd hp'.2 h.2.1
  · obtain ⟨hpq, hro, hd, hnot⟩ := h
    have hpte := U.changed.pte q hq
    rw [if_neg hqp] at hpte
    rw [hpte] at hpq hro hd
    refine ⟨hpq, hro, hd, ?_⟩
    intro hpriv
    obtain ⟨hf, hone⟩ := hpriv
    have hmq : s'.Maps (frameOf (s.pte q)) q := maps_iff_pte.2 ⟨by rw [hpte]; exact hpq, by rw [hpte]⟩
    apply hnot
    rw [Private, hpte]
    refine ⟨hf, ?_⟩
    by_cases hsame : frameOf (s.pte q) = frameOf (s'.pte p)
    · rw [hsame]
      exact U.single
    · have hle := U.counts _ hf hsame
      have hpos := L'.count_pos_of_maps hq hmq hf
      omega

/-- One round of `verify_area`. -/
theorem verifyPage_spec (B : Books True M s held) {address : ℕ} (ha : address < 2 ^ 32)
    (hD : ∀ q ∈ places, q = placeOf address → LosesDirty s q → D q) :
    wp (writeVerify address) (fun _ s' => Books True M s' held ∧ Calm nowhere D s s' ∧
        ∀ q ∈ places, LosesDirty s' q → LosesDirty s q)
      (fun _ s' => s' = s) s := by
  by_cases hlow : address < 0x4000000
  · apply wp_mono (writeVerify_kernel B hlow) _ (fun _ _ h => h.elim)
    intro _ s' hs'
    rw [hs']
    exact ⟨B, Calm.refl _ _ s, fun _ _ h => h⟩
  · have hp : placeOf address ∈ places := placeOf_mem ⟨by omega, ha⟩
    apply wp_mono (writeVerify_books B hp) _ (fun _ _ h => h)
    intro _ s' hcase
    rcases hcase with ⟨hpres, hro, U⟩ | ⟨_, hs'⟩
    · refine ⟨U.changed.books, Unshared.calm B U hpres ?_, fun q hq => Unshared.losesDirty hpres U hq⟩
      intro hd hnot
      exact hD _ hp rfl ⟨hpres, hro, hd, hnot⟩
    · rw [hs']
      exact ⟨B, Calm.refl _ _ s, fun _ _ h => h⟩

/-- **`verify_area`** keeps every page of every process; a page that is copied loses its dirty bit. -/
theorem verifyPages_spec {start : ℕ} (n : ℕ) (B : Books True M s held) (hstart : start < 2 ^ 32)
    (hD : ∀ i < n, ∀ q ∈ places, q = placeOf (verifyAddress start i) → LosesDirty s q → D q) :
    wp (verifyPages start n) (fun _ s' => Books True M s' held ∧ Calm nowhere D s s')
      (fun _ s' => Books True M s' held ∧ Calm nowhere D s s') s := by
  induction n generalizing start s with
  | zero => exact ⟨B, Calm.refl _ _ s⟩
  | succ n ih =>
    rw [verifyPages, wp_bind]
    have hone := verifyPage_spec (D := D) B hstart fun q hq hqa =>
      hD 0 (by omega) q hq (by rw [hqa, verifyAddress_zero hstart])
    apply wp_mono hone
    · intro _ s1 h
      obtain ⟨B1, C1, hloses⟩ := h
      have hrest := ih B1 (show (start + 4096) % 2 ^ 32 < 2 ^ 32 by omega) (by
        intro i hi q hq hqa hl
        rw [verifyAddress_next] at hqa
        exact hD (i + 1) (by omega) q hq hqa (hloses q hq hl))
      apply wp_mono hrest
      · intro _ s2 h
        exact ⟨h.1, C1.trans h.2⟩
      · intro _ s2 h
        exact ⟨h.1, C1.trans h.2⟩
    · intro _ s1 h
      rw [h]
      exact ⟨B, Calm.refl _ _ s⟩

end OldLinux.Process
