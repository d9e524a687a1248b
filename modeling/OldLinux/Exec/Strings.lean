import OldLinux.Exec.Reads

/-!
# Copying strings

The area of the strings while `copy_strings` fills it from its end: the bytes that are copied are those
that the caller has, all others stay, and the memory of the task stays too.  A string that is longer
than what is left of the area is the one reason to leave it.
-/

namespace OldLinux.Exec

open Function Lib

variable {others : ℕ → ℕ} {k0 k k' k'' : Kernel} {f g u d i n a p o pag tmp len from_kmem : ℕ} {offset : ℤ}

/-! ### The area -/

/-- The bytes of the area. -/
def Kernel.area (k : Kernel) : Space := fun o =>
  match k.page (o / PAGE_SIZE) with
  | some f => k.frame f (o % PAGE_SIZE)
  | none => 0

/-- The state while strings are copied, in a call that began in `k0`. -/
structure Filling (others : ℕ → ℕ) (k0 k : Kernel) : Prop where
  start : Books others k0
  empty : k0.page = fun _ => none
  books : Books others k
  loads : Loads k0 k

theorem Filling.user (F : Filling others k0 k) : k.user = k0.user := F.loads.user F.start

theorem Filling.reads (F : Filling others k0 k) (h : Reads others k k') : Filling others k0 k' :=
  ⟨F.start, F.empty, h.books, F.loads.trans h.loads⟩

theorem Filling.arg_unused (F : Filling others k0 k) (h : k.page i = some f) : ¬k0.Used f := by
  rcases F.loads.args i f h with h1 | h1
  · rw [F.empty] at h1
    cases h1
  · exact h1

theorem Books.arg_used (B : Books others k) (h : k.page i = some f) : k.Used f := by
  refine .inr ?_
  rw [(B.arg_own i f h).2]
  exact Nat.one_ne_zero

/-- Different places of the array have different pages. -/
theorem Books.arg_inj {j : ℕ} (B : Books others k) (hi : k.page i = some f) (hj : k.page j = some f) :
    i = j := by
  obtain ⟨hge, hone⟩ := B.arg_own i f hi
  have hl := B.ledger f hge
  refine refs_unique (n := 32) (f := f) ?_ (B.arg_lt i ?_) (B.arg_lt j ?_) hi hj
  · show k.args f ≤ 1
    omega
  · rw [hi]
    exact Option.some_ne_none f
  · rw [hj]
    exact Option.some_ne_none f

theorem Reads.area (h : Reads others k k') (B : Books others k) : k'.area = k.area := by
  funext o
  rw [Kernel.area, Kernel.area, h.rest.page]
  cases hpage : k.page (o / PAGE_SIZE) with
  | none => rfl
  | some f => exact congrFun (h.loads.used f (B.arg_used hpage)).2 _

/-- A byte is stored. -/
theorem Filling.store (F : Filling others k0 k) (h : k.page i = some f) (o c : ℕ) :
    Filling others k0 (k.store f o c) := by
  obtain ⟨halone, hpte, -⟩ := F.books.arg_alone h
  have hunused := F.arg_unused h
  refine ⟨F.start, F.empty, ?_, { F.loads with used := fun g hg => ?_, fresh := fun u g hu hu' => ?_ }⟩
  · refine F.books.set_frame (fun v hv => ?_) _
    have hpos := (F.books.shared v f hv).2.1
    omega
  · obtain ⟨h1, h2⟩ := F.loads.used g hg
    have hne : g ≠ f := by
      rintro rfl
      exact hunused hg
    exact ⟨h1, (update_of_ne hne ..).trans h2⟩
  · replace hu' : k.pte u = some g := hu'
    obtain ⟨h1, h2⟩ := F.loads.fresh u g hu hu'
    have hne : g ≠ f := by
      rintro rfl
      exact refs_zero hpte (F.books.page_lt u (by rw [hu']; exact Option.some_ne_none g)) hu'
    exact ⟨h1, (update_of_ne hne ..).trans h2⟩

theorem store_area (B : Books others k) (h : k.page (p / PAGE_SIZE) = some f) (c : ℕ) :
    (k.store f (p % PAGE_SIZE) c).area = update k.area p c := by
  funext o
  show (match k.page (o / PAGE_SIZE) with
    | some g => update k.frame f (update (k.frame f) (p % PAGE_SIZE) c) g (o % PAGE_SIZE)
    | none => 0) = _
  by_cases hop : o = p
  · rw [hop, h, update_self]
    show update k.frame f _ f (p % PAGE_SIZE) = c
    rw [update_self, update_self]
  · rw [update_of_ne hop, Kernel.area]
    cases hpage : k.page (o / PAGE_SIZE) with
    | none => rfl
    | some g =>
      show update k.frame f _ g (o % PAGE_SIZE) = k.frame g (o % PAGE_SIZE)
      by_cases hgf : g = f
      · have hplace := B.arg_inj (hgf ▸ hpage) h
        have hoff : o % PAGE_SIZE ≠ p % PAGE_SIZE := by
          intro heq
          rw [PAGE_SIZE] at hplace heq
          omega
        rw [hgf, update_self, update_of_ne hoff]
      · rw [update_of_ne hgf]

/-! ### One byte -/

/-- Strings have been copied. -/
structure Copies (others : ℕ → ℕ) (k0 k k' : Kernel) : Prop where
  filling : Filling others k0 k'
  buf : k'.buf = k.buf
  i_count : k'.i_count = k.i_count
  b_count : k'.b_count = k.b_count
  kept : ∀ i f, k.page i = some f → k'.page i = some f

theorem Copies.refl (F : Filling others k0 k) : Copies others k0 k k := ⟨F, rfl, rfl, rfl, fun _ _ h => h⟩

theorem Copies.trans (h : Copies others k0 k k') (h' : Copies others k0 k' k'') : Copies others k0 k k'' :=
  ⟨h'.filling, h'.buf.trans h.buf, h'.i_count.trans h.i_count, h'.b_count.trans h.b_count,
    fun i f hi => h'.kept i f (h.kept i f hi)⟩

theorem Copies.reads (F : Filling others k0 k) (h : Reads others k k') : Copies others k0 k k' :=
  ⟨F.reads h, h.rest.buf, h.rest.i_count, h.rest.b_count, fun i f hi => by rwa [h.rest.page]⟩

theorem Copies.view (F : Filling others k0 k) (h : Copies others k0 k k') (hfs : k'.fs = k.fs) :
    k'.view = k.view := by
  rw [Kernel.view, Kernel.view, hfs, kspace_congr h.buf, h.filling.user, F.user]

theorem Copies.set_fs (h : Copies others k0 k k') (s : Segment) : Copies others k0 k { k' with fs := s } :=
  ⟨⟨h.filling.start, h.filling.empty, { h.filling.books with }, { h.filling.loads with }⟩, h.buf, h.i_count,
    h.b_count, h.kept⟩

theorem wp_set_fs {Q : Unit → Kernel → Prop} {E : Trap → Kernel → Prop} {s : Segment} :
    wp (set_fs s) Q E k ↔ Q () { k with fs := s } := Iff.rfl

/-- There is no free frame. -/
def Kernel.Full (k : Kernel) : Prop := ∀ f, 256 ≤ f → f < 4096 → k.mem_map f ≠ 0

theorem wp_arg_page (F : Filling others k0 k) (p : ℕ) :
    wp (arg_page p) (fun r k' => p < 131072 ∧ Copies others k0 k k' ∧ k'.fs = k.fs ∧ k'.area = k.area ∧
      (r = none → k'.Full) ∧ ∀ f, r = some f → k'.page (p / PAGE_SIZE) = some f)
      (fun _ _ => 131072 ≤ p) k := by
  rw [arg_page, wp_bind, wp_get, wp_ite]
  refine ⟨fun h => ?_, fun hlt => ?_⟩
  · rw [wp_throw]
    rw [MAX_ARG_PAGES, PAGE_SIZE] at h
    omega
  · have hp : p < 131072 := by
      rw [MAX_ARG_PAGES, PAGE_SIZE] at hlt
      omega
    rw [MAX_ARG_PAGES] at hlt
    split
    · rename_i f hf
      rw [wp_pure]
      exact ⟨hp, Copies.refl F, rfl, rfl, (fun h => by cases h), fun g hg => hg ▸ hf⟩
    · rename_i hnone
      rw [wp_bind]
      apply wp_get_free_page
      · intro hfull
        exact ⟨hp, Copies.refl F, rfl, rfl, fun _ => hfull, fun f hf => by cases hf⟩
      · intro f hf _ hzero
        rw [wp_bind, wp_modify, wp_pure]
        have hunused : ¬k.Used f := fun h => h.elim (by omega) fun h => h hzero
        have hone : (k.take f).mem_map f = 1 := update_self ..
        have hbooks := (F.books.take hf hzero).set_arg (by omega) hnone hf hone
          fun v hv => (F.books.shared v f hv).2.1
        have hself : update k.page (p / PAGE_SIZE) (some f) (p / PAGE_SIZE) = some f :=
          update_self ..
        have hloads : Loads k { k.take f with page := update k.page (p / PAGE_SIZE) (some f) } := by
          refine ⟨{ Adds.take hf hzero with args := fun i g hi => ?_ }, fun d h h' => absurd h h',
            fun u h h' => absurd h h'⟩
          replace hi : update k.page (p / PAGE_SIZE) (some f) i = some g := hi
          by_cases hip : i = p / PAGE_SIZE
          · rw [hip, hself] at hi
            cases hi
            exact .inr hunused
          · rw [update_of_ne hip] at hi
            exact .inl hi
        refine ⟨hp, ⟨⟨F.start, F.empty, hbooks, F.loads.trans hloads⟩, rfl, rfl, rfl, fun i g hi => ?_⟩, rfl,
          ?_,
          (fun h => by cases h), fun g hg => by rw [← hg]; exact hself⟩
        · have hip : i ≠ p / PAGE_SIZE := by
            rintro rfl
            rw [hnone] at hi
            cases hi
          exact (update_of_ne hip ..).trans hi
        · funext o
          show (match update k.page (p / PAGE_SIZE) (some f) (o / PAGE_SIZE) with
            | some g => update k.frame f (fun _ => 0) g (o % PAGE_SIZE)
            | none => 0) = _
          rw [Kernel.area]
          by_cases hop : o / PAGE_SIZE = p / PAGE_SIZE
          · rw [hop, hself, hnone]
            show update k.frame f (fun _ => 0) f (o % PAGE_SIZE) = 0
            rw [update_self]
          · rw [update_of_ne hop]
            cases hpage : k.page (o / PAGE_SIZE) with
            | none => rfl
            | some g =>
              have hgf : g ≠ f := by
                rintro rfl
                exact hunused (F.books.arg_used hpage)
              show update k.frame f (fun _ => 0) g (o % PAGE_SIZE) = k.frame g (o % PAGE_SIZE)
              rw [update_of_ne hgf]

theorem wp_copy_byte {α : Type} {rest : ExecM α} {Q : α → Kernel → Prop} {E : Trap → Kernel → Prop}
    (F : Filling others k0 k) (hpage : k.page (p / PAGE_SIZE) = some pag)
    (hrest : ∀ k', Copies others k0 k k' → k'.fs = k.fs → k'.page = k.page →
      k'.area = update k.area p (k.view a) → wp rest Q E k')
    (hstop : ∀ e k', e ≠ .outside → E e k') :
    wp (do
      let c ← get_fs_byte a
      modify fun k => k.store pag (p % PAGE_SIZE) c
      rest) Q E k := by
  rw [wp_bind]
  refine wp_mono (wp_get_fs_byte F.books a) ?_ fun e k' h => hstop e k' h
  rintro _ k1 ⟨rfl, hreads, -⟩
  rw [wp_bind, wp_modify]
  have hpage1 : k1.page (p / PAGE_SIZE) = some pag := by rw [hreads.rest.page, hpage]
  have hcopies := Copies.reads F hreads
  refine hrest _ ⟨hcopies.filling.store hpage1 _ _, hcopies.buf, hcopies.i_count, hcopies.b_count, hcopies.kept⟩
    hreads.rest.fs hreads.rest.page ?_
  rw [store_area hreads.books hpage1, hreads.area F.books]

/-! ### The bytes of a string -/

/-- `offset` and `pag` are those of `p`, unless the next byte needs another page. -/
def Pos (k : Kernel) (p : ℕ) (offset : ℤ) (pag : ℕ) : Prop :=
  offset = 0 ∨ offset = (p % PAGE_SIZE : ℕ) ∧ k.page (p / PAGE_SIZE) = some pag

theorem Pos.kept (h : Pos k p offset pag) (hkept : ∀ i f, k.page i = some f → k'.page i = some f) :
    Pos k' p offset pag :=
  h.imp_right fun h => ⟨h.1, hkept _ _ h.2⟩

/-- `len` bytes of `src` from `tmp` on are copied to `p`. -/
def copied (area src : Space) (p tmp len : ℕ) : Space := fun o =>
  if p ≤ o ∧ o < p + len then src (tmp + (o - p)) else area o

theorem copied_zero (area src : Space) (p tmp : ℕ) : copied area src p tmp 0 = area := by
  funext o
  rw [copied, if_neg (by omega)]

theorem copied_succ (area src : Space) (hp : len < p) (htmp : len < tmp) :
    copied (update area (p - 1) (src (tmp - 1))) src (p - 1 - len) (tmp - 1 - len) len =
      copied area src (p - (len + 1)) (tmp - (len + 1)) (len + 1) := by
  funext o
  rw [copied, copied]
  by_cases hop : o = p - 1
  · rw [hop, if_neg (by omega), if_pos (by omega), update_self]
    congr 1
    omega
  · rw [update_of_ne hop]
    by_cases hin : p - 1 - len ≤ o ∧ o < p - 1 - len + len
    · rw [if_pos hin, if_pos (by omega)]
      congr 1
      omega
    · rw [if_neg hin, if_neg (by omega)]

/-- The string has been copied below `p`. -/
structure CopiedBytes (src : Space) (p tmp len : ℕ) (k k' : Kernel) (p' : ℕ) (offset' : ℤ) (pag' : ℕ) :
    Prop where
  room : len ≤ p
  end_at : p' = p - len
  pos : Pos k' p' offset' pag'
  fs : k'.fs = k.fs
  area : k'.area = copied k.area src (p - len) (tmp - len) len
  there : ∀ o, p - len ≤ o → o < p → k'.page (o / PAGE_SIZE) ≠ none

/-- The segment of the strings. -/
def stringFs (from_kmem : ℕ) : Segment := if from_kmem = 2 then .kernel else .user

theorem CopiedBytes.succ {src : Space} {k1 : Kernel} {p' pag' : ℕ} {offset' : ℤ} (hp : 0 < p)
    (htmp : len < tmp) (hfs : k1.fs = k.fs) (hpage : k1.page ((p - 1) / PAGE_SIZE) ≠ none)
    (harea : k1.area = update k.area (p - 1) (src (tmp - 1)))
    (hkept : ∀ i f, k1.page i = some f → k'.page i = some f)
    (h : CopiedBytes src (p - 1) (tmp - 1) len k1 k' p' offset' pag') :
    CopiedBytes src p tmp (len + 1) k k' p' offset' pag' where
  room := by
    have hroom := h.room
    omega
  end_at := by
    rw [h.end_at]
    omega
  pos := h.pos
  fs := h.fs.trans hfs
  area := by
    have hroom := h.room
    rw [h.area, harea, copied_succ _ _ (by omega) htmp]
  there := by
    intro o hge hlt
    by_cases hop : o = p - 1
    · obtain ⟨f, hf⟩ := Option.ne_none_iff_exists'.1 hpage
      rw [hop, hkept _ f hf]
      exact Option.some_ne_none f
    · exact h.there o (by omega) (by omega)

theorem wp_copy_bytes {src : Space} (F : Filling others k0 k) (hp : p ≤ 131072) (hpos : Pos k p offset pag)
    (hfs : k.fs = stringFs from_kmem) (hsrc : k.view = src) (htmp : len ≤ tmp) :
    wp (copy_bytes from_kmem .user len p tmp offset pag) (fun r k' => Copies others k0 k k' ∧
      (r = none → k'.fs = .user ∧ k'.Full) ∧ ∀ p' offset' pag', r = some (p', offset', pag') →
        CopiedBytes src p tmp len k k' p' offset' pag') (fun e _ => e = .outside → p < len) k := by
  induction len generalizing k p tmp offset pag with
  | zero =>
    rw [copy_bytes, wp_pure]
    refine ⟨Copies.refl F, (fun h => by cases h), ?_⟩
    rintro _ _ _ ⟨⟩
    exact ⟨Nat.zero_le p, rfl, hpos, rfl, (copied_zero ..).symm, fun o h h' => by omega⟩
  | succ len ih =>
    rw [copy_bytes]
    -- after the byte at `p - 1`, with its page
    have hnext : ∀ k1 off pag1, 0 < p → Copies others k0 k k1 → k1.fs = stringFs from_kmem →
        k1.page ((p - 1) / PAGE_SIZE) = some pag1 → k1.area = k.area → off = (p - 1) % PAGE_SIZE →
        wp (do
          let c ← get_fs_byte (tmp - 1)
          modify fun k => k.store pag1 off c
          copy_bytes from_kmem .user len (p - 1) (tmp - 1) (off : ℕ) pag1)
          (fun r k' => Copies others k0 k k' ∧
            (r = none → k'.fs = .user ∧ k'.Full) ∧ ∀ p' offset' pag', r = some (p', offset', pag') →
              CopiedBytes src p tmp (len + 1) k k' p' offset' pag')
          (fun e _ => e = .outside → p < len + 1) k1 := by
      rintro k1 off pag1 hpos' hcopies hfs1 hpage harea rfl
      refine wp_copy_byte hcopies.filling hpage ?_ fun e _ hne he => absurd he hne
      intro k2 hcopies2 hfs2 hpage2 harea2
      have hview := hcopies.view F (hfs1.trans hfs.symm)
      have hview2 := hcopies2.view hcopies.filling hfs2
      have hpage2' : k2.page ((p - 1) / PAGE_SIZE) = some pag1 := by rw [hpage2, hpage]
      refine wp_mono (ih hcopies2.filling (by omega) (.inr ⟨rfl, hpage2'⟩) (hfs2.trans hfs1)
        (by rw [hview2, hview, hsrc]) (by omega)) ?_ fun e _ h he => ?_
      · rintro r k' ⟨hcopies', hnone, hsome⟩
        refine ⟨(hcopies.trans hcopies2).trans hcopies', hnone, fun p' offset' pag' hr => ?_⟩
        refine (hsome p' offset' pag' hr).succ hpos' (by omega) (by rw [hfs2, hfs1, hfs]) ?_ ?_ hcopies'.kept
        · rw [hpage2']
          exact Option.some_ne_none pag1
        · rw [harea2, harea, hview, hsrc]
      · have hlt := h he
        omega
    have hdec : 0 < p → (p + 0xffffffff) % 2 ^ 32 = p - 1 := fun hpos' => by omega
    have hzero : 131072 ≤ (p + 0xffffffff) % 2 ^ 32 → p < len + 1 := fun h => by omega
    rw [wp_ite]
    constructor
    · intro hneg
      by_cases hkmem : from_kmem = 2
      · subst hkmem
        simp only [if_true]
        rw [wp_bind, wp_set_fs, wp_bind]
        have hcopies0 := (Copies.refl F).set_fs .user
        refine wp_mono (wp_arg_page hcopies0.filling _) ?_ fun _ _ h _ => hzero h
        rintro r k1 ⟨hlt, hcopies, hfs1, harea, hfull, hpage⟩
        have hpos' : 0 < p := by omega
        rw [hdec hpos'] at hpage ⊢
        replace hcopies := hcopies0.trans hcopies
        cases r with
        | none => exact ⟨hcopies, fun _ => ⟨hfs1, hfull rfl⟩, fun _ _ _ h => by cases h⟩
        | some pag1 =>
          show wp (set_fs .kernel >>= _) _ _ _
          rw [wp_bind, wp_set_fs]
          exact hnext _ _ pag1 hpos' (hcopies.set_fs .kernel) rfl (hpage pag1 rfl) harea rfl
      · simp only [if_neg hkmem]
        rw [wp_bind]
        refine wp_mono (wp_arg_page F _) ?_ fun _ _ h _ => hzero h
        rintro r k1 ⟨hlt, hcopies, hfs1, harea, hfull, hpage⟩
        have hpos' : 0 < p := by omega
        rw [hdec hpos'] at hpage ⊢
        cases r with
        | none =>
          refine ⟨hcopies, fun _ => ⟨?_, hfull rfl⟩, fun _ _ _ h => by cases h⟩
          rw [hfs1, hfs, stringFs, if_neg hkmem]
        | some pag1 => exact hnext _ _ pag1 hpos' hcopies (hfs1.trans hfs) (hpage pag1 rfl) harea rfl
    · intro hnonneg
      rcases hpos with rfl | ⟨rfl, hpage⟩
      · exact absurd hnonneg (by decide)
      · have hoff : ((p % PAGE_SIZE : ℕ) - 1 : ℤ) = ((p - 1) % PAGE_SIZE : ℕ) := by
          rw [PAGE_SIZE] at hnonneg ⊢
          omega
        have hsame : (p - 1) / PAGE_SIZE = p / PAGE_SIZE := by
          rw [PAGE_SIZE] at hnonneg ⊢
          omega
        have hpos' : 0 < p := by
          rw [PAGE_SIZE] at hnonneg
          omega
        rw [hdec hpos', hoff, Int.toNat_natCast]
        exact hnext _ _ pag hpos' (Copies.refl F) hfs (by rw [hsame, hpage]) rfl rfl

/-! ### The strings of a table -/

/-- The pointers of a table, or the one pointer. -/
def Argv.ptr (m : Space) : Argv → ℕ → ℕ
  | .table a => fun i => long m (a + 4 * i)
  | .pointer v => fun _ => v

/-- The strings have been copied below `p`. -/
structure CopiedStrings (src : Space) (ptr : ℕ → ℕ) (n p : ℕ) (k k' : Kernel) (p' : ℕ)
    (ss : List (List ℕ)) : Prop where
  length : ss.length = n
  strings : Strings src ptr ss
  end_at : p' + size ss = p
  holds : Holds k'.area p' ss
  above : ∀ o, p ≤ o → k'.area o = k.area o
  below : ∀ o, o < p' → k'.area o = k.area o
  there : ∀ o, p' ≤ o → o < p → k'.page (o / PAGE_SIZE) ≠ none

theorem not_tooLong (p len : ℕ) : tooLong p len = false :=
  decide_eq_false (Int.not_lt.2 (Int.emod_nonneg _ (by decide)))

theorem wp_get_pointer {argv : Argv} (B : Books others k) (n : ℕ) :
    wp (argv.get_pointer n) (fun v k' => v = argv.ptr k.view n ∧ Reads others k k')
      (fun e _ => e ≠ .outside) k := by
  cases argv with
  | table a => exact wp_get_fs_long B (a + 4 * n)
  | pointer v => exact ⟨rfl, Reads.refl B⟩

theorem CopiedStrings.snoc {src : Space} {ptr : ℕ → ℕ} {p1 pag1 p' : ℕ} {k1 : Kernel} {s : List ℕ}
    {offset1 : ℤ} {ss : List (List ℕ)} (hne : ptr n ≠ 0) (hs : CString src (ptr n) s)
    (hbytes : CopiedBytes src p (ptr n + (s.length + 1)) (s.length + 1) k k1 p1 offset1 pag1)
    (hkept : ∀ i f, k1.page i = some f → k'.page i = some f)
    (h : CopiedStrings src ptr n p1 k1 k' p' ss) :
    CopiedStrings src ptr (n + 1) p k k' p' (ss ++ [s]) := by
  have hroom := hbytes.room
  have hend := hbytes.end_at
  have hend' := h.end_at
  have hstring : CString k'.area p1 s := by
    refine hs.moved fun i hi => ?_
    rw [h.above _ (Nat.le_add_right p1 i), hbytes.area, copied, if_pos (by omega)]
    congr 1
    omega
  refine ⟨?_, Strings.snoc.2 ⟨h.strings, ?_, ?_⟩, ?_, Holds.append.2 ⟨h.holds, ?_⟩, fun o ho => ?_,
    fun o ho => ?_, fun o hge hlt => ?_⟩
  · rw [List.length_append, List.length_singleton, h.length]
  · rwa [h.length]
  · rwa [h.length]
  · rw [size_append, size_cons, size_nil]
    omega
  · rw [h.end_at]
    exact ⟨hstring, trivial⟩
  · rw [h.above o (by omega), hbytes.area, copied, if_neg (by omega)]
  · rw [h.below o ho, hbytes.area, copied, if_neg (by omega)]
  · rcases Nat.lt_or_ge o p1 with hlo | hhi
    · exact h.there o hge hlo
    · obtain ⟨f, hf⟩ := Option.ne_none_iff_exists'.1 (hbytes.there o (by omega) hlt)
      rw [hkept _ f hf]
      exact Option.some_ne_none f

/-- Where `copy_strings` finds the pointers. -/
def Kernel.table (k : Kernel) (from_kmem : ℕ) : Space :=
  if from_kmem = 1 ∨ from_kmem = 2 then k.kspace else k.user

theorem Copies.table (F : Filling others k0 k) (h : Copies others k0 k k') (from_kmem : ℕ) :
    k'.table from_kmem = k.table from_kmem := by
  rw [Kernel.table, Kernel.table, kspace_congr h.buf, h.filling.user, F.user]

/-- A round of `copy_each`, once the address of the string is known. -/
def copy_one (argv : Argv) (from_kmem tmp n p : ℕ) (offset : ℤ) (pag : ℕ) : ExecM ℕ := do
  let len ← string_len addresses tmp
  if tooLong p len then do
    set_fs .user
    pure 0
  else do
    match ← copy_bytes from_kmem .user len p (tmp + len) offset pag with
    | none => pure 0
    | some (p, offset, pag) => copy_each argv from_kmem .user n p offset pag

theorem wp_copy_each {src : Space} {argv : Argv} {ptr : ℕ → ℕ} (hptr : argv.ptr (k.table from_kmem) = ptr)
    (F : Filling others k0 k) (hp : p ≤ 131072) (hpos : Pos k p offset pag)
    (hfs : k.fs = stringFs from_kmem) (hsrc : k.view = src) :
    wp (copy_each argv from_kmem .user n p offset pag) (fun r k' => Copies others k0 k k' ∧
      k'.fs = .user ∧ (r = 0 ∧ k'.Full ∨ ∃ ss, CopiedStrings src ptr n p k k' r ss))
      (fun e _ => e = .outside → ∀ ss, ss.length = n → Strings src ptr ss → p < size ss) k := by
  induction n generalizing k p offset pag with
  | zero =>
    rw [copy_each]
    have hdone : ∃ ss, CopiedStrings src ptr 0 p k { k with fs := .user } p ss :=
      ⟨[], rfl, Strings.nil, rfl, trivial, fun _ _ => rfl, fun _ _ => rfl, fun o h h' => by omega⟩
    by_cases hkmem : from_kmem = 2
    · simp only [if_pos hkmem]
      exact ⟨(Copies.refl F).set_fs .user, rfl, .inr hdone⟩
    · simp only [if_neg hkmem]
      have huser : k.fs = .user := by rw [hfs, stringFs, if_neg hkmem]
      refine ⟨Copies.refl F, huser, .inr ?_⟩
      rwa [show ({ k with fs := .user } : Kernel) = k by rw [← huser]] at hdone
  | succ n ih =>
    rw [copy_each]
    have hstep : ∀ k1, Copies others k0 k k1 → k1.fs = stringFs from_kmem → k1.area = k.area → ptr n ≠ 0 →
        wp (copy_one argv from_kmem (ptr n) n p offset pag) (fun r k' => Copies others k0 k k' ∧
            k'.fs = .user ∧ (r = 0 ∧ k'.Full ∨ ∃ ss, CopiedStrings src ptr (n + 1) p k k' r ss))
          (fun e _ => e = .outside → ∀ ss, ss.length = n + 1 → Strings src ptr ss →
            p < size ss) k1 := by
      intro k1 hcopies1 hfs1 harea1 hne
      have hview1 := hcopies1.view F (hfs1.trans hfs.symm)
      rw [copy_one, wp_bind]
      refine wp_mono (wp_string_len hcopies1.filling.books _ _) ?_ fun e _ hstop he => absurd he hstop
      rintro len k2 ⟨⟨s, hs, rfl⟩, hreads⟩
      rw [hview1, hsrc] at hs
      have hcopies2 := hcopies1.trans (Copies.reads hcopies1.filling hreads)
      have hfs2 : k2.fs = stringFs from_kmem := by rw [hreads.rest.fs, hfs1]
      have hview2 := hcopies2.view F (hfs2.trans hfs.symm)
      have harea2 : k2.area = k.area := by rw [hreads.area hcopies1.filling.books, harea1]
      rw [not_tooLong, wp_ite]
      refine ⟨(fun h => by cases h), fun _ => ?_⟩
      rw [wp_bind]
      refine wp_mono (wp_copy_bytes hcopies2.filling hp (hpos.kept hcopies2.kept) hfs2
        (hview2.trans hsrc) (by omega)) ?_ ?_
      · rintro r k3 ⟨hcopies3, hnone, hsome⟩
        replace hcopies3 := hcopies2.trans hcopies3
        rcases r with _ | ⟨p1, offset1, pag1⟩
        · exact ⟨hcopies3, (hnone rfl).1, .inl ⟨rfl, (hnone rfl).2⟩⟩
        · have hbytes := hsome p1 offset1 pag1 rfl
          have hroom := hbytes.room
          have hend := hbytes.end_at
          have hfs3 : k3.fs = stringFs from_kmem := by rw [hbytes.fs, hfs2]
          have hview3 := hcopies3.view F (hfs3.trans hfs.symm)
          have hbytes' : CopiedBytes src p (ptr n + (s.length + 1)) (s.length + 1) k k3 p1 offset1 pag1 :=
            { hbytes with fs := hfs3.trans hfs.symm, area := by rw [hbytes.area, harea2] }
          refine wp_mono (ih (by rw [hcopies3.table F, hptr]) hcopies3.filling (by omega) hbytes.pos hfs3
            (hview3.trans hsrc)) ?_ ?_
          · rintro r k4 ⟨hcopies4, hfs4, hss⟩
            refine ⟨hcopies3.trans hcopies4, hfs4, hss.imp_right fun ⟨ss, hss⟩ => ?_⟩
            exact ⟨ss ++ [s], hss.snoc hne hs hbytes' hcopies4.kept⟩
          · intro e _ hout he ss hlen hss
            obtain ⟨ts, rfl, hlen', hts⟩ := hss.last hlen hs
            have hlt := hout he ts hlen' hts
            rw [size_append, size_cons, size_nil]
            omega
      · intro e _ hout he ss hlen hss
        obtain ⟨ts, rfl, -, -⟩ := hss.last hlen hs
        have hlt := hout he
        rw [size_append, size_cons, size_nil]
        omega
    by_cases hkmem : from_kmem = 1
    · have huser : k.fs = .user := by rw [hfs, stringFs, if_neg (by omega)]
      simp only [if_pos hkmem]
      have hcopies0 := (Copies.refl F).set_fs .kernel
      have hview0 : Kernel.view { k with fs := .kernel } = k.table from_kmem := by
        rw [Kernel.table, if_pos (.inl hkmem)]
        rfl
      rw [wp_bind, wp_set_fs, wp_bind]
      refine wp_mono (wp_get_pointer hcopies0.filling.books n) ?_ fun e _ hstop he => absurd he hstop
      rintro _ k1 ⟨rfl, hreads⟩
      rw [hview0, hptr, wp_ite]
      refine ⟨(fun _ he => by cases he), fun hne => ?_⟩
      rw [wp_bind, wp_set_fs]
      have hcopies1 := hcopies0.trans (Copies.reads hcopies0.filling hreads)
      refine hstep _ (hcopies1.set_fs .user) ?_ (hreads.area hcopies0.filling.books) hne
      rw [← hfs, huser]
    · simp only [if_neg hkmem]
      have hview0 : k.view = k.table from_kmem := by
        rw [Kernel.view, Kernel.table, hfs, stringFs]
        by_cases htwo : from_kmem = 2
        · rw [if_pos htwo, if_pos (.inr htwo)]
        · rw [if_neg htwo, if_neg (not_or.2 ⟨hkmem, htwo⟩)]
      rw [wp_bind]
      refine wp_mono (wp_get_pointer F.books n) ?_ fun e _ hstop he => absurd he hstop
      rintro _ k1 ⟨rfl, hreads⟩
      rw [hview0, hptr, wp_ite]
      refine ⟨(fun _ he => by cases he), fun hne => ?_⟩
      exact hstep k1 (Copies.reads F hreads) (by rw [hreads.rest.fs, hfs]) (hreads.area F.books) hne

/-- What `copy_strings` reads. -/
def Kernel.source (k : Kernel) (from_kmem : ℕ) : Space := if from_kmem = 2 then k.kspace else k.user

theorem wp_copy_strings {argv : Argv} {argc : ℤ} (F : Filling others k0 k) (hp : p ≤ 131072)
    (hfs : k.fs = .user) :
    wp (copy_strings argc argv p from_kmem) (fun r k' => Copies others k0 k k' ∧ k'.fs = .user ∧
      (r = 0 ∧ (p = 0 ∨ k'.Full) ∨ ∃ ss,
        CopiedStrings (k.source from_kmem) (argv.ptr (k.table from_kmem)) argc.toNat p k k' r ss))
      (fun e _ => e = .outside → ∀ ss, ss.length = argc.toNat →
        Strings (k.source from_kmem) (argv.ptr (k.table from_kmem)) ss → p < size ss) k := by
  rw [copy_strings, wp_ite]
  refine ⟨fun hzero => ⟨Copies.refl F, hfs, .inl ⟨rfl, .inl hzero⟩⟩, fun _ => ?_⟩
  rw [wp_bind, wp_get]
  by_cases hkmem : from_kmem = 2
  · simp only [if_pos hkmem]
    rw [wp_bind, wp_set_fs, hfs]
    have hcopies := (Copies.refl F).set_fs .kernel
    have hsource : k.source from_kmem = k.kspace := if_pos hkmem
    have htable : argv.ptr (Kernel.table { k with fs := .kernel } from_kmem) = argv.ptr (k.table from_kmem) :=
      rfl
    refine wp_mono (wp_copy_each htable hcopies.filling hp (.inl rfl) (if_pos hkmem).symm rfl) ?_ ?_
    · rintro r k' ⟨hcopies', hfs', hss⟩
      rw [hsource]
      refine ⟨hcopies.trans hcopies', hfs', hss.imp (fun h => ⟨h.1, .inr h.2⟩) fun ⟨ss, hss⟩ => ?_⟩
      exact ⟨ss, { hss with }⟩
    · intro e k' h
      rwa [hsource]
  · simp only [if_neg hkmem]
    have hview : k.view = k.source from_kmem := by
      rw [Kernel.view, hfs, Kernel.source, if_neg hkmem]
    have hfs' : k.fs = stringFs from_kmem := by rw [hfs, stringFs, if_neg hkmem]
    have htable : argv.ptr (k.table from_kmem) = argv.ptr (k.table from_kmem) := rfl
    have heach := wp_copy_each (n := argc.toNat) htable F hp (.inl rfl : Pos k p 0 0) hfs' hview
    rw [hfs]
    refine wp_mono heach (fun r k' h => ⟨h.1, h.2.1, ?_⟩) fun _ _ h => h
    exact h.2.2.imp_left fun h => ⟨h.1, .inr h.2⟩

end OldLinux.Exec
