import OldLinux.Exec.Execve

/-!
# A string that runs past the beginning of the area

While the pages that are read are in memory and there is a free frame for each page of the area, no call of
`copy_strings` ends for want of memory: it copies the strings byte for byte, or ends outside of the array
`page` when they are longer than what is left of the area.  So a call of `do_execve` that comes to its
strings ends there if they have no room.
-/

namespace OldLinux.Exec

open Function Lib

variable {others : ℕ → ℕ} {k0 k k' : Kernel} {x : Answers} {a : Args} {argv : Argv}
  {argc offset : ℤ} {src : Space}
variable {ptr : ℕ → ℕ} {ss args env : List (List ℕ)} {groups : List (List (List ℕ))} {s name : List ℕ}
variable {inode : Inode} {b : ℕ × Space} {n p tmp len pag v from_kmem : ℕ}

/-! ### Reading pages that are there -/

theorem wp_get_fs_byte_there {Q : ℕ → Kernel → Prop} {E : Trap → Kernel → Prop} (hfs : k.fs = .user)
    (h : k.There v) : wp (get_fs_byte v) Q E k ↔ Q (k.user v) k := by
  obtain ⟨hlt, hpage⟩ := h
  obtain ⟨f, hf⟩ := Option.ne_none_iff_exists'.1 hpage
  have htouch : touch v k = .ok () k := by
    have hnot : ¬k.task.data_limit ≤ v := Nat.not_le.2 hlt
    show (if k.task.data_limit ≤ v then throw Trap.killed else (_ : ExecM Unit)) k = _
    rw [if_neg hnot, hf]
    rfl
  rw [get_fs_byte, wp_bind, wp_get, hfs]
  show wp (touch v >>= fun _ => get >>= fun k => pure (k.user v)) Q E k ↔ _
  rw [wp_bind, wp_of_ok htouch]
  exact Iff.rfl

/-- The byte can be read where `fs` is: in the kernel, or in a page that is there. -/
def Kernel.Seen (k : Kernel) (v : ℕ) : Prop := k.fs = .user → k.There v

theorem wp_get_fs_byte_seen {Q : ℕ → Kernel → Prop} {E : Trap → Kernel → Prop} (h : k.Seen v) :
    wp (get_fs_byte v) Q E k ↔ Q (k.view v) k := by
  cases hfs : k.fs with
  | user =>
    rw [wp_get_fs_byte_there hfs (h hfs), Kernel.view, hfs]
  | kernel =>
    rw [get_fs_byte, wp_bind, wp_get, Kernel.view, hfs]
    exact Iff.rfl

theorem wp_get_fs_long_seen {Q : ℕ → Kernel → Prop} {E : Trap → Kernel → Prop}
    (h : ∀ i < 4, k.Seen (v + i)) : wp (get_fs_long v) Q E k ↔ Q (long k.view v) k := by
  have h0 : k.Seen v := h 0 (by decide)
  rw [get_fs_long, wp_bind, wp_get_fs_byte_seen h0, wp_bind, wp_get_fs_byte_seen (h 1 (by decide)), wp_bind,
    wp_get_fs_byte_seen (h 2 (by decide)), wp_bind, wp_get_fs_byte_seen (h 3 (by decide)), wp_pure]
  exact Iff.rfl

theorem wp_string_len_seen {Q : ℕ → Kernel → Prop} {E : Trap → Kernel → Prop} (hs : CString k.view v s)
    (hseen : ∀ i ≤ s.length, k.Seen (v + i)) (hn : s.length < n) (hQ : Q (s.length + 1) k) :
    wp (string_len n v) Q E k := by
  induction s generalizing v n Q with
  | nil =>
    obtain ⟨n, rfl⟩ := Nat.exists_eq_succ_of_ne_zero (Nat.ne_of_gt hn)
    have hfirst : k.Seen v := hseen 0 (Nat.le_refl 0)
    rw [string_len, wp_bind, wp_get_fs_byte_seen hfirst, wp_ite]
    exact ⟨fun _ => hQ, fun h => absurd hs h⟩
  | cons c s ih =>
    obtain ⟨n, rfl⟩ := Nat.exists_eq_succ_of_ne_zero (show n ≠ 0 from fun h => by omega)
    rw [List.length_cons] at hn hseen hQ
    have hfirst : k.Seen v := hseen 0 (Nat.zero_le _)
    rw [string_len, wp_bind, wp_get_fs_byte_seen hfirst, wp_ite]
    refine ⟨fun h => absurd (hs.2.1.symm.trans h) hs.1, fun _ => ?_⟩
    rw [wp_bind]
    refine ih hs.2.2 (fun i hi => ?_) (by omega) hQ
    have hnext := hseen (i + 1) (by omega)
    rwa [← Nat.add_assoc, Nat.add_right_comm] at hnext

/-! ### Free frames -/

/-- How many frames are free. -/
def Kernel.free (k : Kernel) : ℕ := countIn (Finset.Ico 256 4096) fun f => k.mem_map f = 0

theorem free_take {f : ℕ} (hf : 256 ≤ f) (hlt : f < 4096) (h : k.mem_map f = 0) :
    (k.take f).free + 1 = k.free := by
  have hex := countIn_exchange (P := fun g => k.mem_map g = 0)
    (Q := fun g => (k.take f).mem_map g = 0) (Finset.mem_Ico.2 ⟨hf, hlt⟩)
    (fun g _ hg => by
      show k.mem_map g = 0 ↔ update k.mem_map f 1 g = 0
      rw [update_of_ne hg])
  have hone : ¬(k.take f).mem_map f = 0 := by
    show ¬update k.mem_map f 1 f = 0
    rw [update_self]
    exact Nat.one_ne_zero
  rw [if_pos h, if_neg hone] at hex
  rw [Kernel.free, Kernel.free]
  omega

theorem wp_get_free_page_there {Q : Option ℕ → Kernel → Prop} {E : Trap → Kernel → Prop} (hfree : 0 < k.free)
    (hsome : ∀ f, 256 ≤ f → f < 4096 → k.mem_map f = 0 → Q (some f) (k.take f)) :
    wp get_free_page Q E k := by
  refine wp_get_free_page (fun hfull => ?_) hsome
  have hzero : k.free = 0 := countIn_eq_zero.2 fun f hf => by
    rw [Finset.mem_Ico] at hf
    exact hfull f hf.1 hf.2
  omega

/-! ### Enough free frames -/

/-- There is a free frame for each page that the area does not have yet. -/
def Kernel.Supplied (k : Kernel) : Prop := countIn (Finset.range 32) (fun i => k.page i = none) ≤ k.free

theorem supplied_of_free (h : 32 ≤ k.free) : k.Supplied := by
  refine (Finset.card_filter_le _ _).trans ?_
  rwa [Finset.card_range]

/-- The pages of the task and what it may read are the same. -/
structure Stays (k k' : Kernel) : Prop where
  pte : k'.pte = k.pte
  task : k'.task = k.task

theorem Stays.refl (k : Kernel) : Stays k k := ⟨rfl, rfl⟩

theorem Stays.trans {k'' : Kernel} (h : Stays k k') (h' : Stays k' k'') : Stays k k'' :=
  ⟨h'.pte.trans h.pte, h'.task.trans h.task⟩

theorem Stays.seen (h : Stays k k') (hfs : k'.fs = k.fs) (hv : k.Seen v) : k'.Seen v := by
  intro huser
  obtain ⟨h1, h2⟩ := hv (hfs ▸ huser)
  exact ⟨by rw [h.task]; exact h1, by rw [h.pte]; exact h2⟩

theorem wp_arg_page_supplied {Q : Option ℕ → Kernel → Prop} {E : Trap → Kernel → Prop} (hp : p < 131072)
    (hsup : k.Supplied) (hQ : ∀ f k', k'.fs = k.fs → Stays k k' → k'.Supplied → Q (some f) k') :
    wp (arg_page p) Q E k := by
  have hi : p / PAGE_SIZE < 32 := by
    rw [PAGE_SIZE]
    omega
  rw [arg_page, wp_bind, wp_get, wp_ite]
  refine ⟨fun h => absurd h (Nat.not_le.2 hi), fun _ => ?_⟩
  split
  · exact hQ _ k rfl (Stays.refl k) hsup
  · rename_i hnone
    have hmissing : 0 < countIn (Finset.range 32) fun i => k.page i = none :=
      countIn_pos (Finset.mem_range.2 hi) hnone
    rw [wp_bind]
    refine wp_get_free_page_there (hmissing.trans_le hsup) fun f hf hlt hzero => ?_
    have hcount := free_take hf hlt hzero
    rw [wp_bind, wp_modify, wp_pure]
    refine hQ f _ rfl ⟨rfl, rfl⟩ ?_
    -- one page less is missing, and one frame less is free
    have hex := countIn_exchange (P := fun i => k.page i = none)
      (Q := fun i => update k.page (p / PAGE_SIZE) (some f) i = none) (Finset.mem_range.2 hi)
      (fun i _ hne => by rw [update_of_ne hne])
    rw [if_pos hnone, if_neg (by rw [update_self]; exact Option.some_ne_none f)] at hex
    show countIn (Finset.range 32) (fun i => update k.page (p / PAGE_SIZE) (some f) i = none) ≤ (k.take f).free
    rw [Kernel.Supplied] at hsup
    omega

/-! ### The bytes of a string -/

/-- The bytes of a string are copied, or the copy ends outside of the array. -/
theorem wp_copy_bytes_supplied (hfs : k.fs = stringFs from_kmem) (hp : p < 131072) (htmp : len ≤ tmp)
    (hread : ∀ v, tmp - len ≤ v → v < tmp → k.Seen v) (hpos : offset = 0 ∨ offset = (p % PAGE_SIZE : ℕ))
    (hsup : k.Supplied) :
    wp (copy_bytes from_kmem .user len p tmp offset pag) (fun r k' => Stays k k' ∧ k'.Supplied ∧ r ≠ none)
      (fun e _ => e = .outside ∧ p < len) k := by
  induction len generalizing k p tmp offset pag with
  | zero => exact ⟨Stays.refl k, hsup, Option.some_ne_none _⟩
  | succ len ih =>
    rw [copy_bytes]
    -- after the byte at `p - 1`, with its page
    have hnext : ∀ k1 off pag1 (o : ℤ), 0 < p → k1.fs = stringFs from_kmem → Stays k k1 →
        o = ((p - 1) % PAGE_SIZE : ℕ) → k1.Supplied →
        wp (do
          let c ← get_fs_byte (tmp - 1)
          modify fun k => k.store pag1 off c
          copy_bytes from_kmem .user len (p - 1) (tmp - 1) o pag1)
          (fun r k' => Stays k k' ∧ k'.Supplied ∧ r ≠ none) (fun e _ => e = .outside ∧ p < len + 1) k1 := by
      intro k1 off pag1 o hpos hfs1 hstays ho hsup1
      have hseen : ∀ v, k.Seen v → k1.Seen v := fun v => hstays.seen (hfs1.trans hfs.symm)
      rw [wp_bind, wp_get_fs_byte_seen (hseen _ (hread _ (by omega) (by omega))), wp_bind, wp_modify]
      have hstored : Kernel.Supplied (k1.store pag1 off (k1.view (tmp - 1))) := hsup1
      refine wp_mono (ih hfs1 (by omega) (by omega) (fun v hge hlt => ?_) (.inr ho) hstored) ?_ ?_
      · exact hseen v (hread v (by omega) (by omega))
      · rintro r k' ⟨hstays', h⟩
        exact ⟨hstays.trans ⟨hstays'.pte, hstays'.task⟩, h⟩
      · rintro e _ ⟨he, hlt⟩
        exact ⟨he, by omega⟩
    -- a page for the byte at `p - 1`
    have hpage : ∀ k1, Stays k k1 → k1.Supplied →
        wp (arg_page ((p + 0xffffffff) % 2 ^ 32)) (fun r k2 => ∃ f, r = some f ∧ 0 < p ∧
          (p + 0xffffffff) % 2 ^ 32 = p - 1 ∧ k2.fs = k1.fs ∧ Stays k k2 ∧ k2.Supplied)
          (fun e _ => e = .outside ∧ p < len + 1) k1 := by
      intro k1 hstays hsup1
      by_cases hp0 : p = 0
      · rw [hp0, arg_page, wp_bind, wp_get, wp_ite]
        exact ⟨fun _ => ⟨rfl, Nat.succ_pos len⟩, fun h => absurd (show MAX_ARG_PAGES ≤ _ by decide) h⟩
      · have hdec : (p + 0xffffffff) % 2 ^ 32 = p - 1 := by omega
        rw [hdec]
        refine wp_arg_page_supplied (by omega) hsup1 fun f k2 hfs2 hstays2 hsup2 => ?_
        exact ⟨f, rfl, by omega, rfl, hfs2, hstays.trans hstays2, hsup2⟩
    rw [wp_ite]
    constructor
    · intro hneg
      by_cases hkmem : from_kmem = 2
      · subst hkmem
        simp only [if_true]
        rw [wp_bind, wp_set_fs, wp_bind]
        refine wp_mono (hpage _ ⟨rfl, rfl⟩ hsup) ?_ fun _ _ h => h
        rintro _ k2 ⟨f, rfl, hpos', hdec, -, hstays, hsup2⟩
        rw [hdec]
        show wp (set_fs .kernel >>= _) _ _ _
        rw [wp_bind, wp_set_fs]
        exact hnext _ _ f _ hpos' rfl ⟨hstays.pte, hstays.task⟩ rfl hsup2
      · simp only [if_neg hkmem]
        rw [wp_bind]
        refine wp_mono (hpage k (Stays.refl k) hsup) ?_ fun _ _ h => h
        rintro _ k2 ⟨f, rfl, hpos', hdec, hfs2, hstays, hsup2⟩
        rw [hdec]
        exact hnext k2 _ f _ hpos' (hfs2.trans hfs) hstays rfl hsup2
    · intro hnonneg
      rcases hpos with h | h
      · omega
      · rw [PAGE_SIZE] at h
        have hdec : (p + 0xffffffff) % 2 ^ 32 = p - 1 := by omega
        rw [hdec]
        exact hnext k _ pag _ (by omega) hfs (Stays.refl k) (by rw [PAGE_SIZE]; omega) hsup

/-! ### The strings of a table -/

/-- What `copy_strings` reads can be read: the pointers if they are in a table of the task, and the
strings unless they are in the kernel. -/
structure Readable (k : Kernel) (from_kmem : ℕ) (argv : Argv) (ptr : ℕ → ℕ) (ss : List (List ℕ)) : Prop where
  table : ¬(from_kmem = 1 ∨ from_kmem = 2) → ∀ a, argv = .table a → ∀ i < 4 * ss.length, k.There (a + i)
  strings : from_kmem ≠ 2 → ∀ n s, ss[n]? = some s → ∀ i ≤ s.length, k.There (ptr n + i)
  short : ∀ s ∈ ss, s.length < addresses

theorem Readable.stays (h : Readable k from_kmem argv ptr (ss ++ [s])) (hstays : Stays k k') :
    Readable k' from_kmem argv ptr ss := by
  have hthere : ∀ v, k.There v → k'.There v := fun v hv =>
    ⟨by rw [hstays.task]; exact hv.1, by rw [hstays.pte]; exact hv.2⟩
  refine ⟨fun hkmem a ha i hi => ?_, fun hkmem n t ht i hi => ?_, fun t ht => ?_⟩
  · refine hthere _ (h.table hkmem a ha i ?_)
    rw [List.length_append]
    omega
  · refine hthere _ (h.strings hkmem n t ?_ i hi)
    rw [List.getElem?_append_left (List.getElem?_eq_some_iff.1 ht).1]
    exact ht
  · exact h.short t (List.mem_append_left _ ht)

theorem wp_get_pointer_seen {Q : ℕ → Kernel → Prop} {E : Trap → Kernel → Prop}
    (h : ∀ a, argv = .table a → ∀ i < 4, k.Seen (a + 4 * n + i)) :
    wp (argv.get_pointer n) Q E k ↔ Q (argv.ptr k.view n) k := by
  cases argv with
  | table a => exact wp_get_fs_long_seen (h a rfl)
  | pointer v => exact Iff.rfl

theorem wp_copy_each_supplied (hptr : argv.ptr (k.table from_kmem) = ptr) (F : Filling others k0 k)
    (hp : p < 131072) (hpos : Pos k p offset pag) (hsup : k.Supplied)
    (hfs : k.fs = stringFs from_kmem) (hsrc : k.view = src) (hlen : ss.length = n)
    (hss : Strings src ptr ss) (hread : Readable k from_kmem argv ptr ss) :
    wp (copy_each argv from_kmem .user n p offset pag)
      (fun r k' => Stays k k' ∧ k'.Supplied ∧ size ss ≤ p ∧ r = p - size ss) (fun e _ => e = .outside) k := by
  induction n generalizing k p offset pag ss with
  | zero =>
    rw [copy_each, List.eq_nil_of_length_eq_zero hlen]
    by_cases hkmem : from_kmem = 2
    · simp only [if_pos hkmem]
      exact ⟨⟨rfl, rfl⟩, hsup, Nat.zero_le p, rfl⟩
    · simp only [if_neg hkmem]
      exact ⟨Stays.refl k, hsup, Nat.zero_le p, rfl⟩
  | succ n ih =>
    obtain ⟨ts, s, rfl⟩ : ∃ ts s, ss = ts ++ [s] := by
      rcases List.eq_nil_or_concat ss with rfl | ⟨ts, t, rfl⟩
      · cases hlen
      · exact ⟨ts, t, List.concat_eq_append⟩
    have hlen' : ts.length = n := by
      rw [List.length_append, List.length_singleton] at hlen
      omega
    obtain ⟨hts, hne, hs⟩ := Strings.snoc.1 hss
    rw [hlen'] at hne hs
    have hlast : (ts ++ [s])[n]? = some s := by rw [← hlen', List.getElem?_concat_length]
    have hshort : s.length < addresses := hread.short s (List.mem_append_right _ List.mem_cons_self)
    have hthere : k.fs = .user → ∀ i ≤ s.length, k.There (ptr n + i) := by
      intro huser
      refine hread.strings (fun hkmem => ?_) n s hlast
      rw [hfs, stringFs, if_pos hkmem] at huser
      cases huser
    rw [copy_each]
    -- from the pointer on
    have hstep : wp (copy_one argv from_kmem (ptr n) n p offset pag) (fun r k' => Stays k k' ∧ k'.Supplied ∧
        size (ts ++ [s]) ≤ p ∧ r = p - size (ts ++ [s])) (fun e _ => e = .outside) k := by
      rw [copy_one, wp_bind]
      refine wp_string_len_seen (hsrc ▸ hs) (fun i hi huser => hthere huser i hi) hshort ?_
      rw [not_tooLong, wp_ite]
      refine ⟨(fun h => by cases h), fun _ => ?_⟩
      rw [wp_bind]
      have hcopy : wp (copy_bytes from_kmem .user (s.length + 1) p (ptr n + (s.length + 1)) offset pag) _ _ k :=
        wp_copy_bytes F (by omega) hpos hfs hsrc (by omega)
      have hmem : wp (copy_bytes from_kmem .user (s.length + 1) p (ptr n + (s.length + 1)) offset pag) _ _ k :=
        wp_copy_bytes_supplied hfs hp (by omega) (fun v hge hlt huser => ?_) (hpos.imp_right And.left) hsup
      · refine wp_mono (wp_and hcopy hmem) ?_ fun e _ h => h.2.1
        rintro r k3 ⟨⟨hcopies3, -, hsome⟩, hstays, hsup3, hr⟩
        obtain ⟨⟨p', offset', pag'⟩, rfl⟩ := Option.ne_none_iff_exists'.1 hr
        have hbytes := hsome p' offset' pag' rfl
        have hin := hbytes.room
        have hend := hbytes.end_at
        have hfs3 : k3.fs = stringFs from_kmem := by rw [hbytes.fs, hfs]
        have hview3 := hcopies3.view F (hfs3.trans hfs.symm)
        refine wp_mono (ih (by rw [hcopies3.table F, hptr]) hcopies3.filling (by omega) hbytes.pos hsup3 hfs3
          (hview3.trans hsrc) hlen' hts (hread.stays hstays)) ?_ fun _ _ h => h
        rintro r k4 ⟨hstays4, hsup4, hle, rfl⟩
        rw [size_append, size_cons, size_nil]
        exact ⟨hstays.trans hstays4, hsup4, by omega, by omega⟩
      · have h := hthere huser (v - ptr n) (by omega)
        rwa [show ptr n + (v - ptr n) = v from by omega] at h
    by_cases hkmem : from_kmem = 1
    · have huser : k.fs = .user := by rw [hfs, stringFs, if_neg (by omega)]
      have hview0 : Kernel.view { k with fs := .kernel } = k.table from_kmem := by
        rw [Kernel.table, if_pos (.inl hkmem)]
        rfl
      simp only [if_pos hkmem]
      have hseen : ∀ a, argv = .table a → ∀ i < 4, Kernel.Seen { k with fs := .kernel } (a + 4 * n + i) :=
        fun _ _ _ _ h => by cases h
      rw [wp_bind, wp_set_fs, wp_bind, wp_get_pointer_seen hseen, hview0, hptr, wp_ite]
      refine ⟨fun h => absurd h hne, fun _ => ?_⟩
      rw [wp_bind, wp_set_fs]
      have hback : ({ ({ k with fs := .kernel } : Kernel) with fs := .user } : Kernel) = k := by rw [← huser]
      rw [hback]
      exact hstep
    · have hview0 : k.view = k.table from_kmem := by
        rw [Kernel.view, Kernel.table, hfs, stringFs]
        by_cases htwo : from_kmem = 2
        · rw [if_pos htwo, if_pos (.inr htwo)]
        · rw [if_neg htwo, if_neg (not_or.2 ⟨hkmem, htwo⟩)]
      simp only [if_neg hkmem]
      rw [wp_bind, wp_get_pointer_seen fun a ha i hi huser => ?_, hview0, hptr, wp_ite]
      · exact ⟨fun h => absurd h hne, fun _ => hstep⟩
      · have htwo : from_kmem ≠ 2 := by
          rintro rfl
          rw [hfs] at huser
          cases huser
        rw [Nat.add_assoc]
        refine hread.table (not_or.2 ⟨hkmem, htwo⟩) a ha _ ?_
        rw [hlen]
        omega

theorem wp_copy_strings_supplied (F : Filling others k0 k) (hp : p < 131072) (hfs : k.fs = .user)
    (hlen : ss.length = argc.toNat)
    (hss : Strings (k.source from_kmem) (argv.ptr (k.table from_kmem)) ss)
    (hread : Readable k from_kmem argv (argv.ptr (k.table from_kmem)) ss) (hsup : k.Supplied) :
    wp (copy_strings argc argv p from_kmem) (fun r k' => Stays k k' ∧ k'.Supplied ∧
      (p = 0 ∧ r = 0 ∨ size ss ≤ p ∧ r = p - size ss)) (fun e _ => p ≠ 0 ∧ e = .outside) k := by
  by_cases hp0 : p = 0
  · rw [copy_strings, if_pos hp0, wp_pure]
    exact ⟨Stays.refl k, hsup, .inl ⟨hp0, rfl⟩⟩
  rw [copy_strings, if_neg hp0, wp_bind, wp_get, hfs]
  by_cases hkmem : from_kmem = 2
  · simp only [if_pos hkmem]
    rw [wp_bind, wp_set_fs]
    have hcopies := (Copies.refl F).set_fs .kernel
    have htable : argv.ptr (Kernel.table { k with fs := .kernel } from_kmem) = argv.ptr (k.table from_kmem) :=
      rfl
    have hsource : k.source from_kmem = k.kspace := if_pos hkmem
    rw [hsource] at hss
    refine wp_mono (wp_copy_each_supplied htable hcopies.filling hp (.inl rfl) hsup
      (if_pos hkmem).symm rfl hlen hss
      ⟨hread.table, hread.strings, hread.short⟩) ?_ fun _ _ h => ⟨hp0, h⟩
    rintro r k' ⟨hstays, h⟩
    exact ⟨⟨hstays.pte, hstays.task⟩, h.1, .inr h.2⟩
  · simp only [if_neg hkmem]
    have hview : k.view = k.source from_kmem := by
      rw [Kernel.view, hfs, Kernel.source, if_neg hkmem]
    have hfs' : k.fs = stringFs from_kmem := by rw [hfs, stringFs, if_neg hkmem]
    have htable : argv.ptr (k.table from_kmem) = argv.ptr (k.table from_kmem) := rfl
    refine wp_mono (wp_copy_each_supplied htable F hp (.inl rfl) hsup hfs' hview hlen hss hread) ?_
      fun _ _ h => ⟨hp0, h⟩
    exact fun r k' h => ⟨h.1, h.2.1, .inr h.2.2⟩

/-! ### The strings of a call -/

/-- A call that began in `k0` has read what is there, and has the frames that it needs. -/
structure Ample (others : ℕ → ℕ) (k0 k : Kernel) : Prop where
  filling : Filling others k0 k
  stays : Stays k0 k
  supplied : k.Supplied
  fs : k.fs = .user

theorem Ample.there (A : Ample others k0 k) (h : k0.There v) : k.There v :=
  ⟨by rw [A.stays.task]; exact h.1, by rw [A.stays.pte]; exact h.2⟩

theorem Ample.source (A : Ample others k0 k) : k.source 0 = k0.user ∧ k.source 1 = k0.user := by
  rw [Kernel.source, if_neg (by decide), Kernel.source, if_neg (by decide), A.filling.user]
  exact ⟨rfl, rfl⟩

/-- References and the buffer of a script play no part. -/
theorem Ample.refs (A : Ample others k0 k) (ic bc : ℕ → ℕ) (buf : Space) :
    Ample others k0 { k with i_count := ic, b_count := bc, buf := buf } where
  filling := ⟨A.filling.start, A.filling.empty, { A.filling.books with }, { A.filling.loads with }⟩
  stays := ⟨A.stays.pte, A.stays.task⟩
  supplied := A.supplied
  fs := A.fs

theorem not_room_next {r : ℕ} (hno : ¬RoomBelow p (ss :: groups))
    (h : p = 0 ∧ r = 0 ∨ size ss ≤ p ∧ r = p - size ss) : ¬RoomBelow r groups := by
  intro hroom
  rcases h with ⟨hzero, -⟩ | ⟨hle, rfl⟩
  · exact hno (.inl hzero)
  · exact hno (.inr ⟨hle, hroom⟩)

/-- What is left to do ends outside, as these groups have no room. -/
def EndsOutside (others : ℕ → ℕ) (k0 k : Kernel) (groups : List (List (List ℕ))) (rest : ℕ → ExecM ℤ)
    (Q : ℤ → Kernel → Prop) : Prop :=
  ∀ r k', Ample others k0 k' → k'.buf = k.buf → r ≤ 131068 → ¬RoomBelow r groups →
    wp (rest r) Q (fun e _ => e = .outside) k'

/-- A call of `copy_strings`, of groups that have no room. -/
theorem Ample.copy {rest : ℕ → ExecM ℤ} {Q : ℤ → Kernel → Prop} (A : Ample others k0 k) (hp : p ≤ 131068)
    (hlen : ss.length = argc.toNat)
    (hss : Strings (k.source from_kmem) (argv.ptr (k.table from_kmem)) ss)
    (hread : Readable k from_kmem argv (argv.ptr (k.table from_kmem)) ss) (hno : ¬RoomBelow p (ss :: groups))
    (hrest : EndsOutside others k0 k groups rest Q) :
    wp (copy_strings argc argv p from_kmem >>= rest) Q (fun e _ => e = .outside) k := by
  have hspec : wp (copy_strings argc argv p from_kmem) _ _ k :=
    wp_copy_strings A.filling (show p ≤ 131072 by omega) A.fs
  rw [wp_bind]
  refine wp_mono (wp_and hspec (wp_copy_strings_supplied A.filling (by omega) A.fs hlen hss hread A.supplied))
    ?_
    fun _ _ h => h.2.2
  rintro r k' ⟨⟨hcopies, hfs', -⟩, hstays, hsup, hr⟩
  exact hrest r k' ⟨hcopies.filling, A.stays.trans hstays, hsup, hfs'⟩ hcopies.buf (by omega)
    (not_room_next hno hr)

/-- A table of the caller and its strings are in memory. -/
structure InMemory (k : Kernel) (v : ℕ) (ss : List (List ℕ)) : Prop where
  table : v ≠ 0 → ∀ i < 4 * (ss.length + 1), k.There (v + i)
  strings : ∀ n s, ss[n]? = some s → ∀ i ≤ s.length, k.There (pointers k.user v n + i)
  short : ∀ s ∈ ss, s.length < addresses
  few : ss.length < addresses

theorem Caller.ne_zero {m : Space} (C : Caller m v ss) (hne : ss ≠ []) : v ≠ 0 :=
  C.elim (fun h => absurd h.2 hne) And.left

theorem Caller.strings {m : Space} (C : Caller m v ss) : Strings m (pointers m v) ss := by
  rcases C with ⟨-, rfl⟩ | ⟨-, h, -⟩
  · exact Strings.nil
  · exact h

theorem Ample.table (A : Ample others k0 k) (v : ℕ) : (Argv.table v).ptr (k.table 0) = pointers k0.user v := by
  rw [Kernel.table, if_neg (by decide), A.filling.user]
  rfl

theorem Ample.copy_table {rest : ℕ → ExecM ℤ} {Q : ℤ → Kernel → Prop} (A : Ample others k0 k) (hp : p ≤ 131068)
    (C : Caller k0.user v ss) (I : InMemory k0 v ss) (hno : ¬RoomBelow p (ss :: groups))
    (hrest : EndsOutside others k0 k groups rest Q) :
    wp (copy_strings ss.length (.table v) p 0 >>= rest) Q (fun e _ => e = .outside) k := by
  refine A.copy hp (Int.toNat_natCast _).symm ?_
    ⟨fun _ a ha i hi => ?_, fun _ n s hs i hi => ?_, I.short⟩ hno hrest
  · rw [A.source.1, A.table]
    exact C.strings
  · cases ha
    refine A.there (I.table (C.ne_zero ?_) i (by omega))
    rintro rfl
    exact absurd hi (Nat.not_lt_zero i)
  · rw [A.table]
    exact A.there (I.strings n s hs i hi)

/-- The strings after the first one. -/
theorem Ample.copy_tail {rest : ℕ → ExecM ℤ} {Q : ℤ → Kernel → Prop} (A : Ample others k0 k) (hp : p ≤ 131068)
    (C : Caller k0.user v ss) (I : InMemory k0 v ss) (hno : ¬RoomBelow p (ss.tail :: groups))
    (hrest : EndsOutside others k0 k groups rest Q) :
    wp (copy_strings ((ss.length : ℤ) - 1) (.table (v + 4)) p 0 >>= rest) Q (fun e _ => e = .outside) k := by
  have hlen := List.length_tail (l := ss)
  have hptr : (Argv.table (v + 4)).ptr (k.table 0) = fun i => pointers k0.user v (i + 1) := by
    rw [A.table]
    funext i
    rw [pointers, pointers, show v + 4 + 4 * i = v + 4 * (i + 1) from by omega]
  refine A.copy hp (by omega) ?_ ⟨fun _ a ha i hi => ?_, fun _ n s hs i hi => ?_, fun s hs => ?_⟩ hno hrest
  · rw [A.source.1, hptr]
    exact C.strings.tail
  · cases ha
    have hthere := I.table (C.ne_zero fun h => by rw [h] at hi; exact absurd hi (Nat.not_lt_zero i))
      (4 + i) (by omega)
    rw [Nat.add_assoc]
    exact A.there hthere
  · rw [hptr]
    rw [List.getElem?_tail] at hs
    exact A.there (I.strings (n + 1) s hs i hi)
  · exact I.short s (List.mem_of_mem_tail hs)

/-- A string of the caller, from a pointer in the kernel. -/
theorem Ample.copy_name {rest : ℕ → ExecM ℤ} {Q : ℤ → Kernel → Prop} (A : Ample others k0 k) (hp : p ≤ 131068)
    (hv : v ≠ 0) (hs : CString k0.user v s) (hthere : ∀ i ≤ s.length, k0.There (v + i))
    (hshort : s.length < addresses) (hno : ¬RoomBelow p ([s] :: groups))
    (hrest : EndsOutside others k0 k groups rest Q) :
    wp (copy_strings 1 (.pointer v) p 1 >>= rest) Q (fun e _ => e = .outside) k := by
  refine A.copy hp rfl ?_ ⟨fun h => absurd (.inl rfl) h, fun _ n t ht i hi => ?_, fun t ht => ?_⟩ hno hrest
  · rw [A.source.2]
    exact Strings.one hv hs
  · rw [List.mem_singleton.1 (List.mem_of_getElem? ht)] at hi
    exact A.there (hthere i hi)
  · rwa [List.mem_singleton.1 ht]

/-- A string of the buffer. -/
theorem Ample.copy_line {rest : ℕ → ExecM ℤ} {Q : ℤ → Kernel → Prop} (A : Ample others k0 k) (hp : p ≤ 131068)
    (hs : CString k.buf v s) (hshort : s.length < addresses) (hno : ¬RoomBelow p ([s] :: groups))
    (hrest : EndsOutside others k0 k groups rest Q) :
    wp (copy_strings 1 (.pointer (bufAddress + v)) p 2 >>= rest) Q (fun e _ => e = .outside) k := by
  have hv : bufAddress + v ≠ 0 := fun h => absurd (Nat.eq_zero_of_add_eq_zero h).1 (by decide)
  have hline := kernel_string hs
  refine A.copy hp rfl ?_ ⟨fun h => absurd (.inr rfl) h, fun h => absurd rfl h, fun t ht => ?_⟩ hno hrest
  · rw [Kernel.source, if_pos rfl]
    exact Strings.one hv hline
  · rwa [List.mem_singleton.1 ht]

/-! ### The whole call -/

theorem wp_count_from_there {Q : ℕ → Kernel → Prop} {E : Trap → Kernel → Prop} {m : ℕ} (hfs : k.fs = .user)
    (hpointers : Pointers k.user v n) (hthere : ∀ i < 4 * (n + 1), k.There (v + i)) (hm : n < m) (hQ : Q n k) :
    wp (count_from m v) Q E k := by
  have hview : k.view = k.user := by rw [Kernel.view, hfs]
  induction n generalizing v m Q with
  | zero =>
    obtain ⟨m, rfl⟩ := Nat.exists_eq_succ_of_ne_zero (Nat.ne_of_gt hm)
    rw [count_from, wp_bind, wp_get_fs_long_seen fun i hi _ => hthere i (by omega), hview, wp_ite]
    exact ⟨fun _ => hQ, fun h => absurd hpointers.2 h⟩
  | succ n ih =>
    obtain ⟨m, rfl⟩ := Nat.exists_eq_succ_of_ne_zero (show m ≠ 0 by omega)
    rw [count_from, wp_bind, wp_get_fs_long_seen fun i hi _ => hthere i (by omega), hview, wp_ite]
    refine ⟨fun h => absurd h (hpointers.1 0 (Nat.succ_pos n)), fun _ => ?_⟩
    rw [wp_bind]
    refine ih ⟨fun i hi => ?_, ?_⟩ (fun i hi => ?_) (by omega) hQ
    · have hnext := hpointers.1 (i + 1) (by omega)
      rwa [show v + 4 * (i + 1) = v + 4 + 4 * i from by omega] at hnext
    · have hend := hpointers.2
      rwa [show v + 4 * (n + 1) = v + 4 + 4 * n from by omega] at hend
    · rw [Nat.add_assoc]
      exact hthere (4 + i) (by omega)

theorem wp_count_there {Q : ℕ → Kernel → Prop} {E : Trap → Kernel → Prop} (hfs : k.fs = .user)
    (C : Caller k.user v ss) (I : InMemory k v ss) (hQ : Q ss.length k) : wp (count v) Q E k := by
  rw [count, wp_ite]
  rcases C with ⟨hzero, rfl⟩ | ⟨hne, hstrings, hend⟩
  · exact ⟨fun _ => hQ, fun h => absurd hzero h⟩
  · refine ⟨fun h => absurd h hne, fun _ => ?_⟩
    refine wp_count_from_there hfs ⟨fun i hi => ?_, hend⟩ (I.table hne) I.few hQ
    exact (hstrings i _ (List.getElem?_eq_getElem hi)).1

theorem Ample.in_memory (A : Ample others k0 k) (I : InMemory k0 v ss) : InMemory k v ss where
  table hv i hi := A.there (I.table hv i hi)
  strings n s hs i hi := by
    rw [A.filling.user]
    exact A.there (I.strings n s hs i hi)
  short := I.short
  few := I.few

theorem wp_read_name_there {Q : Unit → Kernel → Prop} {E : Trap → Kernel → Prop} (hfs : k.fs = .user)
    (n : ℕ) (hthere : ∀ i < n, k.There (v + i)) : wp (read_name v n) Q E k ↔ Q () k := by
  induction n generalizing Q with
  | zero => exact Iff.rfl
  | succ n ih =>
    rw [read_name, wp_bind, ih fun i hi => hthere i (by omega), wp_bind,
      wp_get_fs_byte_there hfs (hthere n (Nat.lt_succ_self n))]
    exact Iff.rfl

/-- All that the call reads of its caller is in memory. -/
structure Present (x : Answers) (a : Args) (name : List ℕ) (args env : List (List ℕ)) (k : Kernel) : Prop where
  given : Given k.user a name args env
  looked : x.looked 0 ≤ name.length
  readable : ∀ i ≤ name.length, k.There (a.filename + i)
  short : name.length < addresses
  args : InMemory k a.argv args
  env : InMemory k a.envp env

/-- The program is the file itself. -/
theorem outside_of_binary {e_uid e_gid : ℕ} {Q : ℤ → Kernel → Prop} (A : Ample others k0 k)
    (I : Present x a name args env k0) (hgood : goodHeader inode b.2 = true)
    (hno : ¬RoomBelow 131068 [env, args]) :
    wp (run_binary x a inode b args.length env.length 131068 false e_uid e_gid) Q
    (fun e _ => e = .outside) k := by
  rw [run_binary, wp_bind, brelse, wp_modify, if_neg (by rw [hgood]; decide), if_neg Bool.false_ne_true]
  have A1 := A.refs k.i_count (update k.b_count b.1 (k.b_count b.1 - 1)) k.buf
  refine A1.copy_table (Nat.le_refl _) I.given.env I.env hno fun p1 k1 A2 _ hp1 hno1 => ?_
  refine A2.copy_table hp1 I.given.args I.args hno1 fun _ _ _ _ _ hno2 => ?_
  exact absurd trivial hno2

/-- The program is the interpreter of a script. -/
theorem outside_of_script {Q : ℤ → Kernel → Prop} {interpret : Inode → ℤ → ℕ → ExecM ℤ} (A : Ample others k0 k)
    (I : Present x a name args env k0) (hline : parse b.2 ≠ none)
    (hno : ∃ text, LineAt b.2 2 text ∧
      ¬RoomBelow 131068 ([env, args.tail, [name]] ++ (lineArgs text).reverse.map fun s => [s])) :
    wp (run_script x a inode b args.length env.length 131068 interpret) Q (fun e _ => e = .outside) k := by
  obtain ⟨line, hline⟩ := Option.ne_none_iff_exists'.1 hline
  obtain ⟨text, hparsed⟩ := parse_spec hline
  obtain ⟨text', htext, hno⟩ := hno
  obtain rfl := hparsed.line_at.unique htext
  have hshort : ∀ s ∈ lineArgs text, s.length < addresses := by
    intro s hs
    have hle := lineArgs_short hs
    have hlt := hparsed.short
    rw [addresses]
    omega
  rw [run_script, wp_bind, brelse, wp_modify, wp_bind, iput, wp_modify, hline]
  dsimp only
  rw [wp_bind, wp_modify]
  refine (A.refs _ _ line.buf).copy_table (Nat.le_refl _) I.given.env I.env hno fun p1 k1 A1 hbuf1 hp1 hno1 =>
    ?_
  refine A1.copy_tail hp1 I.given.args I.args hno1 fun p2 k2 A2 hbuf2 hp2 hno2 => ?_
  refine A2.copy_name hp2 I.given.filename I.given.name I.readable I.short hno2 fun p3 k3 A3 hbuf3 hp3 hno3 =>
    ?_
  have hbuf : k3.buf = line.buf := by rw [hbuf3, hbuf2, hbuf1]
  cases harg : line.i_arg with
  | none =>
    have hlead := hparsed.no_arg harg
    rw [hlead] at hno3 hshort
    simp only [pure_bind]
    refine A3.copy_line hp3 (by rw [hbuf]; exact hparsed.name) (hshort _ (List.mem_singleton_self _)) hno3
      fun _ _ _ _ _ hno4 => ?_
    exact absurd trivial hno4
  | some i_arg =>
    obtain ⟨arg, hs, hlead⟩ := hparsed.arg i_arg harg
    rw [hlead] at hno3 hshort
    refine A3.copy_line hp3 (by rw [hbuf]; exact hs) (hshort arg (by simp)) hno3 fun p4 k4 A4 hbuf4 hp4 hno4 =>
      ?_
    refine A4.copy_line hp4 (by rw [hbuf4, hbuf]; exact hparsed.name) (hshort _ List.mem_cons_self) hno4
      fun _ _ _ _ _ hno5 => ?_
    exact absurd trivial hno5

theorem outside_of_file {Q : ℤ → Kernel → Prop} {interpret : Inode → ℤ → ℕ → ExecM ℤ} (A : Ample others k0 k)
    (I : Present x a name args env k0) (R : Reaches x k0 inode b) (hno : ¬HasRoom x name args env) :
    wp (restart_interp x a 0 inode args.length env.length 131068 (some interpret)) Q
    (fun e _ => e = .outside) k := by
  obtain ⟨-, -, ⟨hreg, hmay⟩, hblock, hfirst⟩ := R
  rw [← A.stays.task] at hmay
  rw [restart_interp, wp_bind, wp_get, wp_ite]
  refine ⟨fun h => absurd hreg h, fun _ => ?_⟩
  rw [wp_ite]
  refine ⟨fun h => absurd h hmay, fun _ => ?_⟩
  rw [bread, hblock]
  dsimp only
  rw [wp_bind, wp_bind, wp_modify, wp_pure]
  have A1 := A.refs k.i_count (update k.b_count b.1 (k.b_count b.1 + 1)) k.buf
  dsimp only
  rw [HasRoom] at hno
  push Not at hno
  obtain ⟨b', hb', hno⟩ := hno
  cases hblock.symm.trans hb'
  split at hno
  · rename_i script
    rw [if_pos script] at hfirst ⊢
    push Not at hno
    exact outside_of_script A1 I hfirst hno
  · rename_i binary
    rw [if_neg binary] at hfirst ⊢
    exact outside_of_binary A1 I hfirst hno

/-- **Strings that have no room.**  A call that comes to its strings, with everything that it reads in memory
and 32 free frames, ends outside of the array. -/
theorem wp_do_execve_outside {Q : ℤ → Kernel → Prop} (B : Books others k.cleared) (hfs : k.fs = .user)
    (I : Present x a name args env k) (hfree : 32 ≤ k.free) (R : Reaches x k inode b)
    (hno : ¬HasRoom x name args env) :
    wp (do_execve x a) Q (fun e _ => e = .outside) k := by
  have A : Ample others k.cleared k.cleared :=
    ⟨⟨B, rfl, B, Loads.refl _⟩, Stays.refl _, supplied_of_free hfree, hfs⟩
  have I' : Present x a name args env k.cleared :=
    ⟨I.given, I.looked, I.readable, I.short, ⟨I.args.table, I.args.strings, I.args.short, I.args.few⟩,
      ⟨I.env.table, I.env.strings, I.env.short, I.env.few⟩⟩
  obtain ⟨hcaller, hfound, hexec, hblock, hfirst⟩ := R
  have A1 : Ample others k.cleared { k.cleared with i_count := oneMore k.i_count inode.num } :=
    A.refs (oneMore k.i_count inode.num) k.b_count k.buf
  rw [do_execve, wp_bind, wp_get, if_neg (fun h => h hcaller), wp_bind, wp_modify, wp_bind, namei, wp_bind]
  show wp (read_name a.filename (x.looked 0 + 1)) _ _ k.cleared
  have hlooked : ∀ i < x.looked 0 + 1, k.cleared.There (a.filename + i) := fun i hi =>
    I'.readable i (by have := I.looked; omega)
  rw [@wp_read_name_there k.cleared _ _ _ hfs _ hlooked, hfound]
  show wp (count a.argv >>= fun argc => count a.envp >>= fun envc => _) _ _
    { k.cleared with i_count := oneMore k.i_count inode.num }
  rw [wp_bind]
  refine wp_count_there A1.fs I'.given.args (A1.in_memory I'.args) ?_
  rw [wp_bind]
  refine wp_count_there A1.fs I'.given.env (A1.in_memory I'.env) ?_
  exact outside_of_file A1 I' ⟨hcaller, hfound, hexec, hblock, hfirst⟩ hno

theorem strings_fit_of_not_outside (B : Books others k.cleared) (hfs : k.fs = .user)
    (I : Present x a name args env k) (hfree : 32 ≤ k.free)
    (h : ¬wp (do_execve x a) (fun _ _ => False) (fun e _ => e = .outside) k) : StringsFit x a k :=
  fun _ _ R => ⟨name, args, env, I.given, not_not.1 fun hno => h (wp_do_execve_outside B hfs I hfree R hno)⟩

/-! ### A name that is too long -/

/-- A process with four megabytes, all of them there: from 4096 on the name `./././..x`, of 131073
bytes. -/
def caller : Kernel where
  mem_map := update (fun _ => 0) 300 1
  frame := fun f i => if f = 1 then (if i % 2 = 0 then 46 else 47) else if f = 2 ∧ i = 0 then 120 else 0
  pg_table := update (fun _ => none) 0 (some 300)
  pte := fun u => if u < 33 then some 1 else if u < 1024 then some 2 else none
  loaded := fun _ _ => 0
  shared := fun _ => none
  task :=
    { executable := none, sa_handler := fun _ => 0, filp := fun _ => none, close_on_exec := fun _ => false,
      euid := 0, egid := 0, brk := 0, end_data := 0, end_code := 0, start_stack := 0, used_math := false,
      code_limit := 0x400000, data_limit := 0x400000 }
  eip := fun i => if i = 1 then 0xf else 0
  fs := .user
  buf := fun _ => 0
  page := fun _ => none
  i_count := fun _ => 0
  b_count := fun _ => 0

/-- The name is that of a script, `#!/a`. -/
def script : Answers where
  looked := fun _ => 0
  inode := fun _ => some ⟨1, 0o100755, 0, 0, 5⟩
  block := fun _ => some (1, fun i => [35, 33, 47, 97, 10].getD i 0)
  loaded := fun _ _ => 0
  shared := fun _ => none

theorem caller_books : Books (fun _ => 0) caller.cleared := by
  have hpte : ∀ u f, caller.pte u = some f → f < 256 ∧ u < 1024 := by
    intro u f h
    simp only [caller] at h
    split_ifs at h with h1 h2 <;> cases h <;> omega
  have htable : ∀ d t, caller.pg_table d = some t → t = 300 ∧ d = 0 := by
    intro d t h
    by_cases hd : d = 0
    · rw [hd] at h
      cases h
      exact ⟨rfl, hd⟩
    · replace h : update (fun _ => none) 0 (some 300) d = some t := h
      rw [update_of_ne hd] at h
      cases h
  refine ⟨fun f hf => ?_, (by decide), fun u hu => ?_, fun d hd => ?_, fun i hi => absurd rfl hi,
    fun u hu => ?_, fun d t ht => ?_, fun i f hi => (by cases hi), fun u f hu => (by cases hu)⟩
  · have hpages : refs 16384 caller.pte f = 0 := countIn_eq_zero.2 fun u _ hu => by
      have h := hpte u f hu
      omega
    have htables : refs 16 caller.pg_table f = if f = 300 then 1 else 0 := by
      rw [show caller.pg_table = update (fun _ => none) 0 (some 300) from rfl,
        refs_update_some (by decide) rfl, refs_none, Nat.zero_add]
    show update (fun _ => 0) 300 1 f = 0 + (refs 16384 caller.pte f + refs 16 caller.pg_table f)
      + refs 32 (fun _ => none) f
    rw [hpages, htables, refs_none, update_apply]
    simp
  · obtain ⟨f, hf⟩ := Option.ne_none_iff_exists'.1 hu
    have h := hpte u f hf
    omega
  · obtain ⟨t, ht⟩ := Option.ne_none_iff_exists'.1 hd
    have h := htable d t ht
    omega
  · obtain ⟨f, hf⟩ := Option.ne_none_iff_exists'.1 hu
    have h := hpte u f hf
    rw [show u / 1024 = 0 from by omega]
    exact Option.some_ne_none 300
  · obtain ⟨rfl, rfl⟩ := htable d t ht
    exact ⟨by decide, by decide, rfl⟩

theorem caller_there {v : ℕ} (hv : v < 0x400000) : caller.There v := by
  refine ⟨hv, ?_⟩
  show (if v / PAGE_SIZE < 33 then some 1 else if v / PAGE_SIZE < 1024 then some 2 else none) ≠ none
  have hlt : v / PAGE_SIZE < 1024 := by
    rw [PAGE_SIZE]
    omega
  split_ifs <;> exact Option.some_ne_none _

theorem caller_name : ∃ s, 131068 ≤ s.length ∧ s.length ≤ 131073 ∧ CString caller.user 4096 s := by
  have huser : ∀ i, i ≤ 131073 → caller.user (4096 + i) =
      if i < 131072 then (if i % 2 = 0 then 46 else 47) else if i = 131072 then 120 else 0 := by
    intro i hi
    rw [Kernel.user, PAGE_SIZE]
    simp only [caller]
    by_cases hlow : i < 131072
    · rw [if_pos (show (4096 + i) / 4096 < 33 by omega), if_pos hlow]
      show (if (4096 + i) % 4096 % 2 = 0 then 46 else 47) = _
      rw [show (4096 + i) % 4096 % 2 = i % 2 from by omega]
    · rw [if_neg (show ¬(4096 + i) / 4096 < 33 by omega), if_pos (show (4096 + i) / 4096 < 1024 by omega),
        if_neg hlow]
      show (if 2 = 1 then _ else if 2 = 2 ∧ (4096 + i) % 4096 = 0 then 120 else 0) = _
      rw [if_neg (by decide)]
      by_cases hlast : i = 131072
      · rw [if_pos ⟨rfl, by omega⟩, if_pos hlast]
      · rw [if_neg (fun h => by omega), if_neg hlast]
  have hne : ∀ i < 131073, caller.user (4096 + i) ≠ 0 := by
    intro i hi
    rw [huser i (by omega)]
    split_ifs <;> omega
  have hzero : caller.user (4096 + 131073) = 0 := by
    rw [huser 131073 (Nat.le_refl _), if_neg (by decide), if_neg (by decide)]
  obtain ⟨s, hlen, hs⟩ := CString.exists _ hne hzero
  exact ⟨s, by omega, by omega, hs⟩

theorem caller_free : 33 ≤ caller.free := by
  have hsub : Finset.Ico 301 334 ⊆ (Finset.Ico 256 4096).filter fun f => caller.mem_map f = 0 := by
    intro f hf
    rw [Finset.mem_Ico] at hf
    rw [Finset.mem_filter, Finset.mem_Ico]
    refine ⟨by omega, ?_⟩
    show update (fun _ => 0) 300 1 f = 0
    rw [update_of_ne (by omega)]
  exact Finset.card_le_card hsub

/-- The call with this name and neither arguments nor an environment. -/
def longName : Args := ⟨4096, 0, 0⟩

theorem caller_present : ∃ s, 131068 ≤ s.length ∧ Present script longName s [] [] caller := by
  obtain ⟨s, hlen, hshort, hs⟩ := caller_name
  have hnone : InMemory caller 0 [] :=
    ⟨fun h => absurd rfl h, fun _ _ h => (by cases h), fun _ h => (by cases h), (by decide)⟩
  refine ⟨s, hlen, ⟨⟨by decide, hs, .inl ⟨rfl, rfl⟩, .inl ⟨rfl, rfl⟩⟩, Nat.zero_le _, fun i hi => ?_,
    ?_, hnone, hnone⟩⟩
  · exact caller_there (show 4096 + i < 0x400000 by omega)
  · rw [addresses]
    omega

theorem caller_reaches : ∃ inode b, Reaches script caller inode b := by
  refine ⟨⟨1, 0o100755, 0, 0, 5⟩, (1, fun i => [35, 33, 47, 97, 10].getD i 0), rfl, rfl,
    ⟨rfl, by decide⟩, rfl, ?_⟩
  rw [if_pos ⟨rfl, rfl⟩]
  exact Option.isSome_iff_ne_none.1 (by decide)

theorem script_line : LineAt (fun i => [35, 33, 47, 97, 10].getD i 0) 2 [47, 97] :=
  ⟨by decide, by decide, rfl, by decide, by decide, rfl, rfl⟩

/-- The name alone is longer than the area. -/
theorem script_no_room (hlen : 131068 ≤ name.length) : ¬HasRoom script name [] [] := by
  intro hroom
  replace hroom := hroom _ rfl
  rw [if_pos ⟨rfl, rfl⟩] at hroom
  obtain h | ⟨-, h | ⟨-, h | ⟨h, -⟩⟩⟩ := hroom _ script_line
  · cases h
  · cases h
  · cases h
  · simp only [List.tail_nil, size_nil, size_cons] at h
    omega

/-- The call with the last letter of the name. -/
def shortName : Args := ⟨135168, 0, 0⟩

theorem short_name_fits : StringsFit script shortName caller := by
  have hs : CString caller.user 135168 [120] := ⟨by decide, rfl, rfl⟩
  refine fun _ _ _ => ⟨[120], [], [], ⟨by decide, hs, .inl ⟨rfl, rfl⟩, .inl ⟨rfl, rfl⟩⟩, fun b hb => ?_⟩
  cases hb
  rw [if_pos ⟨rfl, rfl⟩]
  intro text htext
  rw [htext.unique script_line]
  exact .inr ⟨by decide, .inr ⟨by decide, .inr ⟨by decide, .inr ⟨by decide, trivial⟩⟩⟩⟩

theorem caller_outside (hk : k = caller) :
    wp (do_execve script longName) (fun _ _ => False) (fun e _ => e = .outside) k := by
  obtain ⟨s, hlen, hpresent⟩ := caller_present
  obtain ⟨inode, b, hreaches⟩ := caller_reaches
  have hbooks := caller_books
  have hfree := caller_free
  rw [← hk] at hpresent hreaches hbooks hfree
  refine wp_do_execve_outside hbooks (by rw [hk]; rfl) hpresent (by omega) hreaches (script_no_room hlen)

end OldLinux.Exec
