import OldLinux.Exec.Freeing
import OldLinux.Exec.Failures

/-!
# The pages with the strings get to the new program

After the point of no return nothing of the old program is left, so that there is a frame for the one
page table that is needed at the end of the data segment; each page of the array `page` is entered there
in its place.
-/

namespace OldLinux.Exec

open Function Lib

variable {others : ℕ → ℕ} {k k' : Kernel} {x : Answers} {a : Args} {A : ℕ → Option ℕ} {f u i n : ℕ}

/-! ### Room for a page table -/

theorem page_table_there (h : k.pg_table (u / 1024) ≠ none ∨ 0 < k.free) :
    wp (page_table u) (fun there _ => there = true) (fun _ _ => False) k := by
  rw [page_table, wp_bind, wp_get]
  split
  · rfl
  · rename_i hnone
    rw [wp_bind]
    refine wp_get_free_page_there (h.resolve_left fun hne => hne hnone) fun t _ _ _ => ?_
    rw [wp_bind, wp_modify, wp_pure]

theorem put_page_there (h : k.pg_table (u / 1024) ≠ none ∨ 0 < k.free) :
    wp (put_page f u) (fun there _ => there = true) (fun _ _ => False) k := by
  rw [put_page, wp_bind]
  refine wp_mono (page_table_there h) ?_ fun _ _ h => h
  rintro _ k' rfl
  rw [if_pos rfl, wp_bind, wp_modify, wp_pure]

/-! ### What others have stays -/

/-- The task, the array `page` and the contents of all frames in use are as in `k`. -/
structure Kept (k s : Kernel) : Prop where
  page : s.page = k.page
  task : s.task = k.task
  eip : s.eip = k.eip
  fs : s.fs = k.fs
  used : ∀ f, k.Used f → s.Used f ∧ s.frame f = k.frame f

theorem Kept.refl (k : Kernel) : Kept k k := ⟨rfl, rfl, rfl, rfl, fun _ h => ⟨h, rfl⟩⟩

theorem Kept.set_frame {s : Kernel} (h : Kept k s) (hf : ¬k.Used f) (c : Space) :
    Kept k { s with frame := update s.frame f c } := by
  refine { h with used := fun g hg => ⟨(h.used g hg).1, ?_⟩ }
  have hgf : g ≠ f := by
    rintro rfl
    exact hf hg
  exact (update_of_ne hgf ..).trans (h.used g hg).2

theorem kept_get_free_page : Triple (Kept k) get_free_page fun r s => Kept k s ∧
    ∀ f, r = some f → ¬k.Used f := by
  intro s hs
  refine wp_get_free_page (fun _ => ⟨hs, fun f h => by cases h⟩) fun f hf _ hzero => ?_
  refine ⟨{ hs with used := fun g hg => ?_ }, ?_⟩
  · obtain ⟨h1, h2⟩ := hs.used g hg
    obtain ⟨-, h3, h4⟩ := take_used hzero hf h1
    exact ⟨h3, h4.trans h2⟩
  · rintro _ ⟨⟩ hg
    exact (take_used hzero hf (hs.used f hg).1).1 rfl

theorem kept_page_table (u : ℕ) : Triple (Kept k) (page_table u) fun _ => Kept k := by
  refine TripleOr.look fun s => ?_
  split
  · exact TripleOr.pure fun _ h => h
  · refine TripleOr.bind kept_get_free_page fun r => ?_
    cases r with
    | none => exact TripleOr.pure fun _ h => h.1
    | some t =>
      exact TripleOr.bind (M := fun _ => Kept k) (fun s h => { h.1 with }) fun _ =>
        TripleOr.pure fun _ h => h

theorem kept_put_page (f u : ℕ) : Triple (Kept k) (put_page f u) fun _ => Kept k :=
  TripleOr.bind (kept_page_table u) fun _ =>
    TripleOr.ite (fun _ => TripleOr.bind (M := fun _ => Kept k) (fun _ h => { h with }) fun _ =>
      TripleOr.pure fun _ h => h) fun _ => TripleOr.pure fun _ h => h

theorem kept_do_no_page (u : ℕ) : Triple (Kept k) (do_no_page u) fun _ => Kept k := by
  refine TripleOr.look fun s0 => ?_
  split
  · rename_i f _
    refine TripleOr.bind (kept_page_table u) fun _ => TripleOr.ite
      (fun _ s h => { h with used := fun g hg => ?_ }) fun _ => Triple.throw
    obtain ⟨h1, h2⟩ := h.used g hg
    refine ⟨h1.imp_right fun hne => ?_, h2⟩
    show update s.mem_map f (s.mem_map f + 1) g ≠ 0
    by_cases hgf : g = f
    · rw [hgf, update_self]
      exact Nat.succ_ne_zero _
    · rwa [update_of_ne hgf]
  · refine TripleOr.bind kept_get_free_page fun r => ?_
    cases r with
    | none => exact Triple.throw
    | some f =>
      refine TripleOr.bind (M := fun _ => Kept k) (fun s h => h.1.set_frame (h.2 f rfl) _) fun _ =>
        TripleOr.bind (kept_put_page f u) fun _ => TripleOr.ite (fun _ => TripleOr.pure fun _ h => h)
          fun _ => TripleOr.bind (M := fun _ _ => True) (fun s _ => ?_) fun _ => Triple.throw
      exact wp_mono (inside_free_page f s) (fun _ _ h => h) fun _ _ _ => trivial

theorem kept_touch (a : ℕ) : Triple (Kept k) (touch a) fun _ => Kept k := by
  refine TripleOr.look fun s => TripleOr.ite (fun _ => Triple.throw) fun _ => ?_
  split
  · exact TripleOr.pure fun _ h => h
  · exact kept_do_no_page _

/-! ### The loop of `change_ldt` -/

/-- The page of the task's memory for the `i`-th page of the strings. -/
def argPage (i : ℕ) : ℕ := 0x4000000 / PAGE_SIZE - MAX_ARG_PAGES + i

theorem argPage_eq (i : ℕ) : argPage i = 16352 + i := rfl

/-- The pages from `n` on have been entered, those below belong to the call. -/
structure Putting (others : ℕ → ℕ) (A : ℕ → Option ℕ) (n : ℕ) (k : Kernel) : Prop where
  books : Books (fun f => others f + refs n A f) k.bare
  page : k.page = A
  shared : ∀ u f, k.shared u = some f → 0 < others f
  alone : ∀ i f, A i = some f → i < 32 ∧ 256 ≤ f ∧ others f = 0 ∧ k.mem_map f = 1
  room : k.pg_table 15 ≠ none ∨ 0 < k.free
  mapped : ∀ i f, n ≤ i → A i = some f → k.pte (argPage i) = some f
  empty : ∀ i, i < n → k.pte (argPage i) = none

theorem refs_succ (A : ℕ → Option ℕ) (n f : ℕ) :
    refs (n + 1) A f = refs n A f + if A n = some f then 1 else 0 := by
  rw [refs, refs, countIn, countIn, Finset.range_add_one, Finset.filter_insert]
  split_ifs
  · rw [Finset.card_insert_of_notMem (by simp)]
  · rfl

theorem Putting.skip (P : Putting others A (i + 1) k) (h : A i = none) : Putting others A i k := by
  have hrefs : (fun f => others f + refs (i + 1) A f) = fun f => others f + refs i A f := by
    funext f
    rw [refs_succ, h, if_neg (by simp), Nat.add_zero]
  refine ⟨hrefs ▸ P.books, P.page, P.shared, P.alone, P.room, fun j f hj hf => ?_,
    fun j hj => P.empty j (by omega)⟩
  have hne : j ≠ i := by
    rintro rfl
    rw [h] at hf
    cases hf
  exact P.mapped j f (by omega) hf

theorem wp_put_arg (P : Putting others A (i + 1) k) (h : A i = some f) :
    wp (put_page f (argPage i)) (fun _ k' => Putting others A i k') (fun _ _ => False) k := by
  obtain ⟨hi, hge, hothers, hone⟩ := P.alone i f h
  have hdir : argPage i / 1024 = 15 := by
    rw [argPage_eq]
    omega
  have hnone := P.empty i (Nat.lt_succ_self i)
  have hrefs : (fun g => others g + refs (i + 1) A g) = plus (fun g => others g + refs i A g) f := by
    funext g
    rw [refs_succ, h, plus]
    simp only [Option.some.injEq, eq_comm, Nat.add_assoc]
  have hbooks := P.books
  rw [hrefs] at hbooks
  have hput := (bare_put_page f (argPage i)).wp_iff.1
    (wp_put_page hbooks (by rw [argPage_eq]; omega) hnone fun v hv => by
      have hpos := P.shared v f hv
      omega)
  have hthere := put_page_there (f := f) (u := argPage i) (k := k) (by rw [hdir]; exact P.room)
  refine wp_mono (wp_and (wp_and hput hthere) (kept_put_page f (argPage i) k (Kept.refl k))) ?_ fun _ _ h =>
    h.1.1
  rintro there k' ⟨⟨hk', hthere⟩, hkept⟩
  obtain ⟨k1, hgrown, heq, hbooks'⟩ := hk' hthere
  have hpte : k'.pte = update k.pte (argPage i) (some f) := by
    rw [show k'.pte = k'.bare.pte from rfl, heq, hgrown.same_pte]
    rfl
  have hother : ∀ j, j ≠ i → k'.pte (argPage j) = k.pte (argPage j) := by
    intro j hj
    rw [hpte, update_of_ne]
    rw [argPage_eq, argPage_eq]
    omega
  have hself : k'.pte (argPage i) = some f := by rw [hpte, update_self]
  have hshared : k'.shared = k.shared := by
    rw [show k'.shared = k'.bare.shared from rfl, heq]
    exact hgrown.adds.shared
  refine ⟨hbooks', hkept.page.trans P.page, fun u g hu => P.shared u g (by rwa [hshared] at hu),
    fun j g hj => ?_, ?_,
    fun j g hj hg => ?_, fun j hj => ?_⟩
  · obtain ⟨h1, h2, h3, h4⟩ := P.alone j g hj
    refine ⟨h1, h2, h3, ?_⟩
    have hcount := hgrown.adds.counts g (.inr (by
      show k.mem_map g ≠ 0
      omega)) fun v hv => by
        have hpos := P.shared v g hv
        omega
    rw [show k'.mem_map = k'.bare.mem_map from rfl, heq]
    exact hcount.trans h4
  · have htable := hbooks'.table (argPage i) (by
      show k'.pte (argPage i) ≠ none
      rw [hself]
      exact Option.some_ne_none f)
    rw [hdir] at htable
    exact .inl htable
  · by_cases hji : j = i
    · rw [hji] at hg ⊢
      rw [hself, ← hg, h]
    · rw [hother j hji]
      exact P.mapped j g (by omega) hg
  · rw [hother j (by omega)]
    exact P.empty j (by omega)

theorem wp_put_args (P : Putting others A n k) :
    wp (put_args n) (fun _ k' => Putting others A 0 k') (fun _ _ => False) k := by
  induction n generalizing k with
  | zero => exact P
  | succ n ih =>
    rw [put_args, wp_bind, wp_get]
    have hpage : k.page n = A n := congrFun P.page n
    cases hn : k.page n with
    | none =>
      show wp (put_args n) _ _ k
      exact ih (P.skip (hpage.symm.trans hn))
    | some f =>
      show wp (put_page f (argPage n) >>= fun _ => put_args n) _ _ k
      rw [wp_bind]
      exact wp_mono (wp_put_arg P (hpage.symm.trans hn)) (fun _ _ h => ih h) fun _ _ h => h

theorem kept_put_args (n : ℕ) : Triple (Kept k) (put_args n) fun _ => Kept k := by
  induction n with
  | zero => exact TripleOr.pure fun _ h => h
  | succ n ih =>
    refine TripleOr.look fun s => ?_
    split
    · exact ih
    · exact TripleOr.bind (kept_put_page _ _) fun _ => ih

/-! ### The new program's memory -/

/-- The pages of the array are in their places. -/
structure Held (others : ℕ → ℕ) (A : ℕ → Option ℕ) (k : Kernel) : Prop where
  books : Books others k.bare
  page : k.page = A
  kept : ∀ i f, A i = some f → i < 32 ∧ 256 ≤ f ∧ others f = 0 ∧ k.mem_map f = 1 ∧ k.pte (argPage i) = some f

theorem Putting.held (P : Putting others A 0 k) : Held others A k := by
  refine ⟨?_, P.page, fun i f hf => ?_⟩
  · have hbooks := P.books
    simpa [refs, countIn] using hbooks
  · obtain ⟨h1, h2, h3, h4⟩ := P.alone i f hf
    exact ⟨h1, h2, h3, h4, P.mapped i f (Nat.zero_le i) hf⟩

/-! ### The point of no return -/

/-- The page tables of the task are for its segment. -/
def Kernel.InSegment (k : Kernel) : Prop :=
  ∀ d, k.pg_table d ≠ none → d * 0x400000 < k.task.data_limit

theorem Loads.in_segment (h : Loads k k') (hk : k.InSegment) : k'.InSegment := by
  intro d hd
  rw [h.task]
  by_cases hnone : k.pg_table d = none
  · obtain ⟨u, hu, h1, h2⟩ := h.needed d hnone hd
    have hlt := h.within u h1 h2
    refine Nat.lt_of_le_of_lt ?_ hlt
    rw [PAGE_SIZE, ← hu]
    omega
  · exact hk d hnone

/-- With the pages of the array in the hands of the call. -/
theorem Books.to_bare (B : Books others k) : Books (fun f => others f + refs 32 k.page f) k.bare := by
  refine ⟨fun f hf => ?_, B.limit, B.page_lt, B.table_lt, fun i hi => absurd rfl hi, B.table, B.table_own,
    fun i f hi => (by cases hi), fun u f hu => ?_⟩
  · have hl := B.ledger f hf
    have hnone : k.bare.args f = 0 := refs_none 32 f
    rw [hnone]
    show k.mem_map f = others f + refs 32 k.page f + k.own f + 0
    rw [hl, Kernel.args]
    omega
  · obtain ⟨h1, h2, -⟩ := B.shared u f hu
    exact ⟨h1, by omega, fun _ => rfl⟩

/-- Nothing has changed but the task and the inodes. -/
structure OnlyTask (k s : Kernel) : Prop where
  same : s = { k with task := s.task, i_count := s.i_count }
  limit : s.task.data_limit = k.task.data_limit

theorem wp_close_files {s : Kernel} (h : OnlyTask k s) (n : ℕ) :
    wp (close_files n) (fun _ => OnlyTask k) (fun _ _ => False) s := by
  induction n with
  | zero => exact h
  | succ n ih =>
    rw [close_files, wp_bind]
    refine wp_mono ih ?_ fun _ _ h => h
    intro _ s1 h1
    rw [wp_bind, wp_get]
    split
    · exact ⟨by rw [h1.same], h1.limit⟩
    · exact h1

theorem OnlyTask.books {s : Kernel} (h : OnlyTask k s) (B : Books others k.bare) : Books others s.bare := by
  have hlimit : s.task.data_limit ≤ 0x4000000 := by
    rw [h.limit]
    exact B.limit
  rw [h.same]
  exact { B with limit := hlimit }

/-- The task has neither pages nor page tables, and the pages of the array are those of `k`. -/
structure Emptied (others : ℕ → ℕ) (k s : Kernel) : Prop where
  books : Books (fun f => others f + refs 32 k.page f) s.bare
  tables : s.pg_table = fun _ => none
  page : s.page = k.page
  frame : s.frame = k.frame
  eip : s.eip = k.eip

theorem Emptied.pte {s : Kernel} (H : Emptied others k s) (u : ℕ) : s.pte u = none := by
  by_contra hne
  refine H.books.table u hne ?_
  show s.pg_table (u / 1024) = none
  rw [H.tables]

theorem Emptied.mem_map {s : Kernel} (H : Emptied others k s) (hf : 256 ≤ f) :
    s.mem_map f = others f + refs 32 k.page f := by
  have hpte : s.pte = fun _ => none := funext H.pte
  have hl : s.mem_map f = others f + refs 32 k.page f + s.own f + s.bare.args f := H.books.ledger f hf
  have hargs : s.bare.args f = 0 := refs_none 32 f
  rw [hargs, Kernel.own, hpte, H.tables, refs_none, refs_none] at hl
  exact hl

/-- The strings' pages can be entered. -/
theorem Emptied.putting {s : Kernel} (H : Emptied others k s) (B : Books others k) {v : ℕ}
    (hthere : k.pte v ≠ none) (hshared : ∀ u f, s.shared u = some f → 0 < others f) :
    Putting others k.page 32 s := by
  refine ⟨H.books, H.page, hshared, fun i f hi => ?_, .inr ?_, fun i f hi hf => ?_, fun i _ => H.pte _⟩
  · obtain ⟨hge, hone⟩ := B.arg_own i f hi
    have halone := (B.arg_alone hi).1
    have hlt := B.arg_lt i (by rw [hi]; exact Option.some_ne_none f)
    have hpos := refs_pos hlt hi
    have hl := B.ledger f hge
    rw [Kernel.args] at hl
    refine ⟨hlt, hge, halone, ?_⟩
    rw [H.mem_map hge]
    omega
  · obtain ⟨t, ht⟩ := Option.ne_none_iff_exists'.1 (B.table v hthere)
    obtain ⟨hge, hlt, -⟩ := B.table_own _ t ht
    obtain ⟨h1, -, h3⟩ := B.table_alone ht
    refine countIn_pos (Finset.mem_Ico.2 ⟨hge, hlt⟩) ?_
    show s.mem_map t = 0
    rw [H.mem_map hge, h1, h3]
  · have hlt := B.arg_lt i (by rw [hf]; exact Option.some_ne_none f)
    omega

/-- After `free_page_tables` of both segments; faults bring pages of the new program from now on. -/
theorem emptied_of_freed {s2 s3 s4 : Kernel} {c : ℕ} (h2 : OnlyTask k s2) (hsegment : k.InSegment)
    (hs3 : OnlyPages s2 s3) (hs4 : OnlyPages s3 s4)
    (B4 : Books (fun f => others f + refs 32 k.page f) s4.bare)
    (htable3 : ∀ d, s3.pg_table d = if d * 0x400000 < c then none else s2.pg_table d)
    (htable4 : ∀ d, s4.pg_table d = if d * 0x400000 < s2.task.data_limit then none else s3.pg_table d)
    (hshared : ∀ u f, x.shared u = some f → 256 ≤ f ∧ 0 < others f) :
    Emptied others k
      { s4 with task := { s4.task with used_math := false }, loaded := x.loaded, shared := x.shared } := by
  have hsame := h2.same
  refine ⟨{ B4 with shared := fun u f hu => ?_ }, funext fun d => ?_, ?_, ?_, ?_⟩
  · obtain ⟨h1, h2⟩ := hshared u f hu
    exact ⟨h1, by omega, fun _ => rfl⟩
  · show s4.pg_table d = none
    rw [htable4 d, h2.limit]
    split_ifs with hlt
    · rfl
    · rw [htable3 d]
      split_ifs
      · rfl
      · by_contra hne
        refine hlt (hsegment d ?_)
        rwa [hsame] at hne
  · show s4.page = k.page
    rw [hs4, hs3, hsame]
  · show s4.frame = k.frame
    rw [hs4, hs3, hsame]
  · show s4.eip = k.eip
    rw [hs4, hs3, hsame]

/-- The new program can begin: the strings' pages are in its memory, with their contents. -/
structure Begun (others : ℕ → ℕ) (k s : Kernel) : Prop where
  held : Held others k.page s
  fs : s.fs = .user
  limit : s.task.data_limit = 0x4000000
  eip : s.eip = k.eip
  frame : ∀ i f, k.page i = some f → s.frame f = k.frame f

theorem wp_change_ldt {s : Kernel} (H : Emptied others k s) (B : Books others k) {v : ℕ}
    (hthere : k.pte v ≠ none) (hshared : ∀ u f, s.shared u = some f → 0 < others f) (text : ℕ) :
    wp (change_ldt text) (fun limit k' => limit = 0x4000000 ∧ Begun others k k') (fun _ _ => False) s := by
  rw [change_ldt, wp_bind, wp_modify, wp_bind]
  have hlimited : ∀ task : Task, task.data_limit = 0x4000000 →
      Emptied others k { s with task := task, fs := .user } := fun task h =>
    { H with books := { H.books with limit := Nat.le_of_eq h } }
  have H' := hlimited { s.task with
    code_limit := (text + PAGE_SIZE - 1) % 2 ^ 32 / PAGE_SIZE * PAGE_SIZE
    data_limit := 0x4000000 } rfl
  refine wp_mono (wp_and (wp_put_args (H'.putting B hthere hshared))
    (kept_put_args MAX_ARG_PAGES _ (Kept.refl _))) ?_ fun _ _ h => h.1
  rintro _ k' ⟨P, hkept⟩
  rw [wp_pure]
  refine ⟨rfl, P.held, hkept.fs, ?_, hkept.eip.trans H.eip, fun i f hi => ?_⟩
  · rw [hkept.task]
  · obtain ⟨hge, -⟩ := B.arg_own i f hi
    have hpos := refs_pos (B.arg_lt i (by rw [hi]; exact Option.some_ne_none f)) hi
    refine (hkept.used f (.inr ?_)).2.trans (congrFun H.frame f)
    rw [H'.mem_map hge]
    omega

/-- `install` up to `change_ldt`. -/
theorem wp_install {inode : Inode} {data : Space} {argc envc p e_uid e_gid v : ℕ}
    {Q : ℤ → Kernel → Prop} {E : Trap → Kernel → Prop} (B : Books others k) (hthere : k.pte v ≠ none)
    (hsegment : k.InSegment) (hshared : ∀ u f, x.shared u = some f → 256 ≤ f ∧ 0 < others f)
    (hrest : ∀ k', Begun others k k' →
      wp (install_tables data argc envc (p + (0x4000000 - MAX_ARG_PAGES * PAGE_SIZE))
      e_uid e_gid (clear_rest PAGE_SIZE ((a_text data + a_data data) % 2 ^ 32))) Q E k') :
    wp (install x inode data argc envc p e_uid e_gid) Q E k := by
  have hclose := fun s h => @wp_close_files k s h NR_OPEN
  have hldt := fun s H hs => @wp_change_ldt others k s H B v hthere hs (a_text data)
  rw [install]
  -- the lengths of the loops play no part
  generalize close_files NR_OPEN = close at hclose ⊢
  generalize clear_rest PAGE_SIZE ((a_text data + a_data data) % 2 ^ 32) = clear at hrest ⊢
  generalize change_ldt (a_text data) = ldt at hldt ⊢
  have hmain : ∀ s, OnlyTask k s →
      wp (install_image x inode data argc envc p e_uid e_gid close clear ldt) Q E s := by
    intro s hs
    rw [install_image, wp_bind, wp_modify, wp_bind]
    refine wp_mono (hclose _ ⟨by rw [hs.same], hs.limit⟩) ?_ fun _ _ h => h.elim
    intro _ s1 h1
    rw [wp_bind, wp_modify, wp_bind, wp_get, wp_bind]
    have h2 : OnlyTask k { s1 with task := { s1.task with close_on_exec := fun _ => false } } :=
      ⟨by rw [h1.same], h1.limit⟩
    generalize { s1 with task := { s1.task with close_on_exec := fun _ => false } } = s2 at h2 ⊢
    refine wp_mono (wp_free_page_tables (h2.books B.to_bare) s2.task.code_limit) ?_ fun _ _ h => h.elim
    rintro _ s3 ⟨B3, hs3, htable3⟩
    rw [wp_bind]
    refine wp_mono (wp_free_page_tables B3 s2.task.data_limit) ?_ fun _ _ h => h.elim
    rintro _ s4 ⟨B4, hs4, htable4⟩
    rw [wp_bind, wp_modify, wp_bind]
    have H := emptied_of_freed h2 hsegment hs3 hs4 B4 htable3 htable4 hshared
    refine wp_mono (hldt _ H fun u f hu => (hshared u f hu).2) ?_ fun _ _ h => h.elim
    rintro _ s5 ⟨rfl, hbegun⟩
    exact hrest s5 hbegun
  rw [wp_bind, wp_get]
  split
  · exact hmain k ⟨rfl, rfl⟩
  · rw [wp_bind, iput, wp_modify]
    exact hmain _ ⟨rfl, rfl⟩

end OldLinux.Exec
