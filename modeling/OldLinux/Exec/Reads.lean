import OldLinux.Exec.Pages
import OldLinux.Lib.CStrings

/-!
# Reading user memory

What the kernel reads is what the task finds in its memory, whether the page is there or has to be
loaded.  Loading a page keeps the books and leaves all the rest as it is.
-/

namespace OldLinux.Exec

open Function Lib

variable {others : ℕ → ℕ} {k k' k'' : Kernel} {f g u d i n a : ℕ}

/-! ### What is added -/

/-- A frame that nobody has gets other contents. -/
theorem Adds.unused (hf : ¬k.Used f) (c : ℕ) (s : Space) :
    Adds k { k with mem_map := update k.mem_map f c
                    frame := update k.frame f s } where
  task := rfl
  eip := rfl
  loaded := rfl
  shared := rfl
  used := by
    intro g hg
    have hne : g ≠ f := by
      rintro rfl
      exact hf hg
    refine ⟨hg.imp_right fun h => ?_, update_of_ne hne ..⟩
    show update k.mem_map f c g ≠ 0
    rwa [update_of_ne hne]
  counts := by
    intro g hg _
    have hne : g ≠ f := by
      rintro rfl
      exact hf hg
    exact update_of_ne hne ..
  pte := fun _ _ h => h
  tables := fun _ _ h => h
  fresh := fun u g h h' => by
    rw [h] at h'
    cases h'
  args := fun _ _ h => .inl h

theorem Adds.take (hf : 256 ≤ f) (hzero : k.mem_map f = 0) : Adds k (k.take f) :=
  Adds.unused (fun h => h.elim (by omega) fun h => h hzero) 1 _

/-- A page gets a frame with its contents. -/
theorem Adds.set_pte (hnone : k.pte u = none) (hused : k.Used f) (hframe : k.frame f = k.loaded u) :
    Adds k { k with pte := update k.pte u (some f) } where
  task := rfl
  eip := rfl
  loaded := rfl
  shared := rfl
  used := fun _ h => ⟨h, rfl⟩
  counts := fun _ _ _ => rfl
  pte := by
    intro v g hv
    have hne : v ≠ u := by
      rintro rfl
      rw [hnone] at hv
      cases hv
    exact (update_of_ne hne ..).trans hv
  tables := fun _ _ h => h
  fresh := by
    intro v g hv hv'
    replace hv' : update k.pte u (some f) v = some g := hv'
    by_cases hvu : v = u
    · rw [hvu, update_self] at hv'
      cases hv'
      rw [hvu]
      exact ⟨hused, hframe⟩
    · rw [update_of_ne hvu, hv] at hv'
      cases hv'
  args := fun _ _ h => .inl h

theorem Adds.bump (hshared : k.shared u = some f) :
    Adds k { k with mem_map := update k.mem_map f (k.mem_map f + 1) } where
  task := rfl
  eip := rfl
  loaded := rfl
  shared := rfl
  used := by
    intro g hg
    refine ⟨hg.imp_right fun h => ?_, rfl⟩
    show update k.mem_map f (k.mem_map f + 1) g ≠ 0
    by_cases hgf : g = f
    · rw [hgf, update_self]
      exact Nat.succ_ne_zero _
    · rwa [update_of_ne hgf]
  counts := by
    intro g _ hno
    have hgf : g ≠ f := by
      rintro rfl
      exact hno u hshared
    exact update_of_ne hgf ..
  pte := fun _ _ h => h
  tables := fun _ _ h => h
  fresh := fun u g h h' => by
    rw [h] at h'
    cases h'
  args := fun _ _ h => .inl h

/-- A frame that no page waits for gets other contents. -/
theorem Books.set_frame (B : Books others k) (h : ∀ v, k.shared v = some f → k.pte v ≠ none) (s : Space) :
    Books others { k with frame := update k.frame f s } := by
  refine { B with shared := fun v g hv => ?_ }
  obtain ⟨h1, h2, h3⟩ := B.shared v g hv
  refine ⟨h1, h2, fun hnone => ?_⟩
  have hgf : g ≠ f := by
    rintro rfl
    exact h v hv hnone
  exact (update_of_ne hgf ..).trans (h3 hnone)

/-! ### A page table -/

/-- A page table may have been added for the page `u`. -/
structure Grown (u : ℕ) (k k' : Kernel) : Prop where
  adds : Adds k k'
  rest : SameRest k k'
  same_pte : k'.pte = k.pte
  others : ∀ d, d ≠ u / 1024 → k'.pg_table d = k.pg_table d

theorem Grown.refl (u : ℕ) (k : Kernel) : Grown u k k := ⟨Adds.refl k, SameRest.refl k, rfl, fun _ _ => rfl⟩

theorem wp_page_table (B : Books others k) (hu : u < 16384) :
    wp (page_table u) (fun there k' => Books others k' ∧ Grown u k k' ∧
      (there = true → k'.pg_table (u / 1024) ≠ none)) (fun _ _ => False) k := by
  rw [page_table, wp_bind, wp_get]
  split
  · rename_i t ht
    exact ⟨B, Grown.refl u k, fun _ => by rw [ht]; exact Option.some_ne_none t⟩
  · rename_i hnone
    rw [wp_bind]
    apply wp_get_free_page
    · intro _
      exact ⟨B, Grown.refl u k, fun h => by cases h⟩
    · intro t ht hlt hzero
      rw [wp_bind, wp_modify, wp_pure]
      have hmap : (k.take t).mem_map t = 1 := update_self ..
      have hbooks := (B.take ht hzero).set_table (by omega) hnone ht hlt hmap fun v hv => (B.shared v t hv).2.1
      refine ⟨hbooks, ⟨?_, ⟨rfl, rfl, rfl, rfl, rfl⟩, rfl, fun d hd => update_of_ne hd ..⟩,
        fun _ => ?_⟩
      · refine { Adds.take ht hzero with tables := fun d g hd => ?_ }
        have hne : d ≠ u / 1024 := by
          rintro rfl
          rw [hnone] at hd
          cases hd
        exact (update_of_ne hne ..).trans hd
      · show update k.pg_table (u / 1024) (some t) (u / 1024) ≠ none
        rw [update_self]
        exact Option.some_ne_none t

/-! ### A page -/

/-- User memory has been read. -/
structure Reads (others : ℕ → ℕ) (k k' : Kernel) : Prop where
  books : Books others k'
  loads : Loads k k'
  rest : SameRest k k'

theorem Reads.refl (B : Books others k) : Reads others k k := ⟨B, Loads.refl k, SameRest.refl k⟩

theorem Reads.trans (h : Reads others k k') (h' : Reads others k' k'') : Reads others k k'' :=
  ⟨h'.books, h.loads.trans h'.loads, h.rest.trans h'.rest⟩

/-- The last step of a fault: the page is entered in its page table. -/
theorem reads_of_set_pte (hadds : Adds k k') (hrest : SameRest k k')
    (htables : ∀ d, d ≠ u / 1024 → k'.pg_table d = k.pg_table d) (hnone : k.pte u = none)
    (hnone' : k'.pte u = none) (hused : k'.Used f) (hframe : k'.frame f = k'.loaded u)
    (hpte : k'.pte = k.pte) (hlimit : u * PAGE_SIZE < k.task.data_limit)
    (B : Books others { k' with pte := update k'.pte u (some f) }) :
    Reads others k { k' with pte := update k'.pte u (some f) } ∧ update k'.pte u (some f) u ≠ none := by
  have hthere : update k'.pte u (some f) u ≠ none := by
    rw [update_self]
    exact Option.some_ne_none f
  refine ⟨⟨B, ⟨hadds.trans (Adds.set_pte hnone' hused hframe), fun d hd hd' => ?_, fun v hv hv' => ?_⟩,
    ⟨hrest.page, hrest.fs, hrest.buf, hrest.i_count, hrest.b_count⟩⟩, hthere⟩
  · by_cases hdu : d = u / 1024
    · exact ⟨u, hdu.symm, hnone, hthere⟩
    · exact absurd ((htables d hdu).trans hd) hd'
  · by_cases hvu : v = u
    · rwa [hvu]
    · replace hv' : update k'.pte u (some f) v ≠ none := hv'
      rw [update_of_ne hvu, hpte] at hv'
      exact absurd hv hv'

theorem wp_put_page (B : Books (plus others f) k) (hu : u < 16384) (hnone : k.pte u = none)
    (hshared : ∀ v, k.shared v = some f → 0 < others f) :
    wp (put_page f u) (fun there k' => there = true → ∃ k1, Grown u k k1 ∧
      k' = { k1 with pte := update k1.pte u (some f) } ∧ Books others k')
      (fun _ _ => False) k := by
  rw [put_page, wp_bind]
  refine wp_mono (wp_page_table B hu) ?_ fun _ _ h => h
  rintro there k1 ⟨B1, hgrown, htable⟩
  rw [wp_ite]
  refine ⟨fun hthere => ?_, fun hthere h => absurd h (by decide)⟩
  rw [wp_bind, wp_modify, wp_pure]
  refine fun _ => ⟨k1, hgrown, rfl, ?_⟩
  refine B1.set_pte hu (by rw [hgrown.same_pte, hnone]) (htable hthere) fun v hv => ?_
  rw [hgrown.adds.shared] at hv
  exact hshared v hv

theorem wp_do_no_page (B : Books others k) (hu : u < 16384) (hnone : k.pte u = none)
    (hlimit : u * PAGE_SIZE < k.task.data_limit) :
    wp (do_no_page u) (fun _ k' => Reads others k k' ∧ k'.pte u ≠ none) (fun e _ => e ≠ .outside) k := by
  rw [do_no_page, wp_bind, wp_get]
  split
  · rename_i f hshared
    obtain ⟨hf, hothers, -⟩ := B.shared u f hshared
    rw [wp_bind]
    refine wp_mono (wp_page_table B hu) ?_ fun _ _ h => h.elim
    rintro there k1 ⟨B1, hgrown, htable⟩
    rw [wp_ite]
    refine ⟨fun hthere => ?_, fun _ => by rw [wp_throw]; exact Trap.noConfusion⟩
    rw [wp_modify]
    have hnone1 : k1.pte u = none := by rw [hgrown.same_pte, hnone]
    have hshared1 : k1.shared u = some f := by rw [hgrown.adds.shared, hshared]
    have hframe := (B1.shared u f hshared1).2.2 hnone1
    have hused : ({ k1 with mem_map := update k1.mem_map f (k1.mem_map f + 1) } : Kernel).Used f :=
      .inr (by
        show update k1.mem_map f (k1.mem_map f + 1) f ≠ 0
        rw [update_self]
        exact Nat.succ_ne_zero _)
    have hbooks := (B1.bump hothers).set_pte hu hnone1 (htable hthere) fun _ _ => hothers
    have hrest : SameRest k { k1 with mem_map := update k1.mem_map f (k1.mem_map f + 1) } :=
      ⟨hgrown.rest.page, hgrown.rest.fs, hgrown.rest.buf, hgrown.rest.i_count, hgrown.rest.b_count⟩
    exact reads_of_set_pte (hgrown.adds.trans (Adds.bump hshared1)) hrest hgrown.others hnone
      hnone1 hused hframe
      hgrown.same_pte hlimit hbooks
  · rw [wp_bind]
    apply wp_get_free_page
    · intro _
      rw [wp_throw]
      exact Trap.noConfusion
    · intro f hf hlt hzero
      rw [wp_bind, wp_modify, wp_bind]
      have hunused := (B.unused hf hzero).1
      have hshared : ∀ v, k.shared v = some f → 0 < others f := fun v hv => (B.shared v f hv).2.1
      have hbooks := (B.take hf hzero).set_frame (f := f) (fun v hv => absurd (hshared v hv) (by omega))
        (k.loaded u)
      refine wp_mono (wp_put_page hbooks hu hnone hshared) ?_ fun _ _ h => h.elim
      intro there k' hput
      rw [wp_ite]
      constructor
      · intro hthere
        obtain ⟨k1, hgrown, rfl, B'⟩ := hput hthere
        rw [wp_pure]
        have hadds : Adds k { k.take f with frame := update (k.take f).frame f (k.loaded u) } := by
          rw [Kernel.take, update_idem]
          exact Adds.unused (fun h => h.elim (by omega) fun h => h hzero) 1 _
        have hone : ({ k.take f with frame := update (k.take f).frame f (k.loaded u) } : Kernel).Used f :=
            .inr (by
          show update k.mem_map f 1 f ≠ 0
          rw [update_self]
          exact Nat.one_ne_zero)
        obtain ⟨hused, hframe⟩ := hgrown.adds.used f hone
        have hframe' : k1.frame f = k1.loaded u := by
          rw [hframe, hgrown.adds.loaded]
          exact update_self ..
        have hrest : SameRest k k1 :=
          ⟨hgrown.rest.page, hgrown.rest.fs, hgrown.rest.buf, hgrown.rest.i_count, hgrown.rest.b_count⟩
        exact reads_of_set_pte (hadds.trans hgrown.adds) hrest hgrown.others hnone
          (by rw [hgrown.same_pte]; exact hnone) hused hframe' hgrown.same_pte hlimit B'
      · intro _
        rw [wp_bind, free_page, wp_bind, wp_get, wp_ite]
        refine ⟨fun h => absurd h (by omega), fun _ => ?_⟩
        rw [wp_ite]
        refine ⟨fun _ => ?_, fun _ => ?_⟩
        · rw [wp_throw]
          exact Trap.noConfusion
        · rw [wp_modify, wp_throw]
          exact Trap.noConfusion

/-! ### User memory -/

theorem Adds.user (h : Adds k k') (B : Books others k) : k'.user = k.user := by
  funext a
  rw [Kernel.user, Kernel.user]
  cases hpage : k.pte (a / PAGE_SIZE) with
  | some f =>
    rw [h.pte _ f hpage]
    exact congrFun (h.used f (B.used_of_pte hpage)).2 _
  | none =>
    cases hpage' : k'.pte (a / PAGE_SIZE) with
    | some f => exact congrFun (h.fresh _ f hpage hpage').2 _
    | none => rw [h.loaded]

/-- The memory of the kernel, as far as it is read through `fs`. -/
def Kernel.kspace (k : Kernel) : Space := fun a => k.buf (a - bufAddress)

theorem kspace_congr (h : k'.buf = k.buf) : k'.kspace = k.kspace := by
  funext a
  rw [Kernel.kspace, h, Kernel.kspace]

/-- What the kernel reads through `fs`. -/
def Kernel.view (k : Kernel) : Space :=
  match k.fs with
  | .user => k.user
  | .kernel => k.kspace

theorem Reads.view (h : Reads others k k') (B : Books others k) : k'.view = k.view := by
  rw [Kernel.view, Kernel.view, h.rest.fs, kspace_congr h.rest.buf, h.loads.user B]

/-- The page of an access to user memory is there. -/
def Kernel.There (k : Kernel) (a : ℕ) : Prop := a < k.task.data_limit ∧ k.pte (a / PAGE_SIZE) ≠ none

theorem Adds.there (h : Adds k k') (ha : k.There a) : k'.There a :=
  ⟨by rw [h.task]; exact ha.1, h.pte_ne ha.2⟩

theorem wp_touch (B : Books others k) (a : ℕ) :
    wp (touch a) (fun _ k' => Reads others k k' ∧ k'.There a) (fun e _ => e ≠ .outside) k := by
  rw [touch, wp_bind, wp_get, wp_ite]
  refine ⟨fun _ => by rw [wp_throw]; exact Trap.noConfusion, fun hlt => ?_⟩
  have ha : a < k.task.data_limit := by omega
  have hlimit := B.limit
  split
  · rename_i f hf
    exact ⟨Reads.refl B, ha, by rw [hf]; exact Option.some_ne_none f⟩
  · rename_i hnone
    have hpage : a / PAGE_SIZE * PAGE_SIZE < k.task.data_limit := by
      rw [PAGE_SIZE]
      omega
    refine wp_mono (wp_do_no_page B (by rw [PAGE_SIZE]; omega) hnone hpage) ?_ fun _ _ h => h
    rintro _ k' ⟨hreads, hthere⟩
    exact ⟨hreads, by rwa [hreads.loads.task], hthere⟩

theorem wp_get_fs_byte (B : Books others k) (a : ℕ) :
    wp (get_fs_byte a) (fun v k' => v = k.view a ∧ Reads others k k' ∧ (k.fs = .user → k'.There a))
      (fun e _ => e ≠ .outside) k := by
  rw [get_fs_byte, wp_bind, wp_get]
  split
  · rename_i hfs
    rw [wp_pure, Kernel.view, hfs]
    exact ⟨rfl, Reads.refl B, fun h => by cases h⟩
  · rename_i hfs
    rw [wp_bind]
    refine wp_mono (wp_touch B a) ?_ fun _ _ h => h
    rintro _ k' ⟨hreads, hthere⟩
    rw [wp_bind, wp_get, wp_pure, Kernel.view, hfs, hreads.loads.user B]
    exact ⟨rfl, hreads, fun _ => hthere⟩

theorem wp_get_fs_long (B : Books others k) (a : ℕ) :
    wp (get_fs_long a) (fun v k' => v = long k.view a ∧ Reads others k k') (fun e _ => e ≠ .outside) k := by
  rw [get_fs_long, wp_bind]
  refine wp_mono (wp_get_fs_byte B a) ?_ fun _ _ h => h
  rintro _ k1 ⟨rfl, h1, -⟩
  rw [wp_bind]
  refine wp_mono (wp_get_fs_byte h1.books (a + 1)) ?_ fun _ _ h => h
  rintro _ k2 ⟨rfl, h2, -⟩
  rw [wp_bind]
  refine wp_mono (wp_get_fs_byte h2.books (a + 2)) ?_ fun _ _ h => h
  rintro _ k3 ⟨rfl, h3, -⟩
  rw [wp_bind]
  refine wp_mono (wp_get_fs_byte h3.books (a + 3)) ?_ fun _ _ h => h
  rintro _ k4 ⟨rfl, h4, -⟩
  rw [wp_pure, h3.view h2.books, h2.view h1.books, h1.view B]
  exact ⟨rfl, ((h1.trans h2).trans h3).trans h4⟩

/-! ### Strings -/

theorem wp_string_len (B : Books others k) (n a : ℕ) :
    wp (string_len n a) (fun len k' => (∃ s, CString k.view a s ∧ len = s.length + 1) ∧ Reads others k k')
      (fun e _ => e ≠ .outside) k := by
  induction n generalizing k a with
  | zero =>
    rw [string_len, wp_throw]
    exact Trap.noConfusion
  | succ n ih =>
    rw [string_len, wp_bind]
    refine wp_mono (wp_get_fs_byte B a) ?_ fun _ _ h => h
    rintro _ k1 ⟨rfl, h1, -⟩
    rw [wp_ite]
    refine ⟨fun hzero => ⟨⟨[], hzero, rfl⟩, h1⟩, fun hne => ?_⟩
    rw [wp_bind]
    refine wp_mono (ih h1.books (a + 1)) ?_ fun _ _ h => h
    rintro _ k2 ⟨⟨s, hs, rfl⟩, h2⟩
    rw [h1.view B] at hs
    exact ⟨⟨k.view a :: s, ⟨hne, rfl, hs⟩, rfl⟩, h1.trans h2⟩

/-- The pointers from `a` on, up to the null pointer. -/
def Pointers (m : Space) (a n : ℕ) : Prop := (∀ i < n, long m (a + 4 * i) ≠ 0) ∧ long m (a + 4 * n) = 0

theorem Pointers.unique {m : Space} {n' : ℕ} (h : Pointers m a n) (h' : Pointers m a n') : n = n' := by
  rcases Nat.lt_trichotomy n n' with hlt | heq | hlt
  · exact absurd h.2 (h'.1 n hlt)
  · exact heq
  · exact absurd h'.2 (h.1 n' hlt)

theorem wp_count_from (B : Books others k) (n a : ℕ) :
    wp (count_from n a) (fun c k' => Pointers k.view a c ∧ Reads others k k')
      (fun e _ => e ≠ .outside) k := by
  induction n generalizing k a with
  | zero =>
    rw [count_from, wp_throw]
    exact Trap.noConfusion
  | succ n ih =>
    rw [count_from, wp_bind]
    refine wp_mono (wp_get_fs_long B a) ?_ fun _ _ h => h
    rintro _ k1 ⟨rfl, h1⟩
    rw [wp_ite]
    refine ⟨fun hzero => ⟨⟨fun i hi => absurd hi (Nat.not_lt_zero i), hzero⟩, h1⟩, fun hne => ?_⟩
    rw [wp_bind]
    refine wp_mono (ih h1.books (a + 4)) ?_ fun _ _ h => h
    rintro c k2 ⟨hc, h2⟩
    rw [h1.view B] at hc
    refine ⟨⟨fun i hi => ?_, ?_⟩, h1.trans h2⟩
    · cases i with
      | zero => exact hne
      | succ i =>
        rw [show a + 4 * (i + 1) = a + 4 + 4 * i from by omega]
        exact hc.1 i (by omega)
    · rw [show a + 4 * (c + 1) = a + 4 + 4 * c from by omega]
      exact hc.2

/-- What `count` counts. -/
def Counted (m : Space) (a n : ℕ) : Prop := a = 0 ∧ n = 0 ∨ a ≠ 0 ∧ Pointers m a n

theorem wp_count (B : Books others k) (a : ℕ) :
    wp (count a) (fun c k' => Counted k.view a c ∧ Reads others k k') (fun e _ => e ≠ .outside) k := by
  rw [count, wp_ite]
  refine ⟨fun ha => ⟨.inl ⟨ha, rfl⟩, Reads.refl B⟩, fun ha => ?_⟩
  exact wp_mono (wp_count_from B addresses a) (fun _ _ h => ⟨.inr ⟨ha, h.1⟩, h.2⟩) fun _ _ h => h

end OldLinux.Exec
