import OldLinux.Exec.Reads

/-!
# The old program goes

`free_page_tables` takes all pages and page tables from the task, and the books stay right.  Neither the
contents of the frames nor the array `page` plays a part in that, nor in getting pages for the new
program; so the books can be kept for the kernel without them.
-/

namespace OldLinux.Exec

open Function Lib

variable {others : ℕ → ℕ} {k k' : Kernel} {f g u d t n : ℕ}

/-! ### What plays no part -/

/-- The kernel without the contents of frames and pages, and without the array `page`. -/
def Kernel.bare (k : Kernel) : Kernel :=
  { k with frame := fun _ _ => 0, loaded := fun _ _ => 0, page := fun _ => none }

theorem bare_update (f : ℕ) : update (fun _ _ => 0 : ℕ → Space) f (fun _ => 0) = fun _ _ => 0 :=
  update_eq_self f _

section Bare

theorem bare_get_free_page : Commutes Kernel.bare get_free_page := by
  refine Commutes.look (fun _ => rfl) fun k => ?_
  split
  · exact Commutes.pure _
  · refine Commutes.bind (Commutes.modify fun s => ?_) fun _ => Commutes.pure _
    simp only [Kernel.bare, bare_update]

theorem bare_free_page (f : ℕ) : Commutes Kernel.bare (free_page f) :=
  Commutes.look (fun _ => rfl) fun _ => Commutes.ite (Commutes.pure _)
    (Commutes.ite (Commutes.throw _) (Commutes.modify fun _ => rfl))

theorem bare_page_table (u : ℕ) : Commutes Kernel.bare (page_table u) := by
  refine Commutes.look (fun _ => rfl) fun k => ?_
  split
  · exact Commutes.pure _
  · refine Commutes.bind bare_get_free_page fun r => ?_
    cases r with
    | none => exact Commutes.pure _
    | some t => exact Commutes.bind (Commutes.modify fun _ => rfl) fun _ => Commutes.pure _

theorem bare_put_page (f u : ℕ) : Commutes Kernel.bare (put_page f u) :=
  Commutes.bind (bare_page_table u) fun _ =>
    Commutes.ite (Commutes.bind (Commutes.modify fun _ => rfl) fun _ => Commutes.pure _)
      (Commutes.pure _)

theorem bare_do_no_page (u : ℕ) : Commutes Kernel.bare (do_no_page u) := by
  refine Commutes.look (fun _ => rfl) fun k => ?_
  split
  · exact Commutes.bind (bare_page_table u) fun _ =>
      Commutes.ite (Commutes.modify fun _ => rfl) (Commutes.throw _)
  · refine Commutes.bind bare_get_free_page fun r => ?_
    cases r with
    | none => exact Commutes.throw _
    | some f =>
      refine Commutes.bind (Commutes.modify fun s => ?_) fun _ =>
        Commutes.bind (bare_put_page f u) fun _ => ?_
      · simp only [Kernel.bare, bare_update]
      · exact Commutes.ite (Commutes.pure _) (Commutes.bind (bare_free_page f) fun _ => Commutes.throw _)

theorem bare_free_entries (u n : ℕ) : Commutes Kernel.bare (free_entries u n) := by
  induction n with
  | zero => exact Commutes.pure _
  | succ n ih =>
    refine Commutes.bind ih fun _ => Commutes.look (fun _ => rfl) fun k => ?_
    split
    · exact Commutes.pure _
    · exact Commutes.bind (bare_free_page _) fun _ => Commutes.modify fun _ => rfl

theorem bare_free_table (d : ℕ) : Commutes Kernel.bare (free_table d) := by
  rw [free_table]
  generalize 1024 = n
  refine Commutes.look (fun _ => rfl) fun k => ?_
  split
  · exact Commutes.pure _
  · exact Commutes.bind (bare_free_entries _ _) fun _ => Commutes.bind (bare_free_page _) fun _ =>
      Commutes.modify fun _ => rfl

theorem bare_free_tables (n : ℕ) : Commutes Kernel.bare (free_tables n) := by
  induction n with
  | zero => exact Commutes.pure _
  | succ n ih => exact Commutes.bind ih fun _ => bare_free_table n

theorem bare_touch (a : ℕ) : Commutes Kernel.bare (touch a) := by
  refine Commutes.look (fun _ => rfl) fun k => Commutes.ite (Commutes.throw _) ?_
  split
  · exact Commutes.pure _
  · exact bare_do_no_page _

end Bare

/-! ### A reference less -/

/-- The books of a kernel in which all contents are the same. -/
structure Plain (others : ℕ → ℕ) (k : Kernel) : Prop extends Books others k where
  blank : ∀ f v, k.frame f = k.loaded v

theorem Books.plain (B : Books others k.bare) : Plain others k.bare := ⟨B, fun _ _ => rfl⟩

/-- A page goes; somebody else has its frame. -/
theorem Plain.unset_pte (P : Plain others k) (h : k.pte u = some f) :
    Books (plus others f) { k with pte := update k.pte u none } := by
  have hu := P.page_lt u (by rw [h]; exact Option.some_ne_none f)
  have hkept : ∀ v, update k.pte u none v ≠ none → k.pte v ≠ none := by
    intro v hv
    by_cases hvu : v = u
    · rw [hvu, update_self] at hv
      exact absurd rfl hv
    · rwa [update_of_ne hvu] at hv
  refine ⟨fun g hg => ?_, P.limit, fun v hv => P.page_lt v (hkept v hv), P.table_lt, P.arg_lt,
    fun v hv => P.table v (hkept v hv), P.table_own, P.arg_own, fun v g hv => ?_⟩
  · have hl := P.ledger g hg
    have hrefs := refs_update_none hu h g
    show k.mem_map g = plus others f g + (refs 16384 (update k.pte u none) g + refs 16 k.pg_table g) + k.args g
    rw [Kernel.own] at hl
    rw [plus]
    omega
  · obtain ⟨h1, h2, -⟩ := P.shared v g hv
    refine ⟨h1, ?_, fun _ => P.blank g v⟩
    rw [plus]
    omega

/-- A page table goes that has no pages any more. -/
theorem Books.unset_table (B : Books others k) (h : k.pg_table d = some t)
    (hempty : ∀ u, u / 1024 = d → k.pte u = none) :
    Books (plus others t) { k with pg_table := update k.pg_table d none } := by
  have hd := B.table_lt d (by rw [h]; exact Option.some_ne_none t)
  refine ⟨fun g hg => ?_, B.limit, B.page_lt, fun e he => ?_, B.arg_lt, fun v hv => ?_,
    fun e s he => ?_, B.arg_own, fun v g hv => ?_⟩
  · have hl := B.ledger g hg
    have hrefs := refs_update_none hd h g
    show k.mem_map g = plus others t g + (refs 16384 k.pte g + refs 16 (update k.pg_table d none) g) + k.args g
    rw [Kernel.own] at hl
    rw [plus]
    omega
  · by_cases hed : e = d
    · rwa [hed]
    · exact B.table_lt e (by rwa [← update_of_ne hed none k.pg_table])
  · have hvd : v / 1024 ≠ d := fun heq => hv (hempty v heq)
    show update k.pg_table d none (v / 1024) ≠ none
    rw [update_of_ne hvd]
    exact B.table v hv
  · replace he : update k.pg_table d none e = some s := he
    by_cases hed : e = d
    · rw [hed, update_self] at he
      cases he
    · rw [update_of_ne hed] at he
      exact B.table_own e s he
  · obtain ⟨h1, h2, h3⟩ := B.shared v g hv
    refine ⟨h1, ?_, h3⟩
    rw [plus]
    omega

theorem wp_free_page {Q : Unit → Kernel → Prop} {E : Trap → Kernel → Prop} (hf : 256 ≤ f)
    (hne : k.mem_map f ≠ 0)
    (hQ : Q () { k with mem_map := update k.mem_map f (k.mem_map f - 1) }) :
    wp (free_page f) Q E k := by
  rw [free_page, wp_bind, wp_get, wp_ite]
  refine ⟨fun h => absurd h (by omega), fun _ => ?_⟩
  rw [wp_ite]
  exact ⟨fun h => absurd h hne, fun _ => hQ⟩

/-! ### `free_page_tables` -/

theorem wp_free_entry (P : Plain others k) (u : ℕ) :
    wp (free_entry u) (fun _ k' => Plain others k' ∧ k'.pg_table = k.pg_table ∧ k'.pte u = none ∧
      ∀ v, v ≠ u → k'.pte v = k.pte v) (fun _ _ => False) k := by
  rw [free_entry, wp_bind, wp_get]
  split
  · rename_i hnone
    rw [wp_pure]
    exact ⟨P, rfl, hnone, fun _ _ => rfl⟩
  · rename_i f hf
    have hunset := P.unset_pte hf
    have hshared : ∀ v, k.shared v = some f → 0 < others f := fun v hv => (P.shared v f hv).2.1
    have hrest : update k.pte u none u = none ∧ ∀ v, v ≠ u → update k.pte u none v = k.pte v :=
      ⟨update_self .., fun v hv => update_of_ne hv ..⟩
    rw [wp_bind]
    by_cases hlow : f < 256
    · rw [free_page, wp_bind, wp_get, wp_ite]
      refine ⟨fun _ => ?_, fun h => absurd hlow h⟩
      rw [wp_pure, wp_modify]
      refine ⟨⟨{ hunset with
        ledger := fun g hg => ?_, shared := fun v g hv => ?_ }, P.blank⟩, rfl, hrest⟩
      · have hgf : g ≠ f := by omega
        rw [hunset.ledger g hg, plus_ne others hgf]
      · obtain ⟨h1, h2, -⟩ := P.shared v g hv
        exact ⟨h1, h2, fun _ => P.blank g v⟩
    · obtain ⟨hne, hbooks⟩ := hunset.give (by omega) hshared
      refine wp_free_page (by omega) hne ?_
      rw [wp_modify]
      exact ⟨⟨hbooks, P.blank⟩, rfl, hrest⟩

theorem wp_free_entries (P : Plain others k) (u n : ℕ) :
    wp (free_entries u n) (fun _ k' => Plain others k' ∧ k'.pg_table = k.pg_table ∧
      ∀ v, k'.pte v = if u ≤ v ∧ v < u + n then none else k.pte v) (fun _ _ => False) k := by
  induction n with
  | zero =>
    rw [free_entries, wp_pure]
    refine ⟨P, rfl, fun v => ?_⟩
    rw [if_neg (by omega)]
  | succ n ih =>
    rw [free_entries, wp_bind]
    refine wp_mono ih ?_ fun _ _ h => h
    rintro _ k1 ⟨P1, htable1, hpte1⟩
    refine wp_mono (wp_free_entry P1 (u + n)) ?_ fun _ _ h => h
    rintro _ k2 ⟨P2, htable2, hself, hother⟩
    refine ⟨P2, htable2.trans htable1, fun v => ?_⟩
    by_cases hv : v = u + n
    · rw [hv, hself, if_pos (by omega)]
    · rw [hother v hv, hpte1 v]
      by_cases hin : u ≤ v ∧ v < u + n
      · rw [if_pos hin, if_pos (by omega)]
      · rw [if_neg hin, if_neg (by omega)]

theorem wp_free_table (P : Plain others k) (d : ℕ) : wp (free_table d) (fun _ k' => Plain others k' ∧
      k'.pg_table = update k.pg_table d none) (fun _ _ => False) k := by
  rw [free_table, wp_bind, wp_get]
  generalize hn : 1024 = n
  split
  · rename_i hnone
    rw [wp_pure, ← hnone, update_eq_self]
    exact ⟨P, rfl⟩
  · rename_i t ht
    rw [wp_bind]
    refine wp_mono (wp_free_entries P (n * d) n) ?_ fun _ _ h => h
    rintro _ k1 ⟨P1, htable1, hpte1⟩
    have ht1 : k1.pg_table d = some t := by rw [htable1, ht]
    have hunset := P1.toBooks.unset_table ht1 fun u hu => by
      rw [hpte1 u, if_pos (by subst hn; omega)]
    have hshared : ∀ v, k1.shared v = some t → 0 < others t := fun v hv => (P1.shared v t hv).2.1
    obtain ⟨hge, -, -⟩ := P1.table_own d t ht1
    obtain ⟨hne, hbooks⟩ := hunset.give hge hshared
    rw [wp_bind]
    refine wp_free_page hge hne ?_
    rw [wp_modify]
    refine ⟨⟨hbooks, P1.blank⟩, ?_⟩
    show update k1.pg_table d none = _
    rw [htable1]

theorem wp_free_tables (P : Plain others k) (n : ℕ) : wp (free_tables n) (fun _ k' => Plain others k' ∧
      ∀ d, k'.pg_table d = if d < n then none else k.pg_table d) (fun _ _ => False) k := by
  induction n with
  | zero =>
    rw [free_tables, wp_pure]
    exact ⟨P, fun d => by rw [if_neg (Nat.not_lt_zero d)]⟩
  | succ n ih =>
    rw [free_tables, wp_bind]
    refine wp_mono ih ?_ fun _ _ h => h
    rintro _ k1 ⟨P1, htable1⟩
    refine wp_mono (wp_free_table P1 n) ?_ fun _ _ h => h
    rintro _ k2 ⟨P2, htable2⟩
    refine ⟨P2, fun d => ?_⟩
    rw [htable2]
    by_cases hd : d = n
    · rw [hd, update_self, if_pos (Nat.lt_succ_self n)]
    · rw [update_of_ne hd, htable1 d]
      by_cases hlt : d < n
      · rw [if_pos hlt, if_pos (by omega)]
      · rw [if_neg hlt, if_neg (by omega)]

/-- Nothing but pages, page tables and counts changes. -/
def OnlyPages (k k' : Kernel) : Prop :=
  k' = { k with mem_map := k'.mem_map, pte := k'.pte, pg_table := k'.pg_table }

theorem leaves_free_page (f : ℕ) : Leaves (OnlyPages k) (free_page f) := by
  refine Leaves.look fun s _ => Leaves.ite (fun _ => Leaves.pure _) fun _ =>
    Leaves.ite (fun _ => Leaves.throw _) fun _ => Leaves.modify fun s hs => ?_
  rw [OnlyPages, hs]

theorem leaves_free_entries (u n : ℕ) : Leaves (OnlyPages k) (free_entries u n) := by
  induction n with
  | zero => exact Leaves.pure _
  | succ n ih =>
    refine Leaves.bind ih fun _ => Leaves.look fun s _ => ?_
    split
    · exact Leaves.pure _
    · refine Leaves.bind (leaves_free_page _) fun _ => Leaves.modify fun s hs => ?_
      rw [OnlyPages, hs]

theorem leaves_free_table (d : ℕ) : Leaves (OnlyPages k) (free_table d) := by
  rw [free_table]
  generalize 1024 = n
  refine Leaves.look fun s _ => ?_
  split
  · exact Leaves.pure _
  · refine Leaves.bind (leaves_free_entries _ _) fun _ => Leaves.bind (leaves_free_page _) fun _ =>
      Leaves.modify fun s hs => ?_
    rw [OnlyPages, hs]

theorem leaves_free_tables (n : ℕ) : Leaves (OnlyPages k) (free_tables n) := by
  induction n with
  | zero => exact Leaves.pure _
  | succ n ih => exact Leaves.bind ih fun _ => leaves_free_table n

/-- `free_page_tables`: the page tables of the segment go, and nothing else changes. -/
theorem wp_free_page_tables (B : Books others k.bare) (size : ℕ) :
    wp (free_page_tables size) (fun _ k' => Books others k'.bare ∧ OnlyPages k k' ∧
      ∀ d, k'.pg_table d = if d * 0x400000 < size then none else k.pg_table d)
      (fun _ _ => False) k := by
  rw [free_page_tables]
  have hbooks := (bare_free_tables ((size + 0x3fffff) / 2 ^ 22)).wp_iff.1 (wp_free_tables B.plain _)
  have honly := leaves_free_tables ((size + 0x3fffff) / 2 ^ 22) k rfl
  refine wp_mono (wp_and hbooks honly) ?_ fun _ _ h => h.1
  rintro _ k' ⟨⟨P, htable⟩, hk'⟩
  refine ⟨P.toBooks, hk', fun d => ?_⟩
  refine (htable d).trans (if_congr ?_ rfl rfl)
  omega

end OldLinux.Exec
