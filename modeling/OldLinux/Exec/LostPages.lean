import OldLinux.Exec.Mapping

/-!
# No page of the strings is lost

What comes after `change_ldt` only reads, writes and loads pages, which leaves those of the strings where
they are.  If a string runs past the beginning of the area, though, its page is stored outside of the
array, where `change_ldt` does not look for it.
-/

namespace OldLinux.Exec

open Function Lib

variable {others : ℕ → ℕ} {k k' : Kernel} {x : Answers} {a : Args} {A : ℕ → Option ℕ} {f u i n : ℕ}

/-! ### The pages stay -/

theorem held_touch (a : ℕ) : Triple (Held others A) (touch a) fun _ => Held others A := by
  intro k H
  have htouch := (bare_touch a).wp_iff.1 (wp_touch H.books a)
  refine wp_mono (wp_and htouch (kept_touch a k (Kept.refl k))) ?_ fun _ _ _ => trivial
  rintro _ k' ⟨⟨hreads, -⟩, hkept⟩
  refine ⟨hreads.books, hkept.page.trans H.page, fun i f hf => ?_⟩
  obtain ⟨h1, h2, h3, h4, h5⟩ := H.kept i f hf
  refine ⟨h1, h2, h3, ?_, hreads.loads.pte _ f h5⟩
  refine (hreads.loads.counts f (.inr ?_) fun u hu => ?_).trans h4
  · show k.mem_map f ≠ 0
    omega
  · have hpos := (H.books.shared u f hu).2.1
    omega

theorem held_get_fs_byte (a : ℕ) : Triple (Held others A) (get_fs_byte a) fun _ => Held others A := by
  refine TripleOr.look fun k => ?_
  split
  · exact TripleOr.pure fun _ h => h
  · exact TripleOr.bind (held_touch a) fun _ => TripleOr.look fun _ => TripleOr.pure fun _ h => h

theorem held_put_fs_byte (v a : ℕ) : Triple (Held others A) (put_fs_byte v a) fun _ => Held others A := by
  refine TripleOr.bind (held_touch a) fun _ => TripleOr.look fun k => ?_
  split
  · exact fun s H => ⟨H.books, H.page, H.kept⟩
  · exact TripleOr.pure fun _ h => h

theorem held_put_fs_long (v a : ℕ) : Triple (Held others A) (put_fs_long v a) fun _ => Held others A :=
  TripleOr.bind (held_put_fs_byte v a) fun _ => TripleOr.bind (held_put_fs_byte _ _) fun _ =>
    TripleOr.bind (held_put_fs_byte _ _) fun _ => held_put_fs_byte _ _

theorem held_string_len (n a : ℕ) : Triple (Held others A) (string_len n a) fun _ => Held others A := by
  induction n generalizing a with
  | zero => exact Triple.throw
  | succ n ih =>
    exact TripleOr.bind (held_get_fs_byte a) fun c => TripleOr.ite (fun _ => TripleOr.pure fun _ h => h)
      fun _ => TripleOr.bind (ih (a + 1)) fun _ => TripleOr.pure fun _ h => h

theorem held_put_pointers (n p t : ℕ) : Triple (Held others A) (put_pointers n p t) fun _ => Held others A := by
  induction n generalizing p t with
  | zero => exact TripleOr.pure fun _ h => h
  | succ n ih =>
    exact TripleOr.bind (held_put_fs_long p t) fun _ => TripleOr.bind (held_string_len _ p) fun len =>
      ih (p + len) (t + 4)

theorem held_create_tables (p argc envc : ℕ) :
    Triple (Held others A) (create_tables p argc envc) fun _ => Held others A :=
  TripleOr.bind (held_put_fs_long _ _) fun _ => TripleOr.bind (held_put_fs_long _ _) fun _ =>
    TripleOr.bind (held_put_fs_long _ _) fun _ => TripleOr.bind (held_put_pointers _ _ _) fun _ =>
    TripleOr.bind (held_put_fs_long _ _) fun _ => TripleOr.bind (held_put_pointers _ _ _) fun _ =>
    TripleOr.bind (held_put_fs_long _ _) fun _ => TripleOr.pure fun _ h => h

theorem held_clear_rest (n i : ℕ) : Triple (Held others A) (clear_rest n i) fun _ => Held others A := by
  induction n generalizing i with
  | zero => exact TripleOr.pure fun _ h => h
  | succ n ih =>
    exact TripleOr.ite (fun _ => TripleOr.pure fun _ h => h) fun _ =>
      TripleOr.bind (held_put_fs_byte 0 i) fun _ => ih (i + 1)

/-! ### No page is lost -/

/-- Each page of the array is in its place in the memory of the task and nowhere else, and all counts
are those of the references in page tables and of others. -/
structure NoPageLost (others : ℕ → ℕ) (k : Kernel) : Prop where
  mapped : ∀ i f, k.page i = some f → i < 32 ∧ k.pte ((0x4000000 - 4096 * (32 - i)) / PAGE_SIZE) = some f
  alone : ∀ i f, k.page i = some f → k.mem_map f = 1 ∧ others f = 0 ∧
    (∀ u, k.pte u = some f → u = (0x4000000 - 4096 * (32 - i)) / PAGE_SIZE) ∧ ∀ d, k.pg_table d ≠ some f
  counted : ∀ f, 256 ≤ f → k.mem_map f = others f + k.own f

theorem Held.no_page_lost (H : Held others A k) : NoPageLost others k := by
  have hplace : ∀ i, i < 32 → (0x4000000 - 4096 * (32 - i)) / PAGE_SIZE = argPage i := by
    intro i hi
    rw [argPage_eq, PAGE_SIZE]
    omega
  have hcounted : ∀ f, 256 ≤ f → k.mem_map f = others f + k.own f := by
    intro f hf
    have hl : k.mem_map f = others f + k.own f + k.bare.args f := H.books.ledger f hf
    have hnone : k.bare.args f = 0 := refs_none 32 f
    omega
  refine ⟨fun i f hi => ?_, fun i f hi => ?_, hcounted⟩
  · rw [H.page] at hi
    obtain ⟨h1, -, -, -, h5⟩ := H.kept i f hi
    exact ⟨h1, by rw [hplace i h1, h5]⟩
  · rw [H.page] at hi
    obtain ⟨h1, h2, h3, h4, h5⟩ := H.kept i f hi
    have hl := hcounted f h2
    have hlt : argPage i < 16384 := by
      rw [argPage_eq]
      omega
    have hpos := refs_pos hlt h5
    rw [Kernel.own, h3, h4] at hl
    refine ⟨h4, h3, fun u hu => ?_, fun d hd => ?_⟩
    · rw [hplace i h1]
      refine refs_unique (n := 16384) (by omega) ?_ hlt hu h5
      exact H.books.page_lt u (by
        show k.pte u ≠ none
        rw [hu]
        exact Option.some_ne_none f)
    · refine refs_zero (n := 16) (i := d) (show refs 16 k.pg_table f = 0 by omega) ?_ hd
      exact H.books.table_lt d (by
        show k.pg_table d ≠ none
        rw [hd]
        exact Option.some_ne_none f)

/-- From `create_tables` on, the pages stay where they are. -/
theorem held_tail (data : Space) (p argc envc e_uid e_gid : ℕ) (H : Held others A k) :
    wp (install_tables data argc envc p e_uid e_gid
      (clear_rest PAGE_SIZE ((a_text data + a_data data) % 2 ^ 32)))
      (fun _ => Held others A) (fun e _ => e ≠ .outside) k := by
  have hheld := @held_clear_rest others A PAGE_SIZE ((a_text data + a_data data) % 2 ^ 32)
  have hinside := inside_clear_rest PAGE_SIZE ((a_text data + a_data data) % 2 ^ 32)
  generalize clear_rest PAGE_SIZE ((a_text data + a_data data) % 2 ^ 32) = clear at hheld hinside ⊢
  rw [install_tables, wp_bind]
  refine wp_mono (wp_and (held_create_tables p argc envc k H) (inside_create_tables p argc envc k)) ?_
    fun _ _ h => h.2
  rintro p k1 ⟨H1, -⟩
  rw [wp_bind, wp_modify, wp_bind]
  refine wp_mono (wp_and (hheld _ ⟨{ H1.books with }, H1.page, H1.kept⟩) (hinside _)) ?_ fun _ _ h => h.2
  rintro _ k2 ⟨H2, -⟩
  rw [wp_bind, wp_modify, wp_pure]
  exact ⟨{ H2.books with }, H2.page, H2.kept⟩

/-- When the call returns successfully no page of the strings is lost, and none is stored outside of
the array. -/
def LosesNoPage (others : ℕ → ℕ) (x : Answers) (a : Args) (k : Kernel) : Prop :=
  wp (do_execve x a) (fun r k' => r = 0 → NoPageLost others k') (fun e _ => e ≠ .outside) k

theorem not_kept_of_outside (h : wp (do_execve x a) (fun _ _ => False) (fun e _ => e = .outside) k) :
    ¬LosesNoPage others x a k := by
  intro hkept
  rw [LosesNoPage] at hkept
  rw [wp] at h hkept
  split at h
  · exact h
  · rename_i hrun
    rw [hrun] at hkept
    exact hkept h

/-- **A successful `execve` loses no page** if the call ends before it copies its strings or they all have
room in the area; and with the strings in memory and a free frame for each page, only then. -/
theorem execve_loses_no_page (B : Books others k.cleared) (hfs : k.fs = .user) (hsegment : k.InSegment)
    (hshared : ∀ u f, x.shared u = some f → 256 ≤ f ∧ 0 < others f) :
    (StringsFit x a k → LosesNoPage others x a k) ∧
    ∀ name args env, Present x a name args env k → 32 ≤ k.free →
      (LosesNoPage others x a k ↔ StringsFit x a k) := by
  have hkeeps : StringsFit x a k → LosesNoPage others x a k := by
    intro hfits
    refine wp_do_execve B hfs (fun r k' hr _ hzero => by omega) ?_ (fun _ _ he => he) fun inode b R hno _ => ?_
    · intro k0 inode data argc envc p e_uid e_gid k' hentered hready
      have F := hready.middle.filling
      have hseg := F.loads.in_segment (hentered.reads.loads.in_segment hsegment)
      refine wp_install F.books hready.there.2 hseg hshared fun k1 hbegun => ?_
      exact wp_mono (held_tail data _ _ _ _ _ hbegun.held) (fun _ _ H _ => H.no_page_lost) fun _ _ he => he
    · exact absurd (hfits inode b R) hno
  refine ⟨hkeeps, fun name args env I hfree => ⟨fun h => ?_, hkeeps⟩⟩
  exact strings_fit_of_not_outside B hfs I hfree fun hout => not_kept_of_outside hout h

theorem caller_in_segment : caller.InSegment := by
  intro d hd
  by_cases hzero : d = 0
  · rw [hzero]
    show 0 * 0x400000 < 0x400000
    decide
  · replace hd : update (fun _ => none) 0 (some 300) d ≠ none := hd
    rw [update_of_ne hzero] at hd
    exact absurd rfl hd

theorem execve_loses_no_page_caller : LosesNoPage (fun _ => 0) script shortName caller ∧
    (LosesNoPage (fun _ => 0) script longName caller ↔ StringsFit script longName caller) := by
  obtain ⟨s, -, hpresent⟩ := caller_present
  have hfree := caller_free
  have hshared : ∀ u f, script.shared u = some f → 256 ≤ f ∧ 0 < (fun _ => 0 : ℕ → ℕ) f :=
    fun _ _ h => by cases h
  exact ⟨(execve_loses_no_page caller_books rfl caller_in_segment hshared).1 short_name_fits,
    (execve_loses_no_page caller_books rfl caller_in_segment hshared).2 s [] [] hpresent (by omega)⟩

theorem caller_loses_page (hk : k = caller) : ¬LosesNoPage (fun _ => 0) script longName k :=
  not_kept_of_outside (caller_outside hk)

/-- Without arguments and environment, and with a script of a name of 128 kB. -/
theorem long_name_loses_page : Books (fun _ => 0) caller.cleared ∧ caller.InSegment ∧
    caller.fs = .user ∧ Caller caller.user longName.argv [] ∧ Caller caller.user longName.envp [] ∧
    ¬LosesNoPage (fun _ => 0) script longName caller :=
  ⟨caller_books, caller_in_segment, rfl, .inl ⟨rfl, rfl⟩, .inl ⟨rfl, rfl⟩, caller_loses_page rfl⟩

end OldLinux.Exec
