import OldLinux.Exec.Machine
import OldLinux.Lib.Counting

/-!
# Pages for the arguments

The books of `mem_map`: each frame is counted once for each reference of the task's page tables, of the
array `page`, and of anybody else.  They are kept when a page is allocated, loaded, mapped or freed.
-/

namespace OldLinux.Exec

open Function Lib

variable {others : ℕ → ℕ} {k k' k'' : Kernel} {m : ℕ → Option ℕ} {f g u d i n a : ℕ}

/-! ### References to frames -/

/-- How often the first `n` places of `m` name the frame. -/
def refs (n : ℕ) (m : ℕ → Option ℕ) (f : ℕ) : ℕ := countIn (Finset.range n) fun i => m i = some f

theorem refs_none (n f : ℕ) : refs n (fun _ => none) f = 0 :=
  countIn_eq_zero.2 fun _ _ h => by cases h

theorem refs_zero (h : refs n m f = 0) (hi : i < n) : m i ≠ some f :=
  countIn_eq_zero.1 h i (Finset.mem_range.2 hi)

theorem refs_pos (hi : i < n) (h : m i = some f) : 0 < refs n m f :=
  countIn_pos (Finset.mem_range.2 hi) h

theorem refs_update_some (hi : i < n) (h : m i = none) (f g : ℕ) :
    refs n (update m i (some g)) f = refs n m f + if f = g then 1 else 0 := by
  have hex := countIn_exchange (P := fun j => m j = some f)
    (Q := fun j => update m i (some g) j = some f) (Finset.mem_range.2 hi)
    (fun j _ hj => by rw [update_of_ne hj])
  rw [h, update_self, if_neg (by simp)] at hex
  simp only [Option.some.injEq] at hex
  rw [refs, refs, ← Nat.add_zero (countIn _ _), hex]
  congr 1
  simp only [eq_comm]

theorem refs_update_none (hi : i < n) (h : m i = some g) (f : ℕ) :
    refs n (update m i none) f + (if f = g then 1 else 0) = refs n m f := by
  have hback := refs_update_some hi (update_self i none m) f g
  rw [update_idem, ← h, update_eq_self] at hback
  exact hback.symm

/-- One place names the frame if the count is one. -/
theorem refs_unique {j : ℕ} (h : refs n m f ≤ 1) (hi : i < n) (hj : j < n) (hmi : m i = some f)
    (hmj : m j = some f) : i = j :=
  eq_of_countIn_le_one h (Finset.mem_range.2 hi) (Finset.mem_range.2 hj) hmi hmj

/-! ### The books -/

/-- The references of the task to a frame, and of the array `page`. -/
def Kernel.own (k : Kernel) (f : ℕ) : ℕ := refs 16384 k.pte f + refs 16 k.pg_table f

def Kernel.args (k : Kernel) (f : ℕ) : ℕ := refs 32 k.page f

/-- The books, with the references of all others. -/
structure Books (others : ℕ → ℕ) (k : Kernel) : Prop where
  ledger : ∀ f, 256 ≤ f → k.mem_map f = others f + k.own f + k.args f
  limit : k.task.data_limit ≤ 0x4000000
  page_lt : ∀ u, k.pte u ≠ none → u < 16384
  table_lt : ∀ d, k.pg_table d ≠ none → d < 16
  arg_lt : ∀ i, k.page i ≠ none → i < 32
  table : ∀ u, k.pte u ≠ none → k.pg_table (u / 1024) ≠ none
  table_own : ∀ d t, k.pg_table d = some t → 256 ≤ t ∧ t < 4096 ∧ k.mem_map t = 1
  arg_own : ∀ i f, k.page i = some f → 256 ≤ f ∧ k.mem_map f = 1
  shared : ∀ u f, k.shared u = some f → 256 ≤ f ∧ 0 < others f ∧ (k.pte u = none → k.frame f = k.loaded u)

/-- A frame that somebody has. -/
def Kernel.Used (k : Kernel) (f : ℕ) : Prop := f < 256 ∨ k.mem_map f ≠ 0

/-- What was there is still there: pages have been loaded, page tables added, and nothing else has
happened to the memory of the task. -/
structure Adds (k k' : Kernel) : Prop where
  task : k'.task = k.task
  eip : k'.eip = k.eip
  loaded : k'.loaded = k.loaded
  shared : k'.shared = k.shared
  used : ∀ f, k.Used f → k'.Used f ∧ k'.frame f = k.frame f
  counts : ∀ f, k.Used f → (∀ u, k.shared u ≠ some f) → k'.mem_map f = k.mem_map f
  pte : ∀ u f, k.pte u = some f → k'.pte u = some f
  tables : ∀ d t, k.pg_table d = some t → k'.pg_table d = some t
  fresh : ∀ u f, k.pte u = none → k'.pte u = some f → k'.Used f ∧ k'.frame f = k.loaded u
  args : ∀ i f, k'.page i = some f → k.page i = some f ∨ ¬k.Used f

/-- Each page table that was added is that of a page that was loaded, and the pages are in the segment
of the task. -/
structure Loads (k k' : Kernel) : Prop extends Adds k k' where
  needed : ∀ d, k.pg_table d = none → k'.pg_table d ≠ none → ∃ u, u / 1024 = d ∧
    k.pte u = none ∧ k'.pte u ≠ none
  within : ∀ u, k.pte u = none → k'.pte u ≠ none → u * PAGE_SIZE < k.task.data_limit

theorem Adds.refl (k : Kernel) : Adds k k where
  task := rfl
  eip := rfl
  loaded := rfl
  shared := rfl
  used := fun _ h => ⟨h, rfl⟩
  counts := fun _ _ _ => rfl
  pte := fun _ _ h => h
  tables := fun _ _ h => h
  fresh := fun u f h h' => by rw [h] at h'; cases h'
  args := fun _ _ h => .inl h

theorem Loads.refl (k : Kernel) : Loads k k :=
  ⟨Adds.refl k, fun _ h h' => absurd h h', fun _ h h' => absurd h h'⟩

theorem Adds.trans (h : Adds k k') (h' : Adds k' k'') : Adds k k'' where
  task := h'.task.trans h.task
  eip := h'.eip.trans h.eip
  loaded := h'.loaded.trans h.loaded
  shared := h'.shared.trans h.shared
  used := by
    intro f hf
    obtain ⟨h1, h2⟩ := h.used f hf
    obtain ⟨h3, h4⟩ := h'.used f h1
    exact ⟨h3, h4.trans h2⟩
  counts := fun f hf hno =>
    (h'.counts f (h.used f hf).1 (by rwa [h.shared])).trans (h.counts f hf hno)
  pte := fun u f hu => h'.pte u f (h.pte u f hu)
  tables := fun d t hd => h'.tables d t (h.tables d t hd)
  fresh := by
    intro u f hnone hsome
    cases hmid : k'.pte u with
    | none => exact h.loaded ▸ h'.fresh u f hmid hsome
    | some g =>
      obtain ⟨h1, h2⟩ := h.fresh u g hnone hmid
      obtain rfl := Option.some.inj ((h'.pte u g hmid).symm.trans hsome)
      obtain ⟨h3, h4⟩ := h'.used g h1
      exact ⟨h3, h4.trans h2⟩
  args := by
    intro i f hi
    rcases h'.args i f hi with h1 | h1
    · exact h.args i f h1
    · exact .inr fun hf => h1 (h.used f hf).1

theorem Adds.pte_none (h : Adds k k') (hu : k'.pte u = none) : k.pte u = none := by
  cases hbefore : k.pte u with
  | none => rfl
  | some f =>
    rw [h.pte u f hbefore] at hu
    cases hu

theorem Adds.pte_ne (h : Adds k k') (hu : k.pte u ≠ none) : k'.pte u ≠ none :=
  fun hnone => hu (h.pte_none hnone)

theorem Loads.trans (h : Loads k k') (h' : Loads k' k'') : Loads k k'' := by
  refine ⟨h.toAdds.trans h'.toAdds, ?_, ?_⟩
  · intro d hnone hsome
    cases hmid : k'.pg_table d with
    | none =>
      obtain ⟨u, hu, h1, h2⟩ := h'.needed d hmid hsome
      exact ⟨u, hu, h.pte_none h1, h2⟩
    | some t =>
      obtain ⟨u, hu, h1, h2⟩ := h.needed d hnone (by rw [hmid]; exact Option.some_ne_none t)
      exact ⟨u, hu, h1, h'.pte_ne h2⟩
  · intro u hnone hsome
    cases hmid : k'.pte u with
    | none =>
      have hlt := h'.within u hmid hsome
      rwa [h.task] at hlt
    | some f => exact h.within u hnone (by rw [hmid]; exact Option.some_ne_none f)

/-- The rest is as it was. -/
structure SameRest (k k' : Kernel) : Prop where
  page : k'.page = k.page
  fs : k'.fs = k.fs
  buf : k'.buf = k.buf
  i_count : k'.i_count = k.i_count
  b_count : k'.b_count = k.b_count

theorem SameRest.refl (k : Kernel) : SameRest k k := ⟨rfl, rfl, rfl, rfl, rfl⟩

theorem SameRest.trans (h : SameRest k k') (h' : SameRest k' k'') : SameRest k k'' :=
  ⟨h'.page.trans h.page, h'.fs.trans h.fs, h'.buf.trans h.buf, h'.i_count.trans h.i_count,
    h'.b_count.trans h.b_count⟩

/-! ### A free frame -/

theorem lastFree_some {mem_map : ℕ → ℕ} (h : lastFree mem_map n = some f) :
    256 ≤ f ∧ f < 256 + n ∧ mem_map f = 0 := by
  induction n with
  | zero => cases h
  | succ n ih =>
    rw [lastFree] at h
    split_ifs at h with hzero
    · cases h
      exact ⟨Nat.le_add_right _ _, Nat.lt_succ_self _, hzero⟩
    · obtain ⟨h1, h2, h3⟩ := ih h
      exact ⟨h1, Nat.lt_succ_of_lt h2, h3⟩

theorem lastFree_none {mem_map : ℕ → ℕ} (h : lastFree mem_map n = none) (hf : 256 ≤ f)
    (hlt : f < 256 + n) : mem_map f ≠ 0 := by
  induction n with
  | zero => omega
  | succ n ih =>
    rw [lastFree] at h
    split_ifs at h with hzero
    by_cases hfn : f = 256 + n
    · rwa [hfn]
    · exact ih h (by omega)

/-- The kernel after `get_free_page`. -/
def Kernel.take (k : Kernel) (f : ℕ) : Kernel :=
  { k with mem_map := update k.mem_map f 1
           frame := update k.frame f fun _ => 0 }

theorem wp_get_free_page {Q : Option ℕ → Kernel → Prop} {E : Trap → Kernel → Prop}
    (hnone : (∀ f, 256 ≤ f → f < 4096 → k.mem_map f ≠ 0) → Q none k)
    (hsome : ∀ f, 256 ≤ f → f < 4096 → k.mem_map f = 0 → Q (some f) (k.take f)) :
    wp get_free_page Q E k := by
  rw [get_free_page, wp_bind, wp_get]
  split
  · rename_i h
    exact hnone fun f h1 h2 => lastFree_none h h1 h2
  · rename_i f h
    obtain ⟨h1, h2, h3⟩ := lastFree_some h
    exact hsome f h1 h2 h3

theorem take_used (hzero : k.mem_map f = 0) (hf : 256 ≤ f) (hg : k.Used g) :
    g ≠ f ∧ (k.take f).Used g ∧ (k.take f).frame g = k.frame g := by
  have hne : g ≠ f := by
    rintro rfl
    rcases hg with h | h
    · omega
    · exact h hzero
  refine ⟨hne, hg.imp_right fun h => ?_, update_of_ne hne ..⟩
  show update k.mem_map f 1 g ≠ 0
  rwa [update_of_ne hne]

/-! ### One reference more, one less -/

/-- One reference more to `f`, by somebody else. -/
def plus (others : ℕ → ℕ) (f : ℕ) : ℕ → ℕ := fun g => others g + if g = f then 1 else 0

theorem plus_self (others : ℕ → ℕ) (f : ℕ) : plus others f f = others f + 1 := by rw [plus, if_pos rfl]

theorem plus_ne (others : ℕ → ℕ) (h : g ≠ f) : plus others f g = others g := by
  rw [plus, if_neg h, Nat.add_zero]

theorem pos_of_plus (h : 0 < plus others f g) (hf : g = f → 0 < others f) : 0 < others g := by
  by_cases hgf : g = f
  · rw [hgf]
    exact hf hgf
  · rwa [plus_ne others hgf] at h

theorem Books.unused (B : Books others k) (hf : 256 ≤ f) (h : k.mem_map f = 0) :
    others f = 0 ∧ refs 16384 k.pte f = 0 ∧ refs 16 k.pg_table f = 0 ∧ refs 32 k.page f = 0 := by
  have hl := B.ledger f hf
  rw [Kernel.own, Kernel.args] at hl
  omega

theorem Books.used_of_pte (B : Books others k) (h : k.pte u = some f) : k.Used f := by
  by_cases hf : f < 256
  · exact .inl hf
  · refine .inr ?_
    have hl := B.ledger f (by omega)
    have hpos := refs_pos (B.page_lt u (by rw [h]; exact Option.some_ne_none f)) h
    rw [Kernel.own] at hl
    omega

theorem Books.table_alone (B : Books others k) {t : ℕ} (h : k.pg_table d = some t) :
    others t = 0 ∧ refs 16384 k.pte t = 0 ∧ refs 32 k.page t = 0 := by
  obtain ⟨hge, -, hone⟩ := B.table_own d t h
  have hpos := refs_pos (B.table_lt d (by rw [h]; exact Option.some_ne_none t)) h
  have hl := B.ledger t hge
  rw [Kernel.own, Kernel.args] at hl
  omega

theorem Books.arg_alone (B : Books others k) (h : k.page i = some f) :
    others f = 0 ∧ refs 16384 k.pte f = 0 ∧ refs 16 k.pg_table f = 0 := by
  obtain ⟨hge, hone⟩ := B.arg_own i f h
  have hpos := refs_pos (B.arg_lt i (by rw [h]; exact Option.some_ne_none f)) h
  have hl := B.ledger f hge
  rw [Kernel.own, Kernel.args] at hl
  omega

/-- `get_free_page`. -/
theorem Books.take (B : Books others k) (hf : 256 ≤ f) (h : k.mem_map f = 0) :
    Books (plus others f) (k.take f) := by
  have hmap : ∀ g, g ≠ f → (k.take f).mem_map g = k.mem_map g := fun g hg =>
    update_of_ne hg ..
  obtain ⟨hothers, hpte, htable, hargs⟩ := B.unused hf h
  refine ⟨fun g hg => ?_, B.limit, B.page_lt, B.table_lt, B.arg_lt, B.table, fun d t ht => ?_,
    fun i g hi => ?_, fun u g hu => ?_⟩
  · by_cases hgf : g = f
    · subst hgf
      show update k.mem_map g 1 g = plus others g
        g + (refs 16384 k.pte g + refs 16 k.pg_table g) + refs 32 k.page g
      rw [update_self, plus_self]
      omega
    · rw [hmap g hgf, plus_ne others hgf]
      exact B.ledger g hg
  · obtain ⟨h1, h2, h3⟩ := B.table_own d t ht
    refine ⟨h1, h2, ?_⟩
    rw [hmap t fun heq => ?_]
    · exact h3
    · rw [heq, h] at h3
      cases h3
  · obtain ⟨h1, h2⟩ := B.arg_own i g hi
    refine ⟨h1, ?_⟩
    rw [hmap g fun heq => ?_]
    · exact h2
    · rw [heq, h] at h2
      cases h2
  · obtain ⟨h1, h2, h3⟩ := B.shared u g hu
    have hgf : g ≠ f := by
      rintro rfl
      omega
    exact ⟨h1, by rwa [plus_ne others hgf], fun hv => (update_of_ne hgf ..).trans (h3 hv)⟩

/-- A page gets a frame that somebody has counted for it. -/
theorem Books.set_pte (B : Books (plus others f) k) (hu : u < 16384) (hnone : k.pte u = none)
    (htable : k.pg_table (u / 1024) ≠ none) (hshared : ∀ v, k.shared v = some f → 0 < others f) :
    Books others { k with pte := update k.pte u (some f) } := by
  refine ⟨fun g hg => ?_, B.limit, fun v hv => ?_, B.table_lt, B.arg_lt, fun v hv => ?_, B.table_own,
    B.arg_own, fun v g hv => ?_⟩
  · have hl := B.ledger g hg
    show k.mem_map g = others g + (refs 16384 (update k.pte u (some f)) g + refs 16 k.pg_table g) + k.args g
    rw [refs_update_some hu hnone, hl, plus, Kernel.own]
    omega
  · by_cases hvu : v = u
    · rwa [hvu]
    · exact B.page_lt v (by rwa [← update_of_ne hvu (some f) k.pte])
  · by_cases hvu : v = u
    · rwa [hvu]
    · exact B.table v (by rwa [← update_of_ne hvu (some f) k.pte])
  · obtain ⟨h1, h2, h3⟩ := B.shared v g hv
    refine ⟨h1, pos_of_plus h2 fun hgf => hshared v (hgf ▸ hv), fun hvu => h3 ?_⟩
    by_cases hvu' : v = u
    · rw [hvu', hnone]
    · rwa [← update_of_ne hvu' (some f) k.pte]

/-- A page table gets its frame. -/
theorem Books.set_table (B : Books (plus others f) k) (hd : d < 16) (hnone : k.pg_table d = none)
    (hf : 256 ≤ f) (hlt : f < 4096) (hone : k.mem_map f = 1)
    (hshared : ∀ v, k.shared v = some f → 0 < others f) :
    Books others { k with pg_table := update k.pg_table d (some f) } := by
  have hother : ∀ e, k.pg_table e ≠ none → update k.pg_table d (some f) e ≠ none := by
    intro e he
    by_cases hed : e = d
    · rw [hed, update_self]
      exact Option.some_ne_none f
    · rwa [update_of_ne hed]
  refine ⟨fun g hg => ?_, B.limit, B.page_lt, fun e he => ?_, B.arg_lt,
    fun v hv => hother _ (B.table v hv), fun e t ht => ?_, B.arg_own, fun v g hv => ?_⟩
  · have hl := B.ledger g hg
    show k.mem_map g = others g + (refs 16384 k.pte g + refs 16 (update k.pg_table d (some f)) g) + k.args g
    rw [refs_update_some hd hnone, hl, plus, Kernel.own]
    omega
  · by_cases hed : e = d
    · rwa [hed]
    · exact B.table_lt e (by rwa [← update_of_ne hed (some f) k.pg_table])
  · replace ht : update k.pg_table d (some f) e = some t := ht
    by_cases hed : e = d
    · rw [hed, update_self] at ht
      cases ht
      exact ⟨hf, hlt, hone⟩
    · rw [update_of_ne hed] at ht
      exact B.table_own e t ht
  · obtain ⟨h1, h2, h3⟩ := B.shared v g hv
    exact ⟨h1, pos_of_plus h2 fun hgf => hshared v (hgf ▸ hv), h3⟩

/-- The array `page` gets a frame. -/
theorem Books.set_arg (B : Books (plus others f) k) (hi : i < 32) (hnone : k.page i = none)
    (hf : 256 ≤ f) (hone : k.mem_map f = 1) (hshared : ∀ v, k.shared v = some f → 0 < others f) :
    Books others { k with page := update k.page i (some f) } := by
  refine ⟨fun g hg => ?_, B.limit, B.page_lt, B.table_lt, fun j hj => ?_, B.table, B.table_own,
    fun j g hj => ?_, fun v g hv => ?_⟩
  · have hl := B.ledger g hg
    show k.mem_map g = others g + k.own g + refs 32 (update k.page i (some f)) g
    rw [refs_update_some hi hnone, hl, plus, Kernel.args]
    omega
  · by_cases hji : j = i
    · rwa [hji]
    · exact B.arg_lt j (by rwa [← update_of_ne hji (some f) k.page])
  · replace hj : update k.page i (some f) j = some g := hj
    by_cases hji : j = i
    · rw [hji, update_self] at hj
      cases hj
      exact ⟨hf, hone⟩
    · rw [update_of_ne hji] at hj
      exact B.arg_own j g hj
  · obtain ⟨h1, h2, h3⟩ := B.shared v g hv
    exact ⟨h1, pos_of_plus h2 fun hgf => hshared v (hgf ▸ hv), h3⟩

/-- Somebody counts a frame that others have once more. -/
theorem Books.bump (B : Books others k) (hothers : 0 < others f) :
    Books (plus others f) { k with mem_map := update k.mem_map f (k.mem_map f + 1) } := by
  have hmap : ∀ g, g ≠ f → update k.mem_map f (k.mem_map f + 1) g = k.mem_map g :=
    fun g hg => update_of_ne hg ..
  refine ⟨fun g hg => ?_, B.limit, B.page_lt, B.table_lt, B.arg_lt, B.table, fun d t ht => ?_,
    fun i g hi => ?_, fun u g hu => ?_⟩
  · show update k.mem_map f (k.mem_map f + 1) g = plus others f g + k.own g + k.args g
    by_cases hgf : g = f
    · rw [hgf, update_self, plus_self, B.ledger f (hgf ▸ hg)]
      omega
    · rw [hmap g hgf, plus_ne others hgf]
      exact B.ledger g hg
  · obtain ⟨h1, h2, h3⟩ := B.table_own d t ht
    have htf : t ≠ f := by
      rintro rfl
      have halone := (B.table_alone ht).1
      omega
    exact ⟨h1, h2, (hmap t htf).trans h3⟩
  · obtain ⟨h1, h2⟩ := B.arg_own i g hi
    have hgf : g ≠ f := by
      rintro rfl
      have halone := (B.arg_alone hi).1
      omega
    exact ⟨h1, (hmap g hgf).trans h2⟩
  · obtain ⟨h1, h2, h3⟩ := B.shared u g hu
    refine ⟨h1, ?_, h3⟩
    rw [plus]
    exact Nat.add_pos_left h2 _

/-- Somebody gives back a reference. -/
theorem Books.give (B : Books (plus others f) k) (hf : 256 ≤ f)
    (hshared : ∀ v, k.shared v = some f → 0 < others f) : k.mem_map f ≠ 0 ∧
    Books others { k with mem_map := update k.mem_map f (k.mem_map f - 1) } := by
  have hmap : ∀ g, g ≠ f → update k.mem_map f (k.mem_map f - 1) g = k.mem_map g :=
    fun g hg => update_of_ne hg ..
  have hlf := B.ledger f hf
  rw [plus_self] at hlf
  refine ⟨by omega, fun g hg => ?_, B.limit, B.page_lt, B.table_lt, B.arg_lt, B.table, fun d t ht => ?_,
    fun i g hi => ?_, fun u g hu => ?_⟩
  · show update k.mem_map f (k.mem_map f - 1) g = others g + k.own g + k.args g
    by_cases hgf : g = f
    · rw [hgf, update_self]
      omega
    · rw [hmap g hgf, ← plus_ne others hgf]
      exact B.ledger g hg
  · obtain ⟨h1, h2, h3⟩ := B.table_own d t ht
    have htf : t ≠ f := by
      rintro rfl
      have halone := (B.table_alone ht).1
      rw [plus_self] at halone
      omega
    exact ⟨h1, h2, (hmap t htf).trans h3⟩
  · obtain ⟨h1, h2⟩ := B.arg_own i g hi
    have hgf : g ≠ f := by
      rintro rfl
      have halone := (B.arg_alone hi).1
      rw [plus_self] at halone
      omega
    exact ⟨h1, (hmap g hgf).trans h2⟩
  · obtain ⟨h1, h2, h3⟩ := B.shared u g hu
    refine ⟨h1, ?_, h3⟩
    by_cases hgf : g = f
    · rw [hgf]
      exact hshared u (hgf ▸ hu)
    · rwa [plus_ne others hgf] at h2

end OldLinux.Exec
