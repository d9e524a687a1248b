import OldLinux.Lib.Numerals
import Mathlib.Data.List.Chain
import Mathlib.Data.List.Nodup

/-!
# Doubly linked lists in memory

A cell is a number, and 0 is none.  `Link` says that two places are linked both ways, where 0 stands for the
ends of a list.  A `Row` is a list between two such ends, a `Ring` is one that closes.  Both are a chain of
links that comes back to where it begins, and to take a cell out of such a chain or to put one in concerns its
two neighbours only.
-/

namespace OldLinux.Lib

variable {next prev next' prev' : ℕ → ℕ} {a b e u v first : ℕ} {l l₁ l₂ m₁ m₂ : List ℕ}

def Link (next prev : ℕ → ℕ) (a b : ℕ) : Prop := (a ≠ 0 → next a = b) ∧ (b ≠ 0 → prev b = a)

/-- A chain reads the `next` of all but its last cell and the `prev` of all but its first. -/
theorem links_congr (h : l.IsChain (Link next prev)) (hnext : ∀ a ∈ l.dropLast, a ≠ 0 → next' a = next a)
    (hprev : ∀ b ∈ l.tail, b ≠ 0 → prev' b = prev b) : l.IsChain (Link next' prev') := by
  induction l with
  | nil => exact .nil
  | cons a l ih =>
    cases l with
    | nil => exact .singleton a
    | cons b l =>
      rw [List.isChain_cons_cons] at h ⊢
      rw [List.dropLast_cons_cons] at hnext
      refine ⟨⟨fun ha => ?_, fun hb => ?_⟩, ih h.2 (fun c hc => hnext c (List.mem_cons_of_mem a hc))
        fun c hc => hprev c (List.mem_cons_of_mem b hc)⟩
      · rw [hnext a List.mem_cons_self ha, h.1.1 ha]
      · rw [hprev b List.mem_cons_self hb, h.1.2 hb]

/-- The neighbours `u` and `v` of a place in the chain from `e` to `e` are met nowhere else. -/
theorem neighbours (hnodup : (e :: (l₁ ++ l₂)).Nodup) (hm₁ : e :: l₁ = m₁ ++ [u]) (hm₂ : l₂ ++ [e] = v :: m₂) :
    (u ∉ m₁ ∧ u ∉ (v :: m₂).dropLast) ∧ v ∉ (m₁ ++ [u]).tail ∧ v ∉ m₂ := by
  rw [← List.cons_append, List.nodup_append'] at hnodup
  obtain ⟨hleft, hright, hdisj⟩ := hnodup
  have hu : u ∈ e :: l₁ := by
    rw [hm₁]
    exact List.mem_append_right m₁ List.mem_cons_self
  have hnodup' : (v :: m₂).Nodup := by
    rw [← hm₂, List.nodup_append']
    exact ⟨hright, List.nodup_singleton e, List.disjoint_singleton.2 (hdisj List.mem_cons_self)⟩
  refine ⟨⟨fun h => ?_, fun h => ?_⟩, fun h => ?_, (List.nodup_cons.1 hnodup').1⟩
  · rw [hm₁, List.nodup_append'] at hleft
    exact hleft.2.2 h List.mem_cons_self
  · rw [← hm₂, List.dropLast_concat] at h
    exact hdisj hu h
  · rw [← hm₁, List.tail_cons] at h
    have hv : v ∈ l₂ ++ [e] := by
      rw [hm₂]
      exact List.mem_cons_self
    rcases List.mem_append.1 hv with hv | hv
    · exact hdisj (List.mem_cons_of_mem e h) hv
    · rw [List.mem_singleton.1 hv] at h
      exact (List.nodup_cons.1 hleft).1 h

theorem exists_neighbours (e : ℕ) (l₁ l₂ : List ℕ) :
    ∃ m₁ u v m₂, e :: l₁ = m₁ ++ [u] ∧ l₂ ++ [e] = v :: m₂ := by
  obtain ⟨v, m₂, hm₂⟩ := List.exists_cons_of_ne_nil (show l₂ ++ [e] ≠ [] by simp)
  exact ⟨_, _, v, m₂, (List.dropLast_concat_getLast (List.cons_ne_nil e l₁)).symm, hm₂⟩

/-- The cell `a` is passed over. -/
theorem links_remove (h : (e :: (l₁ ++ a :: l₂ ++ [e])).IsChain (Link next prev))
    (hnodup : (e :: (l₁ ++ a :: l₂)).Nodup) (ha : a ≠ 0) (hnext : ∀ b, b ≠ prev a → next' b = next b)
    (hprev : ∀ b, b ≠ next a → prev' b = prev b) (hat : prev a ≠ 0 → next' (prev a) = next a)
    (hback : next a ≠ 0 → prev' (next a) = prev a) : (e :: (l₁ ++ l₂ ++ [e])).IsChain (Link next' prev') := by
  obtain ⟨m₁, u, v, m₂, hm₁, hm₂⟩ := exists_neighbours e l₁ l₂
  obtain ⟨⟨hu, hu'⟩, hv, hv'⟩ := neighbours (hnodup.sublist
    (((List.Sublist.refl l₁).append (List.sublist_cons_self a l₂)).cons_cons e)) hm₁ hm₂
  rw [List.append_assoc, List.cons_append, hm₂, ← List.cons_append, hm₁, List.append_assoc,
    List.singleton_append,
    List.isChain_append_cons_cons, List.isChain_cons_cons] at h
  obtain ⟨hleft, hua, hav, hright⟩ := h
  rw [hua.2 ha] at hnext hat hback
  rw [hav.1 ha] at hprev hat hback
  rw [List.append_assoc, hm₂, ← List.cons_append, hm₁, List.append_assoc, List.singleton_append,
    List.isChain_append_cons_cons]
  refine ⟨links_congr hleft ?_ ?_, ⟨hat, hback⟩, links_congr hright ?_ ?_⟩
  · intro b hb _
    rw [List.dropLast_concat] at hb
    exact hnext b (fun hbu => hu (hbu ▸ hb))
  · intro b hb _
    exact hprev b (fun hbv => hv (hbv ▸ hb))
  · intro b hb _
    exact hnext b (fun hbu => hu' (hbu ▸ hb))
  · intro b hb _
    exact hprev b (fun hbv => hv' (hbv ▸ hb))

/-- The cell `a` comes between `u` and `v`. -/
theorem links_insert (h : (e :: (l₁ ++ l₂ ++ [e])).IsChain (Link next prev)) (hnodup : (e :: (l₁ ++ l₂)).Nodup)
    (ha : a ∉ e :: (l₁ ++ l₂)) (hm₁ : e :: l₁ = m₁ ++ [u]) (hm₂ : l₂ ++ [e] = v :: m₂)
    (hnext : ∀ b, b ≠ u → b ≠ a → next' b = next b) (hprev : ∀ b, b ≠ v → b ≠ a → prev' b = prev b)
    (hat : u ≠ 0 → next' u = a) (hback : v ≠ 0 → prev' v = a) (hafter : next' a = v) (hbefore : prev' a = u) :
    (e :: (l₁ ++ a :: l₂ ++ [e])).IsChain (Link next' prev') := by
  obtain ⟨⟨hu, hu'⟩, hv, hv'⟩ := neighbours hnodup hm₁ hm₂
  have hleft : ∀ b ∈ m₁ ++ [u], b ≠ a := by
    intro b hb hba
    rw [← hm₁, hba] at hb
    exact ha (List.cons_subset_cons e (List.subset_append_left l₁ l₂) hb)
  have hright : ∀ b ∈ v :: m₂, b ≠ a := by
    intro b hb hba
    rw [← hm₂, hba] at hb
    rcases List.mem_append.1 hb with hb | hb
    · exact ha (List.mem_cons_of_mem e (List.mem_append_right l₁ hb))
    · exact ha (List.mem_singleton.1 hb ▸ List.mem_cons_self)
  rw [List.append_assoc, hm₂, ← List.cons_append, hm₁, List.append_assoc, List.singleton_append,
    List.isChain_append_cons_cons] at h
  rw [List.append_assoc, List.cons_append, hm₂, ← List.cons_append, hm₁, List.append_assoc,
    List.singleton_append,
    List.isChain_append_cons_cons, List.isChain_cons_cons]
  refine ⟨links_congr h.1 ?_ ?_, ⟨hat, fun _ => hbefore⟩, ⟨fun _ => hafter, hback⟩, links_congr h.2.2 ?_ ?_⟩
  · intro b hb _
    rw [List.dropLast_concat] at hb
    exact hnext b (fun hbu => hu (hbu ▸ hb)) (hleft b (List.mem_append_left [u] hb))
  · intro b hb _
    exact hprev b (fun hbv => hv (hbv ▸ hb)) (hleft b (List.mem_of_mem_tail hb))
  · intro b hb _
    exact hnext b (fun hbu => hu' (hbu ▸ hb)) (hright b ((List.dropLast_sublist _).subset hb))
  · intro b hb _
    exact hprev b (fun hbv => hv' (hbv ▸ hb)) (hright b (List.mem_cons_of_mem v hb))

/-! ### Rows -/

/-- From `first` on the cells are those of the list, and both ends are 0. -/
structure Row (next prev : ℕ → ℕ) (first : ℕ) (l : List ℕ) : Prop where
  nodup : (0 :: l).Nodup
  head : l.headD 0 = first
  links : (0 :: (l ++ [0])).IsChain (Link next prev)

namespace Row

theorem nil : Row next prev 0 [] :=
  ⟨List.nodup_singleton 0, rfl, .cons_cons ⟨fun h => absurd rfl h, fun h => absurd rfl h⟩ (.singleton 0)⟩

theorem ne_zero (h : Row next prev first l) (ha : a ∈ l) : a ≠ 0 := by
  rintro rfl
  exact (List.nodup_cons.1 h.nodup).1 ha

theorem congr (h : Row next prev first l) (hnext : ∀ a ∈ l, next' a = next a)
    (hprev : ∀ a ∈ l, prev' a = prev a) :
    Row next' prev' first l := by
  refine ⟨h.nodup, h.head, links_congr h.links (fun a ha ha0 => ?_) fun a ha ha0 => ?_⟩
  · rw [← List.cons_append, List.dropLast_concat] at ha
    exact hnext a ((List.mem_cons.1 ha).resolve_left ha0)
  · rw [List.tail_cons, List.mem_append] at ha
    exact hprev a (ha.resolve_right fun h => ha0 (List.mem_singleton.1 h))

/-- What the links say of a cell of the row. -/
theorem at_split (h : Row next prev first (l₁ ++ a :: l₂)) :
    next a = l₂.headD 0 ∧ prev a = (0 :: l₁).getLast (List.cons_ne_nil 0 l₁) := by
  obtain ⟨m₁, u, v, m₂, hm₁, hm₂⟩ := exists_neighbours 0 l₁ l₂
  have ha : a ≠ 0 := h.ne_zero (List.mem_append_right l₁ List.mem_cons_self)
  have hl := h.links
  rw [List.append_assoc, List.cons_append, hm₂, ← List.cons_append, hm₁, List.append_assoc,
    List.singleton_append,
    List.isChain_append_cons_cons, List.isChain_cons_cons] at hl
  constructor
  · rw [hl.2.2.1.1 ha]
    cases l₂ with
    | nil => exact (List.cons.inj hm₂).1.symm
    | cons c l₂ => exact (List.cons.inj hm₂).1.symm
  · rw [hl.2.1.2 ha]
    simp only [hm₁, List.getLast_concat]

/-- The neighbours of a cell of the row are in the row, or the row ends there. -/
theorem neighbours_mem (h : Row next prev first l) (ha : a ∈ l) :
    (next a ≠ 0 → next a ∈ l) ∧ (prev a ≠ 0 → prev a ∈ l) := by
  obtain ⟨l₁, l₂, rfl⟩ := List.append_of_mem ha
  obtain ⟨hnext, hprev⟩ := h.at_split
  rw [hnext, hprev]
  constructor
  · intro hne
    cases l₂ with
    | nil => exact absurd rfl hne
    | cons b l₂ => simp
  · intro hne
    have hmem := List.getLast_mem (List.cons_ne_nil 0 l₁)
    exact List.mem_append_left _ ((List.mem_cons.1 hmem).resolve_left hne)

/-- The row without `a`. -/
theorem remove (h : Row next prev first l) (ha : a ∈ l) (hnext : ∀ b, b ≠ prev a → next' b = next b)
    (hprev : ∀ b, b ≠ next a → prev' b = prev b) (hat : prev a ≠ 0 → next' (prev a) = next a)
    (hback : next a ≠ 0 → prev' (next a) = prev a) :
    Row next' prev' (if first = a then next a else first) (l.erase a) := by
  obtain ⟨l₁, l₂, hl₁, rfl, herase⟩ := List.exists_erase_eq ha
  rw [herase]
  refine ⟨h.nodup.sublist (((List.Sublist.refl l₁).append (List.sublist_cons_self a l₂)).cons_cons 0), ?_,
    links_remove h.links h.nodup (h.ne_zero ha) hnext hprev hat hback⟩
  rw [h.at_split.1, ← h.head]
  cases l₁ with
  | nil => exact (if_pos rfl).symm
  | cons b l₁ =>
    have hba : b ≠ a := by
      rintro rfl
      exact hl₁ List.mem_cons_self
    exact (if_neg hba).symm

/-- The row with `a` in front. -/
theorem push (h : Row next prev first l) (ha : a ≠ 0) (hl : a ∉ l) (hnext : ∀ b, b ≠ a → next' b = next b)
    (hprev : ∀ b, b ≠ first → b ≠ a → prev' b = prev b) (hback : first ≠ 0 → prev' first = a)
    (hafter : next' a = first) (hbefore : prev' a = 0) : Row next' prev' a (a :: l) := by
  have hmem : a ∉ 0 :: l := fun h => (List.mem_cons.1 h).elim ha hl
  refine ⟨(List.Perm.swap 0 a l).nodup_iff.1 (List.nodup_cons.2 ⟨hmem, h.nodup⟩), rfl, ?_⟩
  obtain ⟨v, m₂, hm₂⟩ := List.exists_cons_of_ne_nil (show l ++ [0] ≠ [] by simp)
  have hv : v = first := by
    rw [← h.head]
    cases l with
    | nil => exact (List.cons.inj hm₂).1.symm
    | cons c l => exact (List.cons.inj hm₂).1.symm
  subst hv
  exact @links_insert next prev next' prev' a 0 0 v [] l [] m₂ h.links h.nodup hmem rfl hm₂
    (fun b _ => hnext b) hprev
    (fun h => absurd rfl h) hback hafter hbefore

end Row

/-! ### Rings -/

/-- From `first` on the cells are those of the list, and then `first` comes again. -/
structure Ring (next prev : ℕ → ℕ) (first : ℕ) (l : List ℕ) : Prop where
  nodup : l.Nodup
  ne_zero : 0 ∉ l
  closes : ∃ t, l = first :: t ∧ (first :: (t ++ [first])).IsChain (Link next prev)

namespace Ring

/-- The ring seen from the next cell. -/
theorem rotate (h : Ring next prev a (a :: v :: l)) : Ring next prev v (v :: (l ++ [a])) := by
  obtain ⟨t, ht, hlinks⟩ := h.closes
  obtain rfl : v :: l = t := (List.cons.inj ht).2
  have hperm : (v :: (l ++ [a])).Perm (a :: v :: l) := List.perm_append_singleton a (v :: l)
  refine ⟨hperm.nodup_iff.2 h.nodup, fun h0 => h.ne_zero (hperm.mem_iff.1 h0), l ++ [a], rfl, ?_⟩
  rw [List.cons_append, List.isChain_cons_cons] at hlinks
  rw [List.append_assoc, List.singleton_append, ← List.cons_append, List.isChain_append_cons_cons]
  exact ⟨hlinks.2, hlinks.1, .singleton v⟩

theorem single (ha : a ≠ 0) (hnext : next a = a) (hprev : prev a = a) : Ring next prev a [a] :=
  ⟨List.nodup_singleton a, fun h => ha (List.mem_singleton.1 h).symm, [], rfl,
    .cons_cons ⟨fun _ => hnext, fun _ => hprev⟩ (.singleton a)⟩

theorem first_mem (h : Ring next prev first l) : first ∈ l := by
  obtain ⟨t, rfl, -⟩ := h.closes
  exact List.mem_cons_self

theorem ne_zero_of_mem (h : Ring next prev first l) (ha : a ∈ l) : a ≠ 0 := by
  rintro rfl
  exact h.ne_zero ha

/-- In a ring each of `next` and `prev` undoes the other. -/
theorem inverse (h : Ring next prev first l) (ha : a ∈ l) :
    (next a ∈ l ∧ prev (next a) = a) ∧ prev a ∈ l ∧ next (prev a) = a := by
  have ha0 := h.ne_zero_of_mem ha
  obtain ⟨t, rfl, hlinks⟩ := h.closes
  have hmem : ∀ b ∈ t ++ [first], b ∈ first :: t := fun b hb =>
    (List.perm_append_singleton first t).mem_iff.1 hb
  rw [List.isChain_iff_forall_rel_of_append_cons_cons] at hlinks
  constructor
  · obtain ⟨l₁, l₂, hl⟩ := List.append_of_mem ha
    obtain ⟨v, m₂, hm₂⟩ := List.exists_cons_of_ne_nil (show l₂ ++ [first] ≠ [] by simp)
    have hsplit : first :: (t ++ [first]) = l₁ ++ a :: v :: m₂ := by
      rw [← List.cons_append, hl, List.append_assoc, List.cons_append, hm₂]
    have hv : v ∈ first :: t := by
      have hv : v ∈ l₂ ++ [first] := hm₂ ▸ List.mem_cons_self
      rcases List.mem_append.1 hv with hv | hv
      · rw [hl]
        exact List.mem_append_right l₁ (List.mem_cons_of_mem a hv)
      · exact List.mem_singleton.1 hv ▸ List.mem_cons_self
    have hlink := hlinks hsplit
    rw [hlink.1 ha0]
    exact ⟨hv, hlink.2 (h.ne_zero_of_mem hv)⟩
  · obtain ⟨l₁, l₂, hl⟩ := List.append_of_mem ((List.perm_append_singleton first t).mem_iff.2 ha)
    obtain ⟨m₁, u, _, _, hm₁, -⟩ := exists_neighbours first l₁ []
    have hsplit : first :: (t ++ [first]) = m₁ ++ u :: a :: l₂ := by
      rw [hl, ← List.cons_append, hm₁, List.append_assoc, List.singleton_append]
    have hu : u ∈ first :: t := by
      have hu : u ∈ first :: l₁ := by
        rw [hm₁]
        exact List.mem_append_right _ List.mem_cons_self
      rcases List.mem_cons.1 hu with hu | hu
      · exact hu ▸ List.mem_cons_self
      · exact hmem u (hl ▸ List.mem_append_left _ hu)
    have hlink := hlinks hsplit
    rw [hlink.2 ha0]
    exact ⟨hu, hlink.1 (h.ne_zero_of_mem hu)⟩

/-- The ring without `a`, which is not its only cell. -/
theorem remove (h : Ring next prev first l) (ha : a ∈ l) (hne : l ≠ [a])
    (hnext : ∀ b, b ≠ prev a → next' b = next b)
    (hprev : ∀ b, b ≠ next a → prev' b = prev b) (hat : next' (prev a) = next a)
    (hback : prev' (next a) = prev a) :
    Ring next' prev' (if first = a then next a else first) (l.erase a) := by
  have ha0 := h.ne_zero_of_mem ha
  have hnodup := h.nodup.erase a
  have hzero : 0 ∉ l.erase a := fun h0 => h.ne_zero (List.mem_of_mem_erase h0)
  obtain ⟨t, rfl, hlinks⟩ := h.closes
  by_cases hfirst : first = a
  · subst hfirst
    obtain ⟨v, t, rfl⟩ := List.exists_cons_of_ne_nil (fun ht => hne (ht ▸ rfl))
    have hv : next first = v := (List.isChain_cons_cons.1 hlinks).1.1 ha0
    rw [List.erase_cons_head] at hnodup hzero ⊢
    rw [if_pos rfl, hv]
    obtain ⟨t', ht', hlinks'⟩ := h.rotate.closes
    obtain rfl : t ++ [first] = t' := (List.cons.inj ht').2
    refine ⟨hnodup, hzero, t, rfl, ?_⟩
    have hlinks'' := links_remove hlinks' h.rotate.nodup ha0 hnext hprev (fun _ => hat) fun _ => hback
    rwa [List.append_nil] at hlinks''
  · obtain ⟨l₁, l₂, -, rfl, herase⟩ := List.exists_erase_eq ((List.mem_cons.1 ha).resolve_left (Ne.symm hfirst))
    rw [List.erase_cons_tail (by simpa using hfirst), herase] at hnodup hzero ⊢
    rw [if_neg hfirst]
    exact ⟨hnodup, hzero, _, rfl, links_remove hlinks h.nodup ha0 hnext hprev (fun _ => hat) fun _ => hback⟩

/-- The ring with `a` at the end, which is in front of the first cell. -/
theorem insert (h : Ring next prev first l) (ha : a ≠ 0) (hl : a ∉ l)
    (hnext : ∀ b, b ≠ prev first → b ≠ a → next' b = next b) (hprev : ∀ b, b ≠ first → b ≠ a → prev' b = prev b)
    (hat : next' (prev first) = a) (hback : prev' first = a) (hafter : next' a = first)
    (hbefore : prev' a = prev first) : Ring next' prev' first (l ++ [a]) := by
  have hfirst := h.ne_zero_of_mem h.first_mem
  have hnodup := h.nodup
  have hzero := h.ne_zero
  obtain ⟨t, rfl, hlinks⟩ := h.closes
  refine ⟨List.nodup_append'.2 ⟨hnodup, List.nodup_singleton a, List.disjoint_singleton.2 hl⟩,
    fun h0 => (List.mem_append.1 h0).elim hzero fun h0 => ha (List.mem_singleton.1 h0).symm, t ++ [a], rfl, ?_⟩
  obtain ⟨m₁, u, _, _, hm₁, -⟩ := exists_neighbours first t []
  have hsplit : first :: (t ++ [first]) = m₁ ++ u :: first :: [] := by
    rw [← List.cons_append, hm₁, List.append_assoc, List.singleton_append]
  have hu : prev first = u := (List.isChain_iff_forall_rel_of_append_cons_cons.1 hlinks hsplit).2 hfirst
  rw [hu] at hnext hat hbefore
  refine @links_insert next prev next' prev' a first u first t [] m₁ [] ?_ ?_ ?_ hm₁ rfl hnext
    hprev (fun _ => hat)
    (fun _ => hback) hafter hbefore
  · rwa [List.append_nil]
  · rwa [List.append_nil]
  · rwa [List.append_nil]

end Ring

end OldLinux.Lib
