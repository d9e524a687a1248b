import Mathlib.Data.List.Induction
import Mathlib.Logic.Function.Basic

/-!
# Trees of blocks

An inode has seven zones with data, one with an indirect block and one with a double indirect one, and an
indirect block has 512 words.  Which block is at which place depends on the zones and on what is in the
blocks.  A block that is in no place and holds zeros can be entered at an empty place, and then exactly that
place has changed.
-/

namespace OldLinux.Lib.BlockTree

open Function

variable {zone zone' : ℕ → ℕ} {data data' : ℕ → ℕ → ℕ} {k i z ind b : ℕ} {m : List ℕ}

/-! ### Places -/

/-- A place in the tree of an inode: a zone, and a word in each indirect block on the way. -/
abbrev Place := ℕ × List ℕ

variable {p q : Place}

/-- How many indirect blocks there are on the way to a data block. -/
def depth (k : ℕ) : ℕ := if k < 7 then 0 else if k = 7 then 1 else 2

structure Place.Valid (p : Place) : Prop where
  zone : p.1 < 9
  length : p.2.length ≤ depth p.1
  words : ∀ i ∈ p.2, i < 512

/-- The place of a data block. -/
def Place.Full (p : Place) : Prop := p.2.length = depth p.1

theorem Place.Valid.init (h : Place.Valid (k, m ++ [i])) : Place.Valid (k, m) := by
  have hlen : (m ++ [i]).length ≤ depth k := h.length
  rw [List.length_append] at hlen
  exact ⟨h.zone, Nat.le_of_add_right_le hlen, fun j hj => h.words j (List.mem_append_left _ hj)⟩

/-- What is found by way of these words, 0 for nothing. -/
def follow (b_data : ℕ → ℕ → ℕ) : ℕ → List ℕ → ℕ
  | z, [] => z
  | z, i :: is => if z = 0 then 0 else follow b_data (b_data z i) is

theorem follow_zero (b_data : ℕ → ℕ → ℕ) (m : List ℕ) : follow b_data 0 m = 0 := by
  cases m with
  | nil => rfl
  | cons i is => rw [follow, if_pos rfl]

theorem follow_concat (b_data : ℕ → ℕ → ℕ) (z : ℕ) (m : List ℕ) (i : ℕ) :
    follow b_data z (m ++ [i]) = if follow b_data z m = 0 then 0 else b_data (follow b_data z m) i := by
  induction m generalizing z with
  | nil => rfl
  | cons j m ih =>
    rw [List.cons_append, follow, follow]
    split_ifs with h1 h2
    · rfl
    · exact absurd rfl h2
    · rw [ih, if_pos ‹_›]
    · rw [ih, if_neg ‹_›]

/-- The place of the block with index `b`. -/
def blockPlace (b : ℕ) : Place :=
  if b < 7 then (b, []) else if b < 519 then (7, [b - 7]) else (8, [(b - 519) / 512, (b - 519) % 512])

theorem blockPlace_spec (hb : b < 7 + 512 + 512 * 512) : (blockPlace b).Valid ∧ (blockPlace b).Full := by
  rw [blockPlace]
  split_ifs with h1 h2
  · refine ⟨⟨by omega, Nat.zero_le _, fun i hi => by cases hi⟩, ?_⟩
    show 0 = depth b
    rw [depth, if_pos h1]
  · refine ⟨⟨show 7 < 9 by decide, Nat.le_refl 1, fun i hi => ?_⟩, rfl⟩
    rw [List.mem_singleton] at hi
    omega
  · refine ⟨⟨show 8 < 9 by decide, Nat.le_refl 2, fun i hi => ?_⟩, rfl⟩
    rw [List.mem_cons, List.mem_singleton] at hi
    omega

theorem blockPlace_inj {b' : ℕ} (h : blockPlace b = blockPlace b') : b = b' := by
  rw [blockPlace, blockPlace] at h
  split_ifs at h <;> simp at h <;> omega

/-! ### The tree -/

/-- The block at a place, 0 if there is none. -/
def tree_at (zone : ℕ → ℕ) (data : ℕ → ℕ → ℕ) (p : Place) : ℕ := follow data (zone p.1) p.2

theorem tree_at_nil (zone : ℕ → ℕ) (data : ℕ → ℕ → ℕ) (k : ℕ) : tree_at zone data (k, []) = zone k := rfl

theorem tree_at_concat (zone : ℕ → ℕ) (data : ℕ → ℕ → ℕ) (k : ℕ) (m : List ℕ) (i : ℕ) :
    tree_at zone data (k, m ++ [i]) = if tree_at zone data (k, m) = 0 then 0
    else data (tree_at zone data (k, m)) i :=
  follow_concat _ _ _ _

/-- No block has two places. -/
def OncePerPlace (zone : ℕ → ℕ) (data : ℕ → ℕ → ℕ) : Prop :=
  ∀ p q : Place, p.Valid → q.Valid → tree_at zone data p ≠ 0 → tree_at zone data p = tree_at zone data q → p = q

/-- There is room for a word more, so that it is not the place of a data block. -/
theorem not_full_of_concat (h : Place.Valid (k, m ++ [i])) : ¬Place.Full (k, m) := by
  intro hfull
  have hlength : (m ++ [i]).length ≤ depth k := h.length
  have hdepth : m.length = depth k := hfull
  rw [List.length_append, List.length_singleton] at hlength
  omega

/-- The blocks of the tree are where they were if the indirect blocks are. -/
theorem tree_at_congr_indirect (hzone : ∀ k, zone' k = zone k)
    (hdata : ∀ p : Place, p.Valid → ¬p.Full → tree_at zone data p ≠ 0 →
      data' (tree_at zone data p) = data (tree_at zone data p))
    (hp : p.Valid) : tree_at zone' data' p = tree_at zone data p := by
  obtain ⟨k, m⟩ := p
  induction m using List.reverseRecOn with
  | nil => rw [tree_at_nil, tree_at_nil, hzone]
  | append_singleton m i ih =>
    have hm := Place.Valid.init hp
    rw [tree_at_concat, tree_at_concat, ih hm]
    split_ifs with hzero
    · rfl
    · rw [hdata _ hm (not_full_of_concat hp) hzero]

theorem tree_at_congr (hzone : ∀ k, zone' k = zone k) (hdata : ∀ p : Place, p.Valid → tree_at zone data p ≠ 0 →
      data' (tree_at zone data p) = data (tree_at zone data p))
    (hp : p.Valid) : tree_at zone' data' p = tree_at zone data p :=
  tree_at_congr_indirect hzone (fun q hq _ => hdata q hq) hp

/-- Nothing is below an empty place. -/
theorem tree_at_append (h : tree_at zone data (k, m) = 0) (l : List ℕ) : tree_at zone data (k, m ++ l) = 0 := by
  induction l using List.reverseRecOn with
  | nil => rw [List.append_nil, h]
  | append_singleton l i ih => rw [← List.append_assoc, tree_at_concat, if_pos ih]

/-- The block is in no place, and it holds zeros. -/
structure Fresh (zone : ℕ → ℕ) (data data' : ℕ → ℕ → ℕ) (z : ℕ) : Prop where
  ne_zero : z ≠ 0
  new : ∀ p : Place, p.Valid → tree_at zone data p ≠ z
  empty : data' z = fun _ => 0

/-- It is entered as a zone. -/
theorem tree_at_zone (h : Fresh zone data data' z) (hempty : zone k = 0)
    (hdata : ∀ p : Place, p.Valid → tree_at zone data p ≠ 0 →
      data' (tree_at zone data p) = data (tree_at zone data p))
    (hp : p.Valid) :
    tree_at (update zone k z) data' p = if p = (k, []) then z else tree_at zone data p := by
  obtain ⟨k', m⟩ := p
  induction m using List.reverseRecOn with
  | nil =>
    rw [tree_at_nil, tree_at_nil]
    by_cases hk : k' = k
    · rw [hk, update_self, if_pos rfl]
    · rw [update_of_ne hk, if_neg fun h => hk (Prod.mk.inj h).1]
  | append_singleton m i ih =>
    have hm := Place.Valid.init hp
    have hnot : (k', m ++ [i]) ≠ (k, []) := fun h => by simp at h
    rw [tree_at_concat, tree_at_concat, ih hm, if_neg hnot]
    by_cases hnew : (k', m) = (k, [])
    · -- below the new block there is nothing
      have hold : tree_at zone data (k', m) = 0 := by rw [hnew, tree_at_nil, hempty]
      rw [if_pos hnew, if_neg h.ne_zero, if_pos hold, h.empty]
    · rw [if_neg hnew]
      by_cases hzero : tree_at zone data (k', m) = 0
      · rw [if_pos hzero, if_pos hzero]
      · rw [if_neg hzero, if_neg hzero, hdata _ hm hzero]

theorem place_inj {k' j : ℕ} {q : List ℕ} (h : (k', q ++ [j]) = (k, m ++ [i])) : (k', q) = (k, m) ∧ j = i := by
  obtain ⟨h1, h2⟩ := Prod.mk.inj h
  obtain ⟨h3, h4⟩ := List.append_inj' h2 rfl
  exact ⟨by rw [h1, h3], List.singleton_inj.1 h4⟩

/-- It is entered in a word of an indirect block. -/
theorem tree_at_word (h : Fresh zone data data' z) (O : OncePerPlace zone data)
    (hm : Place.Valid (k, m ++ [i])) (hind : tree_at zone data (k, m) = ind) (hne : ind ≠ 0)
    (hempty : data ind i = 0) (hword : data' ind = update (data ind) i z)
    (hdata : ∀ p : Place, p.Valid → tree_at zone data p ≠ 0 → tree_at zone data p ≠ ind →
      data' (tree_at zone data p) = data (tree_at zone data p))
    (hp : p.Valid) :
    tree_at zone data' p = if p = (k, m ++ [i]) then z else tree_at zone data p := by
  have hvalid := Place.Valid.init hm
  obtain ⟨k', q⟩ := p
  induction q using List.reverseRecOn with
  | nil =>
    rw [tree_at_nil, tree_at_nil, if_neg fun h => by simp at h]
  | append_singleton q j ih =>
    have hq := Place.Valid.init hp
    rw [tree_at_concat, tree_at_concat, ih hq]
    by_cases hnew : (k', q) = (k, m ++ [i])
    · -- below the new block there is nothing
      have hold : tree_at zone data (k', q) = 0 := by
        rw [hnew, tree_at_concat, hind, if_neg hne, hempty]
      have hnot : (k', q ++ [j]) ≠ (k, m ++ [i]) := by
        intro h
        have h1 := congrArg (fun p : Place => p.2.length) hnew
        have h2 := congrArg (fun p : Place => p.2.length) h
        simp only [List.length_append, List.length_singleton] at h1 h2
        omega
      rw [if_pos hnew, if_neg h.ne_zero, if_pos hold, if_neg hnot, h.empty]
    · rw [if_neg hnew]
      by_cases hzero : tree_at zone data (k', q) = 0
      · have hnot : (k', q ++ [j]) ≠ (k, m ++ [i]) := by
          intro h
          rw [(place_inj h).1, hind] at hzero
          exact hne hzero
        rw [if_pos hzero, if_pos hzero, if_neg hnot]
      · rw [if_neg hzero, if_neg hzero]
        by_cases hsame : (k', q) = (k, m)
        · have hblock : tree_at zone data (k', q) = ind := by rw [hsame, hind]
          rw [hblock, hword]
          by_cases hji : j = i
          · have hplace : (k', q ++ [j]) = (k, m ++ [i]) := by
              rw [(Prod.mk.inj hsame).1, (Prod.mk.inj hsame).2, hji]
            rw [if_pos hplace, hji, update_self]
          · rw [if_neg fun h => hji (place_inj h).2, update_of_ne hji]
        · have hdiff : tree_at zone data (k', q) ≠ ind := by
            intro h
            rw [← hind] at h
            exact hsame (O (k', q) (k, m) hq hvalid hzero h)
          rw [if_neg fun h => hsame (place_inj h).1, hdata _ hq hzero hdiff]

/-- One place more, and still no block has two. -/
theorem OncePerPlace.enter (O : OncePerPlace zone data) (h : Fresh zone data data' z)
    (hat : ∀ p : Place, p.Valid → tree_at zone' data' p = if p = q then z else tree_at zone data p) :
    OncePerPlace zone' data' := by
  intro p p' hp hp' hne heq
  rw [hat p hp] at hne heq
  rw [hat p' hp'] at heq
  split_ifs at hne heq with h1 h2 h3
  · rw [h1, h2]
  · exact absurd heq.symm (h.new p' hp')
  · exact absurd heq (h.new p hp)
  · exact O p p' hp hp' hne heq

end OldLinux.Lib.BlockTree
