import OldLinux.Directory.Machine
import OldLinux.Lib.BlockTree

/-!
# Names and blocks of a directory

`match` compares fourteen bytes, and the blocks of a directory are a tree: as long as no pointer that is
set is overwritten, a process that follows the pointers comes to the block it is after, and no two
indices have the same block.
-/

namespace OldLinux.Directory

open Lib.BlockTree

variable {σ : Dir} {ptr ptr' : Ref → ℕ} {b b' : ℕ} {r : Ref} {rest : List ℕ} {c : Component} {e : Entry}

/-! ### Names -/

/-- After the first zero there are only zeros. -/
def NulPadded (n : Name) : Prop := ∀ i j : Fin 14, i < j → n i = 0 → n j = 0

theorem Component.getD_ne_zero {i : ℕ} (h : i < c.len) : c.bytes.getD i 0 ≠ 0 := by
  have hlt : i < c.bytes.length := by
    rw [len] at h
    omega
  rw [List.getD, List.getElem?_eq_getElem hlt]
  exact c.noNul _ (List.getElem_mem hlt)

theorem nulPadded_padded (c : Component) : NulPadded c.padded := by
  intro i j hij hi
  rw [Component.padded] at hi ⊢
  have hge : ¬i.val < c.len := by
    intro hlt
    rw [if_pos hlt] at hi
    exact c.getD_ne_zero hlt hi
  exact if_neg (by omega)

/-- **`match`** finds every entry with the name. -/
theorem matches_of_name (hinode : e.inode ≠ 0) (hname : e.name = c.padded) : matches? c e = true := by
  rw [matches?, decide_eq_true_eq]
  refine ⟨hinode, ?_⟩
  intro i
  rw [hname, Component.padded]
  constructor
  · intro hi
    exact if_neg (by omega)
  · intro hi
    exact if_pos hi

/-- It finds no other, when the names end with zeros. -/
theorem name_of_matches (h : matches? c e = true) (hpad : NulPadded e.name) : e.name = c.padded := by
  rw [matches?, decide_eq_true_eq] at h
  funext i
  rw [Component.padded]
  split
  · rename_i hi
    exact (h.2 i).2 hi
  · rename_i hi
    rcases Nat.lt_or_eq_of_le (Nat.le_of_not_lt hi) with hlt | heq
    · have h14 : c.len < 14 := Nat.lt_trans hlt i.isLt
      exact hpad ⟨c.len, h14⟩ i hlt ((h.2 ⟨c.len, h14⟩).1 rfl)
    · exact (h.2 i).1 heq.symm

/-! ### Following the pointers -/

/-- The pointers followed so far lead to this one on the way to block `b`. -/
inductive Leads (ptr : Ref → ℕ) (b : ℕ) : Ref → List ℕ → Prop
  | start : Leads ptr b (firstRef b) (restPath b)
  | next {r : Ref} {k : ℕ} {ks : List ℕ} : Leads ptr b r (k :: ks) → ptr r ≠ 0 →
    Leads ptr b (.indirect (ptr r) k) ks

theorem Leads.bmapFrom_eq (h : Leads ptr b r rest) :
    Dir.bmapFrom ptr r rest = Dir.bmapFrom ptr (firstRef b) (restPath b) := by
  induction h with
  | start => rfl
  | next _ hne ih => rw [← ih, Dir.bmapFrom, if_neg hne]

theorem Leads.mono (h : Leads ptr b r rest) (hkeep : ∀ s, ptr s ≠ 0 → ptr' s = ptr s) :
    Leads ptr' b r rest := by
  induction h with
  | start => exact Leads.start
  | next _ hne ih =>
    rw [← hkeep _ hne]
    exact Leads.next ih (by rw [hkeep _ hne]; exact hne)

/-- An indirect block on the way is pointed to. -/
theorem Leads.indirect {v k : ℕ} (h : Leads ptr b (.indirect v k) rest) : ∃ s, ptr s = v ∧ v ≠ 0 := by
  generalize hr : Ref.indirect v k = r at h
  cases h with
  | start => exact absurd hr (by rw [firstRef]; exact fun h => (by cases h))
  | next _ hne =>
    cases hr
    exact ⟨_, rfl, hne⟩

theorem bmapFrom_keep (hkeep : ∀ s, ptr s ≠ 0 → ptr' s = ptr s) (hne : Dir.bmapFrom ptr r rest ≠ 0) :
    Dir.bmapFrom ptr' r rest = Dir.bmapFrom ptr r rest := by
  induction rest generalizing r with
  | nil => exact hkeep r hne
  | cons k ks ih =>
    rw [Dir.bmapFrom] at hne
    have hr : ptr r ≠ 0 := by
      intro h0
      rw [if_pos h0] at hne
      exact hne rfl
    rw [if_neg hr] at hne
    rw [Dir.bmapFrom, Dir.bmapFrom, hkeep r hr, if_neg hr, if_neg hr]
    exact ih hne

/-- The block is what some pointer says. -/
theorem exists_ptr_of_bmapFrom (hne : Dir.bmapFrom ptr r rest ≠ 0) : ∃ s, ptr s = Dir.bmapFrom ptr r rest := by
  induction rest generalizing r with
  | nil => exact ⟨r, rfl⟩
  | cons k ks ih =>
    rw [Dir.bmapFrom] at hne ⊢
    by_cases hr : ptr r = 0
    · rw [if_pos hr] at hne
      exact absurd rfl hne
    · rw [if_neg hr] at hne ⊢
      exact ih hne

/-! ### The tree -/

/-- The block at a place of the tree. -/
def Dir.place (σ : Dir) (p : Place) : ℕ :=
  follow (fun block k => σ.ptr (.indirect block k)) (σ.ptr (.zone p.1)) p.2

/-- The directory's `bmap` goes through the same tree as that of a file. -/
theorem bmap_eq_place (σ : Dir) (b : ℕ) : σ.bmap b = σ.place (blockPlace b) := by
  have hfrom : ∀ ks r, Dir.bmapFrom σ.ptr r ks =
      follow (fun block k => σ.ptr (.indirect block k)) (σ.ptr r) ks := by
    intro ks
    induction ks with
    | nil => exact fun _ => rfl
    | cons k ks ih =>
      intro r
      rw [Dir.bmapFrom, follow, ih]
  rw [Dir.bmap, hfrom, Dir.place, firstRef, restPath, blockPlace]
  split_ifs <;> rfl

/-- No block has two places, if no block is pointed to twice. -/
theorem place_injective (hinj : ∀ r r', σ.ptr r ≠ 0 → σ.ptr r = σ.ptr r' → r = r') {k k' : ℕ} {m m' : List ℕ}
    (hne : σ.place (k, m) ≠ 0) (heq : σ.place (k, m) = σ.place (k', m')) : (k, m) = (k', m') := by
  -- the last pointers are the same one, and so are the blocks that they are in
  induction m using List.reverseRecOn generalizing m' with
  | nil =>
    rcases List.eq_nil_or_concat m' with rfl | ⟨q, j, rfl⟩
    · cases hinj _ _ hne heq
      rfl
    · rw [Dir.place, Dir.place, List.concat_eq_append, follow_concat] at heq
      split_ifs at heq
      · exact absurd heq hne
      · cases hinj _ _ hne heq
  | append_singleton m i ih =>
    rw [Dir.place, follow_concat] at hne heq
    split_ifs at hne heq with hm
    · exact absurd rfl hne
    · rcases List.eq_nil_or_concat m' with rfl | ⟨q, j, rfl⟩
      · cases hinj _ _ hne heq
      · rw [Dir.place, List.concat_eq_append, follow_concat] at heq
        split_ifs at heq
        · exact absurd heq hne
        · obtain ⟨hblock, rfl⟩ := Ref.indirect.inj (hinj _ _ hne heq)
          have hplace : σ.place (k, m) = σ.place (k', q) := hblock
          cases ih hm hplace
          rw [List.concat_eq_append]

/-- **No block has two indices.** -/
theorem bmap_injective (hinj : ∀ r r', σ.ptr r ≠ 0 → σ.ptr r = σ.ptr r' → r = r')
    (hne : σ.bmap b ≠ 0) (heq : σ.bmap b = σ.bmap b') : b = b' := by
  rw [bmap_eq_place] at hne heq
  rw [bmap_eq_place] at heq
  exact blockPlace_inj (place_injective hinj hne heq)

end OldLinux.Directory
