import OldLinux.Syscalls.Exits
import OldLinux.Syscalls.FileRefs

/-!
# The references to inodes balance

The references to inodes are in the file table, in the tasks and in the super blocks, and a call has some
in hand.  A pointer is changed by taking the new inode from the hand and putting the old one there.
-/

namespace OldLinux.Syscalls

open Function Lib Files

variable {D : Store → Prop} {R R' : Fin 32 → ℕ} {held rest : List (Fin 32)} {P Q : Fin 64} {pc next : Pc}
variable {answers : ℕ → Answer} {k k' : Kernel} {s : Store} {slot : Slot} {sb : Fin 8}
variable {x y : Option (Fin 32)}

/-! ### What points to inodes -/

/-- `s_isup` and `s_imount`. -/
def superPtr (super : Fin 8 → Super) (a : Fin 8 × Bool) : Option (Fin 32) :=
  if a.2 then (super a.1).isup else (super a.1).imount

/-- The pointers of the tasks. -/
def taskPtr (ptr : Fin 64 → Slot → Option (Fin 32)) (a : Fin 64 × Slot) : Option (Fin 32) := ptr a.1 a.2

/-- The references to an inode from the file table, the tasks and the super blocks. -/
def outer (F : Fin 64 → Option (Fin 32)) (ptr : Fin 64 → Slot → Option (Fin 32))
    (super : Fin 8 → Super) (i : Fin 32) : ℕ :=
  refs F i + refs (taskPtr ptr) i + refs (superPtr super) i

/-- The references that one pointer has in place of another. -/
def Swap (R R' : Fin 32 → ℕ) (x y : Option (Fin 32)) : Prop :=
  ∀ i, R' i + x.toList.count i = R i + y.toList.count i

theorem toList_count (x : Option (Fin 32)) (i : Fin 32) : x.toList.count i = if x = some i then 1 else 0 := by
  cases x with
  | none => rfl
  | some j =>
    rw [Option.toList_some, List.count_singleton]
    simp only [Option.some.injEq, beq_iff_eq]

/-- **A pointer is changed.** -/
theorem Owned.swap (h : Owned R (y.toList ++ held) s) (hR : Swap R R' x y) : Owned R' (x.toList ++ held) s := by
  intro i
  have h1 := h i
  have h2 := hR i
  rw [List.count_append] at h1 ⊢
  omega

variable (F : Fin 64 → Option (Fin 32)) (ptr : Fin 64 → Slot → Option (Fin 32)) (super : Fin 8 → Super)

theorem refs_swap {α : Type} [Fintype α] [DecidableEq α] (D : α → Option (Fin 32)) (a : α)
    (x : Option (Fin 32)) (i : Fin 32) :
    refs (update D a x) i + (D a).toList.count i = refs D i + x.toList.count i := by
  rw [toList_count, toList_count]
  exact refs_update D a x i

theorem swap_file (f : Fin 64) (x : Option (Fin 32)) :
    Swap (outer F ptr super) (outer (update F f x) ptr super) (F f) x := by
  intro i
  have h := refs_swap F f x i
  simp only [outer]
  omega

theorem taskPtr_update (P : Fin 64) (slot : Slot) (x : Option (Fin 32)) :
    taskPtr (update ptr P (update (ptr P) slot x)) = update (taskPtr ptr) (P, slot) x := by
  funext ⟨Q, j⟩
  simp only [taskPtr, update_apply, Prod.mk.injEq]
  by_cases hQ : Q = P
  · rw [if_pos hQ, update_apply, hQ]
    simp only [true_and]
  · simp only [hQ, false_and, if_false]

theorem swap_ptr (P : Fin 64) (slot : Slot) (x : Option (Fin 32)) : Swap (outer F ptr super)
      (outer F (update ptr P (update (ptr P) slot x)) super) (ptr P slot) x := by
  intro i
  have h := refs_swap (taskPtr ptr) (P, slot) x i
  rw [← taskPtr_update ptr] at h
  simp only [outer]
  simp only [taskPtr] at h
  omega

theorem superPtr_imount (sb : Fin 8) (dev : ℕ) (x : Option (Fin 32)) :
    superPtr (update super sb ⟨dev, (super sb).isup, x⟩) = update (superPtr super) (sb, false) x := by
  funext ⟨q, b⟩
  by_cases hq : q = sb
  · cases b <;> simp [superPtr, hq]
  · cases b <;> simp [superPtr, hq]

theorem superPtr_isup (sb : Fin 8) (dev : ℕ) (x : Option (Fin 32)) :
    superPtr (update super sb ⟨dev, x, (super sb).imount⟩) = update (superPtr super) (sb, true) x := by
  funext ⟨q, b⟩
  by_cases hq : q = sb
  · cases b <;> simp [superPtr, hq]
  · cases b <;> simp [superPtr, hq]

theorem swap_imount (sb : Fin 8) (dev : ℕ) (x : Option (Fin 32)) :
    Swap (outer F ptr super) (outer F ptr (update super sb ⟨dev, (super sb).isup, x⟩)) (super sb).imount x := by
  intro i
  have h := refs_swap (superPtr super) (sb, false) x i
  rw [← superPtr_imount super sb dev] at h
  simp only [outer]
  simp only [superPtr, Bool.false_eq_true, if_false] at h
  omega

theorem swap_isup (sb : Fin 8) (dev : ℕ) (x : Option (Fin 32)) :
    Swap (outer F ptr super) (outer F ptr (update super sb ⟨dev, x, (super sb).imount⟩)) (super sb).isup x := by
  intro i
  have h := refs_swap (superPtr super) (sb, true) x i
  rw [← superPtr_isup super sb dev] at h
  simp only [outer]
  simp only [superPtr, if_true] at h
  omega

/-- The device of a super block does not matter. -/
theorem outer_dev (sb : Fin 8) (dev : ℕ) :
      outer F ptr (update super sb ⟨dev, (super sb).isup, (super sb).imount⟩) =
      outer F ptr super := by
  funext i
  rw [outer, outer, superPtr_imount]
  congr 2
  exact update_eq_self (sb, false) (superPtr super)

variable {F}

theorem upOpt_gives (x : Option (Fin 32)) : Gives D R held (upOpt x) fun _ => x.toList ++ held := by
  cases x with
  | none => exact Gives.pure rfl
  | some i => exact up_gives

/-! ### The invariant -/

/-- **The books.**  `F` is what the file table points to. -/
structure Balanced (F : Fin 64 → Option (Fin 32)) (held : List (Fin 32)) (k : Kernel) : Prop where
  owned : Owned (outer F k.ptr k.super) held k.store
  files : k.files.Sound
  gone : ∀ Q slot, Gone k.files Q → k.ptr Q slot = none
  blank : ∀ sb, (k.super sb).dev = 0 → (k.super sb).isup = none ∧ (k.super sb).imount = none

/-- Between two calls. -/
def Sound (k : Kernel) : Prop := Balanced (filePtr k.files) [] k

/-- In a call of process `P`, which is at `pc` and has references in hand. -/
structure Mid (P : Fin 64) (pc : Pc) (held : List (Fin 32)) (k : Kernel) : Prop where
  books : Balanced (filesOf pc k.files) held k
  here : ∃ t, k.files.task P = some t ∧ t.pc = pc

theorem Mid.sound (h : Mid P pc [] k) (hpc : reservedFiles pc = []) : Sound k := by
  have hbooks := h.books
  rw [filesOf_nil hpc] at hbooks
  exact hbooks

theorem Balanced.store (h : Balanced F held k) {s : Store}
    (hs : Owned (outer F k.ptr k.super) rest s) : Balanced F rest { k with store := s } :=
  ⟨hs, h.files, h.gone, h.blank⟩

theorem Mid.store (h : Mid P pc held k) {s : Store}
    (hs : Owned (outer (filesOf pc k.files) k.ptr k.super) rest s) :
    Mid P pc rest { k with store := s } := ⟨h.books.store hs, h.here⟩

theorem Mid.files (h : Mid P pc held k) {τ : Table} (ht : Turn P pc next k.files τ) :
    Mid P next held { k with files := τ } := by
  refine ⟨⟨?_, ht.sound, fun Q slot hQ => h.books.gone Q slot (ht.gone Q hQ), h.books.blank⟩, ht.here⟩
  rw [ht.files]
  exact h.books.owned

theorem Mid.not_gone (h : Mid P pc held k) (hpc : pc ≠ .zombie) : ¬Gone k.files P := by
  obtain ⟨t, ht, hpc'⟩ := h.here
  exact fun hgone => hpc (hpc' ▸ hgone t ht)

/-- A pointer of the task takes a new inode from the hand and gives back the old one. -/
theorem Mid.setPtr (slot : Slot) (h : Mid P pc (x.toList ++ held) k) (hpc : pc ≠ .zombie) :
    Mid P pc ((k.ptr P slot).toList ++ held) (k.setPtr P slot x) := by
  refine ⟨⟨h.books.owned.swap (swap_ptr _ k.ptr k.super P slot x), h.books.files, ?_, h.books.blank⟩, h.here⟩
  intro Q j hQ
  have hne : Q ≠ P := by
    rintro rfl
    exact h.not_gone hpc hQ
  show update k.ptr P _ Q j = none
  rw [update_of_ne hne]
  exact h.books.gone Q j hQ

/-! ### Commands -/

section Commands

variable {α : Type} {c : View → Fs α} {post : α → List (Fin 32)} {f : Table → Task → Table} {t : Task}

/-- A process is killed in its call only with nothing in hand. -/
def Dies (P : Fin 64) (e : Stop) (k : Kernel) : Prop := e.IfKilled (∃ pc, reservedFiles pc = [] ∧ Mid P pc [] k)

/-- A call of process `P`, or a part of one. -/
abbrev Serves (P : Fin 64) (before : Kernel → Prop) (c : Sys α) (after : α → Kernel → Prop) : Prop :=
  TripleOr (Dies P) before c after

theorem wp_fs_or {Q : α → Kernel → Prop} (hc : Gives D R held (c (k.view P answers)) post)
    (h : Owned R held k.store) (hQ : ∀ a s, Owned R (post a) s → Q a { k with store := s })
    (hD : ∀ s, D s → Dies P .killed { k with store := s }) : wp (fs P answers c) Q (Dies P) k := by
  have hgives := hc k.store h
  revert hgives
  rw [wp, wp, fs]
  cases c (k.view P answers) k.store with
  | ok a s => exact fun hs => hQ a s hs
  | error e s =>
    cases e with
    | panic => exact fun _ => trivial
    | hang => exact fun _ => trivial
    | killed => exact fun hs => hD s hs

/-- A command in which nobody is killed. -/
theorem wp_fs {Q : α → Kernel → Prop} (hc : ∀ v, Gives (fun _ => False) R held (c v) post)
    (h : Owned R held k.store) (hQ : ∀ a s, Owned R (post a) s → Q a { k with store := s }) :
    wp (fs P answers c) Q (Dies P) k :=
  wp_fs_or (hc _) h hQ fun _ hs => hs.elim

/-- A command on the inodes in which nobody is killed. -/
theorem Mid.fs (hc : ∀ R v, Gives (fun _ => False) R held (c v) post) :
    Serves P (Mid P pc held) (fs P answers c) fun a => Mid P pc (post a) := by
  intro k hk
  exact wp_fs (hc _) hk.books.owned fun a s hs => hk.store hs

/-- A command that reads names, while a file has no inode yet. -/
theorem Mid.names (hsafe : Safe answers) (hc : ∀ R v, v.Safe → Gives (fun _ => False) R held (c v) post) :
    Serves P (Mid P pc held) (Syscalls.fs P answers c) fun a => Mid P pc (post a) := by
  intro k hk
  exact wp_fs_or (hc _ _ hsafe) hk.books.owned (fun a s hs => hk.store hs) fun _ hs => hs.elim

/-- A command that begins with nothing in hand. -/
theorem Mid.begins (hsafe : Safe answers) (hpc : reservedFiles pc = [])
    (hc : ∀ R v, v.Safe → Gives (Owned R []) R held (c v) post) :
    Serves P (Mid P pc held) (Syscalls.fs P answers c) fun a => Mid P pc (post a) := by
  intro k hk
  exact wp_fs_or (hc _ _ hsafe) hk.books.owned (fun a s hs => hk.store hs) fun s hs => ⟨pc, hpc, hk.store hs⟩

theorem touch_mid (hsafe : Safe answers) (hpc : reservedFiles pc = []) :
    Serves P (Mid P pc []) (Syscalls.fs P answers touch) fun _ => Mid P pc [] :=
  Mid.begins hsafe hpc fun _ _ _ => touch_gives fun _ hs => hs

theorem wp_onFiles {Q : Unit → Kernel → Prop} {E : Stop → Kernel → Prop} (ht : k.files.task P = some t)
    (h : Q () { k with files := f k.files t }) : wp (onFiles P f) Q E k := by
  rw [onFiles, wp_bind, wp_get, ht]
  exact h

/-- A change of the descriptors. -/
theorem Mid.onFiles (h : ∀ σ t, σ.Sound → σ.task P = some t → t.pc = pc → Turn P pc next σ (f σ t)) :
    Serves P (Mid P pc held) (onFiles P f) fun _ => Mid P next held := by
  intro k hk
  obtain ⟨t, ht, hpc⟩ := hk.here
  exact wp_onFiles ht (hk.files (h k.files t hk.books.files ht hpc))

theorem returns_mid (ret : ℤ) : Serves P (Mid P .user held) (returns P ret) fun _ => Mid P .user held :=
  Mid.onFiles fun _ _ hσ ht _ => returns_turn hσ ht ret

end Commands

end OldLinux.Syscalls
