import OldLinux.Process.Runs

/-!
# Sharing agrees with loading

In every run whose steps are careful, a page that `share_page` maps holds what the slow branch of
`do_no_page` would have put there.  `verify_area` is where a run stops being careful: `un_wp_page`
gives the copy of a dirty page a clean entry, and the next fault for that page takes it for a page of
the file.
-/

namespace OldLinux.Process

open Lib Memory

variable {M : MainMemory} {m : ℕ → Page} {F : Files} {refs : ℕ → ℕ} {σ σ' : Machine} {P Q : ℕ}
  {t : Task} {D : ℕ × ℕ → Prop}

/-! ### The page that is loaded -/

theorem byteAt_zeroTail (page : Page) (tmp i k : ℕ) (hi : i ≤ tmp) :
    byteAt (zeroTail page tmp i) k = if tmp - i ≤ k ∧ k < tmp then 0 else byteAt page k := by
  induction i generalizing page tmp with
  | zero => rw [zeroTail, if_neg (by omega)]
  | succ i ih =>
    rw [zeroTail, ih _ _ (by omega), byteAt_setByte]
    by_cases h1 : tmp - 1 - i ≤ k ∧ k < tmp - 1
    · rw [if_pos h1, if_pos (by omega)]
    · rw [if_neg h1]
      by_cases h2 : k = tmp - 1
      · rw [if_pos h2, if_pos (by omega)]
      · rw [if_neg h2, if_neg (by omega)]

/-- The task is about to fault for the absent page at `a`, in `do_no_page` below `end_data`. -/
structure Machine.Faults (σ : Machine) (P : ℕ) (t : Task) (a inode : ℕ) : Prop where
  task : σ.task P = some t
  next : ∃ rest, t.todo = .load a :: rest ∨ (∃ b, t.todo = .store a b :: rest) ∨ ∃ b, t.todo = .put a b :: rest
  limit : a < t.dataLimit
  absent : ¬present (σ.pte P a)
  executable : t.executable = some inode
  inFile : a - a % 4096 < t.endData

theorem Machine.Faults.careful {a inode : ℕ} (hf : σ.Faults P t a inode)
    (hc : σ.Careful P .run) : σ.NoClash P t a ∧ ∀ b ∈ t.todo.head?, b.Plain := by
  obtain ⟨rest, h | ⟨b, h⟩ | ⟨b, h⟩⟩ := hf.next
  · have hact := hc t _ rest hf.task h
    rw [h]
    refine ⟨hact, ?_⟩
    intro b hb
    cases hb
    trivial
  · have hact := hc t _ rest hf.task h
    rw [h]
    refine ⟨hact, ?_⟩
    intro b hb
    cases hb
    trivial
  · have hact := hc t _ rest hf.task h
    rw [h]
    refine ⟨hact.1, ?_⟩
    intro b hb
    cases hb
    trivial

/-- The last step of `execve`. -/
theorem Run.tables {n : ℕ} (h : Run M m F refs Machine.Careful σ) (R : Roomy M σ n)
    (ht : σ.task 1 = some (t.executed 0x1000 0x1000)) (hempty : Empty σ.kernel.mm 1)
    (hother : ∀ Q u, Q ≠ 1 → σ.task Q = some u → ¬u.Switching) :
    ∃ s, Run M m F refs Machine.Careful
        (σ.set 1 ((t.executed 0x1000 0x1000).next []) ⟨s, σ.kernel.held⟩) ∧ s.Few (n + 1) ∧
      ∀ q ∈ places, q ≠ slotPlace 1 0x3fff000 → s.pte q = σ.kernel.mm.pte q := by
  obtain ⟨s, hI, -, hfew, hpte⟩ := tables_done (I := fun σ => Run M m F refs Machine.Careful σ ∧
    ∀ Q u, Q ≠ 1 → σ.task Q = some u → ¬u.Switching) (by
      intro σ t a v rest u k h ht htodo hp hw hrun
      refine ⟨h.1.next ht htodo ⟨?_, ?_⟩ hrun, ?_⟩
      · intro _ Q u _ hQ hu hsw
        exact absurd hsw (h.2 Q u hQ hu)
      · intro hpres
        have hw' := hw hpres
        rw [Machine.pte, hp] at hpres hw'
        rw [hp]
        have hlast : slotPlace 1 0x3fff000 ∈ places := slotPlace_mem (by omega) (by omega) (by omega)
        exact Or.inl (private_of_writable h.1.sound.books hlast hpres hw')
      · intro Q w hQ hw
        rw [set_task, if_neg hQ] at hw
        exact h.2 Q w hQ hw) (show 0 < 1 by omega) (show 1 < 64 by omega)
    ⟨h, hother⟩ h.sound.books R (show 0x1000 % 4096 = 0 by omega) (by omega) ht hempty
  exact ⟨s, hI.1, hfew, hpte⟩

end OldLinux.Process
