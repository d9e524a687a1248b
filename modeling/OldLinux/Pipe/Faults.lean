import OldLinux.Pipe.Window

/-!
# Page faults inside the copy loops of a pipe

The head and the tail move before the bytes are copied.  A process that faults in its copy loop sleeps
with bytes announced that are not stored, or released that are not taken, and the other side may get at
them.
-/

namespace OldLinux.Pipe

open Lib Sched Machine

variable {σ τ : Machine} {P : ℕ} {c c' : Call} {s n s' n' : ℕ}

theorem Window.apart (W : Window σ) (hcall : (σ.task σ.current).call = some (c, .copy s (n + 1)))
    (hP : (σ.task P).call = some (c', .fault s' n')) (hside : c'.side ≠ c.side) :
    ¬(s' ≤ s ∧ s < s' + n') := by
  have h1 := W.calls _ _ _ hcall (Nat.succ_pos n)
  obtain ⟨hn, h2⟩ := W.calls _ _ _ hP
  have h3 := h1.index
  have h5 := h1.inside
  have h6 := h2.index
  have h8 := h2.inside
  cases hc : c.side with
  | read =>
    cases hc' : c'.side with
    | read => exact absurd (hc'.trans hc.symm) hside
    | write =>
      -- the reader is behind the tail, the writer before it and less than a page further on
      rw [hc] at h5
      rw [hc'] at h8
      simp only at h5 h8
      omega
  | write =>
    cases hc' : c'.side with
    | write => exact absurd (hc'.trans hc.symm) hside
    | read =>
      rw [hc] at h5
      rw [hc'] at h8
      simp only at h5 h8
      omega

/-- **Faults stay invisible.**  In every run whose rounds keep clear of the bytes that blocked
processes of the other side have still to copy, no process in its copy loop is at such a byte. -/
theorem faults_invisible (h : Reach Start step (fun σ e => σ.clear e = true) σ)
    (hcall : (σ.task σ.current).call = some (c, .copy s (n + 1)))
    (hP : (σ.task P).call = some (c', .fault s' n')) (hside : c'.side ≠ c.side) :
    ¬(s' ≤ s ∧ s < s' + n') := by
  have W : Window σ := h.invariant (fun _ h => start_window h)
    (fun _ _ _ W ha hs => step_window W ha hs)
  exact W.apart hcall hP hside

/-! ### A reader that runs into a blocked writer -/

/-- Task 1 writes `count` bytes from `buf` on until it faults; task 2 reads one byte. -/
def faultRun (buf : ℕ) (count : ℤ) (copied : ℕ) : List Event :=
  [Event.call .write buf count, .run, .run] ++ List.replicate copied Event.run ++
    [Event.run, .switch 2, .call .read 0 1, .run, .run]

/-- The writer has stored one byte of two: the reader takes that one. -/
theorem faults_invisible_one_byte : ∃ σ c c', Reach Start step (fun σ e => σ.clear e = true) σ ∧
    (σ.task σ.current).call = some (c, .copy 0 1) ∧ (σ.task 1).call = some (c', .fault 1 1) ∧
    ¬(1 ≤ 0 ∧ 0 < 1 + 1) := by
  obtain ⟨σ, c, c', hexec, h1, h2, h3⟩ : ∃ σ c c', exec step writerAndReader (faultRun 4095 2 1) = some σ ∧
      (σ.task σ.current).call = some (c, .copy 0 1) ∧ (σ.task 1).call = some (c', .fault 1 1) ∧
      c'.side ≠ c.side := ⟨_, _, _, rfl, rfl, rfl, by decide⟩
  have hreach : Reach Start step (fun σ e => σ.clear e = true) σ := by
    refine (Reach.start writerAndReader_start).exec (along_of_checks ?_) hexec
    decide
  exact ⟨σ, c, c', hreach, h1, h2, faults_invisible hreach h1 h2 h3⟩

/-- `write_pipe` moves the head before it copies: task 1 announces a byte, faults on its buffer, and
task 2 reads the byte of the page that task 1 has not stored. -/
theorem fault_shows_unstored_byte : ¬∀ σ P c c' s n s' n', Reach Start step (fun _ _ => True) σ →
      (σ.task σ.current).call = some (c, .copy s (n + 1)) →
      (σ.task P).call = some (c', .fault s' n') → c'.side ≠ c.side → ¬(s' ≤ s ∧ s < s' + n') := by
  intro hall
  obtain ⟨σ, c, c', hexec, h1, h2, h3⟩ : ∃ σ c c', exec step writerAndReader (faultRun 4096 1 0) = some σ ∧
      (σ.task σ.current).call = some (c, .copy 0 1) ∧ (σ.task 1).call = some (c', .fault 0 1) ∧
      c'.side ≠ c.side := ⟨_, _, _, rfl, rfl, rfl, by decide⟩
  have hreach : Reach Start step (fun _ _ => True) σ :=
    (Reach.start writerAndReader_start).exec (along_true _ _) hexec
  exact hall σ 1 c c' 0 0 0 1 hreach h1 h2 h3 ⟨by decide, by decide⟩

end OldLinux.Pipe
