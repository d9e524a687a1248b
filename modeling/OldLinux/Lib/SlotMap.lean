import OldLinux.Lib.Numerals

/-!
# Finite maps in slots

A table of `n` slots, each with a key and, if it is in use, a value.  As long as no two slots in use have
the same key, the table is a finite map.  A pair is put into any slot that is free, or behind the last one,
and taken out of the slot that holds it, and the map changes at its key alone.
-/

namespace OldLinux.Lib

open Function

variable {K V : Type} {n s : ℕ} {key key' : ℕ → K} {val val' : ℕ → Option V} {m : K → Option V} {k : K} {v : V}

/-- The first `n` slots hold the map `m`. -/
structure SlotMap (n : ℕ) (key : ℕ → K) (val : ℕ → Option V) (m : K → Option V) : Prop where
  holds : ∀ i < n, ∀ v, val i = some v → m (key i) = some v
  held : ∀ k v, m k = some v → ∃ i < n, key i = k ∧ val i = some v
  unique : ∀ i < n, ∀ j < n, val i ≠ none → val j ≠ none → key i = key j → i = j

theorem SlotMap.empty (key : ℕ → K) (val : ℕ → Option V) : SlotMap 0 key val fun _ => none where
  holds := fun i hi => absurd hi (Nat.not_lt_zero i)
  held := fun _ _ h => nomatch h
  unique := fun i hi => absurd hi (Nat.not_lt_zero i)

/-- A key that no slot in use has. -/
theorem SlotMap.absent (h : SlotMap n key val m) : m k = none ↔ ∀ i < n, key i = k → val i = none := by
  refine ⟨fun hk i hi hkey => ?_, fun hall => ?_⟩
  · cases hv : val i with
    | none => rfl
    | some v =>
      have hm := h.holds i hi v hv
      rw [hkey, hk] at hm
      cases hm
  · cases hm : m k with
    | none => rfl
    | some v =>
      obtain ⟨i, hi, hkey, hv⟩ := h.held k v hm
      rw [hall i hi hkey] at hv
      cases hv

/-- What is left of the slots is the same. -/
theorem SlotMap.congr (h : SlotMap n key val m) (hsame : ∀ i < n, key' i = key i ∧ val' i = val i) :
    SlotMap n key' val' m where
  holds := fun i hi v hv => by
    obtain ⟨hkey, hval⟩ := hsame i hi
    rw [hkey]
    exact h.holds i hi v (hval ▸ hv)
  held := fun k v hm => by
    obtain ⟨i, hi, hk, hv⟩ := h.held k v hm
    obtain ⟨hkey, hval⟩ := hsame i hi
    exact ⟨i, hi, hkey.trans hk, hval.trans hv⟩
  unique := fun i hi j hj h1 h2 heq => by
    obtain ⟨hkey, hval⟩ := hsame i hi
    obtain ⟨hkey', hval'⟩ := hsame j hj
    rw [hval] at h1
    rw [hval'] at h2
    exact h.unique i hi j hj h1 h2 (hkey.symm.trans (heq.trans hkey'))

variable [DecidableEq K]

/-- **A pair is put in** where no slot has the key. -/
theorem SlotMap.put (h : SlotMap n key val m) (hs : s ≤ n) (hfree : s < n → val s = none) (hnew : m k = none)
    (hkey : key' s = k) (hval : val' s = some v)
    (hsame : ∀ i < n, i ≠ s → key' i = key i ∧ val' i = val i) :
    SlotMap (max n (s + 1)) key' val' (update m k (some v)) := by
  have hlt : ∀ i < max n (s + 1), i ≠ s → i < n := by omega
  have hother : ∀ i < n, i ≠ s → val i ≠ none → key i ≠ k := fun i hi _ hv heq => hv (h.absent.1 hnew i hi heq)
  refine ⟨fun i hi w hw => ?_, fun k' w hw => ?_, fun i hi j hj h1 h2 heq => ?_⟩
  · by_cases his : i = s
    · rw [his, hval] at hw
      rw [his, hkey, update_self, hw]
    · obtain ⟨h1, h2⟩ := hsame i (hlt i hi his) his
      rw [h2] at hw
      have hne : val i ≠ none := by rw [hw]; exact Option.some_ne_none w
      rw [h1, update_of_ne (hother i (hlt i hi his) his hne)]
      exact h.holds i (hlt i hi his) w hw
  · by_cases hk : k' = k
    · rw [hk, update_self] at hw
      exact ⟨s, by omega, hkey.trans hk.symm, hval.trans hw⟩
    · rw [update_of_ne hk] at hw
      obtain ⟨i, hi, hki, hvi⟩ := h.held k' w hw
      have his : i ≠ s := by
        rintro rfl
        rw [hfree hi] at hvi
        cases hvi
      obtain ⟨h1, h2⟩ := hsame i hi his
      exact ⟨i, by omega, h1.trans hki, h2.trans hvi⟩
  · by_cases his : i = s
    · by_cases hjs : j = s
      · exact his.trans hjs.symm
      · obtain ⟨h3, h4⟩ := hsame j (hlt j hj hjs) hjs
        rw [h4] at h2
        rw [his, hkey, h3] at heq
        exact absurd heq.symm (hother j (hlt j hj hjs) hjs h2)
    · obtain ⟨h3, h4⟩ := hsame i (hlt i hi his) his
      rw [h4] at h1
      by_cases hjs : j = s
      · rw [hjs, hkey, h3] at heq
        exact absurd heq (hother i (hlt i hi his) his h1)
      · obtain ⟨h5, h6⟩ := hsame j (hlt j hj hjs) hjs
        rw [h6] at h2
        rw [h3, h5] at heq
        exact h.unique i (hlt i hi his) j (hlt j hj hjs) h1 h2 heq

/-- **A pair is taken out.** -/
theorem SlotMap.clear (h : SlotMap n key val m) (hs : s < n) (hused : val s ≠ none) (hval : val' s = none)
    (hsame : ∀ i < n, i ≠ s → key' i = key i ∧ val' i = val i) :
    SlotMap n key' val' (update m (key s) none) := by
  have hother : ∀ i < n, i ≠ s → val i ≠ none → key i ≠ key s := fun i hi his hv heq =>
    his (h.unique i hi s hs hv hused heq)
  refine ⟨fun i hi w hw => ?_, fun k' w hw => ?_, fun i hi j hj h1 h2 heq => ?_⟩
  · have his : i ≠ s := by
      rintro rfl
      rw [hval] at hw
      cases hw
    obtain ⟨h1, h2⟩ := hsame i hi his
    rw [h2] at hw
    have hne : val i ≠ none := by rw [hw]; exact Option.some_ne_none w
    rw [h1, update_of_ne (hother i hi his hne)]
    exact h.holds i hi w hw
  · by_cases hk : k' = key s
    · rw [hk, update_self] at hw
      cases hw
    · rw [update_of_ne hk] at hw
      obtain ⟨i, hi, hki, hvi⟩ := h.held k' w hw
      have his : i ≠ s := by
        rintro rfl
        exact hk hki.symm
      obtain ⟨h1, h2⟩ := hsame i hi his
      exact ⟨i, hi, h1.trans hki, h2.trans hvi⟩
  · have his : i ≠ s := by
      rintro rfl
      exact h1 hval
    have hjs : j ≠ s := by
      rintro rfl
      exact h2 hval
    obtain ⟨h3, h4⟩ := hsame i hi his
    obtain ⟨h5, h6⟩ := hsame j hj hjs
    rw [h4] at h1
    rw [h6] at h2
    rw [h3, h5] at heq
    exact h.unique i hi j hj h1 h2 heq

end OldLinux.Lib
