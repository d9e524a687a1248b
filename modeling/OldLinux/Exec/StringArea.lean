import OldLinux.Exec.Overrun

/-!
# `copy_strings` and its area

Strings that have room below `p` are copied there, unless memory runs out, and nothing else in the area
changes.  The test for strings that are too long is never true, so that with enough memory such strings
end outside of the array `page`.
-/

namespace OldLinux.Exec

open Lib

variable {others : ℕ → ℕ} {k0 k k' : Kernel} {argv : Argv} {argc : ℤ} {ss : List (List ℕ)} {p from_kmem : ℕ}

/-! ### The area -/

/-- Strings that have room are copied, and nothing else in the area changes, unless memory runs out; for
strings that are too long 0 is returned; and `page` is not used outside of its elements. -/
def StaysInArea (argc : ℤ) (argv : Argv) (p from_kmem : ℕ) (ss : List (List ℕ)) (k : Kernel) : Prop :=
  wp (copy_strings argc argv p from_kmem) (fun r k' => (p < size ss → r = 0) ∧
    (size ss < p → r = 0 ∧ k'.Full ∨ r = p - size ss ∧ Holds k'.area r ss ∧
      ∀ o, o < r ∨ p ≤ o → k'.area o = k.area o)) (fun e _ => e ≠ .outside) k

theorem copied_in_area (F : Filling others k0 k) (hp : p ≤ 131072) (hfs : k.fs = .user)
    (hlen : ss.length = argc.toNat)
    (hss : Strings (k.source from_kmem) (argv.ptr (k.table from_kmem)) ss) :
    wp (copy_strings argc argv p from_kmem) (fun r k' => (p < size ss → r = 0) ∧
      (size ss < p → r = 0 ∧ k'.Full ∨ r = p - size ss ∧ Holds k'.area r ss ∧
        ∀ o, o < r ∨ p ≤ o → k'.area o = k.area o)) (fun e _ => e = .outside → p < size ss) k := by
  refine wp_mono (wp_copy_strings F hp hfs) ?_ fun e _ h he => h he ss hlen hss
  rintro r k' ⟨-, -, ⟨rfl, h⟩ | ⟨ts, hts⟩⟩
  · refine ⟨fun _ => rfl, fun hlt => .inl ⟨rfl, h.resolve_left fun h => ?_⟩⟩
    omega
  · obtain rfl := hts.strings.unique hss (hts.length.trans hlen.symm)
    have hend := hts.end_at
    refine ⟨fun hlt => by omega, fun hlt => .inr ⟨by omega, hts.holds, fun o ho => ?_⟩⟩
    rcases ho with ho | ho
    · exact hts.below o ho
    · exact hts.above o ho

/-- Strings that are too long, with enough memory. -/
theorem outside_of_long (F : Filling others k0 k) (hp : p < 131072) (hp0 : p ≠ 0) (hfs : k.fs = .user)
    (hlen : ss.length = argc.toNat)
    (hss : Strings (k.source from_kmem) (argv.ptr (k.table from_kmem)) ss)
    (hread : Readable k from_kmem argv (argv.ptr (k.table from_kmem)) ss) (hfree : 33 ≤ k.free)
    (hlong : p < size ss) :
    wp (copy_strings argc argv p from_kmem) (fun _ _ => False) (fun e _ => e = .outside) k := by
  have hsup := supplied_of_free (show 32 ≤ k.free by omega)
  refine wp_mono (wp_copy_strings_supplied F hp hfs hlen hss hread hsup) ?_ fun _ _ h => h.2
  rintro r k' ⟨-, -, h | h⟩
  · exact hp0 h.1
  · omega

theorem leaves_area (F : Filling others k0 k) (hp : p < 131072) (hp0 : p ≠ 0) (hfs : k.fs = .user)
    (hlen : ss.length = argc.toNat)
    (hss : Strings (k.source from_kmem) (argv.ptr (k.table from_kmem)) ss)
    (hread : Readable k from_kmem argv (argv.ptr (k.table from_kmem)) ss) (hfree : 33 ≤ k.free)
    (hlong : p < size ss) : ¬StaysInArea argc argv p from_kmem ss k := by
  intro h
  have hboth := wp_and h (outside_of_long F hp hp0 hfs hlen hss hread hfree hlong)
  unfold wp at hboth
  split at hboth
  · exact hboth.2
  · exact hboth.1 hboth.2

/-- **`copy_strings` stays inside the area** exactly if it does not use `page` outside of its elements: it
does so for all strings that have room below `p`, and with enough memory for no others. -/
theorem copy_strings_stays_inside (F : Filling others k0 k) (hp : p ≤ 131068) (hfs : k.fs = .user)
    (hlen : ss.length = argc.toNat)
    (hss : Strings (k.source from_kmem) (argv.ptr (k.table from_kmem)) ss) :
    (StaysInArea argc argv p from_kmem ss k ↔ ∀ k', copy_strings argc argv p from_kmem k ≠ .error .outside k') ∧
    (size ss ≤ p ∨ p = 0 → StaysInArea argc argv p from_kmem ss k) ∧
    (Readable k from_kmem argv (argv.ptr (k.table from_kmem)) ss → 33 ≤ k.free →
      StaysInArea argc argv p from_kmem ss k → size ss ≤ p ∨ p = 0) := by
  have hspec := copied_in_area F (show p ≤ 131072 by omega) hfs hlen hss
  refine ⟨⟨fun h k' hrun => ?_, fun h => ?_⟩, fun h => ?_, fun hread hfree h => ?_⟩
  · rw [StaysInArea, wp, hrun] at h
    exact h rfl
  · rw [StaysInArea]
    rw [wp] at hspec ⊢
    cases hrun : copy_strings argc argv p from_kmem k with
    | ok r k' =>
      rw [hrun] at hspec
      exact hspec
    | error e k' =>
      intro he
      exact h k' (he ▸ hrun)
  · rcases h with h | rfl
    · refine wp_mono hspec (fun _ _ h => h) fun e _ hlt he => ?_
      have hlong := hlt he
      omega
    · rw [StaysInArea, copy_strings, if_pos rfl, wp_pure]
      exact ⟨fun _ => rfl, fun hlt => by omega⟩
  · by_contra hneg
    rw [not_or] at hneg
    exact leaves_area F (by omega) hneg.2 hfs hlen hss hread hfree (by omega) h

theorem caller_filling : Filling (fun _ => 0) caller.cleared caller.cleared :=
  ⟨caller_books, rfl, caller_books, Loads.refl _⟩

/-- The last letter of the caller's name. -/
theorem one_letter_stays_inside : StaysInArea 1 (.pointer 135168) 131068 1 [[120]] caller.cleared := by
  have hs : CString caller.user 135168 [120] := ⟨by decide, rfl, rfl⟩
  have hstring : Strings (caller.cleared.source 1)
    ((Argv.pointer 135168).ptr (caller.cleared.table 1)) [[120]] :=
    Strings.one (by decide) hs
  obtain ⟨-, hin, -⟩ := copy_strings_stays_inside caller_filling (Nat.le_refl 131068) rfl
    (show [[120]].length = (1 : ℤ).toNat from rfl) hstring
  exact hin (.inl (by decide))

/-- The caller's name of 131073 bytes. -/
theorem long_name_leaves_area : ∃ s, 131068 < s.length + 1 ∧ CString caller.user 4096 s ∧
    ¬StaysInArea 1 (.pointer 4096) 131068 1 [s] caller.cleared := by
  obtain ⟨s, hlen, hshort, hs⟩ := caller_name
  have hstring : Strings (caller.cleared.source 1) ((Argv.pointer 4096).ptr (caller.cleared.table 1)) [s] :=
    Strings.one (by decide) hs
  have hread : Readable caller.cleared 1 (.pointer 4096)
      ((Argv.pointer 4096).ptr (caller.cleared.table 1)) [s] := by
    refine ⟨fun hkmem => absurd (.inl rfl) hkmem, fun _ i t hi j hj => ?_, fun t ht => ?_⟩
    · have ht : t ∈ [s] := List.mem_of_getElem? hi
      rw [List.mem_singleton.1 ht] at hj
      exact caller_there (show 4096 + j < 0x400000 by omega)
    · rw [List.mem_singleton.1 ht, addresses]
      omega
  have hlong : 131068 < size [s] := by
    rw [size_cons, size_nil]
    omega
  refine ⟨s, by omega, hs, ?_⟩
  exact leaves_area caller_filling (by decide) (by decide) rfl
    (show [s].length = (1 : ℤ).toNat from rfl) hstring
    hread caller_free hlong

end OldLinux.Exec
