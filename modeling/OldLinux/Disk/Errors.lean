import OldLinux.Disk.Machine

/-!
# Errors of a request

`bad_rw_intr` and `bad_flp_intr` count an error of the request in service, and end it when there were too
many.  Both then look at `CURRENT->errors` once more, which is another request by then, or none: they keep
to the request that failed exactly as long as they do not end it.
-/

namespace OldLinux.Disk

open Lib

variable {k : Hd} {c : ℕ} {rest : List ℕ} {Q : Unit → Hd → Prop} {E : Trap → Hd → Prop}

/-! ### `bad_rw_intr` -/

/-- The queue after one that is not the last. -/
def Requests.retried (q : Requests) (c : ℕ) : Requests := (q.counted c).touch

/-- The queue after the last one, when the next request has been looked at. -/
def Requests.failed (q : Requests) (c : ℕ) (rest : List ℕ) : Requests :=
  ((q.counted c).touch.ended c rest false).touch

theorem retried_touched {q : Requests} (h : q.current = c :: rest) :
    (q.retried c).touched = [Access.to (some c), .to (some c)] ++ q.touched := by
  show Access.to q.current.head? :: .to (some c) :: q.touched = _
  rw [h]
  rfl

theorem failed_touched {q : Requests} (h : q.current = c :: rest) : (q.failed c rest).touched =
    .to rest.head? :: .removed c :: ([Access.to (some c), .to (some c)] ++ q.touched) := by
  show Access.to rest.head? :: .removed c :: .to q.current.head? :: .to (some c) :: q.touched = _
  rw [h]
  rfl

theorem wp_bad_rw_intr_retried (h : k.current = c :: rest) (he : (k.request c).errors + 1 < MAX_ERRORS) :
    wp bad_rw_intr Q E k ↔ Q () { k with
      toRequests := k.retried c
      reset := k.reset || decide (MAX_ERRORS / 2 < (k.request c).errors + 1) } := by
  have hcurrent : (k.counted c).current = c :: rest := h
  rw [bad_rw_intr, wp_bind, wp_queue, wp_count_error h, wp_bind, if_neg (not_le.2 he), wp_pure,
    wp_bind, wp_queue, wp_read_current hcurrent, Requests.counted_self]
  dsimp only
  by_cases hreset : MAX_ERRORS / 2 < (k.request c).errors + 1
  · rw [if_pos hreset, wp_modify, decide_eq_true hreset, Bool.or_true]
    exact Iff.rfl
  · rw [if_neg hreset, wp_pure, decide_eq_false hreset, Bool.or_false]
    exact Iff.rfl

theorem wp_bad_rw_intr_failed (h : k.current = c :: rest) (he : MAX_ERRORS ≤ (k.request c).errors + 1) :
    wp bad_rw_intr Q E k ↔ Q () { k with
      toRequests := k.failed c rest
      reset := k.reset || decide (MAX_ERRORS / 2 < (k.failed c rest).CURRENT.errors) } := by
  have hcurrent : (k.counted c).current = c :: rest := h
  rw [bad_rw_intr, wp_bind, wp_queue, wp_count_error h, wp_bind, if_pos he, wp_queue,
    wp_end_request hcurrent, wp_bind, wp_queue]
  show wp _ _ _ _ ↔ _
  by_cases hreset : MAX_ERRORS / 2 < (k.failed c rest).CURRENT.errors
  · rw [decide_eq_true hreset, Bool.or_true]
    show wp (if MAX_ERRORS / 2 < (k.failed c rest).CURRENT.errors then _ else _) _ _ _ ↔ _
    rw [if_pos hreset, wp_modify]
    exact Iff.rfl
  · rw [decide_eq_false hreset, Bool.or_false]
    show wp (if MAX_ERRORS / 2 < (k.failed c rest).CURRENT.errors then _ else _) _ _ _ ↔ _
    rw [if_neg hreset, wp_pure]
    exact Iff.rfl

/-! ### The floppy driver -/

structure Floppy extends Requests where
  recalibrate : Bool
  reset : Bool
  current_drive : ℕ
  current_DOR : ℕ
  selected : Bool

abbrev FloppyM := EStateM Trap Floppy

def FLOPPY_MAX_ERRORS : ℤ := 8

def flp_queue {α : Type} (c : QueueM α) : FloppyM α :=
  within Floppy.toRequests (fun q f => { f with toRequests := q }) c

/-- A drive that is not the selected one is reported. -/
def floppy_deselect (_ : ℕ) : FloppyM Unit := modify fun f => { f with selected := false }

theorem wp_flp_queue {α : Type} (c : QueueM α) (P : α → Floppy → Prop) (F : Trap → Floppy → Prop) (f : Floppy) :
    wp (flp_queue c) P F f ↔ wp c (fun a q => P a { f with toRequests := q })
      (fun e q => F e { f with toRequests := q }) f.toRequests := wp_within _ _ c P F f

def bad_flp_intr : FloppyM Unit := do
  let _ ← flp_queue count_error
  let r ← flp_queue read_current
  (if FLOPPY_MAX_ERRORS < r.errors then do
    let f ← get
    floppy_deselect f.current_drive
    flp_queue (end_request false)
  else pure ())
  let r ← flp_queue read_current
  if FLOPPY_MAX_ERRORS / 2 < r.errors then modify fun f => { f with reset := true }
  else modify fun f => { f with recalibrate := true }

section Floppy

variable {f : Floppy} {P : Unit → Floppy → Prop} {F : Trap → Floppy → Prop}

theorem wp_bad_flp_intr_retried (h : f.current = c :: rest)
    (he : (f.request c).errors + 1 ≤ FLOPPY_MAX_ERRORS) :
    wp bad_flp_intr P F f ↔ P () { f with
      toRequests := (f.retried c).touch
      reset := f.reset || decide (FLOPPY_MAX_ERRORS / 2 < (f.request c).errors + 1)
      recalibrate := f.recalibrate || !decide (FLOPPY_MAX_ERRORS / 2 < (f.request c).errors + 1) } := by
  have hcurrent : (f.counted c).current = c :: rest := h
  have hcurrent' : (f.retried c).current = c :: rest := h
  have hself : (f.retried c).request c = { f.request c with errors := (f.request c).errors + 1 } :=
    f.counted_self c
  rw [bad_flp_intr, wp_bind, wp_flp_queue, wp_count_error h, wp_bind, wp_flp_queue,
    wp_read_current hcurrent, Requests.counted_self]
  dsimp only
  rw [if_neg (not_lt.2 he), wp_bind, wp_pure, wp_bind, wp_flp_queue]
  show wp read_current _ _ (f.retried c) ↔ _
  rw [wp_read_current hcurrent', hself]
  by_cases hreset : FLOPPY_MAX_ERRORS / 2 < (f.request c).errors + 1
  · rw [if_pos hreset, wp_modify, decide_eq_true hreset, Bool.or_true, Bool.not_true, Bool.or_false]
  · rw [if_neg hreset, wp_modify, decide_eq_false hreset, Bool.or_false, Bool.not_false, Bool.or_true]

/-- The queue is left to the look at the next request. -/
theorem wp_bad_flp_intr_failed (h : f.current = c :: rest) (he : FLOPPY_MAX_ERRORS < (f.request c).errors + 1) :
    wp bad_flp_intr P F f → ∃ f', P () f' ∧
      f'.touched = .to rest.head? :: .removed c :: .to (some c) :: .to (some c) :: .to
      (some c) :: f.touched := by
  have hcurrent : (f.counted c).current = c :: rest := h
  have hcurrent' : (f.retried c).current = c :: rest := h
  rw [bad_flp_intr, wp_bind, wp_flp_queue, wp_count_error h, wp_bind, wp_flp_queue,
    wp_read_current hcurrent, Requests.counted_self]
  dsimp only
  rw [if_pos he, wp_bind, wp_bind, wp_get, wp_bind, floppy_deselect, wp_modify, wp_flp_queue]
  show wp (end_request false) _ _ (f.retried c) → _
  rw [wp_end_request hcurrent', wp_bind, wp_flp_queue, read_current, wp_bind, wp_get, wp_bind,
    wp_modify, wp_pure]
  have htouched : (((f.retried c).touch.ended c rest false).touch).touched =
      .to rest.head? :: .removed c :: .to (some c) :: .to (some c) :: .to (some c) :: f.touched := by
    show Access.to rest.head? :: .removed c :: .to f.current.head? :: (f.retried c).touched = _
    rw [retried_touched h, h]
    rfl
  intro hP
  split at hP
  · exact ⟨_, hP, htouched⟩
  · exact ⟨_, hP, htouched⟩

end Floppy

/-! ### What they should do -/

/-- Nothing is read or written through `CURRENT` after the request has been removed; the latest access
is the first of the list. -/
def NoneAfterRemoval (l : List Access) : Prop := ∀ a b c, l = a ++ Access.removed c :: b → a = []

/-- The queue after an error of the request in slot `c`, which is completed if it has `reached` the limit. -/
structure OnlyFailing (q q' : Requests) (c : ℕ) (rest : List ℕ) (reached : Prop) [Decidable reached] :
    Prop where
  failing : q'.request c = { q.request c with
    errors := (q.request c).errors + 1, dev := if reached then -1 else (q.request c).dev }
  others : ∀ s ≠ c, q'.request s = q.request s
  null : q'.null = q.null
  current : q'.current = if reached then rest else c :: rest
  accesses : ∃ l, q'.touched = l ++ q.touched ∧ NoneAfterRemoval l

/-- `bad_rw_intr` touches only the request that failed, and decides by its count alone about the reset. -/
def RwErrorContained (k : Hd) (c : ℕ) (rest : List ℕ) : Prop :=
  ∃ k', bad_rw_intr k = .ok () k' ∧
    OnlyFailing k.toRequests k'.toRequests c rest (MAX_ERRORS ≤ (k.request c).errors + 1) ∧
    k'.recalibrate = k.recalibrate ∧
    k'.reset = (k.reset || decide (MAX_ERRORS / 2 < (k.request c).errors + 1))

/-- `bad_flp_intr` does, and decides so about the reset or a recalibration. -/
def FlpErrorContained (f : Floppy) (c : ℕ) (rest : List ℕ) : Prop :=
  ∃ f', bad_flp_intr f = .ok () f' ∧
    OnlyFailing f.toRequests f'.toRequests c rest (FLOPPY_MAX_ERRORS < (f.request c).errors + 1) ∧
    f'.reset = (f.reset || decide (FLOPPY_MAX_ERRORS / 2 < (f.request c).errors + 1)) ∧
    f'.recalibrate = (f.recalibrate || !decide (FLOPPY_MAX_ERRORS / 2 < (f.request c).errors + 1))

/-! ### When they do it -/

theorem noneAfterRemoval_of_not_mem {l : List Access} (h : ∀ c, .removed c ∉ l) : NoneAfterRemoval l := by
  intro a b c heq
  exact absurd (heq ▸ List.mem_append_right a List.mem_cons_self) (h c)

theorem not_noneAfterRemoval {x : Access} {l : List Access} : ¬NoneAfterRemoval (x :: .removed c :: l) := by
  intro h
  exact List.cons_ne_nil x [] (h [x] l c rfl)

/-- The request is looked at a few times and stays in the queue. -/
theorem onlyFailing_retried {q q' : Requests} {l : List Access} {reached : Prop} [Decidable reached]
    (h : q.current = c :: rest) (hq : q' = { q.counted c with touched := l ++ q.touched })
    (hl : ∀ x ∈ l, x = .to (some c)) (hr : ¬reached) : OnlyFailing q q' c rest reached := by
  subst hq
  refine ⟨?_, fun s hs => q.counted_of_ne hs, rfl, ?_, l, rfl, ?_⟩
  · rw [if_neg hr]
    exact q.counted_self c
  · rw [if_neg hr]
    exact h
  · refine noneAfterRemoval_of_not_mem fun d hd => ?_
    cases hl _ hd

theorem not_onlyFailing {q q' : Requests} {x : Access} {l : List Access} {reached : Prop} [Decidable reached]
    (htouched : q'.touched = x :: .removed c :: (l ++ q.touched)) : ¬OnlyFailing q q' c rest reached := by
  intro h
  obtain ⟨l', hl', hnone⟩ := h.accesses
  rw [htouched, ← List.cons_append, ← List.cons_append] at hl'
  rw [← List.append_cancel_right hl'] at hnone
  exact not_noneAfterRemoval hnone

theorem rwErrorContained_iff (h : k.current = c :: rest) :
    RwErrorContained k c rest ↔ (k.request c).errors + 1 < MAX_ERRORS := by
  constructor
  · rintro ⟨k', hrun, honly, -⟩
    by_contra he
    have hwp : wp bad_rw_intr (fun _ s => s = k') (fun _ _ => False) k := (wp_of_ok hrun).2 rfl
    rw [wp_bad_rw_intr_failed h (not_lt.1 he)] at hwp
    have htouched : k'.touched = .to rest.head? :: .removed
        c :: ([Access.to (some c), .to (some c)] ++ k.touched) := by
      rw [← hwp]
      exact failed_touched h
    exact not_onlyFailing htouched honly
  · intro he
    have hwp : wp bad_rw_intr (fun _ s => s = { k with
        toRequests := k.retried c
        reset := k.reset || decide (MAX_ERRORS / 2 < (k.request c).errors + 1) }) (fun _ _ => False) k :=
      (wp_bad_rw_intr_retried h he).2 rfl
    obtain ⟨_, k', hrun, rfl⟩ := returns_of_wp hwp
    refine ⟨_, hrun, ?_, rfl, rfl⟩
    refine onlyFailing_retried h (l := [.to (some c), .to (some c)]) ?_ ?_ (not_le.2 he)
    · rw [← retried_touched h]
      rfl
    · intro x hx
      simpa using hx

theorem flpErrorContained_iff {f : Floppy} (h : f.current = c :: rest) :
    FlpErrorContained f c rest ↔ (f.request c).errors + 1 ≤ FLOPPY_MAX_ERRORS := by
  constructor
  · rintro ⟨f', hrun, honly, -⟩
    by_contra he
    have hwp : wp bad_flp_intr (fun _ s => s = f') (fun _ _ => False) f := (wp_of_ok hrun).2 rfl
    obtain ⟨_, rfl, htouched⟩ := wp_bad_flp_intr_failed h (not_le.1 he) hwp
    exact not_onlyFailing (l := [.to (some c), .to (some c), .to (some c)]) htouched honly
  · intro he
    have hwp : wp bad_flp_intr (fun _ s => s = { f with
        toRequests := (f.retried c).touch
        reset := f.reset || decide (FLOPPY_MAX_ERRORS / 2 < (f.request c).errors + 1)
        recalibrate := f.recalibrate || !decide (FLOPPY_MAX_ERRORS / 2 < (f.request c).errors + 1) })
        (fun _ _ => False) f := (wp_bad_flp_intr_retried h he).2 rfl
    obtain ⟨_, f', hrun, rfl⟩ := returns_of_wp hwp
    refine ⟨_, hrun, ?_, rfl, rfl⟩
    refine onlyFailing_retried h (l := [.to (some c), .to (some c), .to (some c)]) ?_ ?_ (not_lt.2 he)
    · have htouched : (f.retried c).touch.touched =
          [Access.to (some c), .to (some c), .to (some c)] ++ f.touched := by
        show Access.to f.current.head? :: (f.retried c).touched = _
        rw [retried_touched h, h]
        rfl
      rw [← htouched]
      rfl
    · intro x hx
      simpa using hx

/-- **Errors touch only the failing request**, in both drivers, exactly when they do not end it. -/
theorem errors_touch_only_failing {f : Floppy} {c' : ℕ} {rest' : List ℕ} (h : k.current = c :: rest)
    (h' : f.current = c' :: rest') :
    (RwErrorContained k c rest ↔ (k.request c).errors + 1 < MAX_ERRORS) ∧
      (FlpErrorContained f c' rest' ↔ (f.request c').errors + 1 ≤ FLOPPY_MAX_ERRORS) :=
  ⟨rwErrorContained_iff h, flpErrorContained_iff h'⟩

/-- One request to read block 5 of the first partition, which has had six errors. -/
def lastRequest : Requests where
  request _ := ⟨0x301, .read, 6, 10, 2, 0, some 0⟩
  current := [0]
  bh _ := ⟨false, true⟩
  null := ⟨0, .read, 0, 0, 0, 0, none⟩
  touched := []
  log := []

def lastTry : Hd where
  toRequests := lastRequest
  recalibrate := false
  reset := false
  do_hd := none
  disks := ⟨1, fun _ => ⟨16, 63, 1000⟩, fun _ => ⟨1, 1000⟩⟩
  answers := ⟨0x51, fun _ => true, fun _ => true⟩

def flpTry : Floppy where
  toRequests := lastRequest
  recalibrate := false
  reset := false
  current_drive := 0
  current_DOR := 0x0c
  selected := true

theorem errors_touch_only_failing_last :
    (RwErrorContained lastTry 0 [] ↔ (lastTry.request 0).errors + 1 < MAX_ERRORS) ∧
      (FlpErrorContained flpTry 0 [] ↔ (flpTry.request 0).errors + 1 ≤ FLOPPY_MAX_ERRORS) :=
  errors_touch_only_failing rfl rfl

/-- The seventh error ends the only request, and then `CURRENT` is NULL. -/
theorem seventh_error_reads_null : ¬RwErrorContained lastTry 0 [] ∧
    Access.to none ∈ (lastTry.failed 0 []).touched := by
  refine ⟨fun h => ?_, by decide⟩
  have he := (rwErrorContained_iff rfl).1 h
  revert he
  decide

end OldLinux.Disk
