import OldLinux.Disk.History
import OldLinux.Disk.Errors
import OldLinux.Disk.Geometry
import Mathlib.Algebra.Order.BigOperators.Group.List
import Mathlib.Algebra.Order.Group.Nat

/-!
# Retries of the hard disk driver

A request is ended with an error only after seven of them since its last sector, unless the error comes
when its first sector is done and the request is in the last block of its partition, or is a write that had
errors before: then `do_hd_request` takes what is left for a request that reaches beyond the partition, and
`write_intr` has not forgotten the errors.
-/

namespace OldLinux.Disk

open Function Lib

variable {d : Disks} {k k' : Hd} {q : Requests} {c s n : ℕ} {rest : List ℕ} {r r0 : Request} {l : List Note}

/-! ### Requests that keep their sectors -/

/-- What the driver has done was right; a request with both sectors is ended; and the driver waits for the
controller, to which it has given a command after the last error. -/
structure Retries (d : Disks) (k : Hd) : Prop where
  right : AllRight d k.log
  some : ∀ c ∈ k.current, sectorsDone c k.log < 2
  acting : ∀ c rest, k.current = c :: rest → k.do_hd ≠ none ∧ Answered c k.log

/-- The next error is not the last, or there were six since the last sector. -/
def Spare (q : Requests) (c : ℕ) : Prop := (q.request c).errors < 6 ∨ 6 ≤ failures c q.log

/-- The controller reports an error, or does not ask for the data of a write that is given again. -/
def Fails (k : Hd) (a : Answers) : Prop :=
  a.status &&& 0xf1 ≠ 0x50 ∨ k.do_hd = some .recal_intr ∧ k.reset = false ∧
  k.recalibrate = false ∧ a.drq 0 = false

/-- When the request in service has one sector left and the controller fails, what is left is inside the
partition by the measure of `do_hd_request`, and this is not the last try of a write that had errors before. -/
def Spared (d : Disks) (k : Hd) (e : Event × Answers) : Prop :=
  e.1 = .interrupt → ∀ c rest, k.current = c :: rest → (k.request c).nr_sectors = 1 → Fails k e.2 →
    Inside d (k.request c) ∧ Spare k.toRequests c

/-! ### The range check -/

theorem outside_of_inside (h : Inside d r) : d.outside r = false := by
  obtain ⟨h1, h2⟩ := h
  have hnr := (d.hd (MINOR r.dev)).nr_sects.toInt_lt
  have hadd : (r.sector + 2).toNat = r.sector.toNat + 2 := by
    rw [BitVec.toNat_add]
    show (r.sector.toNat + 2) % 2 ^ 32 = _
    omega
  have hint : (r.sector + 2).toInt = r.sector.toNat + 2 := by
    rw [BitVec.toInt_eq_toNat_cond, if_pos (by omega), hadd]
    push_cast
    rfl
  rw [Disks.outside, decide_eq_false_iff_not, not_or, not_le, not_lt, hint]
  exact ⟨h1, h2⟩

/-- Before its first sector a request is where it was asked for. -/
theorem Tracks.inside (h : Tracks l c r r0) (hzero : sectorsDone c l = 0) (hin : Inside d r0) : Inside d r := by
  have hsector := h.sector
  rw [hzero] at hsector
  have hsame : r.sector = r0.sector := hsector.trans (BitVec.add_zero _)
  rw [Inside, h.dev, hsame]
  exact hin

/-! ### Rounds -/

/-- How many errors there may still be. -/
def work (q : Requests) : ℕ := (q.current.map fun s => (7 - (q.request s).errors).toNat).sum

theorem work_cons (hq : q.current = c :: rest) :
    work q = (7 - (q.request c).errors).toNat + (rest.map fun s => (7 - (q.request s).errors).toNat).sum := by
  rw [work, hq, List.map_cons, List.sum_cons]

theorem work_le (h : Kept d q) : work q ≤ 7 * q.current.length := by
  have hall : ∀ s ∈ q.current, (7 - (q.request s).errors).toNat ≤ 7 := by
    intro s hs
    obtain ⟨c, rest, hq⟩ := List.exists_cons_of_ne_nil (List.ne_nil_of_mem hs)
    rw [hq] at hs
    rcases List.mem_cons.1 hs with rfl | hs
    · obtain ⟨r0, htracks⟩ := h.head s rest hq
      have hcounted := htracks.counted
      omega
    · have herrors := ((h.behind c rest hq).fresh s hs).errors
      omega
  have hsum := List.sum_le_card_nsmul (q.current.map fun s => (7 - (q.request s).errors).toNat) 7 (by
    intro x hx
    obtain ⟨s, hs, rfl⟩ := List.mem_map.1 hx
    exact hall s hs)
  rw [List.length_map] at hsum
  rw [work, Nat.mul_comm]
  exact hsum

/-- The other requests keep their errors. -/
theorem rest_work {q' : Requests} (h : Behind d q c rest) (hother : ∀ s ≠ c, q'.request s = q.request s) :
    (rest.map fun s => (7 - (q'.request s).errors).toNat) =
      rest.map fun s => (7 - (q.request s).errors).toNat := by
  have hnodup := List.nodup_cons.1 h.nodup
  refine List.map_congr_left fun s hs => ?_
  rw [hother s fun hsc => hnodup.1 (hsc ▸ hs)]

/-! ### One error -/

/-- The driver may stop because the controller is not ready, because of what it was told of the drives, or
at NULL. -/
def Stops (e : Trap) : Prop :=
  e = .panic "HD controller not ready" ∨ e = .panic "Trying to write bad sector" ∨ e = .divide ∨ e = .null

/-- Where `do_hd_request` begins or goes on. -/
structure Entry (d : Disks) (k : Hd) : Prop where
  disks : k.disks = d
  kept : Kept d k.toRequests
  half : ∀ c rest, k.current = c :: rest → sectorsDone c k.log = 1 → Inside d (k.request c)
  spare : ∀ c rest, k.current = c :: rest → sectorsDone c k.log = 1 →
    Spare k.toRequests c ∨ k.reset = true ∨ k.recalibrate = true ∨ k.answers.drq 0 = true

/-- The request in service has not been in service before. -/
theorem Entry.fresh (hk : k.disks = d) (h : Kept d k.toRequests)
    (hzero : ∀ c rest, k.current = c :: rest → sectorsDone c k.log = 0) : Entry d k := by
  refine ⟨hk, h, fun c rest hq hdone => ?_, fun c rest hq hdone => ?_⟩
  · exact absurd ((hzero c rest hq).symm.trans hdone) (by decide)
  · exact absurd ((hzero c rest hq).symm.trans hdone) (by decide)

theorem Behind.retried (h : Behind d q c rest) : Behind d (q.retried c) c rest := by
  have hself : (q.retried c).request c = { q.request c with errors := (q.request c).errors + 1 } :=
    q.counted_self c
  refine h.change (n := .error c) rfl trivial rfl rfl (fun _ hs => q.counted_of_ne hs) ?_ ?_ ?_
  · rw [hself]
  · rw [hself]
  · rw [hself]

/-- The request behind the one that is ended was not in service. -/
theorem Behind.next_fresh {uptodate : Bool} {c' : ℕ} (h : Behind d q c rest) (hc : c' ∈ rest) :
    sectorsDone c' (q.ended c rest uptodate).log = 0 := by
  have hne : (Note.ended c uptodate).slot ≠ c' := fun heq : c = c' => (List.nodup_cons.1 h.nodup).1 (heq ▸ hc)
  exact (sectorsDone_other hne).trans (h.fresh c' hc).done

/-- **An error is counted.**  The request in service has one try less, or it had no more. -/
theorem wp_error_entry (hk : k.disks = d) (h : Kept d k.toRequests) (hq : k.current = c :: rest)
    (hhalf : sectorsDone c k.log = 1 → Inside d (k.request c) ∧ Spare k.toRequests c) :
    wp bad_rw_intr (fun _ k' => Entry d k' ∧ work k'.toRequests < work k.toRequests)
    (fun e _ => Stops e) k := by
  have hbehind := h.behind c rest hq
  obtain ⟨r0, htracks⟩ := h.head c rest hq
  have hretried : (k.retried c).request c = { k.request c with errors := (k.request c).errors + 1 } :=
    k.counted_self c
  have hmost := htracks.most
  have hcounted := htracks.counted
  have hwork := work_cons hq
  rcases lt_or_ge ((k.request c).errors + 1) MAX_ERRORS with he | he
  · rw [wp_bad_rw_intr_retried hq he]
    have hlt : (k.request c).errors + 1 < 7 := he
    have htracks' := htracks.error hretried hlt
    refine ⟨⟨hk, hbehind.retried.kept hq htracks', ?_, ?_⟩, ?_⟩
    · intro c' rest' hq' hdone
      obtain ⟨rfl, rfl⟩ := List.cons.inj (hq.symm.trans hq')
      show Inside d ((k.retried c).request c)
      rw [hretried]
      exact (hhalf hdone).1
    · intro c' rest' hq' _
      obtain ⟨rfl, rfl⟩ := List.cons.inj (hq.symm.trans hq')
      -- a count that leaves one try has asked for a reset
      rcases lt_or_ge ((k.request c).errors + 1) 6 with hsix | hsix
      · refine .inl (.inl ?_)
        show ((k.retried c).request c).errors < 6
        rw [hretried]
        exact hsix
      · refine .inr (.inl ?_)
        show (k.reset || decide (MAX_ERRORS / 2 < (k.request c).errors + 1)) = true
        rw [decide_eq_true (show MAX_ERRORS / 2 < (k.request c).errors + 1 from
          lt_of_lt_of_le (by decide) hsix),
          Bool.or_true]
    · have hq' : (k.retried c).current = c :: rest := hq
      have hother : ∀ s ≠ c, (k.retried c).request s = k.request s := fun s hs => k.counted_of_ne hs
      show work (k.retried c) < _
      rw [work_cons hq', hwork, rest_work hbehind hother, hretried]
      dsimp only
      omega
  · rw [wp_bad_rw_intr_failed hq he]
    have hge : 7 ≤ (k.request c).errors + 1 := he
    have hsix : 6 ≤ failures c k.log := by
      rcases Nat.lt_or_ge (sectorsDone c k.log) 1 with hzero | hone
      · have hexact := htracks.exact (.inl (by omega))
        omega
      · have hsome := htracks.some
        rcases (hhalf (by omega)).2 with hlt | hsix
        · omega
        · exact hsix
    have hright : Right d (.ended c false) (k.retried c).touch.log := by
      intro r0 _ _
      show 7 ≤ failures c (.error c :: k.log)
      rw [failures_error]
      omega
    have hbehind' : Behind d (k.counted c).touch c rest := hbehind.retried
    refine ⟨Entry.fresh hk (hbehind'.ended hright).touch fun c' rest' hq' => ?_, ?_⟩
    · have hrest : rest = c' :: rest' := hq'
      exact hbehind'.next_fresh (hrest ▸ List.mem_cons_self)
    · have hother : ∀ s ≠ c, (k.failed c rest).request s = k.request s := by
        intro s hs
        show update (k.counted c).request c _ s = _
        rw [update_of_ne hs]
        exact k.counted_of_ne hs
      have hrest : work (k.failed c rest) = (rest.map fun s => (7 - (k.request s).errors).toNat).sum :=
        congrArg List.sum (rest_work hbehind hother)
      show work (k.failed c rest) < _
      rw [hwork, hrest]
      omega

/-! ### `do_hd_request` -/

/-- The driver at rest between two events. -/
structure Waits (d : Disks) (k : Hd) : Prop where
  disks : k.disks = d
  kept : Kept d k.toRequests
  acting : ∀ c rest, k.current = c :: rest → k.do_hd ≠ none ∧ Answered c k.log
  half : ∀ c rest, k.current = c :: rest → k.do_hd = some .recal_intr → sectorsDone c k.log = 1 →
    Inside d (k.request c)
  writes : ∀ c rest, k.current = c :: rest → k.do_hd = some .write_intr → (k.request c).cmd ≠ .read

theorem wp_hd_out {x : Command} {a : Handler} {Q : Unit → Hd → Prop} (hq : k.current = c :: rest)
    (hQ : ∀ ready, Q () { k with
      toRequests := { k.toRequests with log := .command c (k.request c) x :: k.log }
      do_hd := some a
      answers := { k.answers with ready := ready } }) : wp (hd_out x a) Q (fun e _ => Stops e) k := by
  rw [hd_out, wp_ite]
  refine ⟨fun _ => .inr (.inl rfl), fun _ => ?_⟩
  rw [wp_bind, controller_ready, wp_bind, wp_get, wp_bind, wp_modify, wp_pure, wp_ite]
  refine ⟨fun _ => ?_, fun _ => .inl rfl⟩
  rw [wp_bind, wp_modify, wp_bind, wp_get, wp_queue, CURRENT_cons hq]
  exact (wp_note hq).2 (hQ _)

theorem Kept.command {x : Command} (h : Kept d q) (hq : q.current = c :: rest)
    (hx : x.cmd = .read ∨ x.cmd = .write → x.nsect = (q.request c).nr_sectors) :
    Kept d { q with log := .command c (q.request c) x :: q.log } := by
  obtain ⟨r0, htracks⟩ := h.head c rest hq
  have hright : Right d (.command c (q.request c) x) q.log := by
    intro hcmd r0' hasked
    cases htracks.asked.symm.trans hasked
    rw [hx hcmd]
    exact ⟨htracks.sector, htracks.nr_sectors⟩
  have hbehind : Behind d { q with log := .command c (q.request c) x :: q.log } c rest :=
    (h.behind c rest hq).change (n := .command c (q.request c) x) rfl hright rfl rfl
    (fun _ _ => rfl) rfl rfl rfl
  exact hbehind.kept hq htracks.command

/-- A command is given for the request in service. -/
theorem Entry.waits {x : Command} {a : Handler} (h : Entry d k) (hq : k.current = c :: rest)
    (hx : x.cmd = .read ∨ x.cmd = .write → x.nsect = (k.request c).nr_sectors)
    (ha : a = .write_intr → (k.request c).cmd ≠ .read) {b b' : Bool} {answers : Answers} :
    Waits d { k with
      toRequests := { k.toRequests with log := .command c (k.request c) x :: k.log }
      recalibrate := b
      reset := b'
      do_hd := some a
      answers := answers } := by
  refine ⟨h.disks, h.kept.command hq hx, fun c' rest' hq' => ?_, fun c' rest' hq' _ hdone => ?_,
    fun c' rest' hq' hhandler => ?_⟩
  · obtain ⟨rfl, rfl⟩ := List.cons.inj (hq.symm.trans hq')
    exact ⟨Option.some_ne_none a, .inl rfl⟩
  · exact h.half c' rest' hq' hdone
  · obtain ⟨rfl, rfl⟩ := List.cons.inj (hq.symm.trans hq')
    exact ha (Option.some.inj hhandler)

theorem Kept.data {buffer : BitVec 32} (h : Kept d q) (hq : q.current = c :: rest)
    (hbuffer : buffer = (q.request c).buffer) : Kept d { q with log := .data c buffer :: q.log } := by
  obtain ⟨r0, htracks⟩ := h.head c rest hq
  have hright : Right d (.data c buffer) q.log := by
    intro r0' hasked
    cases htracks.asked.symm.trans hasked
    rw [hbuffer]
    exact htracks.buffer
  have hbehind : Behind d { q with log := .data c buffer :: q.log } c rest :=
    (h.behind c rest hq).change (n := .data c buffer) rfl hright rfl rfl (fun _ _ => rfl) rfl rfl rfl
  exact hbehind.kept hq htracks.data

/-- The request is outside its partition: this is not so for one that is inside. -/
theorem Entry.outside (h : Entry d k) (hq : k.current = c :: rest) (hout : d.outside (k.request c) = true) :
    Kept d (k.touch.ended c rest false) := by
  obtain ⟨r0, htracks⟩ := h.kept.head c rest hq
  refine (h.kept.behind c rest hq).touch.ended fun r0' hasked hin => ?_
  have hasked' : asked c k.log = some r0' := hasked
  cases htracks.asked.symm.trans hasked'
  have hinside : Inside d (k.request c) := by
    rcases Nat.lt_or_ge (sectorsDone c k.log) 1 with hzero | hone
    · exact htracks.inside (by omega) hin
    · have hsome := htracks.some
      exact h.half c rest hq (by omega)
  rw [outside_of_inside hinside] at hout
  cases hout

theorem Waits.data {buffer : BitVec 32} {answers : Answers} (h : Waits d k) (hq : k.current = c :: rest)
    (hbuffer : buffer = (k.request c).buffer) : Waits d { k with
      toRequests := { k.toRequests with log := .data c buffer :: k.log }
      answers := answers } :=
  ⟨h.disks, h.kept.data hq hbuffer, h.acting, h.half, h.writes⟩

/-- The data of a write are asked for in time, or not. -/
theorem Waits.after_write {buffer : BitVec 32} (h : Waits d k) (hq : k.current = c :: rest)
    (hbuffer : buffer = (k.request c).buffer)
    (hhalf : sectorsDone c k.log = 1 → Inside d (k.request c) ∧ (Spare k.toRequests c ∨ k.answers.drq 0 = true))
    (ih : ∀ k', work k'.toRequests < n → Entry d k' →
      wp (request_loop n) (fun _ => Waits d) (fun e _ => Stops e) k') (hwork : work k.toRequests < n + 1) :
    wp (do
      if ← wait_drq then queue (note fun c => .data c buffer)
      else do
        bad_rw_intr
        request_loop n) (fun _ => Waits d) (fun e _ => Stops e) k := by
  rw [wp_bind, wait_drq, wp_bind, wp_get, wp_bind, wp_modify, wp_pure, wp_ite]
  refine ⟨fun _ => ?_, fun hdrq => ?_⟩
  · rw [wp_queue, wp_note hq]
    exact h.data hq hbuffer
  · rw [wp_bind]
    refine wp_mono (wp_error_entry (d := d) h.disks h.kept hq fun hdone => ?_)
      (fun _ k₁ hk₁ => ih k₁ ?_ hk₁.1) fun _ _ he => he
    · exact ⟨(hhalf hdone).1, (hhalf hdone).2.resolve_right hdrq⟩
    · exact lt_of_lt_of_le hk₁.2 (Nat.le_of_lt_succ hwork)

theorem request_loop_waits (hwork : work k.toRequests < n) (h : Entry d k) :
    wp (request_loop n) (fun _ => Waits d) (fun e _ => Stops e) k := by
  induction n generalizing k with
  | zero => exact absurd hwork (Nat.not_lt_zero _)
  | succ n ih =>
    obtain rfl := h.disks
    rw [request_loop, wp_bind, wp_get]
    split
    · rename_i hq
      refine ⟨rfl, h.kept, fun c rest hq' => ?_, fun c rest hq' => ?_, fun c rest hq' => ?_⟩
      · exact absurd (hq.symm.trans hq') (List.cons_ne_nil c rest).symm
      · exact absurd (hq.symm.trans hq') (List.cons_ne_nil c rest).symm
      · exact absurd (hq.symm.trans hq') (List.cons_ne_nil c rest).symm
    · rename_i c rest hq
      have hbehind := h.kept.behind c rest hq
      obtain ⟨hmajor, hcmd, b, hb, hlock⟩ := hbehind.accepted c List.mem_cons_self
      obtain ⟨r0, htracks⟩ := h.kept.head c rest hq
      have hentry : Entry k.disks { k with toRequests := k.touch } :=
        ⟨rfl, h.kept.touch, h.half, h.spare⟩
      have hqt : k.touch.current = c :: rest := hq
      rw [wp_bind, wp_queue, wp_read_current hq, if_neg (not_not.2 hmajor), hb, Option.any_some, hlock,
        Bool.not_true, if_neg Bool.false_ne_true, wp_ite]
      refine ⟨fun hout => ?_, fun _ => ?_⟩
      · rw [wp_bind, wp_queue, wp_end_request hqt]
        refine ih ?_ (Entry.fresh rfl (hentry.outside hqt hout) fun c' rest' hq' => ?_)
        · have hother : ∀ s ≠ c, (k.touch.touch.ended c rest false).request s = k.request s :=
            fun s hs => update_of_ne hs _ _
          have hrest : work (k.touch.touch.ended c rest false) =
              (rest.map fun s => (7 - (k.request s).errors).toNat).sum :=
            congrArg List.sum (rest_work hbehind hother)
          have hmost := htracks.most
          rw [work_cons hq] at hwork
          show work (k.touch.touch.ended c rest false) < n
          rw [hrest]
          omega
        · have hrest : rest = c' :: rest' := hq'
          exact hbehind.touch.touch.next_fresh (hrest ▸ List.mem_cons_self)
      rw [wp_bind, Drive.locate, wp_ite]
      refine ⟨fun _ => .inr (.inr (.inl rfl)), fun _ => ?_⟩
      rw [wp_pure]
      dsimp only
      rw [wp_ite]
      refine ⟨fun _ => ?_, fun hreset => ?_⟩
      · rw [wp_bind, wp_modify, reset_hd, wp_bind, wp_get]
        refine wp_hd_out hqt fun ready => hentry.waits hqt (fun h => ?_) fun h => ?_
        · rcases h with h | h <;> cases h
        · cases h
      rw [wp_ite]
      refine ⟨fun _ => ?_, fun hrecalibrate => ?_⟩
      · rw [wp_bind, wp_modify]
        refine wp_hd_out hqt fun ready => hentry.waits hqt (fun h => ?_) fun h => ?_
        · rcases h with h | h <;> cases h
        · cases h
      split
      · rename_i hwrite
        rw [wp_bind]
        refine wp_hd_out hqt fun ready => ?_
        refine Waits.after_write ?_ hq rfl (fun hdone => ⟨h.half c rest hq hdone, ?_⟩) (fun _ => ih) hwork
        · refine hentry.waits hqt (fun _ => rfl) fun _ hread => ?_
          cases hwrite.symm.trans hread
        rcases h.spare c rest hq hdone with hspare | hr | hr | hr
        · exact .inl hspare
        · exact absurd hr hreset
        · exact absurd hr hrecalibrate
        · exact .inr hr
      · refine wp_hd_out hqt fun ready => hentry.waits hqt (fun _ => rfl) fun h => ?_
        cases h
      · rename_i hwrite hread
        rcases hcmd with hcmd | hcmd
        · exact absurd hcmd hread
        · exact absurd hcmd hwrite

theorem do_hd_request_waits (h : Entry d k) : wp do_hd_request (fun _ => Waits d) (fun e _ => Stops e) k := by
  rw [do_hd_request, wp_bind, wp_get]
  exact request_loop_waits (Nat.lt_succ_of_le (work_le h.kept)) h

/-- An error, and what the driver does then. -/
theorem error_waits (hk : k.disks = d) (h : Kept d k.toRequests) (hq : k.current = c :: rest)
    (hhalf : sectorsDone c k.log = 1 → Inside d (k.request c) ∧ Spare k.toRequests c) :
    wp (bad_rw_intr >>= fun _ => do_hd_request) (fun _ => Waits d) (fun e _ => Stops e) k := by
  rw [wp_bind]
  exact wp_mono (wp_error_entry hk h hq hhalf) (fun _ _ h => do_hd_request_waits h.1) fun _ _ he => he

/-! ### Without a request -/

/-- Nothing is in the queue; `l` is the log. -/
structure Resting (d : Disks) (l : List Note) (k : Hd) : Prop where
  disks : k.disks = d
  current : k.current = []
  log : k.log = l

theorem Resting.waits (h : Resting d l k) (hl : AllRight d l) : Waits d k := by
  have hnone : ∀ c rest, k.current ≠ c :: rest := by
    intro c rest hq
    exact List.cons_ne_nil c rest (hq.symm.trans h.current)
  refine ⟨h.disks, ⟨h.log ▸ hl, ?_, ?_⟩, ?_, ?_, ?_⟩
  · exact fun c rest hq => absurd hq (hnone c rest)
  · exact fun c rest hq => absurd hq (hnone c rest)
  · exact fun c rest hq => absurd hq (hnone c rest)
  · exact fun c rest hq => absurd hq (hnone c rest)
  · exact fun c rest hq => absurd hq (hnone c rest)

/-- What a command does that finds no request: it leaves none and notes nothing, or stops. -/
abbrev Rests (d : Disks) (l : List Note) {α : Type} (a : HdM α) : Prop := LeavesOr (Resting d l) Stops a

theorem rests_read_current : Rests d l (queue read_current) := fun _ ⟨h1, h2, h3⟩ => ⟨h1, h2, h3⟩

theorem rests_write_current {f : Request → Request} : Rests d l (queue (write_current f)) := by
  rintro k ⟨h1, h2, h3⟩
  rw [wp_queue, write_current, wp_modify, Requests.store, h2]
  exact ⟨h1, rfl, h3⟩

theorem rests_note {f : ℕ → Note} : Rests d l (queue (note f)) := by
  rintro k ⟨h1, h2, h3⟩
  rw [wp_queue, note, wp_modify, Requests.note, h2]
  exact ⟨h1, h2, h3⟩

theorem rests_end_request {u : Bool} : Rests d l (queue (end_request u)) := by
  intro k h
  rw [wp_queue, wp_end_request_nil h.current]
  exact .inr (.inr (.inr rfl))

theorem rests_do_hd_request : Rests d l do_hd_request := by
  intro k h
  rw [do_hd_request, wp_bind, wp_get, request_loop, wp_bind, wp_get, h.current]
  exact h

theorem rests_count_error : Rests d l (queue count_error) := by
  rintro k ⟨h1, h2, h3⟩
  rw [wp_queue, count_error, wp_bind, write_current, wp_modify, wp_bind, note, wp_modify,
    wp_bind, wp_get, wp_pure,
    Requests.store, h2]
  exact ⟨h1, rfl, h3⟩

theorem rests_bad_rw_intr : Rests d l bad_rw_intr :=
  .bind rests_count_error fun _ => .bind (.ite (fun _ => rests_end_request) fun _ => .pure _) fun _ =>
    .bind rests_read_current fun _ =>
      .ite (fun _ => .modify fun _ h => ⟨h.disks, h.current, h.log⟩) fun _ => .pure _

theorem rests_error : Rests d l (bad_rw_intr >>= fun _ => do_hd_request) :=
  .bind rests_bad_rw_intr fun _ => rests_do_hd_request

theorem rests_end : Rests d l (queue (end_request true) >>= fun _ => do_hd_request) :=
  .bind rests_end_request fun _ => rests_do_hd_request

theorem rests_win_result : Rests d l win_result := fun _ h => h

theorem rests_set_do_hd {a : Option Handler} : Rests d l (modify fun k => { k with do_hd := a }) :=
  .modify fun _ h => ⟨h.disks, h.current, h.log⟩

theorem rests_read_intr : Rests d l read_intr :=
  .bind rests_win_result fun _ => .ite (fun _ => rests_error) fun _ => .bind rests_read_current fun _ =>
    .bind rests_note fun _ => .bind rests_note fun _ => .bind rests_write_current fun _ =>
      .ite (fun _ => rests_set_do_hd) fun _ => rests_end

theorem rests_write_intr : Rests d l write_intr :=
  .bind rests_win_result fun _ => .ite (fun _ => rests_error) fun _ => .bind rests_read_current fun _ =>
    .bind rests_note fun _ => .bind rests_write_current fun _ =>
      .ite (fun _ => .bind rests_write_current fun _ => .bind rests_set_do_hd fun _ => rests_note) fun _ =>
      rests_end

theorem rests_recal_intr : Rests d l recal_intr :=
  .bind rests_win_result fun _ => .bind (.ite (fun _ => rests_bad_rw_intr) fun _ => .pure _) fun _ =>
    rests_do_hd_request

/-- An interrupt that comes too late finds no request. -/
theorem rests_hd_interrupt : Rests d l hd_interrupt := by
  intro k h
  rw [hd_interrupt, wp_bind, wp_get, wp_bind, wp_modify]
  have hk : Resting d l { k with do_hd := none } := ⟨h.disks, h.current, h.log⟩
  split
  · exact hk
  · exact rests_read_intr _ hk
  · exact rests_write_intr _ hk
  · exact rests_recal_intr _ hk

/-! ### Sectors -/

/-- The last sector is transferred: the request is ended and the next one begins. -/
theorem last_waits {q' : Requests} (hk : k.disks = d) (h : Behind d q' c rest) (hq : q'.current = c :: rest)
    (htwo : sectorsDone c q'.log = 2) :
    wp (queue (end_request true) >>= fun _ => do_hd_request) (fun _ => Waits d) (fun e _ => Stops e)
      { k with toRequests := q' } := by
  have hright : Right d (.ended c true) q'.touch.log := fun _ _ _ => htwo
  rw [wp_bind, wp_queue, wp_end_request hq]
  refine do_hd_request_waits (Entry.fresh hk (h.touch.ended hright) fun c' rest' hq' => ?_)
  have hrest : rest = c' :: rest' := hq'
  exact h.touch.next_fresh (hrest ▸ List.mem_cons_self)

/-- One of two sectors is transferred, and the driver waits for the other. -/
theorem next_waits {q' : Requests} {a : Handler} (hk : k.disks = d) (ha : a ≠ .recal_intr)
    (h : Kept d q') (hq : q'.current = c :: rest) (hanswered : Answered c q'.log)
    (hwrite : a = .write_intr → (q'.request c).cmd ≠ .read) :
    Waits d { k with toRequests := q', do_hd := some a } := by
  refine ⟨hk, h, fun c' rest' hq' => ?_, fun _ _ _ hrecal => ?_, fun c' rest' hq' hhandler => ?_⟩
  · obtain ⟨rfl, rfl⟩ := List.cons.inj (hq.symm.trans hq')
    exact ⟨Option.some_ne_none a, hanswered⟩
  · exact absurd (Option.some.inj hrecal) ha
  · obtain ⟨rfl, rfl⟩ := List.cons.inj (hq.symm.trans hq')
    exact hwrite (Option.some.inj hhandler)

/-- The error branch of the handlers. -/
theorem error_branch (h : Waits d k) (hq : k.current = c :: rest) (hbad : k.answers.status &&& 0xf1 ≠ 0x50)
    (hspared : sectorsDone c k.log = 1 → Fails k k.answers → Inside d (k.request c) ∧ Spare k.toRequests c) :
    wp (bad_rw_intr >>= fun _ => do_hd_request) (fun _ => Waits d) (fun e _ => Stops e)
    { k with do_hd := none } :=
  error_waits h.disks h.kept hq fun hdone => hspared hdone (.inl hbad)

/-- A sector of the request in service is transferred, and the request is changed. -/
theorem Kept.transferred {q' : Requests} (h : Kept d q) (hq : q.current = c :: rest)
    (hlog : q'.log = .sector c :: q.log) (hbh : q'.bh = q.bh) (hother : ∀ s ≠ c, q'.request s = q.request s)
    (hdev : (q'.request c).dev = (q.request c).dev) (hcmd : (q'.request c).cmd = (q.request c).cmd)
    (hb : (q'.request c).bh = (q.request c).bh) : Behind d q' c rest := by
  obtain ⟨r0, htracks⟩ := h.head c rest hq
  exact (h.behind c rest hq).change (n := .sector c) rfl htracks.some hlog hbh hother hdev hcmd hb

theorem read_intr_waits (h : Waits d k) (hq : k.current = c :: rest)
    (hspared : sectorsDone c k.log = 1 → Fails k k.answers → Inside d (k.request c) ∧ Spare k.toRequests c) :
    wp read_intr (fun _ => Waits d) (fun e _ => Stops e) { k with do_hd := none } := by
  rw [read_intr, wp_bind, win_result, wp_bind, wp_get, wp_pure, wp_ite]
  refine ⟨fun hbad => error_branch h hq (of_decide_eq_true hbad) hspared, fun _ => ?_⟩
  have hqt : k.touch.current = c :: rest := hq
  obtain ⟨r0, htracks⟩ := h.kept.head c rest hq
  have hanswered := (h.acting c rest hq).2
  rw [wp_bind, wp_queue, wp_read_current hq, wp_bind, wp_queue, wp_note hqt]
  have hkept : Kept d { k.touch with log := .data c (k.request c).buffer :: k.touch.log } :=
    h.kept.touch.data hqt rfl
  set q : Requests := { k.touch with log := .data c (k.request c).buffer :: k.touch.log } with hqdef
  have hqd : q.current = c :: rest := hq
  have hqs : ({ q with log := .sector c :: q.log } : Requests).current = c :: rest := hq
  rw [wp_bind, wp_queue, wp_note hqd, wp_bind, wp_queue, wp_write_current hqs, wp_ite]
  set f : Request → Request := fun r => { r with
    errors := 0, buffer := r.buffer + 512, sector := r.sector + 1, nr_sectors := r.nr_sectors - 1 } with hf
  set q' := ({ q with log := .sector c :: q.log } : Requests).put c f with hq'
  have hself : q'.request c = f (k.request c) := update_self c _ _
  have hbehind : Behind d q' c rest := by
    refine hkept.transferred hqd rfl rfl (fun s hs => update_of_ne hs _ _) ?_ ?_ ?_
    · rw [hself]
      rfl
    · rw [hself]
      rfl
    · rw [hself]
      rfl
  refine ⟨fun hmore => ?_, fun hlast => ?_⟩
  · rw [wp_modify]
    have htracks' : Tracks q'.log c (q'.request c) r0 := by
      rw [hself]
      exact htracks.data.next hmore rfl rfl rfl rfl rfl (.inl rfl)
    exact next_waits h.disks (by decide) (hbehind.kept hq htracks') hq hanswered fun h => by cases h
  · exact last_waits h.disks hbehind hq (htracks.data.last (not_not.1 hlast))

theorem write_intr_waits (h : Waits d k) (hq : k.current = c :: rest) (hwrite : (k.request c).cmd ≠ .read)
    (hspared : sectorsDone c k.log = 1 → Fails k k.answers → Inside d (k.request c) ∧ Spare k.toRequests c) :
    wp write_intr (fun _ => Waits d) (fun e _ => Stops e) { k with do_hd := none } := by
  rw [write_intr, wp_bind, win_result, wp_bind, wp_get, wp_pure, wp_ite]
  refine ⟨fun hbad => error_branch h hq (of_decide_eq_true hbad) hspared, fun _ => ?_⟩
  have hqt : k.touch.current = c :: rest := hq
  obtain ⟨r0, htracks⟩ := h.kept.head c rest hq
  have hanswered := (h.acting c rest hq).2
  have hqs : ({ k.touch with log := .sector c :: k.touch.log } : Requests).current = c :: rest := hq
  rw [wp_bind, wp_queue, wp_read_current hq, wp_bind, wp_queue, wp_note hqt, wp_bind, wp_queue,
    wp_write_current hqs, wp_ite]
  set f : Request → Request := fun r => { r with nr_sectors := r.nr_sectors - 1 } with hf
  set q' := ({ k.touch with log := .sector c :: k.touch.log } : Requests).put c f with hq'
  have hself : q'.request c = f (k.request c) := update_self c _ _
  have hother : ∀ s ≠ c, q'.request s = k.request s := fun s hs => update_of_ne hs _ _
  have hqq : q'.current = c :: rest := hq
  refine ⟨fun hmore => ?_, fun hlast => ?_⟩
  · rw [wp_bind, wp_queue, wp_write_current hqq, wp_bind, wp_modify, wp_queue]
    set g : Request → Request := fun r => { r with sector := r.sector + 1, buffer := r.buffer + 512 } with hg
    have hself' : (q'.put c g).request c = g (f (k.request c)) :=
      (update_self c _ _).trans (congrArg g hself)
    have hother' : ∀ s ≠ c, (q'.put c g).request s = k.request s := fun s hs =>
      (update_of_ne hs _ _).trans (hother s hs)
    have hqp : (q'.put c g).current = c :: rest := hq
    have htracks' : Tracks (q'.put c g).log c ((q'.put c g).request c) r0 := by
      rw [hself']
      exact htracks.next hmore rfl rfl rfl rfl rfl (.inr ⟨hwrite, rfl⟩)
    have hbehind : Behind d (q'.put c g) c rest := by
      refine h.kept.transferred hq rfl rfl hother' ?_ ?_ ?_
      · rw [hself']
      · rw [hself']
      · rw [hself']
    rw [wp_note hqp]
    have hkept : Kept d { q'.put c g with
        log := .data c ((k.request c).buffer + 512) :: (q'.put c g).log } := by
      refine (hbehind.kept hqp htracks').data hqp ?_
      rw [hself']
    refine next_waits h.disks (by decide) hkept hqp hanswered fun _ => ?_
    show ((q'.put c g).request c).cmd ≠ .read
    rw [hself']
    exact hwrite
  · have hbehind : Behind d q' c rest := by
      refine h.kept.transferred hq rfl rfl hother ?_ ?_ ?_
      · rw [hself]
      · rw [hself]
      · rw [hself]
    exact last_waits h.disks hbehind hq (htracks.last (not_not.1 hlast))

theorem recal_intr_waits (h : Waits d k) (hq : k.current = c :: rest) (hrecal : k.do_hd = some .recal_intr)
    (hspared : sectorsDone c k.log = 1 → Fails k k.answers → Inside d (k.request c) ∧ Spare k.toRequests c) :
    wp recal_intr (fun _ => Waits d) (fun e _ => Stops e) { k with do_hd := none } := by
  rw [recal_intr, wp_bind, win_result, wp_bind, wp_get, wp_pure, wp_bind, wp_ite]
  refine ⟨fun hbad => ?_, fun _ => ?_⟩
  · have herror := error_branch h hq (of_decide_eq_true hbad) hspared
    rw [wp_bind] at herror
    exact herror
  · rw [wp_pure]
    have hhead : ∀ c' rest', k.current = c' :: rest' → c' = c := fun c' rest' hq' =>
      (List.cons.inj (hq'.symm.trans hq)).1
    refine do_hd_request_waits ⟨h.disks, h.kept, fun c' rest' hq' hdone => ?_, fun c' rest' hq' hdone => ?_⟩
    · exact h.half c' rest' hq' hrecal hdone
    · obtain rfl := hhead c' rest' hq'
      -- without a reset or a recalibration, a write is given again
      by_cases hfails : k.reset = false ∧ k.recalibrate = false ∧ k.answers.drq 0 = false
      · exact .inl (hspared hdone (.inr ⟨hrecal, hfails⟩)).2
      · rw [not_and_or, not_and_or, Bool.not_eq_false, Bool.not_eq_false, Bool.not_eq_false] at hfails
        exact .inr hfails

/-! ### Events -/

theorem hd_interrupt_waits (h : Waits d k) (hspared : Spared d k (.interrupt, k.answers)) :
    wp hd_interrupt (fun _ => Waits d) (fun e _ => Stops e) k := by
  cases hq : k.current with
  | nil =>
    exact wp_mono (rests_hd_interrupt k ⟨h.disks, hq, rfl⟩) (fun _ _ hk => hk.waits h.kept.right) fun _ _ he =>
      he
  | cons c rest =>
    obtain ⟨r0, htracks⟩ := h.kept.head c rest hq
    have hspared' : sectorsDone c k.log = 1 → Fails k k.answers → Inside d (k.request c) ∧
        Spare k.toRequests c := by
      intro hdone hfails
      refine hspared rfl c rest hq (BitVec.eq_of_toNat_eq ?_) hfails
      have hle := htracks.nr_sectors
      show _ = 1
      omega
    rw [hd_interrupt, wp_bind, wp_get, wp_bind, wp_modify]
    split
    · rename_i hnone
      exact absurd hnone (h.acting c rest hq).1
    · exact read_intr_waits h hq hspared'
    · rename_i hwrite
      exact write_intr_waits h hq (h.writes c rest hq hwrite) hspared'
    · rename_i hrecal
      exact recal_intr_waits h hq hrecal hspared'

theorem asked_made : asked c (.made c r :: l) = some r := if_pos rfl

theorem sectorsDone_made : sectorsDone c (.made c r :: l) = 0 := if_pos rfl

theorem failures_made : failures c (.made c r :: l) = 0 := if_pos rfl

/-- A request that has just been made has not been in service. -/
theorem fresh_made (hr : Made k c r) :
    Fresh (k.toRequests.filled c r).log c ((k.toRequests.filled c r).request c) := by
  have hself : (k.toRequests.filled c r).request c = r := update_self c _ _
  rw [hself]
  exact ⟨asked_made, sectorsDone_made, failures_made, hr.errors, hr.nr_sectors⟩

theorem accepted_made (hr : Made k c r) : Accepted (k.toRequests.filled c r) c := by
  have hself : (k.toRequests.filled c r).request c = r := update_self c _ _
  obtain ⟨b, hb, -⟩ := hr.bh
  refine ⟨?_, ?_, b, ?_, ?_⟩
  · rw [hself]
    exact hr.major
  · rw [hself]
    exact hr.cmd
  · rw [hself]
    exact hb
  · rw [Requests.filled, hb]
    show (update k.bh b _ b).b_lock = true
    rw [update_self]

/-- Those that are in the queue stay as they are. -/
theorem accepted_other (h : Accepted k.toRequests s) (hne : s ≠ c) : Accepted (k.toRequests.filled c r) s := by
  have hother : (k.toRequests.filled c r).request s = k.request s := update_of_ne hne _ _
  obtain ⟨h1, h2, b, hb, hlock⟩ := h
  refine ⟨hother ▸ h1, hother ▸ h2, b, by rw [hother, hb], ?_⟩
  rw [Requests.filled]
  cases r.bh with
  | none => exact hlock
  | some b' =>
    show (update k.bh b' _ b).b_lock = true
    by_cases hbb : b = b'
    · rw [hbb, update_self]
    · rw [update_of_ne hbb]
      exact hlock

/-- The new request is queued behind the one in service. -/
theorem Behind.queued {head : ℕ} (h : Behind d k.toRequests head rest) (hq : k.current = head :: rest)
    (hr : Made k c r) : ∃ rest', ((k.toRequests.filled c r).queued c).current = head :: rest' ∧
      Behind d ((k.toRequests.filled c r).queued c) head rest' := by
  set q := (k.toRequests.filled c r).queued c with hqdef
  have hslot := hr.slot
  rw [hq] at hslot
  have hne : ∀ s ∈ head :: rest, s ≠ c := fun s hs hsc => hslot (hsc ▸ hs)
  have hother : ∀ s ∈ head :: rest, q.request s = k.request s := fun s hs =>
    update_of_ne (hne s hs) _ _
  have hself : q.request c = r := update_self c _ _
  obtain ⟨rest', hplace⟩ := place_cons (k.toRequests.filled c r).key c head rest
  have hcurrent : q.current = head :: rest' := by
    show place _ c k.current = _
    rw [hq]
    exact hplace
  have hperm : (head :: rest').Perm (c :: head :: rest) := hplace ▸ place_perm _ c (head :: rest)
  have hmem : ∀ s ∈ head :: rest', s = c ∨ s ∈ head :: rest := fun s hs =>
    List.mem_cons.1 (hperm.mem_iff.1 hs)
  have hnodup : (head :: rest').Nodup := hperm.nodup_iff.2 (List.nodup_cons.2 ⟨hslot, h.nodup⟩)
  -- its buffer was not locked, and those of the others are
  obtain ⟨b, hb, hunlocked⟩ := hr.bh
  have hbh : ∀ s ∈ head :: rest, (k.request s).bh ≠ r.bh := by
    intro s hs heq
    obtain ⟨-, -, b', hb', hlocked⟩ := h.accepted s hs
    rw [hb', hb] at heq
    cases heq
    exact Bool.false_ne_true (hunlocked.symm.trans hlocked)
  refine ⟨rest', hcurrent, hnodup, h.right.cons (n := .made c r) trivial, fun s hs => ?_, fun s hs => ?_,
    fun s hs s' hs' heq => ?_⟩
  · rcases hmem s (List.mem_cons_of_mem head hs) with rfl | hs'
    · exact fresh_made hr
    · have hsrest : s ∈ rest := (List.mem_cons.1 hs').resolve_left fun hsh =>
        (List.nodup_cons.1 hnodup).1 (hsh ▸ hs)
      rw [hother s hs']
      exact (h.fresh s hsrest).other (n := .made c r) (hne s hs').symm
  · rcases hmem s hs with rfl | hs'
    · exact (accepted_made hr).congr rfl rfl rfl fun _ _ => rfl
    · exact (accepted_other (h.accepted s hs') (hne s hs')).congr rfl rfl rfl fun _ _ => rfl
  · rcases hmem s hs with rfl | hs₁ <;> rcases hmem s' hs' with rfl | hs₂
    · rfl
    · rw [hself, hother s' hs₂] at heq
      exact absurd heq.symm (hbh s' hs₂)
    · rw [hself, hother s hs₁] at heq
      exact absurd heq (hbh s hs₁)
    · rw [hother s hs₁, hother s' hs₂] at heq
      exact h.once s hs₁ s' hs₂ heq

theorem Tracks.made {r' : Request} (h : Tracks l c r r0) (hne : s ≠ c) : Tracks (.made s r' :: l) c r r0 := by
  have hother : (Note.made s r').slot ≠ c := hne
  obtain ⟨h1, h2, h3, h4, h5, h6, h7, h8, h9⟩ := h
  refine ⟨(asked_other hother).trans h1, h2, ?_, ?_, ?_, ?_, ?_, h8, ?_⟩
  · rw [sectorsDone_other hother]
    exact h3
  · rw [sectorsDone_other hother]
    exact h4
  · rw [sectorsDone_other hother]
    exact h5
  · rw [sectorsDone_other hother]
    exact h6
  · rw [failures_other hother]
    exact h7
  · rw [sectorsDone_other hother, failures_other hother]
    exact h9

theorem add_request_waits (h : Waits d k) (hr : Made k c r) :
    wp (add_request c r) (fun _ => Waits d) (fun e _ => Stops e) k := by
  rw [add_request, wp_bind, wp_get, wp_bind, wp_queue, wp_modify]
  split
  · rename_i hq
    rw [wp_bind, wp_queue, wp_modify]
    set q : Requests := { k.toRequests.filled c r with current := [c] } with hqdef
    have hfresh : Fresh q.log c (q.request c) := fresh_made hr
    have haccepted : Accepted q c := (accepted_made hr).congr rfl rfl rfl fun _ _ => rfl
    have hbehind : Behind d q c [] := by
      refine ⟨List.nodup_cons.2 ⟨List.not_mem_nil, List.nodup_nil⟩, h.kept.right.cons (n := .made c r) trivial,
        fun s hs => ?_, fun s hs => ?_, fun s hs s' hs' _ => ?_⟩
      · exact absurd hs List.not_mem_nil
      · rw [List.mem_singleton.1 hs]
        exact haccepted
      · rw [List.mem_singleton.1 hs, List.mem_singleton.1 hs']
    refine do_hd_request_waits (Entry.fresh h.disks (hbehind.kept rfl hfresh.tracks) fun c' rest' hq' => ?_)
    have hcc : c = c' := (List.cons.inj hq').1
    exact hcc ▸ hfresh.done
  · rename_i head rest hq
    rw [wp_queue, wp_modify]
    obtain ⟨rest', hcurrent, hbehind⟩ := (h.kept.behind head rest hq).queued hq hr
    obtain ⟨r0, htracks⟩ := h.kept.head head rest hq
    have hne : c ≠ head := fun heq => hr.slot (by rw [hq, heq]; exact List.mem_cons_self)
    set q := (k.toRequests.filled c r).queued c with hqdef
    have hsame : q.request head = k.request head := update_of_ne hne.symm _ _
    have htracks' : Tracks q.log head (q.request head) r0 := by
      rw [hsame]
      exact htracks.made hne
    have hhead : ∀ c' rest'', q.current = c' :: rest'' → c' = head := fun c' rest'' hq' =>
      (List.cons.inj (hq'.symm.trans hcurrent)).1
    refine ⟨h.disks, hbehind.kept hcurrent htracks', fun c' rest'' hq' => ?_,
      fun c' rest'' hq' hrecal hdone => ?_,
      fun c' rest'' hq' hwrite => ?_⟩
    · obtain rfl := hhead c' rest'' hq'
      exact h.acting c' rest hq
    · obtain rfl := hhead c' rest'' hq'
      show Inside d (q.request c')
      rw [hsame]
      exact h.half c' rest hq hrecal ((sectorsDone_other (n := .made c r) hne).symm.trans hdone)
    · obtain rfl := hhead c' rest'' hq'
      show (q.request c').cmd ≠ .read
      rw [hsame]
      exact h.writes c' rest hq hwrite

/-! ### All along -/

/-- The states that the driver reaches without a request at first, if the controller spares it. -/
abbrev SparedRuns (d : Disks) : Hd → Prop :=
  Reach (fun k => k.disks = d ∧ k.current = [] ∧ k.log = []) step fun k e => CanHappen k e ∧ Spared d k e

theorem event_waits {e : Event × Answers} (h : Waits d k) (hcan : CanHappen k e) (hspared : Spared d k e) :
    wp e.1.run (fun _ => Waits d) (fun e _ => Stops e) { k with answers := e.2 } := by
  have hk : Waits d { k with answers := e.2 } := ⟨h.disks, h.kept, h.acting, h.half, h.writes⟩
  obtain ⟨e, a⟩ := e
  cases e with
  | request c r =>
    have hmade : Made k c r := hcan
    exact add_request_waits hk ⟨hmade.slot, hmade.major, hmade.cmd, hmade.errors, hmade.nr_sectors, hmade.bh⟩
  | interrupt => exact hd_interrupt_waits hk hspared

theorem waits_of_spared (h : SparedRuns d k) : Waits d k := by
  refine Reach.invariant (I := Waits d) (fun k hk => ?_) (fun k e k' hk hcan hstep => ?_) h
  · have hrest : Resting d [] k := ⟨hk.1, hk.2.1, hk.2.2⟩
    exact hrest.waits fun n l hsuffix => absurd (List.eq_nil_of_suffix_nil hsuffix) (List.cons_ne_nil n l)
  · have hrun := event_waits hk hcan.1 hcan.2
    rw [wp] at hrun
    rw [step] at hstep
    split at hstep
    · rename_i heq
      cases hstep
      rw [heq] at hrun
      exact hrun
    · cases hstep

/-- **An error costs a request only after its retries**, in every run in which the controller spares those
that have one sector left. -/
theorem errors_cost_retries (h : SparedRuns d k) : Retries d k := by
  have hwaits := waits_of_spared h
  refine ⟨hwaits.kept.right, fun c hc => ?_, hwaits.acting⟩
  obtain ⟨head, rest, hq⟩ := List.exists_cons_of_ne_nil (List.ne_nil_of_mem hc)
  rw [hq] at hc
  rcases List.mem_cons.1 hc with rfl | hc
  · obtain ⟨r0, htracks⟩ := hwaits.kept.head c rest hq
    exact htracks.some
  · have hdone := ((hwaits.kept.behind head rest hq).fresh c hc).done
    omega

/-! ### Runs -/

theorem spared_reading : SparedRuns oneDisk reading :=
  .step (.request 0 lastBlock, allWell) (.start ⟨rfl, rfl, rfl⟩) ⟨lastBlock_made, nofun⟩ rfl

theorem last_block_keeps_retries : Retries oneDisk reading := errors_cost_retries spared_reading

def oneError : Answers := ⟨0x51, fun _ => true, fun _ => true⟩

/-- All that can happen. -/
abbrev AllRuns (d : Disks) : Hd → Prop :=
  Reach (fun k => k.disks = d ∧ k.current = [] ∧ k.log = []) step CanHappen

/-- The request that was ended last was inside its partition, and ended with too few errors. -/
def EndedEarly (d : Disks) (k : Hd) : Bool :=
  match k.log with
  | .ended c false :: l => (asked c l).any fun r => Inside d r ∧ failures c l < 7
  | _ => false

theorem not_retries_of_endedEarly (h : EndedEarly d k = true) : ¬Retries d k := by
  intro hretries
  rw [EndedEarly] at h
  split at h
  · rename_i c l hlog
    obtain ⟨r, hasked, hr⟩ := (Option.any_eq_true _ _).1 h
    obtain ⟨hinside, hfew⟩ := of_decide_eq_true hr
    have hsuffix : Note.ended c false :: l <:+ k.log := by rw [hlog]
    have hright : 7 ≤ failures c l := hretries.right _ l hsuffix r hasked hinside
    omega
  · exact Bool.false_ne_true h

/-- A request, and interrupts. -/
def serve (r : Request) (answers : List Answers) : Option Hd :=
  exec step idle ((.request 0 r, allWell) :: answers.map fun a => (.interrupt, a))

theorem allRuns_serve {answers : List Answers} (hr : Made idle 0 r) (hrun : serve r answers = some k) :
    AllRuns oneDisk k := by
  have hcan : ∀ e ∈ answers.map fun a => (Event.interrupt, a), ∀ k, CanHappen k e := by
    intro e he k
    obtain ⟨a, -, rfl⟩ := List.mem_map.1 he
    trivial
  have hreach : AllRuns oneDisk idle := .start ⟨rfl, rfl, rfl⟩
  refine hreach.exec ?_ hrun
  exact And.intro hr fun k _ => along_of_forall hcan k

theorem serve_ends_early {answers : List Answers} (hr : Made idle 0 r)
    (hrun : (serve r answers).any (EndedEarly oneDisk) = true) :
    ∃ k, serve r answers = some k ∧ AllRuns oneDisk k ∧ ¬Retries oneDisk k := by
  obtain ⟨k, hserve, hearly⟩ := (Option.any_eq_true _ _).1 hrun
  exact ⟨k, hserve, allRuns_serve hr hserve, not_retries_of_endedEarly hearly⟩

def firstWrite : Request := ⟨0x301, .write, 0, 0, 2, 0x10000, some 0⟩

/-- Four errors in the first sector, with a reset and a recalibration; then the sector is written; and three
errors in the second, each with a reset. -/
def forgottenErrors : List Answers :=
  [oneError, oneError, oneError, oneError, allWell, allWell, allWell, oneError, allWell, allWell, oneError,
    allWell, allWell, oneError]

/-- One error in the second sector of the last block of a partition is enough, and three in the second
sector of a write that had four in the first. -/
theorem errors_end_requests_early :
    (∃ k, serve lastBlock [allWell, oneError] = some k ∧ AllRuns oneDisk k ∧ ¬Retries oneDisk k) ∧
      ∃ k, serve firstWrite forgottenErrors = some k ∧ AllRuns oneDisk k ∧ ¬Retries oneDisk k := by
  constructor
  · exact serve_ends_early lastBlock_made (by decide +kernel)
  · exact serve_ends_early ⟨List.not_mem_nil, by decide, .inr rfl, rfl, rfl, 0, rfl, rfl⟩ (by decide +kernel)

end OldLinux.Disk
