import OldLinux.Buffers.Runs
import Mathlib.Tactic.FinCases

/-!
# Every request is served once

While no buffer that a process waits for in `lock_buffer` has 256 references, the slots of requests and the
queues of the devices agree, and a request leaves its queue only when its device ends it.  With 256
references `b_count` is 0: `getblk` takes the buffer for a block of another device, and the process that
waits for it queues its request with the wrong driver.
-/

namespace OldLinux.Buffers

open Function Lib.Processes Kernel
open Lib (Reach exec Along checks along_of_checks along_of_forall)

variable {D : Type} {ι : Type*} [Fintype ι] [DecidableEq ι] {m : Mode} {k k' : Kernel D} {l : ι → Own}
variable {p : ι} {b d n : ℕ}

namespace World

variable {s s' : World D ι} {e : Event D ι}

/-! ### Slots, queues and buffers that agree -/

/-- The slots, the queues and the buffers agree. -/
structure ServedOnce (s : World D ι) : Prop where
  free : ∀ req < 32, (s.shared.request req).dev = -1 ↔ ∀ d, req ∉ s.shared.queue d
  slot : ∀ d, ∀ req ∈ s.shared.queue d, req < 32
  nodup : ∀ d, (s.shared.queue d).Nodup
  oneQueue : ∀ d d' req, req ∈ s.shared.queue d → req ∈ s.shared.queue d' → d = d'
  locked : ∀ d, ∀ req ∈ s.shared.queue d, (s.shared.bh (s.shared.request req).bh).lock = true ∧
    (s.shared.bh (s.shared.request req).bh).tag = (s.shared.request req).tag
  oneRequest : ∀ d d', ∀ req ∈ s.shared.queue d, ∀ req' ∈ s.shared.queue d',
    (s.shared.request req).bh = (s.shared.request req').bh → req = req'
  writes : ∀ d, ∀ req ∈ s.shared.queue d, (s.shared.request req).cmd = .write → req < 32 * 2 / 3
  completedOnce : s.shared.completed.Nodup
  queuedNotCompleted : ∀ d, ∀ req ∈ s.shared.queue d, (s.shared.request req).id ∉ s.shared.completed
  noPanic : (∀ d, s.shared.initRequest d = none) ∧
    ∀ p, s.code p ≠ .panic "request list destroyed" ∧ s.code p ≠ .panic "block not locked"

/-- A request leaves its queue only as the first one, when its device ends it. -/
def LeavesByEnd (s : World D ι) (e : Event D ι) (s' : World D ι) : Prop :=
  ∀ d, ∀ req ∈ s.shared.queue d, req ∈ s'.shared.queue d ∧
  (s'.shared.request req).id = (s.shared.request req).id ∧
      (s'.shared.request req).bh = (s.shared.request req).bh ∧
      (s'.shared.request req).tag = (s.shared.request req).tag ∨
    (∃ ok, e = .complete d ok) ∧ (s.shared.queue d).head? = some req ∧
      s'.shared.completed = (s.shared.request req).id :: s.shared.completed

/-- Fewer than 256 references to a buffer that a process waits for in `lock_buffer`. -/
def FewWaits (s : World D ι) : Prop :=
  ∀ p r, (s.own p).wants = some r → outstanding s.shared s.own r.bh < 256

/-! ### The state -/

omit [Fintype ι] [DecidableEq ι] in
theorem queued_initRequest (h : Queued m k l) (hm : m.queue) (d : ℕ) : k.initRequest d = none := by
  rw [initRequest]
  split
  · rfl
  · rename_i req rest hqueue
    have hmem : req ∈ k.queue d := by
      rw [hqueue]
      exact List.mem_cons_self
    rw [if_neg (not_not.2 (h.device hm d req hmem)), (h.request req (mem_requests_of_mem h.none hmem)).1]
    rfl

omit [Fintype ι] [DecidableEq ι] in
theorem mem_queue (h : Queued m k l) {req : ℕ} : req ∈ requests k ↔ ∃ d, req ∈ k.queue d := by
  constructor
  · intro hreq
    obtain ⟨d, -, hd⟩ := List.mem_flatMap.1 hreq
    exact ⟨d, hd⟩
  · rintro ⟨d, hd⟩
    exact mem_requests_of_mem h.none hd

/-- **In the books every request is served once.** -/
theorem servedOnce_of_sound (h : Sound (discipline D ι m) s) (hm : m.queue) : ServedOnce s := by
  have hq := h.inv.queued
  have hmem : ∀ {d req}, req ∈ s.shared.queue d → req ∈ requests s.shared := mem_requests_of_mem hq.none
  have hids := hq.ids.nodup_iff.2 List.nodup_range
  have hpanic : ∀ p msg, s.code p = .panic msg → mayPanic m msg := fun p msg hp => h.panic hp
  refine ⟨fun req hreq => ?_, fun d req hd => ((hq.used req).1 (hmem hd)).1, fun d => ?_,
    fun d d' req hd hd' => ?_,
    fun d req hd => ⟨(hq.request req (hmem hd)).1, (hq.request req (hmem hd)).2.1⟩,
    fun d d' req hd req' hd' hbh => hq.once req (hmem hd) req' (hmem hd') hbh, fun d req hd hw => ?_, ?_,
    fun d req hd => ?_, fun d => queued_initRequest hq hm d, fun p => ⟨fun hp => ?_, fun hp => ?_⟩⟩
  · constructor
    · intro hdev d hd
      exact ((hq.used req).1 (hmem hd)).2 hdev
    · intro hnone
      by_contra hdev
      obtain ⟨d, hd⟩ := (mem_queue hq).1 ((hq.used req).2 ⟨hreq, hdev⟩)
      exact hnone d hd
  · by_cases hd : d < 7
    · exact (List.nodup_flatMap.1 hq.nodup).1 d (List.mem_range.2 hd)
    · rw [hq.none d (not_lt.1 hd)]
      exact List.nodup_nil
  · rw [← hq.device hm d req hd, ← hq.device hm d' req hd']
  · rcases hq.cmd req (hmem hd) with hr | hr
    · rw [hw] at hr
      cases hr
    · exact hr.2
  · exact (List.nodup_append.1 hids).2.1
  · intro hc
    have hleft : (s.shared.request req).id ∈ (requests s.shared).map fun r => (s.shared.request r).id :=
      List.mem_map_of_mem (hmem hd)
    exact (List.nodup_append.1 hids).2.2 _ hleft _ hc rfl
  · rcases hpanic p _ hp with h | ⟨-, h⟩ | ⟨hno, -⟩
    · simp [inodePanics] at h
    · exact absurd h (by decide)
    · exact hno hm
  · rcases hpanic p _ hp with h | ⟨-, h⟩ | ⟨-, h⟩
    · simp [inodePanics] at h
    · exact absurd h (by decide)
    · exact absurd h (by decide)

/-! ### The steps -/

omit [Fintype ι] [DecidableEq ι] in
theorem leaves_same (h : s'.shared = s.shared) : LeavesByEnd s e s' :=
  fun d req hd => Or.inl ⟨by rw [h]; exact hd, by rw [h], by rw [h], by rw [h]⟩

omit [Fintype ι] in
theorem start_shared {c : Prog D Unit} (hs : s.start p c = some s') : s'.shared = s.shared := by
  rw [System.start] at hs
  split at hs
  · split at hs
    · cases hs
      rfl
    · cases hs
  · cases hs

omit [Fintype ι] in
theorem rest_shared (hs : s.rest p = some s') : s'.shared = s.shared := by
  rw [System.rest] at hs
  split at hs
  · split at hs
    · cases hs
      rfl
    · cases hs
  · cases hs

omit [Fintype ι] [DecidableEq ι] in
/-- The device ends its first request; the others stay. -/
theorem leaves_complete {ok : Bool} (h : ServedOnce s) (hs : s.shared.complete d ok = some k') :
    LeavesByEnd s (.complete d ok) (s.interrupt k') := by
  obtain ⟨first, rest, C⟩ := complete_completed hs
  have hfirst : first ∈ s.shared.queue d := by
    rw [C.first]
    exact List.mem_cons_self
  have hnodup := h.nodup d
  rw [C.first] at hnodup
  intro d' req hreq
  -- a request other than the first one of this device
  have hother : req ≠ first → req ∈ k'.queue d' → req ∈ (s.interrupt k').shared.queue d' ∧
      ((s.interrupt k').shared.request req).id = (s.shared.request req).id ∧
      ((s.interrupt k').shared.request req).bh = (s.shared.request req).bh ∧
      ((s.interrupt k').shared.request req).tag = (s.shared.request req).tag := by
    intro hne hmem
    have hslot : (s.interrupt k').shared.request req = s.shared.request req := by
      show k'.request req = _
      rw [C.request, update_of_ne hne]
    rw [hslot]
    exact ⟨hmem, rfl, rfl, rfl⟩
  by_cases hd : d' = d
  · rw [hd] at hreq ⊢
    by_cases he : req = first
    · refine Or.inr ⟨⟨ok, rfl⟩, ?_, ?_⟩
      · rw [C.first, he]
        rfl
      · rw [he]
        exact C.completed
    · refine Or.inl (hd ▸ hother he ?_)
      rw [C.queue, hd, update_self]
      rw [C.first] at hreq
      exact (List.mem_cons.1 hreq).resolve_left he
  · refine Or.inl (hother ?_ ?_)
    · intro he
      rw [he] at hreq
      exact hd (h.oneQueue d' d first hreq hfirst)
    · rw [C.queue, update_of_ne hd]
      exact hreq

omit [Fintype ι] [DecidableEq ι] in
/-- Counting the sectors changes no queue. -/
theorem leaves_progress {sector : BitVec 32} (hs : s.shared.progress d sector = some k') :
    LeavesByEnd s e (s.interrupt k') := by
  rw [Kernel.progress] at hs
  split at hs
  · cases hs
  · rename_i first rest _
    cases hs
    intro d' req hreq
    refine Or.inl ⟨hreq, ?_⟩
    by_cases he : req = first
    · simp [System.interrupt, he]
    · simp [System.interrupt, update_of_ne he]

variable [Layout D]

theorem leaves_step (h : Sound (discipline D ι m) s) (hm : m.queue) (hmay : Considered m s e)
    (hs : step s e = some s') : LeavesByEnd s e s' := by
  cases e with
  | turn p =>
    have hleaves := h.guarantee Later.refl (fun _ => leaves_all rfl rfl rfl) hmay hs
    intro d req hd
    obtain ⟨hmem, hslot⟩ := hleaves.2 d req hd
    exact Or.inl ⟨hmem, by rw [hslot], by rw [hslot], by rw [hslot]⟩
  | start p n c => exact leaves_same (start_shared hs)
  | rest p => exact leaves_same (rest_shared hs)
  | complete d ok =>
    obtain ⟨k', hk', rfl⟩ := Option.map_eq_some_iff.1 hs
    exact leaves_complete (servedOnce_of_sound h hm) hk'
  | progress d sector =>
    obtain ⟨k', hk', rfl⟩ := Option.map_eq_some_iff.1 hs
    exact leaves_progress hk'

/-- **Every request is served once**, in every run in which no buffer that a process waits for in `lock_buffer`
has 256 references. -/
theorem requests_served_once (h : Reach (Start n) step (fun (s : World D ι) e => Promised s e ∧ FewWaits s) s) :
    ServedOnce s ∧ ∀ e s', FewWaits s → step s e = some s' → LeavesByEnd s e s' := by
  have hconsidered : ∀ s : World D ι, FewWaits s → ∀ e, Considered ⟨n, True, False, False⟩ s e := by
    intro s hfew e
    cases e with
    | turn p => exact fun _ _ => ⟨fun _ => hfew, fun h => h.elim, fun h => h.elim⟩
    | _ => trivial
  have hsound : Sound (discipline D ι ⟨n, True, False, False⟩) s :=
    reach_sound rfl (fun s e ha => ⟨ha.1, hconsidered s ha.2 e⟩) h
  exact ⟨servedOnce_of_sound hsound trivial, fun e s' hfew hs => leaves_step hsound trivial
    (hconsidered s hfew e) hs⟩

/-! ### A buffer with 256 references -/

/-- The first blocks of a hard disk and of a floppy. -/
def hdBlock : Tag := ⟨0x301, 1⟩

def fdBlock : Tag := ⟨0x201, 1⟩

/-- The block of the hard disk is in the cache, with `j` references to it. -/
def cachedBlock (j : ℕ) : Kernel Unit :=
  Kernel.oneBuffer ⟨(), hdBlock, false, false, BitVec.ofNat 8 j, false⟩ noInode noSuper

theorem cachedBlock_quiet : Quiet 1 (cachedBlock 0) := oneBuffer_quiet (by decide) rfl rfl

/-- Process 0 has all the references. -/
def crowded (j : ℕ) : World Unit (Fin 3) where
  shared := cachedBlock j
  own := update (fun _ => Own.none) 0 { Own.none with held := List.replicate j ⟨0, hdBlock⟩ }
  code _ := .ret ()
  running := some 0

/-- It takes one more. -/
def again : List (Event Unit (Fin 3)) := .start 0 1 (.getHashTable hdBlock) :: List.replicate 4 (.turn 0)

theorem cachedBlock_more (j : ℕ) :
    (cachedBlock j).setBh 0 (fun h => { h with count := h.count + 1 }) = cachedBlock (j + 1) := by
  simp only [cachedBlock, Kernel.oneBuffer, Kernel.setBh, update_idem, update_self, BitVec.ofNat_add]
  rfl

/-- The number of references is in the buffer head only. -/
theorem cachedBlock_eq (j : ℕ) : cachedBlock j = { cachedBlock 0 with
    bh := update (cachedBlock 0).bh 0 ⟨(), hdBlock, false, false, BitVec.ofNat 8 j, false⟩ } := by
  simp only [cachedBlock, Kernel.oneBuffer, update_idem]

theorem crowded_again (j : ℕ) : exec step (crowded j) again = some (crowded (j + 1)) := by
  rw [crowded, crowded, ← cachedBlock_more, cachedBlock_eq]
  refine Eq.trans (rfl : _ = some (System.mk _ _ _ _)) ?_
  refine congrArg some ((System.mk.injEq ..).mpr ⟨rfl, ?_, ?_, rfl⟩)
  · funext q
    fin_cases q <;> rfl
  · funext q
    fin_cases q <;> rfl

theorem begin_again : exec step (begin (Fin 3) (cachedBlock 0)) again = some (crowded 1) := by
  have h : exec step (begin (Fin 3) (cachedBlock 0)) again = some ⟨_, _, _, _⟩ := rfl
  rw [h]
  refine congrArg some (System.mk.injEq .. ▸ ⟨cachedBlock_more 0, ?_, ?_, rfl⟩)
  · funext q
    fin_cases q <;> rfl
  · funext q
    fin_cases q <;> rfl

theorem along_again (s : World Unit (Fin 3)) : Along step Promised s again := by
  refine along_of_forall (fun e he s => ?_) s
  rcases List.mem_cons.1 he with he | he
  · rw [he]
    trivial
  · rw [List.eq_of_mem_replicate he]
    trivial

/-- There is no bound for the number of references. -/
theorem reach_crowded (j : ℕ) : Reach (Start 1) step Promised (crowded (j + 1)) := by
  induction j with
  | zero => exact (Reach.start (begin_start cachedBlock_quiet)).exec (along_again _) begin_again
  | succ j ih => exact ih.exec (along_again _) (crowded_again (j + 1))

/-- Process 0 asks for the block to be read. -/
def reading : List (Event Unit (Fin 3)) :=
  again ++ Event.start 0 3 (.llRwBlock .read 0) :: List.replicate 7 (.turn 0)

theorem requests_served_once_reading : ∃ s : World Unit (Fin 3),
    exec step (begin (Fin 3) (cachedBlock 0)) reading = some s ∧ s.shared.queue 3 = [31] ∧ ServedOnce s := by
  have hend : (exec step (begin (Fin 3) (cachedBlock 0)) reading).map
      (fun s => s.shared.queue 3) = some [31] := by
    rfl
  have halong : checks step fair (begin (Fin 3) (cachedBlock 0)) reading = true := by decide
  obtain ⟨s, hs, hqueue⟩ := Option.map_eq_some_iff.1 hend
  have hreach : Reach (Start 1) step (fun (s : World Unit (Fin 3)) e => Promised s e ∧ FewWaits s) s :=
    (Reach.start (begin_start cachedBlock_quiet)).exec
      ((along_of_fair halong).mono fun s e h => ⟨h.1, fun p r _ => h.2 r.bh⟩) hs
  exact ⟨s, hs, hqueue, (requests_served_once hreach).1⟩

/-- Process 1 takes the last reference.  While process 0 reads the buffer, process 1 waits for it; the read
fails, and before process 1 goes on process 2 gets the buffer for the floppy. -/
def wrongDriver : List (Event Unit (Fin 3)) :=
  [Event.rest 0, Event.start 1 1 (.getHashTable hdBlock)] ++ List.replicate 4 (Event.turn 1) ++
    [Event.rest 1, Event.start 0 3 (.llRwBlock .read 0)] ++ List.replicate 8 (Event.turn 0) ++
    [Event.rest 0, Event.start 1 3 (.llRwBlock .read 0)] ++ List.replicate 3 (Event.turn 1) ++
    [Event.complete 3 false, Event.start 2 3 (.getblk fdBlock)] ++ List.replicate 8 (Event.turn 2) ++
    Event.rest 2 :: List.replicate 6 (Event.turn 1)

/-- **The request for the floppy is in the queue of the hard disk**, and `INIT_REQUEST` stops the kernel. -/
theorem request_for_another_driver : ¬∀ s : World Unit (Fin 3), Reach (Start 1) step Promised s →
    ServedOnce s := by
  intro hall
  have hend : (exec step (crowded 255) wrongDriver).map (fun s => (s.code 1).message) =
      some (some "request list destroyed") := by decide
  have halong : checks step (fun s e => decide (Promised s e)) (crowded 255) wrongDriver = true := by
    decide
  obtain ⟨s, hs, hmessage⟩ := Option.map_eq_some_iff.1 hend
  have hreach := (reach_crowded 254).exec ((along_of_checks halong).mono fun _ _ => of_decide_eq_true) hs
  have hpanic : s.code 1 = .panic "request list destroyed" := by
    cases hcode : s.code 1 <;> rw [hcode] at hmessage <;> cases hmessage
    rfl
  exact ((hall s hreach).noPanic.2 1).1 hpanic

end World

end OldLinux.Buffers
