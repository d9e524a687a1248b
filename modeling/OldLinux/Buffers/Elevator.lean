import OldLinux.Buffers.Requests
import OldLinux.Lib.TwoSweeps
import OldLinux.Lib.Trace
import Mathlib.Data.Prod.Lex

/-!
# The elevator

The queue of a device, from the request in service on, goes up two times at most: what is still ahead of
the heads, and what waits for the next sweep.  The request in service is never displaced, and its sector
grows while it is served.
-/

namespace OldLinux.Buffers

open Function Lib Kernel

variable {D : Type} {m : ℕ} {k k' k0 : Kernel D} {b s req : ℕ} {rw : Rw}

/-- What `IN_ORDER` compares. -/
def Kernel.key (k : Kernel D) (s : ℕ) : ℕ ×ₗ ℤ ×ₗ ℕ :=
  toLex ((k.request s).cmd.code, toLex ((k.request s).dev, (k.request s).sector.toNat))

theorem inOrder_iff (k : Kernel D) (s1 s2 : ℕ) : k.inOrder s1 s2 ↔ k.key s1 < k.key s2 := by
  rw [key, key, Prod.Lex.toLex_lt_toLex, Prod.Lex.toLex_lt_toLex, inOrder, BitVec.lt_def]

theorem elevator_eq_place (k : Kernel D) (req : ℕ) (q : List ℕ) : k.elevator req q = place k.key req q := by
  induction q with
  | nil => rfl
  | cons tmp q ih =>
    cases q with
    | nil => rfl
    | cons next rest =>
      rw [elevator, place, ih]
      exact if_congr (by rw [inOrder_iff, inOrder_iff, inOrder_iff]) rfl rfl

/-- At most one descent: the queue is two runs that are in order. -/
def Sweeps (k : Kernel D) (m : ℕ) : Prop :=
  ∃ q₁ q₂, k.queue m = q₁ ++ q₂ ∧ q₁.IsChain k.inOrder ∧ q₂.IsChain k.inOrder

theorem sweeps_iff : Sweeps k m ↔ TwoSweeps k.key (k.queue m) := by
  have horder : k.inOrder = fun s1 s2 => k.key s1 < k.key s2 := by
    funext s1 s2
    exact propext (inOrder_iff k s1 s2)
  rw [Sweeps, TwoSweeps, horder]

/-! ### The events of a device -/

/-- A request for a buffer is put into the slot that `make_request` finds; the device ends the request in
service; it counts a sector of it; or anything else happens, which leaves the queue as it is. -/
inductive Event (D : Type) where
  | request (rw : Rw) (b : ℕ)
  | done (uptodate : Bool)
  | sector
  | other (k' : Kernel D)

/-- The driver goes on to the next sector of its current request. -/
def Kernel.nextSector (k : Kernel D) (m : ℕ) : Option (Kernel D) :=
  (k.queue m).head?.bind fun req => k.progress m ((k.request req).sector + 1)

def deviceStep (m : ℕ) (k : Kernel D) : Event D → Option (Kernel D)
  | .request rw b => (k.emptyRequest rw).map fun req => k.enqueue m req rw b
  | .done uptodate => k.endRequest m uptodate
  | .sector => k.nextSector m
  | .other k' => some k'

/-- No two queued requests are for the same device and sector. -/
def Distinct (k : Kernel D) (m : ℕ) : Prop :=
  ∀ s ∈ k.queue m, ∀ s' ∈ k.queue m, s ≠ s' →
    ((k.request s).dev, (k.request s).sector) ≠ ((k.request s').dev, (k.request s').sector)

/-- The other requests and devices leave the queue and its requests as they are. -/
def Elsewhere (m : ℕ) (k k' : Kernel D) : Prop :=
  k'.queue m = k.queue m ∧ ∀ s ∈ k.queue m, k'.request s = k.request s

/-- What can happen: after every event the queued requests are for different sectors. -/
def CanHappen (m : ℕ) (k : Kernel D) (e : Event D) : Prop :=
  (∀ k', deviceStep m k e = some k' → Distinct k' m) ∧ match e with
    | .request rw _ => rw = .read ∨ rw = .write
    | .other k' => Elsewhere m k k'
    | _ => True

/-- The kernels that a device reaches that has no requests at first. -/
abbrev Served (m : ℕ) : Kernel D → Prop :=
  Reach (fun k => k.queue m = []) (deviceStep m) (CanHappen m)

/-! ### One event -/

/-- What holds of the queue of a device all along. -/
structure InSweeps (k : Kernel D) (m : ℕ) : Prop where
  sweeps : TwoSweeps k.key (k.queue m)
  nodup : (k.queue m).Nodup
  used : ∀ s ∈ k.queue m, 0 ≤ (k.request s).dev

theorem key_congr (h : k'.request s = k.request s) : k'.key s = k.key s := by
  rw [key, key, h]

theorem Distinct.ne {s' : ℕ} (h : Distinct k m) (hs : s ∈ k.queue m) (hs' : s' ∈ k.queue m)
    (hne : s ≠ s') : k.key s ≠ k.key s' := by
  intro heq
  have hpair := congrArg (fun x => (ofLex x).2) heq
  have hdev := congrArg (fun x => (ofLex x).1) hpair
  have hsector := congrArg (fun x => (ofLex x).2) hpair
  exact h s hs s' hs' hne (Prod.ext hdev (BitVec.eq_of_toNat_eq hsector))

/-- The new request is placed by the keys that the queue has with it. -/
theorem enqueue_queue (k : Kernel D) (m req : ℕ) (rw : Rw) (b : ℕ) :
    (k.enqueue m req rw b).queue m = place (k.enqueue m req rw b).key req (k.queue m) := by
  show update k.queue m _ m = _
  rw [update_self]
  exact elevator_eq_place _ req _

/-- What an insertion does to the queue: the request in service is not displaced, and none is dropped or
there two times. -/
structure Inserted (k k' : Kernel D) (m req : ℕ) : Prop where
  head : ∀ tmp rest, k.queue m = tmp :: rest → ∃ rest', k'.queue m = tmp :: rest'
  perm : (k'.queue m).Perm (req :: k.queue m)
  nodup : (k'.queue m).Nodup
  request : ∀ s ∈ k.queue m, k'.request s = k.request s

theorem InSweeps.not_queued (h : InSweeps k m) (hreq : k.emptyRequest rw = some req) : req ∉ k.queue m := by
  intro hmem
  have hused := h.used req hmem
  have hfree := (emptyRequest_free hreq).1
  omega

theorem InSweeps.inserted (h : InSweeps k m) (hreq : k.emptyRequest rw = some req) :
    Inserted k (k.enqueue m req rw b) m req := by
  have hnot := h.not_queued hreq
  have hqueue := enqueue_queue k m req rw b
  have hperm := place_perm (k.enqueue m req rw b).key req (k.queue m)
  refine ⟨fun tmp rest hq => ?_, hqueue ▸ hperm, ?_, fun s hs => ?_⟩
  · rw [hqueue, hq]
    exact place_cons _ req tmp rest
  · rw [hqueue, hperm.nodup_iff, List.nodup_cons]
    exact ⟨hnot, h.nodup⟩
  · rw [enqueue_request, update_of_ne (fun (hsr : s = req) => hnot (hsr ▸ hs))]

theorem InSweeps.enqueue (h : InSweeps k m) (hreq : k.emptyRequest rw = some req)
    (hd : Distinct (k.enqueue m req rw b) m) : InSweeps (k.enqueue m req rw b) m := by
  have I := h.inserted (b := b) hreq
  have hnot := h.not_queued hreq
  have hmem : ∀ s, s ∈ (k.enqueue m req rw b).queue m ↔ s = req ∨ s ∈ k.queue m := by
    intro s
    rw [I.perm.mem_iff, List.mem_cons]
  refine ⟨?_, I.nodup, fun s hs => ?_⟩
  · rw [enqueue_queue]
    refine (h.sweeps.congr fun s hs => key_congr (I.request s hs)).place fun s hs => ?_
    exact hd.ne ((hmem s).2 (.inr hs)) ((hmem req).2 (.inl rfl)) fun (hsr : s = req) => hnot (hsr ▸ hs)
  · rcases (hmem s).1 hs with rfl | hs
    · rw [enqueue_request, update_self]
      exact Int.natCast_nonneg _
    · rw [I.request s hs]
      exact h.used s hs

theorem InSweeps.done {ok : Bool} (h : InSweeps k m) (hs : k.endRequest m ok = some k') : InSweeps k' m := by
  obtain ⟨req, rest, C⟩ := endRequest_completed hs
  have hqueue : k'.queue m = rest := by rw [C.queue, update_self]
  have hnodup := List.nodup_cons.1 (C.first ▸ h.nodup)
  have hrequest : ∀ s ∈ rest, k'.request s = k.request s := by
    intro s hs
    rw [C.request, update_of_ne fun (hsr : s = req) => hnodup.1 (hsr ▸ hs)]
  have hsweeps := (C.first ▸ h.sweeps).tail
  refine ⟨?_, ?_, fun s hs => ?_⟩
  · rw [hqueue]
    exact hsweeps.congr fun s hs => key_congr (hrequest s hs)
  · rw [hqueue]
    exact hnodup.2
  · rw [hqueue] at hs
    rw [hrequest s hs]
    exact h.used s (C.first ▸ List.mem_cons_of_mem req hs)

/-- The next sector is below what is queued above the one before it. -/
theorem InSweeps.next_sector (h : InSweeps k m) (hs : k.nextSector m = some k') (hd : Distinct k' m) :
    InSweeps k' m := by
  rw [nextSector] at hs
  cases hq : k.queue m with
  | nil =>
    rw [hq] at hs
    cases hs
  | cons req rest =>
    rw [hq, List.head?_cons, Option.bind_some, progress, hq] at hs
    cases hs
    set k' : Kernel D := { k with
      request := update k.request req { k.request req with sector := (k.request req).sector + 1 } }
      with hk'
    have hnodup := List.nodup_cons.1 (hq ▸ h.nodup)
    have hself : k'.request req = { k.request req with sector := (k.request req).sector + 1 } :=
      update_self req _ _
    have hrequest : ∀ s ∈ rest, k'.request s = k.request s := fun s hs =>
      update_of_ne (fun (hsr : s = req) => hnodup.1 (hsr ▸ hs)) _ _
    have hqueue : k'.queue m = req :: rest := hq
    refine ⟨?_, hqueue ▸ hq ▸ h.nodup, fun s hs => ?_⟩
    · rw [hqueue]
      refine (hq ▸ h.sweeps).first (fun s hs => key_congr (hrequest s hs)) fun s hs hlt => ?_
      have hmem : s ∈ k'.queue m := hqueue ▸ List.mem_cons_of_mem req hs
      have hne := hd.ne (hqueue ▸ List.mem_cons_self) hmem fun (hrs : req = s) => hnodup.1 (hrs ▸ hs)
      refine lt_of_le_of_ne ?_ hne
      rw [key_congr (hrequest s hs), key, hself]
      rw [key, key] at hlt
      rw [key, Prod.Lex.toLex_le_toLex, Prod.Lex.toLex_le_toLex]
      rw [Prod.Lex.toLex_lt_toLex, Prod.Lex.toLex_lt_toLex] at hlt
      have hadd : ((k.request req).sector + 1).toNat ≤ (k.request req).sector.toNat + 1 := by
        rw [BitVec.toNat_add]
        exact Nat.mod_le _ _
      refine hlt.imp id fun hlt => ⟨hlt.1, hlt.2.imp id fun hlt => ⟨hlt.1, ?_⟩⟩
      exact hadd.trans hlt.2
    · rw [hqueue] at hs
      rcases List.mem_cons.1 hs with rfl | hs
      · rw [hself]
        exact h.used s (hq ▸ List.mem_cons_self)
      · rw [hrequest s hs]
        exact h.used s (hq ▸ List.mem_cons_of_mem req hs)

theorem InSweeps.elsewhere (h : InSweeps k m) (he : Elsewhere m k k') : InSweeps k' m := by
  refine ⟨?_, he.1 ▸ h.nodup, fun s hs => ?_⟩
  · rw [he.1]
    exact h.sweeps.congr fun s hs => key_congr (he.2 s hs)
  · rw [he.1] at hs
    rw [he.2 s hs]
    exact h.used s hs

/-! ### All along -/

theorem inSweeps_of_served (h : Served m k) : InSweeps k m := by
  refine Reach.invariant (I := fun k => InSweeps k m) (fun k hk => ?_) (fun k e k' hk hcan hstep => ?_) h
  · refine ⟨?_, ?_, ?_⟩ <;> rw [hk]
    · exact Ascending.two .nil
    · exact List.nodup_nil
    · exact fun s hs => absurd hs List.not_mem_nil
  · have hd := hcan.1 k' hstep
    cases e with
    | request rw b =>
      obtain ⟨req, hreq, rfl⟩ := Option.map_eq_some_iff.1 hstep
      exact hk.enqueue hreq hd
    | done ok => exact hk.done hstep
    | sector => exact hk.next_sector hstep hd
    | other k₁ =>
      cases hstep
      exact hk.elsewhere hcan.2

/-- **The elevator keeps two sweeps**, whatever is requested and ended, as long as no two queued requests
are for the same device and sector; and a new request displaces neither the one in service nor any other. -/
theorem elevator_keeps_sweeps (h : Served m k) :
    Sweeps k m ∧ ∀ rw b req, k.emptyRequest rw = some req → Inserted k (k.enqueue m req rw b) m req :=
  ⟨sweeps_iff.2 (inSweeps_of_served h).sweeps, fun _ _ _ hreq => (inSweeps_of_served h).inserted hreq⟩

/-- A disk at rest; each buffer is for the block of its number. -/
def atRest : Kernel Unit where
  buffers := 64
  bh b := ⟨(), ⟨0x301, b⟩, false, false, 1, true⟩
  hash _ := []
  freeList := []
  bufferWait := 0
  request _ := ⟨-1, .read, 0, 0, ⟨0, 0⟩, 0⟩
  queue _ := []
  driver m := m = 3
  waitForRequest := 0
  inode _ := ⟨⟨0, 0, 0, fun _ => 0⟩, 0, 0, 0, false, false, false, false⟩
  super _ := ⟨0, 0, 0, false⟩
  mounted := []
  disk _ := ()
  lost := []
  made := 0
  completed := []

/-- Block 5 is read, block 9 written; while block 5 is in service, blocks 7 and 2 are asked for. -/
def busy : Kernel Unit :=
  (((atRest.enqueue 3 31 .read 5).enqueue 3 20 .write 9).enqueue 3 30 .read 7).enqueue 3 29 .read 2

/-- Block 2 is behind: it waits for the next sweep. -/
example : busy.queue 3 = [31, 30, 20, 29] := by decide

theorem Served.request (h : Served m k) (hrw : rw = .read ∨ rw = .write) (hreq : k.emptyRequest rw = some req)
    (hd : Distinct (k.enqueue m req rw b) m) : Served m (k.enqueue m req rw b) := by
  have hstep : deviceStep m k (.request rw b) = some (k.enqueue m req rw b) := by
    rw [deviceStep, hreq, Option.map_some]
  refine .step (.request rw b) h ⟨fun k' hk' => ?_, hrw⟩ hstep
  cases hstep.symm.trans hk'
  exact hd

theorem served_busy : Served 3 busy := by
  have h0 : Served 3 atRest := .start rfl
  have h1 : Served 3 (atRest.enqueue 3 31 .read 5) :=
    h0.request (.inl rfl) (by decide) (by unfold Distinct; decide)
  have h2 : Served 3 ((atRest.enqueue 3 31 .read 5).enqueue 3 20 .write 9) :=
    h1.request (.inr rfl) (by decide) (by unfold Distinct; decide)
  have h3 : Served 3 (((atRest.enqueue 3 31 .read 5).enqueue 3 20 .write 9).enqueue 3 30 .read 7) :=
    h2.request (.inl rfl) (by decide) (by unfold Distinct; decide)
  exact h3.request (.inl rfl) (by decide) (by unfold Distinct; decide)

theorem elevator_keeps_sweeps_busy : Sweeps busy 3 ∧ ∀ rw b req, busy.emptyRequest rw = some req →
    Inserted busy (busy.enqueue 3 req rw b) 3 req :=
  elevator_keeps_sweeps served_busy

end OldLinux.Buffers
