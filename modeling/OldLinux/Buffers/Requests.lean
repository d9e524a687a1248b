import OldLinux.Buffers.Steps

/-!
# Requests that are queued and completed

A process that has locked a buffer puts a request for it into a free slot and into the queue of its
device; the device completes the first request of its queue.  Both keep the books, and the elevator
never displaces the first request of a queue.
-/

namespace OldLinux.Buffers

open Function Lib.Processes Kernel

variable {D : Type} {ι : Type*} {m : Mode} {k k' : Kernel D} {l l' : ι → Own} {p : ι} {b d s req : ℕ}
  {t : Tag} {rw : Rw}

/-! ### Queues -/

/-- The elevator only decides where the request goes. -/
theorem elevator_perm (k : Kernel D) (req : ℕ) (q : List ℕ) : (k.elevator req q).Perm (req :: q) := by
  induction q with
  | nil => exact List.Perm.refl _
  | cons tmp q ih =>
    cases q with
    | nil => exact List.Perm.swap req tmp []
    | cons next rest =>
      rw [elevator]
      split
      · exact List.Perm.swap req tmp _
      · exact (ih.cons tmp).trans (List.Perm.swap req tmp _)

/-- One queue grows by one request. -/
theorem flatMap_update_perm {ds : List ℕ} (hds : ds.Nodup) (hd : d ∈ ds) (q : ℕ → List ℕ) {q' : List ℕ}
    (hq : q'.Perm (req :: q d)) :
    (ds.flatMap (update q d q')).Perm (req :: ds.flatMap q) := by
  induction ds with
  | nil => exact absurd hd List.not_mem_nil
  | cons c ds ih =>
    obtain ⟨hc, hnodup⟩ := List.nodup_cons.1 hds
    rw [List.flatMap_cons, List.flatMap_cons]
    rcases List.mem_cons.1 hd with hdc | hd
    · have hrest : ds.flatMap (update q d q') = ds.flatMap q := by
        apply List.flatMap_congr
        intro e he
        rw [update_of_ne]
        intro hed
        rw [hed, hdc] at he
        exact hc he
      rw [hrest, ← hdc, update_self, ← List.cons_append]
      exact hq.append_right _
    · have hne : c ≠ d := by
        intro hcd
        rw [hcd] at hc
        exact hc hd
      rw [update_of_ne hne]
      exact ((ih hnodup hd).append_left (q c)).trans List.perm_middle

theorem mem_requests_of_mem (hnone : ∀ d, 7 ≤ d → k.queue d = []) (hs : s ∈ k.queue d) : s ∈ requests k := by
  rw [requests, List.mem_flatMap]
  refine ⟨d, ?_, hs⟩
  by_contra hd
  rw [hnone d (by simpa using hd)] at hs
  exact List.not_mem_nil hs

/-! ### A request is made -/

/-- The slot that `make_request` finds is free. -/
theorem emptyRequest_free (h : k.emptyRequest rw = some req) : (k.request req).dev < 0 ∧ req < slots rw := by
  have hfree := List.find?_some h
  have hmem := List.mem_of_find?_eq_some h
  rw [List.mem_reverse, List.mem_range] at hmem
  exact ⟨by simpa using hfree, hmem⟩

theorem Queued.free (h : Queued m k l) (hs : (k.request s).dev < 0) : s ∉ requests k := by
  intro hmem
  have hdev := (h.request s hmem).2.2
  omega

/-- The kernel after a request for a buffer was made. -/
def Kernel.enqueue (k : Kernel D) (d req : ℕ) (rw : Rw) (b : ℕ) : Kernel D :=
  (k.fillRequest req rw b).addRequest d req

theorem enqueue_request (k : Kernel D) (d req : ℕ) (rw : Rw) (b : ℕ) :
    (k.enqueue d req rw b).request = update k.request req
      ⟨(k.bh b).tag.dev.toNat, rw, (k.bh b).tag.blocknr <<< 1, b, (k.bh b).tag, k.made⟩ := rfl

theorem enqueue_bh (k : Kernel D) (d req : ℕ) (rw : Rw) (b : ℕ) :
    (k.enqueue d req rw b).bh = (k.setBh b fun h => { h with dirt := false }).bh := by
  simp [Kernel.enqueue, addRequest, fillRequest, setBh]

theorem enqueue_perm (k : Kernel D) (hd : d < 7) (req : ℕ) (rw : Rw) (b : ℕ) :
    (requests (k.enqueue d req rw b)).Perm (req :: requests k) :=
  flatMap_update_perm List.nodup_range (List.mem_range.2 hd) _ (elevator_perm _ req _)

/-- The requests in the queues stay where they are. -/
theorem Queued.enqueue_leaves (h : Queued m k l) (hfree : (k.request req).dev < 0) :
    LeavesRequests k (k.enqueue d req rw b) := by
  refine ⟨rfl, fun d' s hs => ⟨?_, ?_⟩⟩
  · show s ∈ update k.queue d _ d'
    rw [update_apply]
    split
    · rename_i hd
      rw [hd] at hs
      exact (elevator_perm _ req _).mem_iff.2 (List.mem_cons_of_mem req hs)
    · exact hs
  · have hne : s ≠ req := fun he => h.free hfree (he ▸ mem_requests_of_mem h.none hs)
    rw [enqueue_request, update_of_ne hne]

/-! ### A request is completed -/

/-- The device has completed its first request: `k'` is the kernel after it. -/
structure Completed (k : Kernel D) (d req : ℕ) (rest : List ℕ) (k' : Kernel D) : Prop where
  first : k.queue d = req :: rest
  request : k'.request = update k.request req { k.request req with dev := -1 }
  queue : k'.queue = update k.queue d rest
  completed : k'.completed = (k.request req).id :: k.completed
  tag : ∀ c, (k'.bh c).tag = (k.bh c).tag
  count : ∀ c, (k'.bh c).count = (k.bh c).count
  dirt : ∀ c, (k'.bh c).dirt = (k.bh c).dirt
  lock : ∀ c, (k'.bh c).lock = if c = (k.request req).bh then false else (k.bh c).lock
  buffers : k'.buffers = k.buffers
  hash : k'.hash = k.hash
  freeList : k'.freeList = k.freeList
  driver : k'.driver = k.driver
  inode : k'.inode = k.inode
  super : k'.super = k.super
  mounted : k'.mounted = k.mounted
  lost : k'.lost = k.lost
  made : k'.made = k.made

theorem endRequest_completed {ok : Bool} (h : k.endRequest d ok = some k') :
    ∃ req rest, Completed k d req rest k' := by
  rw [endRequest] at h
  cases hq : k.queue d with
  | nil =>
    rw [hq] at h
    cases h
  | cons req rest =>
    rw [hq] at h
    cases h
    have htag := setBh_tag k (f := fun h => { h with uptodate := ok, lock := false }) (fun _ => rfl)
      (k.request req).bh
    have hcount := setBh_count k (f := fun h => { h with uptodate := ok, lock := false })
      (fun _ => rfl) (k.request req).bh
    refine ⟨req, rest, hq, rfl, rfl, rfl, htag, hcount, ?_, ?_, rfl, rfl, rfl, rfl, rfl, rfl, rfl, rfl, rfl⟩
    · intro c
      show (update k.bh _ _ c).dirt = _
      rw [update_apply]
      split
      · rename_i hc
        rw [hc]
      · rfl
    · intro c
      show (update k.bh _ _ c).lock = _
      rw [update_apply]
      split
      · rfl
      · rfl

/-- The data of a request go to a buffer or to the disk. -/
theorem transfer_same (k : Kernel D) (req : ℕ) :
    Same k (k.transfer req) ∧ (∀ c, ((k.transfer req).bh c).dirt = (k.bh c).dirt) ∧
      (k.transfer req).driver = k.driver ∧ (k.transfer req).inode = k.inode ∧
      (k.transfer req).super = k.super := by
  rw [transfer]
  split
  · refine ⟨Same.setBh k _ _ fun _ => ⟨rfl, rfl, rfl⟩, ?_, rfl, rfl, rfl⟩
    intro c
    rw [setBh_bh]
    split
    · rename_i hc
      rw [hc]
    · rfl
  · exact ⟨⟨rfl, rfl, rfl, fun _ => rfl, fun _ => rfl, fun _ => rfl, rfl, rfl, rfl, rfl, rfl, rfl⟩,
      fun _ => rfl, rfl, rfl, rfl⟩

theorem complete_completed {ok : Bool} (h : k.complete d ok = some k') :
    ∃ req rest, Completed k d req rest k' := by
  rw [complete] at h
  split at h
  · cases h
  · rename_i req _ _
    split at h
    · obtain ⟨S, hdirt, hdriver, hinode, hsuper⟩ := transfer_same k req
      obtain ⟨req', rest, C⟩ := endRequest_completed h
      refine ⟨req', rest, S.queue ▸ C.first, S.request ▸ C.request, S.queue ▸ C.queue, ?_,
        fun c => (C.tag c).trans (S.tag c), fun c => (C.count c).trans (S.count c),
        fun c => (C.dirt c).trans (hdirt c), ?_, C.buffers.trans S.buffers, C.hash.trans S.hash,
        C.freeList.trans S.freeList, C.driver.trans hdriver, C.inode.trans hinode,
        C.super.trans hsuper, C.mounted.trans S.mounted, C.lost.trans S.lost, C.made.trans S.made⟩
      · rw [C.completed, S.request, S.completed]
      · intro c
        rw [C.lock, S.request, S.lock]
    · exact endRequest_completed h

theorem Completed.later {rest : List ℕ} (C : Completed k d req rest k') (h : Queued m k l) : Later k k' := by
  refine ⟨C.buffers, C.hash, C.freeList, C.driver, C.inode, C.super, C.tag, C.count, C.dirt, ?_, ?_⟩
  · intro c hc
    rw [C.lock]
    split
    · rfl
    · exact hc
  · intro s hs
    rw [C.request, update_of_ne]
    intro hsr
    apply h.free hs
    rw [hsr]
    apply mem_requests_of_mem h.none (d := d)
    rw [C.first]
    exact List.mem_cons_self

variable [Fintype ι] [DecidableEq ι]

/-- **A request is made** for the buffer that the process has locked. -/
theorem Books.enqueue (h : Books m k l) (hp : (l p).locked = some ⟨b, t⟩) (hd : d < 7)
    (hmajor : m.queue → major t.dev.toNat = d) (hfree : (k.request req).dev < 0)
    (hslot : req < slots rw) (hrw : rw = .read ∨ rw = .write) :
    Books m (k.enqueue d req rw b) (update l p { l p with locked := none }) := by
  obtain ⟨hlock, htag, hnew⟩ := h.queued.locked p _ hp
  have hperm := enqueue_perm k hd req rw b
  have hmem : ∀ s, s ∈ requests (k.enqueue d req rw b) ↔ s = req ∨ s ∈ requests k := by
    intro s
    rw [hperm.mem_iff, List.mem_cons]
  have hnot := h.queued.free hfree
  have htags : ∀ c, ((k.enqueue d req rw b).bh c).tag = (k.bh c).tag := by
    rw [enqueue_bh]
    exact setBh_tag k (f := fun h => { h with dirt := false }) (fun _ => rfl) b
  have hlocks : ∀ c, ((k.enqueue d req rw b).bh c).lock = (k.bh c).lock := by
    rw [enqueue_bh]
    exact setBh_lock k (f := fun h => { h with dirt := false }) (fun _ => rfl) b
  have hcounts : ∀ c, ((k.enqueue d req rw b).bh c).count = (k.bh c).count := by
    rw [enqueue_bh]
    exact setBh_count k (f := fun h => { h with dirt := false }) (fun _ => rfl) b
  have hself : (k.enqueue d req rw b).request req =
      ⟨(k.bh b).tag.dev.toNat, rw, (k.bh b).tag.blocknr <<< 1, b, (k.bh b).tag, k.made⟩ := by
    rw [enqueue_request, update_self]
  have hother : ∀ s, s ≠ req → (k.enqueue d req rw b).request s = k.request s := by
    intro s hs
    rw [enqueue_request, update_of_ne hs]
  have hne : ∀ s ∈ requests k, s ≠ req := by
    intro s hs hsr
    rw [hsr] at hs
    exact hnot hs
  obtain ⟨hheld, hwants, hown⟩ := update_unlocked l p
  refine ⟨h.cached.congr rfl rfl rfl htags, ⟨?_, ?_⟩, ⟨?_, ?_, ?_, ?_, ?_, ?_, ?_, ?_, ?_, ?_, ?_⟩, h.size⟩
  · intro c
    rw [hcounts, outstanding_congr rfl rfl hheld]
    exact h.counted.count c
  · intro hs q r hr
    rw [hheld] at hr
    rw [htags]
    exact h.counted.held hs q r hr
  · intro hm q r hr
    rw [hwants] at hr
    rw [htags, Own.Holds, hheld]
    exact h.queued.wants hm q r hr
  · intro q r hr
    obtain ⟨hq, hr⟩ := hown q r hr
    obtain ⟨h1, h2, h3⟩ := h.queued.locked q r hr
    refine ⟨(hlocks _).trans h1, (htags _).trans h2, ?_⟩
    intro s hs
    rcases (hmem s).1 hs with hs | hs
    · rw [hs, hself]
      exact fun hrb => hq (h.queued.lockedOnce q p r _ hr hp hrb.symm)
    · rw [hother s (hne s hs)]
      exact h3 s hs
  · intro q q' r r' hr hr'
    exact h.queued.lockedOnce q q' r r' (hown q r hr).2 (hown q' r' hr').2
  · intro e he
    show update k.queue d _ e = []
    rw [update_of_ne (by omega)]
    exact h.queued.none e he
  · exact hperm.nodup_iff.2 (List.nodup_cons.2 ⟨hnot, h.queued.nodup⟩)
  · intro s
    rw [hmem]
    by_cases hs : s = req
    · have hlt : req < 32 := lt_of_lt_of_le hslot (by rw [slots]; split <;> omega)
      rw [hs, hself]
      simp only [true_or, hlt, true_and, true_iff]
      omega
    · rw [hother s hs]
      simp only [hs, false_or]
      exact h.queued.used s
  · intro s hs
    rcases (hmem s).1 hs with hs | hs
    · rw [hs, hself]
      exact ⟨(hlocks b).trans hlock, htags b, rfl⟩
    · rw [hother s (hne s hs)]
      obtain ⟨h1, h2, h3⟩ := h.queued.request s hs
      exact ⟨(hlocks _).trans h1, (htags _).trans h2, h3⟩
  · intro s hs
    rcases (hmem s).1 hs with hs | hs
    · rw [hs, hself]
      rcases hrw with hrw | hrw
      · exact Or.inl hrw
      · refine Or.inr ⟨hrw, ?_⟩
        rw [hrw] at hslot
        exact hslot
    · rw [hother s (hne s hs)]
      exact h.queued.cmd s hs
  · intro s hs s' hs' hbh
    rcases (hmem s).1 hs with hs | hs <;> rcases (hmem s').1 hs' with hs' | hs'
    · rw [hs, hs']
    · rw [hs, hself, hother s' (hne s' hs')] at hbh
      exact absurd hbh.symm (hnew s' hs')
    · rw [hs', hself, hother s (hne s hs)] at hbh
      exact absurd hbh (hnew s hs)
    · rw [hother s (hne s hs), hother s' (hne s' hs')] at hbh
      exact h.queued.once s hs s' hs' hbh
  · intro hm e s hs
    have hs' : s ∈ update k.queue d (elevator _ req (k.queue d)) e := hs
    by_cases hed : e = d
    · rw [hed, update_self, (elevator_perm _ req _).mem_iff, List.mem_cons] at hs'
      rcases hs' with hs' | hs'
      · rw [hs', hself, hed, htag]
        exact hmajor hm
      · rw [hother s (hne s (mem_requests_of_mem h.queued.none hs')), hed]
        exact h.queued.device hm d s hs'
    · rw [update_of_ne hed] at hs'
      rw [hother s (hne s (mem_requests_of_mem h.queued.none hs'))]
      exact h.queued.device hm e s hs'
  · -- the new request has the next number
    have hids : (requests k).map (fun s => ((k.enqueue d req rw b).request s).id) =
        (requests k).map fun s => (k.request s).id := by
      apply List.map_congr_left
      intro s hs
      rw [hother s (hne s hs)]
    have hcons := hperm.map fun s => ((k.enqueue d req rw b).request s).id
    rw [List.map_cons, hself, hids] at hcons
    show (List.map _ _ ++ k.completed).Perm (List.range (k.made + 1))
    rw [List.range_succ]
    refine (hcons.append_right _).trans ?_
    rw [List.cons_append]
    exact (h.queued.ids.cons _).trans (List.perm_append_singleton _ _).symm

omit [DecidableEq ι] in
/-- **A request is completed**: its slot and its buffer are free again. -/
theorem Books.complete {rest : List ℕ} (h : Books m k l) (C : Completed k d req rest k') : Books m k' l := by
  have hd : d < 7 := by
    by_contra hd
    have hfirst := C.first
    rw [h.queued.none d (by omega)] at hfirst
    cases hfirst
  have hperm : (requests k).Perm (req :: requests k') := by
    have hback : k.queue = update k'.queue d (k.queue d) := by
      rw [C.queue, update_idem, update_eq_self]
    have hsame : (k.queue d).Perm (req :: k'.queue d) := by
      rw [C.first, C.queue, update_self]
    have hperm := flatMap_update_perm (List.nodup_range (n := 7)) (List.mem_range.2 hd) k'.queue hsame
    rw [← hback] at hperm
    exact hperm
  have hnodup := hperm.nodup_iff.1 h.queued.nodup
  obtain ⟨hnot, hnodup'⟩ := List.nodup_cons.1 hnodup
  have hreq : req ∈ requests k := hperm.mem_iff.2 List.mem_cons_self
  have hmem : ∀ s, s ∈ requests k' ↔ s ∈ requests k ∧ s ≠ req := by
    intro s
    rw [hperm.mem_iff, List.mem_cons]
    constructor
    · intro hs
      refine ⟨Or.inr hs, ?_⟩
      intro hsr
      rw [hsr] at hs
      exact hnot hs
    · rintro ⟨hs | hs, hne⟩
      · exact absurd hs hne
      · exact hs
  have hother : ∀ s, s ≠ req → k'.request s = k.request s := by
    intro s hs
    rw [C.request, update_of_ne hs]
  -- the other requests are for other buffers
  have hlock : ∀ s ∈ requests k', (k'.bh (k.request s).bh).lock = true := by
    intro s hs
    obtain ⟨hs, hne⟩ := (hmem s).1 hs
    rw [C.lock, if_neg fun hbh => hne (h.queued.once s hs req hreq hbh)]
    exact (h.queued.request s hs).1
  refine ⟨h.cached.congr C.buffers C.hash C.freeList C.tag, ⟨?_, ?_⟩,
    ⟨?_, ?_, h.queued.lockedOnce, ?_, hnodup', ?_, ?_, ?_, ?_, ?_, ?_⟩, C.buffers.trans h.size⟩
  · intro c
    rw [C.count, outstanding_congr C.mounted C.lost fun _ => rfl]
    exact h.counted.count c
  · intro hs q r hr
    rw [C.tag]
    exact h.counted.held hs q r hr
  · intro hm q r hr
    rw [C.tag]
    exact h.queued.wants hm q r hr
  · intro q r hr
    obtain ⟨h1, h2, h3⟩ := h.queued.locked q r hr
    refine ⟨?_, (C.tag _).trans h2, ?_⟩
    · rw [C.lock, if_neg fun hbh => h3 req hreq hbh.symm]
      exact h1
    · intro s hs
      obtain ⟨hs, hne⟩ := (hmem s).1 hs
      rw [hother s hne]
      exact h3 s hs
  · intro e he
    rw [C.queue, update_of_ne (by omega)]
    exact h.queued.none e he
  · intro s
    rw [hmem, h.queued.used]
    by_cases hs : s = req
    · rw [hs, C.request, update_self]
      simp
    · rw [hother s hs]
      simp [hs]
  · intro s hs
    obtain ⟨hs', hne⟩ := (hmem s).1 hs
    obtain ⟨-, h2, h3⟩ := h.queued.request s hs'
    rw [hother s hne]
    exact ⟨hlock s hs, (C.tag _).trans h2, h3⟩
  · intro s hs
    obtain ⟨hs', hne⟩ := (hmem s).1 hs
    rw [hother s hne]
    exact h.queued.cmd s hs'
  · intro s hs s' hs' hbh
    obtain ⟨hs, hne⟩ := (hmem s).1 hs
    obtain ⟨hs', hne'⟩ := (hmem s').1 hs'
    rw [hother s hne, hother s' hne'] at hbh
    exact h.queued.once s hs s' hs' hbh
  · intro hm e s hs
    have hs' := mem_requests_of_mem (k := k') (by
      intro e he
      rw [C.queue, update_of_ne (by omega)]
      exact h.queued.none e he) hs
    rw [hother s ((hmem s).1 hs').2]
    apply h.queued.device hm e s
    rw [C.queue] at hs
    by_cases hed : e = d
    · rw [hed, update_self] at hs
      rw [hed, C.first]
      exact List.mem_cons_of_mem req hs
    · rw [update_of_ne hed] at hs
      exact hs
  · have hids : (requests k').map (fun s => (k'.request s).id) =
        (requests k').map fun s => (k.request s).id := by
      apply List.map_congr_left
      intro s hs
      rw [hother s ((hmem s).1 hs).2]
    have hcons := hperm.map fun s => (k.request s).id
    rw [hids, C.completed, C.made]
    refine (List.perm_middle.trans ?_).trans h.queued.ids
    rw [← List.cons_append]
    exact (hcons.append_right _).symm

omit [DecidableEq ι] in
/-- The sectors that the driver has come to are of no account. -/
theorem Books.sectors {f : ℕ → Request} (h : Books m k l)
    (hf : ∀ s, ∃ c, f s = { k.request s with sector := c }) : Books m { k with request := f } l := by
  refine ⟨{ h.cached with }, { h.counted with }, { h.queued with
    locked := ?_, used := ?_, request := ?_, cmd := ?_, once := ?_, device := ?_, ids := ?_ }, h.size⟩
  · intro q r hr
    obtain ⟨h1, h2, h3⟩ := h.queued.locked q r hr
    refine ⟨h1, h2, ?_⟩
    intro s hs
    obtain ⟨c, hc⟩ := hf s
    show (f s).bh ≠ r.bh
    rw [hc]
    exact h3 s hs
  · intro s
    obtain ⟨c, hc⟩ := hf s
    show s ∈ requests k ↔ s < 32 ∧ (f s).dev ≠ -1
    rw [hc]
    exact h.queued.used s
  · intro s hs
    obtain ⟨c, hc⟩ := hf s
    show (k.bh (f s).bh).lock = true ∧ (k.bh (f s).bh).tag = (f s).tag ∧ (f s).dev = (f s).tag.dev.toNat
    rw [hc]
    exact h.queued.request s hs
  · intro s hs
    obtain ⟨c, hc⟩ := hf s
    show (f s).cmd = .read ∨ (f s).cmd = .write ∧ s < 32 * 2 / 3
    rw [hc]
    exact h.queued.cmd s hs
  · intro s hs s' hs' hbh
    obtain ⟨c, hc⟩ := hf s
    obtain ⟨c', hc'⟩ := hf s'
    have hbh' : (f s).bh = (f s').bh := hbh
    rw [hc, hc'] at hbh'
    exact h.queued.once s hs s' hs' hbh'
  · intro hm e s hs
    obtain ⟨c, hc⟩ := hf s
    show major (f s).dev = e
    rw [hc]
    exact h.queued.device hm e s hs
  · have hids : (requests k).map (fun s => (f s).id) = (requests k).map fun s => (k.request s).id := by
      apply List.map_congr_left
      intro s _
      obtain ⟨c, hc⟩ := hf s
      rw [hc]
    show (((requests k).map fun s => (f s).id) ++ k.completed).Perm (List.range k.made)
    rw [hids]
    exact h.queued.ids

omit [DecidableEq ι] in
/-- The driver counts the sectors of its current request. -/
theorem Books.progress {sector : BitVec 32} (h : Books m k l) (hs : k.progress d sector = some k') :
    Books m k' l ∧ Later k k' := by
  rw [Kernel.progress] at hs
  cases hq : k.queue d with
  | nil =>
    rw [hq] at hs
    cases hs
  | cons req rest =>
    rw [hq] at hs
    cases hs
    have hreq : req ∈ requests k := by
      apply mem_requests_of_mem h.queued.none (d := d)
      rw [hq]
      exact List.mem_cons_self
    constructor
    · apply h.sectors
      intro s
      by_cases hs : s = req
      · rw [hs, update_self]
        exact ⟨sector, rfl⟩
      · rw [update_of_ne hs]
        exact ⟨_, rfl⟩
    · refine ⟨rfl, rfl, rfl, rfl, rfl, rfl, fun _ => rfl, fun _ => rfl, fun _ => rfl, fun _ h => h, ?_⟩
      intro s hs
      apply update_of_ne
      intro hsr
      rw [hsr] at hs
      exact h.queued.free hs hreq

end OldLinux.Buffers
