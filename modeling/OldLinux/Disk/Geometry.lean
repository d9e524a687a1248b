import OldLinux.Disk.Machine
import OldLinux.Lib.Trace

/-!
# Where the commands of the hard disk driver go

The two divisions of `do_hd_request` are exact, and the check before them keeps the command inside the
partition of its request, also when a request is tried again after its first sector.
-/

namespace OldLinux.Disk

open Function Lib

variable {d : Disks} {k : Hd} {q : Requests} {c n : ℕ} {r : Request} {x : Command}

/-! ### A command in its partition -/

/-- The first block of the command on the drive. -/
def Disks.block (d : Disks) (r : Request) : ℕ := (d.hd (MINOR r.dev)).start_sect.toNat + r.sector.toNat

/-- A command to read or write is for the block of its request, and its sectors lie in the partition. -/
structure Located (d : Disks) (r : Request) (x : Command) : Prop where
  drive : x.drive.toNat = MINOR r.dev / 5
  sect : 1 ≤ x.sect.toNat ∧ x.sect.toNat ≤ (d.hd_info (MINOR r.dev / 5)).sect.toNat
  head : x.head.toNat < (d.hd_info (MINOR r.dev / 5)).head.toNat
  block : (x.cyl.toNat * (d.hd_info (MINOR r.dev / 5)).head.toNat + x.head.toNat) *
    (d.hd_info (MINOR r.dev / 5)).sect.toNat + x.sect.toNat - 1 = d.block r
  inside : ∀ i < x.nsect.toNat, (d.hd (MINOR r.dev)).start_sect.toNat ≤ d.block r + i ∧
    d.block r + i < (d.hd (MINOR r.dev)).start_sect.toNat + (d.hd (MINOR r.dev)).nr_sects.toNat

/-- The drives have sectors and heads, and the partitions end below 2^31. -/
structure Geometry (d : Disks) : Prop where
  sect : ∀ i < d.NR_HD, 1 ≤ (d.hd_info i).sect.toNat
  head : ∀ i < d.NR_HD, 1 ≤ (d.hd_info i).head.toNat ∧ (d.hd_info i).head.toNat ≤ 16
  partitions : ∀ i, (d.hd i).start_sect.toNat + (d.hd i).nr_sects.toNat < 2 ^ 31

/-- What is left of a request: one or two sectors, below 2^30 and one more. -/
structure Short (r : Request) : Prop where
  left : 1 ≤ r.nr_sectors.toNat
  two : r.nr_sectors.toNat ≤ 2
  below : r.sector.toNat + r.nr_sectors.toNat < 2 ^ 30 + 2

theorem toInt_of_lt {a : BitVec 32} (h : a.toNat < 2 ^ 31) : a.toInt = a.toNat := by
  rw [BitVec.toInt_eq_toNat_cond]
  rw [if_pos (by omega)]

/-- What the range check says. -/
theorem not_outside (hg : Geometry d) (hr : Short r) (h : d.outside r = false) :
    MINOR r.dev < 5 * d.NR_HD ∧ r.sector.toNat + 2 ≤ (d.hd (MINOR r.dev)).nr_sects.toNat := by
  rw [Disks.outside, decide_eq_false_iff_not, not_or, not_le, not_lt] at h
  have hsector : (r.sector + 2).toNat = r.sector.toNat + 2 := by
    rw [BitVec.toNat_add]
    have hbelow := hr.below
    have hleft := hr.left
    show (r.sector.toNat + 2) % 2 ^ 32 = _
    omega
  have hnr := hg.partitions (MINOR r.dev)
  have hcmp := h.2
  have hbelow := hr.below
  rw [toInt_of_lt (by omega), toInt_of_lt (by omega), hsector] at hcmp
  exact ⟨h.1, by exact_mod_cast hcmp⟩

/-- The two divisions. -/
theorem locate_block (b s h : ℕ) : (b / s / h * h + b / s % h) * s + (b % s + 1) - 1 = b := by
  have h1 : b / s / h * h + b / s % h = b / s := by
    rw [Nat.mul_comm]
    exact Nat.div_add_mod (b / s) h
  rw [h1, ← Nat.add_assoc, Nat.add_sub_cancel, Nat.mul_comm]
  exact Nat.div_add_mod b s

theorem located (hg : Geometry d) (hr : Short r) (h : d.outside r = false) {cmd : Order} :
    let v := d.hd_info (MINOR r.dev / 5)
    let block := r.sector + (d.hd (MINOR r.dev)).start_sect
    Located d r ⟨(MINOR r.dev / 5 : ℕ), r.nr_sectors, block % v.sect + 1, block / v.sect % v.head,
      block / v.sect / v.head, cmd⟩ := by
  intro v block
  obtain ⟨hdev, hrange⟩ := not_outside hg hr h
  have hdrive : MINOR r.dev / 5 < d.NR_HD := by omega
  have hsect := hg.sect _ hdrive
  have hhead := hg.head _ hdrive
  have hend := hg.partitions (MINOR r.dev)
  have hblock : block.toNat = d.block r := by
    show (r.sector + (d.hd (MINOR r.dev)).start_sect).toNat = _
    rw [BitVec.toNat_add, Disks.block]
    omega
  have hsec : (block % v.sect + 1).toNat = d.block r % v.sect.toNat + 1 := by
    have hlt : d.block r % v.sect.toNat < v.sect.toNat := Nat.mod_lt _ hsect
    rw [BitVec.toNat_add, BitVec.toNat_umod, hblock]
    show (d.block r % v.sect.toNat + 1) % 2 ^ 32 = _
    exact Nat.mod_eq_of_lt (by omega)
  refine ⟨?_, ?_, ?_, ?_, ?_⟩
  · have hminor : MINOR r.dev < 256 := by
      rw [MINOR]
      omega
    show (BitVec.ofNat 32 (MINOR r.dev / 5)).toNat = _
    rw [BitVec.toNat_ofNat]
    omega
  · show 1 ≤ (block % v.sect + 1).toNat ∧ (block % v.sect + 1).toNat ≤ v.sect.toNat
    have hlt : d.block r % v.sect.toNat < v.sect.toNat := Nat.mod_lt _ hsect
    rw [hsec]
    omega
  · show (block / v.sect % v.head).toNat < v.head.toNat
    rw [BitVec.toNat_umod]
    exact Nat.mod_lt _ hhead.1
  · show ((block / v.sect / v.head).toNat * v.head.toNat + (block / v.sect % v.head).toNat) *
      v.sect.toNat + (block % v.sect + 1).toNat - 1 = d.block r
    rw [hsec, BitVec.toNat_umod, BitVec.toNat_udiv, BitVec.toNat_udiv, hblock]
    exact locate_block _ _ _
  · intro i hi
    have htwo := hr.two
    rw [Disks.block]
    have hi' : i < r.nr_sectors.toNat := hi
    omega

/-! ### All along -/

/-- Every request in the queue is short, and every command that was given is where it belongs. -/
structure Fits (d : Disks) (q : Requests) : Prop where
  nodup : q.current.Nodup
  short : ∀ s ∈ q.current, Short (q.request s)
  log : ∀ c r x, Note.command c r x ∈ q.log → x.cmd = .read ∨ x.cmd = .write → Located d r x

def AllFit (d : Disks) (k : Hd) : Prop := k.disks = d ∧ Fits d k.toRequests

theorem Short.congr {r' : Request} (h : Short r) (hs : r'.sector = r.sector)
    (hn : r'.nr_sectors = r.nr_sectors) :
    Short r' := by
  obtain ⟨h1, h2, h3⟩ := h
  rw [← hs] at h3
  rw [← hn] at h1 h2 h3
  exact ⟨h1, h2, h3⟩

/-- The queue becomes shorter, or stays; what is left of its requests stays; nothing is commanded. -/
theorem Fits.congr {q' : Requests} (h : Fits d q) (hcurrent : q'.current.Sublist q.current)
    (hrequest : ∀ s ∈ q'.current, Short (q.request s) → Short (q'.request s))
    (hlog : ∀ c r x, Note.command c r x ∈ q'.log → Note.command c r x ∈ q.log) : Fits d q' :=
  ⟨h.nodup.sublist hcurrent, fun s hs => hrequest s hs (h.short s (hcurrent.subset hs)),
    fun c r x hx => h.log c r x (hlog c r x hx)⟩

theorem Fits.touch (h : Fits d q) :
    Fits d q.touch := h.congr (List.Sublist.refl _) (fun _ _ h => h) fun _ _ _ h => h

theorem Fits.store {f : Request → Request} (h : Fits d q) (hf : q.current ≠ [] → Short (f q.CURRENT)) :
    Fits d (q.store f) := by
  rw [Requests.store]
  split
  · exact h.congr (List.Sublist.refl _) (fun _ _ h => h) fun _ _ _ h => h
  · rename_i c rest hq
    refine h.congr (List.Sublist.refl _) (fun s _ hshort => ?_) fun _ _ _ h => h
    show Short (update q.request c _ s)
    by_cases hsc : s = c
    · rw [hsc, update_self, ← CURRENT_cons hq]
      exact hf (by rw [hq]; exact List.cons_ne_nil c rest)
    · rw [update_of_ne hsc]
      exact hshort

theorem Fits.current (h : Fits d q) (hq : q.current ≠ []) : Short q.CURRENT := by
  obtain ⟨c, rest, hc⟩ := List.exists_cons_of_ne_nil hq
  rw [CURRENT_cons hc]
  exact h.short c (hc ▸ List.mem_cons_self)

theorem Fits.note {f : ℕ → Note} (h : Fits d q) (hf : ∀ s c r x, f s = .command c r x →
    x.cmd = .read ∨ x.cmd = .write → Located d r x) : Fits d (q.note f) := by
  rw [Requests.note]
  split
  · exact h
  · refine ⟨h.nodup, h.short, fun c r x hx => ?_⟩
    rcases List.mem_cons.1 hx with hx | hx
    · exact hf _ c r x hx.symm
    · exact h.log c r x hx

theorem Fits.ended {rest : List ℕ} {uptodate : Bool} (h : Fits d q) (hq : q.current = c :: rest) :
    Fits d (q.ended c rest uptodate) := by
  have hnodup := List.nodup_cons.1 (hq ▸ h.nodup)
  refine h.congr ?_ (fun s hs hshort => ?_) fun c r x hx => ?_
  · rw [hq]
    exact List.sublist_cons_self c rest
  · show Short (update q.request c _ s)
    rw [update_of_ne fun hsc : s = c => hnodup.1 (hsc ▸ hs)]
    exact hshort
  · rcases List.mem_cons.1 hx with hx | hx
    · cases hx
    · exact hx

theorem leaves_read_current : Leaves (Fits d) read_current := fun _ h => h.touch

theorem leaves_write_current {f : Request → Request} (hf : ∀ r, Short r → Short (f r)) :
    Leaves (Fits d) (write_current f) := fun _ h => (h.store fun hq => hf _ (h.current hq)).touch

theorem leaves_note {f : ℕ → Note} (hf : ∀ s c r x, f s ≠ .command c r x) : Leaves (Fits d) (note f) :=
  fun _ h => h.note fun s c r x hx => absurd hx (hf s c r x)

theorem leaves_note_data {buffer : BitVec 32} : Leaves (Fits d) (note fun c => .data c buffer) :=
  leaves_note fun _ _ _ _ h => by cases h

theorem leaves_count_error : Leaves (Fits d) count_error :=
  Leaves.bind (leaves_write_current fun _ h => h.congr rfl rfl) fun _ =>
    Leaves.bind (leaves_note fun _ _ _ _ h => nomatch h) fun _ => Leaves.look fun _ _ => Leaves.pure _

theorem leaves_end_request (uptodate : Bool) : Leaves (Fits d) (end_request uptodate) := by
  refine Leaves.bind leaves_read_current fun _ q h => ?_
  rw [wp_bind, wp_get]
  split
  · exact h
  · rename_i hq
    exact h.ended hq

theorem leaves_queue {α : Type} {a : QueueM α} (h : Leaves (Fits d) a) : Leaves (AllFit d) (queue a) := by
  intro k hk
  rw [wp_queue]
  exact wp_mono (h _ hk.2) (fun _ _ hq => ⟨hk.1, hq⟩) fun _ _ hq => ⟨hk.1, hq⟩

theorem leaves_win_result : Leaves (AllFit d) win_result := fun _ h => h

theorem leaves_bad_rw_intr : Leaves (AllFit d) bad_rw_intr :=
  Leaves.bind (leaves_queue leaves_count_error) fun _ =>
    Leaves.bind (Leaves.ite (fun _ => leaves_queue (leaves_end_request _)) fun _ => Leaves.pure _) fun _ =>
      Leaves.bind (leaves_queue leaves_read_current) fun _ =>
        Leaves.ite (fun _ => Leaves.modify fun _ h => h) fun _ => Leaves.pure _

/-- A command is given for the current request. -/
theorem hd_out_fits {a : Handler} (h : AllFit d k)
    (hx : x.cmd = .read ∨ x.cmd = .write → Located d k.CURRENT x) :
    wp (hd_out x a) (fun _ => AllFit d) (fun _ => AllFit d) k := by
  rw [hd_out, wp_ite]
  refine ⟨fun _ => h, fun _ => ?_⟩
  rw [wp_bind, controller_ready, wp_bind, wp_get, wp_bind, wp_modify, wp_pure, wp_ite]
  refine ⟨fun _ => ?_, fun _ => h⟩
  rw [wp_bind, wp_modify, wp_bind, wp_get, wp_queue, note, wp_modify]
  refine ⟨h.1, h.2.note fun s c r x' hx' hcmd => ?_⟩
  cases hx'
  exact hx hcmd

theorem request_loop_fits (hg : Geometry d) (n : ℕ) : Leaves (AllFit d) (request_loop n) := by
  induction n with
  | zero => exact Leaves.throw _
  | succ n ih =>
    rintro k ⟨rfl, hfit⟩
    rw [request_loop, wp_bind, wp_get]
    split
    · exact ⟨rfl, hfit⟩
    · rename_i c rest hcurrent
      have hr : Short (k.request c) := hfit.short c (hcurrent ▸ List.mem_cons_self)
      rw [wp_bind, wp_queue, wp_read_current hcurrent]
      have hk' : AllFit k.disks { k with toRequests := k.touch } := ⟨rfl, hfit.touch⟩
      have hCURRENT : k.touch.CURRENT = k.request c :=
        CURRENT_cons (show k.touch.current = c :: rest from hcurrent)
      rw [wp_ite]
      refine ⟨fun _ => hk', fun _ => ?_⟩
      rw [wp_ite]
      refine ⟨fun _ => hk', fun _ => ?_⟩
      rw [wp_ite]
      refine ⟨fun _ => Leaves.bind (leaves_queue (leaves_end_request _)) (fun _ => ih) _ hk', fun hin => ?_⟩
      rw [Bool.not_eq_true] at hin
      have hlocated : ∀ cmd, Located k.disks (k.request c) ⟨_, _, _, _, _, cmd⟩ := fun cmd => located hg hr hin
      rw [wp_bind, Drive.locate, wp_ite]
      refine ⟨fun _ => hk', fun _ => ?_⟩
      rw [wp_pure]
      dsimp only
      rw [wp_ite]
      refine ⟨fun _ => ?_, fun _ => ?_⟩
      · rw [wp_bind, wp_modify, reset_hd, wp_bind, wp_get]
        exact hd_out_fits hk' fun h => by rcases h with h | h <;> cases h
      rw [wp_ite]
      refine ⟨fun _ => ?_, fun _ => ?_⟩
      · rw [wp_bind, wp_modify]
        exact hd_out_fits hk' fun h => by rcases h with h | h <;> cases h
      split
      · rw [wp_bind]
        refine wp_mono (hd_out_fits hk' fun _ => hCURRENT ▸ hlocated .write) (fun _ k₁ hk₁ => ?_) fun _ _ h => h
        rw [wp_bind, wait_drq, wp_bind, wp_get, wp_bind, wp_modify, wp_pure, wp_ite]
        refine ⟨fun _ => leaves_queue leaves_note_data _ hk₁, fun _ => ?_⟩
        exact Leaves.bind leaves_bad_rw_intr (fun _ => ih) _ hk₁
      · exact hd_out_fits hk' fun _ => hCURRENT ▸ hlocated .read
      · exact hk'

theorem do_hd_request_fits (hg : Geometry d) : Leaves (AllFit d) do_hd_request :=
  Leaves.look fun _ _ => request_loop_fits hg _

theorem error_fits (hg : Geometry d) : Leaves (AllFit d) (bad_rw_intr >>= fun _ => do_hd_request) :=
  Leaves.bind leaves_bad_rw_intr fun _ => do_hd_request_fits hg

theorem Short.one_less (h : Short r) : (r.nr_sectors - 1).toNat = r.nr_sectors.toNat - 1 := by
  rw [BitVec.toNat_sub_of_le (by rw [BitVec.le_def]; exact h.left)]
  rfl

theorem Short.one_less_pos (_ : Short r) (hn : r.nr_sectors - 1 ≠ 0) : (r.nr_sectors - 1).toNat ≠ 0 :=
  fun h => hn (BitVec.eq_of_toNat_eq h)

/-- One sector less. -/
theorem Short.next {r' : Request} (h : Short r) (hn : r.nr_sectors - 1 ≠ 0)
    (hsector : r'.sector = r.sector + 1) (hnr : r'.nr_sectors = r.nr_sectors - 1) : Short r' := by
  have hone := h.one_less
  have hpos := h.one_less_pos hn
  obtain ⟨h1, h2, h3⟩ := h
  have hadd : (r.sector + 1).toNat = r.sector.toNat + 1 := by
    rw [BitVec.toNat_add]
    show (r.sector.toNat + 1) % 2 ^ 32 = _
    omega
  refine ⟨?_, ?_, ?_⟩
  · rw [hnr]
    omega
  · rw [hnr]
    omega
  · rw [hsector, hnr, hadd]
    omega

theorem Short.fewer {r' : Request} (h : Short r) (hn : r.nr_sectors - 1 ≠ 0) (hsector : r'.sector = r.sector)
    (hnr : r'.nr_sectors = r.nr_sectors - 1) : Short r' := by
  have hone := h.one_less
  have hpos := h.one_less_pos hn
  obtain ⟨h1, h2, h3⟩ := h
  refine ⟨?_, ?_, ?_⟩
  · rw [hnr]
    omega
  · rw [hnr]
    omega
  · rw [hsector, hnr]
    omega

/-- The request in service is ended, however it was changed before. -/
theorem Fits.ended_put {f : Request → Request} {rest : List ℕ} {uptodate : Bool} (h : Fits d q)
    (hq : q.current = c :: rest) : Fits d ((q.put c f).touch.ended c rest uptodate) := by
  have hrequest : ((q.put c f).touch.ended c rest uptodate).request =
      update q.request c { f (q.request c) with dev := -1 } := by
    show update (update q.request c _) c _ = _
    rw [update_idem]
    show update q.request c { (update q.request c (f (q.request c)) c) with dev := -1 } = _
    rw [update_self]
  have hnodup := List.nodup_cons.1 (hq ▸ h.nodup)
  refine h.congr ?_ (fun s hs hshort => ?_) fun c r x hx => ?_
  · rw [hq]
    exact List.sublist_cons_self c rest
  · rw [hrequest, update_of_ne fun hsc : s = c => hnodup.1 (hsc ▸ hs)]
    exact hshort
  · rcases List.mem_cons.1 hx with hx | hx
    · cases hx
    · exact hx

/-- The last sector of the request in service has been counted: it is ended. -/
theorem ended_fits {f : Request → Request} (hg : Geometry d) (hk : k.disks = d) (h : Fits d q) :
    wp (queue (end_request true) >>= fun _ => do_hd_request) (fun _ => AllFit d) (fun _ => AllFit d)
      { k with toRequests := (q.store f).touch } := by
  rw [wp_bind, wp_queue]
  cases hq : q.current with
  | nil =>
    have hcurrent : (q.store f).touch.current = [] := (store_current q f).trans hq
    rw [wp_end_request_nil hcurrent]
    exact ⟨hk, (h.store fun hne => absurd hq hne).touch.touch⟩
  | cons c rest =>
    have hcurrent : (q.put c f).current = c :: rest := hq
    rw [store_touch hq, wp_end_request hcurrent]
    exact do_hd_request_fits hg _ ⟨hk, h.ended_put hq⟩

theorem read_intr_fits (hg : Geometry d) : Leaves (AllFit d) read_intr := by
  refine Leaves.bind leaves_win_result fun bad => Leaves.ite (fun _ => error_fits hg) fun _ => ?_
  rintro k ⟨hk, hfit⟩
  rw [wp_bind, wp_queue, read_current, wp_bind, wp_get, wp_bind, wp_modify, wp_pure, wp_bind, wp_queue, note,
    wp_modify, wp_bind, wp_queue, note, wp_modify, wp_bind, wp_queue, write_current, wp_modify, wp_ite]
  set q := (k.touch.note fun c => .data c k.CURRENT.buffer).note .sector with hq
  have hfit' : Fits d q := by
    refine (hfit.touch.note fun _ _ _ _ h => ?_).note fun _ _ _ _ h => ?_
    · cases h
    · cases h
  have hCURRENT : q.CURRENT = k.CURRENT := by
    rw [hq, note_CURRENT, note_CURRENT]
    rfl
  refine ⟨fun hn => ?_, fun _ => ended_fits hg hk hfit'⟩
  rw [wp_modify]
  refine ⟨hk, (hfit'.store fun hne => ?_).touch⟩
  refine (hfit'.current hne).next (hCURRENT ▸ hn) ?_ ?_
  · rw [hCURRENT]
  · rw [hCURRENT]

theorem write_intr_fits (hg : Geometry d) : Leaves (AllFit d) write_intr := by
  refine Leaves.bind leaves_win_result fun bad => Leaves.ite (fun _ => error_fits hg) fun _ => ?_
  rintro k ⟨hk, hfit⟩
  rw [wp_bind, wp_queue, read_current, wp_bind, wp_get, wp_bind, wp_modify, wp_pure, wp_bind, wp_queue, note,
    wp_modify, wp_bind, wp_queue, write_current, wp_modify, wp_ite]
  set q := k.touch.note .sector with hq
  have hfit' : Fits d q := hfit.touch.note fun _ _ _ _ h => by cases h
  have hCURRENT : q.CURRENT = k.CURRENT := note_CURRENT _ _
  refine ⟨fun hn => ?_, fun _ => ended_fits hg hk hfit'⟩
  rw [wp_bind, wp_queue, write_current, wp_modify, wp_bind, wp_modify, wp_queue, note, wp_modify]
  set f : Request → Request := fun r => { r with nr_sectors := r.nr_sectors - 1 } with hf
  have hfirst : Fits d (q.store f).touch := by
    refine (hfit'.store fun hne => ?_).touch
    exact (hfit'.current hne).fewer (hCURRENT ▸ hn) rfl rfl
  have hcurrent : (q.store f).touch.current = q.current := store_current q f
  have hf' : (q.store f).touch.CURRENT = f q.CURRENT := store_CURRENT q f
  refine ⟨hk, (hfirst.store fun hne => ?_).touch.note fun _ _ _ _ h => by cases h⟩
  rw [hf', hf]
  rw [hcurrent] at hne
  exact (hfit'.current hne).next (hCURRENT ▸ hn) rfl rfl

theorem recal_intr_fits (hg : Geometry d) : Leaves (AllFit d) recal_intr :=
  Leaves.bind leaves_win_result fun _ => Leaves.bind
    (Leaves.ite (fun _ => leaves_bad_rw_intr) fun _ => Leaves.pure _) fun _ => do_hd_request_fits hg

theorem hd_interrupt_fits (hg : Geometry d) : Leaves (AllFit d) hd_interrupt := by
  intro k hk
  rw [hd_interrupt, wp_bind, wp_get, wp_bind, wp_modify]
  have hk' : AllFit d { k with do_hd := none } := hk
  split
  · exact hk'
  · exact read_intr_fits hg _ hk'
  · exact write_intr_fits hg _ hk'
  · exact recal_intr_fits hg _ hk'

theorem add_request_fits (hg : Geometry d) (hk : AllFit d k) (hslot : c ∉ k.current) (hr : Short r) :
    wp (add_request c r) (fun _ => AllFit d) (fun _ => AllFit d) k := by
  have hrequest : (k.filled c r).request = update k.request c r := rfl
  have hshort : ∀ s ∈ c :: k.current, Short ((k.filled c r).request s) := by
    intro s hs
    rw [hrequest]
    by_cases hsc : s = c
    · rw [hsc, update_self]
      exact hr
    · rw [update_of_ne hsc]
      exact hk.2.short s ((List.mem_cons.1 hs).resolve_left hsc)
  have hnodup : (c :: k.current).Nodup := List.nodup_cons.2 ⟨hslot, hk.2.nodup⟩
  have hlog : ∀ c' r' x, Note.command c' r' x ∈ (k.filled c r).log → x.cmd = .read ∨ x.cmd = .write →
      Located d r' x := by
    intro c' r' x hx
    rcases List.mem_cons.1 hx with hx | hx
    · cases hx
    · exact hk.2.log c' r' x hx
  rw [add_request, wp_bind, wp_get, wp_bind, wp_queue, wp_modify]
  split
  · rename_i hcurrent
    rw [wp_bind, wp_queue, wp_modify]
    refine do_hd_request_fits hg _ ⟨hk.1, ?_, fun s hs => hshort s ?_, hlog⟩
    · exact List.nodup_cons.2 ⟨List.not_mem_nil, List.nodup_nil⟩
    · rw [List.mem_singleton.1 hs]
      exact List.mem_cons_self
  · rw [wp_queue, wp_modify]
    have hperm : ((k.filled c r).queued c).current.Perm (c :: k.current) := place_perm _ c k.current
    exact ⟨hk.1, hperm.nodup_iff.2 hnodup, fun s hs => hshort s (hperm.mem_iff.1 hs), hlog⟩

/-! ### The states that are reached -/

/-- Requests are for sectors below 2^30. -/
def Below (e : Event × Answers) : Prop :=
  match e.1 with
  | .request _ r => r.sector.toNat < 2 ^ 30
  | .interrupt => True

/-- The states that the driver reaches with these disks and no requests at first. -/
abbrev Running (d : Disks) : Hd → Prop :=
  Reach (fun k => k.disks = d ∧ k.current = [] ∧ k.log = []) step fun k e => CanHappen k e ∧ Below e

theorem allFit_of_running (hg : Geometry d) (h : Running d k) : AllFit d k := by
  refine Reach.invariant (I := AllFit d) (fun k hk => ⟨hk.1, ?_, ?_, ?_⟩) (fun k e k' hk hcan hstep => ?_) h
  · rw [hk.2.1]
    exact List.nodup_nil
  · rw [hk.2.1]
    exact fun s hs => absurd hs List.not_mem_nil
  · rw [hk.2.2]
    exact fun c r x hx => absurd hx List.not_mem_nil
  · obtain ⟨e, a⟩ := e
    rw [step] at hstep
    have hrun : wp e.run (fun _ => AllFit d) (fun _ => AllFit d) { k with answers := a } := by
      have hk' : AllFit d { k with answers := a } := hk
      cases e with
      | request c r =>
        have hmade : Made k c r := hcan.1
        refine add_request_fits hg hk' hmade.slot ⟨?_, ?_, ?_⟩
        · rw [hmade.nr_sectors]
          decide
        · rw [hmade.nr_sectors]
          decide
        · have hlt : r.sector.toNat < 2 ^ 30 := hcan.2
          rw [hmade.nr_sectors]
          show r.sector.toNat + 2 < 2 ^ 30 + 2
          omega
      | interrupt => exact hd_interrupt_fits hg _ hk'
    rw [wp] at hrun
    dsimp only at hstep
    split at hstep
    · rename_i heq
      cases hstep
      rw [heq] at hrun
      exact hrun
    · cases hstep

/-- **Disk requests stay inside their partition**: every command to read or write that the driver gives is
for the block of its request, and all of its sectors lie in the partition. -/
theorem commands_in_partition (hg : Geometry d) (h : Running d k) (hx : Note.command c r x ∈ k.log)
    (hcmd : x.cmd = .read ∨ x.cmd = .write) : Located d r x :=
  (allFit_of_running hg h).2.log c r x hx hcmd

/-- One drive with 16 heads and 63 sectors, and a partition of 1000 sectors behind the first sector. -/
def oneDisk : Disks := ⟨1, fun _ => ⟨16, 63, 1000⟩, fun _ => ⟨1, 1000⟩⟩

def allWell : Answers := ⟨0x50, fun _ => true, fun _ => true⟩

def idle : Hd where
  request _ := ⟨-1, .read, 0, 0, 0, 0, none⟩
  current := []
  bh _ := ⟨false, false⟩
  null := ⟨0, .read, 0, 0, 0, 0, none⟩
  touched := []
  log := []
  recalibrate := false
  reset := false
  do_hd := none
  disks := oneDisk
  answers := allWell

/-- A read of block 499, the last of the partition. -/
def lastBlock : Request := ⟨0x301, .read, 0, 998, 2, 0x10000, some 0⟩

def reading : Hd := (step idle (.request 0 lastBlock, allWell)).getD idle

theorem oneDisk_geometry : Geometry oneDisk := by
  refine ⟨fun i _ => ?_, fun i _ => ?_, fun i => ?_⟩
  · show 1 ≤ (63 : BitVec 32).toNat
    decide
  · show 1 ≤ (16 : BitVec 32).toNat ∧ (16 : BitVec 32).toNat ≤ 16
    decide
  · show (1 : BitVec 32).toNat + (1000 : BitVec 32).toNat < 2 ^ 31
    decide

theorem lastBlock_made : Made idle 0 lastBlock :=
  ⟨List.not_mem_nil, by decide, .inl rfl, rfl, rfl, 0, rfl, rfl⟩

theorem lastBlock_below : Below (.request 0 lastBlock, allWell) :=
  show lastBlock.sector.toNat < 2 ^ 30 by decide

theorem running_reading : Running oneDisk reading :=
  .step (.request 0 lastBlock, allWell) (.start ⟨rfl, rfl, rfl⟩) ⟨lastBlock_made, lastBlock_below⟩ rfl

theorem last_block_in_partition : Located oneDisk lastBlock ⟨0, 2, 55, 15, 0, .read⟩ :=
  commands_in_partition (c := 0) oneDisk_geometry running_reading List.mem_cons_self (.inl rfl)

end OldLinux.Disk
