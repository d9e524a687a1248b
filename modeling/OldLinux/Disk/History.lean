import OldLinux.Disk.Machine
import Mathlib.Data.List.Infix

/-!
# What has happened to a request

What the log says about the request in a slot since it was made: which of its sectors were transferred, and
how many errors there were since.  A note is right if it is what the driver should do at that point.
-/

namespace OldLinux.Disk

open Function

variable {c s : ℕ} {n : Note} {l : List Note} {d : Disks} {q : Requests} {r r0 : Request} {rest : List ℕ}

/-- The request that was made last in the slot. -/
def asked (c : ℕ) : List Note → Option Request
  | [] => none
  | .made s r :: l => if s = c then some r else asked c l
  | _ :: l => asked c l

/-- How many of its sectors were transferred. -/
def sectorsDone (c : ℕ) : List Note → ℕ
  | [] => 0
  | .made s _ :: l => if s = c then 0 else sectorsDone c l
  | .sector s :: l => if s = c then sectorsDone c l + 1 else sectorsDone c l
  | _ :: l => sectorsDone c l

/-- Its errors since the last of these. -/
def failures (c : ℕ) : List Note → ℕ
  | [] => 0
  | .made s _ :: l => if s = c then 0 else failures c l
  | .sector s :: l => if s = c then 0 else failures c l
  | .error s :: l => if s = c then failures c l + 1 else failures c l
  | _ :: l => failures c l

/-- A command was given for the request after its last error. -/
def Answered (c : ℕ) : List Note → Prop
  | [] => False
  | .command s _ _ :: l => s = c ∨ Answered c l
  | .error s :: l => s ≠ c ∧ Answered c l
  | _ :: l => Answered c l

/-- The request is inside its partition. -/
def Inside (d : Disks) (r : Request) : Prop :=
  MINOR r.dev < 5 * d.NR_HD ∧ (r.sector.toNat : ℤ) + 2 ≤ (d.hd (MINOR r.dev)).nr_sects.toInt

instance (d : Disks) (r : Request) : Decidable (Inside d r) := inferInstanceAs (Decidable (_ ∧ _))

/-- What the driver should do, after what has happened before. -/
def Right (d : Disks) : Note → List Note → Prop
  | .command c r x, l => x.cmd = .read ∨ x.cmd = .write → ∀ r0, asked c l = some r0 →
      r.sector = r0.sector + BitVec.ofNat 32 (sectorsDone c l) ∧ x.nsect.toNat + sectorsDone c l = 2
  | .data c buffer, l =>
    ∀ r0, asked c l = some r0 → buffer = r0.buffer + 512 * BitVec.ofNat 32 (sectorsDone c l)
  | .sector c, l => sectorsDone c l < 2
  | .ended c uptodate, l => ∀ r0, asked c l = some r0 → Inside d r0 →
      if uptodate then sectorsDone c l = 2 else 7 ≤ failures c l
  | .made _ _, _ => True
  | .error _, _ => True

def AllRight (d : Disks) (l : List Note) : Prop := ∀ n l', n :: l' <:+ l → Right d n l'

theorem AllRight.cons (h : AllRight d l) (hn : Right d n l) : AllRight d (n :: l) := by
  intro n' l' hsuffix
  rcases List.suffix_cons_iff.1 hsuffix with heq | hsuffix
  · cases heq
    exact hn
  · exact h n' l' hsuffix

def Note.slot : Note → ℕ
  | .made c _ => c
  | .command c _ _ => c
  | .data c _ => c
  | .sector c => c
  | .error c => c
  | .ended c _ => c

/-! ### Notes about other slots -/

theorem asked_other (h : n.slot ≠ s) : asked s (n :: l) = asked s l := by
  cases n with
  | made c r => exact if_neg h
  | command c r x => rfl
  | data c buffer => rfl
  | sector c => rfl
  | error c => rfl
  | ended c uptodate => rfl

theorem sectorsDone_other (h : n.slot ≠ s) : sectorsDone s (n :: l) = sectorsDone s l := by
  cases n with
  | made c r => exact if_neg h
  | command c r x => rfl
  | data c buffer => rfl
  | sector c => exact if_neg h
  | error c => rfl
  | ended c uptodate => rfl

theorem failures_other (h : n.slot ≠ s) : failures s (n :: l) = failures s l := by
  cases n with
  | made c r => exact if_neg h
  | command c r x => rfl
  | data c buffer => rfl
  | sector c => exact if_neg h
  | error c => exact if_neg h
  | ended c uptodate => rfl

/-! ### The requests of a queue -/

/-- The request in service is what was asked for, less what was transferred.  A successful sector of a
write does not make the driver forget the errors before it. -/
structure Tracks (l : List Note) (c : ℕ) (r r0 : Request) : Prop where
  asked : asked c l = some r0
  dev : r.dev = r0.dev
  sector : r.sector = r0.sector + BitVec.ofNat 32 (sectorsDone c l)
  nr_sectors : r.nr_sectors.toNat + sectorsDone c l = 2
  buffer : r.buffer = r0.buffer + 512 * BitVec.ofNat 32 (sectorsDone c l)
  some : sectorsDone c l < 2
  counted : (failures c l : ℤ) ≤ r.errors
  most : r.errors ≤ 6
  exact : sectorsDone c l = 0 ∨ r.cmd = .read → r.errors = failures c l

/-- The request has not been in service. -/
structure Fresh (l : List Note) (c : ℕ) (r : Request) : Prop where
  asked : asked c l = some r
  done : sectorsDone c l = 0
  failures : failures c l = 0
  errors : r.errors = 0
  nr_sectors : r.nr_sectors = 2

theorem Fresh.tracks (h : Fresh l c r) : Tracks l c r r := by
  obtain ⟨h1, h2, h3, h4, h5⟩ := h
  refine ⟨h1, rfl, ?_, ?_, ?_, ?_, ?_, ?_, fun _ => ?_⟩
  · rw [h2]
    exact (BitVec.add_zero _).symm
  · rw [h2, h5]
    rfl
  · rw [h2]
    show r.buffer = r.buffer + 512 * 0#32
    rw [BitVec.mul_zero, BitVec.add_zero]
  · rw [h2]
    exact Nat.zero_lt_two
  · rw [h3, h4]
    exact le_refl _
  · rw [h4]
    exact Int.le_of_lt (by decide)
  · rw [h3, h4]
    rfl

theorem Fresh.other (h : Fresh l s r) (hn : n.slot ≠ s) : Fresh (n :: l) s r :=
  ⟨(asked_other hn).trans h.asked, (sectorsDone_other hn).trans h.done, (failures_other hn).trans h.failures,
    h.errors, h.nr_sectors⟩

/-- A request that the driver accepts: it is for a hard disk, and its buffer is locked. -/
structure Accepted (q : Requests) (s : ℕ) : Prop where
  major : Buffers.Kernel.major (q.request s).dev = 3
  cmd : (q.request s).cmd = .read ∨ (q.request s).cmd = .write
  bh : ∃ b, (q.request s).bh = some b ∧ (q.bh b).b_lock = true

/-- The queue, but for how far the request in service is. -/
structure Behind (d : Disks) (q : Requests) (c : ℕ) (rest : List ℕ) : Prop where
  nodup : (c :: rest).Nodup
  right : AllRight d q.log
  fresh : ∀ s ∈ rest, Fresh q.log s (q.request s)
  accepted : ∀ s ∈ c :: rest, Accepted q s
  once : ∀ s ∈ c :: rest, ∀ s' ∈ c :: rest, (q.request s).bh = (q.request s').bh → s = s'

structure Kept (d : Disks) (q : Requests) : Prop where
  right : AllRight d q.log
  behind : ∀ c rest, q.current = c :: rest → Behind d q c rest
  head : ∀ c rest, q.current = c :: rest → ∃ r0, Tracks q.log c (q.request c) r0

theorem Accepted.congr {q' : Requests} (h : Accepted q s) (hdev : (q'.request s).dev = (q.request s).dev)
    (hcmd : (q'.request s).cmd = (q.request s).cmd) (hbh : (q'.request s).bh = (q.request s).bh)
    (hlock : ∀ b, (q.request s).bh = some b → q'.bh b = q.bh b) : Accepted q' s := by
  obtain ⟨h1, h2, b, hb, hlocked⟩ := h
  refine ⟨hdev ▸ h1, hcmd ▸ h2, b, hbh.trans hb, ?_⟩
  rw [hlock b hb]
  exact hlocked

/-- The request in service goes on; there is one more note about it. -/
theorem Behind.change {q' : Requests} (h : Behind d q c rest) (hn : n.slot = c) (hright : Right d n q.log)
    (hlog : q'.log = n :: q.log) (hbh : q'.bh = q.bh) (hother : ∀ s ≠ c, q'.request s = q.request s)
    (hdev : (q'.request c).dev = (q.request c).dev) (hcmd : (q'.request c).cmd = (q.request c).cmd)
    (hb : (q'.request c).bh = (q.request c).bh) : Behind d q' c rest := by
  have hnodup := List.nodup_cons.1 h.nodup
  have hsame : ∀ s, (q'.request s).dev = (q.request s).dev ∧ (q'.request s).cmd = (q.request s).cmd ∧
      (q'.request s).bh = (q.request s).bh := by
    intro s
    by_cases hsc : s = c
    · rw [hsc]
      exact ⟨hdev, hcmd, hb⟩
    · rw [hother s hsc]
      exact ⟨rfl, rfl, rfl⟩
  refine ⟨h.nodup, ?_, fun s hs => ?_, fun s hs => ?_, fun s hs s' hs' heq => ?_⟩
  · rw [hlog]
    exact h.right.cons hright
  · have hne : s ≠ c := fun hsc => hnodup.1 (hsc ▸ hs)
    rw [hlog, hother s hne]
    exact (h.fresh s hs).other (hn ▸ hne.symm)
  · exact (h.accepted s hs).congr (hsame s).1 (hsame s).2.1 (hsame s).2.2 fun b _ => by rw [hbh]
  · rw [(hsame s).2.2, (hsame s').2.2] at heq
    exact h.once s hs s' hs' heq

/-- The request in service is ended, and the next one is. -/
theorem Behind.ended {uptodate : Bool} (h : Behind d q c rest)
    (hright : Right d (.ended c uptodate) q.log) : Kept d (q.ended c rest uptodate) := by
  have hnodup := List.nodup_cons.1 h.nodup
  have hr : AllRight d (q.ended c rest uptodate).log := h.right.cons hright
  have hrequest : ∀ s ∈ rest, (q.ended c rest uptodate).request s = q.request s := fun s hs =>
    update_of_ne (fun hsc : s = c => hnodup.1 (hsc ▸ hs)) _ _
  have hfresh : ∀ s ∈ rest, Fresh (q.ended c rest uptodate).log s ((q.ended c rest uptodate).request s) := by
    intro s hs
    rw [hrequest s hs]
    exact (h.fresh s hs).other fun hcs : c = s => hnodup.1 (hcs ▸ hs)
  have haccepted : ∀ s ∈ rest, Accepted (q.ended c rest uptodate) s := by
    intro s hs
    have hq := hrequest s hs
    have hne : (q.request s).bh ≠ (q.request c).bh := by
      intro heq
      have hsc := h.once s (List.mem_cons_of_mem c hs) c List.mem_cons_self heq
      exact hnodup.1 (hsc ▸ hs)
    refine (h.accepted s (List.mem_cons_of_mem c hs)).congr (by rw [hq]) (by rw [hq]) (by rw [hq]) ?_
    intro b hb
    rw [Requests.ended]
    cases hc : (q.request c).bh with
    | none => rfl
    | some b' =>
      refine update_of_ne (fun hbb => hne ?_) _ _
      rw [hb, hc, hbb]
  refine ⟨hr, ?_, ?_⟩
  · intro c' rest' hcurrent
    have hcurrent' : rest = c' :: rest' := hcurrent
    subst hcurrent'
    refine ⟨hnodup.2, hr, fun s hs => hfresh s (List.mem_cons_of_mem c' hs), haccepted, ?_⟩
    intro s hs s' hs' heq
    rw [hrequest s hs, hrequest s' hs'] at heq
    exact h.once s (List.mem_cons_of_mem c hs) s' (List.mem_cons_of_mem c hs') heq
  · intro c' rest' hcurrent
    have hcurrent' : rest = c' :: rest' := hcurrent
    exact ⟨_, (hfresh c' (hcurrent' ▸ List.mem_cons_self)).tracks⟩

theorem Behind.touch (h : Behind d q c rest) : Behind d q.touch c rest :=
  ⟨h.nodup, h.right, h.fresh, fun s hs => (h.accepted s hs).congr rfl rfl rfl fun _ _ => rfl, h.once⟩

theorem Kept.touch (h : Kept d q) : Kept d q.touch :=
  ⟨h.right, fun c rest hq => (h.behind c rest hq).touch, h.head⟩

/-- The request in service is still in service after a change. -/
theorem Behind.kept (h : Behind d q c rest) (hq : q.current = c :: rest)
    (htracks : Tracks q.log c (q.request c) r0) : Kept d q := by
  refine ⟨h.right, fun c' rest' hq' => ?_, fun c' rest' hq' => ?_⟩
  · obtain ⟨rfl, rfl⟩ := List.cons.inj (hq.symm.trans hq')
    exact h
  · obtain ⟨rfl, rfl⟩ := List.cons.inj (hq.symm.trans hq')
    exact ⟨r0, htracks⟩

/-! ### What the driver does with the request in service -/

theorem Tracks.command {x : Command} {r' : Request} (h : Tracks l c r r0) :
    Tracks (.command c r' x :: l) c r r0 :=
  ⟨h.asked, h.dev, h.sector, h.nr_sectors, h.buffer, h.some, h.counted, h.most, h.exact⟩

theorem Tracks.data {buffer : BitVec 32} (h : Tracks l c r r0) : Tracks (.data c buffer :: l) c r r0 :=
  ⟨h.asked, h.dev, h.sector, h.nr_sectors, h.buffer, h.some, h.counted, h.most, h.exact⟩

theorem failures_error : failures c (.error c :: l) = failures c l + 1 := if_pos rfl

theorem sectorsDone_sector : sectorsDone c (.sector c :: l) = sectorsDone c l + 1 := if_pos rfl

theorem failures_sector : failures c (.sector c :: l) = 0 := if_pos rfl

/-- One error more. -/
theorem Tracks.error {r' : Request} (h : Tracks l c r r0) (hr : r' = { r with errors := r.errors + 1 })
    (he : r.errors + 1 < 7) : Tracks (.error c :: l) c r' r0 := by
  subst hr
  refine ⟨h.asked, h.dev, h.sector, h.nr_sectors, h.buffer, h.some, ?_, ?_, fun hexact => ?_⟩
  · have hcounted := h.counted
    rw [failures_error]
    push_cast
    show _ ≤ r.errors + 1
    omega
  · show r.errors + 1 ≤ 6
    omega
  · have herrors := h.exact hexact
    rw [failures_error]
    push_cast
    show r.errors + 1 = _
    omega

/-- One sector more, but not the last.  A read forgets its errors, a write does not. -/
theorem Tracks.next {r' : Request} (h : Tracks l c r r0) (hnr : r.nr_sectors - 1 ≠ 0) (hdev : r'.dev = r.dev)
    (hcmd : r'.cmd = r.cmd) (hsector : r'.sector = r.sector + 1) (hbuffer : r'.buffer = r.buffer + 512)
    (hleft : r'.nr_sectors = r.nr_sectors - 1)
    (herrors : r'.errors = 0 ∨ r.cmd ≠ .read ∧ r'.errors = r.errors) : Tracks (.sector c :: l) c r' r0 := by
  have hsome := h.some
  have hle := h.nr_sectors
  have hone : (r.nr_sectors - 1).toNat = r.nr_sectors.toNat - 1 := by
    rw [BitVec.toNat_sub_of_le]
    · rfl
    · rw [BitVec.le_def]
      show 1 ≤ _
      omega
  have hpos : (r.nr_sectors - 1).toNat ≠ 0 := fun heq => hnr (BitVec.eq_of_toNat_eq heq)
  have hcounted := h.counted
  have hmost := h.most
  have hsucc : BitVec.ofNat 32 (sectorsDone c (.sector c :: l)) = BitVec.ofNat 32 (sectorsDone c l) + 1 := by
    rw [sectorsDone_sector, BitVec.ofNat_add]
    rfl
  refine ⟨h.asked, hdev.trans h.dev, ?_, ?_, ?_, ?_, ?_, ?_, ?_⟩
  · rw [hsector, hsucc, h.sector, BitVec.add_assoc]
  · rw [hleft, hone, sectorsDone_sector]
    omega
  · rw [hbuffer, hsucc, h.buffer, BitVec.mul_add, BitVec.add_assoc]
    rfl
  · rw [sectorsDone_sector]
    omega
  · rw [failures_sector]
    rcases herrors with herrors | ⟨-, herrors⟩
    · rw [herrors]
      push_cast
    · rw [herrors]
      push_cast
      omega
  · rcases herrors with herrors | ⟨-, herrors⟩ <;> rw [herrors] <;> omega
  · rw [sectorsDone_sector, failures_sector, hcmd]
    rintro (hzero | hread)
    · omega
    · exact herrors.resolve_right fun hwrite => hwrite.1 hread

/-- The last sector. -/
theorem Tracks.last (h : Tracks l c r r0) (hnr : r.nr_sectors - 1 = 0) :
    sectorsDone c (.sector c :: l) = 2 := by
  have hle := h.nr_sectors
  have hsome := h.some
  have hone : (r.nr_sectors - 1).toNat = r.nr_sectors.toNat - 1 := by
    rw [BitVec.toNat_sub_of_le]
    · rfl
    · rw [BitVec.le_def]
      show 1 ≤ _
      omega
  rw [hnr] at hone
  have hzero : (0 : BitVec 32).toNat = 0 := rfl
  rw [sectorsDone_sector]
  omega

end OldLinux.Disk
