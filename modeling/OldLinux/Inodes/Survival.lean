import OldLinux.Inodes.Carries
import OldLinux.Inodes.Turns

/-!
# Inodes survive eviction

Every step keeps the fields of an inode that has links, wherever they are: in its entry, or on the disk
when the entry has been given to another inode.
-/

namespace OldLinux.Inodes

open Function Lib
open OldLinux.Volume (Kernel SuperBlock Coherent S_ISBLK read_inode write_inode wp_read_inode wp_write_inode)

namespace Store

variable {n : ℕ} {σ τ : Store n} {P Q : Fin n} {i j e : Fin 32} {k : After} {dev nr : ℕ} {r : Volume.DInode}
variable {p : Proc} {q : Pc} {disks : ℕ → SuperBlock}

/-! ### The process goes on -/

/-- The kernel stops. -/
theorem carries_stop {sy : Fin 32 → Bool} (P : Fin n) (G : Good disks σ)
    (hsync : ∀ i, sy i = true → σ.syncing i = true) :
    Carries disks σ { σ.setTable σ.table.panic with syncing := sy } dev nr r :=
  carries_same P G (Table.panic_spec G.sound P).1 (fun _ => rfl) rfl rfl hsync rfl rfl

theorem carries_panic (P : Fin n) (G : Good disks σ) : Carries disks σ (σ.setTable σ.table.panic) dev nr r :=
  carries_stop P G fun _ => id

/-- The process goes on to `q`. -/
theorem carries_setPc {l : Fin 32} (hlinks : r.i_nlinks.toNat ≠ 0) (G : Good disks σ)
    (hsound : Table.Sound ({ σ.table with last := l }.setPc P q))
    (howns : q.owns = none) (hempty : ∀ e ∈ q.empty, e ∈ (σ.pc P).empty) (hP : ∀ i, σ.pc P ≠ .read i)
    (hkept : ∀ i k, q = .putTrunc i k → i ∈ (σ.pc P).refs ∧ (σ.inode i).disk.nlinks = 0) :
    Carries disks σ (σ.setTable ({ σ.table with last := l }.setPc P q)) dev nr r :=
  carries_goes (i := 0) (p := { σ.table.proc P with pc := q }) G hlinks hsound rfl
    ⟨fun _ _ => rfl, rfl, rfl, rfl, rfl⟩
    rfl ⟨howns, hempty⟩ hP hkept

theorem carries_getEmpty {c : Caller} (hlinks : r.i_nlinks.toNat ≠ 0) (G : Good disks σ)
    (hsound : (σ.table.getEmpty P c).Sound)
    (hP : ∀ i, σ.pc P ≠ .read i) : Carries disks σ (σ.setTable (σ.table.getEmpty P c)) dev nr r := by
  rw [Table.getEmpty] at hsound ⊢
  split at hsound
  · exact carries_setPc hlinks G hsound rfl (fun _ h => by cases h) hP fun _ _ h => by cases h
  · split at hsound
    · exact carries_setPc (l := σ.table.last) hlinks G hsound rfl (fun _ h => by cases h) hP fun _ _ h => by
        cases h
    · exact carries_panic P G

/-- One reference less, and the call is over. -/
theorem carries_drop (G : Good disks σ) (hsound : (σ.table.drop P i k).Sound)
    (hrefs : (σ.pc P).refs = i :: k.refs)
    (hempty : (σ.pc P).empty = k.refs) (hP : ∀ i, σ.pc P ≠ .read i)
    (hclean : (σ.inode i).dirt = true → (σ.inode i).dev ≠ 0 → 1 < (σ.inode i).count) :
    Carries disks σ (σ.setTable (σ.table.drop P i k)) dev nr r := by
  have hproc : (σ.setTable (σ.table.drop P i k)).table.proc =
      update σ.table.proc P { σ.table.proc P with pc := Table.After.pc k } := rfl
  have inert : Inert σ P { σ.table.proc P with pc := Table.After.pc k } := by
    refine ⟨by cases k <;> rfl, fun e he => ?_⟩
    rw [hempty]
    rwa [show (Table.After.pc k).empty = k.refs from (Table.after_refs k).2] at he
  have hinode : ∀ j, (σ.setTable (σ.table.drop P i k)).inode j =
      if j = i then { σ.inode i with count := (σ.inode i).count - 1 } else σ.inode j := Table.setCount_inode _
  refine carries_count (i := i) (c := (σ.inode i).count - 1) (m := (σ.inode i).mount) G hsound
    (inert.goes hproc)
    (reads_after hproc hP) (fun Q j k' hQ => ?_) ⟨fun j hj => ?_, rfl, rfl, rfl, rfl⟩ ?_ (fun h1 h2 => ?_)
    fun Q hQ => ?_
  · by_cases hQP : Q = P
    · rw [hQP, pc_of_proc hproc] at hQ
      cases k <;> cases hQ
    · rwa [pc_others hproc Q hQP] at hQ
  · rw [hinode, if_neg hj]
  · rw [hinode, if_pos rfl]
  · have h := hclean h1 h2
    omega
  · have hQP : Q ≠ P := by
      rintro rfl
      exact hP i hQ
    exact absurd hQ (G.not_read_of_refs hQP (by rw [hrefs]; exact List.mem_cons_self ..))

/-- `iput` from `repeat` on. -/
theorem carries_putRepeat (hlinks : r.i_nlinks.toNat ≠ 0) (G : Good disks σ)
    (hsound : (σ.table.putRepeat P i k).Sound)
    (hrefs : (σ.pc P).refs = i :: k.refs) (hempty : (σ.pc P).empty = k.refs) (hP : ∀ i, σ.pc P ≠ .read i)
    (hfree : (σ.inode i).lock = false) : Carries disks σ (σ.setTable (σ.table.putRepeat P i k)) dev nr r := by
  have hmem : i ∈ (σ.pc P).refs := by
    rw [hrefs]
    exact List.mem_cons_self ..
  have hsub : ∀ e ∈ k.refs, e ∈ (σ.pc P).empty := by
    rw [hempty]
    exact fun _ h => h
  rw [Table.putRepeat] at hsound ⊢
  split at hsound
  · rename_i hcount
    rw [if_pos hcount]
    exact carries_drop G hsound hrefs hempty hP fun _ _ => hcount
  rename_i hcount
  rw [if_neg hcount]
  split at hsound
  · rename_i hzero
    rw [if_pos hzero]
    refine carries_setPc (l := σ.table.last) hlinks G hsound rfl hsub hP fun j k' h => ?_
    cases h
    exact ⟨hmem, hzero⟩
  rename_i hzero
  rw [if_neg hzero]
  split at hsound
  · rename_i hdirt
    rw [if_pos hdirt]
    exact carries_lock (i := i) (p := { σ.table.proc P with pc := .putWrite i k }) G hsound rfl ⟨fun j hj => by
        show (σ.table.setLock i).inode j = _
        rw [Table.setLock, Table.setInode_inode, if_neg hj]
        rfl, rfl, rfl, rfl, rfl⟩
      (by
        show (σ.table.setLock i).inode i = _
        rw [Table.setLock, Table.setInode_inode, if_pos rfl]
        rfl)
      hfree hdirt rfl (fun j h => by cases h) (fun j k' h => by cases h) hsub hP
  · rename_i hdirt
    rw [if_neg hdirt]
    exact carries_drop G hsound hrefs hempty hP fun h => absurd h hdirt

theorem carries_put (hlinks : r.i_nlinks.toNat ≠ 0) (G : Good disks σ) (hsound : (σ.table.put P i k).Sound)
    (hpc : σ.pc P = .put i k) (hfree : (σ.inode i).lock = false) :
    Carries disks σ (σ.setTable (σ.table.put P i k)) dev nr r := by
  have hrefs : (σ.pc P).refs = i :: k.refs := by rw [hpc]; rfl
  have hempty : (σ.pc P).empty = k.refs := by rw [hpc]; rfl
  have hP : ∀ i, σ.pc P ≠ .read i := by
    rw [hpc]
    exact fun _ h => by cases h
  rw [Table.put] at hsound ⊢
  split at hsound
  · rename_i hzero
    rw [if_pos hzero]
    exact carries_panic P G
  rename_i hzero
  rw [if_neg hzero]
  split at hsound
  · rename_i hdev
    rw [if_pos hdev]
    exact carries_drop G hsound hrefs hempty hP fun _ h => absurd hdev h
  rename_i hdev
  rw [if_neg hdev]
  split at hsound
  · rename_i hblk
    rw [if_pos hblk]
    exact carries_setPc (l := σ.table.last) hlinks G hsound rfl (fun e h => by rw [hempty]; exact h) hP
      fun j k' h => by cases h
  · rename_i hblk
    rw [if_neg hblk]
    exact carries_putRepeat hlinks G hsound hrefs hempty hP hfree

/-- `iget` has found an entry that is not locked. -/
theorem carries_hit (G : Good disks σ) (hsound : (σ.table.hit P e i).Sound) (hempty : (σ.pc P).empty = [e])
    (hP : ∀ i, σ.pc P ≠ .read i) (hfree : (σ.inode i).lock = false) :
    Carries disks σ (σ.setTable (σ.table.hit P e i)) dev nr r := by
  obtain ⟨p, htable, howns, hsub, htrunc⟩ : ∃ p : Proc,
      σ.table.hit P e i = (σ.table.setCount i ((σ.table.inode i).count + 1)).setProc P p ∧ p.pc.owns = none ∧
        (∀ x ∈ p.pc.empty, x = e) ∧ ∀ j k, p.pc ≠ .putTrunc j k := by
    rw [Table.hit.eq_def]
    dsimp only
    split
    · exact ⟨⟨.put e .done, i :: (σ.table.proc P).held⟩, rfl, rfl, (fun x hx => (by cases hx)),
        fun _ _ h => (by cases h)⟩
    · rename_i dev' _
      exact ⟨{ σ.table.proc P with pc := .put i (.cross e dev') }, rfl, rfl,
        (fun x hx => List.mem_singleton.1 hx),
        fun _ _ h => (by cases h)⟩
  rw [htable] at hsound ⊢
  generalize hτ : σ.setTable ((σ.table.setCount i ((σ.table.inode i).count + 1)).setProc P p) = τ
  have hproc : τ.table.proc = update σ.table.proc P p := by rw [← hτ]; rfl
  have hinode : ∀ j, τ.inode j = if j = i then { σ.inode i with count := (σ.inode i).count + 1 }
      else σ.inode j := by
    rw [← hτ]
    exact Table.setCount_inode _
  have inert : Inert σ P p := ⟨howns, fun x hx => by rw [hempty, hsub x hx]; exact List.mem_singleton_self e⟩
  refine carries_count (i := i) (c := (σ.inode i).count + 1) (m := (σ.inode i).mount) G (hτ ▸ hsound)
    (inert.goes hproc) (reads_after hproc hP) (fun Q j k hQ => ?_)
    ⟨fun j hj => by rw [hinode, if_neg hj], by rw [← hτ]; rfl, by rw [← hτ]; rfl, by rw [← hτ]; rfl,
      by rw [← hτ]; rfl⟩ (by rw [hinode, if_pos rfl]) (fun _ _ => Nat.succ_pos _) fun Q hQ => ?_
  · by_cases hQP : Q = P
    · rw [hQP, pc_of_proc hproc] at hQ
      exact absurd hQ (htrunc j k)
    · rwa [pc_others hproc Q hQP] at hQ
  · exact absurd (owns_of_read hQ) ((G.entry i).not_owned hfree Q)

theorem carries_look {dev' nr' : ℕ} (hlinks : r.i_nlinks.toNat ≠ 0) (G : Good disks σ)
    (hsound : (σ.table.look P e dev' nr').Sound) (hpc : σ.pc P = .look e dev' nr') :
    Carries disks σ (σ.setTable (σ.table.look P e dev' nr')) dev nr r := by
  have hempty : (σ.pc P).empty = [e] := by rw [hpc]; rfl
  have hP : ∀ i, σ.pc P ≠ .read i := by
    rw [hpc]
    exact fun _ h => by cases h
  rw [Table.look] at hsound ⊢
  split at hsound
  · rename_i i _
    split at hsound
    · rename_i hlock
      rw [if_pos hlock]
      refine carries_setPc (l := σ.table.last) hlinks G hsound rfl (fun x hx => ?_) hP fun _ _ h => by cases h
      rw [hempty]
      exact hx
    · rename_i hlock
      rw [if_neg hlock]
      exact carries_hit G hsound hempty hP (eq_false_of_ne_true hlock)
  · generalize hτ : σ.setTable (σ.table.install P e dev' nr') = τ
    have hinode : ∀ j, τ.inode j =
        if j = e then { σ.inode e with dev := dev', num := nr', lock := true } else σ.inode j := by
      rw [← hτ]
      exact Table.setInode_inode _
    exact carries_install (p := { σ.table.proc P with pc := .read e }) G (hτ ▸ hsound) (by rw [← hτ]; rfl) rfl
      ⟨fun j hj => by rw [hinode, if_neg hj], by rw [← hτ]; rfl, by rw [← hτ]; rfl, by rw [← hτ]; rfl,
        by rw [← hτ]; rfl⟩ (by rw [hinode, if_pos rfl]) (by rw [hempty]; exact List.mem_singleton_self e) hP

/-! ### Reading, writing and clearing -/

/-- `get_empty_inode` has cleared its entry. -/
theorem carries_take {c : Caller} (G : Good disks σ) (hsound : (σ.table.take P c i).Sound)
    (hpc : σ.pc P = .emptyWait c i)
    (hfree : (σ.inode i).lock = false) (hdirt : (σ.inode i).dirt = false) (hdev : dev ≠ 0) :
    Carries disks σ ((σ.setTable (σ.table.take P c i)).setRecord i .zero) dev nr r := by
  obtain ⟨p, htable, howns, hempty, htrunc⟩ : ∃ p : Proc,
      σ.table.take P c i = (σ.table.setInode i { Inode.zero with count := 1 }).setProc P p ∧ p.pc.owns = none ∧
        (∀ x ∈ p.pc.empty, x = i) ∧ ∀ j k, p.pc ≠ .putTrunc j k := by
    cases c with
    | iget dev' nr' =>
      exact ⟨{ σ.table.proc P with pc := .look i dev' nr' }, rfl, rfl, (fun x hx => List.mem_singleton.1 hx),
        fun _ _ h => (by cases h)⟩
    | newInode dev' =>
      exact ⟨{ σ.table.proc P with pc := .newInode i dev' }, rfl, rfl, (fun x hx => List.mem_singleton.1 hx),
        fun _ _ h => (by cases h)⟩
    | other =>
      exact ⟨⟨.user, i :: (σ.table.proc P).held⟩, rfl, rfl, (fun x hx => (by cases hx)),
        fun _ _ h => (by cases h)⟩
  rw [htable] at hsound ⊢
  generalize hτ : (σ.setTable ((σ.table.setInode i { Inode.zero with count := 1 }).setProc P p)).setRecord i
    .zero = τ
  have hinode : ∀ j, τ.inode j = if j = i then { Inode.zero with count := 1 } else σ.inode j := by
    rw [← hτ]
    exact Table.setInode_inode _
  have hrecord : ∀ j, τ.record j = if j = i then .zero else σ.record j := by
    rw [← hτ]
    exact update_apply σ.record i .zero
  refine carries_clear (i := i) (p := p) (c := 1) G (hτ ▸ hsound) (by rw [← hτ]; rfl)
    ⟨fun j hj => by rw [hinode, if_neg hj], fun j hj => by rw [hrecord, if_neg hj],
      fun _ _ => by rw [← hτ]; rfl⟩
    (by rw [hinode, if_pos rfl]) (by rw [hrecord, if_pos rfl]) (by rw [← hτ]; rfl) (by rw [← hτ]; rfl)
    (fun S => by rw [← hτ]; exact S.bit) hfree (fun _ _ => hdirt) hdev howns
    (fun x hx hne => absurd (hempty x hx) hne) htrunc fun j h => ?_
  rw [hpc] at h
  cases h

/-- `free_inode` after `truncate`. -/
theorem carries_freeInode (G : Good disks σ) (hsound : (σ.table.freeInode P i k).Sound)
    (hpc : σ.pc P = .putTrunc i k)
    (hfree : (σ.inode i).lock = false) (hdev : dev ≠ 0)
    (hcalm : ¬(1 < (σ.inode i).count ∨ (σ.inode i).disk.nlinks ≠ 0)) :
    Carries disks σ ((σ.setTable (σ.table.freeInode P i k)).setRecord i .zero) dev nr r := by
  generalize hτ : (σ.setTable (σ.table.freeInode P i k)).setRecord i .zero = τ
  have htable : σ.table.freeInode P i k = { (σ.table.setInode i Inode.zero).setPc P (Table.After.pc k) with
      bit := update σ.table.bit (σ.inode i).dev (update (σ.table.bit (σ.inode i).dev) (σ.inode i).num false)
      freed := update σ.table.freed (σ.inode i).dev (update (σ.table.freed (σ.inode i).dev)
        (σ.inode i).num (σ.table.freed (σ.inode i).dev (σ.inode i).num + 1)) } := by
    rw [Table.freeInode]
    exact if_neg hcalm
  have hinode : ∀ j, τ.inode j = if j = i then Inode.zero else σ.inode j := by
    rw [← hτ]
    intro j
    show (σ.table.freeInode P i k).inode j = _
    rw [htable]
    exact Table.setInode_inode _ j
  have hrecord : ∀ j, τ.record j = if j = i then .zero else σ.record j := by
    rw [← hτ]
    exact update_apply σ.record i .zero
  have hproc : τ.table.proc = update σ.table.proc P { σ.table.proc P with pc := Table.After.pc k } := by
    rw [← hτ]
    show (σ.table.freeInode P i k).proc = _
    rw [htable]
    rfl
  have hempty : ∀ x ∈ (Table.After.pc k).empty, x ∈ (σ.pc P).empty := by
    rw [hpc, (Table.after_refs k).2]
    exact fun _ h => h
  refine carries_clear (i := i) (c := 0) G (hτ ▸ hsound) hproc
    ⟨fun j hj => by rw [hinode, if_neg hj], fun j hj => by rw [hrecord, if_neg hj],
      fun _ _ => by rw [← hτ]; rfl⟩
    (by rw [hinode, if_pos rfl]; rfl) (by rw [hrecord, if_pos rfl]) (by rw [← hτ]; rfl) (by rw [← hτ]; rfl)
    (fun S => ?_) hfree (fun S his => absurd his (S.kept P i k hpc)) hdev (by cases k <;> rfl)
    (fun x hx _ => hempty x hx) (fun j k' h => by cases k <;> cases h) fun j h => ?_
  · rw [← hτ]
    show (σ.table.freeInode P i k).bit dev nr = true
    rw [htable]
    exact (Table.update_update_of_not (S.kept P i k hpc)).trans S.bit
  · rw [hpc] at h
    cases h

/-- `write_inode` writes the record of the entry, or the kernel stops. -/
theorem write_cases (G : Good disks σ) (t : Table n) : σ.write i t = σ.setTable σ.table.panic ∨
      ∃ s, Volume.Writes (σ.inode i).dev (σ.inode i).num (σ.record i) σ.cache s ∧
        σ.write i t = { σ with table := t, cache := s } := by
  have hw : wp (write_inode (σ.table.inode i).dev (σ.table.inode i).num (σ.record i))
      (fun _ s => Volume.Writes (σ.inode i).dev (σ.inode i).num (σ.record i) σ.cache s)
      (fun _ _ => True) σ.cache :=
    wp_write_inode G.coherent fun _ _ => trivial
  rw [write]
  unfold wp at hw
  split at hw
  · rename_i s heq
    rw [heq]
    exact Or.inr ⟨s, hw, rfl⟩
  · rename_i heq
    rw [heq]
    exact Or.inl rfl

/-- `read_inode` gives the record on the disk, or the kernel stops. -/
theorem read_cases (G : Good disks σ) (P : Fin n) : σ.read P i = σ.setTable σ.table.panic ∨
      ∃ r s, σ.cache.d_inode (disks (σ.inode i).dev) (σ.inode i).dev (σ.inode i).num = some r ∧
        Volume.Still σ.cache s ∧
        σ.read P i =
          { σ with
            table := { σ.table with disk := fun _ _ => kind r }.loaded P i
            record := update σ.record i r
            cache := s } := by
  have hr : wp (read_inode (σ.table.inode i).dev (σ.table.inode i).num)
      (fun r s => (∃ sb, σ.cache.get_super (σ.inode i).dev = some sb ∧
        σ.cache.d_inode sb (σ.inode i).dev (σ.inode i).num = some r) ∧ Volume.Still σ.cache s)
      (fun _ _ => True) σ.cache :=
    wp_read_inode G.coherent fun _ _ => trivial
  rw [read]
  unfold wp at hr
  split at hr
  · rename_i r s heq
    rw [heq]
    obtain ⟨⟨sb, hsuper, hrecord⟩, hstill⟩ := hr
    rw [Kernel.d_inode, G.mounted _ sb hsuper] at hrecord
    exact Or.inr ⟨r, s, hrecord, hstill, rfl⟩
  · rename_i heq
    rw [heq]
    exact Or.inl rfl

theorem written_inode (j : Fin 32) : (σ.table.written i).inode j =
    if j = i then { σ.inode i with dirt := false, lock := false } else σ.inode j :=
  Table.setInode_inode _ j

/-- `write_inode` has come back, to `get_empty_inode` or `iput`. -/
theorem carries_write (G : Good disks σ) (hsound : ((σ.table.written i).setPc P q).Sound)
    (howns : (σ.pc P).owns = some i) (hq : q.owns = none) (hempty : ∀ e ∈ q.empty, e ∈ (σ.pc P).empty)
    (htrunc : ∀ j k, q ≠ .putTrunc j k) (hP : ∀ j, σ.pc P ≠ .read j) (hnr : 1 ≤ nr) :
    Carries disks σ (σ.write i ((σ.table.written i).setPc P q)) dev nr r := by
  rcases write_cases (i := i) G ((σ.table.written i).setPc P q) with hpanic | ⟨s, hw, hwrite⟩
  · rw [hpanic]
    exact carries_panic P G
  rw [hwrite]
  generalize hτ : ({ σ with table := (σ.table.written i).setPc P q, cache := s } : Store n) = τ
  have hproc : τ.table.proc = update σ.table.proc P { σ.table.proc P with pc := q } := by
    rw [← hτ]
    rfl
  have hinode : ∀ j, τ.inode j = if j = i then { σ.inode i with dirt := false, lock := false }
      else σ.inode j := by
    rw [← hτ]
    exact written_inode
  have inert : Inert σ P { σ.table.proc P with pc := q } := ⟨hq, hempty⟩
  have hsync : σ.syncing i = false := by
    by_contra h
    exact ((G.entry i).syncing (eq_true_of_ne_false h)).2 P howns
  have hnone := (G.entry i).not_owned_after (pc_others hproc) howns (by
    rw [pc_of_proc hproc, hq]
    exact nofun)
  refine carries_written (i := i) (P := P) G (hτ ▸ hsound) (fun j _ => inert.goes hproc j)
    ⟨fun j hj => by rw [hinode, if_neg hj], fun _ _ => by rw [← hτ], fun _ _ => by rw [← hτ]⟩
    (by rw [hinode, if_pos rfl]) (by rw [← hτ]) (by rw [← hτ]; exact hsync) hnone (reads_after hproc hP) hnr
    (fun Q j k hQ => ?_) (by rw [← hτ]; exact hw) (by rw [← hτ]; rfl)
  by_cases hQP : Q = P
  · rw [hQP, pc_of_proc hproc] at hQ
    exact absurd hQ (htrunc j k)
  · rwa [pc_others hproc Q hQP] at hQ

/-- The same for `sync_inodes`. -/
theorem carries_synced (P : Fin n) (G : Good disks σ) (hsound : (σ.table.written i).Sound)
    (hsync : σ.syncing i = true)
    (hnr : 1 ≤ nr) :
    Carries disks σ { σ.write i (σ.table.written i) with
      syncing := update σ.syncing i false } dev nr r := by
  have hclear : ∀ j, update σ.syncing i false j = true → σ.syncing j = true := by
    intro j
    rw [update_apply]
    split
    · exact fun h => by cases h
    · exact id
  rcases write_cases (i := i) G (σ.table.written i) with hpanic | ⟨s, hw, hwrite⟩
  · rw [hpanic]
    exact carries_stop P G hclear
  rw [hwrite]
  generalize hτ : ({ σ with
    table := σ.table.written i, cache := s, syncing := update σ.syncing i false } : Store n) = τ
  have hpcs : ∀ Q, τ.pc Q = σ.pc Q := by
    rw [← hτ]
    exact fun _ => rfl
  have hinode : ∀ j, τ.inode j = if j = i then { σ.inode i with dirt := false, lock := false }
      else σ.inode j := by
    rw [← hτ]
    exact written_inode
  refine carries_written (i := i) (P := P) G (hτ ▸ hsound) (fun j _ => goes_of_same hpcs P j)
    ⟨fun j hj => by rw [hinode, if_neg hj], fun _ _ => by rw [← hτ], fun j hj => ?_⟩
    (by rw [hinode, if_pos rfl]) (by rw [← hτ]) ?_ (fun Q => ?_) (fun Q j hQ => (hpcs Q).trans hQ) hnr
    (fun Q j k hQ => (hpcs Q).symm.trans hQ) (by rw [← hτ]; exact hw) (by rw [← hτ]; rfl)
  · rw [← hτ]
    exact update_of_ne hj ..
  · rw [← hτ]
    exact update_self ..
  · rw [hpcs]
    exact ((G.entry i).syncing hsync).2 Q

theorem carries_read (G : Good disks σ) (hpc : σ.pc P = .read i) (hdev : dev ≠ 0) :
    Carries disks σ (σ.read P i) dev nr r := by
  rcases read_cases (i := i) G P with hpanic | ⟨r', s, hr, hstill, hread⟩
  · rw [hpanic]
    exact carries_panic P G
  rw [hread]
  have hdisk : Table.Sound { σ.table with disk := fun _ _ => kind r' } :=
    ⟨G.sound.counts, G.sound.single, G.sound.bits, G.sound.blank, G.sound.real, G.sound.sb⟩
  have hsound := (Table.loaded_spec hdisk hpc).1
  generalize hτ : ({ σ with
    table := { σ.table with disk := fun _ _ => kind r' }.loaded P i
    record := update σ.record i r'
    cache := s } : Store n) = τ
  have hinode : ∀ j, τ.inode j = if j = i then { σ.inode i with disk := kind r', lock := false }
      else σ.inode j := by
    rw [← hτ]
    exact Table.setInode_inode _
  have hrecord : ∀ j, τ.record j = if j = i then r' else σ.record j := by
    rw [← hτ]
    exact update_apply σ.record i r'
  exact carries_loaded (i := i) (p := ⟨.user, i :: (σ.table.proc P).held⟩) G (hτ ▸ hsound) hdev
    (by rw [← hτ]; rfl) rfl
    ⟨fun j hj => by rw [hinode, if_neg hj], fun j hj => by rw [hrecord, if_neg hj], fun _ _ => by rw [← hτ]⟩
    (by rw [hinode, if_pos rfl]) (by rw [hrecord, if_pos rfl]) (by rw [← hτ]) hpc hr
    (by rw [← hτ]; exact hstill)
    (by rw [← hτ]; rfl)

/-! ### Steps -/

theorem hold_pc {t : Table n} (R : Fin n) : ((t.hold Q i).proc R).pc = (t.proc R).pc := by
  show (update t.proc Q _ R).pc = _
  rw [update_apply]
  split
  · rename_i hR
    rw [hR]
  · rfl

/-- A process goes on in the kernel. -/
theorem run_carries (hlinks : r.i_nlinks.toNat ≠ 0) (hdev : dev ≠ 0) (hnr : 1 ≤ nr) (G : Good disks σ)
    (hlisted : Table.Listed σ.table (P, .run))
    (hfree : ∀ i k, σ.pc P = .putTrunc i k → (σ.inode i).lock = false)
    (hcalm : σ.table.panicked = false) (hs : σ.run P = some τ) : Carries disks σ τ dev nr r := by
  obtain ⟨t, ht, heq⟩ := Option.map_eq_some_iff.1 hs
  have hsound : t.Sound := (Table.run_spec G.sound (fun e dev nr hpc => by
    simpa only [Table.Listed, hpc] using hlisted) ht).1
  subst heq
  have hran := Table.run_cases ht
  have hP : ∀ {pc}, σ.pc P = pc → (∀ j, pc ≠ .read j) → ∀ j, σ.pc P ≠ .read j := fun h hne => h ▸ hne
  generalize hpc : (σ.table.proc P).pc = pc at hran
  cases hran with
  | @flush c i hlock hdirt =>
    dsimp only
    rw [if_neg (fun h => by rw [hdirt] at h; cases h.1)]
    exact carries_lock (i := i) (p := { σ.table.proc P with pc := .emptyWrite c i }) G hsound rfl
      ⟨fun j hj => (Table.setInode_inode _ j).trans (if_neg hj), rfl, rfl, rfl, rfl⟩
      ((Table.setInode_inode _ i).trans (if_pos rfl)) hlock hdirt rfl (fun _ h => by cases h)
      (fun _ _ h => by cases h) (fun _ h => by cases h) (hP hpc (by simp))
  | take hlock hdirt hcount =>
    dsimp only
    rw [if_pos ⟨hdirt, hcount⟩]
    exact carries_take G hsound hpc hlock hdirt hdev
  | again _ _ hcount =>
    dsimp only
    rw [if_neg fun h => hcount h.2]
    exact carries_getEmpty hlinks G hsound (hP hpc (by simp))
  | @flushed c i =>
    have hpc : σ.pc P = .emptyWrite c i := hpc
    exact carries_write G hsound (by rw [hpc]; rfl) rfl (fun _ h => by cases h) (fun _ _ h => by cases h)
      (hP hpc (by simp)) hnr
  | look => exact carries_look hlinks G hsound hpc
  | @found e dev' nr' i hlock =>
    have hpc : σ.pc P = .lookWait e dev' nr' i := hpc
    exact carries_hit G hsound (by rw [hpc]; rfl) (hP hpc (by simp)) hlock
  | @retry e dev' nr' i =>
    have hpc : σ.pc P = .lookWait e dev' nr' i := hpc
    refine carries_setPc (l := σ.table.last) hlinks G hsound rfl (fun x hx => ?_) (hP hpc (by simp))
      fun _ _ h => by cases h
    rw [hpc]
    exact hx
  | loaded => exact carries_read G hpc hdev
  | put hlock => exact carries_put hlinks G hsound hpc hlock
  | @putAgain i k hlock =>
    have hpc : σ.pc P = .putAgain i k := hpc
    exact carries_putRepeat hlinks G hsound (by rw [hpc]; rfl) (by rw [hpc]; rfl) (hP hpc (by simp)) hlock
  | @wrote i k =>
    have hpc : σ.pc P = .putWrite i k := hpc
    refine carries_write G hsound (by rw [hpc]; rfl) rfl (fun e he => ?_) (fun _ _ h => by cases h)
      (hP hpc (by simp)) hnr
    rw [hpc]
    exact he
  | @freed i k =>
    dsimp only
    by_cases hstop : 1 < (σ.inode i).count ∨ (σ.inode i).disk.nlinks ≠ 0
    · have hpanic : σ.table.freeInode P i k = σ.table.panic := by
        rw [Table.freeInode]
        exact if_pos hstop
      rw [hpanic, if_pos (show σ.table.panic.panicked = true from rfl)]
      exact carries_panic P G
    · have hgoes : ¬(σ.table.freeInode P i k).panicked = true := by
        rw [Table.freeInode,
          if_neg (show ¬(1 < (σ.table.inode i).count ∨ (σ.table.inode i).disk.nlinks ≠ 0) from hstop)]
        exact fun h => Bool.false_ne_true (hcalm.symm.trans h)
      rw [if_neg hgoes]
      exact carries_freeInode G hsound hpc (hfree i k hpc) hdev hstop

/-- A call begins, or a reference goes to another process. -/
theorem table_carries {ev : Event n} (hlinks : r.i_nlinks.toNat ≠ 0) (G : Good disks σ)
    (hlisted : Table.Listed σ.table (P, ev)) (hrun : ev ≠ .run) (hmodify : ∀ i t, ev ≠ .modify i t)
    (hbit : ∀ m, ev ≠ .bit (some m)) {t : Table n} (ht : σ.table.step (P, ev) = some t) :
    Carries disks σ (σ.setTable t) dev nr r := by
  have hsound := (Table.step_spec G.sound hlisted ht).1
  have huser : ∀ pc, (σ.table.proc P).pc = pc → (∀ j, pc ≠ .read j) → ∀ j, σ.pc P ≠ .read j := by
    rintro pc hpc hnot j h
    exact hnot j (hpc.symm.trans h)
  rw [Table.step] at ht
  split at ht
  · cases ht
  cases ev with
  | run => exact absurd rfl hrun
  | modify i t => exact absurd rfl (hmodify i t)
  | iget dev' nr' =>
    cases hpc : (σ.table.proc P).pc <;> simp only [hpc, reduceCtorEq] at ht
    obtain ⟨-, heq⟩ := Option.ite_none_right_eq_some.1 ht
    cases heq
    exact carries_getEmpty hlinks G hsound (huser _ hpc fun _ h => by cases h)
  | newInode dev' =>
    cases hpc : (σ.table.proc P).pc <;> simp only [hpc, reduceCtorEq] at ht
    obtain ⟨-, heq⟩ := Option.ite_none_right_eq_some.1 ht
    cases heq
    exact carries_getEmpty hlinks G hsound (huser _ hpc fun _ h => by cases h)
  | getEmpty =>
    cases hpc : (σ.table.proc P).pc <;> simp only [hpc, reduceCtorEq] at ht
    cases ht
    exact carries_getEmpty hlinks G hsound (huser _ hpc fun _ h => by cases h)
  | iput i =>
    cases hpc : (σ.table.proc P).pc <;> simp only [hpc, reduceCtorEq] at ht
    obtain ⟨-, heq⟩ := Option.ite_none_right_eq_some.1 ht
    cases heq
    exact carries_goes (i := 0) (p := ⟨.put i .done, (σ.table.proc P).held.erase i⟩) G hlinks hsound rfl
      ⟨fun _ _ => rfl, rfl, rfl, rfl, rfl⟩ rfl ⟨rfl, fun _ h => by cases h⟩
      (huser _ hpc fun _ h => by cases h) fun _ _ h => by cases h
  | share i Q =>
    cases hpc : (σ.table.proc P).pc <;> simp only [hpc, reduceCtorEq] at ht
    obtain ⟨hi, heq⟩ := Option.ite_none_right_eq_some.1 ht
    cases heq
    generalize hτ : σ.setTable ((σ.table.setCount i ((σ.table.inode i).count + 1)).hold Q i) = τ
    have hpcs : ∀ R, τ.pc R = σ.pc R := by
      rw [← hτ]
      exact fun R => hold_pc R
    have hinode : ∀ j, τ.inode j =
        if j = i then { σ.inode i with count := (σ.inode i).count + 1 } else σ.inode j := by
      rw [← hτ]
      exact Table.setCount_inode _
    exact carries_count (i := i) (P := P) (c := (σ.inode i).count + 1) (m := (σ.inode i).mount) G (hτ ▸ hsound)
      (goes_of_same hpcs P) (fun R j h => (hpcs R).trans h) (fun R j k h => (hpcs R).symm.trans h)
      ⟨fun j hj => by rw [hinode, if_neg hj], by rw [← hτ]; rfl, by rw [← hτ]; rfl, by rw [← hτ]; rfl,
        by rw [← hτ]; rfl⟩ (by rw [hinode, if_pos rfl]) (fun _ _ => Nat.succ_pos _)
      fun R h => absurd h (G.not_read hi)
  | give i Q =>
    cases hpc : (σ.table.proc P).pc <;> simp only [hpc, reduceCtorEq] at ht
    obtain ⟨-, heq⟩ := Option.ite_none_right_eq_some.1 ht
    cases heq
    refine carries_same P G hsound (fun R => ?_) rfl rfl (fun _ => id) rfl rfl
    refine (hold_pc R).trans ?_
    show (update σ.table.proc P _ R).pc = _
    rw [update_apply]
    split
    · rename_i hR
      rw [hR, pc, hpc]
    · rfl
  | mount i dev' =>
    cases hpc : (σ.table.proc P).pc <;> simp only [hpc, reduceCtorEq] at ht
    obtain ⟨-, heq⟩ := Option.ite_none_right_eq_some.1 ht
    cases heq
    generalize hτ : σ.setTable { σ.table.setInode i { σ.table.inode i with mount := dev'.isSome } with
          sb := update σ.table.sb i dev' } = τ
    have hpcs : ∀ R, τ.pc R = σ.pc R := by
      rw [← hτ]
      exact fun _ => rfl
    have hinode : ∀ j, τ.inode j = if j = i then { σ.inode i with mount := dev'.isSome } else σ.inode j := by
      rw [← hτ]
      exact Table.setInode_inode _
    exact carries_count (i := i) (P := P) (c := (σ.inode i).count) (m := dev'.isSome) G (hτ ▸ hsound)
      (goes_of_same hpcs P) (fun R j h => (hpcs R).trans h) (fun R j k h => (hpcs R).symm.trans h)
      ⟨fun j hj => by rw [hinode, if_neg hj], by rw [← hτ]; rfl, by rw [← hτ]; rfl, by rw [← hτ]; rfl,
        by rw [← hτ]; rfl⟩ (by rw [hinode, if_pos rfl]) (G.entry i).clean
      fun R h => ((G.entry i).reading R h).2
  | bit m =>
    cases m with
    | some m => exact absurd rfl (hbit m)
    | none =>
      cases hpc : (σ.table.proc P).pc <;> simp only [hpc, reduceCtorEq] at ht
      cases ht
      exact carries_setPc (l := σ.table.last) hlinks G hsound rfl (fun _ h => by cases h)
        (huser _ hpc fun _ h => by cases h) fun _ _ h => by cases h

/-- Somebody changes an inode that he has, or `truncate` changes one that is being freed. -/
theorem fields_carries {r' : Volume.DInode} {d : Bool} {t : Table n} (G : Good disks σ)
    (ht : t = σ.table.setInode i { σ.table.inode i with disk := kind r', dirt := d })
    (hi : i ∈ (σ.table.proc P).refs)
    (hread : ∀ Q, σ.pc Q ≠ .read i) (hempty : ∀ Q, i ∉ (σ.pc Q).empty) :
    Good disks ((σ.setTable t).setRecord i r') ∧
      (¬(σ.inode i).is dev nr → Says disks σ dev nr r →
        Says disks ((σ.setTable t).setRecord i r') dev nr r) := by
  have hsound : t.Sound := (Table.modify_spec (t := { σ.table.inode i with disk := kind r', dirt := d }) G.sound
    rfl rfl rfl
    (by rw [ht]) (by rw [ht]; rfl) (by rw [ht]; exact G.sound.sb) (by rw [ht]; rfl) (by rw [ht]; rfl) P).1
  have hcount : 0 < (σ.inode i).count := G.sound.count_pos hi
  subst ht
  generalize hτ : (σ.setTable (σ.table.setInode i
    { σ.table.inode i with disk := kind r', dirt := d })).setRecord i r' = τ
  have hinode : ∀ j, τ.inode j = if j = i then { σ.inode i with disk := kind r', dirt := d }
      else σ.inode j := by
    rw [← hτ]
    exact Table.setInode_inode _
  have hrecord : ∀ j, τ.record j = if j = i then r' else σ.record j := by
    rw [← hτ]
    exact update_apply σ.record i r'
  exact carries_fields (i := i) P G (hτ ▸ hsound) (by rw [← hτ]; rfl)
    ⟨fun j hj => by rw [hinode, if_neg hj], fun j hj => by rw [hrecord, if_neg hj],
      fun _ _ => by rw [← hτ]; rfl⟩
    (by rw [hinode, if_pos rfl]) (by rw [hrecord, if_pos rfl]) (by rw [← hτ]; rfl) (by rw [← hτ]; rfl)
    (by rw [← hτ]; rfl) hcount hread hempty

/-- `new_inode` with a number whose bit is clear. -/
theorem made_carries {m dev' : ℕ} {r' : Volume.DInode} (G : Good disks σ) (hpc : σ.pc P = .newInode i dev')
    (hbit : σ.table.bit dev' m = false) (hkind : kind r' = { (σ.inode i).disk with nlinks := 1 })
    (hdev : dev ≠ 0) :
    Carries disks σ ((σ.setTable (σ.table.allocated P i dev' m)).setRecord i r') dev nr r := by
  have hsound := (Table.allocated_spec G.sound hpc hbit).1
  have hempty : i ∈ (σ.pc P).empty := by
    rw [hpc]
    exact List.mem_singleton_self i
  generalize hτ : (σ.setTable (σ.table.allocated P i dev' m)).setRecord i r' = τ
  have hinode : ∀ j, τ.inode j = if j = i then
      { σ.inode i with
        dev := dev', num := m, count := 1, dirt := true
        disk := { (σ.inode i).disk with nlinks := 1 } } else σ.inode j := by
    rw [← hτ]
    exact Table.setInode_inode _
  have hrecord : ∀ j, τ.record j = if j = i then r' else σ.record j := by
    rw [← hτ]
    exact update_apply σ.record i r'
  refine carries_allocated (i := i) (p := ⟨.user, i :: (σ.table.proc P).held⟩)
    (t := { σ.inode i with
      dev := dev', num := m, count := 1, dirt := true
      disk := { (σ.inode i).disk with nlinks := 1 } })
    G (hτ ▸ hsound) (by rw [← hτ]; rfl) rfl
    ⟨fun j hj => by rw [hinode, if_neg hj], fun j hj => by rw [hrecord, if_neg hj],
      fun _ _ => by rw [← hτ]; rfl⟩
    (by rw [hinode, if_pos rfl]) rfl hkind.symm (by rw [hrecord, if_pos rfl]) (by rw [← hτ]; rfl)
    (by rw [← hτ]; rfl)
    (fun S => ?_) hdev hempty fun j h => ?_
  · have hnot : ¬(dev' = dev ∧ m = nr) := by
      rintro ⟨rfl, rfl⟩
      rw [S.bit] at hbit
      cases hbit
    refine ⟨hnot, ?_⟩
    rw [← hτ]
    exact Table.update_update_of_not hnot
  · rw [hpc] at h
    cases h

/-- `sync_inodes` has locked a dirty entry. -/
theorem sync_carries (P : Fin n) (G : Good disks σ) (hfree : (σ.inode i).lock = false)
    (hdirt : (σ.inode i).dirt = true) :
    Carries disks σ { σ.setTable (σ.table.setLock i) with
      syncing := update σ.syncing i true } dev nr r := by
  have hsound : (σ.table.setLock i).Sound :=
    (Table.modify_spec (t := { σ.table.inode i with lock := true }) G.sound rfl rfl rfl rfl rfl G.sound.sb rfl
    rfl P).1
  generalize hτ : ({ σ.setTable (σ.table.setLock i) with
    syncing := update σ.syncing i true } : Store n) = τ
  have hpcs : ∀ Q, τ.pc Q = σ.pc Q := by
    rw [← hτ]
    exact fun _ => rfl
  have hinode : ∀ j, τ.inode j = if j = i then { σ.inode i with lock := true } else σ.inode j := by
    rw [← hτ]
    exact Table.setInode_inode _
  have hsame : τ.record = σ.record ∧ τ.cache = σ.cache ∧ τ.table.bit = σ.table.bit := by
    rw [← hτ]
    exact ⟨rfl, rfl, rfl⟩
  have hnone := fun Q => (G.entry i).not_owned hfree Q
  have hentry : EntryGood τ i := by
    refine (G.entry i).lock (P := P) (fun Q _ => hpcs Q) hfree hdirt (by rw [hinode, if_pos rfl])
      (by rw [hsame.1]) ?_ ?_
      (.inr (by rw [hpcs]; exact hnone P))
    · rw [hpcs]
      exact fun h => hnone P (owns_of_read h)
    · rw [hpcs]
      intro h
      have hclean := ((G.entry i).blank P h).1
      rw [hdirt] at hclean
      cases hclean
  have o : Rest σ τ i := ⟨fun j hj => by rw [hinode, if_neg hj], fun _ _ => by rw [hsame.1], fun j hj => by
    rw [← hτ]
    exact update_of_ne hj ..⟩
  refine ⟨o.good G (hτ ▸ hsound) (by rw [hsame.2.1]; exact G.coherent) (fun _ => by rw [hsame.2.1])
    (fun j _ => goes_of_same hpcs P j) hentry, fun S => ?_⟩
  have q : Quiet σ τ := by
    refine ⟨fun j => ?_, fun j => ?_, hsame.1, hsame.2.1, hsame.2.2, fun Q j hQ => (hpcs Q).trans hQ⟩
    · rw [hinode]
      split
      · rename_i hj
        rw [hj]
        exact ⟨rfl, rfl⟩
      · exact ⟨rfl, rfl⟩
    · rw [hinode]
      split
      · rename_i hj
        rw [hj]
      · rfl
  exact q.says S fun Q j k hQ => S.kept Q j k ((hpcs Q).symm.trans hQ)

/-- The step is no change of this inode by somebody who has it. -/
def Leaves (dev nr : ℕ) (σ : Store n) (a : Fin n × StoreEvent n) : Prop :=
  ∀ i r, a.2 = .modify i r → ¬(σ.inode i).is dev nr

end Store

end OldLinux.Inodes
