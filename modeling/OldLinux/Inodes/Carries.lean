import OldLinux.Inodes.Entries

/-!
# What becomes of one inode

A table entry with the name of the inode holds its fields, unless they are being read; and if no such entry
is dirty, they are on the disk.  One lemma for each way in which a step can change the table.
-/

namespace OldLinux.Inodes

open Function Lib
open OldLinux.Volume (Kernel SuperBlock Coherent S_ISBLK read_inode write_inode)

namespace Store

variable {n : ℕ} {σ τ : Store n} {P Q : Fin n} {i j e : Fin 32} {k : After} {dev nr : ℕ} {r : Volume.DInode}
variable {p : Proc} {disks : ℕ → SuperBlock}

/-- The inode, which is not being freed, has these fields. -/
structure Says (disks : ℕ → SuperBlock) (σ : Store n) (dev nr : ℕ) (r : Volume.DInode) : Prop where
  entry : ∀ i, (σ.inode i).is dev nr → (∀ P, σ.pc P ≠ .read i) → σ.record i = r
  disk : (∀ i, (σ.inode i).is dev nr → (σ.inode i).dirt = false) → σ.cache.d_inode (disks dev) dev nr = some r
  bit : σ.table.bit dev nr = true
  kept : ∀ P i k, σ.pc P = .putTrunc i k → ¬(σ.inode i).is dev nr

/-- The invariant, and the fields of the inode. -/
def Carries (disks : ℕ → SuperBlock) (σ τ : Store n) (dev nr : ℕ) (r : Volume.DInode) : Prop :=
  Good disks τ ∧ (Says disks σ dev nr r → Says disks τ dev nr r)

/-- Neither the fields nor what is dirty has changed. -/
structure Quiet (σ τ : Store n) : Prop where
  name : ∀ i, (τ.inode i).dev = (σ.inode i).dev ∧ (τ.inode i).num = (σ.inode i).num
  dirt : ∀ i, (τ.inode i).dirt = (σ.inode i).dirt
  record : τ.record = σ.record
  cache : τ.cache = σ.cache
  bit : τ.table.bit = σ.table.bit
  reads : ∀ Q i, σ.pc Q = .read i → τ.pc Q = .read i

theorem Quiet.is_iff (q : Quiet σ τ) : (τ.inode i).is dev nr ↔ (σ.inode i).is dev nr := by
  rw [Inode.is, Inode.is, (q.name i).1, (q.name i).2]

theorem Quiet.says (q : Quiet σ τ) (S : Says disks σ dev nr r)
    (hkept : ∀ Q i k, τ.pc Q = .putTrunc i k → ¬(σ.inode i).is dev nr) : Says disks τ dev nr r where
  entry := fun i hi hread => by
    rw [q.record]
    exact S.entry i (q.is_iff.1 hi) fun Q hQ => hread Q (q.reads Q i hQ)
  disk := fun hclean => by
    rw [q.cache]
    refine S.disk fun i hi => ?_
    rw [← q.dirt]
    exact hclean i (q.is_iff.2 hi)
  bit := by
    rw [q.bit]
    exact S.bit
  kept := fun Q i k hQ hi => hkept Q i k hQ (q.is_iff.1 hi)

/-! ### The process that goes on -/

theorem pc_of_proc (hproc : τ.table.proc = update σ.table.proc P p) : τ.pc P = p.pc := by
  rw [pc, hproc, update_self]

theorem pc_others (hproc : τ.table.proc = update σ.table.proc P p) (Q : Fin n) (hQ : Q ≠ P) :
    τ.pc Q = σ.pc Q := by
  rw [pc, hproc, update_of_ne hQ]
  rfl

theorem goes_of_same (hpcs : ∀ Q, τ.pc Q = σ.pc Q) (P : Fin n) (j : Fin 32) : Goes σ τ P j :=
  ⟨fun Q _ => hpcs Q, by rw [hpcs]; exact id, by rw [hpcs]; exact id, by rw [hpcs]; exact id⟩

/-- The next program counter owns nothing, and has no new empty entry. -/
structure Inert (σ : Store n) (P : Fin n) (p : Proc) : Prop where
  owns : p.pc.owns = none
  empty : ∀ e ∈ p.pc.empty, e ∈ (σ.pc P).empty

theorem Inert.goes (h : Inert σ P p) (hproc : τ.table.proc = update σ.table.proc P p) (j : Fin 32) :
    Goes σ τ P j := by
  refine ⟨pc_others hproc, fun howns => ?_, fun hread => ?_, fun hempty => ?_⟩
  · rw [pc_of_proc hproc, h.owns] at howns
    cases howns
  · have howns := owns_of_read hread
    rw [pc_of_proc hproc, h.owns] at howns
    cases howns
  · rw [pc_of_proc hproc] at hempty
    exact h.empty j hempty

/-- Processes that were not in `truncate` with the inode are not if `P` does not go there with it. -/
theorem Says.kept_after (S : Says disks σ dev nr r) (hproc : τ.table.proc = update σ.table.proc P p)
    (hP : ∀ i k, p.pc = .putTrunc i k → ¬(σ.inode i).is dev nr) (Q : Fin n) (i : Fin 32) (k : After)
    (hQ : τ.pc Q = .putTrunc i k) : ¬(σ.inode i).is dev nr := by
  by_cases hQP : Q = P
  · rw [hQP, pc_of_proc hproc] at hQ
    exact hP i k hQ
  · rw [pc_others hproc Q hQP] at hQ
    exact S.kept Q i k hQ

theorem reads_after (hproc : τ.table.proc = update σ.table.proc P p) (hP : ∀ i, σ.pc P ≠ .read i)
    (Q : Fin n) (i : Fin 32) (hQ : σ.pc Q = .read i) : τ.pc Q = .read i := by
  by_cases hQP : Q = P
  · rw [hQP] at hQ
    exact absurd hQ (hP i)
  · rw [pc_others hproc Q hQP]
    exact hQ

/-- What a step of `P` keeps when it changes at most one entry of the table. -/
structure Only (σ τ : Store n) (i : Fin 32) : Prop where
  inode : ∀ j, j ≠ i → τ.inode j = σ.inode j
  record : τ.record = σ.record
  syncing : τ.syncing = σ.syncing
  cache : τ.cache = σ.cache
  bit : τ.table.bit = σ.table.bit

/-- Another name, count, lock or mark may have come to the entry. -/
theorem Only.quiet (o : Only σ τ i)
    (hname : (τ.inode i).dev = (σ.inode i).dev ∧ (τ.inode i).num = (σ.inode i).num)
    (hdirt : (τ.inode i).dirt = (σ.inode i).dirt) (hreads : ∀ Q j, σ.pc Q = .read j → τ.pc Q = .read j) :
    Quiet σ τ := by
  refine ⟨fun j => ?_, fun j => ?_, o.record, o.cache, o.bit, hreads⟩
  · by_cases hj : j = i
    · rw [hj]
      exact hname
    · rw [o.inode j hj]
      exact ⟨rfl, rfl⟩
  · by_cases hj : j = i
    · rw [hj, hdirt]
    · rw [o.inode j hj]

theorem Only.good (o : Only σ τ i) (G : Good disks σ) (hsound : τ.table.Sound)
    (hgoes : ∀ j, j ≠ i → Goes σ τ P j)
    (hi : EntryGood τ i) : Good disks τ := by
  refine ⟨hsound, by rw [o.cache]; exact G.coherent, by rw [o.cache]; exact G.mounted, fun j => ?_⟩
  by_cases hj : j = i
  · rw [hj]
    exact hi
  · exact (G.entry j).same (hgoes j hj) (o.inode j hj) (by rw [o.record]) (by rw [o.syncing]; exact id)

/-! ### Steps that change no fields -/

/-- An inode without links is not the one with these fields. -/
theorem Says.not_named (S : Says disks σ dev nr r) (G : Good disks σ) (hlinks : r.i_nlinks.toNat ≠ 0)
    (hi : i ∈ (σ.pc P).refs)
    (hP : σ.pc P ≠ .read i) (hzero : (σ.inode i).disk.nlinks = 0) : ¬(σ.inode i).is dev nr := by
  intro his
  have hrecord := S.entry i his fun Q hQ => by
    by_cases hQP : Q = P
    · rw [hQP] at hQ
      exact hP hQ
    · exact G.not_read_of_refs hQP hi hQ
  rw [(G.entry i).kinds, hrecord] at hzero
  exact hlinks hzero

/-- The process goes on and changes nothing. -/
theorem carries_goes (G : Good disks σ) (hlinks : r.i_nlinks.toNat ≠ 0) (hsound : τ.table.Sound)
    (hproc : τ.table.proc = update σ.table.proc P p) (o : Only σ τ i) (hinode : τ.inode i = σ.inode i)
    (inert : Inert σ P p) (hP : ∀ i, σ.pc P ≠ .read i)
    (hkept : ∀ i k, p.pc = .putTrunc i k → i ∈ (σ.pc P).refs ∧ (σ.inode i).disk.nlinks = 0) :
    Carries disks σ τ dev nr r := by
  refine ⟨o.good G hsound (fun j _ => inert.goes hproc j) ((G.entry i).same (inert.goes hproc i) hinode
    (by rw [o.record]) (by rw [o.syncing]; exact id)), fun S => ?_⟩
  have q := o.quiet (by rw [hinode]; exact ⟨rfl, rfl⟩) (by rw [hinode]) (reads_after hproc hP)
  exact q.says S (S.kept_after hproc fun j k hpc => S.not_named G hlinks (hkept j k hpc).1 (hP j)
    (hkept j k hpc).2)

/-- The count of an entry changes, or what is mounted there. -/
theorem carries_count (G : Good disks σ) (hsound : τ.table.Sound)
    (hpcs : ∀ j, Goes σ τ P j) (hreads : ∀ Q j, σ.pc Q = .read j → τ.pc Q = .read j)
    (htrunc : ∀ Q j k, τ.pc Q = .putTrunc j k → σ.pc Q = .putTrunc j k) (o : Only σ τ i) {c : ℕ} {m : Bool}
    (hinode : τ.inode i = { σ.inode i with count := c, mount := m })
    (hclean : (σ.inode i).dirt = true → (σ.inode i).dev ≠ 0 → 0 < c) (hread : ∀ Q, σ.pc Q = .read i → c = 1) :
    Carries disks σ τ dev nr r := by
  refine ⟨o.good G hsound (fun j _ => hpcs j) ((G.entry i).change (hpcs i) (by rw [hinode]) (by rw [hinode])
    (by rw [o.syncing]; exact id) ?_ ?_ fun Q hQ => ?_), fun S => ?_⟩
  · rw [hinode, o.record]
    exact (G.entry i).kinds
  · rw [hinode]
    exact hclean
  · rw [hinode]
    exact hread Q hQ
  · have q := o.quiet (by rw [hinode]; exact ⟨rfl, rfl⟩) (by rw [hinode]) hreads
    exact q.says S fun Q j k hQ => S.kept Q j k (htrunc Q j k hQ)

/-- A dirty entry is locked. -/
theorem carries_lock (G : Good disks σ) (hsound : τ.table.Sound)
    (hproc : τ.table.proc = update σ.table.proc P p) (o : Only σ τ i)
    (hinode : τ.inode i = { σ.inode i with lock := true }) (hfree : (σ.inode i).lock = false)
    (hdirt : (σ.inode i).dirt = true) (howns : p.pc.owns = some i) (hreads : ∀ j, p.pc ≠ .read j)
    (htrunc : ∀ j k, p.pc ≠ .putTrunc j k) (hempty : ∀ e ∈ p.pc.empty, e ∈ (σ.pc P).empty)
    (hP : ∀ j, σ.pc P ≠ .read j) : Carries disks σ τ dev nr r := by
  have hpc := pc_of_proc hproc
  refine ⟨o.good G hsound (fun j hj => ⟨pc_others hproc, fun h => ?_, fun h => ?_, fun h => ?_⟩)
    ((G.entry i).lock (pc_others hproc) hfree hdirt hinode (by rw [o.record]) ?_ ?_ (.inl (by rw [o.syncing]))),
    fun S => ?_⟩
  · rw [hpc, howns] at h
    exact absurd (Option.some.inj h).symm hj
  · rw [hpc] at h
    exact absurd h (hreads j)
  · rw [hpc] at h
    exact hempty j h
  · rw [hpc]
    exact hreads i
  · rw [hpc]
    intro h
    have hclean := ((G.entry i).blank P (hempty i h)).1
    rw [hdirt] at hclean
    cases hclean
  · have q := o.quiet (by rw [hinode]; exact ⟨rfl, rfl⟩) (by rw [hinode]) (reads_after hproc hP)
    exact q.says S (S.kept_after hproc fun j k h => absurd h (htrunc j k))

/-- Nothing but the buffers changes, and nobody goes on. -/
theorem Good.same (P : Fin n) (G : Good disks σ) (hsound : τ.table.Sound) (hpcs : ∀ Q, τ.pc Q = σ.pc Q)
    (hinode : τ.table.inode = σ.table.inode) (hrecord : τ.record = σ.record)
    (hsync : ∀ i, τ.syncing i = true → σ.syncing i = true) (hcoherent : Coherent τ.cache)
    (hmounted : Mounted disks τ.cache) : Good disks τ :=
  ⟨hsound, hcoherent, hmounted, fun i => (G.entry i).same (goes_of_same hpcs P i) (congrFun hinode i)
    (by rw [hrecord]) (hsync i)⟩

theorem Says.same (S : Says disks σ dev nr r) (hpcs : ∀ Q, τ.pc Q = σ.pc Q)
    (hinode : τ.table.inode = σ.table.inode) (hrecord : τ.record = σ.record)
    (hcache : τ.cache.d_inode (disks dev) dev nr = σ.cache.d_inode (disks dev) dev nr)
    (hbit : τ.table.bit = σ.table.bit) : Says disks τ dev nr r := by
  have hi : ∀ i, τ.inode i = σ.inode i := fun i => congrFun hinode i
  refine ⟨fun i his hread => ?_, fun hall => ?_, by rw [hbit]; exact S.bit, fun Q i k hQ his => ?_⟩
  · rw [hi] at his
    rw [hrecord]
    exact S.entry i his fun Q hQ => hread Q ((hpcs Q).trans hQ)
  · rw [hcache]
    refine S.disk fun i his => ?_
    rw [← hi]
    exact hall i (by rw [hi]; exact his)
  · rw [hpcs] at hQ
    rw [hi] at his
    exact S.kept Q i k hQ his

/-- Neither a process nor an entry nor the buffers change. -/
theorem carries_same (P : Fin n) (G : Good disks σ) (hsound : τ.table.Sound) (hpcs : ∀ Q, τ.pc Q = σ.pc Q)
    (hinode : τ.table.inode = σ.table.inode) (hrecord : τ.record = σ.record)
    (hsync : ∀ i, τ.syncing i = true → σ.syncing i = true) (hcache : τ.cache = σ.cache)
    (hbit : τ.table.bit = σ.table.bit) : Carries disks σ τ dev nr r :=
  ⟨G.same P hsound hpcs hinode hrecord hsync (by rw [hcache]; exact G.coherent)
    (by rw [hcache]; exact G.mounted),
    fun S => S.same hpcs hinode hrecord (by rw [hcache]) hbit⟩

/-! ### Steps that change an entry -/

/-- What is left of `Only` where the fields or the name of the entry change. -/
structure Rest (σ τ : Store n) (i : Fin 32) : Prop where
  inode : ∀ j, j ≠ i → τ.inode j = σ.inode j
  record : ∀ j, j ≠ i → τ.record j = σ.record j
  syncing : ∀ j, j ≠ i → τ.syncing j = σ.syncing j

theorem Rest.good (o : Rest σ τ i) (G : Good disks σ) (hsound : τ.table.Sound) (hcoherent : Coherent τ.cache)
    (hsuper : ∀ dev, τ.cache.get_super dev = σ.cache.get_super dev) (hgoes : ∀ j, j ≠ i → Goes σ τ P j)
    (hi : EntryGood τ i) : Good disks τ := by
  refine ⟨hsound, hcoherent, fun dev sb h => G.mounted dev sb ((hsuper dev).symm.trans h), fun j => ?_⟩
  by_cases hj : j = i
  · rw [hj]
    exact hi
  · exact (G.entry j).same (hgoes j hj) (o.inode j hj) (o.record j hj) (by rw [o.syncing j hj]; exact id)

/-- An entry has been cleared: the inode that was there, if it is this one, was clean. -/
theorem carries_clear (G : Good disks σ) (hsound : τ.table.Sound)
    (hproc : τ.table.proc = update σ.table.proc P p) (o : Rest σ τ i) {c : ℕ}
    (hinode : τ.inode i = { Inode.zero with count := c }) (hrecord : τ.record i = .zero)
    (hsync : τ.syncing i = σ.syncing i) (hcache : τ.cache = σ.cache)
    (hbit : Says disks σ dev nr r → τ.table.bit dev nr = true) (hfree : (σ.inode i).lock = false)
    (hclean : Says disks σ dev nr r → (σ.inode i).is dev nr → (σ.inode i).dirt = false) (hdev : dev ≠ 0)
    (howns : p.pc.owns = none) (hempty : ∀ e ∈ p.pc.empty, e ≠ i → e ∈ (σ.pc P).empty)
    (htrunc : ∀ j k, p.pc ≠ .putTrunc j k) (hP : ∀ j, σ.pc P ≠ .read j) : Carries disks σ τ dev nr r := by
  have hpc := pc_of_proc hproc
  have hnone : ∀ Q, (τ.pc Q).owns ≠ some i := by
    intro Q
    by_cases hQ : Q = P
    · rw [hQ, hpc, howns]
      exact nofun
    · rw [pc_others hproc Q hQ]
      exact (G.entry i).not_owned hfree Q
  have hnot : ¬(τ.inode i).is dev nr := by
    rw [hinode]
    exact fun h => hdev h.1.symm
  refine ⟨o.good G hsound (by rw [hcache]; exact G.coherent) (fun _ => by rw [hcache])
    (fun j hj => ⟨pc_others hproc, fun h => ?_, fun h => ?_, fun h => ?_⟩)
    (EntryGood.unlock (by rw [hinode]; rfl) (by rw [hinode]; rfl) (by rw [hinode, hrecord]; rfl) hnone ?_),
    fun S => ?_⟩
  · rw [hpc, howns] at h
    cases h
  · have howns' := owns_of_read h
    rw [hpc, howns] at howns'
    cases howns'
  · rw [hpc] at h
    exact hempty j h hj
  · rw [hsync]
    exact (G.entry i).not_syncing hfree
  · have hne : ∀ j, (τ.inode j).is dev nr → j ≠ i := by
      rintro j hj rfl
      exact hnot hj
    refine ⟨fun j hj hread => ?_, fun hall => ?_, hbit S, fun Q j k hQ hj => ?_⟩
    · have hji := hne j hj
      rw [o.inode j hji] at hj
      rw [o.record j hji]
      exact S.entry j hj fun Q hQ => hread Q (reads_after hproc hP Q j hQ)
    · rw [hcache]
      refine S.disk fun j hj => ?_
      by_cases hji : j = i
      · rw [hji] at hj ⊢
        exact hclean S hj
      · have hdirt := hall j (by rw [o.inode j hji]; exact hj)
        rwa [o.inode j hji] at hdirt
    · have hji := hne j hj
      rw [o.inode j hji] at hj
      exact S.kept_after hproc (fun j k h => absurd h (htrunc j k)) Q j k hQ hj

/-- An entry has been written to the disk. -/
theorem carries_written (G : Good disks σ) (hsound : τ.table.Sound)
    (hgoes : ∀ j, j ≠ i → Goes σ τ P j) (o : Rest σ τ i)
    (hinode : τ.inode i = { σ.inode i with dirt := false, lock := false }) (hrecord : τ.record i = σ.record i)
    (hsync : τ.syncing i = false) (hnone : ∀ Q, (τ.pc Q).owns ≠ some i)
    (hreads : ∀ Q j, σ.pc Q = .read j → τ.pc Q = .read j) (hnr : 1 ≤ nr)
    (htrunc : ∀ Q j k, τ.pc Q = .putTrunc j k → σ.pc Q = .putTrunc j k)
    (hw : Volume.Writes (σ.inode i).dev (σ.inode i).num (σ.record i) σ.cache τ.cache)
    (hbit : τ.table.bit = σ.table.bit) : Carries disks σ τ dev nr r := by
  have hname : ∀ j, (τ.inode j).is dev nr ↔ (σ.inode j).is dev nr := by
    intro j
    by_cases hj : j = i
    · rw [hj, hinode]
      exact Iff.rfl
    · rw [o.inode j hj]
  have hrec : τ.record = σ.record := by
    funext j
    by_cases hj : j = i
    · rw [hj, hrecord]
    · exact o.record j hj
  refine ⟨o.good G hsound hw.coherent hw.get_super hgoes
    (EntryGood.unlock (by rw [hinode]) (by rw [hinode]) ?_ hnone hsync),
    fun S => ⟨fun j hj hread => ?_, fun hall => ?_, by rw [hbit]; exact S.bit, fun Q j k hQ hj => ?_⟩⟩
  · rw [hinode, hrecord]
    exact (G.entry i).kinds
  · rw [hrec]
    exact S.entry j ((hname j).1 hj) fun Q hQ => hread Q (hreads Q j hQ)
  · by_cases hi : (σ.inode i).is dev nr
    · -- it is this inode that has been written
      have hr := S.entry i hi fun Q hQ => hnone Q (owns_of_read (hreads Q i hQ))
      obtain ⟨sb, hsuper, hhere⟩ := hw.here
      rw [hi.1, hi.2, hr, Kernel.d_inode, G.mounted _ sb hsuper, hi.1] at hhere
      exact hhere
    · rw [hw.others (disks dev) dev nr (G.mounted dev) hnr fun h => hi ⟨h.1.symm, h.2.symm⟩]
      refine S.disk fun j hj => ?_
      have hji : j ≠ i := by
        rintro rfl
        exact hi hj
      have hdirt := hall j ((hname j).2 hj)
      rwa [o.inode j hji] at hdirt
  · exact S.kept Q j k (htrunc Q j k hQ) ((hname j).1 hj)

/-- `iget` has given its empty entry the name of an inode that is not in the table. -/
theorem carries_install {dev' nr' : ℕ} (G : Good disks σ) (hsound : τ.table.Sound)
    (hproc : τ.table.proc = update σ.table.proc P p) (hpc : p.pc = .read e) (o : Only σ τ e)
    (hinode : τ.inode e = { σ.inode e with dev := dev', num := nr', lock := true })
    (hempty : e ∈ (σ.pc P).empty) (hP : ∀ j, σ.pc P ≠ .read j) : Carries disks σ τ dev nr r := by
  have hpc' : τ.pc P = .read e := (pc_of_proc hproc).trans hpc
  obtain ⟨hdirt, hlock⟩ := (G.entry e).blank P hempty
  have hcount : (σ.inode e).count = 1 := (G.sound.blank P e hempty).2
  have hothers := pc_others hproc
  have hrefs : e ∈ (σ.pc P).refs := Pc.refs_of_empty hempty
  have hentry : EntryGood τ e := by
    refine ⟨fun h => ?_, ?_,
      fun _ _ => by rw [hinode], fun Q R hQ hR => ?_, fun h => ?_, fun Q hQ => ?_, fun Q hQ => ?_⟩
    · rw [hinode, hdirt] at h
      cases h
    · rw [hinode, o.record]
      exact (G.entry e).kinds
    · have honly : ∀ Q, (τ.pc Q).owns = some e → Q = P := by
        intro Q hQ
        by_contra hne
        rw [hothers Q hne] at hQ
        exact (G.entry e).not_owned hlock Q hQ
      exact (honly Q hQ).trans (honly R hR).symm
    · rw [o.syncing, (G.entry e).not_syncing hlock] at h
      cases h
    · rw [hinode]
      exact ⟨hdirt, hcount⟩
    · by_cases hQP : Q = P
      · rw [hQP, hpc'] at hQ
        cases hQ
      · rw [hothers Q hQP] at hQ
        exact absurd hQ (G.not_empty_of_refs hQP hrefs)
  refine ⟨o.good G hsound (fun j hj => ⟨hothers, fun h => ?_, fun h => ?_, fun h => ?_⟩) hentry, fun S => ?_⟩
  · rw [hpc'] at h
    exact absurd (Option.some.inj h).symm hj
  · rw [hpc'] at h
    injection h with h
    exact absurd h.symm hj
  · rw [hpc'] at h
    cases h
  · refine ⟨fun j hj hread => ?_, fun hall => ?_, by rw [o.bit]; exact S.bit, fun Q j k hQ hj => ?_⟩
    · have hje : j ≠ e := by
        rintro rfl
        exact hread P hpc'
      rw [o.inode j hje] at hj
      rw [o.record]
      exact S.entry j hj fun Q hQ => hread Q (reads_after hproc hP Q j hQ)
    · rw [o.cache]
      refine S.disk fun j hj => ?_
      by_cases hje : j = e
      · rw [hje]
        exact hdirt
      · have h := hall j (by rw [o.inode j hje]; exact hj)
        rwa [o.inode j hje] at h
    · by_cases hQP : Q = P
      · rw [hQP, hpc'] at hQ
        cases hQ
      · have hje : j ≠ e := by
          rintro rfl
          rw [hothers Q hQP] at hQ
          refine G.not_empty_of_refs (P := P) (Q := Q) (Ne.symm hQP) ?_ hempty
          rw [hQ]
          exact List.mem_cons_self ..
        rw [o.inode j hje] at hj
        rw [hothers Q hQP] at hQ
        exact S.kept Q j k hQ hj

/-- `read_inode` has come back. -/
theorem carries_loaded {r' : Volume.DInode} (G : Good disks σ) (hsound : τ.table.Sound) (hdev : dev ≠ 0)
    (hproc : τ.table.proc = update σ.table.proc P p) (hpc : p.pc = .user) (o : Rest σ τ i)
    (hinode : τ.inode i = { σ.inode i with disk := kind r', lock := false }) (hrecord : τ.record i = r')
    (hsync : τ.syncing i = σ.syncing i) (hread : σ.pc P = .read i)
    (hr : σ.cache.d_inode (disks (σ.inode i).dev) (σ.inode i).dev (σ.inode i).num = some r')
    (hstill : Volume.Still σ.cache τ.cache)
    (hbit : τ.table.bit = σ.table.bit) : Carries disks σ τ dev nr r := by
  have hpc' : τ.pc P = .user := (pc_of_proc hproc).trans hpc
  have hothers := pc_others hproc
  have howns := owns_of_read hread
  obtain ⟨hdirt, -⟩ := (G.entry i).reading P hread
  have hsync' : σ.syncing i = false := by
    by_contra h
    exact ((G.entry i).syncing (eq_true_of_ne_false h)).2 P howns
  have hname : ∀ j, (τ.inode j).is dev nr ↔ (σ.inode j).is dev nr := by
    intro j
    by_cases hj : j = i
    · rw [hj, hinode]
      exact Iff.rfl
    · rw [o.inode j hj]
  have hsame : ∀ j, (τ.inode j).dirt = (σ.inode j).dirt := by
    intro j
    by_cases hj : j = i
    · rw [hj, hinode]
    · rw [o.inode j hj]
  refine ⟨o.good G hsound hstill.coherent hstill.get_super
    (fun j _ => ⟨hothers, fun h => ?_, fun h => ?_, fun h => ?_⟩)
    (EntryGood.unlock (by rw [hinode]; exact hdirt) (by rw [hinode]) (by rw [hinode, hrecord])
      ((G.entry i).not_owned_after hothers howns (by rw [hpc']; exact nofun)) (by rw [hsync, hsync'])),
      fun S => ?_⟩
  · rw [hpc'] at h
    cases h
  · rw [hpc'] at h
    cases h
  · rw [hpc'] at h
    cases h
  · refine ⟨fun j hj hread' => ?_, fun hall => ?_, by rw [hbit]; exact S.bit, fun Q j k hQ hj => ?_⟩
    · by_cases hji : j = i
      · -- nothing of the inode was in the table, so that it was on the disk
        subst hji
        have his := (hname j).1 hj
        have hdisk := S.disk fun j' hj' => by
          have heq := G.sound.single j j' (by rw [show (σ.table.inode j).dev = dev from his.1]; exact hdev)
            (by rw [show (σ.table.inode j).dev = dev from his.1, show (σ.table.inode j).num = nr from
              his.2]; exact hj')
          rw [← heq]
          exact hdirt
        rw [← his.1, ← his.2, hr] at hdisk
        rw [hrecord]
        exact Option.some.inj hdisk
      · rw [o.record j hji]
        refine S.entry j ((hname j).1 hj) fun Q hQ => ?_
        by_cases hQP : Q = P
        · rw [hQP, hread] at hQ
          injection hQ with hQ
          exact hji hQ.symm
        · exact hread' Q ((hothers Q hQP).trans hQ)
    · rw [hstill.d_inode]
      refine S.disk fun j hj => ?_
      rw [← hsame]
      exact hall j ((hname j).2 hj)
    · refine S.kept_after hproc (fun j k h => ?_) Q j k hQ ((hname j).1 hj)
      rw [hpc] at h
      cases h

/-- Another inode has been changed or made. -/
theorem Rest.says (o : Rest σ τ i) (S : Says disks σ dev nr r) (hbefore : ¬(σ.inode i).is dev nr)
    (hafter : ¬(τ.inode i).is dev nr) (hcache : τ.cache = σ.cache)
    (hbit : τ.table.bit dev nr = σ.table.bit dev nr)
    (hreads : ∀ Q j, σ.pc Q = .read j → τ.pc Q = .read j)
    (htrunc : ∀ Q j k, τ.pc Q = .putTrunc j k → σ.pc Q = .putTrunc j k) : Says disks τ dev nr r := by
  have hne : ∀ j, (τ.inode j).is dev nr → j ≠ i := by
    rintro j hj rfl
    exact hafter hj
  refine ⟨fun j hj hread => ?_, fun hall => ?_, by rw [hbit]; exact S.bit, fun Q j k hQ hj => ?_⟩
  · have hji := hne j hj
    rw [o.inode j hji] at hj
    rw [o.record j hji]
    exact S.entry j hj fun Q hQ => hread Q (hreads Q j hQ)
  · rw [hcache]
    refine S.disk fun j hj => ?_
    have hji : j ≠ i := by
      rintro rfl
      exact hbefore hj
    have hdirt := hall j (by rw [o.inode j hji]; exact hj)
    rwa [o.inode j hji] at hdirt
  · have hji := hne j hj
    rw [o.inode j hji] at hj
    exact S.kept Q j k (htrunc Q j k hQ) hj

/-- An inode has been changed by somebody who has it. -/
theorem carries_fields {r' : Volume.DInode} {d : Bool} (P : Fin n) (G : Good disks σ) (hsound : τ.table.Sound)
    (hproc : τ.table.proc = σ.table.proc) (o : Rest σ τ i)
    (hinode : τ.inode i = { σ.inode i with disk := kind r', dirt := d }) (hrecord : τ.record i = r')
    (hsync : τ.syncing i = σ.syncing i) (hcache : τ.cache = σ.cache) (hbit : τ.table.bit = σ.table.bit)
    (hcount : 0 < (σ.inode i).count) (hread : ∀ Q, σ.pc Q ≠ .read i) (hempty : ∀ Q, i ∉ (σ.pc Q).empty) :
    Good disks τ ∧ (¬(σ.inode i).is dev nr → Says disks σ dev nr r → Says disks τ dev nr r) := by
  have hpcs : ∀ Q, τ.pc Q = σ.pc Q := fun Q => by
    rw [pc, hproc]
    rfl
  have h := G.entry i
  have hentry : EntryGood τ i := by
    refine ⟨fun _ _ => by rw [hinode]; exact hcount, by rw [hinode, hrecord], fun Q hQ => ?_,
      fun Q R hQ hR => ?_,
      fun hs => ?_, fun Q hQ => ?_, fun Q hQ => ?_⟩
    · rw [hinode]
      exact h.locked Q (by rwa [hpcs] at hQ)
    · rw [hpcs] at hQ hR
      exact h.alone Q R hQ hR
    · rw [hsync] at hs
      rw [hinode]
      exact ⟨(h.syncing hs).1, fun Q => by rw [hpcs]; exact (h.syncing hs).2 Q⟩
    · rw [hpcs] at hQ
      exact absurd hQ (hread Q)
    · rw [hpcs] at hQ
      exact absurd hQ (hempty Q)
  refine ⟨o.good G hsound (by rw [hcache]; exact G.coherent)
    (fun _ => by rw [hcache]) (fun j _ => goes_of_same hpcs P j) hentry,
    fun hnot S => ?_⟩
  exact o.says S hnot (by rw [hinode]; exact hnot) hcache (by rw [hbit]) (fun Q j h => (hpcs Q).trans h)
    fun Q j k h => (hpcs Q).symm.trans h

/-- `new_inode` has given its empty entry a number. -/
theorem carries_allocated {r' : Volume.DInode} {t : Inode} (G : Good disks σ) (hsound : τ.table.Sound)
    (hproc : τ.table.proc = update σ.table.proc P p) (hpc : p.pc = .user) (o : Rest σ τ i)
    (hinode : τ.inode i = t) (hcount : t.count = 1) (hkind : t.disk = kind r')
    (hrecord : τ.record i = r') (hsync : τ.syncing i = σ.syncing i) (hcache : τ.cache = σ.cache)
    (hbit : Says disks σ dev nr r → ¬t.is dev nr ∧ τ.table.bit dev nr = σ.table.bit dev nr) (hdev : dev ≠ 0)
    (hempty : i ∈ (σ.pc P).empty) (hP : ∀ j, σ.pc P ≠ .read j) : Carries disks σ τ dev nr r := by
  have hpc' : τ.pc P = .user := (pc_of_proc hproc).trans hpc
  have hothers := pc_others hproc
  obtain ⟨-, hfree⟩ := (G.entry i).blank P hempty
  have hnone : ∀ Q, (τ.pc Q).owns ≠ some i := by
    intro Q
    by_cases hQ : Q = P
    · rw [hQ, hpc']
      exact nofun
    · rw [hothers Q hQ]
      exact (G.entry i).not_owned hfree Q
  have hentry : EntryGood τ i := by
    refine ⟨fun _ _ => by rw [hinode, hcount]; exact Nat.one_pos, by rw [hinode, hrecord, hkind],
      fun Q hQ => absurd hQ (hnone Q), fun Q _ hQ _ => absurd hQ (hnone Q), fun hs => ?_,
      fun Q hQ => absurd (owns_of_read hQ) (hnone Q), fun Q hQ => ?_⟩
    · rw [hsync, (G.entry i).not_syncing hfree] at hs
      cases hs
    · by_cases hQP : Q = P
      · rw [hQP, hpc'] at hQ
        cases hQ
      · rw [hothers Q hQP] at hQ
        exact absurd hQ (G.not_empty_of_refs hQP (Pc.refs_of_empty hempty))
  refine ⟨o.good G hsound (by rw [hcache]; exact G.coherent) (fun _ => by rw [hcache])
    (fun j _ => ⟨hothers, fun h => ?_, fun h => ?_, fun h => ?_⟩) hentry, fun S => ?_⟩
  · rw [hpc'] at h
    cases h
  · rw [hpc'] at h
    cases h
  · rw [hpc'] at h
    cases h
  · obtain ⟨hnot, hsame⟩ := hbit S
    refine o.says S (fun h => ?_) (by rw [hinode]; exact hnot) hcache hsame
      (reads_after hproc hP) fun Q j k hQ => ?_
    · exact hdev (h.1.symm.trans (G.sound.blank P i hempty).1)
    · by_cases hQP : Q = P
      · rw [hQP, hpc'] at hQ
        cases hQ
      · rwa [hothers Q hQP] at hQ

end Store

end OldLinux.Inodes
