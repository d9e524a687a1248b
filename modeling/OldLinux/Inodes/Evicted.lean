import OldLinux.Inodes.Survival
import OldLinux.Volume.Allocation

/-!
# What iget gets back

In every run the entries that nobody has are clean, only the inode that is written changes on the disk,
and an inode with links that has gone out of the table comes back with the fields it had.
-/

namespace OldLinux.Inodes

open Lib
open OldLinux.Volume (Kernel SuperBlock Coherent S_ISBLK read_inode write_inode)

namespace Store

variable {n : ℕ} {σ τ : Store n} {P Q : Fin n} {i j : Fin 32} {dev nr : ℕ} {r : Volume.DInode}
variable {disks : ℕ → SuperBlock} {a : Fin n × StoreEvent n}

/-! ### A step -/

/-- **Every step keeps** the invariant, and the fields of an inode that it does not change itself. -/
theorem step_carries (hlinks : r.i_nlinks.toNat ≠ 0) (hdev : dev ≠ 0) (hnr : 1 ≤ nr) (G : Good disks σ)
    (ha : Allowed disks σ a) (hs : step σ a = some τ) :
    Good disks τ ∧ (nr ≤ (disks dev).s_ninodes → Leaves dev nr σ a → Says disks σ dev nr r →
      Says disks τ dev nr r) := by
  have of_carries : Carries disks σ τ dev nr r → Good disks τ ∧ (nr ≤ (disks dev).s_ninodes →
      Leaves dev nr σ a → Says disks σ dev nr r → Says disks τ dev nr r) := fun h => ⟨h.1, fun _ _ => h.2⟩
  obtain ⟨P, ev⟩ := a
  rw [step] at hs
  split at hs
  · cases hs
  rename_i hcalm
  have hcalm : σ.table.panicked = false := eq_false_of_ne_true hcalm
  have table_step : ∀ e : Event n, e ≠ .run → (∀ i t, e ≠ .modify i t) → (∀ m, e ≠ .bit (some m)) →
      Table.Listed σ.table (P, e) → (σ.table.step (P, e)).map σ.setTable = some τ →
      Carries disks σ τ dev nr r := by
    intro e hrun hmodify hbit hlisted hmap
    obtain ⟨t, ht, heq⟩ := Option.map_eq_some_iff.1 hmap
    rw [← heq]
    exact table_carries hlinks G hlisted hrun hmodify hbit ht
  cases ev with
  | table e =>
    obtain ⟨hlisted, hfree⟩ := ha
    cases e with
    | run => exact of_carries (run_carries hlinks hdev hnr G hlisted (hfree rfl) hcalm hs)
    | modify i t => cases hs
    | bit m =>
      cases m with
      | some m => cases hs
      | none => exact of_carries (table_step (.bit none) nofun (fun _ _ => nofun) (fun _ => nofun) hlisted hs)
    | iget dev' nr' => exact of_carries (table_step (.iget dev' nr') nofun (fun _ _ => nofun)
      (fun _ => nofun) hlisted hs)
    | newInode dev' => exact of_carries (table_step (.newInode dev') nofun (fun _ _ => nofun)
      (fun _ => nofun) hlisted hs)
    | getEmpty => exact of_carries (table_step (.getEmpty) nofun (fun _ _ => nofun) (fun _ => nofun) hlisted hs)
    | iput i => exact of_carries (table_step (.iput i) nofun (fun _ _ => nofun) (fun _ => nofun) hlisted hs)
    | share i Q => exact of_carries (table_step (.share i Q) nofun (fun _ _ => nofun)
      (fun _ => nofun) hlisted hs)
    | give i Q => exact of_carries (table_step (.give i Q) nofun (fun _ _ => nofun) (fun _ => nofun) hlisted hs)
    | mount i dev' => exact of_carries (table_step (.mount i dev') nofun (fun _ _ => nofun)
      (fun _ => nofun) hlisted hs)
  | modify i r' =>
    obtain ⟨t, ht, heq⟩ := Option.map_eq_some_iff.1 hs
    cases heq
    rw [Table.step, if_neg (by rw [hcalm]; exact Bool.false_ne_true)] at ht
    cases hpc : (σ.table.proc P).pc <;> simp only [hpc, reduceCtorEq] at ht
    obtain ⟨hi, heq⟩ := Option.ite_none_right_eq_some.1 ht
    obtain ⟨hgood, hkeeps⟩ := fields_carries G (Option.some.inj heq).symm (List.mem_append_left _ hi)
      (fun Q => G.not_read hi) fun Q => G.not_empty hi
    exact ⟨hgood, fun _ hleaves => hkeeps (hleaves i r' rfl)⟩
  | made m i_uid i_gid i_time =>
    cases hpc : (σ.table.proc P).pc <;> simp only [hpc, reduceCtorEq] at hs
    rename_i i dev'
    obtain ⟨t, ht, heq⟩ := Option.map_eq_some_iff.1 hs
    cases heq
    rw [Table.step, if_neg (by rw [hcalm]; exact Bool.false_ne_true)] at ht
    simp only [hpc] at ht
    obtain ⟨hbit, heq⟩ := Option.ite_none_right_eq_some.1 ht
    obtain rfl := Option.some.inj heq
    refine of_carries (made_carries G hpc hbit ?_ hdev)
    rw [(G.entry i).kinds]
    rfl
  | cut i_zone i_size i_time dirt =>
    cases hpc : (σ.table.proc P).pc <;> simp only [hpc, reduceCtorEq] at hs
    rename_i i k
    have hrefs : (σ.pc P).refs = i :: k.refs := by
      rw [show σ.pc P = .putTrunc i k from hpc]
      rfl
    have hi : i ∈ (σ.pc P).refs := by
      rw [hrefs]
      exact List.mem_cons_self ..
    have hread : ∀ Q, σ.pc Q ≠ .read i := by
      intro Q hQ
      by_cases hQP : Q = P
      · rw [hQP, show σ.pc P = .putTrunc i k from hpc] at hQ
        cases hQ
      · exact G.not_read_of_refs hQP hi hQ
    have hempty : ∀ Q, i ∉ (σ.pc Q).empty := by
      intro Q hQ
      by_cases hQP : Q = P
      · rw [hQP, show σ.pc P = .putTrunc i k from hpc] at hQ
        exact G.sound.ne_empty hrefs (by rw [hpc]; rfl) hQ rfl
      · exact G.not_empty_of_refs hQP hi hQ
    generalize hr' : ({ σ.record i with i_zone, i_size, i_time } : Volume.DInode) = r' at hs
    have hkind : kind r' = (σ.table.inode i).disk := by
      rw [← hr']
      exact (G.entry i).kinds.symm
    obtain ⟨hgood, hkeeps⟩ := fields_carries (d := (σ.table.inode i).dirt || dirt) G (by rw [hkind])
      (List.mem_append_right _ hi) hread hempty
    rw [← Option.some.inj hs]
    exact ⟨hgood, fun _ _ S => hkeeps (S.kept P i k hpc) S⟩
  | sync i =>
    dsimp only at hs
    obtain ⟨⟨hfree, hdirt, -⟩, heq⟩ := Option.ite_none_right_eq_some.1 hs
    cases heq
    exact of_carries (sync_carries P G hfree hdirt)
  | synced i =>
    dsimp only at hs
    obtain ⟨hsync, heq⟩ := Option.ite_none_right_eq_some.1 hs
    cases heq
    have hsound : (σ.table.written i).Sound :=
      (Table.modify_spec (t := { σ.table.inode i with dirt := false, lock := false })
      (τ := σ.table.written i) G.sound rfl rfl rfl rfl rfl G.sound.sb rfl rfl P).1
    exact of_carries (carries_synced P G hsound hsync hnr)
  | cache s =>
    cases hs
    refine ⟨G.same P G.sound (fun _ => rfl) rfl rfl (fun _ => id) ha.coherent ha.mounted, fun hmax _ S =>
      S.same (fun _ => rfl) rfl rfl (ha.d_inode dev nr hnr hmax) rfl⟩

theorem Start.good (h : Start disks σ) : Good disks σ := by
  have hinode : ∀ i, σ.inode i = Inode.zero := h.table.inode
  have hpc : ∀ P, σ.pc P = .user := fun P => congrArg Proc.pc (h.table.proc P)
  refine ⟨h.table.sound, h.coherent, h.mounted, fun i => ?_⟩
  refine ⟨fun hdirt => ?_, ?_, fun P howns => ?_, fun P _ howns => ?_, fun hsync => ?_, fun P hread => ?_,
    fun P hempty => ?_⟩
  · rw [hinode] at hdirt
    cases hdirt
  · rw [hinode, h.record]
    rfl
  · rw [hpc] at howns
    cases howns
  · rw [hpc] at howns
    cases howns
  · rw [h.syncing] at hsync
    cases hsync
  · rw [hpc] at hread
    cases hread
  · rw [hpc] at hempty
    cases hempty

theorem reach_good (h : Reach (Start disks) step (Allowed disks) σ) : Good disks σ := by
  refine h.invariant (fun _ hs => hs.good) fun s a t G ha hs => ?_
  have hlinks : (⟨0, 0, 0, 0, 0, 1, fun _ => 0⟩ : Volume.DInode).i_nlinks.toNat ≠ 0 := by decide
  exact (step_carries hlinks Nat.one_ne_zero (Nat.le_refl 1) G ha hs).1

/-- No step of the run changes the inode from outside. -/
theorem exec_says {es : List (Fin n × StoreEvent n)} (hlinks : r.i_nlinks.toNat ≠ 0)
    (hdev : dev ≠ 0) (hnr : 1 ≤ nr)
    (hmax : nr ≤ (disks dev).s_ninodes) (G : Good disks σ) (S : Says disks σ dev nr r)
    (halong : Along step (fun s a => Allowed disks s a ∧ Leaves dev nr s a) σ es)
    (hexec : exec step σ es = some τ) :
    Good disks τ ∧ Says disks τ dev nr r := by
  induction es generalizing σ with
  | nil =>
    cases hexec
    exact ⟨G, S⟩
  | cons a es ih =>
    obtain ⟨ρ, hρ, hrest⟩ := Option.bind_eq_some_iff.1 hexec
    obtain ⟨⟨ha, hleaves⟩, hnext⟩ := halong
    obtain ⟨hgood, hkeeps⟩ := step_carries hlinks hdev hnr G ha hρ
    exact ih hgood (hkeeps hmax hleaves S) (hnext ρ hρ) hrest

/-! ### What is on the disk -/

/-- **A step writes one inode at most**, the one in the entry that is being written. -/
theorem write_others (G : Good disks σ) (hnr : 1 ≤ nr) (t : Table n) :
    (σ.write i t).cache.d_inode (disks dev) dev nr = σ.cache.d_inode (disks dev) dev nr ∨
      (σ.inode i).is dev nr ∧ (σ.write i t).cache.d_inode (disks dev) dev nr = some (σ.record i) := by
  rcases write_cases (i := i) G t with hpanic | ⟨s, hw, hwrite⟩
  · rw [hpanic]
    exact Or.inl rfl
  · rw [hwrite]
    by_cases his : (σ.inode i).is dev nr
    · obtain ⟨sb, hsuper, hhere⟩ := hw.here
      rw [his.1, his.2, Kernel.d_inode, G.mounted dev sb (his.1 ▸ hsuper)] at hhere
      exact Or.inr ⟨his, hhere⟩
    · exact Or.inl (hw.others (disks dev) dev nr (G.mounted dev) hnr fun h => his ⟨h.1.symm, h.2.symm⟩)

theorem run_others (G : Good disks σ) (hnr : 1 ≤ nr) (hs : σ.run P = some τ) :
    τ.cache.d_inode (disks dev) dev nr = σ.cache.d_inode (disks dev) dev nr ∨
      ∃ i, (σ.inode i).is dev nr ∧ τ.cache.d_inode (disks dev) dev nr = some (σ.record i) := by
  obtain ⟨t, ht, rfl⟩ := Option.map_eq_some_iff.1 hs
  cases hpc : (σ.table.proc P).pc with
  | read i =>
    dsimp only
    rcases read_cases (i := i) G P with hpanic | ⟨r', s, -, hstill, hread⟩
    · rw [hpanic]
      exact Or.inl rfl
    · rw [hread]
      exact Or.inl (hstill.d_inode ..)
  | emptyWrite c i => exact (write_others G hnr t).imp_right fun h => ⟨i, h⟩
  | putWrite i k => exact (write_others G hnr t).imp_right fun h => ⟨i, h⟩
  | emptyWait c i =>
    dsimp only
    split
    · exact Or.inl rfl
    · exact Or.inl rfl
  | putTrunc i k =>
    dsimp only
    split
    · exact Or.inl rfl
    · exact Or.inl rfl
  | _ => exact Or.inl rfl

theorem step_others (G : Good disks σ) (hnr : 1 ≤ nr) (hcache : ∀ s, a.2 ≠ .cache s) (hs : step σ a = some τ) :
    τ.cache.d_inode (disks dev) dev nr = σ.cache.d_inode (disks dev) dev nr ∨
      ∃ i, (σ.inode i).is dev nr ∧ τ.cache.d_inode (disks dev) dev nr = some (σ.record i) := by
  obtain ⟨P, ev⟩ := a
  rw [step] at hs
  split at hs
  · cases hs
  have htable : ∀ o : Option (Table n), o.map σ.setTable = some τ → τ.cache = σ.cache := by
    intro o ho
    obtain ⟨t, -, rfl⟩ := Option.map_eq_some_iff.1 ho
    rfl
  cases ev with
  | table e =>
    cases e with
    | run => exact run_others G hnr hs
    | modify i t => cases hs
    | bit m =>
      cases m with
      | some m => cases hs
      | none => exact Or.inl (by rw [htable _ hs])
    | _ => exact Or.inl (by rw [htable _ hs])
  | modify i r' =>
    obtain ⟨t, -, rfl⟩ := Option.map_eq_some_iff.1 hs
    exact Or.inl rfl
  | made m i_uid i_gid i_time =>
    cases hpc : (σ.table.proc P).pc <;> simp only [hpc, reduceCtorEq] at hs
    obtain ⟨t, -, rfl⟩ := Option.map_eq_some_iff.1 hs
    exact Or.inl rfl
  | cut i_zone i_size i_time dirt =>
    cases hpc : (σ.table.proc P).pc <;> simp only [hpc, reduceCtorEq] at hs
    rw [← Option.some.inj hs]
    exact Or.inl rfl
  | sync i =>
    obtain ⟨-, heq⟩ := Option.ite_none_right_eq_some.1 hs
    rw [← Option.some.inj heq]
    exact Or.inl rfl
  | synced i =>
    obtain ⟨-, heq⟩ := Option.ite_none_right_eq_some.1 hs
    rw [← Option.some.inj heq]
    exact (write_others G hnr _).imp_right fun h => ⟨i, h⟩
  | cache s => exact absurd rfl (hcache s)

/-! ### A change of one inode -/

/-- Each inode has one link. -/
def smallInodes (z w : ℕ) : ℕ := if z = 4 ∧ w % 16 = 6 then 256 else 0

/-- The device 1 is mounted, and nobody has an inode. -/
def small (n : ℕ) : Store n where
  table := Table.boot n
  record _ := .zero
  cache := Volume.smallKernel (fun _ => 65535) smallInodes
  syncing _ := false

theorem small_start (n : ℕ) : Start (fun _ => Volume.smallSuper) (small n) := by
  refine ⟨Table.boot_start n, fun _ => rfl, Volume.small_coherent (fun _ => 65535) smallInodes,
    fun dev sb h => ?_, fun _ => rfl⟩
  rw [Kernel.get_super] at h
  obtain ⟨-, hfind⟩ := Option.ite_none_left_eq_some.1 h
  obtain ⟨k, -, hk⟩ := List.mem_map.1 (List.mem_of_find?_eq_some hfind)
  rw [← hk]
  rfl

/-- `iget`, and a change of the inode. -/
def changeRun (r : Volume.DInode) : List (Fin 1 × StoreEvent 1) :=
  [(0, .table (.iget 1 5)), (0, .table .run), (0, .table .run), (0, .table .run), (0, .modify 1 r)]

theorem change_along (r : Volume.DInode) :
    Along step (Allowed fun _ => Volume.smallSuper) (small 1) (changeRun r) := by
  refine ⟨⟨trivial, fun h => by cases h⟩, fun s hs => ?_⟩
  cases hs
  refine ⟨⟨trivial, fun _ _ _ h => by cases h⟩, fun s hs => ?_⟩
  cases hs
  refine ⟨⟨fun _ => rfl, fun _ _ _ h => by cases h⟩, fun s hs => ?_⟩
  cases hs
  refine ⟨⟨trivial, fun _ _ _ h => by cases h⟩, fun s hs => ?_⟩
  cases hs
  exact ⟨trivial, fun _ _ => trivial⟩

/-- The last link of an inode goes. -/
def unlinked : Volume.DInode := ⟨0, 0, 0, 0, 0, 0, fun _ => 0⟩

/-- `iput`, which frees the inode. -/
def freeRun : List (Fin 1 × StoreEvent 1) := [(0, .table (.iput 1)), (0, .table .run), (0, .table .run)]

theorem free_along {σ : Store 1} (h : exec step (small 1) (changeRun unlinked) = some σ) :
    Along step (fun s a => Allowed (fun _ => Volume.smallSuper) s a ∧ Leaves 1 5 s a) σ freeRun := by
  cases h
  refine ⟨⟨⟨trivial, fun h => by cases h⟩, fun _ _ h => by cases h⟩, fun s hs => ?_⟩
  cases hs
  refine ⟨⟨⟨trivial, fun _ _ _ h => by cases h⟩, fun _ _ h => by cases h⟩, fun s hs => ?_⟩
  cases hs
  refine ⟨⟨⟨trivial, fun _ i k h => ?_⟩, fun _ _ h => by cases h⟩, fun _ _ => trivial⟩
  cases h
  rfl

/-! ### All runs -/

/-- What is to come back: the fields of the inode since it was last changed, or, if it is not in the table,
what is on the disk. -/
def Has (disks : ℕ → SuperBlock) (σ : Store n) (dev nr : ℕ) (r : Volume.DInode) : Prop :=
  (∃ i, (σ.inode i).is dev nr ∧ (σ.inode i).dirt = true ∧ σ.record i = r ∧ ∀ P k, σ.pc P ≠ .putTrunc i k) ∨
  ((∀ i, ¬(σ.inode i).is dev nr) ∧ σ.table.bit dev nr = true ∧ σ.cache.d_inode (disks dev) dev nr = some r)

/-- Whoever has got the inode has got these fields, and they are on the disk unless its entry is dirty. -/
def Back (disks : ℕ → SuperBlock) (σ : Store n) (dev nr : ℕ) (r : Volume.DInode) : Prop :=
  (∀ P, ∀ i ∈ (σ.table.proc P).held, (σ.inode i).is dev nr → σ.record i = r) ∧
  ((∀ i, (σ.inode i).is dev nr → (σ.inode i).dirt = false) → σ.cache.d_inode (disks dev) dev nr = some r)

/-- Inodes with such fields come back, a step writes no other inode than the one of an entry, and entries
that nobody has are clean. -/
structure Survives (disks : ℕ → SuperBlock) (keep : Volume.DInode → Prop) (σ : Store n) : Prop where
  back : ∀ dev nr r, dev ≠ 0 → 1 ≤ nr → nr ≤ (disks dev).s_ninodes → keep r → Has disks σ dev nr r →
    ∀ es τ, Along step (fun s a => Allowed disks s a ∧ Leaves dev nr s a) σ es → exec step σ es = some τ →
      Back disks τ dev nr r
  others : ∀ a τ dev nr, Allowed disks σ a → (∀ s, a.2 ≠ .cache s) → step σ a = some τ → 1 ≤ nr →
    τ.cache.d_inode (disks dev) dev nr = σ.cache.d_inode (disks dev) dev nr ∨
      ∃ i, (σ.inode i).is dev nr ∧ τ.cache.d_inode (disks dev) dev nr = some (σ.record i)
  clean : ∀ i, (σ.inode i).count = 0 → (σ.inode i).dev ≠ 0 → (σ.inode i).dirt = false

theorem Has.known (h : Has disks σ dev nr r) (G : Good disks σ) (hdev : dev ≠ 0) : Says disks σ dev nr r := by
  rcases h with ⟨i, his, hdirt, hrecord, hkept⟩ | ⟨hnone, hbit, hdisk⟩
  · have honly : ∀ j, (σ.inode j).is dev nr → j = i := by
      intro j hj
      refine (G.sound.single i j ?_ ?_).symm
      · rw [show (σ.table.inode i).dev = dev from his.1]
        exact hdev
      · rw [show (σ.table.inode i).dev = dev from his.1, show (σ.table.inode i).num = nr from his.2]
        exact hj
    refine ⟨fun j hj _ => by rw [honly j hj, hrecord], fun hclean => ?_, ?_, fun P j k hP hj => ?_⟩
    · rw [hclean i his] at hdirt
      cases hdirt
    · have hbit := G.sound.bits i (by rw [show (σ.table.inode i).dev = dev from his.1]; exact hdev)
      rwa [show (σ.table.inode i).dev = dev from his.1, show (σ.table.inode i).num = nr from his.2] at hbit
    · rw [honly j hj] at hP
      exact hkept P k hP
  · exact ⟨fun j hj _ => absurd hj (hnone j), fun _ => hdisk, hbit, fun _ j _ _ => hnone j⟩

theorem Says.back (S : Says disks σ dev nr r) (G : Good disks σ) : Back disks σ dev nr r :=
  ⟨fun _ i hi his => S.entry i his fun _ => G.not_read hi, S.disk⟩

/-- **Inodes survive eviction**, as long as they have links. -/
theorem inodes_survive (h : Reach (Start disks) step (Allowed disks) σ) :
    Survives disks (fun r => r.i_nlinks ≠ 0) σ := by
  have G := reach_good h
  refine ⟨fun dev nr r hdev hnr hmax hkeep hhas es τ halong hexec => ?_,
    fun a τ dev nr _ hcache hs hnr => step_others G hnr hcache hs, fun i hcount hdev => ?_⟩
  · have hlinks : r.i_nlinks.toNat ≠ 0 := fun hzero => hkeep (UInt8.toNat_inj.1 hzero)
    obtain ⟨hgood, S⟩ := exec_says hlinks hdev hnr hmax G (hhas.known G hdev) halong hexec
    exact S.back hgood
  · by_contra hdirt
    have hpos := (G.entry i).clean (eq_true_of_ne_false hdirt) hdev
    omega

set_option maxRecDepth 8000 in
/-- A file has grown. -/
theorem inodes_survive_grown : ∃ σ : Store 1,
    ((σ.inode 1).is 1 5 ∧ (σ.record 1).i_size = 7 ∧ (σ.record 1).i_nlinks = 1) ∧
      Survives (fun _ => Volume.smallSuper) (fun r => r.i_nlinks ≠ 0) σ := by
  obtain ⟨σ, hexec, hnamed⟩ : ∃ σ, exec step (small 1) (changeRun ⟨0, 0, 7, 0, 0, 1, fun _ => 0⟩) = some σ ∧
        ((σ.inode 1).is 1 5 ∧ (σ.record 1).i_size = 7 ∧ (σ.record 1).i_nlinks = 1) :=
    ⟨_, rfl, ⟨rfl, rfl⟩, rfl, rfl⟩
  exact ⟨σ, hnamed, inodes_survive ((Reach.start (small_start 1)).exec (change_along _) hexec)⟩

set_option maxRecDepth 8000 in
/-- The change does not come back: the inode has been freed, and what is on the disk is older. -/
theorem unlinked_is_not_written : ¬∀ σ : Store 1,
    Reach (Start fun _ => Volume.smallSuper) step (Allowed fun _ => Volume.smallSuper) σ →
      Survives (fun _ => Volume.smallSuper) (fun _ => True) σ := by
  intro hall
  obtain ⟨σ, hexec, his, hdirt, hrecord, hpc, τ, hτ, hclean, hdisk⟩ : ∃ σ,
      exec step (small 1) (changeRun unlinked) = some σ ∧
      (σ.inode 1).is 1 5 ∧ (σ.inode 1).dirt = true ∧ σ.record 1 = unlinked ∧ σ.pc 0 = .user ∧
      ∃ τ, exec step σ freeRun = some τ ∧ (∀ i, (τ.inode i).dirt = false) ∧
        (τ.cache.d_inode Volume.smallSuper 1 5).map (fun r => r.i_nlinks) = some 1 :=
    ⟨_, rfl, ⟨rfl, rfl⟩, rfl, rfl, rfl, _, rfl, by decide, rfl⟩
  have h := (Reach.start (small_start 1)).exec (change_along unlinked) hexec
  have hhas : Has (fun _ => Volume.smallSuper) σ 1 5 unlinked := by
    refine Or.inl ⟨1, his, hdirt, hrecord, fun P k hP => ?_⟩
    rw [Fin.eq_zero P, hpc] at hP
    cases hP
  obtain ⟨-, hback⟩ := (hall σ h).back 1 5 unlinked (by decide) (by decide) (by decide) trivial hhas freeRun τ
    (free_along hexec) hτ
  rw [hback fun i _ => hclean i] at hdisk
  cases hdisk

end Store

end OldLinux.Inodes
