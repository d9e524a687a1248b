import Mathlib.Data.Fintype.BigOperators
import OldLinux.Syscalls.Returns

/-!
# `i_count` is exact between two calls

`fork`, `mount`, `umount` and `mount_root`, which set several pointers, and the runs of all calls.
-/

namespace OldLinux.Syscalls

open Function Lib Files

variable {held : List (Fin 32)} {P Q : Fin 64} {answers : ℕ → Answer} {k k' : Kernel} {i : Fin 32}
variable {F : Fin 64 → Option (Fin 32)} {ptr : Fin 64 → Slot → Option (Fin 32)}
variable {super : Fin 8 → Super} {s : Store} {sb : Fin 8} {dev : ℕ}

/-! ### `fork` -/

/-- The pointers of a new task are taken from the hand. -/
theorem Owned.row {nr : Fin 64} (row : Slot → Option (Fin 32)) (hnone : ∀ slot, ptr nr slot = none)
    (h : Owned (outer F ptr super)
      ((row .executable).toList ++ ((row .root).toList ++ ((row .pwd).toList ++ held))) s) :
    Owned (outer F (update ptr nr row) super) held s := by
  have hset : ∀ (p : Fin 64 → Slot → Option (Fin 32)) (slot : Slot) (x : Option (Fin 32))
      (rest : List (Fin 32)), p nr slot = none → Owned (outer F p super) (x.toList ++ rest) s →
      Owned (outer F (update p nr (update (p nr) slot x)) super) rest s := by
    intro p slot x rest hp hs
    have hswap := swap_ptr F p super nr slot x
    rw [hp] at hswap
    exact Owned.swap (x := none) hs hswap
  have h₁ := hset ptr .executable _ _ (hnone _) h
  have h₂ := hset _ .root _ _ (by simp [hnone]) h₁
  have h₃ := hset _ .pwd _ _ (by simp [hnone]) h₂
  simp only [update_idem, update_self] at h₃
  have hrow : update (update (update (ptr nr) .executable (row .executable))
      .root (row .root)) .pwd (row .pwd) = row := by
    funext slot
    cases slot <;> simp
  rw [hrow] at h₃
  exact h₃

theorem sysFork_child {σ : Table} {t : Task} {nr : Fin 64} {pid : ℤ}
    (hnr : (List.finRange 64).find? (fun i => decide (i ≠ 0 ∧ (σ.task i).isNone)) = some nr) :
    ¬Gone (σ.sysFork P t pid true) nr := by
  intro hgone
  rw [Table.sysFork, hnr] at hgone
  have htask : (((σ.set nr (t.returns 0)).countFiles t (List.finRange 20)).set P (t.returns pid)).task =
      update (σ.set nr (t.returns 0)).task P (some (t.returns pid)) := by
    rw [← (Table.countFiles_task (σ := σ.set nr (t.returns 0)) (t := t) (List.finRange 20)).1]
    rfl
  have hold := gone_of_update htask (fun h => by cases h) nr hgone
  have hz := hold _ Table.set_task_self
  cases hz

theorem sysFork_mid (pid : ℤ) : Serves P (Mid P .user []) (sysFork P answers pid) fun _ => Mid P .user [] := by
  refine TripleOr.now fun k hk => ?_
  rw [wp_bind]
  refine wp_fs (fun _ => ask_gives) hk.books.owned fun a s hs => ?_
  have hk₁ := hk.store hs
  obtain ⟨t, ht, hpc⟩ := hk₁.here
  rw [wp_bind]
  refine wp_onFiles ht ?_
  have hk₂ := hk₁.files (sysFork_turn hk₁.books.files ht hpc pid a.ok)
  cases hnr : (List.finRange 64).find? fun i => decide (i ≠ 0 ∧ (k.files.task i).isNone) with
  | none => exact hk₂
  | some nr =>
    show wp (if a.ok = true then _ else _) _ _ _
    rw [wp_ite]
    refine ⟨fun hok => ?_, fun _ => hk₂⟩
    have hfree := List.find?_some hnr
    rw [decide_eq_true_eq, Option.isNone_iff_eq_none] at hfree
    have hnone : ∀ slot, k.ptr nr slot = none := by
      intro slot
      refine hk.books.gone nr slot ?_
      intro u hu
      rw [hfree.2] at hu
      cases hu
    rw [wp_bind, wp_modify, wp_bind]
    refine wp_fs (fun _ => upOpt_gives _) hk₂.books.owned fun _ s₁ hs₁ => ?_
    rw [wp_bind]
    refine wp_fs (fun _ => upOpt_gives _) hs₁ fun _ s₂ hs₂ => ?_
    refine wp_fs (fun _ => upOpt_gives _) hs₂ fun _ s₃ hs₃ => ?_
    refine ⟨⟨hs₃.row (k.ptr P) hnone, hk₂.books.files, ?_, hk₂.books.blank⟩, hk₂.here⟩
    intro Q slot hQ
    have hne : Q ≠ nr := by
      rintro rfl
      rw [hok] at hQ
      exact sysFork_child hnr hQ
    show update k.ptr nr (k.ptr P) Q slot = none
    rw [update_of_ne hne]
    exact hk₂.books.gone Q slot hQ

/-! ### `mount` and `umount` -/

theorem getSuper_spec {v : View} (h : v.getSuper dev = some sb) : dev ≠ 0 ∧ (v.super sb).dev = dev := by
  rw [View.getSuper] at h
  split at h
  · cases h
  · rename_i hne
    have hsome := List.find?_some h
    exact ⟨hne, of_decide_eq_true hsome⟩

/-- Only the device of each super block counts for `get_super`. -/
theorem getSuper_congr {v w : View} (h : ∀ sb, (w.super sb).dev = (v.super sb).dev) :
    w.getSuper dev = v.getSuper dev := by
  simp only [View.getSuper, h]

/-- A super block without a device has no inode. -/
theorem blank_update {x : Super} (h : ∀ q, (super q).dev = 0 → (super q).isup = none ∧ (super q).imount = none)
    (hx : x.dev = 0 → x.isup = none ∧ x.imount = none) (q : Fin 8) (hq : (update super sb x q).dev = 0) :
    (update super sb x q).isup = none ∧ (update super sb x q).imount = none := by
  by_cases hne : q = sb
  · rw [hne, update_self] at hq ⊢
    exact hx hq
  · rw [update_of_ne hne] at hq ⊢
    exact h q hq

/-- A free super block is used, or not. -/
theorem Mid.blank (hk : Mid P .user held k) (hsb : (k.super sb).dev = 0) (dev : ℕ) :
    Mid P .user held (k.setSuper sb ⟨dev, none, none⟩) := by
  obtain ⟨hup, hmount⟩ := hk.books.blank sb hsb
  refine ⟨⟨?_, hk.books.files, hk.books.gone, blank_update hk.books.blank fun _ => ⟨rfl, rfl⟩⟩, hk.here⟩
  show Owned (outer _ k.ptr (update k.super sb ⟨dev, none, none⟩)) held k.store
  have hsame := outer_dev (filesOf .user k.files) k.ptr k.super sb dev
  rw [hup, hmount] at hsame
  exact hsame ▸ hk.books.owned

/-- All super blocks without an inode. -/
def NoneMounted (super : Fin 8 → Super) : Prop := ∀ sb, (super sb).isup = none ∧ (super sb).imount = none

theorem NoneMounted.set (h : NoneMounted super) : NoneMounted (update super sb ⟨dev, none, none⟩) := by
  intro q
  by_cases hne : q = sb
  · rw [hne, update_self]
    exact ⟨rfl, rfl⟩
  · rw [update_of_ne hne]
    exact h q

/-- The super block that `read_super` returns has a device; the inodes are as before. -/
theorem readSuper_wp (hk : Mid P .user held k) (dev : ℕ) : wp (readSuper P answers dev)
    (fun r k' => Mid P .user held k' ∧ k'.store.inode = k.store.inode ∧ k'.ptr = k.ptr ∧
      (∀ sb ∈ r, (k'.super sb).dev ≠ 0) ∧ (NoneMounted k.super → NoneMounted k'.super))
    (Dies P) k := by
  rw [readSuper, wp_bind, wp_get, wp_ite]
  have hnone : Mid P .user held k ∧ k.store.inode = k.store.inode ∧ k.ptr = k.ptr ∧
      (∀ sb ∈ (none : Option (Fin 8)), (k.super sb).dev ≠ 0) ∧ (NoneMounted k.super → NoneMounted k.super) :=
    ⟨hk, rfl, rfl, fun _ h => (by cases h), id⟩
  refine ⟨fun _ => hnone, fun hdev => ?_⟩
  cases hget : (k.view P answers).getSuper dev with
  | some sb =>
    refine ⟨hk, rfl, rfl, ?_, id⟩
    intro q hq
    cases hq
    exact (getSuper_spec hget).2.trans_ne hdev
  | none =>
    simp only
    split
    · exact hnone
    · rename_i sb hsb
      have hfree := List.find?_some hsb
      rw [decide_eq_true_eq] at hfree
      have hk₁ : Mid P .user held { k with store := { k.store with asked := k.store.asked + 1 } } :=
        hk.store hk.books.owned
      show wp (if (answers k.store.asked).ok = true then _ else _) _ _ _
      rw [wp_ite]
      refine ⟨fun _ => ?_, fun _ => ?_⟩
      · refine ⟨hk₁.blank hfree dev, rfl, rfl, ?_, fun h => h.set⟩
        intro q hq
        cases hq
        show (update k.super sb ⟨dev, none, none⟩ sb).dev ≠ 0
        rw [update_self]
        exact hdev
      · exact ⟨hk₁.blank hfree 0, rfl, rfl, fun _ h => (by cases h), fun h => h.set⟩

theorem putReturn_mid (ret : ℤ) :
    Serves P (Mid P .user (i :: held)) (putReturn P answers i ret) fun _ => Mid P .user held :=
  (Mid.fs fun _ _ => iput_gives).bind fun _ => returns_mid ret

/-- The inode of a mount point goes into the super block. -/
theorem Mid.setImount (sb : Fin 8) {x : Option (Fin 32)} (hk : Mid P .user (x.toList ++ held) k)
    (hsb : x = none ∨ (k.super sb).dev ≠ 0) :
    Mid P .user ((k.super sb).imount.toList ++ held) (k.setSuper sb { k.super sb with imount := x }) := by
  refine ⟨⟨hk.books.owned.swap (swap_imount _ k.ptr k.super sb _ x), hk.books.files, hk.books.gone,
    blank_update hk.books.blank fun hdev => ?_⟩, hk.here⟩
  exact ⟨(hk.books.blank sb hdev).1, hsb.resolve_right fun h => h hdev⟩

theorem Mid.setIsup (sb : Fin 8) {x : Option (Fin 32)} (hk : Mid P .user (x.toList ++ held) k)
    (hsb : x = none ∨ (k.super sb).dev ≠ 0) :
    Mid P .user ((k.super sb).isup.toList ++ held) (k.setSuper sb { k.super sb with isup := x }) := by
  refine ⟨⟨hk.books.owned.swap (swap_isup _ k.ptr k.super sb _ x), hk.books.files, hk.books.gone,
    blank_update hk.books.blank fun hdev => ?_⟩, hk.here⟩
  exact ⟨hsb.resolve_right fun h => h hdev, (hk.books.blank sb hdev).2⟩

theorem mountOn_mid :
    Serves P (Mid P .user (i :: held)) (mountOn P answers dev i) fun _ => Mid P .user held := by
  refine TripleOr.now fun k hk => ?_
  simp only
  rw [wp_ite]
  refine ⟨fun _ => putReturn_mid (-16) k hk, fun _ => ?_⟩
  rw [wp_ite]
  refine ⟨fun _ => putReturn_mid (-1) k hk, fun _ => ?_⟩
  rw [wp_bind]
  refine wp_mono (readSuper_wp hk dev) ?_ fun _ _ h => h
  rintro r k₁ ⟨hk₁, hinode, -, hdev, -⟩
  cases r with
  | none => exact putReturn_mid (-16) k₁ hk₁
  | some sb =>
    show wp (if (k₁.super sb).imount.isSome = true then _ else _) _ _ k₁
    rw [wp_ite]
    refine ⟨fun _ => putReturn_mid (-16) k₁ hk₁, fun himount => ?_⟩
    rw [wp_ite]
    refine ⟨fun _ => putReturn_mid (-1) k₁ hk₁, fun _ => ?_⟩
    have hnone : (k₁.super sb).imount = none := by
      cases h : (k₁.super sb).imount with
      | none => rfl
      | some _ =>
        rw [h] at himount
        exact absurd rfl himount
    have hk₂ := Mid.setImount sb (x := some i) hk₁ (Or.inr (hdev sb rfl))
    rw [hnone] at hk₂
    rw [wp_bind, wp_modify, wp_bind]
    have hcount : ({ k.store.inode i with mount := true, dirt := true } : Inode).count =
        ((k₁.setSuper sb { k₁.super sb with imount := some i }).store.inode i).count := by
      show (k.store.inode i).count = (k₁.store.inode i).count
      rw [hinode]
    have hset := hk₂.store (hk₂.books.owned.setInode hcount)
    exact returns_mid 0 _ hset

theorem sysMount_mid (hsafe : Safe answers) (devName dirName : List Char) : Serves P (Mid P .user [])
    (sysMount P answers devName dirName) fun _ => Mid P .user [] := by
  refine (Mid.begins hsafe rfl fun _ _ hv => deviceOf_gives hv (fun _ _ hs => hs) devName 1).bind fun r => ?_
  cases r with
  | error e => exact returns_mid (-e)
  | ok dev =>
    refine (Mid.begins hsafe rfl fun _ _ hv => namei_gives hv (fun _ _ hs => hs) dirName).bind fun r => ?_
    cases r with
    | none => exact returns_mid (-2)
    | some i => exact mountOn_mid

/-- `put_super` gives up a super block that has no inode. -/
theorem Mid.putSuper (sb : Fin 8) (hk : Mid P .user held k) (hget : (k.view P answers).getSuper dev = some sb)
    (hup : (k.super sb).isup = none) (hmount : (k.super sb).imount = none) :
    Mid P .user held (putSuper k P answers dev) := by
  rw [Syscalls.putSuper]
  split
  · exact hk
  · rw [hget]
    simp only [hmount, Option.isSome_none, Bool.false_eq_true, if_false]
    refine ⟨⟨?_, hk.books.files, hk.books.gone, blank_update hk.books.blank fun _ => ⟨hup, rfl⟩⟩, hk.here⟩
    have hsame := outer_dev (filesOf .user k.files) k.ptr k.super sb 0
    rw [hmount] at hsame
    exact hsame ▸ hk.books.owned

/-- The inode that the file system is mounted on and its root inode are given back. -/
theorem umountSuper_wp (hk : Mid P .user held k) (hget : (k.view P answers).getSuper dev = some sb)
    (hmount : (k.super sb).imount = some i) : wp (umountSuper P answers dev sb i)
      (fun _ => Mid P .user held) (Dies P) k := by
  rw [umountSuper, wp_bind, wp_get, wp_ite]
  refine ⟨fun _ => returns_mid (-16) k hk, fun _ => ?_⟩
  have hcount : ({ k.store.inode i with mount := false } : Inode).count = (k.store.inode i).count := rfl
  have hk₁ := hk.store (hk.books.owned.setInode hcount)
  have hk₂ := Mid.setImount sb (x := none) hk₁ (Or.inl rfl)
  rw [show ({ k with store := _ } : Kernel).super sb = k.super sb from rfl, hmount] at hk₂
  rw [wp_bind]
  show wp (do
    fs P answers fun v => iput v i
    _) _ _ { k with store := k.store.setInode i { k.store.inode i with mount := false } }
  rw [wp_bind]
  refine wp_fs (fun _ => iput_gives) hk₂.books.owned fun _ s hs => ?_
  have hk₃ := Mid.setIsup sb (x := none) (hk₂.store hs) (Or.inl rfl)
  rw [wp_bind, wp_modify, wp_bind]
  have hisup : (update k.super sb ⟨(k.super sb).dev, (k.super sb).isup, none⟩ sb).isup =
      (k.super sb).isup := by rw [update_self]
  refine wp_fs (fun _ => iputOpt_gives _) (hisup ▸ hk₃.books.owned) fun _ s' hs' => ?_
  have hk₄ := hk₃.store hs'
  have hlast : update (update k.super sb ⟨(k.super sb).dev, (k.super sb).isup, none⟩) sb
      { update k.super sb ⟨(k.super sb).dev, (k.super sb).isup, none⟩ sb with isup := none } =
      update k.super sb ⟨(k.super sb).dev, none, none⟩ := by
    rw [update_self, update_idem]
  rw [wp_bind, wp_modify, wp_bind, wp_modify]
  have hput : Mid P .user held (putSuper _ P answers dev) := Mid.putSuper sb hk₄ ?_ ?_ ?_
  · exact ((Mid.fs fun _ _ => syncDev_gives).bind fun _ => returns_mid 0) _ hput
  · rw [← hget]
    refine getSuper_congr fun q => (congrArg Super.dev (congrFun hlast q)).trans ?_
    by_cases hne : q = sb
    · rw [hne, update_self]
      rfl
    · rw [update_of_ne hne]
      rfl
  · exact (congrArg Super.isup (congrFun hlast sb)).trans (by rw [update_self])
  · exact (congrArg Super.imount (congrFun hlast sb)).trans (by rw [update_self])

theorem sysUmount_mid (hsafe : Safe answers) (devName : List Char) :
    Serves P (Mid P .user []) (sysUmount P answers devName) fun _ => Mid P .user [] := by
  refine (Mid.begins hsafe rfl fun _ _ hv => deviceOf_gives hv (fun _ _ hs => hs) devName 15).bind fun r => ?_
  cases r with
  | error e => exact returns_mid (-e)
  | ok dev =>
    refine TripleOr.now fun k hk => ?_
    rw [wp_ite]
    refine ⟨fun _ => returns_mid (-16) k hk, fun _ => ?_⟩
    cases hget : (k.view P answers).getSuper dev with
    | none => exact returns_mid (-2) k hk
    | some sb =>
      cases hmount : (k.super sb).imount with
      | none =>
        simp only [hmount]
        exact returns_mid (-2) k hk
      | some i =>
        simp only [hmount]
        exact umountSuper_wp hk hget hmount

/-! ### Runs -/

/-- **Every call balances.** -/
theorem Call.run_sound (hsafe : Safe answers) (c : Call) :
    Serves P (Mid P .user []) (c.run P answers) fun (_ : Unit) => Sound := by
  have hmid : ∀ {c : Sys Unit}, (Serves P (Mid P .user []) c fun _ => Mid P .user []) →
      Serves P (Mid P .user []) c fun _ => Sound := fun t => t.post fun _ _ h => h.sound rfl
  cases c with
  | sysOpen path flag mode => exact hmid (sysOpen_mid hsafe path flag mode)
  | sysCreat path mode => exact hmid (sysOpen_mid hsafe path _ mode)
  | sysClose fd => exact hmid (sysClose_mid fd)
  | sysDup fildes => exact hmid (sysDup_mid fildes)
  | sysDup2 oldfd newfd => exact hmid (sysDup2_mid oldfd newfd)
  | sysFcntl fd cmd arg => exact hmid (sysFcntl_mid fd cmd arg)
  | sysPipe => exact hmid (sysPipe_mid hsafe)
  | sysFork pid => exact hmid (sysFork_mid pid)
  | sysExecve path => exact hmid (sysExecve_mid hsafe path)
  | sysExit => exact sysExit_sound rfl
  | sysWaitpid i => exact hmid (sysWaitpid_mid hsafe i)
  | sysChdir path => exact hmid (sysChange_mid hsafe path)
  | sysChroot path => exact hmid (sysChange_mid hsafe path)
  | sysMknod path mode dev => exact hmid (plain_mid hsafe fun _ _ hv hD => sysMknod_gives hv hD path mode dev)
  | sysMkdir path mode => exact hmid (plain_mid hsafe fun _ _ hv hD => sysMkdir_gives hv hD path mode)
  | sysRmdir path => exact hmid (plain_mid hsafe fun _ _ hv hD => sysRmdir_gives hv hD path)
  | sysLink old new => exact hmid (plain_mid hsafe fun _ _ hv hD => sysLink_gives hv hD old new)
  | sysUnlink path => exact hmid (plain_mid hsafe fun _ _ hv hD => sysUnlink_gives hv hD path)
  | sysStat path => exact hmid (plain_mid hsafe fun _ _ hv hD => sysStat_gives hv hD path)
  | sysAccess path mode => exact hmid (plain_mid hsafe fun _ _ hv hD => sysAccess_gives hv hD path mode)
  | sysChmod path mode => exact hmid (plain_mid hsafe fun _ _ hv hD => sysChmod_gives hv hD path mode)
  | sysChown path uid gid => exact hmid (plain_mid hsafe fun _ _ hv hD => sysChown_gives hv hD path uid gid)
  | sysUtime path times => exact hmid (plain_mid hsafe fun _ _ hv hD => sysUtime_gives hv hD path times)
  | sysMount devName dirName => exact hmid (sysMount_mid hsafe devName dirName)
  | sysUmount devName => exact hmid (sysUmount_mid hsafe devName)

/-- A call that returns balances, and so does one whose process is killed, with `do_exit`. -/
theorem step_sound {e : Fin 64 × Call × (ℕ → Answer)} (h : Sound k) (hsafe : Safe e.2.2)
    (hs : k.step e = some k') : Sound k' := by
  obtain ⟨P, c, answers⟩ := e
  rw [Kernel.step] at hs
  split at hs
  · rename_i hpc
    obtain ⟨t, ht, hpc⟩ := Option.map_eq_some_iff.1 hpc
    have hmid : Mid P .user [] { k with store := { k.store with asked := 0 } } := by
      refine ⟨⟨?_, h.files, h.gone, h.blank⟩, t, ht, hpc⟩
      rw [filesOf_nil rfl]
      exact h.owned
    have hcall := Call.run_sound hsafe c _ hmid
    split at hs
    · rename_i k₁ hrun
      cases hs
      exact wp_ok (Q := fun _ => Sound) hcall hrun
    · rename_i k₁ hrun
      obtain ⟨pc, hnone, hk₁⟩ : ∃ pc, reservedFiles pc = [] ∧ Mid P pc [] k₁ := by
        rw [wp, hrun] at hcall
        exact hcall
      split at hs
      · rename_i k₂ hexit
        cases hs
        exact wp_ok (Q := fun _ => Sound) (sysExit_sound hnone k₁ hk₁) hexit
      · cases hs
    · cases hs
  · cases hs

/-- The start of the kernel: nothing points to an inode, and no file is in use. -/
theorem Boot.mid (h : Boot k) (hP : (k.files.task P).isSome = true) : Mid P .user [] { k with
    files := { k.files with file := fun f => { k.files.file f with count := 0 } }
    super := fun sb => { k.super sb with dev := 0 } } := by
  obtain ⟨t, ht⟩ := Option.isSome_iff_exists.1 hP
  refine ⟨⟨?_, ⟨?_, ?_, h.calm⟩, fun Q slot _ => h.ptr Q slot, fun sb _ => h.super sb⟩, t, ht,
    (h.filp P t ht).1⟩
  · intro i
    rw [List.count_nil, Nat.add_zero]
    refine (h.inode i).trans (Eq.symm ?_)
    rw [outer, Nat.add_eq_zero_iff, Nat.add_eq_zero_iff, refs_eq_zero, refs_eq_zero, refs_eq_zero]
    refine ⟨⟨?_, ?_⟩, ?_⟩
    · intro f hf
      rw [filesOf_nil rfl, filePtr_of_zero rfl] at hf
      cases hf
    · rintro ⟨Q, slot⟩ hptr
      exact absurd ((h.ptr Q slot).symm.trans hptr) (fun h => by cases h)
    · rintro ⟨sb, b⟩ hptr
      cases b with
      | false => exact absurd ((h.super sb).2.symm.trans hptr) (fun h => by cases h)
      | true => exact absurd ((h.super sb).1.symm.trans hptr) (fun h => by cases h)
  · intro f
    symm
    show refs _ f = 0
    rw [refs_eq_zero]
    rintro ⟨Q, fd⟩ hdesc
    obtain ⟨u, hu, hfd⟩ := Option.bind_eq_some_iff.1 hdesc
    rw [(h.filp Q u hu).2.2 fd] at hfd
    cases hfd
  · intro Q u hu
    obtain ⟨hpc, hbits, -⟩ := h.filp Q u hu
    refine Task.fine_of_quiet (by rw [hpc]; trivial) ?_ ?_
    · intro j hj
      rw [hbits] at hj
      simp at hj
    · rw [hpc]
      exact fun _ h => by cases h

theorem Mid.nothing {x : Option (Fin 32)} (h : Mid P .user (x.toList ++ held) k) (hx : x = none) :
    Mid P .user held k := by
  rw [hx] at h
  exact h

theorem mountRoot_mid (h : Boot k) (hP : (k.files.task P).isSome = true) :
    wp (mountRoot P answers) (fun _ => Mid P .user []) (Dies P) k := by
  have hk := h.mid hP
  rw [mountRoot, wp_bind, wp_modify, wp_bind, wp_get, wp_bind]
  refine wp_mono (readSuper_wp hk k.rootDev) ?_ fun _ _ h => h
  rintro r k₁ ⟨hk₁, -, hptr, hdev, hblank⟩
  cases r with
  | none => trivial
  | some sb =>
    have hsuper := hblank (fun sb => h.super sb) sb
    have hdev := hdev sb rfl
    rw [wp_bind]
    refine wp_fs (fun v => iget_gives _ _) hk₁.books.owned fun i s hs => ?_
    have hfour : Owned (outer (filesOf .user k₁.files) k₁.ptr k₁.super) [i, i, i, i]
        (s.setInode i { s.inode i with count := (s.inode i).count + 3 }) := by
      refine hs.move ?_ ?_
      · have hi := hs i
        simp only [List.count_cons_self, List.count_nil] at hi ⊢
        show (s.inode i).count + 3 = _
        omega
      · intro j hj
        simp only [List.count_cons_of_ne (Ne.symm hj)]
    have hk₃ := hk₁.store hfour
    have hup := Mid.setIsup sb (x := some i) hk₃ (Or.inr hdev)
    rw [show ({ k₁ with store := _ } : Kernel).super sb = k₁.super sb from rfl, hsuper.1] at hup
    have hdev' : (update k₁.super sb { k₁.super sb with isup := some i } sb).dev ≠ 0 := by
      rw [update_self]
      exact hdev
    have hmount := Mid.setImount sb (x := some i) hup (Or.inr hdev')
    simp only [Kernel.setSuper, update_self, update_idem, hsuper.2] at hmount
    have hpwd := Mid.setPtr .pwd (x := some i) hmount fun h => (by cases h)
    rw [show k₁.ptr P .pwd = none from (congrFun (congrFun hptr P) .pwd).trans (h.ptr P .pwd)] at hpwd
    have hroot := Mid.setPtr .root (x := some i) hpwd fun h => (by cases h)
    have hnone : update k₁.ptr P (update (k₁.ptr P) .pwd (some i)) P .root = none := by
      rw [update_self, update_of_ne (fun h => by cases h)]
      exact (congrFun (congrFun hptr P) .root).trans (h.ptr P .root)
    exact hroot.nothing hnone

theorem Start.sound (h : Start k) : Sound k := by
  obtain ⟨k₀, P, answers, hboot, hP, hroot⟩ := h
  exact (wp_ok (Q := fun _ => Mid P .user []) (mountRoot_mid hboot hP) hroot).sound rfl

theorem filePtr_eq_some {σ : Table} {f : Fin 64} :
    filePtr σ f = some i ↔ (σ.file f).count ≠ 0 ∧ (σ.file f).inode = some i.val := by
  have hinode : inodeOf (σ.file f) = some i ↔ (σ.file f).inode = some i.val := by
    refine ⟨fun h => ?_, inodeOf_val⟩
    obtain ⟨m, hm, hlt⟩ := Option.bind_eq_some_iff.1 h
    split at hlt
    · cases hlt
      exact hm
    · cases hlt
  by_cases hzero : σ.count f = 0
  · rw [filePtr_of_zero hzero]
    exact ⟨fun h => (by cases h), fun h => absurd hzero h.1⟩
  · rw [filePtr_of_pos hzero, hinode]
    exact ⟨fun h => ⟨hzero, h⟩, fun h => h.2⟩

theorem refs_superPtr : refs (superPtr super) i =
    (Finset.univ.filter fun sb : Fin 8 => (super sb).imount = some i).card +
      (Finset.univ.filter fun sb : Fin 8 => (super sb).isup = some i).card := by
  rw [refs, countIn, Finset.card_filter, Fintype.sum_prod_type]
  simp only [Fintype.sum_bool, superPtr, Finset.sum_add_distrib, if_true, Bool.false_eq_true, if_false,
    Finset.card_filter]
  exact Nat.add_comm _ _

/-- The pointers to an inode: of the entries of the file table that are in use, of the working directories,
root directories and executables of the tasks, and of the mount points and root inodes of the super
blocks. -/
def Kernel.pointers (k : Kernel) (i : Fin 32) : ℕ :=
  (Finset.univ.filter fun f : Fin 64 =>
      (k.files.file f).count ≠ 0 ∧ (k.files.file f).inode = some i.val).card +
    (Finset.univ.filter fun a : Fin 64 × Slot => k.ptr a.1 a.2 = some i).card +
    ((Finset.univ.filter fun sb : Fin 8 => (k.super sb).imount = some i).card +
      (Finset.univ.filter fun sb : Fin 8 => (k.super sb).isup = some i).card)

/-- **`i_count` is exact** after every run of system calls of any processes, with any outcome of each, in
which no process is killed by an access to user memory while its call has an inode in hand, or a file
without one. -/
theorem counts_exact (h : Reach Start Kernel.step (fun _ e => Safe e.2.2) k) (i : Fin 32) :
    (k.store.inode i).count = k.pointers i := by
  have hsound : Sound k := h.invariant (I := Sound) (fun _ hs => hs.sound)
    fun _ _ _ hI hsafe hs => step_sound hI hsafe hs
  have hcount := hsound.owned i
  rw [List.count_nil, Nat.add_zero, outer, refs_superPtr] at hcount
  rw [hcount, Kernel.pointers]
  congr 2
  rw [refs, countIn]
  refine congrArg Finset.card (Finset.filter_congr ?_)
  exact fun f _ => filePtr_eq_some

/-- Before `mount_root`, with one task. -/
def oneTask : Kernel where
  store := ⟨fun _ => Inode.zero, 0, 0⟩
  files := Table.boot
  ptr := fun _ _ => none
  cred := fun _ => ⟨0, 0, 0, 0, 0, false, none⟩
  super := fun _ => ⟨0, none, none⟩
  rootDev := 769

theorem oneTask_boot : Boot oneTask := by
  refine ⟨fun _ => rfl, ?_, fun _ _ => rfl, fun _ => ⟨rfl, rfl⟩, rfl⟩
  intro P t ht
  have ht : (if P = 0 then some (⟨fun _ => none, 0, 0, .user⟩ : Task) else none) = some t := ht
  split at ht
  · cases ht
    exact ⟨rfl, rfl, fun _ => rfl⟩
  · cases ht

/-- The disk has a root directory; user memory cannot be accessed at the fourth time that `bad` calls ask. -/
def rootOnly (bad : Bool) (n : ℕ) : Answer :=
  ⟨none, ⟨0o40755, 0, 0, 2, 0⟩, none, true, false, none, bad && n == 3⟩

/-- The run after `mount_root`, if it ends where `p` holds. -/
def runsTo (calls : List (Fin 64 × Call × (ℕ → Answer))) (p : Kernel → Bool) : Bool :=
  match mountRoot 0 (rootOnly false) oneTask with
  | .ok _ k => (exec Kernel.step k calls).any p
  | .error _ _ => false

theorem exists_of_runsTo {calls : List (Fin 64 × Call × (ℕ → Answer))} {p : Kernel → Bool}
    (h : runsTo calls p = true) : ∃ k k', Start k ∧ exec Kernel.step k calls = some k' ∧ p k' = true := by
  rw [runsTo] at h
  split at h
  · rename_i k hroot
    obtain ⟨k', hexec, hp⟩ := (Option.any_eq_true _ _).1 h
    exact ⟨k, k', ⟨oneTask, 0, rootOnly false, oneTask_boot, rfl, hroot⟩, hexec, hp⟩
  · cases h

/-- A child opens the root directory, and the first character of its next name cannot be read: `do_exit`
closes the file.  Then task 0 opens the directory: its inode is counted for the file, for the task twice, and
for the super block twice. -/
def killedEarly : List (Fin 64 × Call × (ℕ → Answer)) :=
  [(0, .sysFork 1, rootOnly false), (1, .sysOpen ['/'] 0 0, rootOnly false),
    (1, .sysStat ['/'], fun n => { rootOnly false n with ok := n != 0 }),
    (0, .sysOpen ['/'] 0 0, rootOnly false)]

theorem counts_exact_opened : ∃ k, Reach Start Kernel.step (fun _ e => Safe e.2.2) k ∧
    (k.files.task 1).map Task.pc = some .zombie ∧ (k.store.inode 1).count = 5 ∧ k.pointers 1 = 5 := by
  have hrun : runsTo killedEarly (fun k => (k.files.task 1).map Task.pc == some .zombie &&
      (k.store.inode 1).count == 5) = true := by decide +kernel
  obtain ⟨k, k', hstart, hexec, hends⟩ := exists_of_runsTo hrun
  obtain ⟨hzombie, hcount⟩ := Bool.and_eq_true_iff.1 hends
  have hreach : Reach Start Kernel.step (fun _ e => Safe e.2.2) k' := by
    refine (Reach.start hstart).exec (along_of_forall (fun e he => ?_) _) hexec
    simp only [killedEarly, List.mem_cons, List.not_mem_nil, or_false] at he
    rcases he with rfl | rfl | rfl | rfl <;> exact fun _ _ => rfl
  have hfive : (k'.store.inode 1).count = 5 := eq_of_beq hcount
  exact ⟨k', hreach, eq_of_beq hzombie, hfive, (counts_exact hreach 1).symm.trans hfive⟩

/-- **A killed call keeps its inode.**  A child asks for the status of the root directory with a bad address:
`cp_stat` kills it before `iput`. -/
theorem killed_call_keeps_inode : ¬∀ k, Reach Start Kernel.step (fun _ _ => True) k →
    ∀ i, (k.store.inode i).count = k.pointers i := by
  intro hall
  have hrun : runsTo [(0, .sysFork 1, rootOnly false), (1, .sysStat ['/'], rootOnly true)]
      (fun k => (k.store.inode 1).count == 5 && k.pointers 1 == 4) = true := by decide +kernel
  obtain ⟨k, k', hstart, hexec, hcounts⟩ := exists_of_runsTo hrun
  obtain ⟨hcount, hpointers⟩ := Bool.and_eq_true_iff.1 hcounts
  have hexact := hall k' ((Reach.start hstart).exec (along_true _ _) hexec) 1
  rw [eq_of_beq hcount, eq_of_beq hpointers] at hexact
  cases hexact

end OldLinux.Syscalls
