import OldLinux.Syscalls.Owned

/-!
# The exits of the calls on names

Each function of `fs/namei.cc`, at each of its exits, has given back the inodes that it does not return.
It is killed only at the first character of a path.
-/

namespace OldLinux.Syscalls

open Lib

variable {D : Store → Prop} {R : Fin 32 → ℕ} {held rest : List (Fin 32)} {v : View} {s : Store}
  {i j dir : Fin 32}

/-- Two references are given back, in either order. -/
theorem leave_gives (ret : ℤ) : Gives D R (i :: j :: held) (leave v i j ret) fun _ => held :=
  iput_gives.bind fun _ => iput_gives.bind fun _ => Gives.pure rfl

theorem leave_swap (ret : ℤ) : Gives D R (i :: j :: held) (leave v j i ret) fun _ => held :=
  (leave_gives ret).perm (List.Perm.swap _ _ _)

/-- One reference is given back, and the call returns. -/
theorem put_pure {α : Type} {post : α → List (Fin 32)} {a : α} (h : held = post a) : Gives D R (i :: held) (do
      iput v i
      pure a) post := iput_gives.bind fun _ => Gives.pure h

theorem setNlinks_gives (nlinks : ℕ) : Gives D R held (setNlinks i nlinks) fun _ => held :=
  set_gives (f := fun t => { t with nlinks := nlinks, dirt := true }) fun _ => rfl

theorem freeBlock_gives : Gives D R held (freeBlock v) fun _ => held :=
  ask_gives.bind fun _ => Gives.ite (fun _ => Gives.pure rfl) fun _ => Gives.panic

/-! ### Lookup -/

/-- **At a mount point** the directory is exchanged, and the reference with it. -/
theorem exchange_gives (name : List Char) :
    Gives D R (dir :: held) (exchange v dir name) fun dir => dir :: held := by
  refine Gives.look fun s => Gives.ite (fun _ => ?_) fun _ => Gives.pure rfl
  cases v.getSuper (s.inode dir).dev with
  | none => exact Gives.panic
  | some sb =>
    dsimp only
    cases (v.super sb).imount with
    | none => exact Gives.pure rfl
    | some m => exact iput_gives.bind fun _ => up_gives.bind fun _ => Gives.pure rfl

theorem findEntry_gives (hv : v.Safe) (name : List Char) :
    Gives D R (dir :: held) (findEntry v dir name) fun x => x.1 :: held := by
  refine Gives.ite (fun _ => Gives.pure rfl) fun _ => ?_
  have hdots : Gives D R (dir :: held) (readDots v name) fun _ => dir :: held :=
    Gives.ite (fun _ => readName_gives hv) fun _ => Gives.pure rfl
  refine hdots.bind fun _ => (exchange_gives name).bind fun dir => ?_
  refine Gives.look fun s => Gives.ite (fun _ => Gives.pure rfl) fun _ => ?_
  exact ask_gives.bind fun _ => (readName_gives hv).bind fun _ => Gives.pure rfl

theorem addEntry_gives (hv : v.Safe) (name : List Char) :
    Gives D R held (addEntry v dir name) fun _ => held := by
  refine TripleOr.now fun s hs => ?_
  rw [wp_ite]
  refine ⟨fun _ => hs, fun _ => ?_⟩
  have hread : Gives D R held (do
      readName v
      pure true) fun _ => held := (readName_gives hv).bind fun _ => Gives.pure rfl
  have hset := Owned.setInode (s := { s with asked := s.asked + 1 }) hs
    (i := dir) (t := { s.inode dir with dirt := (s.inode dir).dirt || (v.answers s.asked).grown }) rfl
  exact Gives.ite (p := (v.answers s.asked).ok = true) (fun _ => hread) (fun _ => Gives.pure rfl) _ hset

theorem searchable_gives {c : Fs (Option (Fin 32))} (hc : Gives D R (i :: held) c fun r => r.toList ++ held) :
    Gives D R (i :: held) (searchable v i c) fun r => r.toList ++ held :=
  Gives.look fun _ => Gives.ite (fun _ => hc) fun _ => put_pure rfl

/-- **The loop of `get_dir`** has one directory in hand. -/
theorem walk_gives (hv : v.Safe) (names : List (List Char)) : ∀ i,
    Gives D R (i :: held) (walk v names i) fun r => r.toList ++ held := by
  induction names with
  | nil => exact fun i => searchable_gives ((readName_gives hv).bind fun _ => Gives.pure rfl)
  | cons name names ih =>
    refine fun i => searchable_gives ((readName_gives hv).bind fun _ => ?_)
    refine (findEntry_gives hv name).bind fun x => ?_
    obtain ⟨i, entry⟩ := x
    cases entry with
    | none => exact put_pure rfl
    | some nr =>
      refine Gives.look fun s => iput_gives.bind fun _ => ?_
      exact (iget_gives _ nr).bind fun i => ih i

theorem getDir_gives (hv : v.Safe) (hD : Begins D R held v) (path : List Char) :
    Gives D R held (getDir v path) fun r => r.toList ++ held := by
  refine Gives.look fun s => ?_
  split
  · refine Gives.ite (fun _ => Gives.panic) fun _ => (firstChar_gives hv hD).bind fun _ => ?_
    split
    · exact Gives.pure rfl
    · refine Gives.ite (fun _ => ?_) fun _ => ?_
      · exact up_gives.bind fun _ => walk_gives hv _ _
      · exact up_gives.bind fun _ => walk_gives hv _ _
  · exact Gives.panic

/-- The directory that a lookup returns. -/
def dirOf (x : Option (Fin 32 × List Char)) : List (Fin 32) := (x.map Prod.fst).toList

theorem dirNamei_gives (hv : v.Safe) (hD : Begins D R held v) (path : List Char) :
    Gives D R held (dirNamei v path) fun r => dirOf r ++ held := by
  refine (getDir_gives hv hD path).bind fun r => ?_
  cases r with
  | none => exact Gives.pure rfl
  | some dir => exact (readName_gives hv).bind fun _ => Gives.pure rfl

theorem namei_gives (hv : v.Safe) (hD : Begins D R held v) (path : List Char) :
    Gives D R held (namei v path) fun r => r.toList ++ held := by
  refine (dirNamei_gives hv hD path).bind fun r => ?_
  cases r with
  | none => exact Gives.pure rfl
  | some x =>
    obtain ⟨dir, base⟩ := x
    refine Gives.ite (fun _ => Gives.pure rfl) fun _ => ?_
    refine (findEntry_gives hv base).bind fun y => ?_
    obtain ⟨dir, entry⟩ := y
    cases entry with
    | none => exact put_pure rfl
    | some nr =>
      refine Gives.look fun s => iput_gives.bind fun _ => (iget_gives _ nr).bind fun i => ?_
      refine TripleOr.now fun s hs => ?_
      exact hs.setInode rfl

/-! ### `open_namei` -/

/-- The inode that `open_namei` returns. -/
def okOf {ε : Type} (r : Except ε (Fin 32)) : List (Fin 32) :=
  match r with
  | .ok i => [i]
  | .error _ => []

theorem create_gives (hv : v.Safe) (base : List Char) (mode : ℕ) :
    Gives D R (dir :: held) (create v dir base mode) fun r => okOf r ++ held := by
  refine Gives.look fun s => Gives.ite (fun _ => put_pure rfl) fun _ => ?_
  refine (newInode_gives _).bind fun r => ?_
  cases r with
  | none => exact put_pure rfl
  | some i =>
    refine TripleOr.now fun s hs => ?_
    refine set_then hs rfl ((addEntry_gives hv base).bind fun b => Gives.ite (fun _ => ?_) fun _ => ?_)
    · exact (iput_of_perm (List.Perm.swap _ _ _)).bind fun _ => Gives.pure rfl
    · refine TripleOr.now fun s hs => ?_
      exact set_then hs rfl (iput_gives.bind fun _ => put_pure rfl)

theorem openFound_gives (nr flag : ℕ) : Gives D R (dir :: held) (openFound v dir nr flag) fun r =>
    okOf r ++ held := by
  refine Gives.look fun s => iput_gives.bind fun _ => ?_
  refine Gives.ite (fun _ => Gives.pure rfl) fun _ => ?_
  refine (iget_gives _ nr).bind fun i => Gives.look fun s => ?_
  refine Gives.ite (fun _ => put_pure rfl) fun _ => ?_
  refine Gives.ite (fun _ => ?_) fun _ => Gives.pure rfl
  exact truncate_gives.bind fun _ => Gives.pure rfl

/-- **`open_namei`** returns an inode with its reference, or has given back all. -/
theorem openNamei_gives (hv : v.Safe) (hD : Begins D R held v) (path : List Char) (flag mode : ℕ) :
    Gives D R held (openNamei v path flag mode) fun r => okOf r ++ held := by
  refine (dirNamei_gives hv hD path).bind fun r => ?_
  cases r with
  | none => exact Gives.pure rfl
  | some x =>
    obtain ⟨dir, base⟩ := x
    refine Gives.ite (fun _ => Gives.ite (fun _ => put_pure rfl) fun _ => Gives.pure rfl) fun _ => ?_
    refine (findEntry_gives hv base).bind fun y => ?_
    obtain ⟨dir, entry⟩ := y
    cases entry with
    | none => exact Gives.ite (fun _ => create_gives hv _ _) fun _ => put_pure rfl
    | some nr => exact openFound_gives nr _

/-! ### Directory entries -/

theorem inDir_gives (hv : v.Safe) (hD : Begins D R held v) (path : List Char)
    {c : Fin 32 → List Char → Option ℕ → Fs ℤ}
    (hc : ∀ dir base entry, Gives D R (dir :: held) (c dir base entry) fun _ => held) :
    Gives D R held (inDir v path c) fun _ => held := by
  refine (dirNamei_gives hv hD path).bind fun r => ?_
  cases r with
  | none => exact Gives.pure rfl
  | some x =>
    obtain ⟨dir, base⟩ := x
    refine Gives.ite (fun _ => put_pure rfl) fun _ => ?_
    refine Gives.look fun s => Gives.ite (fun _ => ?_) fun _ => put_pure rfl
    exact (findEntry_gives hv base).bind fun y => hc _ _ _

theorem sysMknod_gives (hv : v.Safe) (hD : Begins D R held v) (path : List Char) (mode dev : ℕ) :
    Gives D R held (sysMknod v path mode dev) fun _ => held := by
  refine Gives.ite (fun _ => Gives.pure rfl) fun _ => inDir_gives hv hD path fun dir base entry => ?_
  cases entry with
  | some nr => exact put_pure rfl
  | none =>
    refine Gives.look fun s => (newInode_gives _).bind fun r => ?_
    cases r with
    | none => exact put_pure rfl
    | some i =>
      refine TripleOr.now fun s hs => ?_
      refine set_then hs rfl ((addEntry_gives hv base).bind fun b => ?_)
      refine Gives.ite (fun _ => leave_swap _) fun _ => ?_
      refine (iput_of_perm (List.Perm.swap _ _ _)).bind fun _ => ?_
      exact (setNlinks_gives _).bind fun _ => put_pure rfl

theorem mkdirInode_gives (hv : v.Safe) (base : List Char) (mode : ℕ) :
    Gives D R (i :: dir :: held) (mkdirInode v dir base mode i) fun _ => held := by
  have hdir : ∀ {α : Type} {c : Fs α} {post : α → List (Fin 32)}, Gives D R (i :: held) c post →
      Gives D R (i :: dir :: held) (iput v dir >>= fun _ => c) post :=
    fun hc => (iput_of_perm (List.Perm.swap _ _ _)).bind fun _ => hc
  refine ask_gives.bind fun a => ?_
  refine TripleOr.now fun s hs => ?_
  cases a.number with
  | none => exact hdir ((setNlinks_gives _).bind fun _ => put_pure rfl) s hs
  | some zone =>
    refine set_then hs rfl (ask_gives.bind fun a => ?_)
    refine Gives.ite (fun _ => ?_) fun _ => ?_
    · exact hdir (freeBlock_gives.bind fun _ => (setNlinks_gives _).bind fun _ => put_pure rfl)
    · refine TripleOr.now fun s hs => ?_
      refine set_then hs rfl ((addEntry_gives hv base).bind fun b => ?_)
      refine Gives.ite (fun _ => ?_) fun _ => ?_
      · exact Gives.look fun s => (setNlinks_gives _).bind fun _ => leave_swap _
      · exact hdir (freeBlock_gives.bind fun _ => (setNlinks_gives _).bind fun _ => put_pure rfl)

theorem sysMkdir_gives (hv : v.Safe) (hD : Begins D R held v) (path : List Char) (mode : ℕ) :
    Gives D R held (sysMkdir v path mode) fun _ => held := by
  refine Gives.ite (fun _ => Gives.pure rfl) fun _ => inDir_gives hv hD path fun dir base entry => ?_
  cases entry with
  | some nr => exact put_pure rfl
  | none =>
    refine Gives.look fun s => (newInode_gives _).bind fun r => ?_
    cases r with
    | none => exact put_pure rfl
    | some i => exact mkdirInode_gives hv base mode

theorem rmdirInode_gives : Gives D R (i :: dir :: held) (rmdirInode v dir i) fun _ => held := by
  refine Gives.look fun s => ?_
  refine Gives.ite (fun _ => leave_swap _) fun _ => ?_
  refine Gives.ite (fun _ => leave_swap _) fun _ => ?_
  refine Gives.ite (fun _ => leave_gives _) fun _ => ?_
  refine Gives.ite (fun _ => leave_gives _) fun _ => ?_
  refine ask_gives.bind fun a => ?_
  refine Gives.ite (fun _ => leave_gives _) fun _ => ?_
  exact (setNlinks_gives _).bind fun _ => (setNlinks_gives _).bind fun _ => leave_swap _

theorem sysRmdir_gives (hv : v.Safe) (hD : Begins D R held v) (path : List Char) :
    Gives D R held (sysRmdir v path) fun _ => held := by
  refine Gives.ite (fun _ => Gives.pure rfl) fun _ => inDir_gives hv hD path fun dir base entry => ?_
  cases entry with
  | none => exact put_pure rfl
  | some nr => exact Gives.look fun s => (iget_gives _ nr).bind fun i => rmdirInode_gives

theorem unlinkInode_gives : Gives D R (i :: dir :: held) (unlinkInode v dir i) fun _ => held := by
  refine Gives.look fun s => ?_
  refine Gives.ite (fun _ => leave_swap _) fun _ => ?_
  refine Gives.ite (fun _ => leave_gives _) fun _ => ?_
  exact (setNlinks_gives _).bind fun _ => leave_gives _

theorem sysUnlink_gives (hv : v.Safe) (hD : Begins D R held v) (path : List Char) :
    Gives D R held (sysUnlink v path) fun _ => held := by
  refine inDir_gives hv hD path fun dir base entry => ?_
  cases entry with
  | none => exact put_pure rfl
  | some nr => exact Gives.look fun s => (iget_gives _ nr).bind fun i => unlinkInode_gives

theorem linkIn_gives (hv : v.Safe) (base : List Char) :
    Gives D R (dir :: i :: held) (linkIn v i dir base) fun _ => held := by
  refine Gives.look fun s => ?_
  refine Gives.ite (fun _ => leave_swap _) fun _ => ?_
  refine Gives.ite (fun _ => leave_gives _) fun _ => ?_
  refine Gives.ite (fun _ => leave_gives _) fun _ => ?_
  refine (findEntry_gives hv base).bind fun y => ?_
  obtain ⟨dir, entry⟩ := y
  cases entry with
  | some nr => exact leave_gives _
  | none =>
    refine (addEntry_gives hv base).bind fun b => Gives.ite (fun _ => ?_) fun _ => leave_gives _
    exact iput_gives.bind fun _ => Gives.look fun s => (setNlinks_gives _).bind fun _ => put_pure rfl

theorem sysLink_gives (hv : v.Safe) (hD : Begins D R held v) (oldname newname : List Char) :
    Gives D R held (sysLink v oldname newname) fun _ => held := by
  refine (namei_gives hv hD oldname).bind fun r => ?_
  cases r with
  | none => exact Gives.pure rfl
  | some i =>
    refine Gives.look fun s => Gives.ite (fun _ => put_pure rfl) fun _ => ?_
    refine (dirNamei_gives (v := { v with names := .held }) hv (fun h => by cases h) newname).bind fun x => ?_
    cases x with
    | none => exact put_pure rfl
    | some x =>
      obtain ⟨dir, base⟩ := x
      exact linkIn_gives hv base

/-! ### Calls on one inode -/

theorem sysStat_gives (hv : v.Safe) (hD : Begins D R held v) (path : List Char) :
    Gives D R held (sysStat v path) fun _ => held := by
  refine (namei_gives hv hD path).bind fun r => ?_
  cases r with
  | none => exact Gives.pure rfl
  | some i => exact (access_gives hv).bind fun _ => put_pure rfl

theorem sysAccess_gives (hv : v.Safe) (hD : Begins D R held v) (path : List Char) (mode : ℕ) :
    Gives D R held (sysAccess v path mode) fun _ => held := by
  refine (namei_gives hv hD path).bind fun r => ?_
  cases r with
  | none => exact Gives.pure rfl
  | some i =>
    refine Gives.look fun s => iput_gives.bind fun _ => Gives.look fun s => ?_
    refine Gives.ite (fun _ => Gives.pure rfl) fun _ => ?_
    exact Gives.ite (fun _ => Gives.pure rfl) fun _ => Gives.pure rfl

theorem sysChmod_gives (hv : v.Safe) (hD : Begins D R held v) (path : List Char) (mode : ℕ) :
    Gives D R held (sysChmod v path mode) fun _ => held := by
  refine (namei_gives hv hD path).bind fun r => ?_
  cases r with
  | none => exact Gives.pure rfl
  | some i =>
    refine TripleOr.now fun s hs => ?_
    simp only
    rw [wp_ite]
    refine ⟨fun _ => ?_, fun _ => ?_⟩
    · exact put_pure rfl s hs
    · exact set_then hs rfl (put_pure rfl)

theorem sysChown_gives (hv : v.Safe) (hD : Begins D R held v) (path : List Char) (uid gid : ℕ) :
    Gives D R held (sysChown v path uid gid) fun _ => held := by
  refine (namei_gives hv hD path).bind fun r => ?_
  cases r with
  | none => exact Gives.pure rfl
  | some i =>
    refine Gives.ite (fun _ => put_pure rfl) fun _ => ?_
    refine TripleOr.now fun s hs => ?_
    exact set_then hs rfl (put_pure rfl)

theorem sysUtime_gives (hv : v.Safe) (hD : Begins D R held v) (path : List Char) (times : Bool) :
    Gives D R held (sysUtime v path times) fun _ => held := by
  refine (namei_gives hv hD path).bind fun r => ?_
  cases r with
  | none => exact Gives.pure rfl
  | some i =>
    refine (accessIf_gives hv times).bind fun _ => TripleOr.now fun s hs => ?_
    exact set_then hs rfl (put_pure rfl)

/-! ### `execve` and `mount` -/

/-- The inode of the program that `do_execve` has found. -/
def execOf (r : Except ℕ Exec) : List (Fin 32) :=
  match r with
  | .ok x => [x.inode]
  | .error _ => []

theorem execError_gives (e : ℕ) :
    Gives D R (i :: held) (execError v i e) fun r => execOf r ++ held := put_pure rfl

theorem execFile_gives (hv : v.Safe) (hD : ∀ s, Owned R held s → D s)
    {restart : Option (Fin 32 → Fs (Except ℕ Exec))}
    (hrestart : ∀ f ∈ restart, ∀ j, Gives D R (j :: held) (f j) fun r => execOf r ++ held) :
    Gives D R (i :: held) (execFile v i restart) fun r => execOf r ++ held := by
  refine Gives.look fun s => ?_
  refine Gives.ite (fun _ => execError_gives 13) fun _ => ?_
  refine Gives.ite (fun _ => execError_gives 8) fun _ => ?_
  refine ask_gives.bind fun a => ?_
  refine Gives.ite (fun _ => execError_gives 13) fun _ => ?_
  have hload : Gives D R (i :: held) (do
      let header ← ask v
      if header.ok = false then execError v i 8
      else do
        accessIf v restart.isSome
        let a ← ask v
        if restart.isSome ∧ a.ok = false then execError v i 12
        else pure (.ok ⟨i, if has (s.inode i).mode 0o4000 then (s.inode i).uid else v.cred.euid,
            if has (s.inode i).mode 0o2000 then (s.inode i).gid else v.cred.egid⟩))
      fun r => execOf r ++ held := by
    refine ask_gives.bind fun header => Gives.ite (fun _ => execError_gives 8) fun _ => ?_
    refine (accessIf_gives hv restart.isSome).bind fun _ => ?_
    refine ask_gives.bind fun a => Gives.ite (fun _ => execError_gives 12) fun _ => Gives.pure rfl
  cases a.script with
  | none => exact hload
  | some interp =>
    cases restart with
    | none => exact hload
    | some restart =>
      refine iput_gives.bind fun _ => ?_
      cases interp with
      | none => exact Gives.pure rfl
      | some name =>
        refine (touch_gives hD).bind fun _ => ?_
        refine ask_gives.bind fun a => Gives.ite (fun _ => Gives.pure rfl) fun _ => ?_
        refine (namei_gives (v := { v with names := .kernel }) hv (fun h => by cases h) name).bind fun r => ?_
        cases r with
        | none => exact Gives.pure rfl
        | some j => exact hrestart restart rfl j

theorem execNamei_gives (hv : v.Safe) (hD : ∀ s, Owned R held s → D s) (path : List Char) :
    Gives D R held (execNamei v path) fun r => execOf r ++ held := by
  refine (namei_gives hv (fun _ => hD) path).bind fun r => ?_
  cases r with
  | none => exact Gives.pure rfl
  | some i =>
    refine (access_gives hv).bind fun _ => execFile_gives hv hD ?_
    intro f hf j
    cases hf
    exact execFile_gives hv hD fun f hf => by cases hf

theorem deviceOf_gives (hv : v.Safe) (hD : Begins D R held v) (name : List Char) (notBlk : ℕ) :
    Gives D R held (deviceOf v name notBlk) fun _ => held := by
  refine (namei_gives hv hD name).bind fun r => ?_
  cases r with
  | none => exact Gives.pure rfl
  | some i =>
    refine Gives.look fun s => iput_gives.bind fun _ => ?_
    exact Gives.ite (fun _ => Gives.pure rfl) fun _ => Gives.pure rfl

end OldLinux.Syscalls
