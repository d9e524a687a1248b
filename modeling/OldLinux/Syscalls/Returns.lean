import OldLinux.Syscalls.Balance

/-!
# Every call returns with nothing in hand

One specification for each system call: it begins in user mode with nothing in hand, and if it comes back
the references balance again; and if its process is killed, nothing is in hand.
-/

namespace OldLinux.Syscalls

open Function Lib Files

variable {held rest : List (Fin 32)} {P Q : Fin 64} {pc next : Pc} {answers : ℕ → Answer}
variable {k : Kernel} {slot : Slot} {x : Option (Fin 32)} {i : Fin 32}

/-! ### Descriptors -/

theorem Mid.closed {t : Task} {F : Fin 64 → Option (Fin 32)} {τ : Table} {fd : ℕ} {s : Store}
    (h : Mid P pc rest k) (hC : Closed P fd next k.files t τ) (hnext : reservedFiles next = [])
    (hz : next ≠ .zombie) (hF : filePtr τ = F) (hs : Owned (outer F k.ptr k.super) held s) :
    Mid P next held { k with files := τ, store := s } := by
  obtain ⟨t', htask, hpc'⟩ := hC.task
  refine ⟨⟨?_, hC.sound, ?_, h.books.blank⟩, t', ?_, hpc'⟩
  · rw [filesOf_nil hnext, hF]
    exact hs
  · intro Q slot hQ
    exact h.books.gone Q slot (gone_of_update htask (hpc' ▸ hz) Q hQ)
  · rw [htask, update_self]

/-- The inode is given back with the last descriptor. -/
theorem closing_mid {fd : ℕ} {f : Table → Task → Table} (hpc : reservedFiles pc = [])
    (hnext : reservedFiles next = []) (hz : next ≠ .zombie)
    (hf : ∀ σ t, σ.Sound → σ.task P = some t → t.pc = pc → Closed P fd next σ t (f σ t)) :
    Serves P (Mid P pc held) (closing P answers fd f) fun _ => Mid P next held := by
  intro k hk
  obtain ⟨t, ht, hpc'⟩ := hk.here
  have hC := hf k.files t hk.books.files ht hpc'
  have howned := hk.books.owned
  rw [filesOf_nil hpc] at howned
  rw [closing, wp_bind, wp_get, ht]
  show wp (do
    modify fun k => { k with files := f k.files t }
    if (f k.files t).panicked = true then _ else _) _ _ k
  rw [wp_bind, wp_modify, wp_ite]
  refine ⟨fun _ => trivial, fun _ => ?_⟩
  have hstay : filePtr (f k.files t) = filePtr k.files → Mid P next held { k with files := f k.files t } :=
    fun hF => hk.closed hC hnext hz hF howned
  rcases hC.file with hfile | ⟨hlt, x, hx, hfile⟩
  · split
    · exact hstay (filePtr_congr hfile)
    · rw [wp_ite]
      refine ⟨?_, fun _ => hstay (filePtr_congr hfile)⟩
      rintro ⟨hne, hzero⟩
      rw [hfile] at hzero
      exact absurd hzero hne
  · rw [dif_pos hlt, hx]
    have hpos : 0 < k.files.count x := hk.books.files.count_pos ht hx
    have hle := hk.books.files.count_le x
    have hcount : ((f k.files t).file x).count = (k.files.count x + 65535) % 65536 := by
      rw [hfile]
      exact (Table.down_count x).trans (if_pos rfl)
    show wp (if (k.files.file x).count ≠ 0 ∧ ((f k.files t).file x).count = 0 then _ else _) _ _ _
    rw [wp_ite, hcount]
    refine ⟨?_, ?_⟩
    · rintro ⟨-, hzero⟩
      have hone : k.files.count x = 1 := by omega
      have hF : filePtr (f k.files t) = update (filePtr k.files) x none :=
        (filePtr_congr hfile).trans (filePtr_down_last hone)
      have hput : Owned (outer (update (filePtr k.files) x none) k.ptr k.super)
          ((inodeOf (k.files.file x)).toList ++ held) k.store := by
        rw [← filePtr_of_pos (Nat.ne_of_gt hpos)]
        exact Owned.swap (y := none) howned (swap_file _ _ _ x none)
      exact wp_fs (fun _ => iputOpt_gives _) hput fun _ s hs => hk.closed hC hnext hz hF hs
    · intro hno
      refine hstay ((filePtr_congr hfile).trans (filePtr_down (by omega) ?_))
      have hne : (k.files.file x).count ≠ 0 := Nat.ne_of_gt hpos
      by_contra hle1
      exact hno ⟨hne, by omega⟩

theorem sysClose_mid (fd : ℕ) : Serves P (Mid P .user held) (sysClose P answers fd) fun _ => Mid P .user held :=
  closing_mid rfl rfl (fun h => (by cases h)) fun _ _ hσ ht _ =>
    sysClose_closed hσ ht fd trivial (fun _ h => (by cases h))

theorem sysDup2_mid (oldfd newfd : ℕ) :
    Serves P (Mid P .user held) (sysDup2 P answers oldfd newfd) fun _ => Mid P .user held :=
  (sysClose_mid newfd).bind fun _ => Mid.onFiles fun _ _ hσ ht _ => dupfd_turn hσ ht rfl oldfd newfd

theorem sysDup_mid (fildes : ℕ) : Serves P (Mid P .user held)
    (onFiles P fun σ t => σ.sysDup P t fildes) fun _ => Mid P .user held :=
  Mid.onFiles fun _ _ hσ ht _ => dupfd_turn hσ ht rfl fildes 0

theorem sysFcntl_mid (fd cmd arg : ℕ) : Serves P (Mid P .user held)
    (onFiles P fun σ t => σ.sysFcntl P t fd cmd arg) fun _ => Mid P .user held :=
  Mid.onFiles fun _ _ hσ ht _ => sysFcntl_turn hσ ht fd cmd arg

/-! ### `open` and `pipe` -/

/-- A file of the call gets its inode. -/
theorem opened_ok_mid {fd : Fin 20} {f : Fin 64} {flag mode : ℕ} :
    Serves P (Mid P (.opening fd f flag) (i :: held))
    (onFiles P fun σ t => σ.opened P t fd f flag (.ok (i.val, mode))) fun _ => Mid P .user held := by
  intro k hk
  obtain ⟨t, ht, hpc⟩ := hk.here
  refine wp_onFiles ht ⟨⟨?_, ?_, ?_, hk.books.blank⟩, ?_⟩
  · rw [filesOf_nil rfl, opened_files]
    have hnone : filesOf (.opening fd f flag) k.files f = none := if_pos List.mem_cons_self
    have hswap := swap_file (filesOf (.opening fd f flag) k.files) k.ptr k.super f (some i)
    rw [hnone] at hswap
    exact Owned.swap (y := some i) hk.books.owned hswap
  · exact Table.opened_sound hk.books.files ht hpc (.ok (i.val, mode))
  · intro Q slot hQ
    exact hk.books.gone Q slot (gone_of_update (u := t.returns fd.val) rfl (fun h => (by cases h)) Q hQ)
  · exact ⟨t.returns fd.val, Table.set_task_self, rfl⟩

theorem opened_error_mid {fd : Fin 20} {f : Fin 64} {flag : ℕ} (e : ℕ) :
    Serves P (Mid P (.opening fd f flag) held)
    (onFiles P fun σ t => σ.opened P t fd f flag (.error e)) fun _ => Mid P .user held :=
  Mid.onFiles fun _ _ hσ ht hpc => opened_error_turn hσ ht hpc e

theorem Mid.setCred (h : Mid P pc held k) (Q : Fin 64) (c : Cred) : Mid P pc held (k.setCred Q c) :=
  ⟨⟨h.books.owned, h.books.files, h.books.gone, h.books.blank⟩, h.here⟩

theorem opened_mid {fd : Fin 20} {f : Fin 64} {flag : ℕ} : Serves P
    (Mid P (.opening fd f flag) (i :: held)) (opened P answers fd f flag i)
    fun _ => Mid P .user held := by
  refine TripleOr.look fun k => ?_
  refine TripleOr.ite (fun _ => ?_) fun _ => ?_
  · exact (Mid.fs fun _ _ => iput_gives).bind fun _ => opened_error_mid 1
  · refine TripleOr.ite (fun _ => ?_) fun _ => opened_ok_mid
    exact TripleOr.bind (M := fun _ => Mid P (.opening fd f flag) (i :: held))
      (fun _ hk => hk.setCred P _) fun _ => opened_ok_mid

theorem Mid.at_pc (h : Mid P pc held k) : (k.files.task P).map Task.pc = some pc := by
  obtain ⟨t, ht, hpc⟩ := h.here
  rw [ht, Option.map_some, hpc]

theorem sysOpen_mid (hsafe : Safe answers) (path : List Char) (flag mode : ℕ) :
    Serves P (Mid P .user held) (sysOpen P answers path flag mode) fun _ => Mid P .user held := by
  refine TripleOr.bind (M := fun _ k => ∃ next, Mid P next held k ∧
    (next = .user ∨ ∃ fd f, next = .opening fd f flag)) ?_ fun _ => ?_
  · intro k hk
    obtain ⟨t, ht, _⟩ := hk.here
    obtain ⟨next, hturn, hnext⟩ := sysOpen_turn hk.books.files ht flag
    exact wp_onFiles ht ⟨next, hk.files hturn, hnext⟩
  · refine TripleOr.now fun k hk => ?_
    obtain ⟨next, hk, rfl | ⟨fd, f, rfl⟩⟩ := hk
    · rw [hk.at_pc]
      exact hk
    · rw [hk.at_pc]
      have hopen : Serves P (Mid P (.opening fd f flag) held)
          (fs P answers fun v => openNamei { v with names := .held } path flag mode)
          fun r => Mid P (.opening fd f flag) (okOf r ++ held) :=
        Mid.names hsafe fun _ v hv =>
          openNamei_gives (v := { v with names := .held }) hv (fun h => by cases h) path flag mode
      refine hopen.bind (fun r => ?_) k hk
      cases r with
      | error e => exact opened_error_mid e
      | ok i => exact opened_mid

/-- Both files of the pipe get its inode. -/
theorem piped_mid {fd₀ fd₁ : Fin 20} {f₀ f₁ : Fin 64} (hne : f₀ ≠ f₁) :
    Serves P (Mid P (.piping fd₀ fd₁ f₀ f₁) (i :: i :: held))
    (onFiles P fun σ t => σ.piped P t fd₀ fd₁ f₀ f₁ (some i.val)) fun _ => Mid P .user held := by
  intro k hk
  obtain ⟨t, ht, hpc⟩ := hk.here
  have hsound := hk.books.files
  refine wp_onFiles ht ⟨⟨?_, Table.piped_sound hsound ht hpc (some i.val), ?_, hk.books.blank⟩, ?_⟩
  · rw [filesOf_nil rfl]
    show Owned (outer (filePtr (k.files.piped P t fd₀ fd₁ f₀ f₁ (some i.val))) k.ptr k.super) _ _
    rw [piped_files hsound ht hpc hne]
    have hf₀ : filesOf (.piping fd₀ fd₁ f₀ f₁) k.files f₀ = none := if_pos (by simp [reservedFiles])
    have hf₁ : filesOf (.piping fd₀ fd₁ f₀ f₁) k.files f₁ = none := if_pos (by simp [reservedFiles])
    have h₀ := swap_file (filesOf (.piping fd₀ fd₁ f₀ f₁) k.files) k.ptr k.super f₀ (some i)
    have h₁ := swap_file (update (filesOf (.piping fd₀ fd₁ f₀ f₁) k.files) f₀ (some i))
      k.ptr k.super f₁ (some i)
    rw [hf₀] at h₀
    rw [update_of_ne hne.symm, hf₁] at h₁
    have hmid := Owned.swap (x := none) (y := some i) hk.books.owned h₀
    exact Owned.swap (x := none) (y := some i) hmid h₁
  · intro Q slot hQ
    exact hk.books.gone Q slot (gone_of_update (u := t.returns 0) rfl (fun h => (by cases h)) Q hQ)
  · exact ⟨t.returns 0, Table.set_task_self, rfl⟩

theorem sysPipe_mid (hsafe : Safe answers) :
    Serves P (Mid P .user []) (sysPipe P answers) fun _ => Mid P .user [] := by
  refine TripleOr.bind (M := fun _ k => ∃ next, Mid P next [] k ∧
    (next = .user ∨ ∃ fd₀ fd₁ f₀ f₁, next = .piping fd₀ fd₁ f₀ f₁ ∧ f₀ ≠ f₁)) ?_ fun _ => ?_
  · intro k hk
    obtain ⟨t, ht, _⟩ := hk.here
    obtain ⟨next, hturn, hnext⟩ := sysPipe_turn hk.books.files ht
    exact wp_onFiles ht ⟨next, hk.files hturn, hnext⟩
  · refine TripleOr.now fun k hk => ?_
    obtain ⟨next, hk, rfl | ⟨fd₀, fd₁, f₀, f₁, rfl, hne⟩⟩ := hk
    · rw [hk.at_pc]
      exact hk
    · rw [hk.at_pc]
      refine (Mid.fs fun _ _ => getPipeInode_gives).bind (fun r => ?_) k hk
      cases r with
      | none =>
        exact (Mid.onFiles fun _ _ hσ ht hpc => piped_none_turn hσ ht hpc).bind fun _ =>
          TripleOr.pure fun _ h => h
      | some i => exact (piped_mid hne).bind fun _ => touch_mid hsafe rfl

/-! ### Directories -/

/-- A pointer of the task is given back, and takes what is in hand. -/
theorem repoint_wp (hk : Mid P pc (x.toList ++ held) k) (hpc : pc ≠ .zombie) : wp (repoint P answers slot x)
      (fun _ k' => Mid P pc held k' ∧ k'.ptr = (k.setPtr P slot x).ptr) (Dies P) k := by
  rw [repoint, wp_bind, wp_get, wp_bind]
  have hset := hk.setPtr slot hpc
  refine wp_fs (fun _ => iputOpt_gives (k.ptr P slot)) hset.books.owned fun _ s hs => ?_
  exact ⟨hset.store hs, rfl⟩

theorem repoint_mid (hpc : pc ≠ .zombie) : Serves P (Mid P pc (x.toList ++ held))
    (repoint P answers slot x) fun _ => Mid P pc held := by
  intro k hk
  exact wp_mono (repoint_wp hk hpc) (fun _ _ h => h.1) fun _ _ h => h

theorem sysChange_mid (hsafe : Safe answers) (path : List Char) : Serves P (Mid P .user [])
    (sysChange P answers slot path) fun _ => Mid P .user [] := by
  refine (Mid.begins hsafe rfl fun _ _ hv => namei_gives hv (fun _ _ hs => hs) path).bind fun r => ?_
  cases r with
  | none => exact returns_mid (-2)
  | some i =>
    refine TripleOr.look fun k => TripleOr.ite (fun _ => ?_) fun _ => ?_
    · exact (repoint_mid (x := some i) fun h => by cases h).bind fun _ => returns_mid 0
    · exact (Mid.fs fun _ _ => iput_gives).bind fun _ => returns_mid (-20)

theorem plain_mid (hsafe : Safe answers) {c : View → Fs ℤ}
    (hc : ∀ R v, v.Safe → Begins (Owned R []) R [] v → Gives (Owned R []) R [] (c v) fun _ => []) :
    Serves P (Mid P .user []) (plain P answers c) fun _ => Mid P .user [] :=
  (Mid.begins hsafe rfl fun R v hv => hc R v hv fun _ _ hs => hs).bind fun ret => returns_mid ret

/-! ### `execve` and `exit` -/

theorem execFiles_mid (n : ℕ) : ∀ i, i + n ≤ 20 →
    Serves P (Mid P (.execing i) held) (execFiles P answers i n) fun _ => Mid P (.execing (i + n)) held := by
  induction n with
  | zero => exact fun i _ => TripleOr.pure fun _ hk => hk
  | succ n ih =>
    intro i hi
    have hrest := ih (i + 1) (by omega)
    rw [show i + 1 + n = i + (n + 1) from by omega] at hrest
    exact (closing_mid rfl rfl (fun h => by cases h) fun _ _ hσ ht _ =>
      execing_closed hσ ht (by omega)).bind fun _ => hrest

/-- A change of the process alone. -/
theorem set_mid {f : Task → Task} (hpc : reservedFiles pc = []) (hnext : reservedFiles next = [])
    (hz : next ≠ .zombie) (hf : ∀ (σ : Table) t, σ.Sound → σ.task P = some t → t.pc = pc →
      (σ.set P (f t)).Sound ∧ (f t).pc = next) :
    Serves P (Mid P pc held) (onFiles P fun σ t => σ.set P (f t)) fun _ => Mid P next held := by
  refine Mid.onFiles fun σ t hσ ht hpc' => ?_
  obtain ⟨hsound, hnext'⟩ := hf σ t hσ ht hpc'
  refine Turn.of_update hsound rfl hnext' hz ?_
  rw [filesOf_nil hnext, filesOf_nil hpc, filePtr_set]

/-- The process goes on with a loop over its descriptors. -/
theorem start_mid (next : Pc) (hq : Task.Quiet next) (hnext : reservedFiles next = []) (hz : next ≠ .zombie)
    (hexit : ∀ i, next = .exiting i → i = 0) (hpc : reservedFiles pc = []) : Serves P (Mid P pc held)
    (onFiles P fun σ t => σ.set P { t with pc := next }) fun _ => Mid P next held := by
  refine set_mid hpc hnext hz fun σ t hσ ht _ => ⟨?_, rfl⟩
  refine hσ.still ht rfl rfl rfl rfl (Task.fine_of_quiet hq (hσ.fine P t ht).bits ?_)
  intro i hi fd hfd
  rw [hexit i hi] at hfd
  exact absurd hfd (Nat.not_lt_zero _)

theorem sysExecve_mid (hsafe : Safe answers) (path : List Char) :
    Serves P (Mid P .user []) (sysExecve P answers path) fun _ => Mid P .user [] := by
  refine (Mid.begins hsafe rfl fun _ _ hv => execNamei_gives hv (fun _ hs => hs) path).bind fun r => ?_
  cases r with
  | error e => exact returns_mid (-e)
  | ok x =>
    refine (repoint_mid (x := some x.inode) fun h => by cases h).bind fun _ => ?_
    refine TripleOr.bind (start_mid (.execing 0) trivial rfl (fun h => by cases h) ?_ rfl) fun _ => ?_
    · exact fun _ h => by cases h
    refine (execFiles_mid 20 0 (by omega)).bind fun _ => (touch_mid hsafe rfl).bind fun _ => ?_
    refine TripleOr.bind (M := fun _ => Mid P (.execing 20) []) (fun k hk => ?_) fun _ => ?_
    · exact hk.setCred P _
    · refine Mid.onFiles fun σ t hσ ht _ => ?_
      have hsound := Table.execing_sound hσ ht 20
      exact Turn.of_update hsound rfl rfl (fun h => by cases h) rfl

theorem exitFiles_mid (n : ℕ) : ∀ i, i + n ≤ 20 →
    Serves P (Mid P (.exiting i) held) (exitFiles P answers i n) fun _ => Mid P (.exiting (i + n)) held := by
  induction n with
  | zero => exact fun i _ => TripleOr.pure fun _ hk => hk
  | succ n ih =>
    intro i hi
    have hrest := ih (i + 1) (by omega)
    rw [show i + 1 + n = i + (n + 1) from by omega] at hrest
    exact (closing_mid rfl rfl (fun h => by cases h) fun _ _ hσ ht hpc =>
      exiting_closed hσ ht hpc (by omega)).bind fun _ => hrest

/-- One more pointer of the task is given back. -/
theorem drop_mid (hpc : pc ≠ .zombie) (slots : List Slot) : Serves P
    (fun k => Mid P pc held k ∧ ∀ j ∈ slots, k.ptr P j = none) (repoint P answers slot none)
    (fun _ k => Mid P pc held k ∧ ∀ j ∈ slot :: slots, k.ptr P j = none) := by
  rintro k ⟨hk, hslots⟩
  refine wp_mono (repoint_wp (x := none) hk hpc) ?_ fun _ _ h => h
  rintro _ k' ⟨hk', hptr⟩
  refine ⟨hk', ?_⟩
  intro j hj
  rw [hptr]
  show update k.ptr P (update (k.ptr P) slot none) P j = none
  rw [update_self, update_apply]
  split
  · rfl
  · rename_i hne
    exact hslots j ((List.mem_cons.1 hj).resolve_left hne)

/-- A task that is not there any more is released. -/
theorem Sound.release (h : Sound k) {u : Task} (hu : k.files.task P = some u) (hz : u.pc = .zombie) :
    Sound { k with files := k.files.release P } := by
  refine ⟨h.owned, Table.release_sound h.files hu hz, ?_, h.blank⟩
  intro Q slot hQ
  refine h.gone Q slot ?_
  intro t ht
  by_cases hne : Q = P
  · rw [hne, hu] at ht
    cases ht
    exact hz
  · refine hQ t ?_
    show update k.files.task P none Q = some t
    rw [update_of_ne hne, ht]

/-- `do_exit` ends as a zombie, or without a trace. -/
theorem sysExit_sound (hpc : reservedFiles pc = []) :
    Serves P (Mid P pc []) (sysExit P answers) fun _ => Sound := by
  refine TripleOr.bind (start_mid (.exiting 0) trivial rfl (fun h => (by cases h)) ?_ hpc) fun _ => ?_
  · intro i hi
    cases hi
    rfl
  refine (exitFiles_mid 20 0 (by omega)).bind fun _ => ?_
  have hpc : Pc.exiting 20 ≠ .zombie := fun h => (by cases h)
  have hfirst : Serves P (Mid P (.exiting 20) []) (repoint P answers .pwd none)
      (fun _ k => Mid P (.exiting 20) [] k ∧ ∀ j ∈ [Slot.pwd], k.ptr P j = none) :=
    TripleOr.pre (drop_mid hpc []) fun k hk => ⟨hk, fun j hj => (by cases hj)⟩
  refine TripleOr.bind hfirst fun _ => ?_
  refine TripleOr.bind (drop_mid hpc [.pwd]) fun _ => ?_
  refine TripleOr.bind (drop_mid hpc [.root, .pwd]) fun _ => ?_
  refine TripleOr.bind (M := fun _ k => Sound k ∧ ∃ u, k.files.task P = some u ∧ u.pc = .zombie) ?_ fun _ => ?_
  · rintro k ⟨hk, hslots⟩
    obtain ⟨t, ht, hpc⟩ := hk.here
    refine wp_onFiles ht ⟨⟨?_, Table.exiting_sound hk.books.files ht hpc, ?_, hk.books.blank⟩, ?_⟩
    · have howned := hk.books.owned
      rw [filesOf_nil rfl] at howned
      exact howned
    · intro Q slot hQ
      by_cases hne : Q = P
      · rw [hne]
        refine hslots slot ?_
        cases slot <;> simp
      · refine hk.books.gone Q slot ?_
        intro u hu
        refine hQ u ?_
        show update k.files.task P _ Q = some u
        rw [update_of_ne hne, hu]
    · exact ⟨_, Table.set_task_self, rfl⟩
  · refine TripleOr.bind (M := fun _ k => Sound k ∧ ∃ u, k.files.task P = some u ∧ u.pc = .zombie)
      ?_ fun a => ?_
    · rintro k ⟨hk, hu⟩
      exact wp_fs (fun _ => ask_gives) hk.owned fun _ s hs => ⟨hk.store hs, hu⟩
    · refine TripleOr.ite (fun _ => TripleOr.pure fun _ hk => hk.1) fun _ => ?_
      rintro k ⟨hk, u, hu, hz⟩
      exact hk.release hu hz

theorem sysWaitpid_mid (hsafe : Safe answers) (i : Fin 64) :
    Serves P (Mid P .user []) (sysWaitpid P answers i) fun _ => Mid P .user [] := by
  refine (touch_mid hsafe rfl).bind fun _ => TripleOr.now fun k hk => ?_
  rw [wp_ite]
  refine ⟨fun hany => ?_, fun _ => returns_mid (-10) k hk⟩
  obtain ⟨u, hu, hz⟩ := (Option.any_eq_true _ _).1 hany
  have hreleased : Mid P .user [] { k with files := k.files.release i } := by
    refine ⟨(hk.sound rfl).release hu (of_decide_eq_true hz), ?_⟩
    obtain ⟨t, ht, hpc⟩ := hk.here
    refine ⟨t, ?_, hpc⟩
    show update k.files.task i none P = some t
    rw [update_of_ne, ht]
    rintro rfl
    rw [ht] at hu
    cases hu
    rw [hpc] at hz
    cases hz
  exact ((touch_mid hsafe rfl).bind fun _ => returns_mid i.val) _ hreleased

end OldLinux.Syscalls
