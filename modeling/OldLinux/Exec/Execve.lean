import OldLinux.Exec.Calls

/-!
# `do_execve` up to the point of no return

Every way through `do_execve` ends in an error exit, in a trap, or in `install` with all the strings in
the area.  The calls of `copy_strings` put the strings one group before the other, so that what has been
copied is described by what was found, group by group.
-/

namespace OldLinux.Exec

open Lib

variable {others : ℕ → ℕ} {k0 k k' : Kernel} {x : Answers} {a : Args} {inode : Inode} {b : ℕ × Space}
variable {Q : ℤ → Kernel → Prop} {E : Trap → Kernel → Prop} {p n envc e_uid e_gid : ℕ}

/-! ### Groups of strings -/

/-- The strings of `T` before those of `P`. -/
def Before (T P : List (List ℕ) → Prop) (ss : List (List ℕ)) : Prop :=
  ∃ ts rest, T ts ∧ P rest ∧ ss = ts ++ rest

/-- Nothing else than `s` is found. -/
def Only (P : List (List ℕ) → Prop) (s : List (List ℕ)) : Prop := P s ∧ ∀ s', P s' → s' = s

theorem Only.before {T P : List (List ℕ) → Prop} {t s : List (List ℕ)} (hT : Only T t) (hP : Only P s) :
    Only (Before T P) (t ++ s) := by
  refine ⟨⟨t, s, hT.1, hP.1, rfl⟩, ?_⟩
  rintro _ ⟨t', s', ht', hs', rfl⟩
  rw [hT.2 t' ht', hP.2 s' hs']

/-- The one string at `v`. -/
def One (m : Space) (v : ℕ) (ss : List (List ℕ)) : Prop := ss.length = 1 ∧ Strings m (fun _ => v) ss

theorem One.only {m : Space} {v : ℕ} {s : List ℕ} (hv : v ≠ 0) (hs : CString m v s) : Only (One m v) [s] := by
  refine ⟨⟨rfl, Strings.cons.2 ⟨⟨hv, hs⟩, Strings.nil⟩⟩, ?_⟩
  rintro ss ⟨hlen, hss⟩
  obtain ⟨t, rfl, ht⟩ := hss.single hlen
  rw [ht.unique hs]

theorem Caller.only {m : Space} {v : ℕ} {ss : List (List ℕ)} (h : Caller m v ss) (hn : Counted m v n) :
    Only (Found m v n) ss :=
  ⟨h.counted hn, fun _ hts => h.eq hn hts⟩

theorem Caller.only_tail {m : Space} {v : ℕ} {ss : List (List ℕ)} (h : Caller m v ss)
    (hn : Counted m v n) : Only (Found m (v + 4) ((n : ℤ) - 1).toNat) ss.tail := by
  obtain ⟨hlen, hss⟩ := h.tail_found hn
  exact ⟨⟨hlen, hss⟩, fun _ hts => hts.2.unique hss (hts.1.trans hlen.symm)⟩

/-- `copy_strings` of the strings `T` before those of `P`. -/
theorem wp_copy_before {P T : List (List ℕ) → Prop} {ic bc : ℕ → ℕ} (C : Continues others k0 x a Q E)
    {file : Inode} (R : Reaches x k0 file b) {argv : Argv} {argc : ℤ} {from_kmem : ℕ} {rest : ℕ → ExecM ℤ}
    (M : Middle others k0 ic bc k)
    (hargv : from_kmem = 1 → ∃ v, argv = .pointer v) (hp : p ≠ 0 → ∃ ss, P ss ∧ Filled k p ss)
    (hT : ∀ ts, T ts ↔ ts.length = argc.toNat ∧ Strings (k.source from_kmem) (argv.ptr (k.source from_kmem)) ts)
    (hout : Fits x a k0.user → ∃ t s, Only T t ∧ Only P s ∧ (size s < 131068 → size t + size s ≤ 131068))
    (hrest : ∀ r k', Middle others k0 ic bc k' → k'.buf = k.buf →
      (r ≠ 0 → ∃ ss, Before T P ss ∧ Filled k' r ss) → wp (rest r) Q E k') :
    wp (copy_strings argc argv p from_kmem >>= rest) Q E k := by
  refine wp_copy_then C R M hargv hp hT ?_ ?_
  · intro r k' M' hbuf hr
    refine hrest r k' M' hbuf fun hne => ?_
    obtain ⟨ss, ts, hP, hT, hfilled⟩ := hr hne
    exact ⟨ts ++ ss, ⟨ts, ss, hT, hP, rfl⟩, hfilled⟩
  · intro hfits
    obtain ⟨t, s, ht, hs, hle⟩ := hout hfits
    refine ⟨t, ht.1, fun ss hss hlt => ?_⟩
    rw [hs.2 ss hss] at hlt ⊢
    exact hle hlt

/-! ### A binary -/

/-- Right before `install`, with the strings that have been taken. -/
theorem Continues.install (C : Continues others k0 x a Q E) (hthere : k0.There a.filename)
    (M : Middle others k0 (oneMore k0.i_count inode.num) k0.b_count k) {data : Space}
    (hgood : goodHeader inode data = true) {argc : ℤ} {c : ℕ × Space} {new env : List (List ℕ)}
    (hc : x.block 0 = some c) (hnew : Taken k0.user a c.2 argc new) (henvc : Counted k0.user a.envp envc)
    (henv : Found k0.user a.envp envc env) (hfilled : Filled k p (new ++ env)) :
    wp (Exec.install x inode data argc.toNat envc p e_uid e_gid) Q E k :=
  C.installed inode data argc envc p e_uid e_gid k
    ⟨M, hgood, M.filling.loads.toAdds.there hthere, c, new, env, hc, hnew, henvc, henv, hfilled⟩

/-- The program is the file itself. -/
theorem wp_run_binary_first (C : Continues others k0 x a Q E) (hfs : k0.fs = .user)
    (hthere : k0.There a.filename)
    (M : Middle others k0 (oneMore k0.i_count inode.num) (oneMore k0.b_count b.1) k)
    (hb : x.block 0 = some b) (binary : ¬(b.2 0 = 35 ∧ b.2 1 = 33)) (hargc : Counted k0.user a.argv n)
    (henvc : Counted k0.user a.envp envc)
    (hreaches : goodHeader inode b.2 = true → Reaches x k0 inode b) :
    wp (run_binary x a inode b n envc 131068 false e_uid e_gid) Q E k := by
  rw [run_binary, wp_bind]
  refine wp_mono (wp_brelse M) ?_ fun _ _ h => h.elim
  rintro _ k1 ⟨M1, -⟩
  rw [wp_ite]
  refine ⟨fun _ => C.error2 hfs M1 (by decide), fun hgood => ?_⟩
  rw [wp_ite]
  refine ⟨fun h => absurd h Bool.false_ne_true, fun _ => ?_⟩
  have hfound : ∀ (k : Kernel) v, k.source 0 = k0.user → ∀ (c : ℕ) ts, Found k0.user v c ts ↔
      ts.length = (c : ℤ).toNat ∧ Strings (k.source 0) ((Argv.table v).ptr (k.source 0)) ts := by
    intro k v h c ts
    rw [h, Int.toNat_natCast]
    exact Iff.rfl
  have R := hreaches (by simpa using hgood)
  have hfit : Fits x a k0.user → ∃ args env, Only (Found k0.user a.argv n) args ∧
      Only (Found k0.user a.envp envc) env ∧ RoomBelow 131068 [env, args] := by
    rintro ⟨name, args, env, G, hroom⟩
    have hgroups := hroom b hb
    rw [if_neg binary] at hgroups
    exact ⟨args, env, G.args.only hargc, G.env.only henvc, hgroups⟩
  refine wp_copy_before (P := fun ss => ss = []) C R M1 (fun h => absurd h (by decide))
    (fun _ => ⟨[], rfl, Filled.nil k1⟩) (hfound k1 _ (M1.source (by decide)) envc) ?_ ?_
  · intro h
    obtain ⟨args, env, -, henv, hroom⟩ := hfit h
    have hle := RoomBelow.next [] hroom (by decide)
    exact ⟨env, [], henv, ⟨rfl, fun _ h => h⟩, fun _ => by simpa using hle⟩
  intro r k2 M2 _ hr
  refine wp_copy_before C R M2 (fun h => absurd h (by decide)) hr
    (hfound k2 _ (M2.source (by decide)) n) ?_ ?_
  · intro h
    obtain ⟨args, env, hargs, henv, hroom⟩ := hfit h
    refine ⟨args, env ++ [], hargs, henv.before ⟨rfl, fun _ h => h⟩, fun hlt => ?_⟩
    have hle := RoomBelow.next [env] hroom (by simpa using hlt)
    simp only [List.flatten_cons, List.flatten_nil, List.append_nil] at hle ⊢
    omega
  intro r k3 M3 _ hr
  rw [wp_ite]
  refine ⟨fun _ => C.error2 hfs M3 (by decide), fun hne => ?_⟩
  obtain ⟨_, ⟨args, _, hargs, ⟨env, _, henv, rfl, rfl⟩, rfl⟩, hfilled⟩ := hr hne
  rw [List.append_nil] at hfilled
  exact C.install hthere M3 (by simpa using hgood) hb (.plain binary hargc hargs) henvc henv hfilled

/-! ### A script -/

/-- The program is an interpreter, and the strings are there. -/
theorem wp_run_binary_second (C : Continues others k0 x a Q E) (hfs : k0.fs = .user)
    (hthere : k0.There a.filename)
    (M : Middle others k0 (oneMore k0.i_count inode.num) (oneMore k0.b_count b.1) k) {argc : ℤ}
    {c : ℕ × Space} {new env : List (List ℕ)} (hc : x.block 0 = some c)
    (hnew : Taken k0.user a c.2 argc new) (henvc : Counted k0.user a.envp envc)
    (henv : Found k0.user a.envp envc env) (hfilled : Filled k p (new ++ env)) :
    wp (run_binary x a inode b argc envc p true e_uid e_gid) Q E k := by
  rw [run_binary, wp_bind]
  refine wp_mono (wp_brelse M) ?_ fun _ _ h => h.elim
  rintro _ k1 ⟨M1, hk1⟩
  rw [wp_ite]
  refine ⟨fun _ => C.error2 hfs M1 (by decide), fun hgood => ?_⟩
  rw [if_pos rfl]
  refine C.install hthere M1 (by simpa using hgood) hc hnew henvc henv (hfilled.congr ?_ ?_)
  · rw [hk1]
  · rw [hk1]
    rfl

/-- From `restart_interp` on, up to the first block of the file. -/
theorem wp_restart (C : Continues others k0 x a Q E) (hfs : k0.fs = .user)
    (M : Middle others k0 (oneMore k0.i_count inode.num) k0.b_count k) {argc : ℤ}
    {interpret : Option (Inode → ℤ → ℕ → ExecM ℤ)}
    (hsecond : interpret = none → ∀ b e_uid e_gid k', x.block n = some b →
      Middle others k0 (oneMore k0.i_count inode.num) (oneMore k0.b_count b.1) k' →
      k' = { k with b_count := oneMore k.b_count b.1 } →
      wp (run_binary x a inode b argc envc p true e_uid e_gid) Q E k')
    (hfirst : ∀ f, interpret = some f → Executable k0.task inode → ∀ b e_uid e_gid k', x.block n = some b →
      Middle others k0 (oneMore k0.i_count inode.num) (oneMore k0.b_count b.1) k' →
      wp (if b.2 0 = 35 ∧ b.2 1 = 33 then run_script x a inode b argc envc p f
        else run_binary x a inode b argc envc p false e_uid e_gid) Q E k') :
    wp (restart_interp x a n inode argc envc p interpret) Q E k := by
  rw [restart_interp, wp_bind, wp_get]
  dsimp only
  rw [wp_ite]
  refine ⟨fun _ => C.error2 hfs M (by decide), fun hreg => ?_⟩
  rw [wp_ite]
  refine ⟨fun _ => C.error2 hfs M (by decide), fun hmay => ?_⟩
  have hexec : Executable k0.task inode := by
    rw [← M.filling.loads.task]
    exact ⟨not_not.1 hreg, hmay⟩
  rw [wp_bind]
  refine wp_mono (wp_bread M n) ?_ fun _ _ h => h.elim
  rintro r k1 ⟨hr, hk1⟩
  cases r with
  | none =>
    rw [hk1]
    exact C.error2 hfs M (by decide)
  | some b =>
    obtain ⟨M1, hk1⟩ := hk1
    cases interpret with
    | none => exact hsecond rfl b _ _ k1 hr.symm M1 (by rw [hk1, M.b_count])
    | some f => exact hfirst f rfl hexec b _ _ k1 hr.symm M1

theorem Middle.set_buf {ic bc : ℕ → ℕ} (M : Middle others k0 ic bc k) (buf : Space) :
    Middle others k0 ic bc { k with buf := buf } :=
  ⟨⟨M.filling.start, M.filling.empty, { M.filling.books with }, { M.filling.loads with }⟩, M.fs,
    M.i_count, M.b_count⟩

/-- The interpreter's name is looked up in the kernel's memory. -/
theorem wp_namei_kernel {ic bc : ℕ → ℕ} (M : Middle others k0 ic bc k) (n name : ℕ) :
    wp (namei x n name) (fun r k' => ∃ k1, Middle others k0 ic bc k1 ∧ k1.page = k.page ∧
      k1.area = k.area ∧ match r with
        | none => { k' with fs := k.fs } = k1
        | some inode => { k' with fs := k.fs } = { k1 with i_count := oneMore ic inode.num })
      (fun e _ => e ≠ .outside) { k with fs := .kernel } := by
  have B : Books others { k with fs := .kernel } := { M.filling.books with }
  refine wp_mono (wp_namei B n name) ?_ fun _ _ h => h
  rintro r k' ⟨k1, hreads, -, -, hr⟩
  have hcopies : Copies others k0 k k1 :=
    ((Copies.refl M.filling).set_fs .kernel).trans
      (Copies.reads ((Copies.refl M.filling).set_fs .kernel).filling hreads)
  refine ⟨{ k1 with fs := k.fs }, M.copies (hcopies.set_fs k.fs) M.fs, hreads.rest.page, ?_, ?_⟩
  · exact hreads.area B
  · have hi : k1.i_count = ic := hcopies.i_count.trans M.i_count
    cases r with
    | none =>
      rw [show k' = k1 from hr]
    | some inode =>
      rw [show k' = { k1 with i_count := oneMore k1.i_count inode.num } from hr, hi]

/-- From the interpreter's inode on. -/
theorem wp_restart_second (C : Continues others k0 x a Q E) (hfs : k0.fs = .user)
    (hthere : k0.There a.filename) (M : Middle others k0 (oneMore k0.i_count inode.num) k0.b_count k)
    {argc : ℤ} {c : ℕ × Space} {new env : List (List ℕ)} (hc : x.block 0 = some c)
    (hnew : Taken k0.user a c.2 argc new) (henvc : Counted k0.user a.envp envc)
    (henv : Found k0.user a.envp envc env) (hfilled : Filled k p (new ++ env)) :
    wp (restart_interp x a 1 inode argc envc p none) Q E k := by
  refine wp_restart C hfs M (fun _ b e_uid e_gid k' hb M' hk' => ?_) fun f h => by cases h
  refine wp_run_binary_second C hfs hthere M' hc hnew henvc henv (hfilled.congr ?_ ?_)
  · rw [hk']
  · rw [hk']
    rfl

/-- After the strings of a script. -/
theorem wp_interpret (C : Continues others k0 x a Q E) (hfs : k0.fs = .user)
    (hthere : k0.There a.filename) (M : Middle others k0 k0.i_count k0.b_count k) {argc : ℤ}
    {c : ℕ × Space} (hc : x.block 0 = some c) (henvc : Counted k0.user a.envp envc) (name : ℕ)
    (hp : p ≠ 0 → ∃ new env, Taken k0.user a c.2 argc new ∧ Found k0.user a.envp envc env ∧
      Filled k p (new ++ env)) :
    wp (if p = 0 then exec_error1 (-12)
      else do
        let k ← get
        set_fs .kernel
        match ← namei x 1 name with
        | none => do
            set_fs k.fs
            exec_error1 (-2)
        | some inode => do
            set_fs k.fs
            restart_interp x a 1 inode argc envc p none) Q E k := by
  rw [wp_ite]
  refine ⟨fun _ => C.error1 hfs M (by decide), fun hne => ?_⟩
  obtain ⟨new, env, hnew, henv, hfilled⟩ := hp hne
  rw [wp_bind, wp_get, wp_bind, wp_set_fs, wp_bind]
  refine wp_mono (wp_namei_kernel M 1 name) ?_ fun e k' he => C.stopped e k' he
  rintro r k' ⟨k1, M1, hpage, harea, hr⟩
  cases r with
  | none =>
    show wp (set_fs k.fs >>= fun _ => exec_error1 (-2)) Q E k'
    rw [wp_bind, wp_set_fs, show ({ k' with fs := k.fs } : Kernel) = k1 from hr]
    exact C.error1 hfs M1 (by decide)
  | some inode =>
    show wp (set_fs k.fs >>= fun _ => restart_interp x a 1 inode argc envc p none) Q E k'
    rw [wp_bind, wp_set_fs, show ({ k' with fs := k.fs } : Kernel) = _ from hr]
    exact wp_restart_second C hfs hthere (M1.set_i_count _) hc hnew henvc henv (hfilled.congr hpage harea)

/-- The strings of the buffer, as the kernel reads them. -/
theorem kernel_string {b : Space} {v : ℕ} {s : List ℕ} (h : CString b v s) :
    CString (fun a => b (a - bufAddress)) (bufAddress + v) s :=
  h.moved fun i _ => congrArg b (by rw [Nat.add_assoc, Nat.add_sub_cancel_left])

/-- `copy_strings` of one pointer. -/
theorem one_iff {m : Space} {v : ℕ} (hm : k.source n = m) (ts : List (List ℕ)) :
    One m v ts ↔ ts.length = (1 : ℤ).toNat ∧ Strings (k.source n) ((Argv.pointer v).ptr (k.source n)) ts := by
  rw [hm]
  exact Iff.rfl

/-- The strings of a script are copied, and the interpreter is looked up. -/
theorem wp_run_script (C : Continues others k0 x a Q E) (hfs : k0.fs = .user) (hthere : k0.There a.filename)
    (M : Middle others k0 (oneMore k0.i_count inode.num) (oneMore k0.b_count b.1) k)
    (hb : x.block 0 = some b) (script : b.2 0 = 35 ∧ b.2 1 = 33) (hargc : Counted k0.user a.argv n)
    (henvc : Counted k0.user a.envp envc) (hreaches : parse b.2 ≠ none → Reaches x k0 inode b) :
    wp (run_script x a inode b n envc 131068 fun inode argc p =>
      restart_interp x a 1 inode argc envc p none) Q E k := by
  rw [run_script, wp_bind]
  refine wp_mono (wp_brelse M) ?_ fun _ _ h => h.elim
  rintro _ k1 ⟨M1, -⟩
  rw [wp_bind]
  refine wp_mono (wp_iput M1) ?_ fun _ _ h => h.elim
  rintro _ k2 ⟨M2, -⟩
  split
  · exact C.error1 hfs M2 (by decide)
  rename_i line hline
  obtain ⟨text, hparsed⟩ := parse_spec hline
  rw [wp_bind, wp_modify]
  replace M2 := M2.set_buf line.buf
  have hbuf2 : ({ k2 with buf := line.buf } : Kernel).buf = line.buf := rfl
  generalize ({ k2 with buf := line.buf } : Kernel) = k2 at M2 hbuf2 ⊢
  have hsource : ∀ k : Kernel, k.buf = line.buf → k.source 2 = fun a => line.buf (a - bufAddress) := by
    intro k h
    rw [Kernel.source, if_pos rfl]
    exact funext fun _ => by rw [Kernel.kspace, h]
  have R := hreaches (by rw [hline]; exact Option.some_ne_none line)
  have hfit : Fits x a k0.user → ∃ name args env, Only (One k0.user a.filename) [name] ∧
      Only (Found k0.user (a.argv + 4) ((n : ℤ) - 1).toNat) args ∧ Only (Found k0.user a.envp envc) env ∧
      RoomBelow 131068 ([env, args, [name]] ++ (lineArgs text).reverse.map fun s => [s]) := by
    rintro ⟨name, args, env, G, hroom⟩
    have hgroups := hroom b hb
    rw [if_pos script] at hgroups
    exact ⟨name, args.tail, env, One.only G.filename G.name, G.args.only_tail hargc, G.env.only henvc,
      hgroups text hparsed.line_at⟩
  have hempty : Only (fun ss : List (List ℕ) => ss = []) [] := ⟨rfl, fun _ h => h⟩
  refine wp_copy_before (P := fun ss => ss = []) (T := Found k0.user a.envp envc) C R M2
    (fun h => absurd h (by decide)) (fun _ => ⟨[], rfl, Filled.nil k2⟩) ?_ ?_ ?_
  · intro ts
    rw [M2.source (by decide), Int.toNat_natCast]
    exact Iff.rfl
  · intro h
    obtain ⟨name, args, env, -, -, henv, hroom⟩ := hfit h
    have hle := RoomBelow.next [] hroom (by decide)
    exact ⟨env, [], henv, hempty, fun _ => by simpa using hle⟩
  intro r k3 M3 hbuf3 hr3
  refine wp_copy_before (T := Found k0.user (a.argv + 4) ((n : ℤ) - 1).toNat) C R M3
    (fun h => absurd h (by decide)) hr3 ?_ ?_ ?_
  · intro ts
    rw [M3.source (by decide)]
    exact Iff.rfl
  · intro h
    obtain ⟨name, args, env, -, hargs, henv, hroom⟩ := hfit h
    refine ⟨_, _, hargs, henv.before hempty, fun hlt => ?_⟩
    have hle := RoomBelow.next [env] hroom (by simpa using hlt)
    simp only [List.flatten_cons, List.flatten_nil, List.append_nil] at hle ⊢
    omega
  intro r k4 M4 hbuf4 hr4
  refine wp_copy_before C R M4 (fun _ => ⟨_, rfl⟩) hr4 (one_iff (M4.source (by decide))) ?_ ?_
  · intro h
    obtain ⟨name, args, env, hname, hargs, henv, hroom⟩ := hfit h
    refine ⟨_, _, hname, hargs.before (henv.before hempty), fun hlt => ?_⟩
    have hle := RoomBelow.next [env, args] hroom (by simpa [Nat.add_comm] using hlt)
    simp only [List.flatten_cons, List.flatten_nil, List.append_nil, size_append] at hle ⊢
    omega
  intro r k5 M5 hbuf5 hr5
  have hbuf : k5.buf = line.buf := by rw [hbuf5, hbuf4, hbuf3, hbuf2]
  have hname := kernel_string hparsed.name
  -- the strings that are there when the interpreter's name has been copied before `lead`
  have htaken : ∀ {lead ss : List (List ℕ)} {p k}, lineArgs text = lastComponent (interpreter text) :: lead →
      (∃ rest, Before (One k0.user a.filename) (Before (Found k0.user (a.argv + 4) ((n : ℤ) - 1).toNat)
        (Before (Found k0.user a.envp envc) fun ss => ss = [])) rest ∧
        ss = lastComponent (interpreter text) :: lead ++ rest) → Filled k p ss →
      ∃ new env, Taken k0.user a b.2 (n + (lead.length + 1 : ℕ)) new ∧ Found k0.user a.envp envc env ∧
        Filled k p (new ++ env) := by
    rintro lead _ p k hlead ⟨_, ⟨nm, _, hnm, ⟨tail, _, htail, ⟨env, _, henv, rfl, rfl⟩, rfl⟩, rfl⟩, rfl⟩ hfilled
    obtain ⟨name, rfl, hfile⟩ := hnm.2.single hnm.1
    have htake := Taken.script script hparsed.line_at hargc hfile htail
    rw [hlead] at htake
    refine ⟨_, env, htake, henv, ?_⟩
    simpa using hfilled
  cases harg : line.i_arg with
  | none =>
    simp only [pure_bind]
    have hlead := hparsed.no_arg harg
    have honly := One.only (by rw [bufAddress]; omega) hname
    refine wp_copy_before C R M5 (fun h => absurd h (by decide)) hr5 (one_iff (hsource k5 hbuf)) ?_ ?_
    · intro h
      obtain ⟨name, args, env, hname, hargs, henv, hroom⟩ := hfit h
      refine ⟨_, _, honly, hname.before (hargs.before (henv.before hempty)), fun hlt => ?_⟩
      rw [hlead] at hroom
      have hle := RoomBelow.next [env, args, [name]] hroom (by simp at hlt ⊢; omega)
      simp only [List.flatten_cons, List.flatten_nil, List.append_nil, size_append] at hle ⊢
      omega
    intro r k6 M6 _ hr6
    refine wp_interpret C hfs hthere M6 hb henvc _ fun hne => ?_
    obtain ⟨_, ⟨l, rest, hl, hrest, rfl⟩, hfilled⟩ := hr6 hne
    rw [honly.2 l hl] at hfilled
    have htake := htaken hlead ⟨rest, hrest, rfl⟩ hfilled
    simpa using htake
  | some i_arg =>
    obtain ⟨arg, harg', hlead⟩ := hparsed.arg i_arg harg
    have honly := One.only (by rw [bufAddress]; omega) hname
    have honlyArg := One.only (by rw [bufAddress]; omega) (kernel_string harg')
    refine wp_copy_before C R M5 (fun h => absurd h (by decide)) hr5 (one_iff (hsource k5 hbuf)) ?_ ?_
    · intro h
      obtain ⟨name, args, env, hname, hargs, henv, hroom⟩ := hfit h
      refine ⟨_, _, honlyArg, hname.before (hargs.before (henv.before hempty)), fun hlt => ?_⟩
      rw [hlead] at hroom
      have hle := RoomBelow.next [env, args, [name]] hroom (by simp at hlt ⊢; omega)
      simp only [List.flatten_cons, List.flatten_nil, List.append_nil, size_append] at hle ⊢
      omega
    intro r k6 M6 hbuf6 hr6
    have hbuf' : k6.buf = line.buf := hbuf6.trans hbuf
    refine wp_copy_before C R M6 (fun h => absurd h (by decide)) hr6 (one_iff (hsource k6 hbuf')) ?_ ?_
    · intro h
      obtain ⟨name, args, env, hname, hargs, henv, hroom⟩ := hfit h
      refine ⟨_, _, honly, honlyArg.before (hname.before (hargs.before (henv.before hempty))), fun hlt => ?_⟩
      rw [hlead] at hroom
      have hle := RoomBelow.next [env, args, [name], [arg]] hroom (by simp at hlt ⊢; omega)
      simp only [List.flatten_cons, List.flatten_nil, List.append_nil, size_append] at hle ⊢
      omega
    intro r k7 M7 _ hr7
    refine wp_interpret C hfs hthere M7 hb henvc _ fun hne => ?_
    obtain ⟨_, ⟨l, _, hl, ⟨l', rest, hl', hrest, rfl⟩, rfl⟩, hfilled⟩ := hr7 hne
    rw [honly.2 l hl, honlyArg.2 l' hl', ← List.append_assoc] at hfilled
    have htake := htaken hlead ⟨rest, hrest, rfl⟩ hfilled
    simpa [add_assoc] using htake

/-! ### The whole call -/

/-- The kernel in a call of `do_execve`, with the array `page` cleared. -/
def Kernel.cleared (k : Kernel) : Kernel := { k with page := fun _ => none }

/-- The name has been looked up. -/
structure Entered (others : ℕ → ℕ) (k : Kernel) (a : Args) (k0 : Kernel) : Prop where
  start : Books others k.cleared
  reads : Reads others k.cleared k0
  there : k0.There a.filename

theorem Entered.filling (h : Entered others k a k0) : Filling others k0 k0 :=
  ⟨h.reads.books, h.reads.rest.page, h.reads.books, Loads.refl k0⟩

theorem Entered.user (h : Entered others k a k0) : k0.user = k.user := h.reads.loads.user h.start

theorem Entered.reaches (h : Entered others k a k0) (R : Reaches x k0 inode b) : Reaches x k inode b := by
  have htask : k0.task = k.task := h.reads.loads.task
  have heip : k0.eip = k.eip := h.reads.loads.eip
  exact ⟨heip ▸ R.caller, R.found, htask ▸ R.executable, R.block, R.first⟩

/-- What reading the name has loaded counts as unchanged. -/
theorem Entered.unchanged (h : Entered others k a k0) (U : Unchanged k0 k') : Unchanged k k' := by
  have L := h.reads.loads
  have hmem : ∀ f, 256 ≤ f → k0.mem_map f + k.own f = k.mem_map f + k0.own f := by
    intro f hf
    have h0 : k0.mem_map f = others f + k0.own f + k0.args f := h.reads.books.ledger f hf
    have h1 : k.mem_map f = others f + k.own f + k.cleared.args f := h.start.ledger f hf
    have hargs : k0.args f = 0 := by rw [Kernel.args, h.filling.empty, refs_none]
    have hargs' : k.cleared.args f = 0 := refs_none 32 f
    omega
  refine ⟨U.task.trans L.task, U.eip.trans L.eip, U.fs.trans h.reads.rest.fs,
    U.memory.trans h.user, ?_, fun u f hu => U.pages u f (L.pte u f hu), ?_,
    fun d t hd => U.tables d t (L.tables d t hd), ?_, ?_, U.i_count.trans h.reads.rest.i_count,
    U.b_count.trans h.reads.rest.b_count⟩
  · intro f hf
    obtain ⟨hused, hframe⟩ := L.used f hf
    exact (U.frames f hused).trans hframe
  · intro u f hnone hsome
    cases hmid : k0.pte u with
    | none => exact (U.loaded u f hmid hsome).trans (congrFun L.loaded u)
    | some g =>
      obtain rfl := Option.some.inj ((U.pages u g hmid).symm.trans hsome)
      obtain ⟨hused, hframe⟩ := L.fresh u g hnone hmid
      exact (U.frames g hused).trans hframe
  · intro d hnone hsome
    cases hmid : k0.pg_table d with
    | none =>
      obtain ⟨u, hu, h1, h2⟩ := U.needed d hmid hsome
      exact ⟨u, hu, L.toAdds.pte_none h1, h2⟩
    | some t =>
      obtain ⟨u, hu, h1, h2⟩ := L.needed d hnone (by rw [hmid]; exact Option.some_ne_none t)
      obtain ⟨f, hf⟩ := Option.ne_none_iff_exists'.1 h2
      exact ⟨u, hu, h1, by rw [U.pages u f hf]; exact Option.some_ne_none f⟩
  · intro f hf
    have h1 := hmem f hf
    have h2 := U.mem_map f hf
    omega

theorem Entered.nothing (h : Entered others k a k0) : Unchanged k k0 := by
  refine h.unchanged ⟨rfl, rfl, rfl, rfl, fun _ _ => rfl, fun _ _ h => h, ?_, fun _ _ h => h, ?_,
    fun _ _ => rfl, rfl, rfl⟩
  · intro u f hnone hsome
    rw [hnone] at hsome
    cases hsome
  · intro d hnone hsome
    exact absurd hnone hsome

/-- **Every way through `do_execve`** ends in an error with everything unchanged, in `install` with the
strings in the area, or in a trap. -/
theorem wp_do_execve (B : Books others k.cleared) (hfs : k.fs = .user)
    (hfailed : ∀ r k', r < 0 → Unchanged k k' → Q r k')
    (hinstalled : ∀ k0 inode data argc envc p e_uid e_gid k', Entered others k a k0 →
      Ready others k0 x a inode data argc envc p k' →
      wp (install x inode data argc.toNat envc p e_uid e_gid) Q E k')
    (hstopped : ∀ e k', e ≠ .outside → E e k')
    (hoverrun : ∀ inode b, Reaches x k inode b → ¬Fits x a k.user → ∀ k', E .outside k') :
    wp (do_execve x a) Q E k := by
  rw [do_execve, wp_bind, wp_get, wp_ite]
  refine ⟨fun _ => hstopped _ _ Trap.noConfusion, fun heip => ?_⟩
  rw [wp_bind, wp_modify, wp_bind]
  refine wp_mono (wp_namei B 0 a.filename) ?_ fun e k' he => hstopped e k' he
  rintro r k' ⟨k0, hreads, hthere, hfound, hr⟩
  have hentered : Entered others k a k0 := ⟨B, hreads, hthere hfs⟩
  have hfs0 : k0.fs = .user := hreads.rest.fs.trans hfs
  have C : Continues others k0 x a Q E :=
    ⟨fun r k' hr U => hfailed r k' hr (hentered.unchanged U),
      fun inode data argc envc p e_uid e_gid k' R =>
        hinstalled k0 inode data argc envc p e_uid e_gid k' hentered R, hstopped,
      fun inode b R h => hoverrun inode b (hentered.reaches R) (by rwa [hentered.user] at h)⟩
  cases r with
  | none =>
    rw [show k' = k0 from hr]
    exact hfailed (-2) k0 (by decide) hentered.nothing
  | some inode =>
    have M : Middle others k0 k0.i_count k0.b_count k0 := ⟨hentered.filling, hfs0, rfl, rfl⟩
    have M' := M.set_i_count (oneMore k0.i_count inode.num)
    rw [← show k' = { k0 with i_count := oneMore k0.i_count inode.num } from hr] at M'
    show wp (count a.argv >>= fun argc => count a.envp >>= fun envc => _) Q E k'
    rw [wp_bind]
    refine wp_mono (wp_count M'.filling.books a.argv) ?_ fun e k' he => hstopped e k' he
    rintro argc k1 ⟨hargc, hreads1⟩
    have M1 := M'.reads hreads1
    rw [wp_bind]
    refine wp_mono (wp_count M1.filling.books a.envp) ?_ fun e k' he => hstopped e k' he
    rintro envc k2 ⟨henvc, hreads2⟩
    have M2 := M1.reads hreads2
    rw [Kernel.view, M'.fs] at hargc
    rw [Kernel.view, M1.fs] at henvc
    replace hargc : Counted k0.user a.argv argc := by rwa [← M'.filling.user]
    replace henvc : Counted k0.user a.envp envc := by rwa [← M1.filling.user]
    refine wp_restart C hfs0 M2 (fun h => by cases h) ?_
    rintro _ ⟨⟩ hexec b e_uid e_gid k3 hb M3
    have heip0 : k0.eip 1 % 65536 = 0xf := by
      rw [hentered.reads.loads.eip]
      exact not_not.1 heip
    rw [wp_ite]
    refine ⟨fun script => ?_, fun binary => ?_⟩
    · refine wp_run_script C hfs0 hentered.there M3 hb script hargc henvc fun hline => ?_
      exact ⟨heip0, hfound.symm, hexec, hb, by rw [if_pos script]; exact hline⟩
    · refine wp_run_binary_first C hfs0 hentered.there M3 hb binary hargc henvc fun hgood => ?_
      exact ⟨heip0, hfound.symm, hexec, hb, by rw [if_neg binary]; exact hgood⟩

end OldLinux.Exec
