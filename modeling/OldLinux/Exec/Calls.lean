import OldLinux.Exec.Strings
import OldLinux.Exec.Script

/-!
# A call before the point of no return

The calls to the file system, the error exits, and what is known where a call goes on to `install`: all
strings are in the area, in their order, and nothing but the inode of the program is held.
-/

namespace OldLinux.Exec

open Function Lib

variable {others : ℕ → ℕ} {k0 k k' : Kernel} {x : Answers} {a : Args} {inode : Inode} {b : ℕ × Space}
variable {f i n p : ℕ}

/-! ### References -/

/-- One reference more. -/
def oneMore (c : ℕ → ℕ) (i : ℕ) : ℕ → ℕ := update c i (c i + 1)

theorem oneMore_less (c : ℕ → ℕ) (i : ℕ) : update (oneMore c i) i (oneMore c i i - 1) = c := by
  rw [oneMore, update_idem, update_self, Nat.add_sub_cancel, update_eq_self]

/-- A call that began in `k0` has done nothing but to read and copy strings, and has these references. -/
structure Middle (others : ℕ → ℕ) (k0 : Kernel) (i_count b_count : ℕ → ℕ) (k : Kernel) : Prop where
  filling : Filling others k0 k
  fs : k.fs = .user
  i_count : k.i_count = i_count
  b_count : k.b_count = b_count

section Middle

variable {ic bc : ℕ → ℕ}

theorem Middle.copies (M : Middle others k0 ic bc k) (h : Copies others k0 k k') (hfs : k'.fs = .user) :
    Middle others k0 ic bc k' :=
  ⟨h.filling, hfs, h.i_count.trans M.i_count, h.b_count.trans M.b_count⟩

theorem Middle.reads (M : Middle others k0 ic bc k) (h : Reads others k k') : Middle others k0 ic bc k' :=
  M.copies (Copies.reads M.filling h) (h.rest.fs.trans M.fs)

theorem Middle.set_i_count (M : Middle others k0 ic bc k) (ic' : ℕ → ℕ) :
    Middle others k0 ic' bc { k with i_count := ic' } :=
  ⟨⟨M.filling.start, M.filling.empty, { M.filling.books with }, { M.filling.loads with }⟩, M.fs, rfl, M.b_count⟩

theorem Middle.set_b_count (M : Middle others k0 ic bc k) (bc' : ℕ → ℕ) :
    Middle others k0 ic bc' { k with b_count := bc' } :=
  ⟨⟨M.filling.start, M.filling.empty, { M.filling.books with }, { M.filling.loads with }⟩, M.fs, M.i_count, rfl⟩

theorem wp_iput (M : Middle others k0 (oneMore ic i) bc k) :
    wp (iput i) (fun _ k' => Middle others k0 ic bc k' ∧ k' = { k with i_count := ic }) (fun _ _ => False)
      k := by
  rw [iput, wp_modify]
  have hback : update k.i_count i (k.i_count i - 1) = ic := by rw [M.i_count, oneMore_less]
  rw [hback]
  exact ⟨M.set_i_count ic, rfl⟩

theorem wp_brelse (M : Middle others k0 ic (oneMore bc i) k) :
    wp (brelse i) (fun _ k' => Middle others k0 ic bc k' ∧ k' = { k with b_count := bc }) (fun _ _ => False)
      k := by
  rw [brelse, wp_modify]
  have hback : update k.b_count i (k.b_count i - 1) = bc := by rw [M.b_count, oneMore_less]
  rw [hback]
  exact ⟨M.set_b_count bc, rfl⟩

theorem wp_bread (M : Middle others k0 ic bc k) (n : ℕ) :
    wp (bread x n) (fun r k' => r = x.block n ∧ match r with
      | none => k' = k
      | some b => Middle others k0 ic (oneMore bc b.1) k' ∧ k' = { k with b_count := oneMore bc b.1 })
      (fun _ _ => False) k := by
  rw [bread]
  split
  · rename_i h
    exact ⟨h.symm, rfl⟩
  · rename_i b h
    rw [wp_bind, wp_modify, wp_pure]
    refine ⟨h.symm, ?_⟩
    have hcount : update k.b_count b.1 (k.b_count b.1 + 1) = oneMore bc b.1 := by
      rw [M.b_count, oneMore]
    rw [hcount]
    exact ⟨M.set_b_count _, rfl⟩

/-! ### Looking up a name -/

theorem wp_read_name (B : Books others k) (name n : ℕ) :
    wp (read_name name n) (fun _ k' => Reads others k k' ∧ (k.fs = .user → 0 < n → k'.There name))
      (fun e _ => e ≠ .outside) k := by
  induction n with
  | zero =>
    rw [read_name, wp_pure]
    exact ⟨Reads.refl B, fun _ h => absurd h (Nat.lt_irrefl 0)⟩
  | succ n ih =>
    rw [read_name, wp_bind]
    refine wp_mono ih ?_ fun _ _ h => h
    rintro _ k1 ⟨h1, hthere1⟩
    rw [wp_bind]
    refine wp_mono (wp_get_fs_byte h1.books (name + n)) ?_ fun _ _ h => h
    rintro _ k2 ⟨-, h2, hthere2⟩
    rw [wp_pure]
    refine ⟨h1.trans h2, fun hfs _ => ?_⟩
    cases n with
    | zero => exact hthere2 (h1.rest.fs.trans hfs)
    | succ n => exact h2.loads.there (hthere1 hfs (Nat.succ_pos n))

theorem wp_namei (B : Books others k) (n name : ℕ) :
    wp (namei x n name) (fun r k' => ∃ k1, Reads others k k1 ∧ (k.fs = .user → k1.There name) ∧ r = x.inode n ∧
      match r with
      | none => k' = k1
      | some inode => k' = { k1 with i_count := oneMore k1.i_count inode.num }) (fun e _ => e ≠ .outside)
      k := by
  rw [namei, wp_bind]
  refine wp_mono (wp_read_name B name _) ?_ fun _ _ h => h
  rintro _ k1 ⟨hreads, hthere⟩
  split
  · rename_i hnone
    exact ⟨k1, hreads, fun hfs => hthere hfs (Nat.succ_pos _), hnone.symm, rfl⟩
  · rename_i inode hinode
    rw [wp_bind, wp_modify, wp_pure]
    exact ⟨k1, hreads, fun hfs => hthere hfs (Nat.succ_pos _), hinode.symm, rfl⟩

end Middle

/-! ### The error exits -/

/-- What a call leaves that has failed: everything as before, except for the pages of the task that have
been loaded to read the arguments, with their page tables. -/
structure Unchanged (k k' : Kernel) : Prop where
  /-- executable, signal actions, descriptors, `close_on_exec`, ids, `brk` -/
  task : k'.task = k.task
  eip : k'.eip = k.eip
  fs : k'.fs = k.fs
  memory : k'.user = k.user
  frames : ∀ f, k.Used f → k'.frame f = k.frame f
  pages : ∀ u f, k.pte u = some f → k'.pte u = some f
  loaded : ∀ u f, k.pte u = none → k'.pte u = some f → k'.frame f = k.loaded u
  tables : ∀ d t, k.pg_table d = some t → k'.pg_table d = some t
  needed : ∀ d, k.pg_table d = none → k'.pg_table d ≠ none → ∃ u, u / 1024 = d ∧
    k.pte u = none ∧ k'.pte u ≠ none
  mem_map : ∀ f, 256 ≤ f → k'.mem_map f + k.own f = k.mem_map f + k'.own f
  i_count : k'.i_count = k.i_count
  b_count : k'.b_count = k.b_count

/-- The references of the array from `i` on. -/
def argsFrom (page : ℕ → Option ℕ) (i f : ℕ) : ℕ := countIn (Finset.Ico i 32) fun j => page j = some f

theorem argsFrom_succ (page : ℕ → Option ℕ) (hi : i < 32) (f : ℕ) :
    argsFrom page i f = argsFrom page (i + 1) f + if page i = some f then 1 else 0 := by
  have hsplit : Finset.Ico i 32 = insert i (Finset.Ico (i + 1) 32) := by
    ext j
    rw [Finset.mem_insert, Finset.mem_Ico, Finset.mem_Ico]
    omega
  rw [argsFrom, argsFrom, countIn, countIn, hsplit, Finset.filter_insert]
  split_ifs
  · rw [Finset.card_insert_of_notMem (by simp)]
  · rfl

theorem wp_free_pages {c : ℕ → ℕ} (n i : ℕ) (hn : i + n = 32) (hlarge : ∀ j f, k.page j = some f → 256 ≤ f)
    (hmap : ∀ f, 256 ≤ f → k.mem_map f = c f + argsFrom k.page i f) :
    wp (free_pages i n) (fun _ k' => (∀ f, 256 ≤ f → k'.mem_map f = c f) ∧
      k' = { k with mem_map := k'.mem_map }) (fun _ _ => False) k := by
  induction n generalizing i k with
  | zero =>
    rw [free_pages, wp_pure]
    refine ⟨fun f hf => ?_, rfl⟩
    have hempty : argsFrom k.page i f = 0 := countIn_eq_zero.2 fun j hj => by
      rw [Finset.mem_Ico] at hj
      omega
    rw [hmap f hf, hempty, Nat.add_zero]
  | succ n ih =>
    rw [free_pages, wp_bind, wp_get]
    have hsucc := argsFrom_succ k.page (i := i) (by omega)
    cases hi : k.page i with
    | none =>
      show wp (pure () >>= fun _ => free_pages (i + 1) n) _ _ k
      rw [wp_bind, wp_pure]
      refine ih (i + 1) (by omega) hlarge fun f hf => ?_
      rw [hmap f hf, hsucc, hi, if_neg (by simp)]
      rfl
    | some g =>
      show wp (free_page g >>= fun _ => free_pages (i + 1) n) _ _ k
      have hg := hlarge i g hi
      have hone := hmap g hg
      rw [hsucc, hi, if_pos rfl] at hone
      rw [wp_bind, free_page, wp_bind, wp_get, wp_ite]
      refine ⟨fun h => absurd h (by omega), fun _ => ?_⟩
      rw [wp_ite]
      refine ⟨fun h => absurd h (by omega), fun _ => ?_⟩
      rw [wp_modify]
      refine wp_mono (ih (i + 1) (by omega) hlarge fun f hf => ?_) ?_ fun _ _ h => h
      · show update k.mem_map g (k.mem_map g - 1) f = c f + argsFrom k.page (i + 1) f
        by_cases hfg : f = g
        · rw [hfg, update_self]
          omega
        · rw [update_of_ne hfg, hmap f hf, hsucc, hi, if_neg, Nat.add_zero]
          rintro ⟨⟩
          exact hfg rfl
      · rintro _ k' ⟨h1, h2⟩
        exact ⟨h1, by rw [h2]⟩

theorem wp_exec_error1 (M : Middle others k0 k0.i_count k0.b_count k) (hfs : k0.fs = .user) (retval : ℤ) :
    wp (exec_error1 retval) (fun r k' => r = retval ∧ Unchanged k0 k') (fun _ _ => False) k := by
  obtain ⟨F, hfs', hi, hb⟩ := M
  rw [exec_error1, wp_bind]
  have hrange : ∀ f, argsFrom k.page 0 f = k.args f := fun f => by
    rw [argsFrom, Kernel.args, refs, Finset.range_eq_Ico]
  refine wp_mono (wp_free_pages (c := fun f => others f + k.own f) 32 0 rfl
    (fun j f hj => (F.books.arg_own j f hj).1) fun f hf => ?_) ?_ fun _ _ h => h
  · rw [hrange, F.books.ledger f hf]
  · rintro _ k' ⟨hmap, hk'⟩
    rw [wp_pure]
    refine ⟨rfl, ?_⟩
    rw [hk']
    refine ⟨F.loads.task, F.loads.eip, hfs'.trans hfs.symm, F.user, fun f hf => (F.loads.used f hf).2,
      F.loads.pte, fun u f h h' => (F.loads.fresh u f h h').2, F.loads.tables, F.loads.needed,
      fun f hf => ?_, hi, hb⟩
    have hl0 := F.start.ledger f hf
    have hargs : k0.args f = 0 := by rw [Kernel.args, F.empty, refs_none]
    rw [hargs] at hl0
    show k'.mem_map f + k0.own f = k0.mem_map f + k.own f
    rw [hmap f hf, hl0]
    omega

theorem wp_exec_error2 (M : Middle others k0 (oneMore k0.i_count inode.num) k0.b_count k)
    (hfs : k0.fs = .user) (retval : ℤ) :
    wp (exec_error2 inode retval) (fun r k' => r = retval ∧ Unchanged k0 k') (fun _ _ => False) k := by
  rw [exec_error2, wp_bind]
  refine wp_mono (wp_iput M) ?_ fun _ _ h => h
  rintro _ k' ⟨M', -⟩
  exact wp_exec_error1 M' hfs retval

/-! ### The strings of a call -/

/-- The strings are at the end of the area. -/
structure Filled (k : Kernel) (p : ℕ) (ss : List (List ℕ)) : Prop where
  end_at : p + size ss = 131068
  holds : Holds k.area p ss
  there : ∀ o, p ≤ o → o < 131068 → k.page (o / PAGE_SIZE) ≠ none

theorem Filled.nil (k : Kernel) : Filled k 131068 [] := ⟨rfl, trivial, fun o h h' => by omega⟩

theorem Filled.congr {ss : List (List ℕ)} (h : Filled k p ss) (hpage : k'.page = k.page)
    (harea : k'.area = k.area) : Filled k' p ss :=
  ⟨h.end_at, harea ▸ h.holds, fun o ho ho' => by rw [hpage]; exact h.there o ho ho'⟩

theorem Filled.copied {src : Space} {ptr : ℕ → ℕ} {p' : ℕ} {ss ts : List (List ℕ)} (h : Filled k p ss)
    (C : CopiedStrings src ptr n p k k' p' ts) (hkept : ∀ i f, k.page i = some f → k'.page i = some f) :
    Filled k' p' (ts ++ ss) := by
  have hend := h.end_at
  have hend' := C.end_at
  refine ⟨?_, Holds.append.2 ⟨C.holds, ?_⟩, fun o ho ho' => ?_⟩
  · rw [size_append]
    omega
  · rw [C.end_at]
    exact h.holds.congr fun o ho _ => C.above o ho
  · rcases Nat.lt_or_ge o p with hlo | hhi
    · exact C.there o ho hlo
    · obtain ⟨f, hf⟩ := Option.ne_none_iff_exists'.1 (h.there o hhi ho')
      rw [hkept _ f hf]
      exact Option.some_ne_none f

/-- One call of `copy_strings` more; after a failure there is `p = 0`. -/
theorem wp_copy_more {ic bc : ℕ → ℕ} {argv : Argv} {argc : ℤ} {from_kmem : ℕ} {P : List (List ℕ) → Prop}
    (hargv : from_kmem = 1 → ∃ v, argv = .pointer v) (M : Middle others k0 ic bc k)
    (hp : p ≠ 0 → ∃ ss, P ss ∧ Filled k p ss) :
    wp (copy_strings argc argv p from_kmem) (fun r k' => Middle others k0 ic bc k' ∧ k'.buf = k.buf ∧
      (r ≠ 0 → ∃ ss ts, P ss ∧ ts.length = argc.toNat ∧
        Strings (k.source from_kmem) (argv.ptr (k.source from_kmem)) ts ∧ Filled k' r (ts ++ ss)))
      (fun e _ => e = .outside → ∀ ts, ts.length = argc.toNat →
        Strings (k.source from_kmem) (argv.ptr (k.source from_kmem)) ts →
        ∃ ss, P ss ∧ size ss < 131068 ∧ 131068 < size ts + size ss) k := by
  have hle : p ≤ 131072 := by
    by_cases hzero : p = 0
    · omega
    · obtain ⟨ss, -, hss⟩ := hp hzero
      have hend := hss.end_at
      omega
  by_cases hzero : p = 0
  · rw [copy_strings, if_pos hzero, wp_pure]
    exact ⟨M, rfl, fun h => absurd rfl h⟩
  · obtain ⟨ss, hP, hss⟩ := hp hzero
    have hend := hss.end_at
    have htable : argv.ptr (k.table from_kmem) = argv.ptr (k.source from_kmem) := by
      by_cases hkmem : from_kmem = 1
      · obtain ⟨v, rfl⟩ := hargv hkmem
        rfl
      · rw [Kernel.table, Kernel.source]
        by_cases htwo : from_kmem = 2
        · rw [if_pos htwo, if_pos (.inr htwo)]
        · rw [if_neg htwo, if_neg (not_or.2 ⟨hkmem, htwo⟩)]
    refine wp_mono (wp_copy_strings M.filling hle M.fs) ?_ ?_
    · rintro r k' ⟨hcopies, hfs, hts⟩
      refine ⟨M.copies hcopies hfs, hcopies.buf, fun hr => ?_⟩
      obtain ⟨ts, hts⟩ := hts.resolve_left fun h => hr h.1
      exact ⟨ss, ts, hP, hts.length, htable ▸ hts.strings, hss.copied hts hcopies.kept⟩
    · intro e _ h he ts hlen hts
      have hlt := h he ts hlen (htable ▸ hts)
      exact ⟨ss, hP, by omega, by omega⟩

/-! ### What the caller gives -/

/-- The pointers of a table. -/
def pointers (m : Space) (a : ℕ) : ℕ → ℕ := fun i => long m (a + 4 * i)

/-- `argv` or `envp` of the caller: a table, or nothing at all. -/
def Caller (m : Space) (a : ℕ) (ss : List (List ℕ)) : Prop := a = 0 ∧ ss = [] ∨ a ≠ 0 ∧ Table m a ss

/-- The strings of the caller. -/
structure Given (m : Space) (a : Args) (name : List ℕ) (args env : List (List ℕ)) : Prop where
  filename : a.filename ≠ 0
  name : CString m a.filename name
  args : Caller m a.argv args
  env : Caller m a.envp env

/-- The groups of strings, a call of `copy_strings` for each, have room below `p`; with `p = 0` nothing is
copied any more. -/
def RoomBelow : ℕ → List (List (List ℕ)) → Prop
  | _, [] => True
  | p, ss :: groups => p = 0 ∨ size ss ≤ p ∧ RoomBelow (p - size ss) groups

theorem RoomBelow.next (before : List (List (List ℕ))) {after : List (List (List ℕ))} {ss : List (List ℕ)}
    (h : RoomBelow p (before ++ ss :: after)) (hlt : size before.flatten < p) :
    size before.flatten + size ss ≤ p := by
  induction before generalizing p with
  | nil =>
    rcases h with h | h
    · omega
    · simpa using h.1
  | cons group before ih =>
    rw [List.flatten_cons, size_append] at hlt ⊢
    rcases h with h | h
    · omega
    · have hle := ih h.2 (by omega)
      omega

/-- All strings have room in the area.  For a script the environment and what follows `argv[0]` come first,
then the name of the file, and last the argument and the name of the interpreter. -/
def HasRoom (x : Answers) (name : List ℕ) (args env : List (List ℕ)) : Prop :=
  ∀ b, x.block 0 = some b → if b.2 0 = 35 ∧ b.2 1 = 33 then ∀ text, LineAt b.2 2 text →
      RoomBelow 131068 ([env, args.tail, [name]] ++ (lineArgs text).reverse.map fun s => [s])
    else RoomBelow 131068 [env, args]

def Fits (x : Answers) (a : Args) (m : Space) : Prop :=
  ∃ name args env, Given m a name args env ∧ HasRoom x name args env

/-- A regular file that the task may execute. -/
def Executable (t : Task) (inode : Inode) : Prop :=
  inode.i_mode &&& 0o170000 = 0o100000 ∧
    ¬((if t.euid = inode.i_uid then inode.i_mode >>> 6 else if t.egid = inode.i_gid then inode.i_mode >>> 3
        else inode.i_mode) &&& 1 = 0 ∧ ¬(inode.i_mode &&& 0o111 ≠ 0 ∧ t.euid = 0))

/-- The call comes to `copy_strings`: there is a file that the task may execute, and its first block can
be read and has the line of a script or a header that passes the checks. -/
structure Reaches (x : Answers) (k : Kernel) (inode : Inode) (b : ℕ × Space) : Prop where
  caller : k.eip 1 % 65536 = 0xf
  found : x.inode 0 = some inode
  executable : Executable k.task inode
  block : x.block 0 = some b
  first : if b.2 0 = 35 ∧ b.2 1 = 33 then parse b.2 ≠ none else goodHeader inode b.2 = true

/-- The call ends before it copies its strings, or they have room. -/
def StringsFit (x : Answers) (a : Args) (k : Kernel) : Prop := ∀ inode b, Reaches x k inode b → Fits x a k.user

section Given

variable {m : Space} {v : ℕ} {name : List ℕ} {args env ss : List (List ℕ)}

theorem Caller.counted (h : Caller m v ss) (hn : Counted m v n) :
    ss.length = n ∧ Strings m (pointers m v) ss := by
  rcases h with ⟨rfl, rfl⟩ | ⟨hv, hstrings, hend⟩
  · rcases hn with ⟨-, rfl⟩ | ⟨hne, -⟩
    · exact ⟨rfl, Strings.nil⟩
    · exact absurd rfl hne
  · rcases hn with ⟨hzero, -⟩ | ⟨-, hn⟩
    · exact absurd hzero hv
    · refine ⟨Pointers.unique ⟨fun i hi => ?_, hend⟩ hn, hstrings⟩
      exact (hstrings i _ (List.getElem?_eq_getElem hi)).1

/-- The strings of `n` pointers. -/
def Found (m : Space) (v n : ℕ) (ss : List (List ℕ)) : Prop := ss.length = n ∧ Strings m (pointers m v) ss

theorem Caller.eq (h : Caller m v ss) (hn : Counted m v n) {ts : List (List ℕ)} (hts : Found m v n ts) :
    ts = ss := by
  obtain ⟨hn', hss⟩ := h.counted hn
  exact hts.2.unique hss (hts.1.trans hn'.symm)

theorem Caller.tail_found (h : Caller m v ss) (hn : Counted m v n) :
    Found m (v + 4) ((n : ℤ) - 1).toNat ss.tail := by
  obtain ⟨hlen, hss⟩ := h.counted hn
  refine ⟨?_, ?_⟩
  · rw [List.length_tail, hlen]
    omega
  · have htail := hss.tail
    have heq : (fun i => pointers m v (i + 1)) = pointers m (v + 4) := by
      funext i
      rw [pointers, pointers, show v + 4 * (i + 1) = v + 4 + 4 * i from by omega]
    rwa [heq] at htail

end Given

/-- The strings that have been taken for `argv`, and `argc`. -/
inductive Taken (m : Space) (a : Args) (data : Space) : ℤ → List (List ℕ) → Prop
  | plain {n : ℕ} {args : List (List ℕ)} (binary : ¬(data 0 = 35 ∧ data 1 = 33))
      (counted : Counted m a.argv n) (found : Found m a.argv n args) : Taken m a data n args
  | script {n : ℕ} {text name : List ℕ} {tail : List (List ℕ)} (script : data 0 = 35 ∧ data 1 = 33)
      (line : LineAt data 2 text) (counted : Counted m a.argv n) (filename : CString m a.filename name)
      (found : Found m (a.argv + 4) ((n : ℤ) - 1).toNat tail) :
      Taken m a data (n + (lineArgs text).length) (lineArgs text ++ name :: tail)

/-- A call goes on to `install`. -/
structure Ready (others : ℕ → ℕ) (k0 : Kernel) (x : Answers) (a : Args) (inode : Inode) (data : Space)
    (argc : ℤ) (envc p : ℕ) (k : Kernel) : Prop where
  middle : Middle others k0 (oneMore k0.i_count inode.num) k0.b_count k
  good : goodHeader inode data = true
  there : k.There a.filename
  strings : ∃ b new env, x.block 0 = some b ∧ Taken k0.user a b.2 argc new ∧ Counted k0.user a.envp envc ∧
    Found k0.user a.envp envc env ∧ Filled k p (new ++ env)

/-- What follows from each way in which a call can end or go on. -/
structure Continues (others : ℕ → ℕ) (k0 : Kernel) (x : Answers) (a : Args) (Q : ℤ → Kernel → Prop)
    (E : Trap → Kernel → Prop) : Prop where
  failed : ∀ r k', r < 0 → Unchanged k0 k' → Q r k'
  installed : ∀ inode data argc envc p e_uid e_gid k', Ready others k0 x a inode data argc envc p k' →
    wp (install x inode data argc.toNat envc p e_uid e_gid) Q E k'
  stopped : ∀ e k', e ≠ .outside → E e k'
  overrun : ∀ inode b, Reaches x k0 inode b → ¬Fits x a k0.user → ∀ k', E .outside k'

section Continues

variable {Q : ℤ → Kernel → Prop} {E : Trap → Kernel → Prop} {ic bc : ℕ → ℕ}

theorem Continues.error1 (C : Continues others k0 x a Q E) (hfs : k0.fs = .user)
    (M : Middle others k0 k0.i_count k0.b_count k) {r : ℤ} (hr : r < 0) : wp (exec_error1 r) Q E k := by
  refine wp_mono (wp_exec_error1 M hfs r) ?_ fun _ _ h => h.elim
  rintro _ k' ⟨rfl, h⟩
  exact C.failed _ k' hr h

theorem Continues.error2 (C : Continues others k0 x a Q E) (hfs : k0.fs = .user)
    (M : Middle others k0 (oneMore k0.i_count inode.num) k0.b_count k) {r : ℤ} (hr : r < 0) :
    wp (exec_error2 inode r) Q E k := by
  refine wp_mono (wp_exec_error2 M hfs r) ?_ fun _ _ h => h.elim
  rintro _ k' ⟨rfl, h⟩
  exact C.failed _ k' hr h

theorem Middle.source (M : Middle others k0 ic bc k) {m : ℕ} (hm : m ≠ 2) : k.source m = k0.user := by
  rw [Kernel.source, if_neg hm, M.filling.user]

/-- `copy_strings`, and what comes after it; `T` are the strings that are found. -/
theorem wp_copy_then {P T : List (List ℕ) → Prop} (C : Continues others k0 x a Q E) {file : Inode}
    (R : Reaches x k0 file b) {argv : Argv} {argc : ℤ} {from_kmem : ℕ} {rest : ℕ → ExecM ℤ}
    (M : Middle others k0 ic bc k)
    (hargv : from_kmem = 1 → ∃ v, argv = .pointer v) (hp : p ≠ 0 → ∃ ss, P ss ∧ Filled k p ss)
    (hT : ∀ ts, T ts ↔ ts.length = argc.toNat ∧ Strings (k.source from_kmem) (argv.ptr (k.source from_kmem)) ts)
    (hrest : ∀ r k', Middle others k0 ic bc k' → k'.buf = k.buf →
      (r ≠ 0 → ∃ ss ts, P ss ∧ T ts ∧ Filled k' r (ts ++ ss)) → wp (rest r) Q E k')
    (hout : Fits x a k0.user → ∃ ts, T ts ∧ ∀ ss, P ss → size ss < 131068 → size ts + size ss ≤ 131068) :
    wp (copy_strings argc argv p from_kmem >>= rest) Q E k := by
  rw [wp_bind]
  refine wp_mono (wp_copy_more hargv M hp) ?_ ?_
  · rintro r k' ⟨M', hbuf, hr⟩
    refine hrest r k' M' hbuf fun hne => ?_
    obtain ⟨ss, ts, hP, hlen, hts, hfilled⟩ := hr hne
    exact ⟨ss, ts, hP, (hT ts).2 ⟨hlen, hts⟩, hfilled⟩
  · intro e k' h
    by_cases he : e = .outside
    · rw [he]
      refine C.overrun file b R (fun hfits => ?_) k'
      obtain ⟨ts, hts, hle⟩ := hout hfits
      obtain ⟨hlen, hstrings⟩ := (hT ts).1 hts
      obtain ⟨ss, hP, hbelow, hlt⟩ := h he ts hlen hstrings
      have hle' := hle ss hP hbelow
      omega
    · exact C.stopped e k' he

end Continues

end OldLinux.Exec
