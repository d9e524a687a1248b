import OldLinux.Namei.Lookup
import OldLinux.Namei.Walk
import Mathlib.Data.List.GetD

/-!
# Paths are resolved component by component

What a path stands for is said by its components: the list between its slashes.  `get_dir` and `dir_namei`
go through the bytes, each in its own loop, and come to the same components; and `get_dir` holds one inode
at a time, so that nothing is left but the reference to the result.
-/

namespace OldLinux.Namei

open Function Lib Lib.BlockTree Creation

variable {v : View} {fs : Fs} {path pre comp post rest : List ℕ} {dir nr n : ℕ}

/-! ### Resolution -/

/-- The directory as a list of entries: the inode in the first one with the name. -/
def lookup (fs : Fs) (dir : ℕ) (name : List ℕ) : Option ℕ :=
  ((List.range ((fs.inode dir).i_size / 16)).find?
      (named fs dir (min name.length NAME_LEN) fun k => name.getD k 0)).map
    fun i => entry_inode fs (entry_block fs dir i) (i % 64)

/-- A component: an empty one leads nowhere, and `..` does not lead out of the root of the process. -/
def component (v : View) (fs : Fs) (dir : ℕ) (name : List ℕ) : Option ℕ :=
  if name = [] then none
  else if name = [46, 46] ∧ dir = v.root then some dir
  else lookup fs dir name

/-- A directory with search permission. -/
def searchable (v : View) (fs : Fs) (nr : ℕ) : Bool :=
  S_ISDIR (fs.inode nr).i_mode && permission v fs nr MAY_EXEC

/-- The directory in which the last component is. -/
def parent (v : View) (fs : Fs) : ℕ → List (List ℕ) → Option ℕ
  | _, [] => none
  | dir, [_] => if searchable v fs dir then some dir else none
  | dir, name :: names =>
    if searchable v fs dir then (component v fs dir name).bind fun nr => parent v fs nr names else none

/-- The components of a path, and where they start: at the root if there is a slash in front. -/
def components (path : List ℕ) : List (List ℕ) :=
  if path.head? = some 47 then path.tail.splitOn 47 else path.splitOn 47

def start (v : View) (path : List ℕ) : ℕ := if path.head? = some 47 then v.root else v.pwd

/-- What comes after the last slash. -/
def last (path : List ℕ) : List ℕ := (path.splitOn 47).getLastD []

def resolve_dir (v : View) (fs : Fs) (path : List ℕ) : Option ℕ :=
  if path = [] then none else parent v fs (start v path) (components path)

/-- What a path stands for. -/
def resolve (v : View) (fs : Fs) (path : List ℕ) : Option ℕ :=
  (resolve_dir v fs path).bind fun dir => if last path = [] then some dir else component v fs dir (last path)

/-! ### Scanning -/

theorem get_fs_byte_append (pre rest : List ℕ) (i : ℕ) :
    get_fs_byte (pre ++ rest) (pre.length + i) = get_fs_byte rest i := by
  rw [get_fs_byte, get_fs_byte, List.getD_append_right _ _ _ _ (Nat.le_add_right ..), Nat.add_sub_cancel_left]

/-- The bytes up to the next slash. -/
theorem scan_name_comp (rest : List ℕ) (hzero : 0 ∉ comp) (hslash : 47 ∉ comp) (m : ℕ) :
    ∀ (pre : List ℕ) (namelen : ℕ), scan_name (pre ++ comp ++ rest) (comp.length + m) pre.length namelen
      = scan_name (pre ++ comp ++ rest) m (pre.length + comp.length) (namelen + comp.length) := by
  induction comp with
  | nil =>
    intro pre namelen
    rw [List.length_nil, Nat.zero_add]
    rfl
  | cons c comp ih =>
    intro pre namelen
    rw [List.mem_cons, not_or] at hzero hslash
    have hc : get_fs_byte (pre ++ c :: comp ++ rest) pre.length = c := by
      have h := get_fs_byte_append pre (c :: comp ++ rest) 0
      rw [Nat.add_zero, ← List.append_assoc] at h
      rw [h]
      rfl
    rw [List.length_cons, Nat.add_right_comm, scan_name, hc, if_pos ⟨Ne.symm hzero.1, Ne.symm hslash.1⟩]
    have hih := ih hzero.2 hslash.2 (pre ++ [c]) (namelen + 1)
    rw [List.length_append, List.length_singleton,
      show pre ++ [c] ++ comp ++ rest = pre ++ c :: comp ++ rest by simp] at hih
    rw [hih, Nat.add_right_comm pre.length, Nat.add_right_comm namelen]
    rfl

theorem scan_name_slash (hzero : 0 ∉ comp) (hslash : 47 ∉ comp) :
    scan_name (pre ++ comp ++ 47 :: post) ((pre ++ comp ++ 47 :: post).length - pre.length) pre.length 0
      = (47, pre.length + comp.length + 1, comp.length) := by
  have hlen : (pre ++ comp ++ 47 :: post).length - pre.length = comp.length + (post.length + 1) := by
    rw [List.length_append, List.length_append, List.length_cons]
    omega
  have hc : get_fs_byte (pre ++ comp ++ 47 :: post) (pre.length + comp.length) = 47 := by
    have h := get_fs_byte_append (pre ++ comp) (47 :: post) 0
    rw [Nat.add_zero, List.length_append] at h
    exact h
  rw [hlen, scan_name_comp _ hzero hslash, scan_name, hc, if_neg (by decide), Nat.zero_add]

theorem scan_name_end (hzero : 0 ∉ comp) (hslash : 47 ∉ comp) :
    scan_name (pre ++ comp) ((pre ++ comp).length - pre.length) pre.length 0
      = (0, pre.length + comp.length + 1, comp.length) := by
  have h := scan_name_comp [] hzero hslash 0 pre 0
  rw [List.append_nil, Nat.add_zero, Nat.zero_add, scan_name] at h
  rw [List.length_append, Nat.add_sub_cancel_left, h]

/-- A path up to its first slash. -/
theorem exists_comp (rest : List ℕ) : 47 ∉ rest ∨ ∃ comp post, rest = comp ++ 47 :: post ∧ 47 ∉ comp := by
  by_cases h : 47 ∈ rest
  · obtain ⟨comp, post, heq, hnot⟩ := List.eq_append_cons_of_mem h
    exact .inr ⟨comp, post, heq, hnot⟩
  · exact .inl h

theorem last_singleton (h : 47 ∉ rest) : last rest = rest := by
  rw [last, List.splitOn_eq_singleton h]
  rfl

theorem last_slash (comp post : List ℕ) : last (comp ++ 47 :: post) = last post := by
  rw [last, last, List.splitOn_append_cons_self, List.getLastD_eq_getLast?, List.getLastD_eq_getLast?,
    List.getLast?_append_of_ne_nil _ (List.splitOn_ne_nil 47 post)]

theorem last_suffix (rest : List ℕ) : last rest <:+ rest := by
  induction hm : rest.length using Nat.strongRecOn generalizing rest with
  | ind m ih =>
  subst hm
  rcases exists_comp rest with h | ⟨comp, post, rfl, -⟩
  · rw [last_singleton h]
  · have hlen : post.length < (comp ++ 47 :: post).length := by
      rw [List.length_append, List.length_cons]
      omega
    rw [last_slash]
    exact (ih _ hlen post rfl).trans ((List.suffix_cons 47 post).trans (List.suffix_append comp _))

/-- `dir_namei` finds the last component. -/
theorem scan_base_eq (hzero : 0 ∉ rest) : ∀ (pre : List ℕ) (basename : ℕ),
    scan_base (pre ++ rest) rest.length pre.length basename = ((pre ++ rest).length + 1,
      if 47 ∈ rest then (pre ++ rest).length - (last rest).length else basename) := by
  induction rest with
  | nil =>
    intro pre basename
    rw [List.append_nil, if_neg List.not_mem_nil]
    rfl
  | cons c rest ih =>
    intro pre basename
    rw [List.mem_cons, not_or] at hzero
    have hc : get_fs_byte (pre ++ c :: rest) pre.length = c := get_fs_byte_append pre (c :: rest) 0
    have hih := ih hzero.2 (pre ++ [c]) (if c = 47 then pre.length + 1 else basename)
    rw [List.length_append, List.length_singleton, show pre ++ [c] ++ rest = pre ++ c :: rest by simp] at hih
    rw [List.length_cons, scan_base, hc, if_neg (Ne.symm hzero.1), hih]
    congr 1
    rcases exists_comp rest with hno | ⟨comp, post, rfl, -⟩
    · rw [if_neg hno]
      by_cases hslash : c = 47
      · have hlast : last (c :: rest) = rest := by
          rw [hslash, show 47 :: rest = [] ++ 47 :: rest from rfl, last_slash, last_singleton hno]
        rw [if_pos hslash, if_pos (hslash ▸ List.mem_cons_self), hlast, List.length_append, List.length_cons]
        omega
      · rw [if_neg hslash, if_neg fun h => (List.mem_cons.1 h).elim (fun h => hslash h.symm) hno]
    · have hmem : 47 ∈ comp ++ 47 :: post := List.mem_append_right _ List.mem_cons_self
      have hlast : last (c :: (comp ++ 47 :: post)) = last (comp ++ 47 :: post) := by
        rw [last_slash, ← List.cons_append, last_slash]
      rw [if_pos hmem, if_pos (List.mem_cons_of_mem _ hmem), hlast]

theorem dir_namei_base (hzero : 0 ∉ path) : scan_base path path.length 0 0
    = (path.length + 1, path.length - (last path).length) := by
  have h := scan_base_eq hzero [] 0
  rw [List.nil_append, List.length_nil] at h
  rw [h]
  split_ifs with hslash
  · rfl
  · rw [last_singleton hslash, Nat.sub_self]

/-! ### Directory trees -/

/-- A file system that is mounted nowhere and on which nothing is mounted: directories have no holes, all
blocks can be read, what has a name has a link, and the root of the process, which is in use like its
current directory, is its own `.`. -/
structure Tree (v : View) (fs : Fs) : Prop where
  readable : Readable fs
  solid : ∀ nr, searchable v fs nr = true → Solid fs nr ((fs.inode nr).i_size / 16)
  links : ∀ nr, searchable v fs nr = true → ∀ i < (fs.inode nr).i_size / 16,
    entry_inode fs (entry_block fs nr i) (i % 64) ≠ 0 →
    (fs.inode (entry_inode fs (entry_block fs nr i) (i % 64))).i_nlinks ≠ 0
  dot : searchable v fs v.root = true → lookup fs v.root [46] = some v.root
  unmounted : v.s_imount = none ∨ v.s_imount = some ROOT_INO
  root : (fs.inode v.root).i_count ≠ 0
  pwd : (fs.inode v.pwd).i_count ≠ 0

/-- One reference more to an inode. -/
def taken (nr : ℕ) (fs : Fs) : Fs :=
  { hold nr fs with unused := if (fs.inode nr).i_count = 0 then fs.unused - 1 else fs.unused }

/-- An inode that is in use, or has a link and a place in the table of inodes. -/
def Alive (fs : Fs) (nr : ℕ) : Prop :=
  (fs.inode nr).i_count ≠ 0 ∨ (fs.inode nr).i_nlinks ≠ 0 ∧ fs.unused ≠ 0

/-- The table of inodes is full. -/
def Full (fs : Fs) (e : Fault) : Prop := e = .trap (.panic "No free inodes in mem") ∧ fs.unused = 0

theorem taken_inode (nr : ℕ) (fs : Fs) : (taken nr fs).inode nr
    = { fs.inode nr with i_count := (fs.inode nr).i_count + 1 } := update_self ..

theorem taken_same (nr : ℕ) (fs : Fs) : SameDisk fs (taken nr fs) := same_disk_count fs nr _ _

theorem wp_iget {Q : Unit → Fs → Prop} (h : fs.unused ≠ 0 → Q () (taken nr fs)) :
    wp (call (iget nr)) Q (fun e _ => Full fs e) fs := by
  rw [wp_call, iget, wp_bind, get_empty_inode, wp_bind, wp_get, wp_ite]
  refine ⟨fun hfull => ⟨rfl, hfull⟩, fun hunused => ?_⟩
  rw [wp_modify, wp_modify]
  have hone : fs.unused - 1 + 1 = fs.unused := by omega
  have hQ := h hunused
  dsimp only [taken, hold, Fs.set_inode] at hQ ⊢
  rwa [hone]

theorem iput_taken (halive : Alive fs nr) : call (iput nr) (taken nr fs) = .ok () fs := by
  refine call_ok (eq_ok_of_wp ?_)
  rw [iput, wp_bind, wp_get, taken_inode]
  dsimp only
  rw [if_neg (Nat.succ_ne_zero _), wp_ite]
  refine ⟨fun hmany => ?_, fun hone => ?_⟩
  · have hcount : (fs.inode nr).i_count ≠ 0 := by omega
    rw [wp_modify]
    refine ⟨rfl, ?_⟩
    simp only [taken, hold, Fs.set_inode, update_self, update_idem, if_neg hcount,
      Nat.add_sub_cancel, update_eq_self]
  · have hcount : (fs.inode nr).i_count = 0 := by omega
    obtain ⟨hlinks, hunused⟩ := halive.resolve_left fun h => h hcount
    rw [if_neg hlinks, wp_modify]
    refine ⟨rfl, ?_⟩
    have hinode : { fs.inode nr with i_count := 0 } = fs.inode nr := by rw [← hcount]
    have hback : fs.unused - 1 + 1 = fs.unused := by omega
    simp only [taken, hold, Fs.set_inode, update_self, update_idem, if_pos hcount, hback,
      hinode, update_eq_self]

/-! ### A component is looked up -/

theorem match_entry_name {len B e : ℕ} {name name' : ℕ → ℕ} (h : ∀ k < len, name k = name' k) :
    match_entry fs len name B e = match_entry fs len name' B e := by
  rw [match_entry, match_entry]
  refine if_congr Iff.rfl rfl (if_congr Iff.rfl rfl ?_)
  rw [decide_eq_decide]
  exact forall₂_congr fun k hk => by rw [h k hk]

theorem searchable_links (h : searchable v fs nr = true) : (fs.inode nr).i_nlinks ≠ 0 := by
  intro hzero
  rw [searchable, permission, if_pos hzero, Bool.and_false] at h
  cases h

/-- What the search finds is what a lookup gives. -/
theorem lookup_of_finds (comp : List ℕ) {σ fs' : Fs} {entries : ℕ} {name : ℕ → ℕ} {r : Option (ℕ × ℕ)}
    (hsame : SameDisk fs σ)
    (hentries : entries = (fs.inode dir).i_size / 16)
    (hname : ∀ k < min comp.length NAME_LEN, name k = comp.getD k 0)
    (h : Finds σ dir entries (min comp.length NAME_LEN) name 0 r fs') :
    (lookup fs dir comp = none ∧ r = none ∧ fs' = σ) ∨ ∃ i < entries, named fs dir (min comp.length NAME_LEN)
        (fun k => comp.getD k 0) i = true ∧
      lookup fs dir comp = some (entry_inode fs (entry_block fs dir i) (i % 64)) ∧
      r = some (entry_block fs dir i, i % 64) ∧ fs' = holding (entry_block fs dir i) σ := by
  subst hentries
  have hnamed : ∀ i, named σ dir (min comp.length NAME_LEN) name i
      = named fs dir (min comp.length NAME_LEN) (fun k => comp.getD k 0) i := fun i => by
    rw [hsame.named, named, named, match_entry_name hname]
  have hblock : ∀ i, entry_block σ dir i = entry_block fs dir i := fun i => hsame.block ..
  rcases h with ⟨i, -, hi, hyes, hbefore, hr, hfs'⟩ | ⟨hnone, hr, hfs'⟩
  · rw [hnamed] at hyes
    rw [hblock] at hr hfs'
    have hfind : (List.range ((fs.inode dir).i_size / 16)).find?
        (named fs dir (min comp.length NAME_LEN) fun k => comp.getD k 0) = some i := by
      rw [List.find?_range_eq_some]
      refine ⟨hyes, List.mem_range.2 hi, fun j hj => ?_⟩
      rw [← hnamed, hbefore j (Nat.zero_le j) hj]
      rfl
    refine .inr ⟨i, hi, hyes, ?_, hr, hfs'⟩
    rw [lookup, hfind]
    rfl
  · have hfind : (List.range ((fs.inode dir).i_size / 16)).find?
        (named fs dir (min comp.length NAME_LEN) fun k => comp.getD k 0) = none := by
      rw [List.find?_range_eq_none]
      intro j hj
      rw [← hnamed, hnone j (Nat.zero_le j) hj]
      rfl
    refine .inl ⟨?_, hr, hfs'⟩
    rw [lookup, hfind]
    rfl

/-- The search for a component, by a process that holds the directory alone. -/
theorem find_component (T : Tree v fs) (hsearch : searchable v fs dir = true) {name : ℕ → ℕ}
    (hname : ∀ k < comp.length, name k = comp.getD k 0) :
    (component v fs dir comp = none ∧
      find_entry v dir comp.length name (taken dir fs) = .ok (dir, none) (taken dir fs)) ∨
    ∃ B e nr, component v fs dir comp = some nr ∧
      ((fs.inode nr).i_count ≠ 0 ∨ (fs.inode nr).i_nlinks ≠ 0) ∧ entry_inode fs B e = nr ∧
      find_entry v dir comp.length name (taken dir fs) = .ok (dir, some (B, e)) (holding B (taken dir fs)) := by
  have hsame := taken_same dir fs
  have hread : Readable (taken dir fs) := T.readable
  have hsize : ((taken dir fs).inode dir).i_size = (fs.inode dir).i_size := hsame.size dir
  have hsolid : Solid (taken dir fs) dir ((fs.inode dir).i_size / 16) := by
    have hs := T.solid dir hsearch
    refine ⟨?_, hs.small, fun i hi => ?_⟩
    · rw [hsame.zone]
      exact hs.zone
    · rw [entry_block, hsame.block]
      exact hs.block i hi
  have hcount : ((taken dir fs).inode dir).i_count ≠ 0 := by
    rw [taken_inode]
    exact Nat.succ_ne_zero _
  have hlinks : ((taken dir fs).inode dir).i_nlinks ≠ 0 := by
    rw [taken_inode]
    exact searchable_links hsearch
  by_cases hempty : comp = []
  · refine .inl ⟨by rw [component, if_pos hempty], eq_ok_of_wp ?_⟩
    rw [hempty, List.length_nil, find_entry, wp_bind, wp_get]
    exact ⟨rfl, rfl⟩
  have hlen : comp.length ≠ 0 := fun h => hempty (List.length_eq_zero_iff.1 h)
  by_cases hroot : comp = [46, 46] ∧ dir = v.root
  · -- the root is its own `.`
    obtain ⟨rfl, rfl⟩ := hroot
    have h0 : name 0 = 46 := hname 0 (by decide)
    have h1 : name 1 = 46 := hname 1 (by decide)
    have hcomponent : component v fs v.root [46, 46] = some v.root := by
      rw [component, if_neg hempty, if_pos ⟨rfl, rfl⟩]
    obtain ⟨r, fs', hfind, hfinds⟩ := find_in_ok 1 name hread hsolid
    have hdot := T.dot hsearch
    have hbyte : ∀ k < min [46].length NAME_LEN, name k = [46].getD k 0 := by
      intro k hk
      have hk1 : k < 1 := hk
      obtain rfl : k = 0 := by omega
      exact h0
    rcases lookup_of_finds [46] hsame rfl hbyte hfinds with ⟨hnone, -, -⟩ | ⟨i, -, -, hsome, rfl, rfl⟩
    · rw [hdot] at hnone
      cases hnone
    · rw [hdot] at hsome
      refine .inr ⟨_, _, _, hcomponent, .inl T.root, (Option.some.inj hsome).symm, eq_ok_of_wp ?_⟩
      rw [find_entry]
      dsimp only
      rw [wp_bind, wp_get, if_neg (by decide), wp_bind, dotdot, if_pos ⟨rfl, h0, h1⟩, if_pos rfl, wp_pure,
        wp_bind, hsize, wp_of_ok hfind, wp_pure]
      exact ⟨rfl, rfl⟩
  · have hplain : target v dir (min comp.length NAME_LEN) name = (dir, min comp.length NAME_LEN) := by
      rw [target]
      split_ifs with hdd h2 h3
      · refine absurd ⟨?_, h2⟩ hroot
        have hmin := hdd.1
        rw [NAME_LEN] at hmin
        obtain ⟨a, b, rfl⟩ := List.length_eq_two.1 (show comp.length = 2 by omega)
        have ha : a = 46 := (hname 0 Nat.two_pos).symm.trans hdd.2.1
        have hb : b = 46 := (hname 1 Nat.one_lt_two).symm.trans hdd.2.2
        rw [ha, hb]
      · rcases T.unmounted with hm | hm
        · rw [hm]
          rfl
        · rw [hm, h3]
          rfl
      · rfl
      · rfl
    have hcomponent : component v fs dir comp = lookup fs dir comp := by
      rw [component, if_neg hempty, if_neg hroot]
    rw [hcomponent]
    obtain ⟨r, fs', hfind, hfinds⟩ := find_entry_ok hread hcount hlinks hlen hplain (hsize.symm ▸ hsolid)
    rw [hsize] at hfinds
    rcases lookup_of_finds comp hsame rfl (fun k hk => hname k (Nat.lt_of_lt_of_le hk (Nat.min_le_left ..)))
      hfinds with ⟨hnone, rfl, rfl⟩ | ⟨i, hi, hnamed, hsome, rfl, rfl⟩
    · exact .inl ⟨hnone, hfind⟩
    · refine .inr ⟨_, _, _, hsome, .inr (T.links dir hsearch i hi fun hzero => ?_), rfl, hfind⟩
      rw [named, match_entry, if_pos (.inl hzero)] at hnamed
      cases hnamed

/-! ### `get_dir` -/

theorem parent_cons {names : List (List ℕ)} (h : names ≠ []) : parent v fs dir (comp :: names)
    = if searchable v fs dir then (component v fs dir comp).bind fun nr => parent v fs nr names else none := by
  cases names with
  | nil => exact absurd rfl h
  | cons name names =>
    rw [parent]
    exact h

theorem parent_searchable {names : List (List ℕ)} (h : parent v fs dir names = some nr) :
    searchable v fs nr = true := by
  induction names generalizing dir with
  | nil => cases h
  | cons name names ih =>
    by_cases hnames : names = []
    · rw [hnames, parent] at h
      split_ifs at h with hsearch
      rw [← Option.some.inj h]
      exact hsearch
    · rw [parent_cons hnames] at h
      split_ifs at h
      obtain ⟨d, -, hd⟩ := Option.bind_eq_some_iff.1 h
      exact ih hd

theorem parent_not_searchable {names : List (List ℕ)} (h : searchable v fs dir = false) :
    parent v fs dir names = none := by
  cases names with
  | nil => rfl
  | cons name names =>
    by_cases hnames : names = []
    · rw [hnames, parent, h, if_neg Bool.false_ne_true]
    · rw [parent_cons hnames, h, if_neg Bool.false_ne_true]

/-- Where `get_dir` stops: the directory, and the last component. -/
def stopped (path : List ℕ) (dir : Option ℕ) : Option Stopped :=
  dir.map fun dir => (dir, path.length - (last path).length, (last path).length)

/-- The reference to the result is all that is left. -/
def left (fs : Fs) (r : Option ℕ) : Fs := r.elim fs fun nr => taken nr fs

theorem searchable_taken (nr : ℕ) : (S_ISDIR ((taken nr fs).inode nr).i_mode = false ∨
    permission v (taken nr fs) nr MAY_EXEC = false) ↔ searchable v fs nr = false := by
  have hperm : permission v (taken nr fs) nr MAY_EXEC = permission v fs nr MAY_EXEC := by
    rw [permission, permission, taken_inode]
  rw [hperm, taken_inode, searchable, Bool.and_eq_false_iff]

/-- What `get_dir` comes to, and the directory is one that can be given back. -/
def Comes (fs : Fs) (path : List ℕ) (dir : Option ℕ) (r : Option Stopped) (fs' : Fs) : Prop :=
  r = stopped path dir ∧ fs' = left fs dir ∧ ∀ nr, dir = some nr → Alive fs nr

theorem get_dir_loop_comes (pre : List ℕ) (T : Tree v fs) (hzero : 0 ∉ rest) (hn : rest.length < n)
    (halive : Alive fs dir)
    (hlast : last (pre ++ rest) = last rest) :
    wp (get_dir_loop v (pre ++ rest) n pre.length dir)
      (Comes fs (pre ++ rest) (parent v fs dir (rest.splitOn 47))) (fun e _ => Full fs e) (taken dir fs) := by
  induction hm : rest.length using Nat.strongRecOn generalizing rest pre dir n with
  | ind m ih =>
  subst hm
  obtain ⟨n, rfl⟩ : ∃ n', n = n' + 1 := ⟨n - 1, by omega⟩
  rw [get_dir_loop, wp_bind, wp_get]
  by_cases hsearch : searchable v fs dir = true
  swap
  · have hno : searchable v fs dir = false := by simpa using hsearch
    rw [if_pos ((searchable_taken dir).2 hno), wp_bind, wp_of_ok (iput_taken halive), wp_pure,
      parent_not_searchable hno]
    exact ⟨rfl, rfl, fun _ h => nomatch h⟩
  rw [if_neg fun h => absurd hsearch (by rw [(searchable_taken dir).1 h]; exact Bool.false_ne_true)]
  rcases exists_comp rest with hslash | ⟨comp, post, rfl, hslash⟩
  · -- the last component
    rw [scan_name_end hzero hslash]
    dsimp only
    rw [if_pos rfl, wp_pure, List.splitOn_eq_singleton hslash, parent, if_pos hsearch]
    refine ⟨?_, rfl, fun nr h => Option.some.inj h ▸ halive⟩
    rw [stopped, hlast, last_singleton hslash, List.length_append, Nat.add_sub_cancel]
    rfl
  have hcomp : 0 ∉ comp := fun h => hzero (List.mem_append_left _ h)
  have hpost : 0 ∉ post := fun h => hzero (List.mem_append_right _ (List.mem_cons_of_mem _ h))
  have hassoc : pre ++ (comp ++ 47 :: post) = pre ++ comp ++ 47 :: post := by rw [List.append_assoc]
  have hname : ∀ k < comp.length, get_fs_byte (pre ++ (comp ++ 47 :: post)) (pre.length + k) =
      comp.getD k 0 := by
    intro k hk
    rw [get_fs_byte_append, get_fs_byte, List.getD_append _ _ _ _ hk]
  rw [hassoc, scan_name_slash hcomp hslash, ← hassoc]
  dsimp only
  rw [if_neg (by decide), wp_bind, List.splitOn_append_cons_self_of_not_mem hslash,
    parent_cons (List.splitOn_ne_nil 47 post), if_pos hsearch]
  rcases find_component T hsearch hname with ⟨hnone, hfind⟩ | ⟨B, e, nr, hsome, hlive, hinode, hfind⟩
  · rw [wp_of_ok hfind, wp_bind, wp_of_ok (iput_taken halive), wp_pure, hnone]
    exact ⟨rfl, rfl, fun _ h => nomatch h⟩
  · rw [wp_of_ok hfind, wp_bind, wp_get, wp_bind, Bh.brelse, wp_of_ok (call_ok brelse_ok), wp_bind,
      wp_of_ok (iput_taken halive), wp_bind, show entry_inode (holding B (taken dir fs)) B e = nr from hinode]
    refine wp_iget fun hunused => ?_
    rw [hsome, Option.bind_some]
    have hlen : post.length < (comp ++ 47 :: post).length := by
      rw [List.length_append, List.length_cons]
      omega
    have hpath : pre ++ comp ++ [47] ++ post = pre ++ (comp ++ 47 :: post) := by simp
    have hrest : wp (get_dir_loop v (pre ++ comp ++ [47] ++ post) n (pre ++ comp ++ [47]).length nr)
        (Comes fs (pre ++ comp ++ [47] ++ post) (parent v fs nr (post.splitOn 47))) (fun e _ => Full fs e)
        (taken nr fs) :=
      ih post.length hlen (pre ++ comp ++ [47]) hpost (by omega) (hlive.imp_right fun h => ⟨h, hunused⟩)
        (by rw [hpath, ← last_slash (pre ++ comp) post, hassoc]) rfl
    rw [hpath, List.length_append, List.length_append, List.length_singleton] at hrest
    exact hrest

theorem hold_eq_taken (hcount : (fs.inode nr).i_count ≠ 0) : hold nr fs = taken nr fs := by
  rw [taken, if_neg hcount]
  rfl

theorem get_dir_comes (T : Tree v fs) (hzero : 0 ∉ path) :
    wp (get_dir v path) (Comes fs path (resolve_dir v fs path)) (fun e _ => Full fs e) fs := by
  rw [get_dir, wp_bind, wp_get, if_neg T.root, if_neg T.pwd, resolve_dir, components, start]
  cases path with
  | nil => exact ⟨rfl, rfl, fun _ h => nomatch h⟩
  | cons c path =>
    rw [if_neg (List.cons_ne_nil c path), List.head?_cons, List.tail_cons]
    rw [List.mem_cons, not_or] at hzero
    have hc : get_fs_byte (c :: path) 0 = c := rfl
    rw [hc]
    dsimp only
    by_cases hslash : c = 47
    · subst hslash
      rw [if_pos rfl, if_pos rfl, if_pos rfl, wp_bind, wp_modify, hold_eq_taken T.root]
      exact get_dir_loop_comes [47] T hzero.2 (by rw [List.length_cons]; omega) (.inl T.root)
        (last_slash [] path)
    · have hsome : some c ≠ some 47 := fun h => hslash (Option.some.inj h)
      rw [if_neg hslash, if_pos (Ne.symm hzero.1), if_neg hsome, if_neg hsome, wp_bind, wp_modify,
        hold_eq_taken T.pwd]
      exact get_dir_loop_comes [] T (fun h => (List.mem_cons.1 h).elim hzero.1 hzero.2)
        (Nat.lt_succ_self _) (.inl T.pwd) rfl

/-- `dir_namei` finds with its own scan where `get_dir` has stopped. -/
theorem dir_namei_comes (T : Tree v fs) (hzero : 0 ∉ path) :
    wp (dir_namei v path) (Comes fs path (resolve_dir v fs path)) (fun e _ => Full fs e) fs := by
  rw [dir_namei, wp_bind]
  refine wp_mono (get_dir_comes T hzero) ?_ fun _ _ h => h
  rintro r fs' ⟨rfl, h⟩
  cases hdir : resolve_dir v fs path with
  | none =>
    rw [hdir] at h
    exact ⟨rfl, h⟩
  | some dir =>
    rw [hdir] at h
    dsimp only
    rw [dir_namei_base hzero]
    refine ⟨?_, h⟩
    have hle := (last_suffix path).length_le
    rw [stopped, Option.map_some, show path.length + 1 - (path.length - (last path).length) - 1
      = (last path).length by omega]

theorem namei_comes (T : Tree v fs) (hzero : 0 ∉ path) :
    wp (namei v path) (fun r fs' => r = resolve v fs path ∧ fs' = left fs (resolve v fs path))
      (fun e _ => Full fs e) fs := by
  rw [namei, wp_bind, resolve]
  refine wp_mono (dir_namei_comes T hzero) ?_ fun _ _ h => h
  rintro r fs' ⟨rfl, rfl, hlive⟩
  cases hresolve : resolve_dir v fs path with
  | none => exact ⟨rfl, rfl⟩
  | some dir =>
    have hsearch : searchable v fs dir = true := by
      rw [resolve_dir] at hresolve
      split_ifs at hresolve
      exact parent_searchable hresolve
    have halive := hlive dir hresolve
    obtain ⟨pre, hpre⟩ := last_suffix path
    have hbase : path.length - (last path).length = pre.length := by
      have hlen := congrArg List.length hpre
      rw [List.length_append] at hlen
      omega
    have hname : ∀ k < (last path).length,
        get_fs_byte path (path.length - (last path).length + k) = (last path).getD k 0 := by
      intro k hk
      rw [hbase]
      conv_lhs => rw [← hpre]
      exact get_fs_byte_append _ _ k
    show wp (if (last path).length = 0 then pure (some dir) else _) _ _ (taken dir fs)
    rw [Option.bind_some]
    by_cases hempty : last path = []
    · rw [if_pos (List.length_eq_zero_iff.2 hempty), wp_pure, if_pos hempty]
      exact ⟨rfl, rfl⟩
    · rw [if_neg fun h => hempty (List.length_eq_zero_iff.1 h), wp_bind, if_neg hempty]
      rcases find_component T hsearch hname with ⟨hnone, hfind⟩ | ⟨B, e, nr, hsome, -, hinode, hfind⟩
      · rw [wp_of_ok hfind]
        dsimp only
        rw [wp_bind, wp_of_ok (iput_taken halive), wp_pure, hnone]
        exact ⟨rfl, rfl⟩
      · rw [wp_of_ok hfind]
        dsimp only
        rw [wp_bind, wp_get, wp_bind, Bh.brelse, wp_of_ok (call_ok brelse_ok), wp_bind,
          wp_of_ok (iput_taken halive), wp_bind,
          show entry_inode (holding B (taken dir fs)) B e = nr from hinode]
        refine wp_iget fun _ => ?_
        rw [wp_pure, hsome]
        exact ⟨rfl, rfl⟩

/-- **Path resolution is component-wise.**  `namei` returns what the components of the path lead to, and
nothing if they lead nowhere, and all other references to inodes are as before; `get_dir` and `dir_namei` come
to the same last component.  The one thing that stops them is a full table of inodes. -/
theorem namei_resolves (T : Tree v fs) (hzero : 0 ∉ path) :
    wp (namei v path) (fun r fs' => r = resolve v fs path ∧ fs' = left fs (resolve v fs path))
      (fun e _ => Full fs e) fs ∧
    wp (get_dir v path) (fun r fs' => r = stopped path (resolve_dir v fs path) ∧
      fs' = left fs (resolve_dir v fs path)) (fun e _ => Full fs e) fs ∧
    wp (dir_namei v path) (fun r fs' => r = stopped path (resolve_dir v fs path) ∧
      fs' = left fs (resolve_dir v fs path)) (fun e _ => Full fs e) fs :=
  ⟨namei_comes T hzero, wp_mono (get_dir_comes T hzero) (fun _ _ h => ⟨h.1, h.2.1⟩) fun _ _ h => h,
    wp_mono (dir_namei_comes T hzero) (fun _ _ h => ⟨h.1, h.2.1⟩) fun _ _ h => h⟩

/-- A root with the entries `.` and `..`. -/
def root_only : Fs where
  sb := ⟨100, 100, 1, 1, 5⟩
  imap := fun _ => true
  zmap := fun _ => true
  inode := fun nr =>
    if nr = 1 then ⟨I_DIRECTORY + 0o755, 2, 32, fun k => if k = 0 then 5 else 0, 3⟩
    else ⟨I_REGULAR, 1, 0, fun _ => 0, 0⟩
  b_data := fun _ w => if w = 0 ∨ w = 8 then 1 else if w = 1 then 46 else if w = 9 then 46 + 256 * 46 else 0
  b_count := fun _ => 0
  unused := 31
  unreadable := fun _ => false

theorem root_only_tree : Tree plain_view root_only := by
  have hone : ∀ nr, searchable plain_view root_only nr = true → nr = 1 := by
    intro nr h
    by_contra hne
    have hinode : root_only.inode nr = ⟨I_REGULAR, 1, 0, fun _ => 0, 0⟩ := if_neg hne
    rw [searchable, hinode] at h
    cases h
  refine ⟨rfl, fun nr h => ?_, fun nr h i hi _ => ?_, fun _ => by decide, .inr rfl, by decide, by decide⟩
  · obtain rfl := hone nr h
    refine ⟨by decide, by decide, fun i hi => ?_⟩
    have hi2 : i < 2 := hi
    rw [entry_block, show i / 64 = 0 by omega]
    decide
  · obtain rfl := hone nr h
    have hi2 : i < 2 := hi
    obtain rfl | rfl : i = 0 ∨ i = 1 := by omega
    · decide
    · decide

/-- `/.././.` is the root, and `/../x` is nothing. -/
theorem root_only_resolves :
    wp (namei plain_view [47, 46, 46, 47, 46, 47, 46]) (fun r fs' => r = some 1 ∧ fs' = left root_only (some 1))
      (fun e _ => Full root_only e) root_only ∧
    wp (namei plain_view [47, 46, 46, 47, 120]) (fun r fs' => r = none ∧ fs' = left root_only none)
      (fun e _ => Full root_only e) root_only := by
  have hroot : resolve plain_view root_only [47, 46, 46, 47, 46, 47, 46] = some 1 := by decide
  have hnothing : resolve plain_view root_only [47, 46, 46, 47, 120] = none := by decide
  have hfound := (namei_resolves root_only_tree (show 0 ∉ [47, 46, 46, 47, 46, 47, 46] by decide)).1
  have hmissing := (namei_resolves root_only_tree (show 0 ∉ [47, 46, 46, 47, 120] by decide)).1
  rw [hroot] at hfound
  rw [hnothing] at hmissing
  exact ⟨hfound, hmissing⟩

end OldLinux.Namei
