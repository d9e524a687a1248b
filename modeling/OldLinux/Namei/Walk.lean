import OldLinux.Namei.Machine

/-!
# From a path to an inode

`permission`, `get_dir`, `dir_namei` and `namei`.  A path is the list of its bytes, without the zero at its
end, and a pointer into it is a position.  `get_dir` returns the position at which it has stopped as well.
-/

namespace OldLinux.Namei

open Lib Creation

/-- The byte behind the end is 0. -/
def get_fs_byte (path : List ℕ) (p : ℕ) : ℕ := path.getD p 0

def MAY_EXEC : ℕ := 1

def permission (v : View) (fs : Fs) (nr mask : ℕ) : Bool :=
  if (fs.inode nr).i_nlinks = 0 then false
  else
    let mode :=
      if v.euid = v.i_uid nr then (fs.inode nr).i_mode >>> 6
      else if v.egid = v.i_gid nr then (fs.inode nr).i_mode >>> 3
      else (fs.inode nr).i_mode
    mode &&& mask &&& 7 == mask || v.euid == 0

/-- `for(namelen=0;(c=get_fs_byte(pathname++))&&(c!='/');namelen++)`: `c`, `pathname` and `namelen`. -/
def scan_name (path : List ℕ) : ℕ → ℕ → ℕ → ℕ × ℕ × ℕ
  | 0, pathname, namelen => (0, pathname + 1, namelen)
  | n + 1, pathname, namelen =>
    let c := get_fs_byte path pathname
    if c ≠ 0 ∧ c ≠ 47 then scan_name path n (pathname + 1) (namelen + 1)
    else (c, pathname + 1, namelen)

/-- The `inode`, `thisname` and `namelen` at which `get_dir` stops. -/
abbrev Stopped := ℕ × ℕ × ℕ

/-- `while (1)` of `get_dir`. -/
def get_dir_loop (v : View) (path : List ℕ) : ℕ → ℕ → ℕ → NameiM (Option Stopped)
  | 0, _, _ => pure none
  | n + 1, thisname, inode => do
      let fs ← get
      if S_ISDIR (fs.inode inode).i_mode = false ∨ permission v fs inode MAY_EXEC = false then do
        call (iput inode)
        pure none
      else do
        let (c, pathname, namelen) := scan_name path (path.length - thisname) thisname 0
        if c = 0 then pure (some (inode, thisname, namelen))
        else do
          let (inode, entry) ← find_entry v inode namelen fun k => get_fs_byte path (thisname + k)
          match entry with
          | none => do
              call (iput inode)
              pure none
          | some (block, de) => do
              let fs ← get
              let inr := entry_inode fs block de
              (Bh.held block).brelse
              call (iput inode)
              call (iget inr)
              get_dir_loop v path n pathname inr

/-- `inode->i_count++`. -/
def hold (nr : ℕ) (fs : Fs) : Fs :=
  fs.set_inode nr { fs.inode nr with i_count := (fs.inode nr).i_count + 1 }

def get_dir (v : View) (path : List ℕ) : NameiM (Option Stopped) := do
  let fs ← get
  if (fs.inode v.root).i_count = 0 then throw (.trap (.panic "No root inode"))
  else if (fs.inode v.pwd).i_count = 0 then throw (.trap (.panic "No cwd inode"))
  else do
    let c := get_fs_byte path 0
    if c = 47 then do
      modify (hold v.root)
      get_dir_loop v path (path.length + 1) 1 v.root
    else if c ≠ 0 then do
      modify (hold v.pwd)
      get_dir_loop v path (path.length + 1) 0 v.pwd
    else pure none

/-- `while ((c=get_fs_byte(pathname++)))`: `pathname` and `basename`. -/
def scan_base (path : List ℕ) : ℕ → ℕ → ℕ → ℕ × ℕ
  | 0, pathname, basename => (pathname + 1, basename)
  | n + 1, pathname, basename =>
    let c := get_fs_byte path pathname
    if c = 0 then (pathname + 1, basename)
    else scan_base path n (pathname + 1) (if c = 47 then pathname + 1 else basename)

/-- The directory, `basename` and `namelen`. -/
def dir_namei (v : View) (path : List ℕ) : NameiM (Option Stopped) := do
  match ← get_dir v path with
  | none => pure none
  | some (dir, _, _) =>
    let (pathname, basename) := scan_base path path.length 0 0
    pure (some (dir, basename, pathname - basename - 1))

def namei (v : View) (path : List ℕ) : NameiM (Option ℕ) := do
  match ← dir_namei v path with
  | none => pure none
  | some (dir, basename, namelen) =>
    if namelen = 0 then pure (some dir)
    else do
      let (dir, entry) ← find_entry v dir namelen fun k => get_fs_byte path (basename + k)
      match entry with
      | none => do
          call (iput dir)
          pure none
      | some (block, de) => do
          let fs ← get
          let inr := entry_inode fs block de
          (Bh.held block).brelse
          call (iput dir)
          call (iget inr)
          pure (some inr)

end OldLinux.Namei
