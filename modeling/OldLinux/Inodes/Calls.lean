import OldLinux.Inodes.Turns

/-!
# `sys_open`, `sys_unlink` and the creation of a file

The calls on top of the inode table, for names in any directories of a system without mounted devices.
`open_namei` copies the inode number out of the directory block, gives back the directory and then calls
`iget`; `sys_unlink` keeps the directory.  What else a process may do with its inodes between two calls
(`chdir`, `read`, `chmod`, `link`) is one step each.
-/

namespace OldLinux.Inodes

open Function Lib

structure DirEntry (α : Type) where
  name : α
  inode : ℕ

/-- An open file, with the inode number that the directory entry had and how often that number had been
freed by then. -/
structure File where
  inode : Fin 32
  dev : ℕ
  nr : ℕ
  gen : ℕ
deriving DecidableEq

/-- Why an inode is looked up. -/
inductive Goal where
  /-- a directory on the way -/
  | walk
  | open
  /-- `sys_unlink`, with the directory and the place of the entry -/
  | unlink (d : Fin 32) (place : ℕ)

/-- The number that was read in a directory, and how often it had been freed by then. -/
structure Lookup where
  goal : Goal
  dev : ℕ
  nr : ℕ
  gen : ℕ

/-- Where a process is in its system call. -/
inductive Script (α : Type) where
  | idle
  /-- `iput(dir)` is next -/
  | putDir (d : Fin 32) (c : Lookup)
  /-- `iget` is next -/
  | get (c : Lookup)
  | getting (c : Lookup)
  /-- in `new_inode` -/
  | making (x : α) (d : Fin 32)
  /-- in `add_entry` -/
  | made (x : α) (d : Fin 32)
  /-- only these are to be given back -/
  | ending (l : List (Fin 32))

structure World (n : ℕ) (α : Type) where
  table : Table n
  /-- the directory entries, by the device and the number of the directory and their place in it -/
  dir : ℕ → ℕ → ℕ → DirEntry α
  script : Fin n → Script α
  files : Fin n → List File

inductive Act (α : Type) where
  /-- `get_dir` starts at the root or the working directory -/
  | share (i : Fin 32)
  | pipe
  | modify (i : Fin 32) (disk : DInode)
  /-- an inode is given back that is not that of an open file -/
  | put (i : Fin 32)
  | close (f : File)
  /-- `find_entry` has found the name there -/
  | walk (d : Fin 32) (x : α) (place : ℕ)
  | open (d : Fin 32) (x : α) (place : ℕ)
  | unlink (d : Fin 32) (x : α) (place : ℕ)
  /-- an inode whose number is known: the root -/
  | root (dev nr : ℕ)
  /-- the call goes on -/
  | next
  /-- the inode is not one for the call; with the sticky bit the directory is given back first -/
  | fail (sticky : Bool)
  /-- `find_entry` has not found the name -/
  | create (x : α) (d : Fin 32)
  | bit (nr : Option ℕ)
  /-- what `add_entry` returns -/
  | add (place : Option ℕ)
  /-- the process goes on in `iget`, `iput` or `new_inode` -/
  | run
  /-- `bread` fails in `read_inode` or `write_inode` -/
  | unreadable

/-- In `read_inode` or `write_inode`. -/
def Pc.reads : Pc → Bool
  | .read _ | .emptyWrite _ _ | .putWrite _ _ => true
  | _ => false

namespace World

variable {n : ℕ} {α : Type} [DecidableEq α]

def setScript (w : World n α) (P : Fin n) (s : Script α) : World n α :=
  { w with script := update w.script P s }

/-- A step of the inode table. -/
def call (w : World n α) (P : Fin n) (ev : Event n) (s : Script α) : Option (World n α) :=
  (w.table.step (P, ev)).map fun t => { w.setScript P s with table := t }

/-- The process has a reference that is not that of an open file. -/
def spare (w : World n α) (P : Fin n) (i : Fin 32) : Bool :=
  decide (((w.files P).map File.inode).count i < (w.table.proc P).held.count i)

/-- The process is not in `iget`, `iput` or `new_inode`. -/
def ready (w : World n α) (P : Fin n) : Bool :=
  match (w.table.proc P).pc with
  | .user => true
  | _ => false

def entry (w : World n α) (d : Fin 32) (place : ℕ) : DirEntry α :=
  w.dir (w.table.inode d).dev (w.table.inode d).num place

def setEntry (w : World n α) (d : Fin 32) (place : ℕ) (de : DirEntry α) : World n α :=
  let t := w.table.inode d
  { w with dir := update w.dir t.dev (update (w.dir t.dev) t.num
      (update (w.dir t.dev t.num) place de)) }

def addFile (w : World n α) (P : Fin n) (f : File) : World n α :=
  { w with files := update w.files P (f :: w.files P) }

/-- What `find_entry` has found is looked up. -/
def found (w : World n α) (P : Fin n) (d : Fin 32) (x : α) (place : ℕ) (s : Lookup → Script α)
    (goal : Goal) : Option (World n α) :=
  let dev := (w.table.inode d).dev
  let de := w.entry d place
  if w.ready P ∧ w.spare P d ∧ dev ≠ 0 ∧ de.name = x ∧ de.inode ≠ 0 then
    some (w.setScript P (s ⟨goal, dev, de.inode, w.table.freed dev de.inode⟩))
  else none

/-- The inode that `iget` or `new_inode` has just given to the process. -/
def got (w : World n α) (P : Fin n) : Option (Fin 32) := if w.ready P then (w.table.proc P).held.head? else none

/-- `iget` has returned. -/
def next (w : World n α) (P : Fin n) (c : Lookup) (i : Fin 32) : Option (World n α) :=
  match c.goal with
  | .walk => some (w.setScript P .idle)
  | .open => some ((w.setScript P .idle).addFile P ⟨i, c.dev, c.nr, c.gen⟩)
  | .unlink d place =>
    let t := (w.table.inode i).disk
    let nlinks := if t.nlinks = 0 then 1 else t.nlinks
    (w.setEntry d place { w.entry d place with inode := 0 }).call P
      (.modify i { t with nlinks := nlinks - 1 }) (.ending [i, d])

/-- `iget` has returned, and the call fails. -/
def fail (w : World n α) (P : Fin n) (c : Lookup) (i : Fin 32) (sticky : Bool) : Option (World n α) :=
  match c.goal with
  | .walk => none
  | .open => some (w.setScript P (.ending [i]))
  | .unlink d _ => some (w.setScript P (.ending (if sticky then [d, i] else [i, d])))

/-- `add_entry` has returned. -/
def added (w : World n α) (P : Fin n) (x : α) (d i : Fin 32) : Option ℕ → Option (World n α)
  | none =>
    let t := (w.table.inode i).disk
    w.call P (.modify i { t with nlinks := t.nlinks - 1 }) (.ending [i, d])
  | some place =>
    let t := w.table.inode i
    if (w.entry d place).inode = 0 then
      some (((w.setEntry d place ⟨x, t.num⟩).setScript P (.ending [d])).addFile P
        ⟨i, t.dev, t.num, w.table.freed t.dev t.num⟩)
    else none

/-- A step of process `P`. -/
def step (w : World n α) (e : Fin n × Act α) : Option (World n α) :=
  let P := e.1
  if w.table.panicked then none
  else match e.2, w.script P with
    | .run, s => w.call P .run s
    | .unreadable, _ =>
      -- "unable to read i-node block"
      if (w.table.proc P).pc.reads then some { w with table := w.table.panic } else none
    | .share i, .idle => w.call P (.share i P) .idle
    | .pipe, .idle => w.call P .getEmpty .idle
    | .modify i disk, .idle => w.call P (.modify i disk) .idle
    | .put i, .idle => if w.spare P i then w.call P (.iput i) .idle else none
    | .close f, .idle =>
      if f ∈ w.files P then
        { w with files := update w.files P ((w.files P).erase f) }.call P (.iput f.inode) .idle
      else none
    | .walk d x place, .idle => w.found P d x place (.putDir d) .walk
    | .open d x place, .idle => w.found P d x place (.putDir d) .open
    | .unlink d x place, .idle => w.found P d x place .get (.unlink d place)
    | .root dev nr, .idle =>
      if w.ready P ∧ dev ≠ 0 then
        some (w.setScript P (.get ⟨.walk, dev, nr, w.table.freed dev nr⟩))
      else none
    | .create x d, .idle =>
      if w.spare P d then w.call P (.newInode (w.table.inode d).dev) (.making x d) else none
    | .next, .putDir d c => w.call P (.iput d) (.get c)
    | .next, .get c => w.call P (.iget c.dev c.nr) (.getting c)
    | .next, .getting c => (w.got P).bind fun i => w.next P c i
    | .fail sticky, .getting c => (w.got P).bind fun i => w.fail P c i sticky
    | .bit none, .making _ d => w.call P (.bit none) (.ending [d])
    | .bit (some nr), .making x d => w.call P (.bit (some nr)) (.made x d)
    | .add place, .made x d => (w.got P).bind fun i => w.added P x d i place
    | .next, .ending (i :: l) => w.call P (.iput i) (.ending l)
    | .next, .ending [] => if w.ready P then some (w.setScript P .idle) else none
    | _, _ => none

/-- Nobody has an inode, nobody is in a call; the directories are any. -/
structure Start (w : World n α) : Prop where
  table : w.table.Start
  script : ∀ P, w.script P = .idle
  files : ∀ P, w.files P = []

/-! ### Safe files -/

/-- No panic, and every open file has the inode that its name had when it was looked up: the number is
allocated and has not been freed since. -/
def OpenSafe (w : World n α) : Prop :=
  w.table.panicked = false ∧
  ∀ P, ∀ f ∈ w.files P, (w.table.inode f.inode).is f.dev f.nr ∧
    w.table.freed f.dev f.nr = f.gen ∧ w.table.bit f.dev f.nr = true

end World

/-- What `iget` is looking for, before it has got an entry. -/
def Pc.wants : Pc → Option (ℕ × ℕ)
  | .emptyWait (.iget dev nr) _ => some (dev, nr)
  | .emptyWrite (.iget dev nr) _ => some (dev, nr)
  | .look _ dev nr => some (dev, nr)
  | .lookWait _ dev nr _ => some (dev, nr)
  | _ => none

namespace World

variable {n : ℕ} {α : Type} [DecidableEq α]

/-- The process has read the number and has not got the inode yet. -/
def Seeks (w : World n α) (Q : Fin n) (dev nr : ℕ) : Prop :=
  match w.script Q with
  | .putDir _ c => c.dev = dev ∧ c.nr = nr
  | .get c => c.dev = dev ∧ c.nr = nr
  | .getting _ => (w.table.proc Q).pc.wants = some (dev, nr)
  | _ => False

/-- The inode is in use, and nobody is about to free it. -/
def Stays (w : World n α) (dev nr : ℕ) : Prop :=
  w.table.bit dev nr = true ∧
  ∀ Q i k, (w.table.proc Q).pc = .putTrunc i k → ¬(w.table.inode i).is dev nr

/-- There is room in the inode table, the blocks of inodes can be read, and nobody frees an inode while somebody
else has read its number and does not have the inode yet. -/
def Apart (w : World n α) (e : Fin n × Act α) : Prop :=
  match e.2, w.script e.1 with
  | .pipe, _ => w.table.Room
  | .create _ _, _ => w.table.Room
  | .next, .get _ => w.table.Room
  | .walk d _ place, _ => w.Stays (w.table.inode d).dev (w.entry d place).inode
  | .open d _ place, _ => w.Stays (w.table.inode d).dev (w.entry d place).inode
  | .unlink d _ place, _ => w.Stays (w.table.inode d).dev (w.entry d place).inode
  | .root dev nr, _ => w.Stays dev nr
  | .unreadable, _ => False
  | .run, _ => (w.table.Retries e.1 → w.table.Room) ∧
      ∀ i, (w.table.proc e.1).pc.Frees w.table.inode i →
      ∀ Q, ¬w.Seeks Q (w.table.inode i).dev (w.table.inode i).num
  | _, _ => True

end World

end OldLinux.Inodes
