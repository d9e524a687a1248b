import OldLinux.Lib.Numerals

/-!
# The console

`console.cc`: the screen, the cursor, and the commands that `con_write` takes from its characters,
up to the queue that it takes them from.  All variables are 32-bit unsigned words; additions and
subtractions go around.

* `Screen.con_char`: what one character does.  The `Z` of an `ESC Z` asks for an answer, which is
  up to the terminal.
* `con_init`: the variables that are set up for each kind of display.

The registers of the display controller and of the timer that beeps are left out: nothing reads them.
-/

namespace OldLinux.Console

open Function

/-! ### Unsigned words -/

def add (a b : ℕ) : ℕ := (a + b) % 4294967296

def sub (a b : ℕ) : ℕ := (a + (4294967296 - b % 4294967296)) % 4294967296

def mul (a b : ℕ) : ℕ := a * b % 4294967296

theorem add_eq {a b : ℕ} (h : a + b < 4294967296) : add a b = a + b := Nat.mod_eq_of_lt h

theorem sub_eq {a b : ℕ} (h : b ≤ a) (ha : a < 4294967296) : sub a b = a - b := by
  unfold sub
  omega

theorem mul_eq {a b : ℕ} (h : a * b < 4294967296) : mul a b = a * b := Nat.mod_eq_of_lt h

/-! ### The screen -/

/-- `video_type`. -/
inductive VideoType
  | mda | cga | egam | egac
  deriving DecidableEq

def NPAR : ℕ := 16

/-- The variables of `console.cc`.  `mem` are the bytes of the memory, `touched` the words that have
been stored or moved. -/
structure Screen where
  video_type : VideoType
  video_num_columns : ℕ
  video_size_row : ℕ
  video_num_lines : ℕ
  video_mem_start : ℕ
  video_mem_end : ℕ
  video_erase_char : ℕ
  origin : ℕ
  scr_end : ℕ
  pos : ℕ
  x : ℕ
  y : ℕ
  top : ℕ
  bottom : ℕ
  state : ℕ
  npar : ℕ
  par : ℕ → ℕ
  ques : Bool
  attr : ℕ
  saved_x : ℕ
  saved_y : ℕ
  mem : ℕ → ℕ
  touched : List ℕ

namespace Screen

/-- The word at `a`. -/
def word (s : Screen) (a : ℕ) : ℕ := s.mem a + 256 * s.mem (add a 1)

/-- A word is read in order to be moved. -/
def look (s : Screen) (a : ℕ) : Screen := { s with touched := a :: s.touched }

/-- A word is stored. -/
def poke (s : Screen) (a v : ℕ) : Screen :=
  { s with mem := update (update s.mem a (v % 256)) (add a 1) (v / 256 % 256)
           touched := a :: s.touched }

/-- Where a string instruction goes on; the direction flag is clear for `up`. -/
def advance (up : Bool) (a n : ℕ) : ℕ := if up then add a n else sub a n

/-- `rep stosw`. -/
def stosw (up : Bool) : ℕ → ℕ → Screen → Screen
  | 0, _, s => s
  | n + 1, di, s => stosw up n (advance up di 2) (s.poke di s.video_erase_char)

/-- One `movsl`. -/
def moveLong (s : Screen) (si di : ℕ) : Screen :=
  (((s.look si).look (add si 2)).poke di (s.word si)).poke (add di 2) (s.word (add si 2))

/-- `rep movsl`. -/
def movsl (up : Bool) : ℕ → ℕ → ℕ → Screen → Screen
  | 0, _, _, s => s
  | n + 1, si, di, s => movsl up n (advance up si 4) (advance up di 4) (s.moveLong si di)

/-- `%edi` after `rep movsl`. -/
def movedTo (up : Bool) : ℕ → ℕ → ℕ
  | 0, di => di
  | n + 1, di => movedTo up n (advance up di 4)

/-- The display scrolls by moving its origin. -/
def ega (s : Screen) : Bool := s.video_type = .egac ∨ s.video_type = .egam

def gotoxy (s : Screen) (new_x new_y : ℕ) : Screen :=
  if s.video_num_columns < new_x ∨ s.video_num_lines ≤ new_y then s
  else { s with x := new_x, y := new_y,
                pos := add (add s.origin (mul new_y s.video_size_row)) (mul new_x 2) }

/-- The lines of the scroll region that are moved, in longs. -/
def regionLongs (s : Screen) : ℕ := mul (sub (sub s.bottom s.top) 1) s.video_num_columns / 2

/-- The region moves up by one line. -/
def regionUp (s : Screen) : Screen :=
  let di := add s.origin (mul s.video_size_row s.top)
  let si := add s.origin (mul s.video_size_row (add s.top 1))
  stosw true s.video_num_columns (movedTo true s.regionLongs di) (movsl true s.regionLongs si di s)

/-- The region moves down by one line. -/
def regionDown (s : Screen) : Screen :=
  let di := sub (add s.origin (mul s.video_size_row s.bottom)) 4
  let si := sub (add s.origin (mul s.video_size_row (sub s.bottom 1))) 4
  stosw false s.video_num_columns (add (movedTo false s.regionLongs di) 2) (movsl false s.regionLongs si di s)

/-- The origin moves down by one line. -/
def nextOrigin (s : Screen) : Screen :=
  { s with origin := add s.origin s.video_size_row
           pos := add s.pos s.video_size_row
           scr_end := add s.scr_end s.video_size_row }

/-- The screen is copied to the start of the video memory. -/
def copyBack (s : Screen) : Screen :=
  let n := mul (sub s.video_num_lines 1) s.video_num_columns / 2
  stosw true s.video_num_columns (movedTo true n s.video_mem_start) (movsl true n s.origin s.video_mem_start s)

/-- The variables follow the screen to the start of the video memory. -/
def backToStart (s : Screen) : Screen :=
  { s with scr_end := sub s.scr_end (sub s.origin s.video_mem_start)
           pos := sub s.pos (sub s.origin s.video_mem_start)
           origin := s.video_mem_start }

def scrup (s : Screen) : Screen :=
  if s.ega ∧ s.top = 0 ∧ s.bottom = s.video_num_lines then
    if s.nextOrigin.video_mem_end < s.nextOrigin.scr_end then s.nextOrigin.copyBack.backToStart
    else
      stosw true s.video_num_columns (sub s.nextOrigin.scr_end s.video_size_row) s.nextOrigin
  else s.regionUp

/-- The same for all displays. -/
def scrdown (s : Screen) : Screen := s.regionDown

def lf (s : Screen) : Screen :=
  if add s.y 1 < s.bottom then { s with y := add s.y 1, pos := add s.pos s.video_size_row }
  else s.scrup

def ri (s : Screen) : Screen :=
  if s.top < s.y then { s with y := sub s.y 1, pos := sub s.pos s.video_size_row } else s.scrdown

def cr (s : Screen) : Screen := { s with pos := sub s.pos (mul s.x 2), x := 0 }

def del (s : Screen) : Screen :=
  if s.x ≠ 0 then
    ({ s with pos := sub s.pos 2, x := sub s.x 1 } : Screen).poke (sub s.pos 2) s.video_erase_char
  else s

def csi_J (s : Screen) (par : ℕ) : Screen :=
  match par with
  | 0 => stosw true (sub s.scr_end s.pos / 2) s.pos s
  | 1 => stosw true (sub s.pos s.origin / 2) s.origin s
  | 2 => stosw true (mul s.video_num_columns s.video_num_lines) s.origin s
  | _ => s

def csi_K (s : Screen) (par : ℕ) : Screen :=
  match par with
  | 0 =>
    if s.video_num_columns ≤ s.x then s
    else stosw true (sub s.video_num_columns s.x) s.pos s
  | 1 =>
    stosw true (if s.x < s.video_num_columns then s.x else s.video_num_columns) (sub s.pos (mul s.x 2)) s
  | 2 => stosw true s.video_num_columns (sub s.pos (mul s.x 2)) s
  | _ => s

/-- The attribute that a parameter of `csi_m` selects. -/
def select (attr par : ℕ) : ℕ :=
  match par with
  | 0 => 0x07
  | 1 => 0x0f
  | 4 => 0x0f
  | 7 => 0x70
  | 27 => 0x07
  | _ => attr

def csi_m (s : Screen) : Screen :=
  { s with attr := (List.range (s.npar + 1)).foldl (fun attr i => select attr (s.par i)) s.attr }

/-- The loop of `insert_char`, for `n` words from `p` on. -/
def insertFrom : ℕ → ℕ → ℕ → Screen → Screen
  | 0, _, _, s => s
  | n + 1, p, old, s => insertFrom n (add p 2) (s.word p) ((s.look p).poke p old)

def insert_char (s : Screen) : Screen :=
  insertFrom (s.video_num_columns - s.x) s.pos s.video_erase_char s

/-- The loop of `delete_char`, for `n` words from `p` on. -/
def deleteFrom : ℕ → ℕ → Screen → Screen
  | 0, p, s => s.poke p s.video_erase_char
  | n + 1, p, s => deleteFrom n (add p 2) ((s.look (add p 2)).poke p (s.word (add p 2)))

def delete_char (s : Screen) : Screen :=
  if s.video_num_columns ≤ s.x then s else deleteFrom (s.video_num_columns - s.x - 1) s.pos s

/-- The scroll region for `insert_line` and `delete_line`: from the cursor's line to the last one. -/
def fromLine (s : Screen) : Screen := { s with top := s.y, bottom := s.video_num_lines }

def insert_line (s : Screen) : Screen :=
  { s.fromLine.scrdown with top := s.top, bottom := s.bottom }

def delete_line (s : Screen) : Screen :=
  { s.fromLine.scrup with top := s.top, bottom := s.bottom }

/-- How often a command is done: at least once and at most `most` times. -/
def times (most nr : ℕ) : ℕ := if most < nr then most else if nr = 0 then 1 else nr

def csi_at (s : Screen) (nr : ℕ) : Screen := insert_char^[times s.video_num_columns nr] s

def csi_L (s : Screen) (nr : ℕ) : Screen := insert_line^[times s.video_num_lines nr] s

def csi_P (s : Screen) (nr : ℕ) : Screen := delete_char^[times s.video_num_columns nr] s

def csi_M (s : Screen) (nr : ℕ) : Screen := delete_line^[times s.video_num_lines nr] s

def save_cur (s : Screen) : Screen := { s with saved_x := s.x, saved_y := s.y }

def restore_cur (s : Screen) : Screen := s.gotoxy s.saved_x s.saved_y

/-! ### `con_write` -/

/-- A column too far: the cursor goes to the next line, `x` columns in. -/
def wrap (s : Screen) : Screen :=
  lf { s with x := sub s.x s.video_num_columns, pos := sub s.pos s.video_size_row }

/-- The character is stored at the cursor, with the attribute. -/
def put (s : Screen) (c : ℤ) : Screen :=
  let s := s.poke s.pos (c.toNat + 256 * s.attr)
  { s with pos := add s.pos 2, x := add s.x 1 }

def tab (s : Screen) : Screen :=
  let c := 8 - s.x % 8
  let s := { s with x := add s.x c, pos := add s.pos (mul c 2) }
  if s.video_num_columns < s.x then s.wrap else s

/-- `case 0`: outside of escape sequences. -/
def plain (erase : ℕ) (c : ℤ) (s : Screen) : Screen :=
  if 31 < c ∧ c < 127 then (if s.video_num_columns ≤ s.x then s.wrap else s).put c
  else if c = 27 then { s with state := 1 }
  else if c = 10 ∨ c = 11 ∨ c = 12 then s.lf
  else if c = 13 then s.cr
  else if c = erase then s.del
  else if c = 8 then
    if s.x ≠ 0 then { s with x := sub s.x 1, pos := sub s.pos 2 } else s
  else if c = 9 then s.tab
  else s

/-- `case 1`: after `ESC`.  The letters `7` and `8` are looked for in the cursor's column. -/
def escape (c : ℤ) (s : Screen) : Screen :=
  if c = 91 then { s with state := 2 }
  else if c = 69 then s.gotoxy 0 (add s.y 1)
  else if c = 77 then s.ri
  else if c = 68 then s.lf
  else if c = 90 then s
  else if s.x = 55 then s.save_cur
  else if s.x = 56 then s.restore_cur
  else s

/-- `if (!par[0]) par[0]++`. -/
def atLeastOne (s : Screen) : Screen :=
  if s.par 0 = 0 then { s with par := update s.par 0 1 } else s

/-- `if (par[i]) par[i]--`. -/
def fromZero (s : Screen) (i : ℕ) : Screen :=
  if s.par i ≠ 0 then { s with par := update s.par i (s.par i - 1) } else s

/-- The parameters of `csi_r`: without a second one the region ends with the screen. -/
def lastLine (s : Screen) : Screen :=
  if s.par 1 = 0 then { s with par := update s.par 1 s.video_num_lines } else s

/-- `case 'r'`. -/
def csi_r (s : Screen) : Screen :=
  if s.par 0 < s.par 1 ∧ s.par 1 ≤ s.video_num_lines then
    { s with top := s.par 0, bottom := s.par 1 }
  else s

/-- `case 4`: the command after the parameters. -/
def command (c : ℤ) (s : Screen) : Screen :=
  if c = 71 ∨ c = 96 then (s.fromZero 0).gotoxy ((s.fromZero 0).par 0) s.y
  else if c = 65 then s.atLeastOne.gotoxy s.x (sub s.y (s.atLeastOne.par 0))
  else if c = 66 ∨ c = 101 then s.atLeastOne.gotoxy s.x (add s.y (s.atLeastOne.par 0))
  else if c = 67 ∨ c = 97 then s.atLeastOne.gotoxy (add s.x (s.atLeastOne.par 0)) s.y
  else if c = 68 then s.atLeastOne.gotoxy (sub s.x (s.atLeastOne.par 0)) s.y
  else if c = 69 then s.atLeastOne.gotoxy 0 (add s.y (s.atLeastOne.par 0))
  else if c = 70 then s.atLeastOne.gotoxy 0 (sub s.y (s.atLeastOne.par 0))
  else if c = 100 then (s.fromZero 0).gotoxy s.x ((s.fromZero 0).par 0)
  else if c = 72 ∨ c = 102 then
    ((s.fromZero 0).fromZero 1).gotoxy (((s.fromZero 0).fromZero 1).par 1) (((s.fromZero 0).fromZero 1).par 0)
  else if c = 74 then s.csi_J (s.par 0)
  else if c = 75 then s.csi_K (s.par 0)
  else if c = 76 then s.csi_L (s.par 0)
  else if c = 77 then s.csi_M (s.par 0)
  else if c = 80 then s.csi_P (s.par 0)
  else if c = 64 then s.csi_at (s.par 0)
  else if c = 109 then s.csi_m
  else if c = 114 then (s.fromZero 0).lastLine.csi_r
  else if c = 115 then s.save_cur
  else if c = 117 then s.restore_cur
  else s

/-- `case 3`: the parameters. -/
def parameter (c : ℤ) (s : Screen) : Screen :=
  if c = 59 ∧ s.npar < NPAR - 1 then { s with npar := s.npar + 1 }
  else if 48 ≤ c ∧ c ≤ 57 then
    { s with par := update s.par s.npar (add (mul 10 (s.par s.npar)) (c - 48).toNat) }
  else command c { s with state := 0 }

/-- `case 2`: after `ESC [`. -/
def bracket (c : ℤ) (s : Screen) : Screen :=
  let s := { s with npar := 0, par := fun _ => 0, state := 3, ques := decide (c = 63) }
  if c = 63 then s else s.parameter c

/-- What `con_write` does with a character, but for the answer to `ESC Z`; `erase` is the
terminal's erase character. -/
def con_char (erase : ℕ) (c : ℤ) (s : Screen) : Screen :=
  match s.state with
  | 0 => s.plain erase c
  | 1 => escape c { s with state := 0 }
  | 2 => s.bracket c
  | 3 => s.parameter c
  | 4 => command c { s with state := 0 }
  | _ => s

/-- The character is the `Z` of an `ESC Z`: `con_write` calls `respond`. -/
def asks (s : Screen) (c : ℤ) : Bool := s.state = 1 ∧ c = 90

end Screen

/-! ### `con_init` -/

/-- What the boot code has left at `0x90000`. -/
structure Boot where
  orig_x : ℕ
  orig_y : ℕ
  /-- `ORIG_VIDEO_MODE` is 7 -/
  mono : Bool
  cols : ℕ
  /-- the low byte of `ORIG_VIDEO_EGA_BX` is 0x10: there is no EGA -/
  noEga : Bool

def Boot.video_type (b : Boot) : VideoType :=
  match b.mono, b.noEga with
  | true, false => .egam
  | true, true => .mda
  | false, false => .egac
  | false, true => .cga

def Boot.video_mem_start (b : Boot) : ℕ := if b.mono then 0xb0000 else 0xb8000

def Boot.video_mem_end (b : Boot) : ℕ :=
  match b.video_type with
  | .egam => 0xb8000
  | .mda => 0xb2000
  | .egac => 0xbc000
  | .cga => 0xba000

/-- `con_init`, over any memory: the texts on the screen and what stands in `par` are left over. -/
def con_init (b : Boot) (mem : ℕ → ℕ) : Screen :=
  ({ video_type := b.video_type
     video_num_columns := b.cols
     video_size_row := b.cols * 2
     video_num_lines := 25
     video_mem_start := b.video_mem_start
     video_mem_end := b.video_mem_end
     video_erase_char := 0x0720
     origin := b.video_mem_start
     scr_end := b.video_mem_start + 25 * (b.cols * 2)
     pos := 0, x := 0, y := 0, top := 0, bottom := 25
     state := 0, npar := 0, par := fun _ => 0, ques := false, attr := 0x07
     saved_x := 0, saved_y := 0
     mem := mem
     touched := [] } : Screen).gotoxy b.orig_x b.orig_y

end OldLinux.Console
