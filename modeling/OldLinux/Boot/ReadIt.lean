import OldLinux.Lib.Numerals

/-!
# Loading the system

`read_it` of `bootsect.s`: the boot sector reads the system from the floppy through the BIOS, as much of a track
at a time as the 64 kB segment has room for.  Then `do_move` of `setup.s` moves it down to address 0.
-/

namespace OldLinux.Boot

def SETUPLEN : ℕ := 4
def SYSSIZE : ℕ := 0x3000
def SYSSEG : ℕ := 0x1000
def ENDSEG : ℕ := SYSSEG + SYSSIZE

/-- The bytes of the floppy: cylinder, head, sector, offset. -/
abbrev Floppy := ℕ → ℕ → ℕ → ℕ → BitVec 8

/-- The BIOS reads, or fails and may leave anything where it was to read. -/
inductive Answer where
  | read
  | failed (left : ℕ → BitVec 8)

inductive Pc where
  | read_it
  | die
  | rp_read
  | read_track (ax : ℕ)
  | ret

structure Loader where
  pc : Pc
  es : ℕ
  bx : ℕ
  sread : ℕ
  head : ℕ
  track : ℕ
  /-- The BIOS reads so far. -/
  calls : ℕ
  memory : ℕ → BitVec 8

/-- Before the call of `read_it`. -/
def start (bx : ℕ) (memory : ℕ → BitVec 8) : Loader := ⟨.read_it, SYSSEG, bx, 1 + SETUPLEN, 0, 0, 0, memory⟩

/-- `ax` at `ok2_read`, on 16-bit registers. -/
def ok1_read (sectors : ℕ) (l : Loader) : ℕ :=
  let ax := (sectors + 65536 - l.sread) % 65536
  let sum := ax * 512 % 65536 + l.bx
  if sum < 65536 ∨ sum % 65536 = 0 then ax else (65536 - l.bx) % 65536 / 512

/-- Function 2 of `int 0x13`: `al` sectors go to the physical address `at_`. -/
def int13 (floppy : Floppy) (a : Answer) (al ch cl dh at_ : ℕ) (memory : ℕ → BitVec 8) :
    ℕ → BitVec 8 := fun p =>
  if at_ ≤ p ∧ p < at_ + 512 * al then
    match a with
    | .read => floppy (ch + cl / 64 * 256) dh (cl % 64 + (p - at_) / 512) ((p - at_) % 512)
    | .failed left => left p
  else memory p

/-- Up to the jump to `rp_read`, after `ax` sectors were read. -/
def advance (sectors ax : ℕ) (l : Loader) : Loader :=
  let cx := ax * 512 % 65536
  let ax := (ax + l.sread) % 65536
  let l :=
    if ax = sectors then
      let ax := (65536 + 1 - l.head) % 65536
      { l with track := if ax = 0 then (l.track + 1) % 65536 else l.track, head := ax, sread := 0 }
    else { l with sread := ax }
  if l.bx + cx < 65536 then { l with bx := l.bx + cx } else { l with es := (l.es + 0x1000) % 65536, bx := 0 }

/-- One pass of `read_track`; `bad_rt` resets the drive and starts it anew. -/
def read_track (floppy : Floppy) (a : Answer) (sectors ax : ℕ) (l : Loader) : Loader :=
  let l := { l with
    calls := l.calls + 1
    memory := int13 floppy a (ax % 256) (l.track % 256) ((l.sread + 1) % 256) (l.head % 2)
      (l.es * 16 + l.bx) l.memory }
  match a with
  | .read => { advance sectors ax l with pc := .rp_read }
  | .failed _ => l

def step (floppy : Floppy) (answers : ℕ → Answer) (sectors : ℕ) (l : Loader) : Loader :=
  match l.pc with
  | .read_it => if l.es % 0x1000 = 0 then { l with pc := .rp_read, bx := 0 } else { l with pc := .die }
  | .rp_read =>
    if l.es < ENDSEG then { l with pc := .read_track (ok1_read sectors l) } else { l with pc := .ret }
  | .read_track ax => read_track floppy (answers l.calls) sectors ax l
  | .die | .ret => l

/-- The sectors of the floppy one after another: by track, then by head, then by sector. -/
def sector (floppy : Floppy) (sectors n : ℕ) : ℕ → BitVec 8 :=
  floppy (n / sectors / 2) (n / sectors % 2) (n % sectors + 1)

/-- A call of `read_track` asks for something, and for no more than the track and the segment hold. -/
structure Fits (sectors ax : ℕ) (l : Loader) : Prop where
  asks : 1 ≤ ax
  track : l.sread + ax ≤ sectors
  segment : (l.es * 16 + l.bx) / 65536 = (l.es * 16 + l.bx + 512 * ax - 1) / 65536

/-! ### What holds in the loop -/

/-- `k` sectors are loaded, and the next one is on track. -/
structure Loaded (floppy : Floppy) (sectors k : ℕ) (l : Loader) : Prop where
  most : k ≤ 384
  es : l.es = 0x1000 * (1 + k / 128)
  bx : l.bx = 512 * (k % 128)
  next : sectors * (2 * l.track + l.head) + l.sread = 5 + k
  head : l.head < 2
  sread : l.sread < sectors
  memory : ∀ a < 512 * k, l.memory (0x10000 + a) = sector floppy sectors (5 + a / 512) (a % 512)

variable {floppy : Floppy} {answers : ℕ → Answer} {sectors k ax : ℕ} {l : Loader}

theorem sector_eq {t s : ℕ} (hs : s < sectors) :
    sector floppy sectors (sectors * t + s) = floppy (t / 2) (t % 2) (s + 1) := by
  have hdiv : (sectors * t + s) / sectors = t := by
    rw [Nat.mul_add_div (by omega), Nat.div_eq_of_lt hs, Nat.add_zero]
  rw [sector, hdiv, Nat.mul_add_mod, Nat.mod_eq_of_lt hs]

theorem Loaded.small (h : Loaded floppy sectors k l) (hlow : 6 ≤ sectors) : 2 * l.track + l.head ≤ 64 := by
  have hmost := h.most
  have hnext := h.next
  have := Nat.mul_le_mul_right (2 * l.track + l.head) hlow
  omega

/-- What is asked for ends with the track or with the segment. -/
theorem Loaded.fits (h : Loaded floppy sectors k l) (hhigh : sectors ≤ 63) :
    1 ≤ ok1_read sectors l ∧ l.sread + ok1_read sectors l ≤ sectors ∧
    l.bx + 512 * ok1_read sectors l ≤ 65536 := by
  have hsread := h.sread
  have hbx := h.bx
  have hax : (sectors + 65536 - l.sread) % 65536 = sectors - l.sread := by omega
  have hcx : (sectors - l.sread) * 512 % 65536 = (sectors - l.sread) * 512 := by omega
  simp only [ok1_read, hax, hcx]
  split
  case isTrue hroom => omega
  case isFalse hfull => omega

/-- What the BIOS reads continues what is loaded; all below is left. -/
theorem Loaded.int13 (h : Loaded floppy sectors k l) (hlow : 6 ≤ sectors) (hhigh : sectors ≤ 63)
    (htrack : l.sread + ax ≤ sectors) {a : ℕ} (ha : a < 512 * (k + ax)) :
    int13 floppy .read (ax % 256) (l.track % 256) ((l.sread + 1) % 256) (l.head % 2) (l.es * 16 + l.bx) l.memory
      (0x10000 + a) = sector floppy sectors (5 + a / 512) (a % 512) := by
  have hsmall := h.small hlow
  have hsread := h.sread
  have hhead := h.head
  have hat : l.es * 16 + l.bx = 0x10000 + 512 * k := by
    rw [h.es, h.bx]
    omega
  rw [Boot.int13, hat]
  by_cases hnew : 512 * k ≤ a
  case neg =>
    rw [if_neg (by omega)]
    exact h.memory a (by omega)
  case pos =>
    have hsector : 5 + a / 512 = sectors * (2 * l.track + l.head) + (l.sread + (a - 512 * k) / 512) := by
      have hnext := h.next
      omega
    rw [if_pos (by omega), hsector, sector_eq (by omega)]
    have hcylinder : l.track % 256 + (l.sread + 1) % 256 / 64 * 256 = (2 * l.track + l.head) / 2 := by omega
    have hside : l.head % 2 = (2 * l.track + l.head) % 2 := by omega
    have hfirst : (l.sread + 1) % 256 % 64 + (0x10000 + a - (0x10000 + 512 * k)) / 512 =
        l.sread + (a - 512 * k) / 512 + 1 := by omega
    have hbyte : (0x10000 + a - (0x10000 + 512 * k)) % 512 = a % 512 := by omega
    rw [hcylinder, hside, hfirst, hbyte]

theorem Loaded.spoiled (h : Loaded floppy sectors k l) (left : ℕ → BitVec 8) (al ch cl dh : ℕ) {a : ℕ}
    (ha : a < 512 * k) :
    Boot.int13 floppy (.failed left) al ch cl dh (l.es * 16 + l.bx) l.memory (0x10000 + a) =
      sector floppy sectors (5 + a / 512) (a % 512) := by
  have hat : l.es * 16 + l.bx = 0x10000 + 512 * k := by
    rw [h.es, h.bx]
    omega
  rw [Boot.int13, hat, if_neg (by omega)]
  exact h.memory a ha

theorem loaded {pc : Pc} {es bx sread head track calls : ℕ} {m : ℕ → BitVec 8} (hmost : k ≤ 384)
    (hes : es = 0x1000 * (1 + k / 128)) (hbx : bx = 512 * (k % 128))
    (hnext : sectors * (2 * track + head) + sread = 5 + k) (hhead : head < 2) (hsread : sread < sectors)
    (hm : ∀ a < 512 * k, m (0x10000 + a) = sector floppy sectors (5 + a / 512) (a % 512)) :
    Loaded floppy sectors k ⟨pc, es, bx, sread, head, track, calls, m⟩ :=
  ⟨hmost, hes, hbx, hnext, hhead, hsread, hm⟩

/-- The step to the next sector, track and segment. -/
theorem Loaded.advance (h : Loaded floppy sectors k l) (hlow : 6 ≤ sectors) (hhigh : sectors ≤ 63)
    (htrack : l.sread + ax ≤ sectors) (hsegment : l.bx + 512 * ax ≤ 65536) (hk : k < 384)
    {m : ℕ → BitVec 8} {c : ℕ}
    (hm : ∀ a < 512 * (k + ax), m (0x10000 + a) = sector floppy sectors (5 + a / 512) (a % 512)) :
    Loaded floppy sectors (k + ax) (advance sectors ax { l with calls := c, memory := m }) := by
  have hsmall := h.small hlow
  obtain ⟨-, hes, hbx, hnext, hhead, hsread, -⟩ := h
  have hax : (ax + l.sread) % 65536 = ax + l.sread := by omega
  have hcx : ax * 512 % 65536 = ax * 512 := by omega
  -- The other side of the track comes next, or the next track.
  have hside : 2 * (if (65536 + 1 - l.head) % 65536 = 0 then (l.track + 1) % 65536 else l.track) +
      (65536 + 1 - l.head) % 65536 = 2 * l.track + l.head + 1 := by
    split <;> omega
  have hturn := congrArg (sectors * ·) hside
  simp only [Nat.mul_succ] at hturn
  simp only [Boot.advance, hax, hcx]
  by_cases hend : ax + l.sread = sectors
  case pos =>
    simp only [hend, if_true]
    split <;> exact loaded (by omega) (by omega) (by omega) (by omega) (by omega) (by omega) hm
  case neg =>
    simp only [hend, if_false]
    split <;> exact loaded (by omega) (by omega) (by omega) (by omega) hhead (by omega) hm

/-! ### The whole load -/

/-- Where the loader stands, with `k` sectors loaded. -/
def At (sectors k : ℕ) (l : Loader) : Prop :=
  match l.pc with
  | .read_it | .die => False
  | .rp_read => True
  | .read_track ax => k < 384 ∧ 1 ≤ ax ∧ l.sread + ax ≤ sectors ∧ l.bx + 512 * ax ≤ 65536
  | .ret => k = 384

/-- What falls with every step, a failed read apart. -/
def rank (k : ℕ) (l : Loader) : ℕ :=
  match l.pc with
  | .rp_read => 2 * (384 - k) + 1
  | .read_track _ => 2 * (384 - k)
  | .read_it | .die | .ret => 0

/-- A step loads what was asked for, or nothing; only failed reads are made again. -/
theorem Loaded.step (h : Loaded floppy sectors k l) (answers : ℕ → Answer) (hat : At sectors k l)
    (hlow : 6 ≤ sectors)
    (hhigh : sectors ≤ 63) :
    ∃ n, Loaded floppy sectors n (step floppy answers sectors l) ∧
    At sectors n (step floppy answers sectors l) ∧
      (rank n (step floppy answers sectors l) < rank k l ∨ rank n (step floppy answers sectors l) = rank k l ∧
          (step floppy answers sectors l).calls = l.calls + 1 ∧ answers l.calls ≠ .read ∨
        l.pc = .ret) := by
  obtain ⟨pc, es, bx, sread, head, track, calls, memory⟩ := l
  obtain ⟨hmost, hes, hbx, hnext, hhead, hsread, hm⟩ := id h
  cases pc with
  | read_it => exact hat.elim
  | die => exact hat.elim
  | ret => exact ⟨k, h, hat, .inr (.inr rfl)⟩
  | rp_read =>
    refine ⟨k, ?_⟩
    dsimp only at hes
    have hendseg : ENDSEG = 0x4000 := rfl
    by_cases hmore : es < ENDSEG
    case pos =>
      simp only [Boot.step, hmore, if_true]
      exact ⟨⟨hmost, hes, hbx, hnext, hhead, hsread, hm⟩, ⟨by omega, h.fits hhigh⟩, .inl (Nat.lt_succ_self _)⟩
    case neg =>
      have hall : k = 384 := by omega
      simp only [Boot.step, hmore, if_false]
      exact ⟨⟨hmost, hes, hbx, hnext, hhead, hsread, hm⟩, hall, .inl (Nat.succ_pos _)⟩
  | read_track ax =>
    obtain ⟨hk, hasks, htrack, hsegment⟩ := hat
    simp only [Boot.step, Boot.read_track]
    cases hanswer : answers calls with
    | read =>
      have hread := h.advance (c := calls + 1) hlow hhigh htrack hsegment hk
        (fun a ha => h.int13 hlow hhigh htrack ha)
      obtain ⟨hmost', hes', hbx', hnext', hhead', hsread', hm'⟩ := hread
      refine ⟨k + ax, ⟨hmost', hes', hbx', hnext', hhead', hsread', hm'⟩, trivial, .inl ?_⟩
      simp only [rank]
      omega
    | failed left =>
      have hleft : ∀ a < 512 * k, _ := fun a ha =>
        h.spoiled left (ax % 256) (track % 256) ((sread + 1) % 256) (head % 2) ha
      exact ⟨k, ⟨hmost, hes, hbx, hnext, hhead, hsread, hleft⟩, ⟨hk, hasks, htrack, hsegment⟩,
        .inr (.inl ⟨rfl, rfl, by simp⟩)⟩

theorem Loaded.ends {k : ℕ} {l : Loader} (hlow : 6 ≤ sectors) (hhigh : sectors ≤ 63)
    (hanswers : ∀ n, ∃ d, answers (n + d) = .read) (h : Loaded floppy sectors k l)
    (hat : At sectors k l) (d : ℕ)
    (hread : answers (l.calls + d) = .read) : ∃ n, ((Boot.step floppy answers sectors)^[n] l).pc = .ret := by
  obtain ⟨n, hn, hatn, hless | ⟨hsame, hcalls, hfailed⟩ | hret⟩ := h.step answers hat hlow hhigh
  · obtain ⟨e, he⟩ := hanswers (Boot.step floppy answers sectors l).calls
    obtain ⟨i, hi⟩ := hn.ends hlow hhigh hanswers hatn e he
    exact ⟨i + 1, hi⟩
  · cases hd : d with
    | zero =>
      subst hd
      exact absurd hread hfailed
    | succ e =>
      subst hd
      obtain ⟨i, hi⟩ := hn.ends hlow hhigh hanswers hatn e
        (by rw [hcalls, Nat.add_assoc, Nat.add_comm 1]; exact hread)
      exact ⟨i + 1, hi⟩
  · exact ⟨0, hret⟩
termination_by (rank k l, d)
decreasing_by
  · exact Prod.Lex.left _ _ hless
  · rw [hsame]
    exact Prod.Lex.right _ (by omega)

/-- The loader after `n` steps. -/
def after (floppy : Floppy) (answers : ℕ → Answer) (sectors n : ℕ) (l : Loader) : Loader :=
  (step floppy answers sectors)^[n] l

theorem Loaded.after (h : Loaded floppy sectors k l) (answers : ℕ → Answer) (hat : At sectors k l)
    (hlow : 6 ≤ sectors)
    (hhigh : sectors ≤ 63) (n : ℕ) :
    ∃ k, Loaded floppy sectors k (after floppy answers sectors n l) ∧
    At sectors k (after floppy answers sectors n l) := by
  induction n generalizing k l with
  | zero => exact ⟨k, h, hat⟩
  | succ n ih =>
    obtain ⟨m, hm, hatm, -⟩ := h.step answers hat hlow hhigh
    exact ih hm hatm

/-- From the first step on. -/
theorem loaded_start (floppy : Floppy) (answers : ℕ → Answer) (hlow : 6 ≤ sectors) (bx : ℕ)
    (memory : ℕ → BitVec 8) :
    Loaded floppy sectors 0 (step floppy answers sectors (start bx memory)) ∧
      At sectors 0 (step floppy answers sectors (start bx memory)) := by
  have hstep : step floppy answers sectors (start bx memory) = ⟨.rp_read, SYSSEG, 0, 5, 0, 0, 0, memory⟩ := by
    simp [step, start, SYSSEG, SETUPLEN]
  rw [hstep]
  exact ⟨loaded (by omega) rfl rfl (by omega) (by omega) (by omega) (by omega), trivial⟩

/-- `read_it` ends, every read it asks for fits, and in the end the system lies in memory sector by sector. -/
theorem read_it_loads_system (hlow : 6 ≤ sectors) (hhigh : sectors ≤ 63)
    (hanswers : ∀ n, ∃ d, answers (n + d) = .read)
    (bx : ℕ) (memory : ℕ → BitVec 8) :
    (∃ n, (after floppy answers sectors n (start bx memory)).pc = .ret) ∧
      ∀ n, (∀ ax, (after floppy answers sectors n (start bx memory)).pc = .read_track ax →
          Fits sectors ax (after floppy answers sectors n (start bx memory))) ∧
        ((after floppy answers sectors n (start bx memory)).pc = .ret → ∀ a, 0x10000 ≤ a → a < ENDSEG * 16 →
          (after floppy answers sectors n (start bx memory)).memory a =
            sector floppy sectors (1 + SETUPLEN + (a - 0x10000) / 512) ((a - 0x10000) % 512)) := by
  obtain ⟨hloaded, hat⟩ := loaded_start floppy answers hlow bx memory
  constructor
  · obtain ⟨d, hd⟩ := hanswers (step floppy answers sectors (start bx memory)).calls
    obtain ⟨n, hn⟩ := hloaded.ends hlow hhigh hanswers hat d hd
    exact ⟨n + 1, hn⟩
  · intro n
    cases n with
    | zero => exact ⟨fun ax hpc => by simp [after, start] at hpc, fun hpc => by simp [after, start] at hpc⟩
    | succ n =>
      obtain ⟨k, hk, hatk⟩ := hloaded.after answers hat hlow hhigh n
      rw [show after floppy answers sectors (n + 1) (start bx memory) =
        after floppy answers sectors n (step floppy answers sectors (start bx memory)) from rfl]
      rw [At] at hatk
      constructor
      · intro ax hpc
        rw [hpc] at hatk
        obtain ⟨-, hasks, htrack, hsegment⟩ := hatk
        have hes := hk.es
        exact ⟨hasks, htrack, by omega⟩
      · intro hpc a hlast hend
        rw [hpc] at hatk
        obtain ⟨b, rfl⟩ := Nat.exists_eq_add_of_le hlast
        rw [Nat.add_sub_cancel_left]
        exact hk.memory b (by simp only [ENDSEG, SYSSEG, SYSSIZE] at hend; omega)

/-- Each byte is the sum of its place. -/
def placeFloppy : Floppy := fun c h s b => BitVec.ofNat 8 (c + h + s + b)

/-- Every second read fails. -/
def everySecond (n : ℕ) : Answer := if n % 2 = 0 then .failed fun _ => 0xff else .read

theorem everySecond_reads (n : ℕ) : ∃ d, everySecond (n + d) = .read := by
  refine ⟨1 - n % 2, ?_⟩
  rw [everySecond, if_neg (by omega)]

theorem read_it_loads_system_18 : ∃ n, (after placeFloppy everySecond 18 n (start 0 fun _ => 0)).pc = .ret ∧
    ∀ a, 0x10000 ≤ a → a < ENDSEG * 16 → (after placeFloppy everySecond 18 n (start 0 fun _ => 0)).memory a =
      sector placeFloppy 18 (1 + SETUPLEN + (a - 0x10000) / 512) ((a - 0x10000) % 512) := by
  have hload : (∃ n, (after placeFloppy everySecond 18 n (start 0 fun _ => 0)).pc = .ret) ∧ _ :=
    read_it_loads_system (by decide) (by decide) everySecond_reads 0 fun _ => 0
  obtain ⟨⟨n, hn⟩, hall⟩ := hload
  exact ⟨n, hn, (hall n).2 hn⟩

/-! ### `do_move` -/

/-- After `k` words of `rep movsw`, upwards from `si` and `di` equal to 0; there are at most 0x8000. -/
def movsw (ds es : ℕ) : ℕ → (ℕ → BitVec 8) → ℕ → BitVec 8
  | 0, m => m
  | k + 1, m => fun p =>
    if es * 16 + 2 * k ≤ p ∧ p < es * 16 + 2 * k + 2 then movsw ds es k m (p - es * 16 + ds * 16)
      else movsw ds es k m p

/-- There is no result if the loop has not ended after so many rounds. -/
def do_move : ℕ → ℕ → (ℕ → BitVec 8) → Option (ℕ → BitVec 8)
  | 0, _, _ => none
  | n + 1, ax, m =>
    let es := ax
    let ax := (ax + 0x1000) % 65536
    if ax = 0x9000 then some m else do_move n ax (movsw ax es 0x8000 m)

theorem movsw_eq {es : ℕ} (hk : k ≤ 0x8000) (m : ℕ → BitVec 8) : movsw (es + 0x1000) es k m =
    fun p => if es * 16 ≤ p ∧ p < es * 16 + 2 * k then m (p + 0x10000) else m p := by
  induction k with
  | zero =>
    funext p
    rw [movsw, if_neg (by omega)]
  | succ k ih =>
    funext p
    rw [movsw, ih (by omega)]
    dsimp only
    by_cases hp : es * 16 + 2 * k ≤ p ∧ p < es * 16 + 2 * k + 2
    · -- a word that is read has not been written yet
      have hfrom : p - es * 16 + (es + 0x1000) * 16 = p + 0x10000 := by omega
      rw [if_pos hp, if_neg (by omega), if_pos (by omega), hfrom]
    · by_cases hbefore : es * 16 ≤ p ∧ p < es * 16 + 2 * k
      · rw [if_neg hp, if_pos hbefore, if_pos (by omega)]
      · rw [if_neg hp, if_neg hbefore, if_neg (by omega)]

/-- The last `k` rounds. -/
theorem do_move_eq {k n : ℕ} (hk : k ≤ 8) (hn : k < n) (m : ℕ → BitVec 8) :
    do_move n (0x1000 * (8 - k)) m = some fun p => if 0x10000 * (8 - k) ≤ p ∧ p < 0x80000
    then m (p + 0x10000) else m p := by
  induction k generalizing n m with
  | zero =>
    obtain ⟨n, rfl⟩ := Nat.exists_eq_succ_of_ne_zero (Nat.ne_zero_of_lt hn)
    rw [do_move, if_pos (by omega)]
    refine congrArg some (funext fun p => ?_)
    rw [if_neg (by omega)]
  | succ k ih =>
    obtain ⟨n, rfl⟩ := Nat.exists_eq_succ_of_ne_zero (Nat.ne_zero_of_lt hn)
    have hax : (0x1000 * (8 - (k + 1)) + 0x1000) % 65536 = 0x1000 * (8 - (k + 1)) + 0x1000 := by omega
    have hnext : 0x1000 * (8 - (k + 1)) + 0x1000 = 0x1000 * (8 - k) := by omega
    rw [do_move, hax, if_neg (by omega), movsw_eq (Nat.le_refl _), hnext, ih (by omega) (by omega)]
    refine congrArg some (funext fun p => ?_)
    by_cases hp : 0x10000 * (8 - k) ≤ p ∧ p < 0x80000
    · rw [if_pos hp, if_neg (by omega), if_pos (by omega)]
    · rw [if_neg hp]
      by_cases hnow : 0x10000 * (8 - (k + 1)) ≤ p ∧ p < 0x80000
      · rw [if_pos hnow, if_pos (by omega)]
      · rw [if_neg hnow, if_neg (by omega)]

/-- **The system comes to address 0**, whatever reads have failed, if nothing has been written over it. -/
theorem system_moves_to_zero (hlow : 6 ≤ sectors) (hhigh : sectors ≤ 63)
    (hanswers : ∀ n, ∃ d, answers (n + d) = .read)
    (bx : ℕ) (memory : ℕ → BitVec 8) : ∃ n, let l := after floppy answers sectors n (start bx memory)
      l.pc = .ret ∧ ∀ m : ℕ → BitVec 8, (∀ a, 0x10000 ≤ a → a < ENDSEG * 16 → m a = l.memory a) →
        ∃ m', do_move 9 0 m = some m' ∧ (∀ a ≥ 0x80000, m' a = m a) ∧
          ∀ a < SYSSIZE * 16, m' a = sector floppy sectors (1 + SETUPLEN + a / 512) (a % 512) := by
  obtain ⟨hloaded, hat⟩ := loaded_start floppy answers hlow bx memory
  obtain ⟨d, hd⟩ := hanswers (step floppy answers sectors (start bx memory)).calls
  obtain ⟨n, hn⟩ := hloaded.ends hlow hhigh hanswers hat d hd
  obtain ⟨k, hk, hatk⟩ := hloaded.after answers hat hlow hhigh n
  refine ⟨n + 1, hn, fun m hm =>
    ⟨_, do_move_eq (k := 8) (Nat.le_refl 8) (Nat.lt_succ_self 8) m, fun a ha => ?_, fun a ha => ?_⟩⟩
  · rw [if_neg (by omega)]
  · have hall : k = 384 := by
      rw [At, show (after floppy answers sectors n (step floppy answers sectors (start bx memory))).pc =
        .ret from hn] at hatk
      exact hatk
    simp only [SYSSIZE] at ha
    rw [if_pos (by omega), hm _ (by omega) (by simp only [ENDSEG, SYSSEG, SYSSIZE]; omega), Nat.add_comm a]
    exact hk.memory a (by omega)

theorem system_moves_to_zero_18 : ∃ n m', (after placeFloppy everySecond 18 n (start 0 fun _ => 0)).pc = .ret ∧
    do_move 9 0 (after placeFloppy everySecond 18 n (start 0 fun _ => 0)).memory = some m' ∧
    ∀ a < SYSSIZE * 16, m' a = sector placeFloppy 18 (1 + SETUPLEN + a / 512) (a % 512) := by
  obtain ⟨n, hn, hmove⟩ := @system_moves_to_zero placeFloppy everySecond 18 (by decide)
    (by decide) everySecond_reads 0
    fun _ => 0
  obtain ⟨m', hm', -, hsectors⟩ := hmove _ fun _ _ _ => rfl
  exact ⟨n, m', hn, hm', hsectors⟩

end OldLinux.Boot
