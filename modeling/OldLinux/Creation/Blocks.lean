import OldLinux.Creation.Machine
import OldLinux.Lib.BlockTree

/-!
# Trees of blocks

The blocks of files and directories are trees, and no block has two places.  `new_block` gives a block
that is in no tree, and entering it in a place that is empty changes that place alone: whatever an entry
was read from before is still there.
-/

namespace OldLinux.Creation

open Function Lib Lib.BlockTree

variable {T : ℕ → Prop} {fs fs' fs'' : Fs} {d nr k i z y : ℕ} {m : List ℕ}

/-! ### The trees -/

/-- The block at a place, 0 if there is none. -/
def Fs.block (fs : Fs) (nr : ℕ) (p : Place) : ℕ := follow fs.b_data ((fs.inode nr).i_zone p.1) p.2

theorem block_nil (fs : Fs) (nr k : ℕ) : fs.block nr (k, []) = (fs.inode nr).i_zone k := rfl

theorem block_concat (fs : Fs) (nr k : ℕ) (m : List ℕ) (i : ℕ) : fs.block nr (k, m ++ [i]) =
    if fs.block nr (k, m) = 0 then 0 else fs.b_data (fs.block nr (k, m)) i :=
  follow_concat _ _ _ _

/-! ### Sound file systems -/

/-- The bit of a block. -/
def Fs.used (fs : Fs) (z : ℕ) : Bool := fs.zmap (z - (fs.sb.s_firstdatazone - 1))

/-- A block of the data zone. -/
def Fs.InZone (fs : Fs) (z : ℕ) : Prop := fs.sb.s_firstdatazone ≤ z ∧ z < fs.sb.s_nzones

/-- `T` are the files and directories.  Their blocks have their bits set, and each has one place; and the
buffer of a free block is not in use. -/
structure Sound (T : ℕ → Prop) (fs : Fs) : Prop where
  first : 1 ≤ fs.sb.s_firstdatazone
  nzones : fs.sb.s_nzones ≤ 65535
  reserved : fs.zmap 0 = true
  inside : ∀ nr p, T nr → p.Valid → fs.block nr p ≠ 0 → fs.InZone (fs.block nr p) ∧
    fs.used (fs.block nr p) = true
  unique : ∀ nr p nr' p', T nr → T nr' → p.Valid → p'.Valid → fs.block nr p ≠ 0 →
    fs.block nr p = fs.block nr' p' → nr = nr' ∧ p = p'
  idle : ∀ z, fs.InZone z → fs.used z = false → fs.b_count z = 0

/-- What has changed in the trees: the one of `d` may have got new blocks. -/
structure Grows (T : ℕ → Prop) (d : ℕ) (fs fs' : Fs) : Prop where
  sb : fs'.sb = fs.sb
  block : ∀ nr p, T nr → p.Valid → fs'.block nr p = fs.block nr p ∨ nr = d ∧ fs.block nr p = 0
  data : ∀ nr p, T nr → p.Valid → p.Full → fs.block nr p ≠ 0 →
    fs'.b_data (fs.block nr p) = fs.b_data (fs.block nr p)
  fresh : ∀ nr p, T nr → p.Valid → p.Full → fs.block nr p = 0 → fs'.block nr p ≠ 0 →
    fs'.b_data (fs'.block nr p) = fun _ => 0
  used : ∀ z, fs.InZone z → fs'.used z = fs.used z ∨ fs.used z = false ∧ ∃ p : Place,
    p.Valid ∧ fs'.block d p = z

theorem Grows.refl (T : ℕ → Prop) (d : ℕ) (fs : Fs) : Grows T d fs fs where
  sb := rfl
  block := fun _ _ _ _ => .inl rfl
  data := fun _ _ _ _ _ _ => rfl
  fresh := fun _ _ _ _ _ h h' => absurd h h'
  used := fun _ _ => .inl rfl

theorem Grows.in_zone (G : Grows T d fs fs') : fs'.InZone z ↔ fs.InZone z := by
  rw [Fs.InZone, Fs.InZone, G.sb]

/-- A block stays in its place. -/
theorem Grows.keep (G : Grows T d fs fs') {p : Place} (hT : T nr) (hp : p.Valid)
    (h : fs.block nr p ≠ 0) : fs'.block nr p = fs.block nr p :=
  (G.block nr p hT hp).resolve_right fun h' => h h'.2

theorem Grows.trans (hd : T d) (hfirst : 1 ≤ fs.sb.s_firstdatazone) (G : Grows T d fs fs')
    (G' : Grows T d fs' fs'') : Grows T d fs fs'' where
  sb := G'.sb.trans G.sb
  block := by
    intro nr p hT hp
    rcases G.block nr p hT hp with h | h
    · rw [← h]
      exact G'.block nr p hT hp
    · exact .inr h
  data := by
    intro nr p hT hp hfull h
    have hkeep := G.keep hT hp h
    have hdata := G'.data nr p hT hp hfull (by rwa [hkeep])
    rw [hkeep] at hdata
    exact hdata.trans (G.data nr p hT hp hfull h)
  fresh := by
    intro nr p hT hp hfull h h''
    by_cases hmid : fs'.block nr p = 0
    · exact G'.fresh nr p hT hp hfull hmid h''
    · rw [G'.keep hT hp hmid, G'.data nr p hT hp hfull hmid]
      exact G.fresh nr p hT hp hfull h hmid
  used := by
    intro z hz
    have hzero : z ≠ 0 := by
      have hge := hz.1
      omega
    rcases G'.used z (G.in_zone.2 hz) with h' | ⟨h', p, hp, hpz⟩
    · rcases G.used z hz with h | ⟨h, p, hp, hpz⟩
      · exact .inl (h'.trans h)
      · refine .inr ⟨h, p, hp, ?_⟩
        rw [G'.keep hd hp (by rwa [hpz]), hpz]
    · rcases G.used z hz with h | ⟨h, -⟩
      · exact .inr ⟨h ▸ h', p, hp, hpz⟩
      · exact .inr ⟨h, p, hp, hpz⟩

/-! ### What leaves the trees alone -/

/-- The trees are the same. -/
structure SameTrees (T : ℕ → Prop) (fs fs' : Fs) : Prop where
  sb : fs'.sb = fs.sb
  zone : ∀ nr, T nr → (fs'.inode nr).i_zone = (fs.inode nr).i_zone
  data : ∀ nr p, T nr → p.Valid → fs.block nr p ≠ 0 → fs'.b_data (fs.block nr p) = fs.b_data (fs.block nr p)

theorem SameTrees.block (h : SameTrees T fs fs') (hT : T nr) {p : Place} (hp : p.Valid) :
    fs'.block nr p = fs.block nr p :=
  tree_at_congr (fun k => congrFun (h.zone nr hT) k) (fun q hq hne => h.data nr q hT hq hne) hp

theorem SameTrees.grows (h : SameTrees T fs fs') (hused : ∀ z, fs.InZone z → fs'.used z = fs.used z) :
    Grows T d fs fs' where
  sb := h.sb
  block := fun nr p hT hp => .inl (h.block hT hp)
  data := fun nr p hT hp _ hne => h.data nr p hT hp hne
  fresh := fun nr p hT hp _ h1 h2 => by
    rw [h.block hT hp] at h2
    exact absurd h1 h2
  used := fun z hz => .inl (hused z hz)

theorem SameTrees.sound (h : SameTrees T fs fs') (S : Sound T fs) (hreserved : fs'.zmap 0 = true)
    (hused : ∀ z, fs.InZone z → fs.used z = true → fs'.used z = true)
    (hidle : ∀ z, fs.InZone z → fs'.used z = false → fs'.b_count z = 0) : Sound T fs' := by
  have hzone : ∀ z, fs'.InZone z ↔ fs.InZone z := fun z => by rw [Fs.InZone, Fs.InZone, h.sb]
  refine ⟨h.sb ▸ S.first, h.sb ▸ S.nzones, hreserved, fun nr p hT hp hne => ?_,
    fun nr p nr' p' hT hT' hp hp' hne heq => ?_, fun z hz => hidle z ((hzone z).1 hz)⟩
  · rw [h.block hT hp] at hne ⊢
    obtain ⟨h1, h2⟩ := S.inside nr p hT hp hne
    exact ⟨(hzone _).2 h1, hused _ h1 h2⟩
  · rw [h.block hT hp] at hne heq
    rw [h.block hT' hp'] at heq
    exact S.unique nr p nr' p' hT hT' hp hp' hne heq

/-! ### A new block -/

/-- The state after `new_block`. -/
def Fs.alloc (fs : Fs) (z : ℕ) : Fs :=
  { fs with
    zmap := update fs.zmap (z - (fs.sb.s_firstdatazone - 1)) true
    b_data := update fs.b_data z fun _ => 0 }

theorem alloc_used (hz : fs.InZone z) (hy : fs.InZone y) :
    (fs.alloc z).used y = if y = z then true else fs.used y := by
  show update fs.zmap (z - (fs.sb.s_firstdatazone - 1)) true (y - (fs.sb.s_firstdatazone - 1)) = _
  have h1 := hz.1
  have h2 := hy.1
  split_ifs with heq
  · rw [heq, update_self]
  · rw [update_of_ne (by omega)]
    rfl

theorem find_first_zero_eq (map : ℕ → Bool) (n j : ℕ) :
    find_first_zero map n j = (List.range' j n).find? fun i => !map i := by
  induction n generalizing j with
  | zero => rfl
  | succ n ih =>
    rw [find_first_zero, List.range'_succ, List.find?_cons]
    cases hj : map j with
    | false => rfl
    | true => exact ih (j + 1)

theorem wp_new_block {Q : ℕ → Fs → Prop} {E : Trap → Fs → Prop} (S : Sound T fs)
      (hnone : ∀ zmap, zmap 0 = true →
      (∀ z, fs.InZone z → ({ fs with zmap := zmap } : Fs).used z = fs.used z) →
      Q 0 { fs with zmap := zmap })
    (hsome : ∀ z, fs.InZone z → fs.used z = false → Q z (fs.alloc z)) : wp new_block Q E fs := by
  have hfirst := S.first
  rw [new_block, wp_bind, wp_get]
  split
  · rw [wp_pure]
    exact hnone fs.zmap S.reserved fun _ _ => rfl
  · rename_i j hj
    have hzero : fs.zmap j = false := by
      rw [find_first_zero_eq] at hj
      simpa using List.find?_some hj
    have hpos : j ≠ 0 := by
      rintro rfl
      rw [S.reserved] at hzero
      cases hzero
    have hindex : j + fs.sb.s_firstdatazone - 1 - (fs.sb.s_firstdatazone - 1) = j := by omega
    rw [wp_bind, wp_modify]
    dsimp only
    rw [wp_ite]
    refine ⟨fun hout => ?_, fun hin => ?_⟩
    · rw [wp_pure]
      refine hnone _ ?_ fun z hz => ?_
      · rw [update_of_ne (Ne.symm hpos), S.reserved]
      · have hlt := hz.2
        show update fs.zmap j true (z - (fs.sb.s_firstdatazone - 1)) = _
        rw [update_of_ne (by omega)]
        rfl
    · have hzone : fs.InZone (j + fs.sb.s_firstdatazone - 1) := ⟨by omega, by omega⟩
      have hunused : fs.used (j + fs.sb.s_firstdatazone - 1) = false := by
        rw [Fs.used, hindex, hzero]
      rw [wp_ite]
      refine ⟨fun hne => absurd (S.idle _ hzone hunused) fun h => hne (by rw [h]), fun _ => ?_⟩
      rw [wp_bind, wp_modify, wp_pure]
      have hstate := hsome _ hzone hunused
      rw [Fs.alloc, hindex] at hstate
      exact hstate

/-- A new block in a place that was empty. -/
structure Attached (T : ℕ → Prop) (d : ℕ) (P : Place) (z : ℕ) (fs fs' : Fs) : Prop where
  sb : fs'.sb = fs.sb
  zmap : fs'.zmap = (fs.alloc z).zmap
  b_count : fs'.b_count = fs.b_count
  block : ∀ nr p, T nr → p.Valid → fs'.block nr p = if nr = d ∧ p = P then z else fs.block nr p
  data : ∀ nr p, T nr → p.Valid → p.Full → fs.block nr p ≠ 0 →
    fs'.b_data (fs.block nr p) = fs.b_data (fs.block nr p)
  clear : fs'.b_data z = fun _ => 0

section Attached

variable {P : Place} (hd : T d) (S : Sound T fs) (hP : P.Valid) (hz : fs.InZone z) (hunused : fs.used z = false)

include S hunused in
/-- A block of a tree is not new. -/
theorem Sound.ne_new {p : Place} (hT : T nr) (hp : p.Valid) (h : fs.block nr p ≠ 0) : fs.block nr p ≠ z := by
  rintro rfl
  rw [(S.inside nr p hT hp h).2] at hunused
  cases hunused

theorem Attached.used (A : Attached T d P z fs fs') (hz : fs.InZone z) (hy : fs.InZone y) :
    fs'.used y = if y = z then true else fs.used y := by
  rw [← alloc_used hz hy, Fs.used, Fs.used, A.zmap, A.sb]
  rfl

include S hz hunused in
theorem Attached.sound (A : Attached T d P z fs fs') : Sound T fs' := by
  have hzone : ∀ y, fs'.InZone y ↔ fs.InZone y := fun y => by rw [Fs.InZone, Fs.InZone, A.sb]
  have hfirst := S.first
  have hge := hz.1
  refine ⟨A.sb ▸ S.first, A.sb ▸ S.nzones, ?_, fun nr p hT hp hne => ?_,
    fun nr p nr' p' hT hT' hp hp' hne heq => ?_, fun y hy hfree => ?_⟩
  · rw [A.zmap]
    show update fs.zmap _ true 0 = true
    rw [update_of_ne (by omega), S.reserved]
  · rw [A.block nr p hT hp] at hne ⊢
    split_ifs at hne ⊢
    · exact ⟨(hzone z).2 hz, by rw [A.used hz hz, if_pos rfl]⟩
    · obtain ⟨h1, h2⟩ := S.inside nr p hT hp hne
      refine ⟨(hzone _).2 h1, ?_⟩
      rw [A.used hz h1, h2, ite_self]
  · rw [A.block nr p hT hp] at hne heq
    rw [A.block nr' p' hT' hp'] at heq
    split_ifs at hne heq with h1 h2 h2
    · exact ⟨h1.1.trans h2.1.symm, h1.2.trans h2.2.symm⟩
    · refine absurd heq.symm (S.ne_new hunused hT' hp' ?_)
      rwa [← heq]
    · exact absurd heq (S.ne_new hunused hT hp hne)
    · exact S.unique nr p nr' p' hT hT' hp hp' hne heq
  · have hy' := (hzone y).1 hy
    rw [A.used hz hy'] at hfree
    rw [A.b_count]
    split_ifs at hfree
    exact S.idle y hy' hfree

include hd hP hz hunused in
theorem Attached.grows (A : Attached T d P z fs fs') (hempty : fs.block d P = 0) : Grows T d fs fs' where
  sb := A.sb
  block := by
    intro nr p hT hp
    rw [A.block nr p hT hp]
    split_ifs with h
    · exact .inr ⟨h.1, by rw [h.1, h.2, hempty]⟩
    · exact .inl rfl
  data := A.data
  fresh := by
    intro nr p hT hp _ h h'
    rw [A.block nr p hT hp] at h' ⊢
    split_ifs at h' ⊢
    · exact A.clear
    · exact absurd h h'
  used := by
    intro y hy
    rw [A.used hz hy]
    split_ifs with heq
    · refine .inr ⟨heq ▸ hunused, P, hP, ?_⟩
      rw [A.block d P hd hP, if_pos ⟨rfl, rfl⟩, heq]
    · exact .inl rfl

end Attached

end OldLinux.Creation
