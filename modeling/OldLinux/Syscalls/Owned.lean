import OldLinux.Syscalls.Calls

/-!
# References in hand

`Owned R held` says that each `i_count` is the number of references from elsewhere, `R`, and of those that
the call has in hand.  Each function of `fs/inode.cc` and `fs/namei.cc` has one specification: which
references it takes and which it leaves in the hands of its caller, at every exit, and what holds when the
process is killed in it.
-/

namespace OldLinux.Syscalls

open Function Lib

variable {D : Store → Prop} {R : Fin 32 → ℕ} {held rest : List (Fin 32)} {v : View} {s : Store} {i j : Fin 32}

def Owned (R : Fin 32 → ℕ) (held : List (Fin 32)) (s : Store) : Prop :=
  ∀ i, (s.inode i).count = R i + held.count i

theorem Owned.perm (h : Owned R held s) (hp : held.Perm rest) : Owned R rest s := by
  intro i
  rw [h i, hp.count_eq]

/-- An inode is changed, but not its count. -/
theorem Owned.setInode (h : Owned R held s) {t : Inode} (ht : t.count = (s.inode i).count) :
    Owned R held (s.setInode i t) := by
  intro j
  rw [← h j]
  show (update s.inode i t j).count = _
  rw [update_apply]
  split
  · rename_i hj
    rw [hj, ht]
  · rfl

/-- The count of one inode goes along with what is in hand. -/
theorem Owned.move (h : Owned R held s) {t : Inode} (hi : t.count = R i + rest.count i)
    (hrest : ∀ j, j ≠ i → rest.count j = held.count j) : Owned R rest (s.setInode i t) := by
  intro j
  show (update s.inode i t j).count = _
  rw [update_apply]
  split
  · rename_i hj
    rw [hj, hi]
  · rename_i hj
    rw [h j, hrest j hj]

theorem Owned.up (h : Owned R held s) :
    Owned R (i :: held) (s.setInode i { s.inode i with count := (s.inode i).count + 1 }) := by
  refine h.move ?_ ?_
  · rw [List.count_cons_self]
    show (s.inode i).count + 1 = _
    rw [h i]
    omega
  · intro j hj
    exact List.count_cons_of_ne (Ne.symm hj)

theorem Owned.down (h : Owned R (i :: held) s) {t : Inode} (ht : t.count + 1 = (s.inode i).count) :
    Owned R held (s.setInode i t) := by
  refine h.move ?_ ?_
  · have hi := h i
    rw [List.count_cons_self] at hi
    omega
  · intro j hj
    exact (List.count_cons_of_ne (Ne.symm hj)).symm

theorem Owned.count_pos (h : Owned R (i :: held) s) : 0 < (s.inode i).count := by
  rw [h i, List.count_cons_self]
  omega

/-- What holds if this is how the process is killed. -/
def Stop.IfKilled (p : Prop) : Stop → Prop
  | .killed => p
  | _ => True

/-- A command that comes with these references in hand and leaves those, and is killed only where `D`
holds. -/
def Gives {α : Type} (D : Store → Prop) (R : Fin 32 → ℕ) (held : List (Fin 32)) (c : Fs α)
    (post : α → List (Fin 32)) : Prop :=
  TripleOr (fun e s => e.IfKilled (D s)) (Owned R held) c fun a => Owned R (post a)

section Gives

variable {α β : Type} {c d : Fs α} {post : α → List (Fin 32)}

theorem Gives.bind {f : α → Fs β} {mid : α → List (Fin 32)} {last : β → List (Fin 32)}
    (hc : Gives D R held c mid) (hf : ∀ a, Gives D R (mid a) (f a) last) : Gives D R held (c >>= f) last :=
  TripleOr.bind hc hf

theorem Gives.pure {a : α} (h : held = post a) : Gives D R held (pure a) post :=
  TripleOr.pure fun _ hs => h ▸ hs

theorem Gives.panic : Gives D R held (throw .panic) post := fun _ _ => trivial

theorem Gives.hang : Gives D R held (throw .hang) post := fun _ _ => trivial

theorem Gives.ite {p : Prop} [Decidable p] (hc : p → Gives D R held c post)
    (hd : ¬p → Gives D R held d post) : Gives D R held (if p then c else d) post := TripleOr.ite hc hd

theorem Gives.look {g : Store → Fs α} (h : ∀ s, Gives D R held (g s) post) :
    Gives D R held (get >>= g) post := TripleOr.look h

theorem Gives.perm (h : Gives D R rest c post) (hp : held.Perm rest) : Gives D R held c post :=
  TripleOr.pre h fun _ hs => hs.perm hp

end Gives

/-! ### `fs/inode.cc` -/

theorem wp_setInode (t : Inode) (Q : PUnit → Store → Prop) (E : Stop → Store → Prop) :
    wp (setInode i t) Q E s ↔ Q ⟨⟩ (s.setInode i t) := Iff.rfl

theorem ask_gives : Gives D R held (ask v) fun _ => held := by
  intro s hs
  exact hs

/-- In the view of the call, user memory can be accessed whenever something is in hand. -/
def View.Safe (v : View) : Prop := ∀ n, (v.answers n).fault = false

theorem access_gives (hv : v.Safe) : Gives D R held (access v) fun _ => held := by
  intro s hs
  show wp (if (v.answers s.asked).fault = true then _ else _) _ _ _
  rw [hv s.asked, wp_ite]
  exact ⟨fun h => (by cases h), fun _ => hs⟩

theorem touch_gives (hD : ∀ s, Owned R held s → D s) : Gives D R held (touch v) fun _ => held := by
  intro s hs
  show wp (if (v.answers s.asked).ok = true then _ else _) _ _ _
  rw [wp_ite]
  exact ⟨fun _ => hs, fun _ => hD _ hs⟩

theorem accessIf_gives (hv : v.Safe) (given : Bool) : Gives D R held (accessIf v given) fun _ => held :=
  Gives.ite (fun _ => access_gives hv) fun _ => Gives.pure rfl

theorem readName_gives (hv : v.Safe) : Gives D R held (readName v) fun _ => held := accessIf_gives hv _

/-- A call that begins with a name may be killed there. -/
def Begins (D : Store → Prop) (R : Fin 32 → ℕ) (held : List (Fin 32)) (v : View) : Prop :=
  v.names = .user → ∀ s, Owned R held s → D s

theorem firstChar_gives (hv : v.Safe) (hD : Begins D R held v) :
    Gives D R held (firstChar v) fun _ => held := by
  rw [firstChar]
  cases hn : v.names with
  | user => exact touch_gives (hD hn)
  | held => exact access_gives hv
  | kernel => exact Gives.pure rfl

/-- An inode is changed as it is now, but not its count. -/
theorem set_gives {f : Inode → Inode} (hf : ∀ t, (f t).count = t.count) :
    Gives D R held (get >>= fun s => setInode i (f (s.inode i))) fun _ => held :=
  TripleOr.now fun _ hs => hs.setInode (hf _)

/-- An inode is changed, but not its count, and the call goes on. -/
theorem set_then {α : Type} {c : Fs α} {post : α → List (Fin 32)} (hs : Owned R held s) {t : Inode}
    (ht : t.count = (s.inode i).count) (hc : Gives D R held c post) :
    wp (setInode i t >>= fun _ => c) (fun a => Owned R (post a)) (fun e s => e.IfKilled (D s)) s := by
  rw [wp_bind, wp_setInode]
  exact hc _ (hs.setInode ht)

theorem up_gives : Gives D R held (up i) fun _ => i :: held := TripleOr.now fun _ hs => hs.up

theorem down_gives : Gives D R (i :: held) (down i) fun _ => held := by
  refine TripleOr.now fun s hs => hs.down ?_
  have hpos := hs.count_pos
  show (s.inode i).count - 1 + 1 = _
  omega

theorem readInode_gives : Gives D R held (readInode v i) fun _ => held := by
  refine TripleOr.now fun s hs => ?_
  cases v.getSuper (s.inode i).dev with
  | none => trivial
  | some sb =>
    show wp (if (v.answers s.asked).ok then _ else _) _ _ _
    rw [wp_ite]
    refine ⟨fun _ => ?_, fun _ => trivial⟩
    exact Owned.setInode (s := { s with asked := s.asked + 1 }) hs rfl

theorem writeInode_gives : Gives D R held (writeInode v i) fun _ => held := by
  refine TripleOr.now fun s hs => ?_
  rw [wp_ite]
  refine ⟨fun _ => hs, fun _ => ?_⟩
  cases v.getSuper (s.inode i).dev with
  | none => trivial
  | some sb =>
    show wp (if (v.answers s.asked).ok then _ else _) _ _ _
    rw [wp_ite]
    refine ⟨fun _ => ?_, fun _ => trivial⟩
    exact Owned.setInode (s := { s with asked := s.asked + 1 }) hs rfl

theorem syncDev_gives : Gives D R held (syncDev v) fun _ => held := by
  refine TripleOr.now fun s hs => ?_
  rw [wp_ite]
  exact ⟨fun _ => trivial, fun _ => hs⟩

theorem truncate_gives : Gives D R held (truncate v i) fun _ => held := by
  refine TripleOr.now fun s hs => ?_
  rw [wp_ite]
  refine ⟨fun _ => ?_, fun _ => hs⟩
  show wp (if (v.answers s.asked).ok then _ else _) _ _ _
  rw [wp_ite]
  refine ⟨fun _ => ?_, fun _ => trivial⟩
  exact Owned.setInode (s := { s with asked := s.asked + 1 }) hs rfl

/-- The inode is cleared with the last reference to it. -/
theorem freeInode_gives (hone : R i + (i :: held).count i = 1) :
    Gives D R (i :: held) (freeInode v i) fun _ => held := by
  have hzero : ∀ s, Owned R (i :: held) s → Owned R held (s.setInode i Inode.zero) := by
    intro s hs
    refine hs.down ?_
    rw [hs i, hone]
    rfl
  refine TripleOr.now fun s hs => ?_
  rw [wp_ite]
  refine ⟨fun _ => hzero s hs, fun _ => ?_⟩
  rw [wp_ite]
  refine ⟨fun _ => trivial, fun _ => ?_⟩
  rw [wp_ite]
  refine ⟨fun _ => trivial, fun _ => ?_⟩
  cases v.getSuper (s.inode i).dev with
  | none => trivial
  | some sb =>
    show wp (if (s.inode i).num < 1 ∨ (v.answers s.asked).ok = false then _ else _) _ _ _
    rw [wp_ite]
    exact ⟨fun _ => trivial, fun _ => hzero { s with asked := s.asked + 1 } hs⟩

theorem putRepeat_gives : Gives D R (i :: held) (putRepeat v i) fun _ => held := by
  refine TripleOr.now fun s hs => ?_
  rw [wp_ite]
  refine ⟨fun _ => down_gives s hs, fun hle => ?_⟩
  have hpos := hs.count_pos
  have hone : R i + (i :: held).count i = 1 := by
    rw [← hs i]
    omega
  rw [wp_ite]
  refine ⟨fun _ => ?_, fun _ => ?_⟩
  · exact truncate_gives.bind (fun _ => freeInode_gives hone) s hs
  · rw [wp_ite]
    refine ⟨fun _ => ?_, fun _ => down_gives s hs⟩
    exact writeInode_gives.bind (fun _ => down_gives) s hs

/-- **A reference is given back.** -/
theorem iput_gives : Gives D R (i :: held) (iput v i) fun _ => held := by
  refine TripleOr.now fun s hs => ?_
  simp only
  rw [wp_ite]
  refine ⟨fun _ => trivial, fun _ => ?_⟩
  rw [wp_ite]
  refine ⟨fun _ => ?_, fun _ => ?_⟩
  · rw [wp_ite]
    refine ⟨fun hone => ?_, fun _ => down_gives s hs⟩
    refine hs.down ?_
    rw [hone]
  · rw [wp_ite]
    refine ⟨fun _ => down_gives s hs, fun _ => ?_⟩
    rw [wp_ite]
    refine ⟨fun _ => ?_, fun _ => putRepeat_gives s hs⟩
    exact syncDev_gives.bind (fun _ => putRepeat_gives) s hs

theorem iput_of_perm (hp : held.Perm (i :: rest)) : Gives D R held (iput v i) fun _ => rest :=
  iput_gives.perm hp

theorem iputOpt_gives (i : Option (Fin 32)) : Gives D R (i.toList ++ held) (iputOpt v i) fun _ => held := by
  cases i with
  | none => exact Gives.pure rfl
  | some i => exact iput_gives

theorem pick_free {x : Fin 32 × Fin 32} (h : s.pick = some x) : (s.inode x.1).count = 0 := by
  rw [Store.pick] at h
  split at h
  · rename_i i hfind
    cases h
    have hi := List.find?_some hfind
    rw [Bool.and_eq_true, decide_eq_true_eq] at hi
    exact hi.1
  · obtain ⟨i, hlast, heq⟩ := Option.map_eq_some_iff.1 h
    cases heq
    have hmem := List.mem_of_getLast? hlast
    exact of_decide_eq_true (List.mem_filter.1 hmem).2

/-- The entry that is taken has no other reference. -/
theorem getEmptyInode_spec : TripleOr (fun e s => e.IfKilled (D s)) (Owned R held) (getEmptyInode v) fun i s =>
    Owned R (i :: held) s ∧ (s.inode i).count = 1 := by
  refine TripleOr.now fun s hs => ?_
  cases hpick : s.pick with
  | none => trivial
  | some x =>
    obtain ⟨i, last⟩ := x
    have hzero := hs i
    rw [show (s.inode i).count = 0 from pick_free hpick] at hzero
    show wp (if (s.inode i).dirt = true ∧ (s.inode i).dev = 0 then _ else _) _ _ _
    rw [wp_ite]
    refine ⟨fun _ => trivial, fun _ => ?_⟩
    refine TripleOr.bind writeInode_gives (fun _ => ?_) s hs
    intro s' hs'
    have hnew : Owned R (i :: held) (s'.setInode i { Inode.zero with count := 1 }) := by
      refine hs'.move ?_ ?_
      · rw [List.count_cons_self]
        show 1 = _
        omega
      · intro j hj
        exact List.count_cons_of_ne (Ne.symm hj)
    refine ⟨hnew, ?_⟩
    show (update s'.inode i _ i).count = 1
    rw [update_self]

theorem getEmptyInode_gives : Gives D R held (getEmptyInode v) fun i => i :: held :=
  TripleOr.post getEmptyInode_spec fun _ _ h => h.1

/-- A pipe has two references, for its two files. -/
theorem getPipeInode_gives : Gives D R held (getPipeInode v) fun i => i.toList ++ (i.toList ++ held) := by
  refine TripleOr.bind getEmptyInode_spec fun i => ?_
  refine TripleOr.bind (M := fun _ s => Owned R (i :: held) s ∧ (s.inode i).count = 1) ?_ fun a => ?_
  · intro s hs
    exact hs
  · refine TripleOr.now fun s hs => ?_
    obtain ⟨howned, hone⟩ := hs
    have hi := howned i
    rw [hone, List.count_cons_self] at hi
    rw [wp_ite]
    refine ⟨fun _ => ?_, fun _ => ?_⟩
    · refine Owned.move howned ?_ ?_
      · show 2 = R i + (i :: i :: held).count i
        rw [List.count_cons_self, List.count_cons_self]
        omega
      · intro j hj
        exact List.count_cons_of_ne (Ne.symm hj)
    · refine Owned.down howned ?_
      rw [hone]

/-- The search of `iget`: the empty entry is used or given back. -/
theorem igetLoop_gives (empty : Fin 32) (fuel : ℕ) : ∀ dev nr,
    Gives D R (empty :: held) (igetLoop v empty fuel dev nr) fun i => i :: held := by
  induction fuel with
  | zero => exact fun _ _ => Gives.hang
  | succ fuel ih =>
    intro dev nr
    refine TripleOr.now fun s hs => ?_
    cases s.lookup dev nr with
    | none =>
      have hnamed := hs.setInode (i := empty) (t := { s.inode empty with dev := dev, num := nr }) rfl
      exact readInode_gives.bind (fun _ => Gives.pure rfl) _ hnamed
    | some i =>
      have hfound : Gives D R (i :: empty :: held) (do
          iput v empty
          pure i) fun i => i :: held :=
        (iput_of_perm (List.Perm.swap _ _ _)).bind fun _ => Gives.pure rfl
      refine up_gives.bind (fun _ => Gives.ite (fun _ => ?_) fun _ => hfound) s hs
      cases v.mountedOn i with
      | none => exact (iput_of_perm (List.Perm.swap _ _ _)).bind fun _ => Gives.pure rfl
      | some sb => exact iput_gives.bind fun _ => ih _ _

theorem iget_gives (dev nr : ℕ) : Gives D R held (iget v dev nr) fun i => i :: held := by
  refine Gives.ite (fun _ => Gives.panic) fun _ => ?_
  exact getEmptyInode_gives.bind fun empty => igetLoop_gives empty 9 dev nr

theorem newInode_gives (dev : ℕ) : Gives D R held (newInode v dev) fun i => i.toList ++ held := by
  refine TripleOr.bind getEmptyInode_spec fun i => ?_
  cases v.getSuper dev with
  | none => exact TripleOr.throw fun _ _ => trivial
  | some sb =>
    refine TripleOr.bind (M := fun _ s => Owned R (i :: held) s ∧ (s.inode i).count = 1) ?_ fun a => ?_
    · intro s hs
      exact hs
    · cases a.number with
      | none => exact TripleOr.pre (iput_gives.bind fun _ => Gives.pure rfl) fun _ hs => hs.1
      | some nr =>
        refine TripleOr.now fun s hs => ?_
        obtain ⟨howned, hone⟩ := hs
        exact howned.setInode hone.symm

end OldLinux.Syscalls
