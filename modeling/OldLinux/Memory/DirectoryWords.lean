import OldLinux.Memory.Runs

/-!
# The words of the page directory

A word of the page directory is 0, or it points to a page table, which is not the directory itself.
Every function of the memory manager keeps this: it stores a page table or 0 into the directory, and
everything else it stores goes to other frames.  So a directory entry that is not present is 0.
-/

namespace OldLinux.Memory

open Lib

/-- What a word of the page directory can be. -/
def DirWord (e : Word) : Prop := e = 0 ∨ (present e ∧ frameOf e ≠ 0)

def Mm.Tidy (s : Mm) : Prop := ∀ d < 1024, DirWord (s.mem 0 d)

variable {s s' : Mm}

theorem DirWord.frame_ne {e : Word} (h : DirWord e) (hp : present e) : frameOf e ≠ 0 := by
  rcases h with h | h
  · rw [h] at hp
    exact absurd hp present_zero
  · exact h.2

theorem DirWord.eq_zero {e : Word} (h : DirWord e) (hp : ¬present e) : e = 0 :=
  h.resolve_right (fun h => hp h.1)

theorem dirWord_userEntry {f : ℕ} (h0 : f ≠ 0) (hf : f < 2 ^ 20) : DirWord (userEntry (f * 4096)) := by
  refine Or.inr ⟨present_userEntry _, ?_⟩
  rw [frameOf_userEntry_frame hf]
  exact h0

theorem Mm.Tidy.of_dir (h : s.Tidy) (hmem : s'.mem 0 = s.mem 0) : s'.Tidy := by
  intro d hd
  rw [hmem]
  exact h d hd

theorem Mm.Tidy.store (h : s.Tidy) {t : ℕ} (ht : t ≠ 0) (i : ℕ) (e : Word) :
    (s.store t i e).Tidy := h.of_dir (store_mem_of_ne s (Ne.symm ht) i e)

theorem Mm.Tidy.store_dir (h : s.Tidy) (i : ℕ) {e : Word} (he : DirWord e) : (s.store 0 i e).Tidy := by
  intro d hd
  rw [store_mem]
  split
  · exact he
  · exact h d hd

theorem Mm.Tidy.storePage (h : s.Tidy) {f : ℕ} (hf : f ≠ 0) (page : ℕ → Word) :
    (s.storePage f page).Tidy := h.of_dir (storePage_mem_of_ne s (Ne.symm hf) page)

/-! ### The elementary commands -/

/-- A frame of main memory, by its address. -/
def FrameAt (p : ℕ) : Prop := ∃ f, p = f * 4096 ∧ 256 ≤ f ∧ f < 4096

theorem leaves_loadDir {d : ℕ} (hd : d < 1024) {α : Type} {f : Word → MmM α}
    (h : ∀ e, DirWord e → Leaves Mm.Tidy (f e)) : Leaves Mm.Tidy (loadWord 0 d >>= f) :=
  Leaves.bind_of (fun _ hs => ⟨hs, hs d hd⟩) h

theorem leaves_load (t i : ℕ) {α : Type} {f : Word → MmM α} (h : ∀ e, Leaves Mm.Tidy (f e)) :
    Leaves Mm.Tidy (loadWord t i >>= f) := Leaves.bind (fun _ hs => hs) h

theorem leaves_store {t : ℕ} (ht : t ≠ 0) (i : ℕ) (e : Word) :
    Leaves Mm.Tidy (storeWord t i e) := Leaves.modify fun _ h => h.store ht i e

theorem leaves_storeDir (i : ℕ) {e : Word} (he : DirWord e) :
    Leaves Mm.Tidy (storeWord 0 i e) := Leaves.modify fun _ h => h.store_dir i he

theorem leaves_setCount (f : Mm → Mm) (h : ∀ s, (f s).mem = s.mem) : Leaves Mm.Tidy (modify f : MmM PUnit) := by
  apply Leaves.modify
  intro s hs
  exact hs.of_dir (by rw [h])

/-- `get_free_page` gives a frame of main memory. -/
theorem leaves_getFreePage {α : Type} {f : ℕ → MmM α} (h : ∀ p, (p ≠ 0 → FrameAt p) → Leaves Mm.Tidy (f p)) :
    Leaves Mm.Tidy (getFreePage >>= f) := by
  refine Leaves.bind_of ?_ h
  intro s hs
  apply wp_mono (getFreePage_spec s) _ (fun _ _ h => h.elim)
  intro p s' hp
  cases hp with
  | none _ => exact ⟨hs, fun hne => absurd rfl hne⟩
  | some k hk _ _ =>
    refine ⟨?_, fun _ => ⟨256 + k, rfl, by omega, by omega⟩⟩
    apply Mm.Tidy.storePage
    · exact hs.of_dir rfl
    · omega

theorem leaves_freePage (a : ℕ) : Leaves Mm.Tidy (freePage a) := by
  refine Leaves.ite (fun _ => Leaves.pure _) (fun _ => Leaves.look fun s _ => ?_)
  refine Leaves.ite (fun _ => Leaves.throw _) (fun _ => ?_)
  refine Leaves.bind (leaves_setCount _ (fun _ => rfl)) (fun _ => ?_)
  refine Leaves.ite (fun _ => Leaves.pure _) (fun _ => ?_)
  exact Leaves.bind (leaves_setCount _ (fun _ => rfl)) (fun _ => Leaves.throw _)

/-! ### `free_page_tables` -/

theorem leaves_freeEntry {t : ℕ} (ht : t ≠ 0) (nr : ℕ) : Leaves Mm.Tidy (freeEntry t nr) := by
  refine leaves_load _ _ (fun e => Leaves.ite (fun _ => ?_) (fun _ => leaves_store ht _ _))
  exact Leaves.bind (leaves_freePage _) (fun _ => leaves_store ht _ _)

theorem leaves_freeEntries {t : ℕ} (ht : t ≠ 0) : Leaves Mm.Tidy (freeEntries t 0 1024) :=
  Leaves.countdown (freeEntries t) (freeEntry t) (fun _ => rfl) (fun _ _ => rfl) 1024
    (fun i _ => leaves_freeEntry ht i) 1024 0 le_rfl

theorem leaves_freeDirEntry {d : ℕ} (hd : d < 1024) : Leaves Mm.Tidy (freeDirEntry d) := by
  refine leaves_loadDir hd (fun e he => Leaves.ite (fun hp => ?_) (fun _ => Leaves.pure _))
  refine Leaves.bind (leaves_freeEntries (he.frame_ne hp)) (fun _ => ?_)
  refine leaves_loadDir hd (fun e' _ => Leaves.bind (leaves_freePage _) (fun _ => ?_))
  exact leaves_storeDir _ (Or.inl rfl)

theorem leaves_freePageTables {a size : ℕ} (h : dirIndex a + dirCount size ≤ 1024) :
    Leaves Mm.Tidy (freePageTables a size) := by
  refine Leaves.ite (fun _ => Leaves.throw _) (fun _ => Leaves.ite (fun _ => Leaves.throw _) ?_)
  intro _
  exact Leaves.countdown freeDirEntries freeDirEntry (fun _ => rfl) (fun _ _ => rfl) 1024
    (fun i hi => leaves_freeDirEntry hi) _ _ h

/-! ### `copy_page_tables` -/

theorem leaves_copyEntry {ft tt : ℕ} (hf : ft ≠ 0) (ht : tt ≠ 0) (i : ℕ) :
    Leaves Mm.Tidy (copyEntry ft tt i) := by
  refine leaves_load _ _ (fun e => Leaves.ite (fun _ => ?_) (fun _ => Leaves.pure _))
  refine Leaves.bind (leaves_store ht _ _) (fun _ => Leaves.ite (fun _ => ?_) (fun _ => Leaves.pure _))
  exact Leaves.bind (leaves_store hf _ _) (fun _ => leaves_setCount _ (fun _ => rfl))

theorem leaves_copyEntries {ft tt : ℕ} (hf : ft ≠ 0) (ht : tt ≠ 0) (n : ℕ) :
    Leaves Mm.Tidy (copyEntries ft tt 0 n) :=
  Leaves.countdown (copyEntries ft tt) (copyEntry ft tt) (fun _ => rfl) (fun _ _ => rfl) n
    (fun i _ => leaves_copyEntry hf ht i) n 0 (by omega)

theorem leaves_copyDirEntries (nr n fd td : ℕ) (hf : fd + n ≤ 1024) (ht : td + n ≤ 1024) :
    Leaves Mm.Tidy (copyDirEntries nr fd td n) := by
  induction n generalizing fd td with
  | zero => exact Leaves.pure _
  | succ n ih =>
    have hnext := ih (fd + 1) (td + 1) (by omega) (by omega)
    refine leaves_loadDir (by omega) (fun e _ => Leaves.ite (fun _ => Leaves.throw _) (fun _ => ?_))
    refine leaves_loadDir (by omega) (fun e' he' => Leaves.ite (fun hp => ?_) (fun _ => hnext))
    refine leaves_getFreePage (fun p hp' => Leaves.ite (fun _ => Leaves.pure _) (fun hne => ?_))
    obtain ⟨f, hpf, hge, hlt⟩ := hp' hne
    rw [hpf, show f * 4096 / 4096 = f from by omega]
    refine Leaves.bind (leaves_storeDir _ (dirWord_userEntry (by omega) (by omega))) (fun _ => ?_)
    exact Leaves.bind (leaves_copyEntries (he'.frame_ne hp) (by omega) nr) (fun _ => hnext)

theorem leaves_copyPageTables {a b size : ℕ} (ha : dirIndex a + dirCount size ≤ 1024)
    (hb : dirIndex b + dirCount size ≤ 1024) : Leaves Mm.Tidy (copyPageTables a b size) :=
  Leaves.ite (fun _ => Leaves.throw _) (fun _ => leaves_copyDirEntries _ _ _ _ ha hb)

/-! ### Faults -/

theorem dirIndex_lt (a : ℕ) : dirIndex a < 1024 := by
  rw [dirIndex]
  omega

theorem leaves_putPage (page a : ℕ) : Leaves Mm.Tidy (putPage page a) := by
  refine leaves_loadDir (dirIndex_lt a) (fun e he => Leaves.ite (fun hp => ?_) (fun _ => ?_))
  · exact Leaves.bind (leaves_store (he.frame_ne hp) _ _) (fun _ => Leaves.pure _)
  · refine leaves_getFreePage (fun p hp => Leaves.ite (fun _ => Leaves.pure _) (fun hne => ?_))
    obtain ⟨f, hpf, hge, hlt⟩ := hp hne
    rw [hpf, show f * 4096 / 4096 = f from by omega]
    refine Leaves.bind (leaves_storeDir _ (dirWord_userEntry (by omega) (by omega))) (fun _ => ?_)
    exact Leaves.bind (leaves_store (by omega) _ _) (fun _ => Leaves.pure _)

theorem leaves_unWpPage {t : ℕ} (ht : t ≠ 0) (i : ℕ) : Leaves Mm.Tidy (unWpPage t i) := by
  refine leaves_load _ _ (fun e => Leaves.look fun s _ => ?_)
  refine Leaves.ite (fun _ => leaves_store ht _ _) (fun _ => ?_)
  refine leaves_getFreePage (fun p hp => Leaves.ite (fun _ => Leaves.throw _) (fun hne => ?_))
  obtain ⟨f, hpf, hge, hlt⟩ := hp hne
  have hrest : Leaves Mm.Tidy (do
      storeWord t i (userEntry p)
      modify fun s => s.storePage (p / 4096) (s.mem (frameOf e * 4096 / 4096))) := by
    refine Leaves.bind (leaves_store ht _ _) (fun _ => Leaves.modify fun s hs => ?_)
    rw [hpf, show f * 4096 / 4096 = f from by omega]
    exact hs.storePage (by omega) _
  refine Leaves.ite (fun _ => ?_) (fun _ => ?_)
  · exact Leaves.bind (leaves_setCount _ (fun _ => rfl)) (fun _ => hrest)
  · exact hrest

/-- `do_wp_page` is for a page that is there. -/
theorem doWpPage_tidy {a : ℕ} (h : s.Tidy) (hp : present (s.mem 0 (dirIndex a))) :
    wp (doWpPage a) (fun _ s' => s'.Tidy) (fun _ s' => s'.Tidy) s := by
  have hne := (h _ (dirIndex_lt a)).frame_ne hp
  rw [doWpPage, wp_bind, wp_loadWord]
  exact leaves_unWpPage hne (tableIndex a) s h

theorem leaves_writeVerify (a : ℕ) : Leaves Mm.Tidy (writeVerify a) := by
  refine leaves_loadDir (dirIndex_lt a) (fun e he => Leaves.ite (fun hp => ?_) (fun _ => Leaves.pure _))
  refine leaves_load _ _ (fun e' => Leaves.ite (fun _ => ?_) (fun _ => Leaves.pure _))
  exact leaves_unWpPage (he.frame_ne hp) _

theorem leaves_getEmptyPage (a : ℕ) : Leaves Mm.Tidy (getEmptyPage a) := by
  refine leaves_getFreePage (fun p _ => Leaves.ite (fun _ => ?_) (fun _ => ?_))
  · exact Leaves.bind (leaves_freePage _) (fun _ => Leaves.throw _)
  · refine Leaves.bind (leaves_putPage _ _) (fun r => Leaves.ite (fun _ => ?_) (fun _ => Leaves.pure _))
    exact Leaves.bind (leaves_freePage _) (fun _ => Leaves.throw _)

theorem leaves_tryToShare {a p q : ℕ} (hp : dirIndex a + dirIndex p < 1024)
    (hq : dirIndex a + dirIndex q < 1024) : Leaves Mm.Tidy (tryToShare a p q) := by
  refine leaves_loadDir hp (fun e he => Leaves.ite (fun _ => Leaves.pure _) (fun hpres => ?_))
  have hfrom := he.frame_ne (not_not.1 hpres)
  refine leaves_load _ _ (fun e' => Leaves.ite (fun _ => Leaves.pure _) (fun _ => ?_))
  refine Leaves.look fun s _ => Leaves.ite (fun _ => Leaves.pure _) (fun _ => ?_)
  have hrest : ∀ t, t ≠ 0 → Leaves Mm.Tidy (do
      let old ← loadWord t (tableIndex a)
      if present old then
        throw (.panic "try_to_share: to_page already exists")
      else
        storeWord (frameOf e) (tableIndex a) (readOnly e')
        storeWord t (tableIndex a) (readOnly e')
        modify fun s => s.setCount ((frameOf e' * 4096 - LOW_MEM) / 2 ^ 12)
          (s.memMap ((frameOf e' * 4096 - LOW_MEM) / 2 ^ 12) + 1)
        return true) := by
    intro t ht
    refine leaves_load _ _ (fun old => Leaves.ite (fun _ => Leaves.throw _) (fun _ => ?_))
    refine Leaves.bind (leaves_store hfrom _ _) (fun _ => ?_)
    refine Leaves.bind (leaves_store ht _ _) (fun _ => ?_)
    exact Leaves.bind (leaves_setCount _ (fun _ => rfl)) (fun _ => Leaves.pure _)
  refine leaves_loadDir hq (fun d hd => Leaves.ite (fun hdp => ?_) (fun _ => ?_))
  · exact hrest _ (hd.frame_ne hdp)
  · refine leaves_getFreePage (fun tmp htmp => Leaves.ite (fun _ => Leaves.throw _) (fun hne => ?_))
    obtain ⟨f, hf, hge, hlt⟩ := htmp hne
    rw [hf, show f * 4096 / 4096 = f from by omega]
    refine Leaves.bind (leaves_storeDir _ (dirWord_userEntry (by omega) (by omega))) (fun _ => ?_)
    exact hrest f (by omega)

/-! ### Boot -/

theorem boot_tidy (M : MainMemory) (m : ℕ → ℕ → Word) : (M.boot m).Tidy := by
  intro d hd
  rw [(boot_spec M m).1, setupPaging, if_pos rfl]
  split
  · exact dirWord_userEntry (by omega) (by omega)
  · exact Or.inl rfl

end OldLinux.Memory
