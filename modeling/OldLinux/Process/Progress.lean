import OldLinux.Memory.Room
import OldLinux.Process.Programs

/-!
# What a task has to do gets done

Where few pages are mapped no function of the memory manager fails, so the things a task has to do
can be done.  Each theorem gives the machine after one of them together with what it did to memory.
-/

namespace OldLinux.Process

open Lib Memory

variable {M : MainMemory} {σ σ' : Machine} {s s' : Mm} {held : Multiset ℕ} {P nr n : ℕ} {t : Task}
  {action : Action} {rest : List Action}

theorem run_eq (ht : σ.task P = some t) (htodo : t.todo = action :: rest) :
    σ.run P = σ.perform P (t.next rest) action := by
  rw [Machine.run]
  simp only [ht, htodo]

theorem run_cases (hstep : σ.run P = some σ') : ∃ t action rest, σ.task P = some t ∧
    t.todo = action :: rest ∧ σ.perform P (t.next rest) action = some σ' := by
  rw [Machine.run] at hstep
  split at hstep
  · cases hstep
  · rename_i t ht
    split at hstep
    · cases hstep
    · rename_i action rest htodo
      exact ⟨t, action, rest, ht, htodo, hstep⟩

theorem call_done {α : Type} {c : MmM α} {A : α → Mm → Prop} (hwp : wp c A (fun _ _ => False) σ.kernel.mm) :
    ∃ a s, A a s ∧ ∀ P t next, σ.call P t c next = some (next a s) := by
  rw [wp] at hwp
  cases hc : c σ.kernel.mm with
  | ok a s =>
    rw [hc] at hwp
    refine ⟨a, s, hwp, fun _ _ _ => ?_⟩
    rw [Machine.call]
    simp only [hc]
  | error e s =>
    rw [hc] at hwp
    exact hwp.elim

/-- Few pages are mapped and few frames held, for the size of main memory. -/
structure Roomy (M : MainMemory) (σ : Machine) (n : ℕ) : Prop where
  few : σ.kernel.mm.Few n
  held : σ.kernel.held.card ≤ n
  room : 2 * n + 1010 < M.hi - M.lo

theorem Roomy.not_tight (R : Roomy M σ n) (B : Books True M σ.kernel.mm σ.kernel.held) :
    ¬σ.kernel.mm.Tight := by
  have h1 := R.held
  have h2 := R.room
  exact B.roomy R.few (by omega)

theorem Roomy.not_full (R : Roomy M σ n) (B : Books True M σ.kernel.mm σ.kernel.held) :
    ¬σ.kernel.mm.Full := fun hfull => R.not_tight B (Mm.Full.tight hfull)

/-! ### `fork` -/

/-- A copy maps no new frames of main memory. -/
theorem Copied.few {R : ℕ → Prop} (B : Books True M s held) (hP : P < 64)
    (hzero : P = 0 → ∀ d, R d → d = 0) (C : Copied True P nr R s s') (h : s.Few n) : s'.Few n := by
  apply h.of_entries
  intro q hq hp hf
  by_cases hR : q.1 / 16 = nr ∧ R (q.1 % 16)
  · obtain ⟨hslot, hRd⟩ := hR
    rw [C.target q hq hslot hRd] at hp hf ⊢
    have hsrc : present (sourceEntry s P q) := by
      by_contra habs
      rw [copied_of_absent habs] at hp
      exact present_zero hp
    rw [copied, if_pos hsrc, frameOf_readOnly] at hf ⊢
    by_cases hP0 : P = 0
    · -- the kernel's table maps the first 640 kB onto themselves
      rw [sourceEntry, if_pos hP0, hzero hP0 _ hRd] at hf hsrc
      split at hf
      · rename_i hk
        have := (B.ledger.kernelEntry 0 (by omega) q.2 (by omega)).2
        omega
      · rename_i hk
        rw [if_neg hk] at hsrc
        exact absurd hsrc present_zero
    · rw [sourceEntry, if_neg hP0] at hsrc ⊢
      exact ⟨parentPlace P q, parentPlace_mem (by omega) hP hq, hsrc, rfl⟩
  · have hsame : s'.pte q = s.pte q ∨ s'.pte q = readOnly (s.pte q) := by
      by_cases hsrc : q.1 / 16 = P ∧ R (q.1 % 16)
      · exact C.source q hq hsrc.1 hsrc.2
      · refine Or.inl (C.others q hq ?_)
        intro h
        rcases h.1 with h1 | h1
        · exact hsrc ⟨h1, h.2⟩
        · exact hR ⟨h1, h.2⟩
    rcases hsame with h | h
    · rw [h] at hp ⊢
      exact ⟨q, hq, hp, rfl⟩
    · rw [h, frameOf_readOnly]
      rw [h] at hp
      exact ⟨q, hq, (present_readOnly _).1 hp, rfl⟩

theorem copyProcess_done (B : Books True M s held) (hP : P < 64) (hnr : nr < 64) (hnr0 : 0 < nr)
    (hlim : t.dataLimit ≤ 0x4000000) (hzero : P = 0 → t.dataLimit ≤ 0x400000)
    (hcode : t.codeLimit ≤ t.dataLimit) (hempty : Empty s nr) (hfew : s.Few n)
    (hroom : n + held.card + 1010 < M.hi - M.lo) :
    wp (copyProcess P nr t) (fun child s' => ∃ f, child = some f ∧ s'.Few n ∧
        Copied True P nr (fun d => d < dirCount t.dataLimit) s s')
      (fun _ _ => False) s := by
  have hcount : P = 0 → dirCount t.dataLimit ≤ 1 := by
    intro h0
    have := hzero h0
    rw [dirCount]
    omega
  have hfull : ¬s.Full := fun h => B.roomy hfew (by omega) (Mm.Full.tight h)
  rw [copyProcess, wp_bind]
  apply wp_mono (wp_and (getFreePage_books B) (getFreePage_ok hfull)) _ (fun _ _ h => h.1)
  intro p s1 h1
  obtain ⟨⟨hz, _⟩ | ⟨f, hp, Fr⟩, hne⟩ := h1
  · exact absurd hz hne
  · have hge := Fr.main.lowMem_le
    rw [wp_ite]
    refine ⟨fun h => absurd h hne, fun _ => ?_⟩
    rw [wp_ite]
    refine ⟨fun h => by omega, fun _ => ?_⟩
    rw [wp_bind]
    apply wp_mono (copyPageTables_books Fr.books hP hnr hnr0 hlim (fun _ h => hzero h))
    · intro r s2 h2
      obtain ⟨B2, k, hk, hr, C⟩ := h2
      have C' := Copied.after_fresh B Fr hP C
      have hfew2 : s2.Few n := Copied.few B hP (fun h0 d hd => by have := hcount h0; omega) C' hfew
      have hr0 : r = 0 ∧ k = dirCount t.dataLimit := by
        rcases hr with h | ⟨_, hfull2⟩
        · exact h
        · refine absurd (Mm.Full.tight hfull2) (B2.roomy hfew2 ?_)
          rw [Multiset.card_cons]
          omega
      rw [wp_ite]
      refine ⟨fun h => absurd hr0.1 h, fun _ => ⟨f, ?_, hfew2, ?_⟩⟩
      · show some (p / 4096) = some f
        rw [hp, show f * 4096 / 4096 = f from by omega]
      · rw [hr0.2] at C'
        exact C'
    · intro e s2 h2
      obtain ⟨-, -, d, h3, h4, h5⟩ := h2
      rw [Fr.dir] at h5
      exact hempty d (mem_directory.2 ⟨by omega, by omega⟩) (by omega) h5

/-- The machine after a `fork` that succeeds. -/
def Machine.forked (σ : Machine) (P nr : ℕ) (t : Task) (rest : List Action) (f : ℕ) (s : Mm) :
    Machine :=
  (σ.set P (t.next rest) ⟨s, f ::ₘ σ.kernel.held⟩).set nr
    { t with frame := f, zombie := false, todo := [] } ⟨s, f ::ₘ σ.kernel.held⟩

theorem fork_done (h : Sound M σ) (R : Roomy M σ n) (ht : σ.task P = some t)
    (htodo : t.todo = .fork nr :: rest) (hnr0 : 0 < nr) (hnr : nr < 64) (hfree : σ.task nr = none)
    (hcode : t.codeLimit ≤ t.dataLimit) :
    ∃ f s, Copied True P nr (fun d => d < dirCount t.dataLimit) σ.kernel.mm s ∧ s.Few n ∧
      σ.run P = some (σ.forked P nr t rest f s) := by
  have hok := h.ok P t ht
  have h1 := R.held
  have h2 := R.room
  have hspec := copyProcess_done (t := t.next rest) h.books (h.slots P t ht) hnr hnr0 hok.limits.2
    (fun h0 => (hok.zero h0).1) hcode (h.vacant nr hfree) R.few (by omega)
  rw [run_eq ht htodo, Machine.perform, Machine.fork, if_pos ⟨hnr0, hnr, hfree⟩]
  obtain ⟨child, s, hpost, hcall⟩ := call_done hspec
  obtain ⟨f, rfl, hfew, C⟩ := hpost
  exact ⟨f, s, C, hfew, hcall _ _ _⟩

/-! ### Stores -/

theorem store_done {a : ℕ} {v : Byte} (b : Busy M σ P t (.store a v) rest) (R : Roomy M σ n)
    (ha : a < t.dataLimit) (hpres : present (σ.pte P a)) :
    ∃ s, Dirtied M σ P a v s ∧ 256 ≤ frameOf (s.pte (slotPlace P a)) ∧
      σ.run P = some (σ.set P (t.next rest) ⟨s, σ.kernel.held⟩) := by
  have hle := b.ok.limits.2
  have hP := b.pos
  have hp : slotPlace P a ∈ places := slotPlace_mem (by omega) b.lt (by omega)
  rw [run_eq b.task b.todo]
  simp only [Machine.perform]
  have hlim : ¬(t.next rest).dataLimit ≤ a := not_le.2 ha
  rw [if_neg hlim, if_pos hpres]
  split
  · rename_i hw
    have hpriv := private_of_writable b.sound.books hp hpres hw
    obtain ⟨_, s, W, hcall⟩ := call_done (poke_dirtied b ha hpres (Or.inl hpriv))
    refine ⟨s, W, ?_, hcall _ _ _⟩
    rcases W.high with h | h
    · exact h
    · rw [h]
      exact hpriv.1
  · have hwp : wp (do doWpPage (base P + a); poke (base P + a) v) (fun _ _ => True)
        (fun _ _ => False) σ.kernel.mm := by
      rw [wp_bind]
      apply wp_mono (doWpPage_ok (R.not_full b.sound.books) _) _ (fun _ _ h => h)
      intro _ s1 _
      rw [poke, wp_bind, wp_loadWord, wp_bind, wp_loadWord, wp_bind, wp_storeWord, wp_modify]
      trivial
    obtain ⟨_, s, W, hcall⟩ := call_done (wp_mono (wp_and (wpPoke_dirtied b ha hpres) hwp)
      (fun _ _ h => h.1) (fun _ _ h => h.2))
    exact ⟨s, W.1, W.2, hcall _ _ _⟩

/-- A store of the kernel into a page that is writable. -/
theorem put_done {a : ℕ} {v : Byte} (B : Books True M σ.kernel.mm σ.kernel.held) (hP0 : 0 < P)
    (hP : P < 64) (hle : t.dataLimit ≤ 0x4000000) (ht : σ.task P = some t)
    (htodo : t.todo = .put a v :: rest) (ha : a < t.dataLimit) (hpres : present (σ.pte P a))
    (hw : writable (σ.pte P a)) :
    ∃ s, Books True M s σ.kernel.held ∧ present (s.pte (slotPlace P a)) ∧
      writable (s.pte (slotPlace P a)) ∧ frameOf (s.pte (slotPlace P a)) = frameOf (σ.pte P a) ∧
      (∀ q ∈ places, q ≠ slotPlace P a → s.pte q = σ.kernel.mm.pte q) ∧
      σ.run P = some (σ.set P (t.next rest) ⟨s, σ.kernel.held⟩) := by
  have hp : slotPlace P a ∈ places := slotPlace_mem hP0 hP (by omega)
  have hplace := placeOf_base hP (show a < 0x4000000 by omega)
  have hp' : placeOf (base P + a) ∈ places := by
    rw [hplace]
    exact hp
  have hpriv := private_of_writable B hp hpres hw
  have hpoke := poke_spec (b := v) B hp' (by rw [hplace]; exact hpres) (Or.inl (by rw [hplace]; exact hpriv))
  rw [hplace] at hpoke
  obtain ⟨_, s, W, hcall⟩ := call_done hpoke
  have hpte := W.pte
  refine ⟨s, W.books, ?_, ?_, ?_, ?_, ?_⟩
  · rw [hpte _ hp, if_pos rfl]
    exact (present_withDirty _).2 hpres
  · rw [hpte _ hp, if_pos rfl]
    exact (writable_withDirty _).2 hw
  · rw [hpte _ hp, if_pos rfl, frameOf_withDirty]
    rfl
  · intro q hq hqp
    rw [hpte q hq, if_neg hqp]
  · have hlim : ¬(t.next rest).dataLimit ≤ a := not_le.2 ha
    rw [run_eq ht htodo]
    simp only [Machine.perform]
    rw [if_neg hlim, if_pos hpres]
    exact hcall _ _ _

theorem set_set (σ : Machine) (P : ℕ) (t t' : Task) (k k' : Kernel) :
    (σ.set P t k).set P t' k' = σ.set P t' k' := by
  rw [Machine.set, Machine.set, Machine.set]
  simp only [Function.update_idem]

theorem set_self (ht : σ.task P = some t) : σ.set P t σ.kernel = σ := by
  rw [Machine.set, ← ht, Function.update_eq_self]

/-- Stores of the kernel one after the other into a writable page, in a machine for which `I` holds
when a store leaves it. -/
theorem puts_done {I : Machine → Prop} {p : ℕ × ℕ}
    (hI : ∀ σ t a v rest u k, I σ → σ.task P = some t → t.todo = .put a v :: rest →
      slotPlace P a = p → (present (σ.pte P a) → writable (σ.pte P a)) →
      σ.run P = some (σ.set P u k) → I (σ.set P u k)) (l : List Action) (hp : p ∈ places) (hP0 : 0 < P)
      (hP : P < 64) (h : I σ)
    (B : Books True M σ.kernel.mm σ.kernel.held) (hfew : σ.kernel.mm.Few n)
    (hle : t.dataLimit ≤ 0x4000000) (ht : σ.task P = some t) (htodo : t.todo = l)
    (hl : ∀ b ∈ l, ∃ a v, b = .put a v ∧ a < t.dataLimit ∧ slotPlace P a = p)
    (hpres : present (σ.kernel.mm.pte p)) (hw : writable (σ.kernel.mm.pte p)) :
    ∃ s, I (σ.set P (t.next []) ⟨s, σ.kernel.held⟩) ∧ Books True M s σ.kernel.held ∧ s.Few n ∧
      ∀ q ∈ places, q ≠ p → s.pte q = σ.kernel.mm.pte q := by
  induction l generalizing σ t with
  | nil =>
    refine ⟨σ.kernel.mm, ?_, B, hfew, fun _ _ _ => rfl⟩
    have hnext : t.next [] = t := by rw [Task.next, ← htodo]
    rw [hnext]
    show I (σ.set P t σ.kernel)
    rw [set_self ht]
    exact h
  | cons b l ih =>
    obtain ⟨a, v, hb, ha, hplace⟩ := hl b (List.mem_cons_self ..)
    rw [hb] at htodo
    have hpte : σ.pte P a = σ.kernel.mm.pte p := by rw [Machine.pte, hplace]
    obtain ⟨s, B', h1, h2, h3, h4, hrun⟩ := put_done B hP0 hP hle ht htodo ha
      (by rw [hpte]; exact hpres) (by rw [hpte]; exact hw)
    rw [hplace] at h1 h2 h3 h4
    have hfew' : s.Few n := by
      apply hfew.of_entries
      intro q hq hpq _
      by_cases hqp : q = p
      · rw [hqp, h3, hpte]
        exact ⟨p, hp, hpres, rfl⟩
      · rw [h4 q hq hqp] at hpq ⊢
        exact ⟨q, hq, hpq, rfl⟩
    have hr := hI _ _ a v l _ _ h ht htodo hplace (fun _ => by rw [hpte]; exact hw) hrun
    have ht' : (σ.set P (t.next l) ⟨s, σ.kernel.held⟩).task P = some (t.next l) := by
      rw [set_task, if_pos rfl]
    have hle' : (t.next l).dataLimit ≤ 0x4000000 := hle
    obtain ⟨s', h5, B5, h6, h7⟩ :=
      ih hr B' hfew' hle' ht' rfl (fun b hb => hl b (List.mem_cons_of_mem _ hb)) h1 h2
    rw [set_set] at h5
    refine ⟨s', h5, B5, h6, ?_⟩
    intro q hq hqp
    rw [h7 q hq hqp]
    exact h4 q hq hqp

/-! ### Faults -/

/-- A fault for a page that is in no file. -/
theorem emptyPage_done (B : Books True M σ.kernel.mm σ.kernel.held) (R : Roomy M σ n) (hP0 : 0 < P)
    (hP : P < 64) {a : ℕ} (ha : a < 0x4000000) (habs : ¬present (σ.pte P a))
    (hfile : t.executable = none ∨ t.endData ≤ a - a % 4096) :
    ∃ s, Books True M s σ.kernel.held ∧ present (s.pte (slotPlace P a)) ∧
      writable (s.pte (slotPlace P a)) ∧ s.Few (n + 1) ∧
      (∀ q ∈ places, q ≠ slotPlace P a → s.pte q = σ.kernel.mm.pte q) ∧
      σ.doNoPage P t a = some (σ.set P t ⟨s, σ.kernel.held⟩) := by
  have hp : slotPlace P a ∈ places := slotPlace_mem hP0 hP ha
  have hplace : placeOf (base P + (a - a % 4096)) = slotPlace P a := by
    rw [placeOf_base hP (by omega), slotPlace_page]
  have hp' : placeOf (base P + (a - a % 4096)) ∈ places := by
    rw [hplace]
    exact hp
  have hbooks := getEmptyPage_books B hp' (by rw [hplace]; exact habs)
  rw [hplace] at hbooks
  have hspec : wp (σ.findPage P t (a - a % 4096))
      (fun page s => page = none ∧ Books True M s σ.kernel.held ∧ ∃ f, M.Has f ∧ ∀ q ∈ places,
        s.pte q = if q = slotPlace P a then userEntry (f * 4096) else σ.kernel.mm.pte q)
      (fun _ _ => False) σ.kernel.mm := by
    have hget := wp_and hbooks (getEmptyPage_ok (R.not_tight B) (base P + (a - a % 4096)))
    unfold Machine.findPage
    cases hi : t.executable with
    | none =>
      rw [wp_bind]
      apply wp_mono hget _ (fun _ _ h => h.2)
      intro _ s hs
      obtain ⟨⟨f, hf, -, C⟩, -⟩ := hs
      exact ⟨rfl, C.books, f, hf, C.pte⟩
    | some inode =>
      have hend := hfile.resolve_left (by rw [hi]; exact Option.some_ne_none _)
      simp only [wp_ite]
      refine ⟨fun _ => ?_, fun h => absurd hend h⟩
      rw [wp_bind]
      apply wp_mono hget _ (fun _ _ h => h.2)
      intro _ s hs
      obtain ⟨⟨f, hf, -, C⟩, -⟩ := hs
      exact ⟨rfl, C.books, f, hf, C.pte⟩
  obtain ⟨_, s, ⟨rfl, B', f, hf, hpte⟩, hcall⟩ := call_done hspec
  refine ⟨s, B', ?_, ?_, R.few.add hpte, ?_, hcall _ _ _⟩
  · rw [hpte _ hp, if_pos rfl]
    exact present_userEntry _
  · rw [hpte _ hp, if_pos rfl]
    exact writable_userEntry _
  · intro q hq hqp
    rw [hpte q hq, if_neg hqp]

/-! ### Sharing -/

theorem exec_done {inode : ℕ} {strings : ℕ → Page} (ht : σ.task P = some t)
    (htodo : t.todo = .exec inode [] [] strings :: rest) (hrun : σ.files.Runnable inode) :
    σ.run P = some (σ.set P (t.next [.execSwitch inode [] [] (σ.files.text inode)
      (σ.files.endData inode) []]) σ.kernel) := by
  rw [run_eq ht htodo, Machine.perform, Machine.exec, if_pos hrun]
  show some (σ.set P _ ⟨σ.kernel.mm, ((([] : List ℕ) : Multiset ℕ) + σ.kernel.held)⟩) = _
  rw [Multiset.coe_nil, Multiset.zero_add]
  rfl

theorem execSwitch_done {inode text endData : ℕ} (ht : σ.task P = some t)
    (htodo : t.todo = [.execSwitch inode [] [] text endData []]) :
    σ.run P = some (σ.set P { t with executable := some inode, todo :=
      [.execFree [] [] text endData []] } σ.kernel) := by
  rw [run_eq ht htodo]
  rfl

/-- The task as `do_execve` leaves it. -/
def Task.executed (t : Task) (text endData : ℕ) : Task :=
  { t with
    codeLimit := (text + 4095) % 2 ^ 32 / 4096 * 4096
    dataLimit := 0x4000000
    endData := endData
    todo := (createTables (0x4000000 - 4 - 0) [] []).flatMap (fun p => putLong p.1 p.2) ++
      zeroFill endData }

theorem execFree_done {text endData : ℕ} (B : Books True M σ.kernel.mm σ.kernel.held) (hP0 : 0 < P)
    (hP : P < 64) (hlim : t.codeLimit ≤ 0x4000000 ∧ t.dataLimit ≤ 0x4000000)
    (hinside : ∀ d ∈ directory, d / 16 = P → present (σ.kernel.mm.mem 0 d) →
      d % 16 < dirCount t.dataLimit) (hhi : M.hi = 4096) (R : Roomy M σ n)
    (ht : σ.task P = some t) (htodo : t.todo = [.execFree [] [] text endData []]) :
    ∃ s, Books True M s σ.kernel.held ∧ Empty s P ∧
    (∀ q ∈ places, ¬inSlot P q → s.pte q = σ.kernel.mm.pte q) ∧ s.Few n ∧
      σ.run P = some (σ.set P (t.executed text endData) ⟨s, σ.kernel.held⟩) := by
  have hslot : ∀ size ≤ 0x4000000, ∀ d, P * 16 ≤ d ∧ d < P * 16 + dirCount size → d / 16 = P := by
    intro size hsize d hd
    have : dirCount size ≤ 16 := by
      rw [dirCount]
      omega
    omega
  have hfree : ∀ size ≤ 0x4000000, ∀ s1, Books True M s1 σ.kernel.held → wp (freePageTables (base P) size)
        (fun _ s2 => Books True M s2 σ.kernel.held ∧ ∀ q ∈ places, s2.pte q = s1.pte q ∨
          s2.pte q = 0 ∧ inSlot P q)
        (fun _ _ => False) s1 := by
    intro size hsize s1 B1
    apply wp_mono (freePageTables_books B1 hP hP0 hsize)
    · intro _ s2 h2
      refine ⟨h2.1, ?_⟩
      intro q hq
      rw [h2.2.pte q hq]
      split
      · rename_i hin
        exact Or.inr ⟨rfl, hslot size hsize _ hin⟩
      · exact Or.inl rfl
    · intro _ s2 h2
      omega
  have hpages : wp (freeSegments P (t.next []))
      (fun _ s => ∀ q ∈ places, s.pte q = σ.kernel.mm.pte q ∨ s.pte q = 0 ∧ inSlot P q)
      (fun _ _ => False) σ.kernel.mm := by
    rw [freeSegments, wp_bind]
    apply wp_mono (hfree _ hlim.1 _ B) _ (fun _ _ h => h)
    intro _ s1 h1
    apply wp_mono (hfree _ hlim.2 _ h1.1) _ (fun _ _ h => h)
    intro _ s2 h2 q hq
    rcases h2.2 q hq with heq | hzero
    · rw [heq]
      exact h1.2 q hq
    · exact Or.inr hzero
  have hempty := freeSegments_spec (t := t.next []) B hP0 hP hlim hinside
  have hspec : wp (do freeSegments P (t.next []); putArgs (base P + 0x4000000) [])
      (fun mapped s => mapped = [] ∧ Books True M s σ.kernel.held ∧ Empty s P ∧ ∀ q ∈ places,
        s.pte q = σ.kernel.mm.pte q ∨ s.pte q = 0 ∧ inSlot P q)
      (fun _ _ => False) σ.kernel.mm := by
    rw [wp_bind]
    apply wp_mono (wp_and hempty hpages) _ (fun _ _ h => h.2)
    intro _ s1 h1
    exact ⟨rfl, h1.1.1, h1.1.2.2, h1.2⟩
  obtain ⟨mapped, s, ⟨hmapped, B', hs, hpte⟩, hcall⟩ := call_done hspec
  refine ⟨s, B', hs, ?_, R.few.of_entries ?_, ?_⟩
  · intro q hq hnot
    rcases hpte q hq with heq | hzero
    · exact heq
    · exact absurd hzero.2 hnot
  · intro q hq hp _
    rcases hpte q hq with heq | hzero
    · rw [heq] at hp ⊢
      exact ⟨q, hq, hp, rfl⟩
    · rw [hzero.1] at hp
      exact absurd hp present_zero
  · rw [run_eq ht htodo]
    refine (hcall _ _ _).trans ?_
    rw [hmapped, Multiset.coe_nil, Multiset.sub_zero]
    rfl

/-- `create_tables` without arguments stores into the last page. -/
theorem executed_todo (t : Task) (text : ℕ) {endData : ℕ} (halign : endData % 4096 = 0) :
    ∃ v rest, (t.executed text endData).todo = .put 0x3fffff0 v :: rest ∧
    ∀ b ∈ (t.executed text endData).todo, ∃ a v, b = .put a v ∧ 0x3fff000 ≤ a ∧ a < 0x4000000 := by
  have htodo : (t.executed text endData).todo =
      (createTables 0x3fffffc [] []).flatMap (fun p => putLong p.1 p.2) := by
    show (createTables (0x4000000 - 4 - 0) [] []).flatMap (fun p => putLong p.1 p.2) ++
      zeroFill endData = _
    rw [zeroFill, show (4096 - endData % 4096) % 4096 = 0 from by omega,
      show (0x4000000 - 4 - 0 : ℕ) = 0x3fffffc from by omega]
    exact List.append_nil _
  have htables : createTables 0x3fffffc [] [] = [(0x3fffff0, BitVec.ofNat 32 0x3fffff8),
      (0x3ffffec, BitVec.ofNat 32 0x3fffff4), (0x3ffffe8, 0), (0x3fffff4, 0), (0x3fffff8, 0)] := by
    rfl
  rw [htodo, htables]
  refine ⟨_, _, rfl, ?_⟩
  intro b hb
  obtain ⟨p, hp, hb⟩ := List.mem_flatMap.1 hb
  obtain ⟨i, v, hi, hb⟩ := mem_puts hb
  have hlen : (longBytes p.2).length = 4 := rfl
  rw [hlen] at hi
  have hrange : 0x3ffffe8 ≤ p.1 ∧ p.1 ≤ 0x3fffff8 := by
    simp only [List.mem_cons, List.not_mem_nil, or_false] at hp
    rcases hp with h | h | h | h | h <;> rw [h] <;> omega
  exact ⟨p.1 + i, v, hb, by omega, by omega⟩

/-- What `create_tables` stores of an empty argument list: the first store brings the last page. -/
theorem tables_done {I : Machine → Prop} {text endData : ℕ}
    (hI : ∀ σ t a v rest u k, I σ → σ.task P = some t → t.todo = .put a v :: rest →
      slotPlace P a = slotPlace P 0x3fff000 → (present (σ.pte P a) → writable (σ.pte P a)) →
      σ.run P = some (σ.set P u k) → I (σ.set P u k))
    (hP0 : 0 < P) (hP : P < 64) (h : I σ) (B : Books True M σ.kernel.mm σ.kernel.held)
    (R : Roomy M σ n) (halign : endData % 4096 = 0) (hend : endData ≤ 0x3fff000)
    (ht : σ.task P = some (t.executed text endData)) (hempty : Empty σ.kernel.mm P) :
    ∃ s, I (σ.set P ((t.executed text endData).next []) ⟨s, σ.kernel.held⟩) ∧
      Books True M s σ.kernel.held ∧ s.Few (n + 1) ∧
      ∀ q ∈ places, q ≠ slotPlace P 0x3fff000 → s.pte q = σ.kernel.mm.pte q := by
  obtain ⟨v, rest, htodo, hall⟩ := executed_todo t text halign
  have hplace : ∀ a, 0x3fff000 ≤ a → a < 0x4000000 → slotPlace P a = slotPlace P 0x3fff000 := by
    intro a h1 h2
    rw [slotPlace, slotPlace, dirIndex, dirIndex, tableIndex, tableIndex,
      show a / 2 ^ 22 = 0x3fff000 / 2 ^ 22 from by omega,
      show a / 2 ^ 12 = 0x3fff000 / 2 ^ 12 from by omega]
  have hp : slotPlace P 0x3fff000 ∈ places := slotPlace_mem hP0 hP (by omega)
  have hp1 : slotPlace P 0x3fffff0 = slotPlace P 0x3fff000 := hplace _ (by omega) (by omega)
  have habs : ¬present (σ.pte P 0x3fffff0) := by
    rw [Machine.pte, hp1]
    exact hempty.absent hp (slotPlace_inSlot (by omega))
  have hend' : (t.executed text endData).endData ≤ 0x3fffff0 - 0x3fffff0 % 4096 := by
    show endData ≤ 0x3fffff0 - 0x3fffff0 % 4096
    omega
  obtain ⟨s, B1, h1, h2, hfew, h3, hrun⟩ := emptyPage_done (t := t.executed text endData) B R hP0 hP
    (show 0x3fffff0 < 0x4000000 by omega) habs (Or.inr hend')
  rw [hp1] at h1 h2 h3
  have hlim : ¬((t.executed text endData).next rest).dataLimit ≤ 0x3fffff0 := by
    show ¬0x4000000 ≤ 0x3fffff0
    omega
  have hstep : σ.run P = some (σ.set P (t.executed text endData) ⟨s, σ.kernel.held⟩) := by
    rw [run_eq ht htodo]
    simp only [Machine.perform]
    rw [if_neg hlim, if_neg habs, next_next,
      show ((t.executed text endData).next rest).todo = rest from rfl, next_self htodo]
    exact hrun
  have hr := hI _ _ _ v rest _ _ h ht htodo hp1 (fun hp => absurd hp habs) hstep
  have ht' : (σ.set P (t.executed text endData) ⟨s, σ.kernel.held⟩).task P =
      some (t.executed text endData) := by
    rw [set_task, if_pos rfl]
  have hle : (t.executed text endData).dataLimit ≤ 0x4000000 := le_rfl
  obtain ⟨s', h4, B2, h5, h6⟩ := puts_done hI _ hp hP0 hP hr B1 hfew hle ht' rfl (by
      intro b hb
      obtain ⟨a, w, hb, ha1, ha2⟩ := hall b hb
      exact ⟨a, w, hb, ha2, hplace a ha1 ha2⟩) h1 h2
  rw [set_set] at h4
  refine ⟨s', h4, B2, h5, ?_⟩
  intro q hq hqp
  rw [h6 q hq hqp]
  exact h3 q hq hqp

end OldLinux.Process
