import OldLinux.Lib.LinkedList
import OldLinux.Lib.Trace

/-!
# Kernel timers: `add_timer` and the loop of `do_timer`

`timer_list` is a table of 64 slots; the pending timers are chained from `next_timer`, and the
`jiffies` of each one count from the one before it.  `add_timer` puts a new timer in front and
exchanges the contents of neighbours until it stands in its place.

A tick that finds a timer due frees its slot and runs its callback.  A callback may add timers and
may itself be interrupted by a tick; between two callbacks the loop runs on its own, so its steps
are told apart (`expire`, `resume`, `leave`).

* `Clock` is the table as the code keeps it, `Agenda` the timers in the order of the chain.
* `step_refines`: each step of the clock is the step of the agenda.
* `no_timer_lost`: the chain is the list of the used slots, and each registered callback is pending
  or has been called, once.
* `timers_on_time`: each callback is called during its tick, if each timer is added when all
  pending ones are due sooner.
-/

namespace OldLinux.Sched.Timers

open Function Lib

variable {F : Type}

/-! ### The table -/

/-- A registered callback, with the number of its registration and the tick it was asked for. -/
structure Call (F : Type) where
  id : ℕ
  fn : F
  due : ℕ
  deriving DecidableEq

/-- `struct timer_list`; the null pointer is 0, slot `k` of the table has the address `k + 1`. -/
structure Timer (F : Type) where
  jiffies : ℤ
  fn : Option (Call F)
  next : ℕ

def TIME_REQUESTS : ℕ := 64

/-- What has happened so far: the ticks, the callbacks registered and the callbacks called, each
with its tick.  `looping` is true inside the loop of a `do_timer`, `calls` counts the calls of
`do_timer` that are inside a callback. -/
structure Log (F : Type) where
  ticks : ℕ
  looping : Bool
  calls : ℕ
  made : List (Call F)
  called : List (Call F × ℕ)
  deriving DecidableEq

structure Clock (F : Type) where
  timer_list : ℕ → Timer F
  next_timer : ℕ
  log : Log F

/-- What can happen: a call of `add_timer`, a tick, and the parts of the loop of `do_timer`: the
head of the chain is taken off and its callback starts, the callback returns, the loop ends. -/
inductive Event (F : Type)
  | add (jiffies : ℤ) (fn : Option F)
  | tick
  | expire
  | resume
  | leave

/-- The next registration. -/
def Log.call (b : Log F) (jiffies : ℤ) (f : F) : Call F :=
  { id := b.made.length, fn := f, due := b.ticks + jiffies.toNat }

def Log.register (b : Log F) (c : Call F) : Log F := { b with made := c :: b.made }

def Log.run (b : Log F) (c : Call F) : Log F := { b with called := (c, b.ticks) :: b.called }

/-- The first slot without a callback. -/
def findFree (T : ℕ → Timer F) : Option ℕ :=
  (List.range' 1 TIME_REQUESTS).find? fun p => (T p).fn.isNone

/-- The body of the loop of `add_timer`: `p` and the slot after it exchange their contents. -/
def exchange (T : ℕ → Timer F) (p : ℕ) : ℕ → Timer F :=
  let q := (T p).next
  let left := (T p).jiffies - (T q).jiffies
  update (update T p { T p with jiffies := (T q).jiffies, fn := (T q).fn })
    q { T q with jiffies := left, fn := (T p).fn }

/-- The loop of `add_timer`, for a bounded number of rounds. -/
def sink : ℕ → (ℕ → Timer F) → ℕ → Option (ℕ → Timer F)
  | 0, _, _ => none
  | n + 1, T, p =>
    if (T p).next ≠ 0 ∧ (T (T p).next).jiffies < (T p).jiffies then
      sink n (exchange T p) (T p).next
    else some T

/-- `add_timer`; without a free slot it panics. -/
def Clock.add_timer (s : Clock F) (jiffies : ℤ) : Option F → Option (Clock F)
  | none => some s
  | some f =>
    let c := s.log.call jiffies f
    if jiffies ≤ 0 then some { s with log := (s.log.register c).run c }
    else do
      let p ← findFree s.timer_list
      let T ← sink TIME_REQUESTS
        (update s.timer_list p { jiffies := jiffies, fn := some c, next := s.next_timer }) p
      some { timer_list := T, next_timer := p, log := s.log.register c }

/-- `next_timer->jiffies--`, for a chain that is not empty. -/
def Clock.count (s : Clock F) : ℕ → Timer F :=
  if s.next_timer = 0 then s.timer_list
  else
    let t := s.timer_list s.next_timer
    update s.timer_list s.next_timer { t with jiffies := t.jiffies - 1 }

/-- The condition of the loop of `do_timer`. -/
def Clock.expired (s : Clock F) : Bool :=
  s.next_timer ≠ 0 ∧ (s.timer_list s.next_timer).jiffies ≤ 0

def Clock.step (s : Clock F) : Event F → Option (Clock F)
  | .add n f => if s.log.looping then none else s.add_timer n f
  | .tick =>
    if s.log.looping then none
    else some { s with timer_list := s.count,
                       log := { s.log with ticks := s.log.ticks + 1, looping := true } }
  | .expire =>
    if s.log.looping ∧ s.expired then
      let t := s.timer_list s.next_timer
      t.fn.map fun c =>
        { timer_list := update s.timer_list s.next_timer { t with fn := none }
          next_timer := t.next
          log := { s.log.run c with looping := false, calls := s.log.calls + 1 } }
    else none
  | .resume =>
    if ¬s.log.looping ∧ 0 < s.log.calls then
      some { s with log := { s.log with looping := true, calls := s.log.calls - 1 } }
    else none
  | .leave =>
    if s.log.looping ∧ ¬s.expired then some { s with log := { s.log with looping := false } }
    else none

/-- No timer is pending and none has been registered. -/
structure Clock.IsStart (s : Clock F) : Prop where
  free : ∀ a, 0 < a → a ≤ TIME_REQUESTS → (s.timer_list a).fn = none
  empty : s.next_timer = 0
  looping : s.log.looping = false
  calls : s.log.calls = 0
  made : s.log.made = []
  called : s.log.called = []

/-! ### The agenda -/

/-- The pending callbacks in the order of the chain, each with the ticks that it comes after the one
before it. -/
structure Agenda (F : Type) where
  queue : List (Call F × ℤ)
  log : Log F

/-- Where `add_timer` puts a timer; the one behind it keeps its difference. -/
def place (c : Call F) : ℤ → List (Call F × ℤ) → List (Call F × ℤ)
  | j, [] => [(c, j)]
  | j, (d, k) :: l => if k < j then (d, k) :: place c (j - k) l else (c, j) :: (d, k) :: l

/-- One tick passes for the first of the queue. -/
def countDown : List (Call F × ℤ) → List (Call F × ℤ)
  | [] => []
  | (c, j) :: l => (c, j - 1) :: l

/-- The first of the queue is due. -/
def expired : List (Call F × ℤ) → Bool
  | [] => false
  | (_, j) :: _ => j ≤ 0

def Agenda.add_timer (a : Agenda F) (jiffies : ℤ) : Option F → Option (Agenda F)
  | none => some a
  | some f =>
    let c := a.log.call jiffies f
    if jiffies ≤ 0 then some { a with log := (a.log.register c).run c }
    else if a.queue.length < TIME_REQUESTS then
      some { queue := place c jiffies a.queue, log := a.log.register c }
    else none

def Agenda.step (a : Agenda F) : Event F → Option (Agenda F)
  | .add n f => if a.log.looping then none else a.add_timer n f
  | .tick =>
    if a.log.looping then none
    else some { queue := countDown a.queue
                log := { a.log with ticks := a.log.ticks + 1, looping := true } }
  | .expire =>
    if a.log.looping ∧ expired a.queue then
      a.queue.head?.map fun e =>
        { queue := a.queue.tail
          log := { a.log.run e.1 with looping := false, calls := a.log.calls + 1 } }
    else none
  | .resume =>
    if ¬a.log.looping ∧ 0 < a.log.calls then
      some { a with log := { a.log with looping := true, calls := a.log.calls - 1 } }
    else none
  | .leave =>
    if a.log.looping ∧ ¬expired a.queue then
      some { a with log := { a.log with looping := false } }
    else none

/-! ### The loop of `add_timer` -/

/-- What a slot holds. -/
def entry (T : ℕ → Timer F) (a : ℕ) : Option (Call F) × ℤ := ((T a).fn, (T a).jiffies)

/-- The same for an entry of the agenda. -/
def held (e : Call F × ℤ) : Option (Call F) × ℤ := (some e.1, e.2)

variable {T T' : ℕ → Timer F} {s s' : Clock F} {a : Agenda F} {c : Call F} {j : ℤ}
  {L : List ℕ} {Q : List (Call F × ℤ)} {p q : ℕ}

theorem exchange_next (T : ℕ → Timer F) (p b : ℕ) : (exchange T p b).next = (T b).next := by
  simp only [exchange, update_apply]
  split_ifs with hq hp
  · rw [hq]
  · rw [hp]
  · rfl

theorem exchange_other (hp : q ≠ p) (hq : q ≠ (T p).next) : exchange T p q = T q := by
  simp only [exchange, update_apply, if_neg hp, if_neg hq]

theorem entry_exchange_self (h : p ≠ (T p).next) : entry (exchange T p) p = entry T (T p).next := by
  simp only [entry, exchange, update_apply, if_neg h, if_true]

theorem entry_exchange_next (T : ℕ → Timer F) (p : ℕ) :
    entry (exchange T p) (T p).next = ((T p).fn, (T p).jiffies - (T (T p).next).jiffies) := by
  simp only [entry, exchange, update_self]

/-- The loop of `add_timer` places the timer of its first slot among the others; links stay as they
are, and so do the slots outside of the chain. -/
theorem sink_spec {n : ℕ} (hlink : Linked (fun b => (T b).next) p (p :: L)) (hnodup : (p :: L).Nodup)
    (hn : L.length < n) (hp : entry T p = held (c, j)) (hL : L.map (entry T) = Q.map held) :
    ∃ T', sink n T p = some T' ∧ (∀ b, (T' b).next = (T b).next) ∧
      (∀ b, b ∉ p :: L → T' b = T b) ∧ (p :: L).map (entry T') = (place c j Q).map held := by
  induction n generalizing T p L Q j with
  | zero => exact absurd hn (Nat.not_lt_zero _)
  | succ n ih =>
    obtain ⟨-, hp0, hrest⟩ := linked_cons.1 hlink
    obtain ⟨hfn, hj⟩ := Prod.mk.injEq .. ▸ hp
    cases L with
    | nil =>
      have hend : (T p).next = 0 := hrest
      obtain rfl : Q = [] := by simpa using hL.symm
      refine ⟨T, ?_, fun _ => rfl, fun _ _ => rfl, ?_⟩
      · simp [sink, hend]
      · simp [place, hp]
    | cons q L =>
      obtain ⟨hq, hq0, hrest'⟩ := linked_cons.1 hrest
      obtain ⟨⟨d, k⟩, Q, rfl, hqe, hLe⟩ := List.map_eq_cons_iff.1 hL.symm
      have hk : (T q).jiffies = k := (congrArg Prod.snd hqe).symm
      have hpq : p ≠ q := fun e => (List.nodup_cons.1 hnodup).1 (e ▸ List.mem_cons_self)
      have hqL : q ∉ L := (List.nodup_cons.1 (List.nodup_cons.1 hnodup).2).1
      have hpL : p ∉ L := fun h => (List.nodup_cons.1 hnodup).1 (List.mem_cons_of_mem _ h)
      by_cases hkj : k < j
      · have hcond : (T p).next ≠ 0 ∧ (T (T p).next).jiffies < (T p).jiffies := by
          rw [hq, hk, hj]
          exact ⟨hq0, hkj⟩
        have hsame : ∀ b ∈ L, exchange T p b = T b := fun b hb =>
          exchange_other (fun e => hpL (e ▸ hb)) (fun e => hqL (hq ▸ e ▸ hb))
        obtain ⟨T', hT', hnext, hout, hent⟩ :=
            ih (T := exchange T p) (p := q) (L := L) (j := j - k) (Q := Q) (by
            refine linked_cons.2 ⟨rfl, hq0, ?_⟩
            rw [exchange_next]
            exact hrest'.congr fun b _ => exchange_next T p b)
          (List.nodup_cons.1 hnodup).2 (Nat.lt_of_succ_lt_succ hn)
          (by
            have := entry_exchange_next T p
            rw [hq, hk, hj, hfn] at this
            exact this)
          (by
            rw [hLe]
            exact List.map_congr_left fun b hb => by rw [entry, entry, hsame b hb])
        refine ⟨T', ?_, ?_, ?_, ?_⟩
        · rw [sink, if_pos hcond, hq, hT']
        · intro b
          rw [hnext, exchange_next]
        · intro b hb
          have hbp : b ≠ p := fun e => hb (e ▸ List.mem_cons_self)
          have hbq : b ∉ q :: L := fun h => hb (List.mem_cons_of_mem _ h)
          rw [hout b hbq, exchange_other hbp fun e => hbq (hq ▸ e ▸ List.mem_cons_self)]
        · have hpe : entry T' p = held (d, k) := by
            have hpout : T' p = exchange T p p := hout p fun h => by
              rcases List.mem_cons.1 h with h | h
              · exact hpq h
              · exact hpL h
            have := entry_exchange_self (T := T) (p := p) (hq ▸ hpq)
            rw [hq] at this
            rw [entry, hpout]
            exact this.trans hqe.symm
          rw [List.map_cons, hent, hpe, place, if_pos hkj, List.map_cons]
      · refine ⟨T, ?_, fun _ => rfl, fun _ _ => rfl, ?_⟩
        · rw [sink, if_neg]
          rw [hq, hk, hj]
          exact fun h => hkj h.2
        · simp only [place, if_neg hkj, List.map_cons, hp, hqe, hLe]

/-! ### The clock refines the agenda -/

/-- The slots from `p` on are `L`, they are the used ones, and they hold the entries of `Q`. -/
structure Chain (T : ℕ → Timer F) (p : ℕ) (L : List ℕ) (Q : List (Call F × ℤ)) : Prop where
  linked : Linked (fun b => (T b).next) p L
  nodup : L.Nodup
  used : ∀ b, b ∈ L ↔ (0 < b ∧ b ≤ TIME_REQUESTS) ∧ (T b).fn ≠ none
  entries : L.map (entry T) = Q.map held

/-- The clock shows the agenda. -/
def Shows (s : Clock F) (a : Agenda F) : Prop :=
  (∃ L, Chain s.timer_list s.next_timer L a.queue) ∧ s.log = a.log

theorem Chain.length_eq (h : Chain T p L Q) : L.length = Q.length := by
  simpa using congrArg List.length h.entries

theorem Chain.nil (h : Chain T p L []) : p = 0 := by
  obtain rfl : L = [] := List.map_eq_nil_iff.1 h.entries
  exact h.linked

/-- The first slot of a chain that is not empty. -/
theorem Chain.cons {e : Call F × ℤ} (h : Chain T p L (e :: Q)) :
    p ≠ 0 ∧ entry T p = held e ∧ ∃ l, L = p :: l ∧ l.map (entry T) = Q.map held := by
  obtain ⟨b, l, rfl, hb, hl⟩ := List.map_eq_cons_iff.1 h.entries
  obtain ⟨rfl, hp, -⟩ := linked_cons.1 h.linked
  exact ⟨hp, hb, l, rfl, hl⟩

theorem findFree_some (h : findFree T = some p) : (0 < p ∧ p ≤ TIME_REQUESTS) ∧ (T p).fn = none := by
  have hp := List.mem_of_find?_eq_some h
  have hfree : (T p).fn = none := by
    simpa using List.find?_some (p := fun b => (T b).fn.isNone) h
  rw [List.mem_range'_1] at hp
  exact ⟨by omega, hfree⟩

/-- A slot is free exactly while fewer than 64 timers are pending. -/
theorem Chain.findFree_isSome (h : Chain T p L Q) : (findFree T).isSome ↔ Q.length < TIME_REQUESTS := by
  rw [← h.length_eq]
  cases hf : findFree T with
  | none =>
    have hall : List.range' 1 TIME_REQUESTS ⊆ L := by
      intro b hb
      have hfn := List.find?_eq_none.1 hf b hb
      rw [List.mem_range'_1] at hb
      refine (h.used b).2 ⟨by omega, fun hn => hfn ?_⟩
      rw [hn]
      rfl
    have hlen := ((List.nodup_range' (n := TIME_REQUESTS)).subperm hall).length_le
    rw [List.length_range'] at hlen
    simpa using hlen
  | some b =>
    obtain ⟨hb, hfree⟩ := findFree_some hf
    have hnot : b ∉ L := fun hm => ((h.used b).1 hm).2 hfree
    have hsub : b :: L ⊆ List.range' 1 TIME_REQUESTS := by
      intro d hd
      rw [List.mem_range'_1]
      rcases List.mem_cons.1 hd with rfl | hd
      · omega
      · have := (h.used d).1 hd
        omega
    have hlen := ((List.nodup_cons.2 ⟨hnot, h.nodup⟩).subperm hsub).length_le
    rw [List.length_range', List.length_cons] at hlen
    simpa using hlen

/-- A new timer comes in front of the chain, in a free slot. -/
theorem Chain.push (h : Chain T p L Q) (hq : findFree T = some q) (t : Timer F) (ht : t.next = p) :
    Linked (fun b => (update T q t b).next) q (q :: L) ∧ (q :: L).Nodup := by
  obtain ⟨hpos, hfree⟩ := findFree_some hq
  have hnot : q ∉ L := fun hm => ((h.used q).1 hm).2 hfree
  refine ⟨h.linked.push (by omega) hnot (by simp [ht]) fun b hb => ?_,
    List.nodup_cons.2 ⟨hnot, h.nodup⟩⟩
  rw [update_of_ne hb]

/-- **`add_timer`** on the table is `add_timer` on the agenda. -/
theorem add_timer_refines (h : Shows s a) (n : ℤ) (f : Option F) :
    Option.Rel Shows (s.add_timer n f) (a.add_timer n f) := by
  obtain ⟨⟨L, hL⟩, hlog⟩ := h
  cases f with
  | none => exact .some ⟨⟨L, hL⟩, hlog⟩
  | some f =>
    simp only [Clock.add_timer, Agenda.add_timer, hlog]
    by_cases hn : n ≤ 0
    · rw [if_pos hn, if_pos hn]
      exact .some ⟨⟨L, hL⟩, rfl⟩
    rw [if_neg hn, if_neg hn]
    cases hfree : findFree s.timer_list with
    | none =>
      have := hL.findFree_isSome
      rw [hfree] at this
      rw [if_neg (by simpa using this)]
      exact .none
    | some q =>
      have hlen : a.queue.length < TIME_REQUESTS := by
        rw [← hL.findFree_isSome, hfree]
        rfl
      have hqfree := (findFree_some hfree).2
      have hnot : q ∉ L := fun hm => ((hL.used q).1 hm).2 hqfree
      obtain ⟨hlink, hnodup⟩ := hL.push hfree
        { jiffies := n, fn := some (a.log.call n f), next := s.next_timer } rfl
      obtain ⟨T', hT', hnext, hout, hent⟩ := sink_spec hlink hnodup (hL.length_eq ▸ hlen)
        (by simp [entry, held]; exact ⟨rfl, rfl⟩)
        (by
          rw [← hL.entries]
          refine List.map_congr_left fun b hb => ?_
          rw [entry, entry, update_of_ne fun (e : b = q) => hnot (e ▸ hb)])
      rw [if_pos hlen]
      simp only [Option.bind_eq_bind, Option.bind_some, hT']
      refine .some ⟨⟨q :: L, ?_, hnodup, ?_, hent⟩, rfl⟩
      · exact hlink.congr fun b _ => hnext b
      · intro b
        by_cases hb : b ∈ q :: L
        · refine iff_of_true hb ⟨?_, ?_⟩
          · rcases List.mem_cons.1 hb with rfl | hb
            · exact (findFree_some hfree).1
            · exact ((hL.used b).1 hb).1
          · have hmem : entry T' b ∈ (q :: L).map (entry T') := List.mem_map_of_mem hb
            rw [hent] at hmem
            obtain ⟨e, -, he⟩ := List.mem_map.1 hmem
            rw [show (T' b).fn = some e.1 from (congrArg Prod.fst he).symm]
            exact Option.some_ne_none _
        · refine iff_of_false hb ?_
          have hbq : b ≠ q := fun e => hb (e ▸ List.mem_cons_self)
          show ¬(_ ∧ (T' b).fn ≠ none)
          rw [hout b hb, update_of_ne hbq, ← hL.used]
          exact fun h => hb (List.mem_cons_of_mem _ h)

/-- One tick passes for the head of the chain. -/
theorem count_chain (h : Chain s.timer_list s.next_timer L Q) : Chain s.count s.next_timer L (countDown Q) := by
  cases Q with
  | nil =>
    rw [Clock.count, if_pos h.nil]
    exact h
  | cons e Q =>
    obtain ⟨hp, he, l, rfl, hl⟩ := h.cons
    obtain ⟨c, j⟩ := e
    have hnot : s.next_timer ∉ l := (List.nodup_cons.1 h.nodup).1
    rw [Clock.count, if_neg hp]
    refine ⟨h.linked.congr fun b _ => ?_, h.nodup, fun b => ?_, ?_⟩
    · simp only [update_apply]
      split_ifs with hb
      · rw [hb]
      · rfl
    · rw [h.used b]
      simp only [update_apply]
      split_ifs with hb
      · rw [hb]
      · rfl
    · rw [countDown, List.map_cons, List.map_cons, ← hl]
      congr 1
      · simp only [entry, held, Prod.mk.injEq] at he
        simp only [entry, held, update_self, he]
      · refine List.map_congr_left fun b hb => ?_
        rw [entry, entry, update_of_ne fun (e : b = s.next_timer) => hnot (e ▸ hb)]

/-- The head of the chain is taken off and its slot is free. -/
theorem Chain.pop {e : Call F × ℤ} (h : Chain T p L (e :: Q)) :
    ∃ l, Chain (update T p { T p with fn := none }) (T p).next l Q := by
  obtain ⟨hp, he, l, rfl, hl⟩ := h.cons
  have hnot : p ∉ l := (List.nodup_cons.1 h.nodup).1
  have hne : ∀ b ∈ l, b ≠ p := fun b hb e => hnot (e ▸ hb)
  refine ⟨l, ?_, (List.nodup_cons.1 h.nodup).2, fun b => ?_, ?_⟩
  · exact (linked_cons.1 h.linked).2.2.congr fun b hb => by rw [update_of_ne (hne b hb)]
  · by_cases hb : b = p
    · refine iff_of_false (hb ▸ hnot) fun h => h.2 ?_
      rw [hb, update_self]
    · rw [update_of_ne hb, ← h.used b, List.mem_cons, or_iff_right hb]
  · rw [← hl]
    exact List.map_congr_left fun b hb => by rw [entry, entry, update_of_ne (hne b hb)]

/-- The condition of the loop of `do_timer` on the agenda. -/
theorem Chain.expired_eq (h : Chain s.timer_list s.next_timer L Q) : s.expired = expired Q := by
  cases Q with
  | nil => simp [Clock.expired, expired, h.nil]
  | cons e Q =>
    obtain ⟨hp, he, -⟩ := h.cons
    have hj : (s.timer_list s.next_timer).jiffies = e.2 := congrArg Prod.snd he
    simp [Clock.expired, expired, hp, hj]

/-- **The clock refines the agenda.**  Each step is possible for the table exactly if it is for the
agenda, and does the same; the loop of `add_timer` ends and no null pointer is called. -/
theorem step_refines (h : Shows s a) (e : Event F) : Option.Rel Shows (s.step e) (a.step e) := by
  obtain ⟨⟨L, hL⟩, hlog⟩ := h
  cases e with
  | add n f =>
    simp only [Clock.step, Agenda.step, hlog]
    split_ifs
    · exact .none
    · exact add_timer_refines ⟨⟨L, hL⟩, hlog⟩ n f
  | tick =>
    simp only [Clock.step, Agenda.step, hlog]
    split_ifs
    · exact .none
    · exact .some ⟨⟨L, count_chain hL⟩, rfl⟩
  | expire =>
    simp only [Clock.step, Agenda.step, hL.expired_eq, hlog]
    split_ifs with hc
    · obtain ⟨queue, log⟩ := a
      cases queue with
      | nil => simp [expired] at hc
      | cons e Q =>
        obtain ⟨-, he, -⟩ := hL.cons
        rw [show (s.timer_list s.next_timer).fn = some e.1 from congrArg Prod.fst he]
        exact .some ⟨hL.pop, rfl⟩
    · exact .none
  | resume =>
    simp only [Clock.step, Agenda.step, hlog]
    split_ifs
    · exact .some ⟨⟨L, hL⟩, rfl⟩
    · exact .none
  | leave =>
    simp only [Clock.step, Agenda.step, hL.expired_eq, hlog]
    split_ifs
    · exact .some ⟨⟨L, hL⟩, rfl⟩
    · exact .none

theorem start_shows (h : s.IsStart) : Shows s { queue := [], log := s.log } :=
  ⟨⟨[], h.empty, List.nodup_nil,
    fun b => iff_of_false List.not_mem_nil fun hb => hb.2 (h.free b hb.1.1 hb.1.2), rfl⟩, rfl⟩

/-- **The agenda of a run.**  What the agenda's steps keep holds of an agenda that the clock shows, in
every state that is reached. -/
theorem reach_shows {allowed : Clock F → Event F → Prop} {I : Agenda F → Prop}
    (hstart : ∀ s : Clock F, s.IsStart → I { queue := [], log := s.log })
    (hstep : ∀ (s : Clock F) a e a', Shows s a → allowed s e → I a → a.step e = some a' → I a')
    (h : Reach Clock.IsStart Clock.step allowed s) : ∃ a, Shows s a ∧ I a := by
  induction h with
  | start hs => exact ⟨_, start_shows hs, hstart _ hs⟩
  | @step s s' e _ ha hs ih =>
    obtain ⟨a, hsa, hI⟩ := ih
    have hrel := step_refines hsa e
    rw [hs] at hrel
    cases hstep' : a.step e with
    | none =>
      rw [hstep'] at hrel
      cases hrel
    | some a' =>
      rw [hstep'] at hrel
      cases hrel with
      | some hsa' => exact ⟨a', hsa', hstep s a e a' hsa ha hI hstep'⟩

/-! ### No timer is lost -/

/-- Each registered callback is pending or has been called, and each has its own number. -/
structure Kept (a : Agenda F) : Prop where
  parts : (a.queue.map Prod.fst ++ a.log.called.map Prod.fst).Perm a.log.made
  small : ∀ c ∈ a.log.made, c.id < a.log.made.length
  nodup : (a.log.made.map Call.id).Nodup

theorem place_perm (c : Call F) (j : ℤ) (Q : List (Call F × ℤ)) :
    ((place c j Q).map Prod.fst).Perm (c :: Q.map Prod.fst) := by
  induction Q generalizing j with
  | nil => exact .refl _
  | cons e Q ih =>
    obtain ⟨d, k⟩ := e
    rw [place]
    split_ifs
    · exact ((ih (j - k)).cons d).trans (.swap c d _)
    · exact .refl _

theorem countDown_fst (Q : List (Call F × ℤ)) : (countDown Q).map Prod.fst = Q.map Prod.fst := by
  cases Q <;> rfl

/-- A new registration has a number of its own. -/
theorem Kept.register (h : Kept a) (j : ℤ) (f : F) :
    (∀ d ∈ a.log.call j f :: a.log.made, d.id < a.log.made.length + 1) ∧
      ((a.log.call j f :: a.log.made).map Call.id).Nodup := by
  constructor
  · intro d hd
    rcases List.mem_cons.1 hd with rfl | hd
    · exact Nat.lt_succ_self _
    · exact Nat.lt_succ_of_lt (h.small d hd)
  · refine List.nodup_cons.2 ⟨fun hm => ?_, h.nodup⟩
    obtain ⟨d, hd, hid⟩ := List.mem_map.1 hm
    have hlt := h.small d hd
    rw [hid] at hlt
    exact Nat.lt_irrefl _ hlt

theorem Kept.step {a' : Agenda F} {e : Event F} (h : Kept a) (hs : a.step e = some a') : Kept a' := by
  cases e with
  | add j f =>
    simp only [Agenda.step, Option.ite_none_left_eq_some] at hs
    obtain ⟨-, hs⟩ := hs
    cases f with
    | none =>
      cases hs
      exact h
    | some f =>
      simp only [Agenda.add_timer] at hs
      split_ifs at hs
      · cases hs
        obtain ⟨hsmall, hnodup⟩ := h.register j f
        exact ⟨List.perm_middle.trans (h.parts.cons _), hsmall, hnodup⟩
      · cases hs
        obtain ⟨hsmall, hnodup⟩ := h.register j f
        exact ⟨((place_perm _ j _).append_right _).trans (h.parts.cons _), hsmall, hnodup⟩
  | tick =>
    simp only [Agenda.step, Option.ite_none_left_eq_some] at hs
    obtain ⟨-, hs⟩ := hs
    cases hs
    refine ⟨?_, h.small, h.nodup⟩
    rw [countDown_fst]
    exact h.parts
  | expire =>
    simp only [Agenda.step, Option.ite_none_right_eq_some] at hs
    obtain ⟨-, hs⟩ := hs
    obtain ⟨_ | ⟨⟨c, j⟩, Q⟩, log⟩ := a
    · cases hs
    · cases hs
      exact ⟨List.perm_middle.trans h.parts, h.small, h.nodup⟩
  | resume =>
    simp only [Agenda.step, Option.ite_none_right_eq_some] at hs
    obtain ⟨-, hs⟩ := hs
    cases hs
    exact ⟨h.parts, h.small, h.nodup⟩
  | leave =>
    simp only [Agenda.step, Option.ite_none_right_eq_some] at hs
    obtain ⟨-, hs⟩ := hs
    cases hs
    exact ⟨h.parts, h.small, h.nodup⟩

theorem start_kept (h : s.IsStart) : Kept ({ queue := [], log := s.log } : Agenda F) :=
  ⟨by simp [h.called, h.made], by simp [h.made], by simp [h.made]⟩

/-- The callbacks on the chain are those of the agenda. -/
theorem Chain.calls (h : Chain T p L Q) : L.filterMap (fun b => (T b).fn) = Q.map Prod.fst := by
  have hfst := congrArg (List.filterMap Prod.fst) h.entries
  rw [List.filterMap_map, List.filterMap_map] at hfst
  refine hfst.trans ?_
  exact congrFun List.filterMap_eq_map Q

/-- **No timer is lost or fired twice.**  In every run the slots chained from `next_timer` are the
slots with a callback, each once and without a cycle; and each callback that was registered, once
for each registration, either is on the chain or has been called. -/
theorem no_timer_lost (h : Reach Clock.IsStart Clock.step (fun _ _ => True) s) :
    ∃ L, Linked (fun b => (s.timer_list b).next) s.next_timer L ∧ L.Nodup ∧
      (∀ b, b ∈ L ↔ (0 < b ∧ b ≤ TIME_REQUESTS) ∧ (s.timer_list b).fn ≠ none) ∧
      (L.filterMap (fun b => (s.timer_list b).fn) ++ s.log.called.map Prod.fst).Perm s.log.made ∧
      (s.log.made.map Call.id).Nodup := by
  obtain ⟨a, ⟨⟨L, hL⟩, hlog⟩, hkept⟩ := reach_shows (I := Kept) (fun _ => start_kept)
    (fun _ _ _ _ _ _ hk hs => hk.step hs) h
  refine ⟨L, hL.linked, hL.nodup, hL.used, ?_, hlog ▸ hkept.nodup⟩
  rw [hL.calls, hlog]
  exact hkept.parts

/-- The clock when the system starts. -/
def Clock.initial : Clock ℕ :=
  { timer_list := fun _ => { jiffies := 0, fn := none, next := 0 }
    next_timer := 0
    log := { ticks := 0, looping := false, calls := 0, made := [], called := [] } }

theorem initial_isStart : Clock.initial.IsStart :=
  ⟨fun _ _ _ => rfl, rfl, rfl, rfl, rfl, rfl⟩

/-- The state after a run from the start. -/
theorem initial_reach {allowed : Clock ℕ → Event ℕ → Prop} {s : Clock ℕ} {es : List (Event ℕ)}
    (ha : Along Clock.step allowed Clock.initial es) (hs : exec Clock.step Clock.initial es = some s) :
    Reach Clock.IsStart Clock.step allowed s :=
  Reach.exec (.start initial_isStart) ha hs

/-- Two timers, of which the first one's callback adds a third. -/
theorem no_timer_lost_three : ∃ s, exec Clock.step Clock.initial
        [.add 2 (some 7), .add 1 (some 8), .tick, .expire, .add 5 (some 9), .resume] = some s ∧
      ∃ L, Linked (fun b => (s.timer_list b).next) s.next_timer L ∧ L.Nodup ∧
        (∀ b, b ∈ L ↔ (0 < b ∧ b ≤ TIME_REQUESTS) ∧ (s.timer_list b).fn ≠ none) ∧
        (L.filterMap (fun b => (s.timer_list b).fn) ++ s.log.called.map Prod.fst).Perm s.log.made ∧
        (s.log.made.map Call.id).Nodup := by
  have hsome : (exec Clock.step Clock.initial [.add 2 (some 7), .add 1 (some 8), .tick, .expire,
      .add 5 (some 9), .resume]).isSome = true := by rfl
  obtain ⟨s, hs⟩ := Option.isSome_iff_exists.1 hsome
  exact ⟨s, hs, no_timer_lost (initial_reach (along_true _ _) hs)⟩

/-- **The table is a list in the order of time**, whatever is asked of a clock that has just started. -/
theorem clock_refines_agenda (h : s.IsStart) (es : List (Event F)) :
    Option.Rel Shows (exec Clock.step s es) (exec Agenda.step ⟨[], s.log⟩ es) :=
  exec_rel (fun _ _ e hsa => step_refines hsa e) (start_shows h) es

/-- Two timers, of which the second one is due first and called. -/
def earlierSecond : List (Event ℕ) := [.add 2 (some 7), .add 1 (some 8), .tick, .expire, .resume]

theorem clock_refines_agenda_initial : ∃ s a, exec Clock.step Clock.initial earlierSecond = some s ∧
    exec Agenda.step ⟨[], Clock.initial.log⟩ earlierSecond = some a ∧
    s.log.called = [(⟨1, 8, 1⟩, 1)] ∧ Shows s a := by
  have hcalled : (exec Clock.step Clock.initial earlierSecond).map (fun s => s.log.called) =
      some [(⟨1, 8, 1⟩, 1)] := by
    rfl
  obtain ⟨s, hs, hlog⟩ := Option.map_eq_some_iff.1 hcalled
  have hrel := clock_refines_agenda initial_isStart earlierSecond
  rw [hs] at hrel
  cases ha : exec Agenda.step ⟨[], Clock.initial.log⟩ earlierSecond with
  | none =>
    rw [ha] at hrel
    cases hrel
  | some a =>
    rw [ha] at hrel
    cases hrel with
    | some hshows => exact ⟨s, a, hs, rfl, hlog, hshows⟩

/-! ### Timers and their ticks -/

/-- Each call has been in the tick it was asked for, and while no `do_timer` is running the timers
that wait are for later ticks. -/
def Log.OnTime (b : Log F) : Prop :=
  (∀ x ∈ b.called, x.2 = x.1.due) ∧
    (b.looping = false → b.calls = 0 → ∀ c ∈ b.made, c ∉ b.called.map Prod.fst → b.ticks < c.due)

/-- A timer is added when all pending ones are due sooner. -/
def addedLast (s : Clock F) : Event F → Bool
  | .add n (some _) =>
    n ≤ 0 || (List.range' 1 TIME_REQUESTS).all fun b =>
      (s.timer_list b).fn.all fun c => (c.due : ℤ) < s.log.ticks + n
  | _ => true

/-- **A timer that is late.**  A timer for two ticks is pending when one for one tick is added; two
ticks later it has not been called. -/
theorem earlier_timer_is_late :
    ¬∀ s : Clock ℕ, Reach Clock.IsStart Clock.step (fun _ _ => True) s → s.log.OnTime := by
  intro hall
  have hlog : (exec Clock.step Clock.initial [.add 2 (some 7), .add 1 (some 8), .tick, .expire,
      .resume, .leave, .tick, .leave]).map Clock.log = some
        { ticks := 2, looping := false, calls := 0, made := [⟨1, 8, 1⟩, ⟨0, 7, 2⟩],
          called := [(⟨1, 8, 1⟩, 1)] } := by rfl
  obtain ⟨s, hs, hb⟩ := Option.map_eq_some_iff.1 hlog
  have hlate := (hall s (initial_reach (along_true _ _) hs)).2
  rw [hb] at hlate
  exact absurd (hlate rfl rfl ⟨0, 7, 2⟩ (by decide) (by decide)) (by decide)

/-- The pending timers are due where the differences say, counted from the tick `t`, and each one
later than the one before it. -/
def Ahead (t low : ℤ) : List (Call F × ℤ) → Prop
  | [] => True
  | (c, j) :: l => low ≤ j ∧ (c.due : ℤ) = t + j ∧ Ahead (t + j) 1 l

theorem Ahead.mono {t low low' : ℤ} (h : Ahead t low Q) (hlow : low' ≤ low) : Ahead t low' Q := by
  cases Q with
  | nil => trivial
  | cons e Q => exact ⟨hlow.trans h.1, h.2⟩

theorem Ahead.countDown {t low : ℤ} (h : Ahead t low Q) : Ahead (t + 1) (low - 1) (countDown Q) := by
  cases Q with
  | nil => trivial
  | cons e Q =>
    obtain ⟨hlow, hdue, hrest⟩ := h
    refine ⟨Int.sub_le_sub_right hlow 1, by rw [hdue]; omega, ?_⟩
    rw [show t + 1 + (e.2 - 1) = t + e.2 by omega]
    exact hrest

/-- A timer that is due after all pending ones takes the last place. -/
theorem Ahead.place {t : ℤ} (h : Ahead t 1 Q) (hj : 1 ≤ j) (hc : (c.due : ℤ) = t + j)
    (hlast : ∀ e ∈ Q, (e.1.due : ℤ) < c.due) : Ahead t 1 (place c j Q) := by
  induction Q generalizing t j with
  | nil => exact ⟨hj, hc, trivial⟩
  | cons e Q ih =>
    obtain ⟨d, k⟩ := e
    obtain ⟨hk, hdue, hrest⟩ := h
    have hlt : (d.due : ℤ) < c.due := hlast (d, k) List.mem_cons_self
    rw [Timers.place, if_pos (by omega)]
    exact ⟨hk, hdue, ih hrest (by omega) (by omega) fun e he => hlast e (List.mem_cons_of_mem _ he)⟩

theorem Ahead.later {t : ℤ} (h : Ahead t 1 Q) {e : Call F × ℤ} (he : e ∈ Q) : t < (e.1.due : ℤ) := by
  induction Q generalizing t with
  | nil => exact absurd he List.not_mem_nil
  | cons d Q ih =>
    obtain ⟨hk, hdue, hrest⟩ := h
    rcases List.mem_cons.1 he with rfl | he
    · omega
    · have := ih hrest he
      omega

/-- The agenda of a run whose timers are added last. -/
structure Timely (a : Agenda F) : Prop where
  ahead : Ahead a.log.ticks (if a.log.looping then 0 else 1) a.queue
  called : ∀ x ∈ a.log.called, x.2 = x.1.due

/-- The condition for adding, on the agenda. -/
theorem addedLast_queue (h : Shows s a) {n : ℤ} {f : F} (hn : 0 < n)
    (hlast : addedLast s (.add n (some f)) = true) :
    ∀ e ∈ a.queue, (e.1.due : ℤ) < a.log.ticks + n := by
  intro e he
  obtain ⟨⟨L, hL⟩, hlog⟩ := h
  have hheld : held e ∈ L.map (entry s.timer_list) := hL.entries ▸ List.mem_map_of_mem he
  obtain ⟨b, hb, hbe⟩ := List.mem_map.1 hheld
  have hfn : (s.timer_list b).fn = some e.1 := congrArg Prod.fst hbe
  have hrange := ((hL.used b).1 hb).1
  simp only [addedLast, Bool.or_eq_true, decide_eq_true_eq, List.all_eq_true] at hlast
  rcases hlast with hle | hall
  · omega
  · have := hall b (List.mem_range'_1.2 (by omega))
    rw [hfn, hlog] at this
    simpa using this

theorem Timely.step {a' : Agenda F} {e : Event F} (h : Timely a) (hsa : Shows s a)
    (hlast : addedLast s e = true) (hs : a.step e = some a') : Timely a' := by
  cases e with
  | add j f =>
    simp only [Agenda.step, Option.ite_none_left_eq_some] at hs
    obtain ⟨hloop, hs⟩ := hs
    cases f with
    | none =>
      cases hs
      exact h
    | some f =>
      simp only [Agenda.add_timer] at hs
      split_ifs at hs with hj
      · cases hs
        refine ⟨h.ahead, fun x hx => ?_⟩
        rcases List.mem_cons.1 hx with rfl | hx
        · show a.log.ticks = a.log.ticks + j.toNat
          omega
        · exact h.called x hx
      · cases hs
        have hahead := h.ahead
        have hdue : ((a.log.call j f).due : ℤ) = a.log.ticks + j := by
          show ((a.log.ticks + j.toNat : ℕ) : ℤ) = _
          omega
        rw [if_neg hloop] at hahead
        refine ⟨?_, h.called⟩
        show Ahead _ (if a.log.looping then 0 else 1) _
        rw [if_neg hloop]
        refine hahead.place (by omega) hdue ?_
        rw [hdue]
        exact addedLast_queue hsa (by omega) hlast
  | tick =>
    simp only [Agenda.step, Option.ite_none_left_eq_some] at hs
    obtain ⟨hloop, hs⟩ := hs
    cases hs
    have hahead := h.ahead
    rw [if_neg hloop] at hahead
    refine ⟨?_, h.called⟩
    have := hahead.countDown
    simpa using this
  | expire =>
    simp only [Agenda.step, Option.ite_none_right_eq_some] at hs
    obtain ⟨⟨hloop, hexp⟩, hs⟩ := hs
    obtain ⟨_ | ⟨⟨c, j⟩, Q⟩, log⟩ := a
    · cases hs
    · cases hs
      have hahead := h.ahead
      rw [if_pos hloop] at hahead
      obtain ⟨hlow, hdue, hrest⟩ := hahead
      have hj : j ≤ 0 := by simpa [expired] using hexp
      obtain rfl : j = 0 := by omega
      rw [add_zero] at hdue hrest
      refine ⟨hrest, fun x hx => ?_⟩
      rcases List.mem_cons.1 hx with rfl | hx
      · exact_mod_cast hdue.symm
      · exact h.called x hx
  | resume =>
    simp only [Agenda.step, Option.ite_none_right_eq_some] at hs
    obtain ⟨⟨hloop, -⟩, hs⟩ := hs
    cases hs
    have hahead := h.ahead
    rw [if_neg hloop] at hahead
    exact ⟨hahead.mono (by simp), h.called⟩
  | leave =>
    simp only [Agenda.step, Option.ite_none_right_eq_some] at hs
    obtain ⟨⟨hloop, hexp⟩, hs⟩ := hs
    cases hs
    have hahead := h.ahead
    rw [if_pos hloop] at hahead
    refine ⟨?_, h.called⟩
    obtain ⟨_ | ⟨⟨c, j⟩, Q⟩, log⟩ := a
    · trivial
    · have hj : ¬j ≤ 0 := by simpa [expired] using hexp
      exact ⟨by simp only; omega, hahead.2⟩

theorem Timely.onTime (h : Timely a) (hk : Kept a) : a.log.OnTime := by
  refine ⟨h.called, fun hloop _ c hc hnot => ?_⟩
  have hahead := h.ahead
  rw [hloop] at hahead
  have hpend : c ∈ a.queue.map Prod.fst := by
    rcases List.mem_append.1 (hk.parts.mem_iff.2 hc) with hm | hm
    · exact hm
    · exact absurd hm hnot
  obtain ⟨e, he, rfl⟩ := List.mem_map.1 hpend
  exact_mod_cast hahead.later he

/-- **Timers fire on time.**  In every run in which a timer is only added when all pending ones are
due sooner, each callback is called during exactly the tick it was asked for. -/
theorem timers_on_time (h : Reach Clock.IsStart Clock.step (fun s e => addedLast s e = true) s) :
    s.log.OnTime := by
  obtain ⟨a, ⟨-, hlog⟩, hkept, htime⟩ := reach_shows (I := fun a => Kept a ∧ Timely a)
    (fun s hs => ⟨start_kept hs, trivial, by simp [hs.called]⟩)
    (fun _ _ _ _ hsa ha hI hs => ⟨hI.1.step hs, hI.2.step hsa ha hs⟩) h
  rw [hlog]
  exact htime.onTime hkept

/-- Two timers added in the order in which they are due. -/
theorem timers_on_time_two : ∃ s, exec Clock.step Clock.initial
        [.add 1 (some 7), .add 2 (some 8), .tick, .expire, .resume, .leave, .tick, .expire] = some s ∧
      s.log.called = [(⟨1, 8, 2⟩, 2), (⟨0, 7, 1⟩, 1)] ∧ s.log.OnTime := by
  have hcalled : (exec Clock.step Clock.initial [.add 1 (some 7), .add 2 (some 8), .tick, .expire,
      .resume, .leave, .tick, .expire]).map (fun s => s.log.called) = some
        [(⟨1, 8, 2⟩, 2), (⟨0, 7, 1⟩, 1)] := by rfl
  obtain ⟨s, hs, hlog⟩ := Option.map_eq_some_iff.1 hcalled
  exact ⟨s, hs, hlog, timers_on_time (initial_reach (along_of_checks (by rfl)) hs)⟩

end OldLinux.Sched.Timers
