import OldLinux.Lib.DoublyLinked

/-!
# `buffer_init`

The memory between the end of the kernel and `buffer_end` is divided among the buffers: the heads grow upwards,
and the blocks are taken from above, past the hole between 640 kB and 1 MB.  An address is a number; each member
of `struct buffer_head` is a map from the addresses of the heads.
-/

namespace OldLinux.Cache

open Function Lib

/-- `derefs` is for the proofs: the pointers that `remove_from_queues` and `insert_into_queues` have
followed. -/
structure Mem where
  b_data : ℕ → ℕ
  b_blocknr : ℕ → BitVec 32
  b_dev : ℕ → BitVec 16
  b_uptodate : ℕ → BitVec 8
  b_dirt : ℕ → BitVec 8
  b_count : ℕ → BitVec 8
  b_lock : ℕ → BitVec 8
  b_prev : ℕ → ℕ
  b_next : ℕ → ℕ
  b_prev_free : ℕ → ℕ
  b_next_free : ℕ → ℕ
  hash_table : ℕ → ℕ
  free_list : ℕ
  NR_BUFFERS : ℕ
  derefs : List ℕ

/-- Addresses have 32 bits. -/
def plus (p n : ℕ) : ℕ := (p + n) % 2 ^ 32

def minus (p n : ℕ) : ℕ := (p + (2 ^ 32 - n)) % 2 ^ 32

/-- What one round stores into the head at `h`; its size is 36. -/
def Mem.fill (c : Mem) (h b : ℕ) : Mem :=
  { c with
    b_dev := update c.b_dev h 0
    b_dirt := update c.b_dirt h 0
    b_count := update c.b_count h 0
    b_lock := update c.b_lock h 0
    b_uptodate := update c.b_uptodate h 0
    b_next := update c.b_next h 0
    b_prev := update c.b_prev h 0
    b_data := update c.b_data h b
    b_prev_free := update c.b_prev_free h (minus h 36)
    b_next_free := update c.b_next_free h (plus h 36)
    NR_BUFFERS := c.NR_BUFFERS + 1 }

/-- The loop of `buffer_init`; the result has the value of `h` at its end. -/
def carve : ℕ → Mem → ℕ → ℕ → Option (ℕ × Mem)
  | 0, _, _, _ => none
  | fuel + 1, c, h, b =>
    let b := minus b 1024
    if plus h 36 ≤ b then
      carve fuel (c.fill h b) (plus h 36) (if b = 0x100000 then 0xA0000 else b)
    else some (h, c)

/-- The free list is closed, and the hash queues are empty. -/
def Mem.close (c : Mem) (start_buffer h : ℕ) : Mem :=
  { c with
    free_list := start_buffer
    b_prev_free := update c.b_prev_free start_buffer h
    b_next_free := update c.b_next_free h start_buffer
    hash_table := fun i => if i < 307 then 0 else c.hash_table i }

def buffer_init (fuel : ℕ) (c : Mem) (start_buffer buffer_end : ℕ) : Option Mem :=
  let b := if buffer_end = 1 <<< 20 then 640 * 1024 else buffer_end
  (carve fuel c start_buffer b).map fun r => r.2.close start_buffer (minus r.1 36)

/-! ### The rounds -/

variable {c c' : Mem} {start K N i j fuel buffer_end : ℕ}

def head (start i : ℕ) : ℕ := start + 36 * i

/-- Where `b` is before round `i`, if `K` blocks lie above 1 MB. -/
def top (K i : ℕ) : ℕ := if i < K then 0x100000 + 1024 * (K - i) else 0xA0000 - 1024 * (i - K)

/-- The block that round `i` takes. -/
def block (K i : ℕ) : ℕ := top K i - 1024

theorem block_high (h : i < K) : block K i + 1024 = 0x100000 + 1024 * (K - i) := by
  have htop : top K i = 0x100000 + 1024 * (K - i) := if_pos h
  unfold block
  omega

theorem block_low (h : K ≤ i) : block K i = 0xA0000 - 1024 * (i - K) - 1024 := by
  have htop : top K i = 0xA0000 - 1024 * (i - K) := if_neg (by omega)
  unfold block
  rw [htop]

/-- After a round `b` is where the next one expects it. -/
theorem next_top (h : 0 < block K i) :
    (if block K i = 0x100000 then 0xA0000 else block K i) = top K (i + 1) := by
  rw [top]
  rcases lt_or_ge i K with hi | hi
  · have hblock := block_high hi
    by_cases hlast : i + 1 < K
    · rw [if_neg (by omega), if_pos hlast]
      omega
    · rw [if_pos (by omega), if_neg hlast]
      omega
  · have hblock := block_low hi
    rw [if_neg (by omega), if_neg (by omega)]
    omega

theorem top_pos (h : 0 < block K i) : 1024 ≤ top K (i + 1) := by
  by_cases hlast : i + 1 < K
  · rw [top, if_pos hlast]
    omega
  · rw [top, if_neg hlast]
    rcases lt_or_ge i K with hi | hi
    · omega
    · have hblock := block_low hi
      omega

theorem block_anti (hij : i < j) (h : 0 < block K j) : block K j + 1024 ≤ block K i := by
  rcases lt_or_ge i K with hi | hi
  · have hblock := block_high hi
    rcases lt_or_ge j K with hj | hj
    · have hblock' := block_high hj
      omega
    · have hblock' := block_low hj
      omega
  · have hblock := block_low hi
    have hblock' := block_low (show K ≤ j by omega)
    omega

/-- The head as a round leaves it. -/
structure Fresh (c : Mem) (start K i : ℕ) : Prop where
  dev : c.b_dev (head start i) = 0
  dirt : c.b_dirt (head start i) = 0
  count : c.b_count (head start i) = 0
  lock : c.b_lock (head start i) = 0
  uptodate : c.b_uptodate (head start i) = 0
  next : c.b_next (head start i) = 0
  prev : c.b_prev (head start i) = 0
  data : c.b_data (head start i) = block K i

/-- The state before round `i`. -/
structure Filled (c : Mem) (start K i : ℕ) : Prop where
  count : c.NR_BUFFERS = i
  fresh : ∀ j < i, Fresh c start K j
  next_free : ∀ j < i, c.b_next_free (head start j) = head start (j + 1)
  prev_free : ∀ j < i, 0 < j → c.b_prev_free (head start j) = head start (j - 1)
  above : ∀ j < i, head start (j + 1) ≤ block K j

theorem head_ne (h : i ≠ j) : head start i ≠ head start j := by
  rw [head, head]
  omega

theorem plus_head (h : head start (i + 1) < 2 ^ 32) : plus (head start i) 36 = head start (i + 1) := by
  simp only [plus, head] at *
  omega

theorem minus_head (hi : 0 < i) (h : head start i < 2 ^ 32) : minus (head start i) 36 = head start (i - 1) := by
  simp only [minus, head] at *
  omega

theorem minus_top (hlow : 1024 ≤ top K i) (hhigh : top K i < 2 ^ 32) : minus (top K i) 1024 = block K i := by
  unfold minus block
  omega

theorem Filled.fill (h : Filled c start K i) (habove : head start (i + 1) ≤ block K i)
    (hsmall : block K i < 2 ^ 32) : Filled (c.fill (head start i) (block K i)) start K (i + 1) := by
  have hplus : plus (head start i) 36 = head start (i + 1) := plus_head (by omega)
  refine ⟨congrArg (· + 1) h.count, fun j hj => ?_, fun j hj => ?_, fun j hj hpos => ?_, fun j hj => ?_⟩
  · by_cases hji : j = i
    · subst hji
      constructor <;> exact update_self ..
    · have hne : head start j ≠ head start i := head_ne hji
      obtain ⟨h1, h2, h3, h4, h5, h6, h7, h8⟩ := h.fresh j (by omega)
      constructor <;> simp only [Mem.fill, update_of_ne hne, *]
  · by_cases hji : j = i
    · subst hji
      exact (update_self ..).trans hplus
    · exact (update_of_ne (head_ne hji) ..).trans (h.next_free j (by omega))
  · by_cases hji : j = i
    · subst hji
      refine (update_self ..).trans (minus_head hpos ?_)
      simp only [head] at *
      omega
    · exact (update_of_ne (head_ne hji) ..).trans (h.prev_free j (by omega) hpos)
  · by_cases hji : j = i
    · exact hji ▸ habove
    · exact h.above j (by omega)

theorem top_bounds (hK : K < 2 ^ 20) : top K i < 2 ^ 31 := by
  rw [top]
  by_cases h : i < K
  · rw [if_pos h]
    omega
  · rw [if_neg h]
    omega

/-- The rounds end: `b` falls until it meets the heads, and never below 0. -/
theorem carve_filled (h : Filled c start K i) (hfuel : K + 640 < fuel + i) (hlow : 1024 ≤ top K i)
    (hK : K < 2 ^ 20) (hsmall : head start (i + 1) < 2 ^ 32) :
    ∃ N c', carve fuel c (head start i) (top K i) = some (head start N, c') ∧ Filled c' start K N ∧
      i ≤ N ∧ block K N < head start (N + 1) := by
  induction fuel generalizing c i with
  | zero =>
    rw [top, if_neg (by omega)] at hlow
    omega
  | succ fuel ih =>
    have htop := top_bounds (i := i) hK
    have hblock : block K i + 1024 = top K i := Nat.sub_add_cancel hlow
    rw [carve, minus_top hlow (by omega), plus_head hsmall]
    by_cases habove : head start (i + 1) ≤ block K i
    · have hpos : 0 < block K i := by
        rw [head] at habove
        omega
      have hlow' : 1024 ≤ top K (i + 1) := top_pos hpos
      have hhead : head start (i + 1 + 1) < 2 ^ 32 := by
        simp only [head] at *
        omega
      rw [if_pos habove, next_top hpos]
      obtain ⟨N, c', hrun, hN, hle, hend⟩ := ih (h.fill habove (by omega)) (by omega) hlow' hhead
      exact ⟨N, c', hrun, hN, by omega, hend⟩
    · rw [if_neg habove]
      exact ⟨i, c, rfl, h, le_rfl, by omega⟩

/-! ### The result -/

/-- From 1 MB on there are whole blocks, and below 640 kB there is room for their heads and for one more head
with its block. -/
structure Layout (start buffer_end : ℕ) : Prop where
  megabyte : 1 <<< 20 ≤ buffer_end
  dvd : 1024 ∣ buffer_end
  fits : start + 36 * ((buffer_end - 1 <<< 20) / 1024 + 1) + 1024 ≤ 640 * 1024

/-- The heads in the order in which they are made. -/
def heads (start N : ℕ) : List ℕ := (List.range N).map (head start)

/-- What is allotted: an address and a size each. -/
def regions (c : Mem) (start : ℕ) : List (ℕ × ℕ) :=
  (heads start c.NR_BUFFERS).map (·, 36) ++ (heads start c.NR_BUFFERS).map (c.b_data ·, 1024)

def Apart (r s : ℕ × ℕ) : Prop := r.1 + r.2 ≤ s.1 ∨ s.1 + s.2 ≤ r.1

/-- The state that `buffer_init` leaves behind. -/
structure Carved (c : Mem) (start K N : ℕ) : Prop where
  pos : K < N
  count : c.NR_BUFFERS = N
  fresh : ∀ i < N, Fresh c start K i
  next_free : ∀ i < N, c.b_next_free (head start i) = head start ((i + 1) % N)
  prev_free : ∀ i < N, c.b_prev_free (head start ((i + 1) % N)) = head start i
  free : c.free_list = start
  hash : ∀ i < 307, c.hash_table i = 0
  above : head start N ≤ block K (N - 1)

theorem Layout.blocks (h : Layout start buffer_end) :
    ∃ K, K = (buffer_end - 1 <<< 20) / 1024 ∧ buffer_end = 0x100000 + 1024 * K ∧
    head start (K + 1) + 1024 ≤ 0xA0000 := by
  obtain ⟨hmb, hdvd, hfits⟩ := h
  refine ⟨_, rfl, by omega, ?_⟩
  unfold head
  omega

/-- The rounds do not end before a block below 640 kB is taken. -/
theorem last_above (hfits : head start (K + 1) + 1024 ≤ 0xA0000) (hi : i ≤ K) :
    head start (i + 1) ≤ block K i := by
  rcases hi.lt_or_eq with hi | rfl
  · have hblock := block_high hi
    unfold head at *
    omega
  · have hblock := block_low (le_refl i)
    omega

theorem buffer_init_carved (h : Layout start buffer_end) (hc : c.NR_BUFFERS = 0)
    (hfuel : (buffer_end - 1 <<< 20) / 1024 + 640 < fuel) :
    ∃ N c', buffer_init fuel c start buffer_end = some c' ∧
    Carved c' start ((buffer_end - 1 <<< 20) / 1024) N := by
  obtain ⟨K, hK, hend, hfits⟩ := h.blocks
  rw [← hK] at hfuel ⊢
  have hsmall : start + 36 * (K + 1) + 1024 ≤ 0xA0000 := hfits
  have htop : (if buffer_end = 1 <<< 20 then 640 * 1024 else buffer_end) = top K 0 := by
    rw [top]
    by_cases h : 0 < K
    · rw [if_neg (by omega), if_pos h, hend, Nat.sub_zero]
    · rw [if_pos (by omega), if_neg h, Nat.zero_sub, Nat.mul_zero]
  have hzero : Filled c start K 0 :=
    ⟨hc, fun j hj => absurd hj (Nat.not_lt_zero j), fun j hj => absurd hj (Nat.not_lt_zero j),
      fun j hj => absurd hj (Nat.not_lt_zero j), fun j hj => absurd hj (Nat.not_lt_zero j)⟩
  have hlow : 1024 ≤ top K 0 := by
    rw [top]
    split_ifs <;> omega
  obtain ⟨N, c', hrun, hN, -, hlast⟩ := carve_filled hzero hfuel hlow (by omega) (by unfold head; omega)
  have hpos : K < N := by
    by_contra hle
    have habove := last_above hfits (i := N) (by omega)
    omega
  have habove : head start N ≤ block K (N - 1) := by
    have habove := hN.above (N - 1) (by omega)
    rwa [Nat.sub_add_cancel (by omega)] at habove
  have hminus : minus (head start N) 36 = head start (N - 1) := by
    have hbelow := top_bounds (i := N - 1) (show K < 2 ^ 20 by omega)
    unfold block at habove
    exact minus_head (by omega) (by omega)
  have hinit : buffer_init fuel c start buffer_end = some (c'.close start (head start (N - 1))) := by
    rw [buffer_init, htop, ← hminus]
    exact congrArg (Option.map fun r => r.2.close start (minus r.1 36)) hrun
  refine ⟨N, _, hinit, hpos, hN.count, fun i hi => ?_, fun i hi => ?_, fun i hi => ?_, rfl,
    fun i hi => if_pos hi,
    habove⟩
  · obtain ⟨h1, h2, h3, h4, h5, h6, h7, h8⟩ := hN.fresh i hi
    exact ⟨h1, h2, h3, h4, h5, h6, h7, h8⟩
  · show update c'.b_next_free (head start (N - 1)) start (head start i) = head start ((i + 1) % N)
    by_cases hlast : i = N - 1
    · rw [hlast, update_self, Nat.sub_add_cancel (by omega), Nat.mod_self]
      rfl
    · rw [update_of_ne (head_ne hlast), hN.next_free i hi, Nat.mod_eq_of_lt (by omega)]
  · show update c'.b_prev_free (head start 0) (head start (N - 1)) (head start ((i + 1) % N)) = head start i
    by_cases hlast : i = N - 1
    · rw [hlast, Nat.sub_add_cancel (by omega), Nat.mod_self, update_self]
    · rw [Nat.mod_eq_of_lt (by omega), update_of_ne (head_ne (by omega)),
        hN.prev_free (i + 1) (by omega) (by omega)]
      rfl

namespace Carved

theorem block_above (h : Carved c start K N) (hi : i < N) : head start N ≤ block K i ∧ 0 < block K i := by
  have habove := h.above
  have hpos : 0 < head start N := by
    unfold head
    omega
  by_cases hlast : i = N - 1
  · subst hlast
    exact ⟨habove, by omega⟩
  · have hblock := block_anti (K := K) (show i < N - 1 by omega) (by omega)
    omega

/-- The heads and the blocks do not overlap. -/
theorem apart (h : Carved c start K N) : (regions c start).Pairwise Apart := by
  have hblock : ∀ i < N, c.b_data (head start i) = block K i := fun i hi => (h.fresh i hi).data
  rw [regions, heads, h.count, List.map_map, List.map_map, List.pairwise_append, List.pairwise_map,
    List.pairwise_map]
  refine ⟨List.pairwise_lt_range.imp fun hij => Or.inl ?_,
    List.pairwise_lt_range.imp_of_mem fun hi hj hij => Or.inr ?_, ?_⟩
  · simp only [Function.comp, head]
    omega
  · rw [List.mem_range] at hi hj
    simp only [Function.comp, hblock _ hi, hblock _ hj]
    exact block_anti hij (h.block_above hj).2
  · intro r hr s hs
    obtain ⟨i, hi, rfl⟩ := List.mem_map.1 hr
    obtain ⟨j, hj, rfl⟩ := List.mem_map.1 hs
    rw [List.mem_range] at hi hj
    refine Or.inl ?_
    have habove := (h.block_above hj).1
    simp only [Function.comp, hblock j hj]
    unfold head at *
    omega

/-- They lie where there is memory, and the hole is not touched. -/
theorem within (h : Carved c start K N) : ∀ r ∈ regions c start,
    start ≤ r.1 ∧ r.1 + r.2 ≤ 0x100000 + 1024 * K ∧ (r.1 + r.2 ≤ 0xA0000 ∨ 0x100000 ≤ r.1) := by
  have hpos := h.pos
  have hheads := (h.block_above hpos).1
  have hlow := block_low (le_refl K)
  intro r hr
  rw [regions, heads, h.count, List.map_map, List.map_map, List.mem_append, List.mem_map, List.mem_map] at hr
  rcases hr with ⟨i, hi, rfl⟩ | ⟨i, hi, rfl⟩
  · rw [List.mem_range] at hi
    simp only [Function.comp]
    unfold head at *
    omega
  · rw [List.mem_range] at hi
    have habove := (h.block_above hi).1
    simp only [Function.comp, (h.fresh i hi).data]
    rcases lt_or_ge i K with hiK | hiK
    · have hblock := block_high hiK
      unfold head at habove
      omega
    · have hblock := block_low hiK
      unfold head at habove
      omega

/-- Every block from 1 MB on is used. -/
theorem covers (h : Carved c start K N) {a : ℕ} (hlo : 0x100000 ≤ a) (hhi : a < 0x100000 + 1024 * K)
    (ha : 1024 ∣ a) : ∃ b ∈ heads start N, c.b_data b = a := by
  obtain ⟨n, rfl⟩ := ha
  have hpos := h.pos
  refine ⟨head start (1024 + K - 1 - n), List.mem_map.2 ⟨_, List.mem_range.2 (by omega), rfl⟩, ?_⟩
  rw [(h.fresh _ (by omega)).data]
  have hblock := block_high (show 1024 + K - 1 - n < K by omega)
  omega

end Carved

/-- **`buffer_init` divides the memory**: the heads and the blocks lie apart between the end of the kernel and
`buffer_end`, none of them in the hole, all from 1 MB on is used, and the free list goes round all heads. -/
theorem buffer_init_divides_memory (h : Layout start buffer_end) (hc : c.NR_BUFFERS = 0)
    (hfuel : (buffer_end - 1 <<< 20) / 1024 + 640 < fuel) :
    ∃ N c', buffer_init fuel c start buffer_end = some c' ∧ c'.NR_BUFFERS = N ∧
    (regions c' start).Pairwise Apart ∧
      (∀ r ∈ regions c' start, start ≤ r.1 ∧ r.1 + r.2 ≤ buffer_end ∧ (r.1 + r.2 ≤ 0xA0000 ∨ 0x100000 ≤ r.1)) ∧
      (∀ a, 0x100000 ≤ a → a < buffer_end → 1024 ∣ a → ∃ b ∈ heads start N, c'.b_data b = a) ∧
      0 < N ∧ c'.free_list = head start 0 ∧ ∀ i < N, c'.b_next_free (head start i) = head start ((i + 1) % N) ∧
        c'.b_prev_free (head start ((i + 1) % N)) = head start i := by
  obtain ⟨N, c', hinit, hN⟩ := buffer_init_carved h hc hfuel
  obtain ⟨K, hK, hend, -⟩ := h.blocks
  rw [← hK] at hN
  rw [hend]
  have hpos := hN.pos
  exact ⟨N, c', hend ▸ hinit, hN.count, hN.apart, hN.within,
    fun a hlo hhi => hN.covers hlo hhi, by omega, hN.free,
    fun i hi => ⟨hN.next_free i hi, hN.prev_free i hi⟩⟩

/-- Memory that holds zeros. -/
def blank : Mem := ⟨fun _ => 0, fun _ => 0, fun _ => 0, fun _ => 0, fun _ => 0, fun _ => 0,
  fun _ => 0, fun _ => 0,
  fun _ => 0, fun _ => 0, fun _ => 0, fun _ => 0, 0, 0, []⟩

theorem layout_4mb : Layout 0x20000 (4 * 1024 * 1024) := ⟨by decide, by decide, by decide⟩

theorem buffer_init_divides_memory_4mb : ∃ c', buffer_init 4096 blank 0x20000 (4 * 1024 * 1024) = some c' ∧
    (regions c' 0x20000).Pairwise Apart := by
  obtain ⟨-, c', hinit, -, hapart, -⟩ :=
    buffer_init_divides_memory layout_4mb (show blank.NR_BUFFERS = 0 from rfl)
    (show (4 * 1024 * 1024 - 1 <<< 20) / 1024 + 640 < 4096 by decide)
  exact ⟨c', hinit, hapart⟩

end OldLinux.Cache
