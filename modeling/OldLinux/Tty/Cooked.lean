import OldLinux.Tty.CookSteps

/-!
# `copy_to_cooked` is a line editor

A call of `copy_to_cooked` goes through the read queue until it is empty or the secondary queue is full,
and the secondary queue is then what the line editor makes of its old contents.  The exception is the
console when the echo is the `Z` of an `ESC Z`: `con_write` answers with a call of `copy_to_cooked` of
its own, before the character that is echoed has been stored.

* `consumed`: how far the call comes.
* `cook_outcome`: the whole call next to the editor.
* `cooked_like_editor_iff`: the secondary queue is what the editor makes of it exactly if the echo asks
  for no answer.
-/

namespace OldLinux.Tty.Cooking

open Lib Console

variable {w v : World} {ch : Fin 3} {fs : List Frame} {input text : List ℤ} {ms : List (Mark ℤ)}
  {s s' : World × List Frame} {below : ℤ → ℕ} {t : Termios}

/-! ### The whole call -/

/-- The characters of the input that fit: the queue is full with 1023. -/
def consumed (below : ℤ → ℕ) (t : Termios) : List ℤ → List ℤ → List ℤ
  | [], _ => []
  | x :: input, text =>
    if text.length < 1023 then x :: consumed below t input (typeKeys t.ends text (keys below t [x]))
    else []

theorem keys_append (below : ℤ → ℕ) (t : Termios) (xs ys : List ℤ) :
    keys below t (xs ++ ys) = keys below t xs ++ keys below t ys := by
  rw [keys, List.filterMap_append, List.map_append]
  rfl

theorem typeKeys_append (text : List ℤ) (ks ks' : List (Key ℤ)) :
    typeKeys t.ends text (ks ++ ks') = typeKeys t.ends (typeKeys t.ends text ks) ks' :=
  List.foldl_append

theorem trail_append (text : List ℤ) (ks ks' : List (Key ℤ)) : trail t.ends text (ks ++ ks') =
    trail t.ends text ks ++ trail t.ends (typeKeys t.ends text ks) ks' := by
  induction ks generalizing text with
  | nil => rfl
  | cons k ks ih =>
    rw [List.cons_append, trail, trail, ih, List.append_assoc]
    rfl

theorem consumed_start (below : ℤ → ℕ) (t : Termios) (input text : List ℤ) :
    consumed below t input text <+: input := by
  induction input generalizing text with
  | nil => exact List.prefix_rfl
  | cons x input ih =>
    rw [consumed]
    split_ifs
    · exact (List.prefix_cons_inj x).2 (ih _)
    · exact List.nil_prefix

/-- What is not consumed does not fit. -/
theorem consumed_stops (below : ℤ → ℕ) (t : Termios) (input text : List ℤ) :
    input.drop (consumed below t input text).length = [] ∨
      1023 ≤ (typeKeys t.ends text (keys below t (consumed below t input text))).length := by
  induction input generalizing text with
  | nil => exact .inl rfl
  | cons x input ih =>
    rw [consumed]
    split_ifs with hroom
    · rw [← List.singleton_append, keys_append, typeKeys_append]
      exact ih _
    · exact .inr (Nat.not_lt.1 hroom)

/-- **One round** of the loop. -/
theorem round_outcome {x : ℤ} (fs : List Frame) (h : Rests w ch (x :: input) text ms v)
    (hroom : text.length < 1023) :
    Outcome w ch input (typeKeys (w.termios ch).ends text (keys w.below (w.termios ch) [x]))
      (ms ++ trail (w.termios ch).ends text (keys w.below (w.termios ch) [x]))
      (v, .cook ch .top :: fs) (.cook ch .top :: fs) := by
  have hstep := next_cook v ch .top fs
  obtain ⟨hx, hget⟩ := h.toIs.getch
  have hrests : Rests w ch input text ms (v.upd (read_q ch) Queue.GETCH) := by
    refine ⟨hget, fun h0 => ?_, fun h0 => ?_⟩
    · rw [upd_other (by simp)]
      exact h.room h0
    · rw [upd_other (by simp)]
      exact h.flushed h0
  have hgo : ¬((v.queue (read_q ch)).EMPTY = true ∨ (v.queue (secondary ch)).FULL = true) := by
    rintro (hempty | hfull)
    · have h0 := (Queue.empty_iff (h.wf _)).1 hempty
      have hpos := h.toIs.pos
      omega
    · have h0 := Queue.full_iff.1 hfull
      have hsum := Queue.left_add_chars (v.queue (secondary ch))
      rw [← Queue.chars_length, h.holds] at hsum
      omega
  rw [World.cook, if_neg hgo, hx, h.termios, h.below] at hstep
  cases hrec : received w.below (w.termios ch) x with
  | none =>
    have hkeys : keys w.below (w.termios ch) [x] = [] := by simp [keys, hrec]
    rw [hrec] at hstep
    rw [hkeys, trail, List.append_nil]
    exact hrests.outcome.head (.single hstep)
  | some c =>
    have hkeys : keys w.below (w.termios ch) [x] = [keyOf (w.termios ch) c] := by simp [keys, hrec]
    rw [hrec] at hstep
    rw [hkeys, trail, trail, List.append_nil]
    exact (key_outcome hrests hroom c).head (.single hstep)

/-- **The call next to the editor.** -/
theorem cook_outcome (fs : List Frame) (h : Rests w ch input text ms v) :
    Outcome w ch (input.drop (consumed w.below (w.termios ch) input text).length)
    (typeKeys (w.termios ch).ends text
        (keys w.below (w.termios ch) (consumed w.below (w.termios ch) input text)))
      (ms ++ trail (w.termios ch).ends text
        (keys w.below (w.termios ch) (consumed w.below (w.termios ch) input text)))
      (v, .cook ch .top :: fs) fs := by
  have hstop : (v.queue (read_q ch)).EMPTY = true ∨ (v.queue (secondary ch)).FULL = true →
      Next (v, .cook ch .top :: fs) (v, fs) := by
    intro hor
    have hstep := next_cook v ch .top fs
    rw [World.cook, if_pos hor] at hstep
    exact hstep
  induction input generalizing v text ms with
  | nil =>
    have hempty : (v.queue (read_q ch)).EMPTY = true := by
      rw [Queue.empty_iff (h.wf _), ← Queue.chars_length, h.reads, List.length_nil]
    have hnone : keys w.below (w.termios ch) (consumed w.below (w.termios ch) [] text) = [] := rfl
    rw [hnone, trail, List.append_nil]
    exact h.outcome.head (.single (hstop (.inl hempty)))
  | cons x input ih =>
    rw [consumed]
    split_ifs with hroom
    · rw [← List.singleton_append, keys_append, typeKeys_append, trail_append, ← List.append_assoc]
      refine (round_outcome fs h hroom).bind fun v' hv' => ?_
      refine ih hv' fun hor => ?_
      have hstep := next_cook v' ch .top fs
      rw [World.cook, if_pos hor] at hstep
      exact hstep
    · have hfull : (v.queue (secondary ch)).FULL = true := by
        have hsum := Queue.left_add_chars (v.queue (secondary ch))
        rw [← Queue.chars_length, h.holds] at hsum
        rw [Queue.full_iff]
        omega
      have hnone : keys w.below (w.termios ch) [] = [] := rfl
      rw [hnone, trail, List.append_nil]
      exact h.outcome.head (.single (hstop (.inr hfull)))

/-- The keys that the call handles. -/
def handled (w : World) (ch : Fin 3) : List (Key ℤ) :=
  keys w.below (w.termios ch)
    (consumed w.below (w.termios ch) (w.queue (read_q ch)).chars (w.queue (secondary ch)).chars)

/-- What the call types and removes. -/
def trailOf (w : World) (ch : Fin 3) : List (Mark ℤ) :=
  trail (w.termios ch).ends (w.queue (secondary ch)).chars (handled w ch)

/-- The call comes to `v`: it has taken characters from the read queue and nothing else, until that is
empty or the secondary queue is full; the secondary queue is what the editor makes of it, and finished
lines are as they were. -/
structure Edited (w v : World) (ch : Fin 3) : Prop where
  taken : (w.queue (read_q ch)).chars =
    consumed w.below (w.termios ch) (w.queue (read_q ch)).chars (w.queue (secondary ch)).chars ++
      (v.queue (read_q ch)).chars
  given : (v.queue (read_q ch)).put = (w.queue (read_q ch)).put
  stops : (v.queue (read_q ch)).EMPTY = true ∨ (v.queue (secondary ch)).FULL = true
  edited : (v.queue (secondary ch)).chars = typeKeys (w.termios ch).ends
    (w.queue (secondary ch)).chars (handled w ch)
  kept : finished (w.termios ch).ends (w.queue (secondary ch)).chars <+: (v.queue (secondary ch)).chars

/-- The call begins. -/
theorem rests_start (hwf : ∀ i, (w.queue i).Wf) (hroom : ch = 0 → 2 ≤ (w.queue (write_q ch)).LEFT) :
    Rests w ch (w.queue (read_q ch)).chars (w.queue (secondary ch)).chars [] w := by
  have hsent : sentFor (w.termios ch) [] = [] := by
    rw [sentFor]
    split_ifs <;> rfl
  refine ⟨⟨hwf, rfl, rfl, rfl, rfl, rfl, ?_, fun h0 => ⟨[], ?_, rfl, not_asks_nil w⟩⟩, fun h0 => ?_,
    fun _ _ hne => absurd rfl hne⟩
  · rw [hsent, List.append_nil]
  · rw [hsent, List.append_nil, List.nil_append]
  · have hleft := hroom h0
    subst h0
    have hsum := Queue.left_add_chars (w.queue (write_q 0))
    omega

theorem edited_of_rests (h : Rests w ch ((w.queue (read_q ch)).chars.drop
      (consumed w.below (w.termios ch) (w.queue (read_q ch)).chars (w.queue (secondary ch)).chars).length)
      (typeKeys (w.termios ch).ends (w.queue (secondary ch)).chars (handled w ch)) ms v) :
    Edited w v ch := by
  have hstart := consumed_start w.below (w.termios ch) (w.queue (read_q ch)).chars
    (w.queue (secondary ch)).chars
  refine ⟨?_, h.given, ?_, h.holds, ?_⟩
  · rw [h.reads]
    exact (List.prefix_iff_eq_append.1 hstart).symm
  · have hchars := h.holds
    rcases consumed_stops w.below (w.termios ch) (w.queue (read_q ch)).chars
      (w.queue (secondary ch)).chars with hnil | hfull
    · refine .inl ((Queue.empty_iff (h.wf _)).2 ?_)
      rw [← Queue.chars_length, h.reads, hnil, List.length_nil]
    · refine .inr (Queue.full_iff.2 ?_)
      have hsum := Queue.left_add_chars (v.queue (secondary ch))
      rw [← Queue.chars_length, hchars, handled] at hsum
      omega
  · rw [h.holds]
    exact finished_typeKeys_text _ _

/-- Where the call has gone through, the echo has asked for no answer. -/
theorem Rests.not_asks (h : Rests w 0 input text ms v) : ¬EchoAsks w ms := by
  rintro ⟨hecho, hne, hasks⟩
  obtain ⟨done, hall, -, hno⟩ := h.shown rfl
  rw [h.flushed rfl hecho hne, List.append_nil] at hall
  rw [hall] at hasks
  exact hno hasks

/-! ### An answer -/

theorem put_upd {f : Queue → Queue} (hf : ∀ q : Queue, q.put <+: (f q).put) (w : World) (i j : Qid) :
    (w.queue i).put <+: ((w.upd j f).queue i).put := by
  by_cases hij : i = j
  · rw [hij, upd_self]
    exact hf _
  · rw [upd_other hij]

theorem put_count (w : World) (ch : Fin 3) (c n : ℤ) (i : Qid) :
    (w.queue i).put <+: ((w.count ch c n).queue i).put := by
  rw [World.count]
  split_ifs
  · exact put_upd (f := fun q => { q with data := q.data + n }) (fun q => List.prefix_rfl) w i _
  · exact List.prefix_rfl

theorem put_cookChar (w : World) (ch : Fin 3) (c : ℤ) (i : Qid) :
    (w.queue i).put <+: ((w.cookChar ch c).1.queue i).put := by
  simp only [World.cookChar]
  split_ifs
  · exact List.prefix_rfl
  · exact List.prefix_rfl
  · exact List.prefix_rfl
  · exact List.prefix_rfl
  · exact List.prefix_rfl
  · exact List.prefix_rfl
  · exact put_count w ch c 1 i

theorem put_cook (w : World) (ch : Fin 3) (pc : CookPc) (i : Qid) :
    (w.queue i).put <+: ((w.cook ch pc).1.queue i).put := by
  cases pc with
  | top =>
    rw [World.cook]
    split_ifs
    · exact List.prefix_rfl
    · have hget := put_upd (f := Queue.GETCH) (fun q => List.prefix_rfl) w i (read_q ch)
      split
      · exact hget
      · exact hget.trans (put_cookChar _ ch _ i)
  | kill => exact List.prefix_rfl
  | echo cs a =>
    cases cs with
    | nil => exact List.prefix_rfl
    | cons c cs => exact put_upd (fun q => List.prefix_append _ _) w i _
  | after a =>
    cases a with
    | store c => exact put_upd (fun q => List.prefix_append _ _) w i _
    | del again =>
      refine put_upd (f := Queue.DEC) (fun q => ?_) w i (secondary ch)
      rw [(Queue.dec_history q).2.1]

theorem foldl_putch_put (cs : List ℤ) (q : Queue) : (cs.foldl (fun q c => q.PUTCH c) q).put = q.put ++ cs := by
  induction cs generalizing q with
  | nil => exact (List.append_nil _).symm
  | cons c cs ih =>
    rw [List.foldl_cons, ih, Queue.PUTCH, List.append_assoc]
    rfl

theorem answer_put (q : Queue) : (answer q).put = q.put ++ RESPONSE := foldl_putch_put RESPONSE q

/-- What has been put into a queue stays in its history. -/
theorem put_next (hs : OfConsole s) (hn : Next s s') (i : Qid) : (s.1.queue i).put <+: (s'.1.queue i).put := by
  obtain ⟨w, fs⟩ := s
  cases fs with
  | nil => cases hn
  | cons f fs =>
    rcases next_cases (hs.frames f List.mem_cons_self) hn with ⟨pc, rfl, rfl⟩ | ⟨nr, rfl, rfl⟩ | ⟨rfl, rfl⟩
    · exact put_cook w 0 pc i
    · cases nr with
      | zero => exact List.prefix_rfl
      | succ nr => exact put_upd (f := Queue.GETCH) (fun q => List.prefix_rfl) w i (write_q 0)
    · refine put_upd (f := answer) (fun q => ?_) w i (read_q 0)
      rw [answer_put]
      exact List.prefix_append _ _

theorem put_steps (hs : OfConsole s) (hrun : Steps s s') (i : Qid) :
    (s.1.queue i).put <+: (s'.1.queue i).put := by
  induction hrun with
  | refl => exact List.prefix_rfl
  | tail hrun hn ih => exact ih.trans (put_next (hs.run hrun) hn i)

/-- After an answer the read queue has got more than the call has found there. -/
theorem put_of_answering (hwf : ∀ i, (w.queue i).Wf) (h : Answering w (w, [.cook 0 .top]))
    (hrun : Steps (w, [.cook 0 .top]) (v, [])) :
    (v.queue (read_q 0)).put ≠ (w.queue (read_q 0)).put := by
  obtain ⟨x, gs, hx, hput⟩ := h
  have hstart : OfConsole (w, [.cook 0 .top]) := ⟨hwf, by simp [Frame.ofConsole]⟩
  have hend : Steps (x, .respond :: gs) (v, []) := by
    rcases Relation.ReflTransGen.total_of_right_unique next_unique hx hrun with h' | h'
    · exact h'
    · rcases Relation.ReflTransGen.cases_head h' with heq | ⟨t, ht, -⟩
      · cases heq
      · cases ht
  rcases Relation.ReflTransGen.cases_head hend with heq | ⟨y, hy, hrest⟩
  · cases heq
  · obtain rfl : y = (x.respond.1, .cook 0 .top :: gs) := (Option.some.inj hy).symm
    have hmore := put_steps ((hstart.run hx).next hy) hrest (read_q 0)
    have hanswer : ((x.respond.1.queue (read_q 0))).put = (w.queue (read_q 0)).put ++ RESPONSE := by
      rw [World.respond]
      dsimp only
      rw [upd_self, answer_put, hput]
    intro heq
    rw [hanswer, heq] at hmore
    have hlen := hmore.length_le
    have hseven : RESPONSE.length = 7 := rfl
    rw [List.length_append] at hlen
    omega

theorem not_edited_of_asks (hwf : ∀ i, (w.queue i).Wf) (hroom : ch = 0 → 2 ≤ (w.queue (write_q ch)).LEFT)
    (h : ch = 0 ∧ EchoAsks w (trailOf w ch)) :
    ¬∃ v, Steps (w, [.cook ch .top]) (v, []) ∧ Edited w v ch := by
  obtain ⟨rfl, hasks⟩ := h
  rintro ⟨v, hrun, hedited⟩
  rcases cook_outcome [] (rests_start hwf hroom) with ⟨v', hrun', hrests⟩ | ⟨-, -, hans⟩
  · exact hrests.not_asks hasks
  · exact put_of_answering hwf hans hrun hedited.given

/-- **`copy_to_cooked` is the line editor**, with any settings, contents and positions of the queues,
exactly if its echo does not make the console answer an `ESC Z`. -/
theorem cooked_like_editor_iff (hwf : ∀ i, (w.queue i).Wf) (hroom : 2 ≤ (w.queue (write_q ch)).LEFT) :
    (∃ v, Steps (w, [.cook ch .top]) (v, []) ∧ Edited w v ch) ↔ ¬(ch = 0 ∧ EchoAsks w (trailOf w ch)) := by
  refine ⟨fun hyes hasks => not_edited_of_asks hwf (fun _ => hroom) hasks hyes, fun hno => ?_⟩
  rcases cook_outcome [] (rests_start hwf fun _ => hroom) with ⟨v, hrun, hrests⟩ | ⟨hch, hasks, -⟩
  · exact ⟨v, hrun, edited_of_rests hrests⟩
  · subst hch
    exact absurd ⟨rfl, hasks⟩ hno

/-- A console after boot on which `shown` has been interpreted and `cs` is typed. -/
def typedAt (shown cs : List ℤ) : World :=
  { (World.boot (con_init ⟨0, 0, false, 80, false⟩ fun _ => 0)).upd (read_q 0) (arrive cs) with
    screen := shown.foldl (fun s c => s.con_char 127 c) (con_init ⟨0, 0, false, 80, false⟩ fun _ => 0) }

theorem typedAt_wf (shown cs : List ℤ) (i : Qid) : ((typedAt shown cs).queue i).Wf := by
  have hwf : ∀ j, ((World.boot (con_init ⟨0, 0, false, 80, false⟩ fun _ => 0)).queue j).Wf :=
    fun _ => initial_wf
  exact upd_wf hwf (arrive_wf (hwf (read_q 0)) cs) i

/-- **The editor is left.**  A program has sent an `ESC`, and a `Z` is typed: its echo asks for the
answer, and that is in the secondary queue before the `Z`. -/
theorem echo_asks : ¬∀ (w : World) (ch : Fin 3), (∀ i, (w.queue i).Wf) → 2 ≤ (w.queue (write_q ch)).LEFT →
    ∃ v, Steps (w, [.cook ch .top]) (v, []) ∧ Edited w v ch := by
  intro hall
  have htrail : trailOf (typedAt [27] [90]) 0 = [.typed 90] := by rfl
  refine not_edited_of_asks (typedAt_wf [27] [90]) (fun _ => by decide) ⟨rfl, ?_⟩
    (hall (typedAt [27] [90]) 0 (typedAt_wf [27] [90]) (by decide))
  rw [htrail]
  exact ⟨rfl, List.cons_ne_nil _ _, [], 90, [], rfl, rfl⟩

/-- A letter is typed on a console. -/
theorem cooked_like_editor_letter : ∃ v, Steps (typedAt [] [97], [.cook 0 .top]) (v, []) ∧
    Edited (typedAt [] [97]) v 0 := by
  refine (cooked_like_editor_iff (typedAt_wf [] [97]) (by decide)).2 ?_
  rintro ⟨-, -, -, p, c, s, heq, hasks⟩
  have htrail : trailOf (typedAt [] [97]) 0 = [.typed 97] := by rfl
  rw [htrail] at heq
  have hone : [97] = p ++ c :: s := heq
  rcases List.cons_eq_append_iff.1 hone with ⟨rfl, -⟩ | ⟨p', rfl, hp'⟩
  · cases hasks
  · cases p' <;> cases hp'

end OldLinux.Tty.Cooking
