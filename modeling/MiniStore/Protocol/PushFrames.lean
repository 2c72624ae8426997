import MiniStore.Protocol.ReplyParser

/-!
# Which arrays are pushes

The parser tells a push from an array by the first item (`event_push_iff`). What it makes of a
call depends on where the call starts: between two replies (`emitted_between`), or behind a
header that still counts lines (`emitted_behind`).
-/

namespace MiniStore

open Text

namespace ReplyParser

/-! ## The three words -/

def PushWord (item : Str) : Prop :=
  item = "message".toList ∨ item = "subscribe".toList ∨ item = "unsubscribe".toList

instance : DecidablePred PushWord := fun item =>
  inferInstanceAs (Decidable (item = _ ∨ item = _ ∨ item = _))

/-- The first item is one of the words. -/
def Announced (items : List Str) : Prop := ∃ word ∈ items.head?, PushWord word

instance (items : List Str) : Decidable (Announced items) :=
  inferInstanceAs (Decidable (∃ word ∈ items.head?, PushWord word))

theorem not_announced_nil : ¬ Announced [] := by
  rintro ⟨word, hword, -⟩
  cases hword

/-- An array that the parser makes a push of. -/
def Pushes : ReplyCall → Prop
  | .array items => Announced items
  | _ => False

theorem not_pushes_of_line {c : ReplyCall} (h : c.lines.length = 1) : ¬ Pushes c := by
  intro hp
  cases c with
  | array items =>
    obtain ⟨word, hword, -⟩ := hp
    cases items with
    | nil => cases hword
    | cons item items => simp [ReplyCall.lines] at h
  | _ => exact hp

def IsPush (e : ParserEvent) : Prop := ∃ items, e = .push (.array items)

theorem announce_isPush {items : List (Option Str)} :
    IsPush (announce items) ↔ ∃ word, items.head? = some (some word) ∧ PushWord word := by
  unfold announce
  split
  · next item rest =>
    split
    · next hw => exact iff_of_true ⟨_, rfl⟩ ⟨item, rfl, hw⟩
    · next hw =>
      refine iff_of_false (fun ⟨_, h⟩ => ParserEvent.noConfusion h) ?_
      rintro ⟨word, hword, h⟩
      obtain rfl := Option.some.inj (Option.some.inj hword)
      exact hw h
  · next hno =>
    refine iff_of_false (fun ⟨_, h⟩ => ParserEvent.noConfusion h) ?_
    rintro ⟨word, hword, -⟩
    cases items with
    | nil => cases hword
    | cons item rest => exact hno word rest (by rw [Option.some.inj hword])

theorem unmark_pushWord {item word : Str} (hw : PushWord word) :
    unmark item = some word ↔ item = word := by
  have hne : word ≠ "(nil)".toList := by
    rintro rfl
    revert hw
    decide
  constructor
  · intro h
    unfold unmark at h
    split at h
    · cases h
    · exact Option.some.inj h
  · rintro rfl
    exact unmark_eq_some.mpr hne

theorem event_isPush (c : ReplyCall) : IsPush (event c) ↔ Pushes c := by
  cases c with
  | array items =>
    refine announce_isPush.trans (exists_congr fun word => and_congr_left fun hw => ?_)
    cases items with
    | nil => exact iff_of_false (Option.not_mem_none _) (Option.not_mem_none _)
    | cons item rest => simp only [List.map_cons, List.head?_cons, Option.some.injEq,
        unmark_pushWord hw, Option.mem_some_iff]
  | _ => exact iff_of_false (fun ⟨_, h⟩ => ParserEvent.noConfusion h) id

/-! ## Where a call starts -/

/-- Behind the text `before`, the text of one call starts between two replies, and the parser
emits it as a push. -/
def EmittedAsPush (before text : Str) : Prop :=
  (fresh.append before).1 = fresh ∧ ∃ e, fresh.append text = (fresh, [e]) ∧ IsPush e

/-- The first array of the text is emitted as a push. -/
def FirstIsPush (text : Str) : Prop := ∃ e rest, (fresh.append text).2 = e :: rest ∧ IsPush e

/-- The first line of the text, without its first character, is one of the words. -/
def OpensWithWord (text : Str) : Prop :=
  ∃ c word rest, PushWord word ∧ text = c :: word ++ (Reply.crlf ++ rest)

theorem append_text {c : ReplyCall} (hc : c.Sendable) :
    fresh.append c.text = (fresh, [event c]) := by
  have hs : ∀ call ∈ [c], call.Sendable := List.forall_mem_singleton.mpr hc
  have h := append_texts hs
  rwa [List.flatMap_singleton] at h

theorem emitted_iff {before : Str} {c : ReplyCall} (hc : c.Sendable) :
    EmittedAsPush before c.text ↔ (fresh.append before).1 = fresh ∧ Pushes c := by
  refine and_congr_right fun _ => ?_
  rw [append_text hc, ← event_isPush]
  constructor
  · rintro ⟨e, he, h⟩
    obtain rfl := (List.cons.inj (Prod.mk.inj he).2).1
    exact h
  · exact fun h => ⟨_, rfl, h⟩

theorem emitted_between {calls : List ReplyCall} (hs : ∀ c ∈ calls, c.Sendable) {c : ReplyCall}
    (hc : c.Sendable) : EmittedAsPush (calls.flatMap ReplyCall.text) c.text ↔ Pushes c := by
  rw [emitted_iff hc, append_texts hs]
  exact and_iff_right rfl

/-! ## Behind a header -/

/-- Lines that a header still counts are kept. -/
theorem feed_pending {n : Nat} : ∀ {lines : List Str} {items : List (Option Str)},
    items.length + lines.length < n → feed ⟨[], true, some (n : Int), items⟩ lines =
      (⟨[], true, some (n : Int), items ++ lines.map parseBulkLine⟩, [])
  | [], items, _ => by rw [List.map_nil, List.append_nil]; rfl
  | line :: lines, items, h => by
    rw [List.length_cons] at h
    have hmore : ¬ (some (n : Int)) = some ((items ++ [parseBulkLine line]).length : Int) := by
      intro he
      have he := Int.ofNat.inj (Option.some.inj he)
      rw [List.length_append, List.length_singleton] at he
      omega
    have hstep : processLine ⟨[], true, some (n : Int), items⟩ line =
        (⟨[], true, some (n : Int), items ++ [parseBulkLine line]⟩, []) := by
      simp only [processLine, if_true, if_neg hmore]
    rw [feed, hstep, feed_pending (by rw [List.length_append, List.length_singleton]; omega)]
    simp

theorem feed_header_pending {n : Nat} {lines : List Str} (h : lines.length < n) :
    feed fresh (Reply.header n :: lines) =
      (⟨[], true, some (n : Int), lines.map parseBulkLine⟩, []) := by
  rw [feed_header (by omega), feed_pending (by rw [List.length_nil]; omega)]
  rfl

/-- The lines after those that a header counts are read on their own. -/
theorem feed_header_done {n : Nat} {lines : List Str} (h : n ≤ lines.length) :
    feed fresh (Reply.header n :: lines) = ((feed fresh (lines.drop n)).1,
      announce ((lines.take n).map parseBulkLine) :: (feed fresh (lines.drop n)).2) := by
  have hsplit : Reply.header n :: lines =
      (Reply.header (lines.take n).length :: lines.take n) ++ lines.drop n := by
    rw [List.cons_append, List.take_append_drop, List.length_take_of_le h]
  rw [hsplit, feed_append, feed_array]
  rfl

/-- The lines of items are read as replies when their header is missing. -/
theorem feed_orphans (items : List Str) : (feed fresh (items.map ('$' :: ·))).1 = fresh := by
  induction items with
  | nil => rfl
  | cons item items ih =>
    have hstep : (fresh.processLine ('$' :: item)).1 = fresh := rfl
    rw [List.map_cons, feed, hstep]
    exact ih

/-- Wherever calls are cut between lines, the parser is ready after the last of them. -/
theorem feed_cut (calls : List ReplyCall) : ∀ k : Nat,
    (feed fresh ((calls.flatMap ReplyCall.lines).drop k)).1 = fresh := by
  induction calls with
  | nil =>
    intro k
    rw [List.flatMap_nil, List.drop_nil]
    rfl
  | cons c calls ih =>
    intro k
    rw [List.flatMap_cons, List.drop_append, feed_append]
    have hfirst : (feed fresh (c.lines.drop k)).1 = fresh := by
      cases k with
      | zero => rw [List.drop_zero, feed_call]
      | succ k =>
        cases c with
        | array items =>
          rw [ReplyCall.lines, List.drop_succ_cons, ← List.map_drop]
          exact feed_orphans _
        | _ => exact congrArg (fun l => (feed fresh l).1) (List.drop_nil (i := k))
    dsimp only
    rw [hfirst]
    exact ih _

section

variable {calls : List ReplyCall} (hs : ∀ c ∈ calls, c.Sendable) {n : Nat}

include hs

theorem append_behind :
    fresh.append (Reply.header n ++ (Reply.crlf ++ calls.flatMap ReplyCall.text)) =
      feed fresh (Reply.header n :: calls.flatMap ReplyCall.lines) := by
  have htext : Reply.header n ++ (Reply.crlf ++ calls.flatMap ReplyCall.text) =
      ReplyCall.ofLines (Reply.header n :: calls.flatMap ReplyCall.lines) := by
    rw [ReplyCall.texts_eq, ← List.append_assoc]
    rfl
  rw [htext]
  exact append_lines (List.forall_mem_cons.mpr
    ⟨Reply.unbroken_header _, ReplyCall.unbroken_flatMap_lines hs⟩)

/-- Behind a header and other calls, a call is a push when the header counts no line of it. -/
theorem emitted_behind {c : ReplyCall} (hc : c.Sendable) :
    EmittedAsPush (Reply.header n ++ (Reply.crlf ++ calls.flatMap ReplyCall.text)) c.text ↔
      n ≤ (calls.flatMap ReplyCall.lines).length ∧ Pushes c := by
  rw [emitted_iff hc, append_behind hs]
  refine and_congr_left fun _ => ?_
  by_cases h : n ≤ (calls.flatMap ReplyCall.lines).length
  · rw [feed_header_done h]
    exact iff_of_true (feed_cut calls n) h
  · rw [feed_header_pending (by omega)]
    exact iff_of_false (fun e => Bool.false_ne_true (congrArg ReplyParser.parsingArray e).symm) h

omit hs in
theorem parseBulkLine_word {line word : Str} (hl : line ≠ []) (hw : PushWord word) :
    parseBulkLine line = some word ↔ ∃ c, line = c :: word := by
  obtain ⟨c, body, rfl⟩ := List.exists_cons_of_ne_nil hl
  have hnil : ¬ c :: word = "$(nil)".toList := by
    intro e
    obtain rfl : word = "(nil)".toList := (List.cons.inj e).2
    revert hw
    decide
  constructor
  · intro h
    unfold parseBulkLine at h
    split at h
    · cases h
    · exact ⟨c, by rw [← Option.some.inj h]; rfl⟩
  · rintro ⟨d, e⟩
    obtain ⟨rfl, rfl⟩ := List.cons.inj e
    exact if_neg hnil

omit hs in
theorem opensWithWord_iff {line : Str} (hl : line ≠ []) (hu : Unbroken line) (rest : Str) :
    OpensWithWord (line ++ (Reply.crlf ++ rest)) ↔ ∃ word, parseBulkLine line = some word ∧
      PushWord word := by
  have hword : ∀ {word : Str}, PushWord word → Unbroken word := by
    rintro word (rfl | rfl | rfl) <;> exact forall_mem_of_all (by decide)
  constructor
  · rintro ⟨c, word, rest', hw, e⟩
    have hc : line.head? = some c := by
      obtain ⟨d, body, rfl⟩ := List.exists_cons_of_ne_nil hl
      exact congrArg some (List.cons.inj e).1
    have hcu : Unbroken (c :: word) := (hword hw).cons (hu c (List.mem_of_mem_head? hc))
    exact ⟨word, (parseBulkLine_word hl hw).mpr ⟨c, (Reply.line_inj hu hcu e).1⟩, hw⟩
  · rintro ⟨word, h, hw⟩
    obtain ⟨c, rfl⟩ := (parseBulkLine_word hl hw).mp h
    exact ⟨c, word, rest, hw, rfl⟩

/-- The array of a header is a push when it is complete and its first line is a word. -/
theorem first_isPush :
    FirstIsPush (Reply.header n ++ (Reply.crlf ++ calls.flatMap ReplyCall.text)) ↔
      n ≠ 0 ∧ n ≤ (calls.flatMap ReplyCall.lines).length ∧
        OpensWithWord (calls.flatMap ReplyCall.text) := by
  have hne : ∀ l ∈ calls.flatMap ReplyCall.lines, l ≠ [] := fun l hl => by
    obtain ⟨c, -, hl⟩ := List.mem_flatMap.mp hl
    exact ReplyCall.ne_nil_of_mem_lines hl
  have hunbroken := ReplyCall.unbroken_flatMap_lines hs
  rw [FirstIsPush, append_behind hs, ReplyCall.texts_eq]
  generalize calls.flatMap ReplyCall.lines = lines at hne hunbroken ⊢
  by_cases h : n ≤ lines.length
  · have hfirst : (∃ e rest, (feed fresh (Reply.header n :: lines)).2 = e :: rest ∧ IsPush e) ↔
        IsPush (announce ((lines.take n).map parseBulkLine)) := by
      rw [feed_header_done h]
      constructor
      · rintro ⟨e, rest, he, hp⟩
        rwa [(List.cons.inj he).1]
      · exact fun hp => ⟨_, _, rfl, hp⟩
    rw [hfirst, announce_isPush, and_iff_right h]
    cases n with
    | zero =>
      refine iff_of_false ?_ fun hno => hno.1 rfl
      rintro ⟨word, hword, -⟩
      cases hword
    | succ n =>
      obtain ⟨line, lines, rfl⟩ :=
        List.exists_cons_of_length_pos (Nat.lt_of_lt_of_le (Nat.succ_pos n) h)
      have htext : ReplyCall.ofLines (line :: lines) =
          line ++ (Reply.crlf ++ ReplyCall.ofLines lines) := by
        rw [ReplyCall.ofLines, List.flatMap_cons, List.append_assoc]
        rfl
      rw [htext,
        opensWithWord_iff (hne line List.mem_cons_self) (hunbroken line List.mem_cons_self),
        and_iff_right (Nat.succ_ne_zero n)]
      simp only [List.take_succ_cons, List.map_cons, List.head?_cons, Option.some.injEq]
  · rw [feed_header_pending (by omega)]
    refine iff_of_false ?_ fun hno => h hno.2.1
    rintro ⟨e, rest, he, -⟩
    cases he

end

end ReplyParser

end MiniStore
