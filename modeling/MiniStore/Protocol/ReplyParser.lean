import MiniStore.Protocol.ReplyGrammar

/-!
# ReplyParser

The client's side of the reply format. `append` adds a chunk to the buffer and `pump` takes
complete lines off it; `processLine` keeps one counter for the array it is in.

A fresh parser reads what the builders make back, one event a call, and is fresh again
(`append_texts`). The one thing lost is the difference between a nil and the string
`(nil)` (`round_trip_iff`).
-/

namespace MiniStore

open Text

/-- The type `Reply`. A number is `none` when it is `NaN`. -/
inductive ParsedReply where
  | success (value : Str)
  | bulk (value : Option Str)
  | integer (value : Option Int)
  | array (items : List (Option Str))
  | error (message : Str)
  deriving DecidableEq

/-- What the emitter emits. -/
inductive ParserEvent where
  | reply (reply : ParsedReply)
  | push (reply : ParsedReply)
  | error (unknown : Char)
  deriving DecidableEq

structure ReplyParser where
  buffer : Str
  parsingArray : Bool
  arrayLength : Option Int
  arrayItems : List (Option Str)
  deriving DecidableEq

namespace ReplyParser

def fresh : ReplyParser := ⟨[], false, some 0, []⟩

/-! ## Reading a line -/

/-- The digits at the start, if there are any. -/
def leadingDigits (s : Str) : Option Nat :=
  match s.takeWhile CommandParser.isDigit with
  | [] => none
  | d :: ds => some (CommandParser.digitsValue (d :: ds))

/-- `parseInt(s, 10)`, which is exact for safe integers. -/
def parseInt (s : Str) : Option Int :=
  match s.dropWhile isSpace with
  | '-' :: digits => (leadingDigits digits).map fun n : Nat => -(n : Int)
  | '+' :: digits => (leadingDigits digits).map fun n : Nat => (n : Int)
  | digits => (leadingDigits digits).map fun n : Nat => (n : Int)

def parseBulkLine (line : Str) : Option Str :=
  if line = "$(nil)".toList then none else some line.tail

/-- The messages of Pub/Sub are told from other arrays by their first item. -/
def announce (items : List (Option Str)) : ParserEvent :=
  match items with
  | some item :: _ =>
    if item = "message".toList ∨ item = "subscribe".toList ∨ item = "unsubscribe".toList then
      .push (.array items)
    else .reply (.array items)
  | _ => .reply (.array items)

def processLine (p : ReplyParser) (line : Str) : ReplyParser × List ParserEvent :=
  if p.parsingArray then
    let items := p.arrayItems ++ [parseBulkLine line]
    if p.arrayLength = some (items.length : Int) then
      ({ p with parsingArray := false, arrayItems := [], arrayLength := some 0 }, [announce items])
    else ({ p with arrayItems := items }, [])
  else
    match line with
    | [] => (p, [])
    | '+' :: rest => (p, [.reply (.success rest)])
    | '-' :: rest => (p, [.reply (.error rest)])
    | ':' :: rest => (p, [.reply (.integer (parseInt rest))])
    | '$' :: rest => (p, [.reply (.bulk (parseBulkLine ('$' :: rest)))])
    | '*' :: rest =>
      if parseInt rest = some 0 then (p, [.reply (.array [])])
      else ({ p with parsingArray := true, arrayLength := parseInt rest, arrayItems := [] }, [])
    | c :: _ => (p, [.error c])

theorem processLine_buffer (p : ReplyParser) (b line : Str) :
    processLine { p with buffer := b } line =
      ({ (p.processLine line).1 with buffer := b }, (p.processLine line).2) := by
  unfold processLine
  dsimp only
  split
  · split <;> rfl
  · split
    all_goals first
      | rfl
      | (split <;> rfl)

/-! ## Taking lines off the buffer -/

/-- What is before the first CRLF, and what is after it. -/
def splitLine : Str → Option (Str × Str)
  | '\r' :: '\n' :: rest => some ([], rest)
  | c :: rest => (splitLine rest).map fun split => (c :: split.1, split.2)
  | [] => none

theorem length_of_splitLine : ∀ {s line rest : Str}, splitLine s = some (line, rest) →
    rest.length < s.length := by
  intro s
  fun_induction splitLine s with
  | case1 rest =>
    intro line rest' h
    cases h
    simp only [List.length_cons]
    omega
  | case2 c s _ ih =>
    intro line rest h
    obtain ⟨split, hs, he⟩ := Option.map_eq_some_iff.mp h
    cases he
    have hlt := ih hs
    simp only [List.length_cons]
    omega
  | case3 => exact fun h => nomatch h

def pump (p : ReplyParser) : ReplyParser × List ParserEvent :=
  match _h : splitLine p.buffer with
  | none => (p, [])
  | some (line, rest) =>
    let processed := processLine { p with buffer := rest } line
    let pumped := pump processed.1
    (pumped.1, processed.2 ++ pumped.2)
termination_by p.buffer.length
decreasing_by
  rw [processLine_buffer]
  exact length_of_splitLine _h

def append (p : ReplyParser) (chunk : Str) : ReplyParser × List ParserEvent :=
  pump { p with buffer := p.buffer ++ chunk }

theorem splitLine_line {u : Str} (hu : Unbroken u) (x : Str) :
    splitLine (u ++ (Reply.crlf ++ x)) = some (u, x) := by
  induction u with
  | nil => rfl
  | cons c u ih =>
    obtain ⟨hc, hu⟩ := List.forall_mem_cons.mp hu
    have hne : c ≠ '\r' := by
      rintro rfl
      cases hc
    have hstep : ∀ s, splitLine (c :: s) = (splitLine s).map fun split => (c :: split.1, split.2) := by
      intro s
      rw [splitLine]
      exact fun _ h => absurd h hne
    rw [List.cons_append, hstep, ih hu]
    rfl

def feed : ReplyParser → List Str → ReplyParser × List ParserEvent
  | p, [] => (p, [])
  | p, line :: lines =>
    ((feed (p.processLine line).1 lines).1,
      (p.processLine line).2 ++ (feed (p.processLine line).1 lines).2)

theorem feed_append (lines lines' : List Str) : ∀ p : ReplyParser,
    feed p (lines ++ lines') = ((feed (feed p lines).1 lines').1,
      (feed p lines).2 ++ (feed (feed p lines).1 lines').2) := by
  induction lines with
  | nil => exact fun p => rfl
  | cons line lines ih =>
    intro p
    rw [List.cons_append, feed, ih, feed, List.append_assoc]

theorem pump_none {p : ReplyParser} (h : splitLine p.buffer = none) : p.pump = (p, []) := by
  rw [pump]
  split
  · rfl
  · next hs =>
    rw [h] at hs
    cases hs

theorem pump_some {p : ReplyParser} {line rest : Str}
    (h : splitLine p.buffer = some (line, rest)) :
    p.pump = ((processLine { p with buffer := rest } line).1.pump.1,
      (processLine { p with buffer := rest } line).2 ++
        (processLine { p with buffer := rest } line).1.pump.2) := by
  rw [pump]
  split
  · next hs =>
    rw [h] at hs
    cases hs
  · next hs =>
    obtain ⟨rfl, rfl⟩ := Prod.mk.inj (Option.some.inj (h.symm.trans hs))
    rfl

theorem splitLine_append {s line rest : Str} (h : splitLine s = some (line, rest)) (t : Str) :
    splitLine (s ++ t) = some (line, rest ++ t) := by
  fun_induction splitLine s generalizing line rest with
  | case1 rest' =>
    cases h
    rfl
  | case2 c s hc ih =>
    obtain ⟨split, hs, he⟩ := Option.map_eq_some_iff.mp h
    cases he
    have hstep : splitLine (c :: (s ++ t)) =
        (splitLine (s ++ t)).map fun split => (c :: split.1, split.2) := by
      rw [splitLine]
      rintro rest' rfl e
      -- the CRLF would begin at the last character of `s`
      cases s with
      | nil => cases hs
      | cons d s =>
        obtain ⟨rfl, -⟩ := List.cons.inj e
        exact hc s rfl rfl
    rw [List.cons_append, hstep, ih hs]
    rfl
  | case3 => cases h

/-- More text goes on where the pumping of the text before it has stopped. -/
theorem pump_append (t : Str) : ∀ (n : Nat) {p : ReplyParser}, p.buffer.length = n →
    pump { p with buffer := p.buffer ++ t } =
      ((p.pump.1.append t).1, p.pump.2 ++ (p.pump.1.append t).2) := by
  intro n
  induction n using Nat.strongRecOn with
  | _ n ih =>
    intro p hp
    cases hs : splitLine p.buffer with
    | none =>
      rw [pump_none hs]
      rfl
    | some split =>
      obtain ⟨line, rest⟩ := split
      have hlt := length_of_splitLine hs
      have happend : splitLine ({ p with buffer := p.buffer ++ t } : ReplyParser).buffer =
          some (line, rest ++ t) := splitLine_append hs t
      have hrest : (processLine { p with buffer := rest } line).1.buffer = rest := by
        rw [processLine_buffer]
      have hnext := ih rest.length (by omega)
        (p := (processLine { p with buffer := rest } line).1) (by rw [hrest])
      have hsame : ∀ b, processLine { p with buffer := b } line =
          ({ (processLine { p with buffer := rest } line).1 with buffer := b },
            (processLine { p with buffer := rest } line).2) := fun b => by
        rw [processLine_buffer p b, processLine_buffer p rest]
      rw [hrest] at hnext
      rw [pump_some happend, pump_some hs, hsame (rest ++ t)]
      dsimp only
      rw [hnext, List.append_assoc]

/-- Text that comes in two chunks is read as if it came in one. -/
theorem append_append (p : ReplyParser) (s t : Str) : p.append (s ++ t) =
    (((p.append s).1.append t).1, (p.append s).2 ++ ((p.append s).1.append t).2) := by
  have h := pump_append t _ (p := { p with buffer := p.buffer ++ s }) rfl
  rwa [List.append_assoc] at h

theorem pump_lines (lines : List Str) (hl : ∀ l ∈ lines, Unbroken l) : ∀ p : ReplyParser,
    pump { p with buffer := ReplyCall.ofLines lines } = feed { p with buffer := [] } lines := by
  induction lines with
  | nil => exact fun p => pump_none rfl
  | cons line lines ih =>
    intro p
    obtain ⟨hline, hrest⟩ := List.forall_mem_cons.mp hl
    have hsplit : splitLine (ReplyCall.ofLines (line :: lines)) =
        some (line, ReplyCall.ofLines lines) := by
      rw [ReplyCall.ofLines, List.flatMap_cons, List.append_assoc]
      exact splitLine_line hline _
    have hstep := pump_some (p := { p with buffer := ReplyCall.ofLines (line :: lines) }) hsplit
    simp only [processLine_buffer, ih hrest] at hstep
    rw [hstep, feed, processLine_buffer p [] line]

theorem append_lines {lines : List Str} (hl : ∀ l ∈ lines, Unbroken l) :
    fresh.append (ReplyCall.ofLines lines) = feed fresh lines := pump_lines lines hl fresh

/-! ## Reading the builders -/

theorem leadingDigits_toString (n : Nat) : leadingDigits (toString n).toList = some n := by
  have htake : (toString n).toList.takeWhile CommandParser.isDigit = (toString n).toList :=
    List.takeWhile_eq_self_iff.mpr fun c hc =>
      List.all_eq_true.mp (CommandParser.all_isDigit_toString n) c hc
  rw [leadingDigits, htake]
  split
  · next h => exact absurd h (CommandParser.toString_ne_nil n)
  · next d ds h => rw [← h, CommandParser.digitsValue_toString]

theorem parseInt_digits (n : Nat) : parseInt (toString n).toList = some (n : Int) := by
  obtain ⟨d, ds, hd⟩ := List.exists_cons_of_ne_nil (CommandParser.toString_ne_nil n)
  have hdigit : CommandParser.isDigit d = true :=
    List.all_eq_true.mp (CommandParser.all_isDigit_toString n) d (by rw [hd]; exact List.mem_cons_self)
  have hdrop : (toString n).toList.dropWhile isSpace = (toString n).toList := by
    rw [hd, List.dropWhile_cons, CommandParser.isSpace_of_isDigit hdigit]
    rfl
  have hlead := leadingDigits_toString n
  rw [parseInt, hdrop]
  split
  · next h =>
    obtain ⟨rfl, -⟩ := List.cons.inj (hd.symm.trans h)
    cases hdigit
  · next h =>
    obtain ⟨rfl, -⟩ := List.cons.inj (hd.symm.trans h)
    cases hdigit
  · rw [hlead]
    rfl

theorem parseInt_toString : ∀ n : Int, parseInt (toString n).toList = some n
  | .ofNat n => parseInt_digits n
  | .negSucc n => by
    have hdrop : ('-' :: (toString (n + 1)).toList).dropWhile isSpace =
        '-' :: (toString (n + 1)).toList := rfl
    rw [toList_toString_negSucc, parseInt, hdrop]
    exact congrArg (Option.map fun n : Nat => -(n : Int)) (leadingDigits_toString (n + 1))

/-- The lines of an array, after its header: its last one completes it. -/
theorem feed_items {n : Nat} : ∀ {lines : List Str} {items : List (Option Str)}, lines ≠ [] →
    items.length + lines.length = n →
    feed ⟨[], true, some (n : Int), items⟩ lines =
      (fresh, [announce (items ++ lines.map parseBulkLine)])
  | [], _, hne, _ => absurd rfl hne
  | [line], items, _, hn => by
    have hlast : (some (n : Int)) = some ((items ++ [parseBulkLine line]).length : Int) := by
      rw [List.length_append, ← hn]
      rfl
    simp only [feed, processLine, if_true, if_pos hlast]
    rfl
  | line :: line' :: lines, items, _, hn => by
    have hmore : ¬ (some (n : Int)) = some ((items ++ [parseBulkLine line]).length : Int) := by
      intro h
      have h := Int.ofNat.inj (Option.some.inj h)
      simp only [List.length_append, List.length_cons, List.length_nil] at h hn
      omega
    have hstep : processLine ⟨[], true, some (n : Int), items⟩ line =
        (⟨[], true, some (n : Int), items ++ [parseBulkLine line]⟩, []) := by
      simp only [processLine, if_true, if_neg hmore]
    rw [feed, hstep, feed_items (List.cons_ne_nil _ _) (by
      simp only [List.length_append, List.length_cons, List.length_nil] at hn ⊢
      omega)]
    simp

theorem feed_header {n : Nat} (hn : n ≠ 0) (lines : List Str) :
    feed fresh (Reply.header n :: lines) = feed ⟨[], true, some (n : Int), []⟩ lines := by
  have hne : ¬ some (n : Int) = some 0 := fun h => hn (Int.ofNat.inj (Option.some.inj h))
  have hstep : fresh.processLine (Reply.header n) = (⟨[], true, some (n : Int), []⟩, []) := by
    simp only [processLine, fresh, Reply.header, parseInt_digits, if_neg hne, Bool.false_eq_true,
      if_false]
  rw [feed, hstep]
  rfl

/-- A header that counts the lines after it makes one array of them. -/
theorem feed_array (lines : List Str) : feed fresh (Reply.header lines.length :: lines) =
    (fresh, [announce (lines.map parseBulkLine)]) := by
  cases lines with
  | nil => rfl
  | cons line lines =>
    have hne : line :: lines ≠ [] := List.cons_ne_nil _ _
    rw [feed_header (by simp), feed_items hne (Nat.zero_add _)]
    rfl

/-- What the parser takes a payload for. -/
def unmark (s : Str) : Option Str := if s = "(nil)".toList then none else some s

theorem parseBulkLine_bulk (s : Str) : parseBulkLine ('$' :: s) = unmark s := by
  have hiff : '$' :: s = "$(nil)".toList ↔ s = "(nil)".toList :=
    ⟨fun h => (List.cons.inj h).2, fun h => h ▸ rfl⟩
  simp only [parseBulkLine, unmark, hiff, List.tail_cons]

/-- The data a call sends. -/
def sent : ReplyCall → ParsedReply
  | .ok message => .success message
  | .value v => .bulk (some v)
  | .nil => .bulk none
  | .integer n => .integer (some n)
  | .array items => .array (items.map some)
  | .error message => .error ("ERR ".toList ++ message)
  | .wrongType =>
    .error "WRONGTYPE Operation against a key holding the wrong kind of value".toList

/-- What the parser emits for a call. -/
def event : ReplyCall → ParserEvent
  | .value v => .reply (.bulk (unmark v))
  | .array items => announce (items.map unmark)
  | c => .reply (sent c)

theorem feed_call (c : ReplyCall) : feed fresh c.lines = (fresh, [event c]) := by
  cases c with
  | ok | nil | error | wrongType => rfl
  | value v =>
    have hstep : fresh.processLine ('$' :: v) =
        (fresh, [.reply (.bulk (parseBulkLine ('$' :: v)))]) := rfl
    rw [ReplyCall.lines, feed, hstep, parseBulkLine_bulk]
    rfl
  | integer n =>
    have hstep : fresh.processLine (':' :: (toString n).toList) =
        (fresh, [.reply (.integer (parseInt (toString n).toList))]) := rfl
    rw [ReplyCall.lines, feed, hstep, parseInt_toString]
    rfl
  | array items =>
    have hlen : items.length = (items.map ('$' :: ·)).length := (List.length_map _).symm
    rw [ReplyCall.lines, hlen, feed_array, List.map_map]
    refine congrArg (fun e => (fresh, [e])) (congrArg announce (List.map_congr_left fun s _ => ?_))
    exact parseBulkLine_bulk s

/-- A fresh parser reads the calls, one event each, and is fresh again. -/
theorem append_texts {calls : List ReplyCall} (h : ∀ c ∈ calls, c.Sendable) :
    fresh.append (calls.flatMap ReplyCall.text) = (fresh, calls.map event) := by
  rw [ReplyCall.texts_eq, append_lines (ReplyCall.unbroken_flatMap_lines h)]
  clear h
  induction calls with
  | nil => rfl
  | cons c calls ih => rw [List.flatMap_cons, feed_append, feed_call, ih, List.map_cons]; rfl

/-! ## The round trip -/

/-- The data of an event, whatever its name. -/
def data : ParserEvent → Option ParsedReply
  | .reply r | .push r => some r
  | .error _ => none

/-- One event a call, with the call's data, and the parser is fresh again. -/
def RoundTrips (calls : List ReplyCall) : Prop :=
  ∃ events, fresh.append (calls.flatMap ReplyCall.text) = (fresh, events) ∧
    events.map data = calls.map fun c => some (sent c)

/-- A value or an item reads like the nil marker. -/
def marked : ReplyCall → Bool
  | .value v => v = "(nil)".toList
  | .array items => "(nil)".toList ∈ items
  | _ => false

theorem data_announce (items : List (Option Str)) : data (announce items) = some (.array items) := by
  unfold announce
  split
  · split <;> rfl
  · rfl

theorem unmark_eq_some {s : Str} : unmark s = some s ↔ s ≠ "(nil)".toList := by
  unfold unmark
  by_cases h : s = "(nil)".toList
  · rw [if_pos h]
    exact iff_of_false (nomatch ·) (absurd h)
  · rw [if_neg h]
    exact iff_of_true rfl h

theorem data_event_iff (c : ReplyCall) : data (event c) = some (sent c) ↔ marked c = false := by
  cases c with
  | ok | nil | integer | error | wrongType => exact iff_of_true rfl rfl
  | value v =>
    simp only [event, sent, data, marked, Option.some.injEq, ParsedReply.bulk.injEq,
      unmark_eq_some, decide_eq_false_iff_not, ne_eq]
  | array items =>
    simp only [event, sent, data_announce, marked, Option.some.injEq, ParsedReply.array.injEq,
      decide_eq_false_iff_not, List.map_inj_left, unmark_eq_some]
    exact ⟨fun h hm => h _ hm rfl, fun h s hs he => h (he ▸ hs)⟩

/-- The replies are read back exactly when no payload reads like the nil marker. -/
theorem round_trip_iff (calls : List ReplyCall) (h : ∀ c ∈ calls, c.Sendable) :
    RoundTrips calls ↔ ∀ c ∈ calls, marked c = false := by
  have hiff : RoundTrips calls ↔ calls.map (fun c => data (event c)) =
      calls.map fun c => some (sent c) := by
    rw [RoundTrips, append_texts h]
    constructor
    · rintro ⟨events, he, hd⟩
      obtain ⟨-, rfl⟩ := Prod.mk.inj he
      rwa [List.map_map] at hd
    · intro hd
      exact ⟨_, rfl, by rwa [List.map_map]⟩
  rw [hiff, List.map_inj_left]
  exact forall₂_congr fun c _ => data_event_iff c

def everyKind : List ReplyCall :=
  [.ok "QUEUED".toList, .value "nil".toList, .nil, .integer (-2), .array [], .value [],
    .array ["message".toList, [], "*2".toList], .error "syntax".toList, .wrongType]

theorem round_trip_everyKind : RoundTrips everyKind := by
  have hnil : ∀ i ∈ ([] : List Str), Unbroken i := fun _ h => absurd h List.not_mem_nil
  have hitems : ∀ i ∈ ["message".toList, [], "*2".toList], Unbroken i := by
    simp only [List.forall_mem_cons]
    exact ⟨forall_mem_of_all (by decide), fun _ h => absurd h List.not_mem_nil,
      forall_mem_of_all (by decide), hnil⟩
  refine (round_trip_iff everyKind ?_).mpr (by decide)
  simp only [everyKind, List.forall_mem_cons]
  exact ⟨forall_mem_of_all (by decide), forall_mem_of_all (by decide), trivial, trivial, hnil,
    fun _ h => absurd h List.not_mem_nil, hitems, forall_mem_of_all (by decide), trivial,
    fun _ h => absurd h List.not_mem_nil⟩

/-- A stored string that reads like the nil marker comes back as nil. -/
theorem nil_string_lost :
    (ReplyCall.value "(nil)".toList).Sendable ∧ ¬ RoundTrips [.value "(nil)".toList] := by
  have hs : (ReplyCall.value "(nil)".toList).Sendable := forall_mem_of_all (by decide)
  refine ⟨hs, ?_⟩
  rintro ⟨events, he, hd⟩
  rw [append_texts (List.forall_mem_singleton.mpr hs)] at he
  obtain ⟨-, rfl⟩ := Prod.mk.inj he
  revert hd
  decide

end ReplyParser

end MiniStore
