import MiniStore.Protocol.ReplyParser
import MiniStore.Server.WellFormed
import MiniStore.Store.VolatileDump

/-!
# Replies to EXEC

The server puts the replies of a queue under one header, which counts replies, and the client
counts lines. They agree exactly when every reply is one line: no LRANGE, HGETALL or KEYS
of the queue lists an item at its turn (`exec_decodes_iff`).
-/

namespace MiniStore

open InMemoryStore Text

namespace ReplyParser

/-! ## Counting lines -/

/-- A parser that is in an array emits something, or stays in it. -/
theorem feed_parsing (lines : List Str) : ∀ {p : ReplyParser}, p.parsingArray = true →
    (feed p lines).2 ≠ [] ∨ (feed p lines).1.parsingArray = true := by
  induction lines with
  | nil => exact fun hp => .inr hp
  | cons line lines ih =>
    intro p hp
    by_cases hlast : p.arrayLength = some ((p.arrayItems ++ [parseBulkLine line]).length : Int)
    · refine .inl ?_
      simp only [feed, processLine, hp, if_true, if_pos hlast]
      exact List.cons_ne_nil _ _
    · have hstep : p.processLine line =
          ({ p with arrayItems := p.arrayItems ++ [parseBulkLine line] }, []) := by
        simp only [processLine, hp, if_true, if_neg hlast]
      rw [feed, hstep]
      exact ih hp

/-- Lines that are not empty are never swallowed. -/
theorem feed_fresh {lines : List Str} (hne : lines ≠ []) (hl : ∀ l ∈ lines, l ≠ []) :
    (feed fresh lines).2 ≠ [] ∨ (feed fresh lines).1.parsingArray = true := by
  obtain ⟨line, lines, rfl⟩ := List.exists_cons_of_ne_nil hne
  have hstep : (fresh.processLine line).2 ≠ [] ∨
      (fresh.processLine line).1.parsingArray = true := by
    have hline := hl line List.mem_cons_self
    simp only [processLine, fresh, Bool.false_eq_true, if_false]
    split
    · exact absurd rfl hline
    · exact .inl (List.cons_ne_nil _ _)
    · exact .inl (List.cons_ne_nil _ _)
    · exact .inl (List.cons_ne_nil _ _)
    · exact .inl (List.cons_ne_nil _ _)
    · split
      · exact .inl (List.cons_ne_nil _ _)
      · exact .inr rfl
    · exact .inl (List.cons_ne_nil _ _)
  rw [feed]
  rcases hstep with hstep | hstep
  · exact .inl fun h => hstep (List.append_eq_nil_iff.mp h).1
  · rcases feed_parsing lines hstep with h | h
    · exact .inl fun he => h (List.append_eq_nil_iff.mp he).2
    · exact .inr h

/-- Of a header and at least as many lines as it counts, one event is made when there are no
more of them. -/
theorem feed_counted_iff {n : Nat} {lines : List Str} (hn : n ≤ lines.length)
    (hl : ∀ l ∈ lines, l ≠ []) :
    (∃ e, feed fresh (Reply.header n :: lines) = (fresh, [e])) ↔ lines.length = n := by
  constructor
  · rintro ⟨e, he⟩
    by_contra hne
    obtain ⟨first, rest, rfl, rfl⟩ : ∃ first rest, lines = first ++ rest ∧ first.length = n :=
      ⟨lines.take n, lines.drop n, (List.take_append_drop n lines).symm, List.length_take_of_le hn⟩
    have hrest : rest ≠ [] := by
      rintro rfl
      exact hne (congrArg List.length (List.append_nil first))
    have hmore := feed_fresh hrest fun l hm => hl l (List.mem_append_right _ hm)
    rw [← List.cons_append, feed_append, feed_array] at he
    obtain ⟨hfresh, hevents⟩ := Prod.mk.inj he
    rcases hmore with hmore | hmore
    · exact hmore (List.cons.inj hevents).2
    · rw [hfresh] at hmore
      cases hmore
  · rintro rfl
    exact ⟨_, feed_array lines⟩

/-- What the parser makes of a reply of one line, as an item. -/
def itemOf (reply : Str) : Option Str := (splitLine reply).bind fun split => parseBulkLine split.1

theorem itemOf_text {c : ReplyCall} (hs : c.Sendable) (h1 : c.lines.length = 1) :
    [itemOf c.text] = c.lines.map parseBulkLine := by
  obtain ⟨line, hline⟩ := List.length_eq_one_iff.mp h1
  have hunbroken : Unbroken line := ReplyCall.unbroken_lines hs line (by simp [hline])
  have htext : c.text = line ++ (Reply.crlf ++ []) := by
    rw [ReplyCall.text_eq, hline, ReplyCall.ofLines, List.flatMap_singleton, List.append_nil]
  rw [itemOf, htext, splitLine_line hunbroken, hline]
  rfl

/-- The parser makes one array of the reply, with one item for each of the results, and is
ready for the next reply. -/
def Decodes (results : List Str) (reply : Str) : Prop :=
  ∃ e, fresh.append reply = (fresh, [e]) ∧ data e = some (.array (results.map itemOf))

/-- Replies under one header are read as one array exactly when each is one line. -/
theorem decodes_iff {calls : List ReplyCall} (hs : ∀ c ∈ calls, c.Sendable) :
    Decodes (calls.map ReplyCall.text) (Reply.rawArray (calls.map ReplyCall.text)) ↔
      ∀ c ∈ calls, c.lines.length = 1 := by
  have hpos : ∀ c : ReplyCall, 1 ≤ c.lines.length := fun c => by
    cases c <;> exact Nat.le_add_left 1 _
  have hlines : ∀ l ∈ calls.flatMap ReplyCall.lines, l ≠ [] := by
    intro l hl
    obtain ⟨c, -, hl⟩ := List.mem_flatMap.mp hl
    exact ReplyCall.ne_nil_of_mem_lines hl
  have hcount : calls.length ≤ (calls.flatMap ReplyCall.lines).length ∧
      ((calls.flatMap ReplyCall.lines).length = calls.length ↔
        ∀ c ∈ calls, c.lines.length = 1) := by
    clear hs hlines
    induction calls with
    | nil => exact ⟨Nat.le_refl 0, iff_of_true rfl fun _ h => absurd h List.not_mem_nil⟩
    | cons c calls ih =>
      have h1 := hpos c
      rw [List.flatMap_cons, List.length_append, List.length_cons, List.forall_mem_cons, ← ih.2]
      omega
  have happend : fresh.append (Reply.rawArray (calls.map ReplyCall.text)) =
      feed fresh (Reply.header calls.length :: calls.flatMap ReplyCall.lines) := by
    have htext : Reply.rawArray (calls.map ReplyCall.text) =
        ReplyCall.ofLines (Reply.header calls.length :: calls.flatMap ReplyCall.lines) := by
      rw [Reply.rawArray_eq, List.length_map, ← List.flatMap_def, ReplyCall.texts_eq,
        ← List.append_assoc]
      rfl
    rw [htext]
    exact append_lines (List.forall_mem_cons.mpr
      ⟨Reply.unbroken_header _, ReplyCall.unbroken_flatMap_lines hs⟩)
  rw [← hcount.2, ← feed_counted_iff hcount.1 hlines, Decodes, happend]
  constructor
  · rintro ⟨e, he, -⟩
    exact ⟨e, he⟩
  · rintro ⟨e, he⟩
    have hlen := (feed_counted_iff hcount.1 hlines).mp ⟨e, he⟩
    have hone := hcount.2.mp hlen
    refine ⟨announce ((calls.flatMap ReplyCall.lines).map parseBulkLine), ?_, ?_⟩
    · rw [← hlen, feed_array]
    · rw [data_announce]
      clear happend hcount hlines he hlen
      induction calls with
      | nil => rfl
      | cons c calls ih =>
        obtain ⟨hc, hrest⟩ := List.forall_mem_cons.mp hs
        obtain ⟨h1, hone⟩ := List.forall_mem_cons.mp hone
        have hitems := ParsedReply.array.inj (Option.some.inj (ih hrest hone))
        rw [List.flatMap_cons, List.map_append, ← itemOf_text hc h1, hitems]
        rfl

end ReplyParser

namespace CommandHandler

/-! ## Commands that list -/

/-- LRANGE with elements in its range, HGETALL of a hash that has fields, and KEYS with a key
that is live when it is checked and matches. -/
def Lists (s : InMemoryStore) (now : Clock) : Command → Prop
  | .lrange key start stop => ∃ c ∈ liveAt (now 0) (s.cell key), ∃ l,
      c.value.asList = some l ∧ slice start stop l ≠ []
  | .hgetall key => ∃ c ∈ liveAt (now 0) (s.cell key), ∃ m,
      c.value.asHash = some m ∧ m.entries ≠ []
  | .keys pattern => ∃ i key, s.values.keys[i]? = some key ∧
      (liveAt (now i) (s.cell key)).isSome = true ∧ globMatch pattern key = true
  | _ => False

theorem itemsOf_readAs {s : InMemoryStore} (h : s.Lockstep) {β : Type}
    (payload : StoredValue → Option β) (read : β → List Str) (key : Str) (now : Clock) :
    itemsOf (readAs payload [] read s key now).2 = [] ↔
      ¬ ∃ c ∈ liveAt (now 0) (s.cell key), ∃ b, payload c.value = some b ∧ read b ≠ [] := by
  rw [readAs_eq, h.perform_snd]
  cases liveAt (now 0) (s.cell key) with
  | none => exact iff_of_true rfl fun ⟨_, hc, _⟩ => nomatch hc
  | some c =>
    cases hp : payload c.value with
    | none =>
      simp only [readCell, hp]
      refine iff_of_true rfl ?_
      rintro ⟨c', hc, b, hb, -⟩
      cases hc
      rw [hp] at hb
      cases hb
    | some b =>
      simp only [readCell, hp, itemsOf]
      constructor
      · rintro he ⟨c', hc, b', hb, hne⟩
        cases hc
        obtain rfl := Option.some.inj (hp.symm.trans hb)
        exact hne he
      · intro hno
        by_contra hne
        exact hno ⟨c, rfl, b, hp, hne⟩

open PersistenceManager in
theorem listedAt_eq_nil_iff (test : Str → Bool) (now : Clock) (cells : Str → Option Cell) :
    ∀ (keys : List Str) (i : Nat), listedAt test now cells keys i = [] ↔
      ¬ ∃ j key, keys[j]? = some key ∧ (liveAt (now (i + j)) (cells key)).isSome = true ∧
        test key = true
  | [], i => iff_of_true rfl fun ⟨_, _, h, _⟩ => nomatch h
  | key :: keys, i => by
    have ih := listedAt_eq_nil_iff test now cells keys (i + 1)
    unfold listedAt
    split
    · next hkey =>
      refine iff_of_false (List.cons_ne_nil _ _) fun hno => hno ⟨0, key, rfl, ?_⟩
      exact Bool.and_eq_true_iff.mp hkey
    · next hkey =>
      have hshift : ∀ j, i + 1 + j = i + (j + 1) := fun j => by omega
      simp only [ih, hshift]
      refine not_congr ⟨?_, ?_⟩
      · rintro ⟨j, k, hk, hlive, htest⟩
        exact ⟨j + 1, k, hk, hlive, htest⟩
      · rintro ⟨_ | j, k, hk, hlive, htest⟩
        · obtain rfl := Option.some.inj hk
          exact absurd (Bool.and_eq_true_iff.mpr ⟨hlive, htest⟩) hkey
        · exact ⟨j, k, hk, hlive, htest⟩

theorem listed_eq_nil_iff {s : InMemoryStore} (h : s.Lockstep) (now : Clock) (c : Command) :
    listed s now c = [] ↔ ¬ Lists s now c := by
  cases c with
  | lrange key start stop => exact itemsOf_readAs h _ _ key now
  | hgetall key =>
    refine (itemsOf_readAs h _ _ key now).trans (not_congr ?_)
    refine exists_congr fun c => and_congr_right fun _ => exists_congr fun m =>
      and_congr_right fun _ => not_congr ?_
    cases m.entries with
    | nil => exact iff_of_true rfl rfl
    | cons e rest => exact iff_of_false (List.cons_ne_nil _ _) (List.cons_ne_nil _ _)
  | keys pattern =>
    have hkeys := (PersistenceManager.keysLoop_listedAt (globMatch pattern) now s.values.keys 0 h
      s.values.keys_nodup fun k hk => mem_keys.mp hk).1
    rw [listed, InMemoryStore.keys, hkeys, listedAt_eq_nil_iff]
    simp only [Nat.zero_add, Lists]
  | _ => exact iff_of_true rfl id

variable {W : Type} [AofSink W]

/-- No command of a queue lists anything at its turn. -/
def Flat (connection : ClientConnection) (clocks : Nat → Clocks) :
    CommandHandler W → List QueuedCommand → Nat → Prop
  | _, [], _ => True
  | h, item :: items, i => ¬ Lists h.store (clocks i 0) item.command ∧
      Flat connection clocks (h.executeCommand item.command item.line connection (clocks i)).1
        items (i + 1)

end CommandHandler

namespace Server

open CommandHandler

/-! ## Transactions -/

theorem executeQueue_isCall (connection : ClientConnection) (clocks : Nat → Clocks) :
    ∀ (items : List QueuedCommand) (i : Nat) {h : CommandHandler AofWriter}, h.Clean →
      (∀ item ∈ items, parseCommand item.line = .ok item.command) →
      (∀ item ∈ items, isSubscriptionCommand item.command = false) → ∀ {results : List Str},
      (h.executeQueue connection clocks items i).2 = some results →
      ∃ calls : List ReplyCall, results = calls.map ReplyCall.text ∧
        calls.length = items.length ∧ (∀ call ∈ calls, call.Sendable) ∧
        ((∀ call ∈ calls, call.lines.length = 1) ↔ Flat connection clocks h items i)
  | [], _, _, _, _, _, results, he => by
    obtain rfl := Option.some.inj he
    exact ⟨[], rfl, rfl, fun _ h => absurd h List.not_mem_nil,
      iff_of_true (fun _ h => absurd h List.not_mem_nil) trivial⟩
  | item :: items, i, h, H, hp, hn, results, he => by
    obtain ⟨hitem, hrest⟩ := List.forall_mem_cons.mp hp
    obtain ⟨hnot, hnots⟩ := List.forall_mem_cons.mp hn
    have H1 := clean_execute H hitem connection (clocks i)
    have hcall := @executeCommand_isCall _ _ h H.store _ hnot item.line connection (clocks i)
    rw [Flat, ← listed_eq_nil_iff H.store.lockstep]
    rw [CommandHandler.executeQueue] at he
    generalize h.executeCommand item.command item.line connection (clocks i) = executed
      at H1 hcall he ⊢
    rcases executed with ⟨h', _ | reply⟩
    · cases he
    · obtain ⟨results', he', rfl⟩ := Option.map_eq_some_iff.mp he
      obtain ⟨calls, rfl, hlen, hs, hflat⟩ :=
        executeQueue_isCall connection clocks items (i + 1) H1 hrest hnots he'
      obtain ⟨call, rfl, hsend, hone⟩ := hcall rfl
      refine ⟨call :: calls, rfl, by rw [List.length_cons, List.length_cons, hlen],
        List.forall_mem_cons.mpr ⟨hsend, hs⟩, ?_⟩
      rw [List.forall_mem_cons, hone, hflat]

/-- The reply to an EXEC of these items is decoded: one array, one item a command. -/
def ExecDecodes (h : CommandHandler AofWriter) (line : Str) (connection : ClientConnection)
    (clocks : Nat → Clocks) (items : List QueuedCommand) (reply : Str) : Prop :=
  ∃ results ∈ ((h.route line connection).1.executeQueue connection clocks items 0).2,
    results.length = items.length ∧ ReplyParser.Decodes results reply

/-- In every state of the process, the reply to an EXEC without subscriptions is decoded
exactly when no command of the queue lists anything at its turn. -/
theorem exec_decodes_iff (h0 : CommandHandler AofWriter) (H0 : h0.Clean) (path : Str)
    (fsyncPolicy : FsyncPolicy) (fs : Fs) (events : List ServerEvent) (line : Str)
    (connection : ClientConnection) (clocks : Nat → Clocks) (items : List QueuedCommand)
    (hr : (((main h0 path fsyncPolicy fs).run events).handler.route line connection).2 =
      .queue items)
    (hn : ∀ item ∈ items, isSubscriptionCommand item.command = false) (reply : Str)
    (he : (((main h0 path fsyncPolicy fs).run events).handler.handleLine line connection
      clocks).2 = some reply) :
    ExecDecodes ((main h0 path fsyncPolicy fs).run events).handler line connection clocks items
        reply ↔
      Flat connection clocks
        (((main h0 path fsyncPolicy fs).run events).handler.route line connection).1 items 0 := by
  have H : ((main h0 path fsyncPolicy fs).run events).handler.Clean :=
    run_rule clean_move events ⟨H0.store, H0.parsed⟩
  generalize ((main h0 path fsyncPolicy fs).run events).handler = h at H hr he ⊢
  rw [handleLine_queue hr] at he
  obtain ⟨results, hresults, rfl⟩ := Option.map_eq_some_iff.mp he
  obtain ⟨calls, rfl, hlen, hs, hflat⟩ :=
    executeQueue_isCall connection clocks items 0 (clean_route H line connection)
      (parse_of_queue H.parsed hr) hn hresults
  rw [← hflat, ← ReplyParser.decodes_iff hs]
  constructor
  · rintro ⟨results, hsome, -, hdecodes⟩
    obtain rfl := Option.some.inj (hresults.symm.trans hsome)
    exact hdecodes
  · intro hdecodes
    exact ⟨_, hresults, (List.length_map _).trans hlen, hdecodes⟩

def storing : List ServerEvent := [send "MULTI", send "SET a 1", send "GET a"]

theorem exec_decodes_storing :
    ExecDecodes (booted.run storing).handler "EXEC".toList ⟨1, "tcp".toList⟩ (fun _ => Clocks.still 0)
      [⟨"SET a 1".toList, .set "a".toList "1".toList none⟩, ⟨"GET a".toList, .get "a".toList⟩]
      "*2\r\n+OK\r\n$1\r\n".toList :=
  (exec_decodes_iff vacant (clean_of_quotable (quotable_fresh 2 (Nat.le_succ 1) _ none []))
    "aof".toList .no Fs.empty storing _ _ _ _ (by decide) (by decide) _ (by decide)).mpr
    ⟨id, id, trivial⟩

def listing : List ServerEvent := [send "MULTI", send "RPUSH l a b", send "LRANGE l 0 -1"]

/-- The client takes the header of the list for an item, and its elements for the next replies. -/
theorem exec_splits_lists :
    ∃ items reply, ((booted.run listing).handler.route "EXEC".toList ⟨1, "tcp".toList⟩).2 =
        .queue items ∧
      (∀ item ∈ items, isSubscriptionCommand item.command = false) ∧
      ((booted.run listing).handler.handleLine "EXEC".toList ⟨1, "tcp".toList⟩ fun _ =>
        Clocks.still 0).2 = some reply ∧
      ReplyParser.fresh.append reply = (ReplyParser.fresh,
        [.reply (.array [some "2".toList, some "2".toList]), .reply (.bulk (some "a".toList)),
          .reply (.bulk (some "b".toList))]) ∧
      ¬ ExecDecodes (booted.run listing).handler "EXEC".toList ⟨1, "tcp".toList⟩
        (fun _ => Clocks.still 0) items reply := by
  have hevents : ReplyParser.fresh.append "*2\r\n:2\r\n*2\r\n$a\r\n$b\r\n".toList =
      (ReplyParser.fresh, [.reply (.array [some "2".toList, some "2".toList]),
        .reply (.bulk (some "a".toList)), .reply (.bulk (some "b".toList))]) := by
    have hlines : ∀ l ∈ ["*2".toList, ":2".toList, "*2".toList, "$a".toList, "$b".toList],
        Unbroken l := by
      simp only [List.forall_mem_cons]
      exact ⟨forall_mem_of_all (by decide), forall_mem_of_all (by decide),
        forall_mem_of_all (by decide), forall_mem_of_all (by decide),
        forall_mem_of_all (by decide), fun _ h => absurd h List.not_mem_nil⟩
    exact (ReplyParser.append_lines hlines).trans (by decide)
  refine ⟨[⟨"RPUSH l a b".toList, .rpush "l".toList ["a".toList, "b".toList]⟩,
    ⟨"LRANGE l 0 -1".toList, .lrange "l".toList 0 (-1)⟩], _, by decide, by decide, by decide,
    hevents, ?_⟩
  rintro ⟨results, -, -, e, he, -⟩
  rw [hevents] at he
  exact nomatch (List.cons.inj (Prod.mk.inj he).2).2

end Server

end MiniStore
