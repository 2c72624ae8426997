import MiniStore.Server.Answers

/-!
# Well-formed answers

The reply to a line is one reply of the grammar, with two exceptions by design: SUBSCRIBE and
UNSUBSCRIBE confirm each channel. There are two more: UNSUBSCRIBE may have no channel to
confirm, and EXEC counts commands in its header where subscriptions give several replies
or none (`well_formed_iff`).
-/

namespace MiniStore

open InMemoryStore Text

namespace CommandHandler

variable {W : Type}

/-- What a reply to the line should be. -/
def WellFormed (h : CommandHandler W) (line : Str) (connection : ClientConnection) (reply : Str) :
    Prop :=
  match (h.route line connection).2 with
  | .answered _ => Reply.Replies 1 reply
  | .direct (.subscribe channels) => 0 < channels.length ∧ Arrays channels.length reply
  | .direct (.unsubscribe channels) => ∃ m ∈ h.pubSubManager,
      0 < (m.targets connection channels).length ∧
        Arrays (m.targets connection channels).length reply
  | .direct _ => Reply.Replies 1 reply
  | .queue items => ∃ inner, reply = Reply.header items.length ++ (Reply.crlf ++ inner) ∧
      Reply.Replies items.length inner

/-- The number of replies that queued commands give, one after the other. -/
def queueFrames (connection : ClientConnection) : PubSubManager → List QueuedCommand → Nat
  | _, [] => 0
  | m, item :: items =>
    frames m connection item.command +
      queueFrames connection (subscriptions m connection item.command) items

/-- UNSUBSCRIBE has a channel to confirm, and the commands of a transaction give as many
replies as they are. -/
def Counted (h : CommandHandler W) (line : Str) (connection : ClientConnection) : Prop :=
  match (h.route line connection).2 with
  | .direct (.unsubscribe []) => h.subscribed connection = true
  | .queue items => ∃ m ∈ h.pubSubManager, queueFrames connection m items = items.length
  | _ => True

/-! ## Gates -/

/-- What is answered at the gates is one reply. -/
theorem isCall_routeTransaction {h : CommandHandler W} {c : Command} {line : Str}
    {connection : ClientConnection} {reply : Str}
    (he : (h.routeTransaction c line connection).2 = .answered reply) : IsCall [] reply := by
  unfold routeTransaction at he
  split at he
  · exact Route.answered.inj he ▸ isCall_error (forall_mem_of_all (by decide))
  · exact Route.answered.inj he ▸ isCall_ok
  · exact Route.answered.inj he ▸ isCall_error (forall_mem_of_all (by decide))
  · cases he
  · exact Route.answered.inj he ▸ isCall_error (forall_mem_of_all (by decide))
  · exact Route.answered.inj he ▸ isCall_ok
  · exact Route.answered.inj he ▸ isCall_okWith (forall_mem_of_all (by decide))
  · cases he

theorem isCall_route {h : CommandHandler W} {line : Str} {connection : ClientConnection}
    {reply : Str} (he : (h.route line connection).2 = .answered reply) : IsCall [] reply := by
  unfold route at he
  split at he
  · next message hp =>
    exact Route.answered.inj he ▸ isCall_error (unbroken_of_parseCommand hp)
  · split at he
    · split at he
      · split at he
        · exact Route.answered.inj he ▸ isCall_ok
        · exact Route.answered.inj he ▸ isCall_error (forall_mem_of_all (by decide))
      · exact Route.answered.inj he ▸ isCall_error (forall_mem_of_all (by decide))
    · split at he
      · exact Route.answered.inj he ▸ isCall_error (forall_mem_of_all (by decide))
      · split at he
        · exact Route.answered.inj he ▸ isCall_error (forall_mem_of_all (by decide))
        · exact isCall_routeTransaction he

theorem replies_of_isCall {items : List Str} {reply : Str} (h : IsCall items reply) :
    Reply.Replies 1 reply := by
  obtain ⟨call, rfl, hs, -⟩ := h
  exact ReplyCall.replies_text hs

end CommandHandler

namespace Server

open CommandHandler

/-! ## Transactions -/

theorem executeQueue_calls (connection : ClientConnection) (clocks : Nat → Clocks) :
    ∀ (items : List QueuedCommand) (i : Nat) {h : CommandHandler AofWriter} {m : PubSubManager},
      h.Quotable → h.pubSubManager = some m →
      (∀ item ∈ items, parseCommand item.line = .ok item.command) → ∀ {results : List Str},
      (h.executeQueue connection clocks items i).2 = some results →
      results.length = items.length ∧ ∃ calls : List ReplyCall,
        results.flatten = calls.flatMap ReplyCall.text ∧
        calls.length = queueFrames connection m items ∧ ∀ call ∈ calls, call.Sendable
  | [], _, _, _, _, _, _, results, he => by
    obtain rfl := Option.some.inj he
    exact ⟨rfl, [], rfl, rfl, fun _ h => absurd h List.not_mem_nil⟩
  | item :: items, i, h, m, H, hm, hp, results, he => by
    obtain ⟨hitem, hrest⟩ := List.forall_mem_cons.mp hp
    have H1 := quotable_execute H hitem connection (clocks i)
    have hm1 := executeCommand_manager hm item.command item.line connection (clocks i)
    have hcalls := @executeCommand_calls _ _ h H m hm _ (wf_of_parseCommand hitem) item.line
      connection (clocks i)
    rw [CommandHandler.executeQueue] at he
    generalize h.executeCommand item.command item.line connection (clocks i) = executed
      at H1 hm1 hcalls he
    rcases executed with ⟨h', _ | reply⟩
    · cases he
    · obtain ⟨results', he', rfl⟩ := Option.map_eq_some_iff.mp he
      obtain ⟨hlen, calls', htext', hcount', hs'⟩ :=
        executeQueue_calls connection clocks items (i + 1) H1 hm1 hrest he'
      obtain ⟨calls, htext, hcount, hs, -⟩ := hcalls rfl
      refine ⟨by rw [List.length_cons, List.length_cons, hlen], calls ++ calls', ?_, ?_, ?_⟩
      · rw [List.flatten_cons, htext, htext', List.flatMap_append]
      · rw [List.length_append, hcount, hcount', queueFrames]
      · exact fun call hc => (List.mem_append.mp hc).elim (hs call) (hs' call)

section

variable {h : CommandHandler AofWriter} (H : h.Quotable) {line : Str}
  {connection : ClientConnection} {clocks : Nat → Clocks} {reply : Str}

include H

/-- The reply of EXEC is well formed when its queue gives as many replies as commands. -/
theorem well_formed_queue {items : List QueuedCommand}
    (hr : (h.route line connection).2 = .queue items)
    (he : (h.handleLine line connection clocks).2 = some reply) :
    WellFormed h line connection reply ↔ Counted h line connection := by
  obtain ⟨m, hm, -⟩ := H.manager
  have H1 := quotable_route H line connection
  have hm1 : (h.route line connection).1.pubSubManager = some m :=
    (h.route_data line connection).2.2.2.trans hm
  rw [handleLine_queue hr] at he
  obtain ⟨results, hresults, rfl⟩ := Option.map_eq_some_iff.mp he
  obtain ⟨hlen, calls, htext, hcount, hs⟩ :=
    executeQueue_calls connection clocks items 0 H1 hm1 (parse_of_queue H.parsed hr) hresults
  have hreplies : Reply.Replies calls.length results.flatten :=
    htext ▸ ReplyCall.replies_texts hs
  have htail : Reply.rawArray results =
      Reply.header items.length ++ (Reply.crlf ++ results.flatten) := by
    rw [Reply.rawArray_eq, hlen]
  rw [WellFormed, Counted, hr]
  constructor
  · rintro ⟨inner, hinner, hwell⟩
    rw [htail] at hinner
    have hsame : results.flatten = inner :=
      List.append_cancel_left (List.append_cancel_left hinner)
    exact ⟨m, hm, by rw [← hcount]; exact hreplies.unique (hsame ▸ hwell)⟩
  · rintro ⟨m', hm', hcounted⟩
    obtain rfl := Option.some.inj (hm.symm.trans hm')
    exact ⟨results.flatten, htail, by rw [← hcounted, ← hcount]; exact hreplies⟩

theorem well_formed_direct {c : Command} (hr : (h.route line connection).2 = .direct c)
    (he : (h.handleLine line connection clocks).2 = some reply) :
    WellFormed h line connection reply ↔ Counted h line connection := by
  obtain ⟨m, hm, -⟩ := H.manager
  have H1 := quotable_route H line connection
  have hm1 : (h.route line connection).1.pubSubManager = some m :=
    (h.route_data line connection).2.2.2.trans hm
  have hc := wf_of_parseCommand (parse_of_direct H.parsed hr)
  rw [handleLine_direct hr] at he
  obtain ⟨calls, rfl, hcount, hs, harrays⟩ :=
    executeCommand_calls H1 hm1 hc line connection (clocks 0) he
  have hone : isSubscriptionCommand c = false → frames m connection c = 1 →
      Reply.Replies 1 (calls.flatMap ReplyCall.text) := fun _ hf => by
    rw [← hf, ← hcount]
    exact ReplyCall.replies_texts hs
  rw [WellFormed, Counted, hr]
  cases c with
  | subscribe channels =>
    have hall := arrays_of_calls fun call hcall => ⟨hs call hcall, harrays rfl call hcall⟩
    rw [hcount] at hall
    exact iff_of_true ⟨List.length_pos_iff.mpr hc.1, hall⟩ trivial
  | unsubscribe channels =>
    have hall := arrays_of_calls fun call hcall => ⟨hs call hcall, harrays rfl call hcall⟩
    rw [hcount] at hall
    have hiff : (∃ m ∈ h.pubSubManager, 0 < (m.targets connection channels).length ∧
        Arrays (m.targets connection channels).length (calls.flatMap ReplyCall.text)) ↔
        0 < (m.targets connection channels).length := by
      constructor
      · rintro ⟨m', hm', hpos, -⟩
        obtain rfl := Option.some.inj (hm.symm.trans hm')
        exact hpos
      · exact fun hpos => ⟨m, hm, hpos, hall⟩
    refine hiff.trans ?_
    cases channels with
    | nil =>
      simp only [PubSubManager.targets, subscribed, hm, Option.any_some, PubSubManager.isSubscribed,
        PubSubManager.channelsOf]
      cases m.connections.get? connection with
      | none => simp
      | some channels => simp
    | cons channel channels =>
      exact iff_of_true (by simp [PubSubManager.targets]) trivial
  | _ => exact iff_of_true (hone rfl rfl) trivial

end

/-- In every state of the process, a line's reply is well formed exactly when its replies
are counted right. -/
theorem well_formed_iff (h0 : CommandHandler AofWriter) (H0 : h0.Quotable) (path : Str)
    (fsyncPolicy : FsyncPolicy) (fs : Fs) (events : List ServerEvent) (line : Str)
    (connection : ClientConnection) (clocks : Nat → Clocks) (reply : Str)
    (he : (((main h0 path fsyncPolicy fs).run events).handler.handleLine line connection
      clocks).2 = some reply) :
    WellFormed ((main h0 path fsyncPolicy fs).run events).handler line connection reply ↔
      Counted ((main h0 path fsyncPolicy fs).run events).handler line connection := by
  have H : ((main h0 path fsyncPolicy fs).run events).handler.Quotable :=
    run_rule quotable_move events ⟨H0.store, H0.parsed, H0.manager⟩
  generalize ((main h0 path fsyncPolicy fs).run events).handler = h at H he ⊢
  cases hr : (h.route line connection).2 with
  | answered made =>
    rw [handleLine_answered hr] at he
    rw [WellFormed, Counted, hr]
    exact iff_of_true (Option.some.inj he ▸ replies_of_isCall (isCall_route hr)) trivial
  | direct c => exact well_formed_direct H hr he
  | queue items => exact well_formed_queue H hr he

theorem quotable_fresh (maxKeys : Nat) (hm : 1 ≤ maxKeys) (pm : Option PersistenceManager)
    (requirepass : Option Str) (disabledCommands : List Str) :
    (CommandHandler.create (W := AofWriter) (InMemoryStore.create maxKeys hm) pm none
      (some PubSubManager.empty) requirepass disabledCommands).Quotable :=
  ⟨quotable_create maxKeys hm, fun _ _ h => (nomatch h), _, rfl, fun _ _ h => nomatch h⟩

def subscribingOnce : List ServerEvent :=
  [send "MULTI", send "RPUSH l a b", send "LRANGE l 0 -1", send "SUBSCRIBE c"]

theorem well_formed_subscribingOnce :
    WellFormed (booted.run subscribingOnce).handler "EXEC".toList ⟨1, "tcp".toList⟩
      "*3\r\n:2\r\n*2\r\n$a\r\n$b\r\n*3\r\n$subscribe\r\n$c\r\n$1\r\n".toList :=
  (well_formed_iff vacant (quotable_fresh 2 (Nat.le_succ 1) _ none []) "aof".toList .no Fs.empty
    subscribingOnce _ _ (fun _ => Clocks.still 0) _ (by decide)).mpr ⟨_, rfl, by decide⟩

def subscribingTwice : List ServerEvent := [send "MULTI", send "SUBSCRIBE a b"]

/-- The header of this EXEC says one reply, and two follow. -/
theorem exec_miscounts_subscriptions :
    ((booted.run subscribingTwice).handler.handleLine "EXEC".toList ⟨1, "tcp".toList⟩ fun _ =>
      Clocks.still 0).2 = some ("*1\r\n*3\r\n$subscribe\r\n$a\r\n$1\r\n".toList ++
        "*3\r\n$subscribe\r\n$b\r\n$2\r\n".toList) ∧
    ¬ WellFormed (booted.run subscribingTwice).handler "EXEC".toList ⟨1, "tcp".toList⟩
      ("*1\r\n*3\r\n$subscribe\r\n$a\r\n$1\r\n".toList ++
        "*3\r\n$subscribe\r\n$b\r\n$2\r\n".toList) := by
  have hreply : ((booted.run subscribingTwice).handler.handleLine "EXEC".toList ⟨1, "tcp".toList⟩
      fun _ => Clocks.still 0).2 = some ("*1\r\n*3\r\n$subscribe\r\n$a\r\n$1\r\n".toList ++
        "*3\r\n$subscribe\r\n$b\r\n$2\r\n".toList) := by decide
  refine ⟨hreply, ?_⟩
  have H0 := quotable_fresh 2 (Nat.le_succ 1) (some (PersistenceManager.create none)) none []
  have H : (booted.run subscribingTwice).handler.Quotable :=
    run_rule quotable_move subscribingTwice ⟨H0.store, H0.parsed, H0.manager⟩
  rw [well_formed_queue H rfl hreply]
  rintro ⟨m, hm, hcount⟩
  cases hm
  revert hcount
  decide

end Server

end MiniStore
