import MiniStore.Server.Admission
import MiniStore.Server.Failures
import MiniStore.Server.SubscriberMode

/-!
# Transactions

Between MULTI and EXEC the lines of a connection only fill its queue, whatever others do
(`Holding`), and EXEC is its lines sent one after the other to a handler without the
transaction, up to the first write to the log that throws (`exec_sendAll`).
-/

namespace MiniStore

open InMemoryStore

/-! ## Others' subscriptions -/

namespace PubSubManager

theorem isSubscribed_congr {m m' : PubSubManager} {connection : ClientConnection}
    (h : m'.connections.get? connection = m.connections.get? connection) :
    m'.isSubscribed connection = m.isSubscribed connection := by
  rw [isSubscribed, isSubscribed, h]

section

variable {connection other : ClientConnection} (hne : connection ≠ other) (m : PubSubManager)
  (channels : List Str)

include hne

theorem subscribe_other : (m.subscribe other channels).1.connections.get? connection =
    m.connections.get? connection := by
  rw [subscribe, (subscribeLoop_get? other channels _).1 connection hne, OrdMap.get?_set,
    if_neg hne]

theorem unsubscribe_other : (m.unsubscribe other channels).1.connections.get? connection =
    m.connections.get? connection := by
  unfold unsubscribe
  split
  · rfl
  · next connChannels _ =>
    generalize (if channels.length > 0 then channels else connChannels) = targets
    dsimp only
    split
    · rw [OrdMap.get?_delete, if_neg hne, unsubscribeLoop_get? other hne]
    · exact unsubscribeLoop_get? other hne targets m

theorem removeConnection_other : (m.removeConnection other).connections.get? connection =
    m.connections.get? connection := by
  unfold removeConnection
  split
  · rfl
  · rw [OrdMap.get?_delete, if_neg hne, connections_foldl_leave]

end

theorem isSubscribed_removeConnection {m : PubSubManager} {connection : ClientConnection}
    (h : m.isSubscribed connection = false) (other : ClientConnection) :
    (m.removeConnection other).isSubscribed connection = false := by
  by_cases hne : connection = other
  · unfold removeConnection
    split
    · exact h
    · rw [isSubscribed, OrdMap.get?_delete, if_pos hne]
  · rw [isSubscribed_congr (removeConnection_other hne m), h]

end PubSubManager

namespace CommandHandler

variable {W : Type} [AofSink W]

theorem subscribed_execute (h : CommandHandler W) {connection other : ClientConnection}
    {c : Command} (hc : connection ≠ other ∨ isSubscriptionCommand c = false) (line : Str)
    (clocks : Clocks) : (h.executeCommand c line other clocks).1.subscribed connection =
      h.subscribed connection := by
  rw [subscribed, subscribed, (h.executeCommand_executes c line other clocks).pubSubManager]
  cases h.pubSubManager with
  | none => rfl
  | some m =>
    rw [Option.map_some, Option.any_some, Option.any_some]
    unfold subscriptions
    split
    · exact PubSubManager.isSubscribed_congr
        (PubSubManager.subscribe_other (hc.resolve_right Bool.false_ne_true.symm) m _)
    · exact PubSubManager.isSubscribed_congr
        (PubSubManager.unsubscribe_other (hc.resolve_right Bool.false_ne_true.symm) m _)
    · rfl

/-! ## Back to back -/

/-- A command that an outsider to transactions and subscriptions may send. -/
structure Plain (disabledCommands : List Str) (item : QueuedCommand) : Prop where
  parsed : parseCommand item.line = .ok item.command
  enabled : item.command.name ∉ disabledCommands
  transaction : isTransactionCommand item.command = false
  subscription : isSubscriptionCommand item.command = false

/-- The connection's lines are executed at once. -/
structure Free (h : CommandHandler W) (connection : ClientConnection) : Prop where
  authenticated : h.needsAuth connection = false
  mode : h.subscribed connection = false
  outside : h.transactions.get? connection.id = none

/-- The lines sent one after the other, with their replies. -/
def sendAll (connection : ClientConnection) (clocks : Clocks) :
    CommandHandler W → List Str → CommandHandler W × List (Option Str)
  | h, [] => (h, [])
  | h, line :: lines =>
    match h.handleLine line connection fun _ => clocks with
    | (h, reply) =>
      match sendAll connection clocks h lines with
      | (h, replies) => (h, reply :: replies)

section

variable {h : CommandHandler W} {connection : ClientConnection} {item : QueuedCommand}

theorem handleLine_plain (hf : h.Free connection) (hp : Plain h.disabledCommands item)
    (clocks : Nat → Clocks) :
    h.handleLine item.line connection clocks =
      h.executeCommand item.command item.line connection (clocks 0) := by
  have hroute : h.route item.line connection = (h, .direct item.command) := by
    rw [route]
    simp only [hp.parsed, hf.authenticated, hf.mode, Bool.false_eq_true, if_false, hp.enabled,
      Bool.false_and, routeTransaction_direct hp.transaction hf.outside]
  rw [handleLine, hroute]

theorem Free.execute (hf : h.Free connection) (hp : Plain h.disabledCommands item)
    (clocks : Clocks) :
    Free (h.executeCommand item.command item.line connection clocks).1 connection := by
  have hs := h.executeCommand_executes item.command item.line connection clocks
  refine ⟨?_, ?_, ?_⟩
  · rw [needsAuth, hs.requirepass, hs.authenticated]
    exact hf.authenticated
  · rw [subscribed_execute h (.inr hp.subscription)]
    exact hf.mode
  · rw [hs.transactions]
    exact hf.outside

end

section

variable (connection : ClientConnection) (clocks : Clocks)

/-- A queue that gets all its replies. -/
theorem executeQueue_sendAll : ∀ (items : List QueuedCommand) (i : Nat) {h : CommandHandler W},
    h.Free connection → (∀ item ∈ items, Plain h.disabledCommands item) → ∀ {replies : List Str},
    (sendAll connection clocks h (items.map QueuedCommand.line)).2 = replies.map some →
    h.executeQueue connection (fun _ => clocks) items i =
      ((sendAll connection clocks h (items.map QueuedCommand.line)).1, some replies)
  | [], _, h, _, _, replies, hr => by
    rw [List.map_eq_nil_iff.mp hr.symm]
    rfl
  | item :: items, i, h, hf, hp, replies, hr => by
    obtain ⟨hitem, hrest⟩ := List.forall_mem_cons.mp hp
    have hline := handleLine_plain hf hitem fun _ => clocks
    have hf1 := hf.execute hitem clocks
    have hs := h.executeCommand_executes item.command item.line connection clocks
    simp only [List.map_cons, sendAll, hline] at hr ⊢
    rw [executeQueue]
    generalize h.executeCommand item.command item.line connection clocks = executed
      at hf1 hs hr ⊢
    obtain ⟨h', reply⟩ := executed
    cases replies with
    | nil => cases hr
    | cons r replies =>
      obtain ⟨rfl, hr⟩ := List.cons.inj hr
      dsimp only
      rw [executeQueue_sendAll items (i + 1) hf1 (hs.disabledCommands ▸ hrest) hr]
      rfl

theorem executeQueue_thrown : ∀ (first : List QueuedCommand) (i : Nat) {rest : List QueuedCommand}
    {h : CommandHandler W}, h.Free connection → (∀ item ∈ first, Plain h.disabledCommands item) →
    ∀ {replies : List Str},
    (sendAll connection clocks h (first.map QueuedCommand.line)).2 = replies.map some ++ [none] →
    h.executeQueue connection (fun _ => clocks) (first ++ rest) i =
      ((sendAll connection clocks h (first.map QueuedCommand.line)).1, none)
  | [], _, _, h, _, _, replies, hr => by
    have hlen := congrArg List.length hr
    rw [List.length_append] at hlen
    cases hlen
  | item :: first, i, rest, h, hf, hp, replies, hr => by
    obtain ⟨hitem, hrest⟩ := List.forall_mem_cons.mp hp
    have hline := handleLine_plain hf hitem fun _ => clocks
    have hf1 := hf.execute hitem clocks
    have hs := h.executeCommand_executes item.command item.line connection clocks
    simp only [List.map_cons, sendAll, hline] at hr ⊢
    rw [List.cons_append, executeQueue]
    generalize h.executeCommand item.command item.line connection clocks = executed
      at hf1 hs hr ⊢
    obtain ⟨h', reply⟩ := executed
    cases replies with
    | nil =>
      obtain ⟨rfl, hr⟩ := List.cons.inj hr
      have hnil : first = [] := by
        cases first with
        | nil => rfl
        | cons item first => cases hr
      subst hnil
      rfl
    | cons r replies =>
      obtain ⟨rfl, hr⟩ := List.cons.inj hr
      dsimp only
      rw [executeQueue_thrown first (i + 1) hf1 (hs.disabledCommands ▸ hrest) hr]
      rfl

end

/-! ## The lines in between -/

/-- The connection has a transaction of these lines, which EXEC would execute. -/
structure Holding (connection : ClientConnection) (lines : List Str) (h : CommandHandler W) :
    Prop where
  queue : ∃ queue, h.transactions.get? connection.id = some queue ∧
    queue.map QueuedCommand.line = lines ∧ ∀ item ∈ queue, Plain h.disabledCommands item
  authenticated : h.needsAuth connection = false
  mode : h.subscribed connection = false

section

variable {connection other : ClientConnection} {lines : List Str} {h : CommandHandler W}

omit [AofSink W] in
theorem Holding.of_sessions {h' : CommandHandler W} (H : Holding connection lines h)
    (hs : h.SameSessions h') (hm : h'.subscribed connection = false) :
    Holding connection lines h' := by
  obtain ⟨queue, hq, hlines, hall⟩ := H.queue
  refine ⟨⟨queue, hs.transactions ▸ hq, hlines, hs.disabledCommands ▸ hall⟩, ?_, hm⟩
  rw [needsAuth, hs.requirepass, hs.authenticated]
  exact H.authenticated

omit [AofSink W] in
theorem Holding.route (H : Holding connection lines h) (hne : connection.id ≠ other.id)
    (text : Str) : Holding connection lines (h.route text other).1 := by
  have hmode : CommandHandler.subscribed (h.route text other).1 connection = false := by
    rw [subscribed, (h.route_data text other).2.2.2]
    exact H.mode
  obtain ⟨queue, hq, hlines, hall⟩ := H.queue
  have hr := route_routed h text other
  generalize h.route text other = routed at hr hmode ⊢
  cases hr with
  | refused | direct => exact H
  | authenticated =>
    refine ⟨⟨queue, hq, hlines, hall⟩, ?_, hmode⟩
    have ha := H.authenticated
    unfold needsAuth at ha ⊢
    rw [Bool.and_eq_false_iff, Bool.not_eq_false', decide_eq_true_iff] at ha ⊢
    exact ha.imp id fun hin => PubSubManager.mem_setAdd.mpr (.inl hin)
  | begun | queued =>
    refine ⟨⟨queue, ?_, hlines, hall⟩, H.authenticated, hmode⟩
    rw [OrdMap.get?_set, if_neg hne, hq]
  | run | dropped =>
    refine ⟨⟨queue, ?_, hlines, hall⟩, H.authenticated, hmode⟩
    rw [OrdMap.get?_delete, if_neg hne, hq]

theorem Holding.line_other (H : Holding connection lines h) (hne : connection.id ≠ other.id)
    (text : Str) (clocks : Nat → Clocks) :
    Holding connection lines (h.handleLine text other clocks).1 := by
  have hother : connection ≠ other := fun he => hne (he ▸ rfl)
  rw [(h.handleLine_executed text other clocks).1]
  refine executeQueue_rule (P := Holding connection lines) (Q := fun _ => True)
    (fun {h item} clocks H _ => ?_) clocks _ 0 (H.route hne text) fun _ _ => trivial
  exact H.of_sessions
    (h.executeCommand_executes item.command item.line other clocks).toSameSessions
    ((subscribed_execute h (.inl hother) item.line clocks).trans H.mode)

/-- A line sent under the connection's own id is refused or queued. -/
theorem Holding.line_own (H : Holding connection lines h) (hid : other.id = connection.id)
    {text : Str} (hown : ∀ command, parseCommand text = .ok command → isTransactionCommand command = false ∧
      isSubscriptionCommand command = false) (clocks : Nat → Clocks) :
    (∃ message, h.handleLine text other clocks = (h, some (Reply.error message))) ∨
    ∃ queue, h.handleLine text other clocks = ({ h with
        transactions := h.transactions.set connection.id queue },
        some (Reply.okWith "QUEUED".toList)) ∧
      queue.map QueuedCommand.line = lines ++ [text] ∧
      ∀ item ∈ queue, Plain h.disabledCommands item := by
  obtain ⟨queue, hq, hlines, hall⟩ := H.queue
  have hneeds : h.needsAuth other = false := by
    have ha := H.authenticated
    rw [needsAuth] at ha ⊢
    rwa [hid]
  have hr := route_routed h text other
  rw [handleLine]
  generalize h.route text other = routed at hr ⊢
  cases hr with
  | refused message => exact .inl ⟨message, rfl⟩
  | authenticated hp hn => exact absurd (hneeds.symm.trans hn) Bool.false_ne_true
  | begun ha | run ha | dropped ha => exact absurd (hown _ ha.parsed).1 Bool.false_ne_true.symm
  | direct ha hc ht =>
    rw [hid, hq] at ht
    cases ht
  | @queued command queue' ha hc ht =>
    rw [hid, hq] at ht
    cases ht
    refine .inr ⟨queue ++ [⟨text, command⟩], by rw [hid], ?_, fun item hi => ?_⟩
    · rw [List.map_append, hlines]
      rfl
    · rcases List.mem_append.mp hi with hi | hi
      · exact hall item hi
      · rw [List.mem_singleton.mp hi]
        exact ⟨ha.parsed, ha.enabled, hc, (hown _ ha.parsed).2⟩

end

end CommandHandler

namespace Server

open CommandHandler Trace

/-- What is sent under the id neither opens nor ends a transaction, and is no subscription. -/
def Ordinary (id : Str) (events : List ServerEvent) : Prop :=
  ∀ text connection clocks, .line text connection clocks ∈ events → connection.id = id →
    ∀ command, parseCommand text = .ok command →
      isTransactionCommand command = false ∧ isSubscriptionCommand command = false

/-- The line of the step, if it is sent under the id and answered QUEUED. -/
def queuedOf (id : Str) (st : Server) : ServerEvent → List Str
  | .line text connection clocks =>
    if connection.id = id ∧ st.listening = true ∧
      (st.handler.handleLine text connection clocks).2 = some (Reply.okWith "QUEUED".toList)
    then [text] else []
  | _ => []

def queuedBy (id : Str) : Server → List ServerEvent → List Str
  | _, [] => []
  | st, e :: es => queuedOf id st e ++ queuedBy id (st.next e) es

/-- A line sent under the id changes no data and no other queue. -/
def Inert (id : Str) (st : Server) : ServerEvent → Prop
  | .line text connection clocks => connection.id = id →
    (st.next (.line text connection clocks)).handler.store = st.handler.store ∧
    (st.next (.line text connection clocks)).handler.aofWriter = st.handler.aofWriter ∧
    ∀ other, other ≠ id →
      (st.next (.line text connection clocks)).handler.transactions.get? other =
        st.handler.transactions.get? other
  | _ => True

theorem error_ne_queued (message : Str) : Reply.error message ≠ Reply.okWith "QUEUED".toList := by
  intro h
  cases congrArg List.head? h

theorem holding_background {st : Server} {connection : ClientConnection} {lines : List Str}
    (H : Holding connection lines st.handler) {e : ServerEvent}
    (hline : ∀ text connection clocks, e ≠ .line text connection clocks) :
    Holding connection lines (st.next e).handler := by
  rcases next_clients st e with hsame | ⟨other, -, he⟩ | ⟨text, other, clocks, he, -⟩
  · refine H.of_sessions hsame.toSameSessions ?_
    rw [subscribed, hsame.pubSubManager]
    exact H.mode
  · rw [he]
    refine H.of_sessions ⟨rfl, rfl, rfl, rfl⟩ ?_
    have hmode := H.mode
    unfold subscribed at hmode ⊢
    dsimp only
    cases hm : st.handler.pubSubManager with
    | none => rfl
    | some m =>
      rw [hm, Option.any_some] at hmode
      exact PubSubManager.isSubscribed_removeConnection hmode other
  · exact absurd he (hline text other clocks)

theorem holding_next {st : Server} {connection : ClientConnection} {lines : List Str}
    (H : Holding connection lines st.handler) {e : ServerEvent}
    (hown : Ordinary connection.id [e]) :
    Holding connection (lines ++ queuedOf connection.id st e) (st.next e).handler ∧
      Inert connection.id st e := by
  cases e with
  | line text other clocks =>
    have hown := hown text other clocks List.mem_cons_self
    rw [queuedOf, Inert]
    cases hl : st.listening with
    | false =>
      rw [next_deaf hl, if_neg fun h => Bool.false_ne_true h.2.1, List.append_nil]
      exact ⟨H, fun _ => ⟨rfl, rfl, fun _ _ => rfl⟩⟩
    | true =>
      rw [(next_line hl ..).1]
      by_cases hid : other.id = connection.id
      · rcases H.line_own hid (hown hid) clocks with ⟨message, he⟩ | ⟨queue, he, hlines, hall⟩
        · rw [he, if_neg fun h => error_ne_queued message (Option.some.inj h.2.2), List.append_nil]
          exact ⟨H, fun _ => ⟨rfl, rfl, fun _ _ => rfl⟩⟩
        · rw [he, if_pos ⟨hid, rfl, rfl⟩]
          refine ⟨⟨⟨queue, OrdMap.get?_set_self _ _ _, hlines, hall⟩, H.authenticated, H.mode⟩,
            fun _ => ⟨rfl, rfl, fun id hne => ?_⟩⟩
          rw [OrdMap.get?_set, if_neg hne]
      · rw [if_neg fun h => hid h.1, List.append_nil]
        exact ⟨H.line_other (Ne.symm hid) text clocks, fun h => absurd h hid⟩
  | _ =>
    refine ⟨?_, trivial⟩
    show Holding connection (lines ++ []) _
    rw [List.append_nil]
    exact holding_background H fun _ _ _ h => by cases h

/-- After any events the queue holds what was answered QUEUED. -/
theorem holding_run {connection : ClientConnection} : ∀ (events : List ServerEvent)
    {st : Server} {lines : List Str}, Holding connection lines st.handler →
    Ordinary connection.id events →
    Holding connection (lines ++ queuedBy connection.id st events) (st.run events).handler ∧
      Along Server.next (Inert connection.id) st events
  | [], st, lines, H, _ => ⟨by rw [queuedBy, List.append_nil]; exact H, trivial⟩
  | e :: events, st, lines, H, hown => by
    obtain ⟨H1, hinert⟩ := holding_next H (e := e) fun text c clocks hm =>
      hown text c clocks (List.mem_singleton.mp hm ▸ List.mem_cons_self)
    obtain ⟨H2, hrest⟩ := holding_run events H1 fun text c clocks hm =>
      hown text c clocks (List.mem_cons_of_mem _ hm)
    rw [queuedBy, ← List.append_assoc]
    exact ⟨H2, hinert, hrest⟩

/-- A MULTI that is answered OK opens a transaction of no lines. -/
theorem holding_multi {h : CommandHandler AofWriter} {text : Str} {connection : ClientConnection}
    {clocks : Nat → Clocks} (hp : parseCommand text = .ok .multi)
    (hok : (h.handleLine text connection clocks).2 = some Reply.ok) :
    Holding connection [] (h.handleLine text connection clocks).1 := by
  have hr := route_routed h text connection
  rw [handleLine] at hok ⊢
  generalize h.route text connection = routed at hr hok ⊢
  cases hr with
  | refused message => cases congrArg List.head? (Option.some.inj hok)
  | authenticated hp' => cases hp.symm.trans hp'
  | begun ha ht =>
    refine ⟨⟨[], OrdMap.get?_set_self _ _ _, rfl, fun _ hi => absurd hi List.not_mem_nil⟩,
      ha.authenticated, ha.mode.resolve_right Bool.false_ne_true⟩
  | run ha | dropped ha => cases hp.symm.trans ha.parsed
  | queued ha hc | direct ha hc =>
    cases hp.symm.trans ha.parsed
    cases hc

end Server

namespace CommandHandler

section

variable {h : CommandHandler AofWriter} {connection : ClientConnection} {lines : List Str}
  (H : Holding connection lines h) {text : Str}

include H

theorem Holding.route_exec (hp : parseCommand text = .ok .exec)
    (he : Command.exec.name ∉ h.disabledCommands) :
    ∃ queue, queue.map QueuedCommand.line = lines ∧
      (∀ item ∈ queue, Plain h.disabledCommands item) ∧ h.route text connection =
        ({ h with transactions := h.transactions.delete connection.id }, .queue queue) := by
  obtain ⟨queue, hq, hlines, hall⟩ := H.queue
  refine ⟨queue, hlines, hall, ?_⟩
  rw [CommandHandler.route]
  simp only [hp, H.authenticated, H.mode, Bool.false_eq_true, if_false, he, Bool.false_and,
    routeTransaction, hq]

theorem Holding.route_discard (hp : parseCommand text = .ok .discard)
    (he : Command.discard.name ∉ h.disabledCommands) : h.route text connection =
      ({ h with transactions := h.transactions.delete connection.id }, .answered Reply.ok) := by
  obtain ⟨queue, hq, -⟩ := H.queue
  rw [CommandHandler.route]
  simp only [hp, H.authenticated, H.mode, Bool.false_eq_true, if_false, he, Bool.false_and,
    routeTransaction, hq]

end

theorem Holding.outside (H : Holding connection lines h) :
    Free { h with transactions := h.transactions.delete connection.id } connection :=
  ⟨H.authenticated, H.mode, by rw [OrdMap.get?_delete, if_pos rfl]⟩

section

variable {h : CommandHandler AofWriter} {connection : ClientConnection} {lines : List Str}
  (H : Holding connection lines h) {text : Str}

include H

/-- EXEC does what the queued lines do to the handler without the transaction. -/
theorem Holding.exec_all (hp : parseCommand text = .ok .exec)
    (he : Command.exec.name ∉ h.disabledCommands) (clocks : Clocks) {replies : List Str}
    (hr : (sendAll connection clocks
      { h with transactions := h.transactions.delete connection.id } lines).2 =
        replies.map some) :
    h.handleLine text connection (fun _ => clocks) =
      ((sendAll connection clocks
        { h with transactions := h.transactions.delete connection.id } lines).1,
        some (Reply.rawArray replies)) := by
  obtain ⟨queue, rfl, hall, hroute⟩ := H.route_exec hp he
  rw [handleLine, hroute]
  dsimp only
  rw [executeQueue_sendAll connection clocks queue 0 H.outside hall hr]
  rfl

/-- It stops after the first lines when the last of them throws. -/
theorem Holding.exec_thrown (hp : parseCommand text = .ok .exec)
    (he : Command.exec.name ∉ h.disabledCommands) (clocks : Clocks) {first replies : List Str}
    (hfirst : first <+: lines)
    (hr : (sendAll connection clocks
      { h with transactions := h.transactions.delete connection.id } first).2 =
        replies.map some ++ [none]) :
    h.handleLine text connection (fun _ => clocks) =
      ((sendAll connection clocks
        { h with transactions := h.transactions.delete connection.id } first).1, none) := by
  obtain ⟨queue, hlines, hall, hroute⟩ := H.route_exec hp he
  obtain ⟨rest, hrest⟩ := hfirst
  obtain ⟨queue1, queue2, rfl, rfl, -⟩ := List.map_eq_append_iff.mp (hlines.trans hrest.symm)
  rw [handleLine, hroute]
  dsimp only
  rw [executeQueue_thrown connection clocks queue1 0 H.outside
    (fun item hi => hall item (List.mem_append_left _ hi)) hr]
  rfl

end

end CommandHandler

namespace Server

open CommandHandler Trace

/-- From the MULTI of a connection on, its lines leave the data and the other queues alone. EXEC
does what its queued lines do one after the other to the handler without the transaction, or what
they do up to the first write to the log that throws; DISCARD does nothing; and either way the
transaction is gone. -/
theorem transactions_isolated (st : Server) (opening : Str) (connection : ClientConnection)
    (clocks : Nat → Clocks) (hl : st.listening = true) (hp : parseCommand opening = .ok .multi)
    (hok : (st.handler.handleLine opening connection clocks).2 = some Reply.ok)
    (events : List ServerEvent) (hown : Ordinary connection.id events) :
    let opened := st.next (.line opening connection clocks)
    let h := (opened.run events).handler
    let lines := queuedBy connection.id opened events
    let outside := { h with transactions := h.transactions.delete connection.id }
    Along Server.next (Inert connection.id) opened events ∧
    (∀ text now, parseCommand text = .ok .exec → Command.exec.name ∉ h.disabledCommands →
      (∀ replies : List Str,
        (sendAll connection (Clocks.still now) outside lines).2 = replies.map some →
        h.handleLine text connection (fun _ => Clocks.still now) =
          ((sendAll connection (Clocks.still now) outside lines).1,
            some (Reply.rawArray replies))) ∧
      (∀ (first : List Str) (replies : List Str), first <+: lines →
        (sendAll connection (Clocks.still now) outside first).2 = replies.map some ++ [none] →
        h.handleLine text connection (fun _ => Clocks.still now) =
          ((sendAll connection (Clocks.still now) outside first).1, none)) ∧
      (h.handleLine text connection fun _ => Clocks.still now).1.transactions.get?
        connection.id = none) ∧
    (∀ text clocks, parseCommand text = .ok .discard →
      Command.discard.name ∉ h.disabledCommands →
      (h.handleLine text connection clocks).2 = some Reply.ok ∧
      (h.handleLine text connection clocks).1.store = h.store ∧
      (h.handleLine text connection clocks).1.aofWriter = h.aofWriter ∧
      (h.handleLine text connection clocks).1.transactions.get? connection.id = none) := by
  intro opened h lines outside
  have hopened : Holding connection [] opened.handler := by
    show Holding connection [] (st.next _).handler
    rw [(next_line hl ..).1]
    exact holding_multi hp hok
  obtain ⟨H, hinert⟩ := holding_run events hopened hown
  have hgone : (h.transactions.delete connection.id).get? connection.id = none := by
    rw [OrdMap.get?_delete, if_pos rfl]
  refine ⟨hinert, fun text now hexec he => ?_, fun text clocks hdiscard he => ?_⟩
  · refine ⟨fun replies hr => H.exec_all hexec he _ hr,
      fun first replies hfirst hr => H.exec_thrown hexec he _ hfirst hr, ?_⟩
    obtain ⟨queue, -, -, hroute⟩ := H.route_exec hexec he
    rw [(h.handleLine_sessions text connection _).transactions, hroute]
    exact hgone
  · have hroute := H.route_discard hdiscard he
    rw [handleLine, hroute]
    exact ⟨rfl, rfl, rfl, hgone⟩

def interleaved : List ServerEvent := [send "SET a 1", intrude "SET a 2"]

theorem ordinary_interleaved : Ordinary "tcp".toList interleaved := by
  intro text connection clocks hm hid command hp
  simp only [interleaved, intrude, send, List.mem_cons, ServerEvent.line.injEq, List.not_mem_nil,
    or_false] at hm
  rcases hm with ⟨rfl, rfl, rfl⟩ | ⟨rfl, rfl, rfl⟩
  · cases hp
    exact ⟨rfl, rfl⟩
  · exact absurd hid (by decide)

theorem transactions_isolated_interleaved :
    Along Server.next (Inert "tcp".toList) (booted.next (send "MULTI")) interleaved :=
  (transactions_isolated booted "MULTI".toList ⟨1, "tcp".toList⟩ (fun _ => Clocks.still 0) rfl rfl
    (by decide) interleaved ordinary_interleaved).1

/-- EXEC ends at the first write, while lines go on one by one. -/
theorem exec_cut_short :
    let opened := midRewrite.next (send "MULTI")
    let events := [send "SET a 1", send "SET b 2"]
    let h := (opened.run events).handler
    (h.handleLine "EXEC".toList ⟨1, "tcp".toList⟩ fun _ => Clocks.still 0).1.store ≠
      (sendAll ⟨1, "tcp".toList⟩ (Clocks.still 0)
        { h with transactions := h.transactions.delete "tcp".toList }
        (queuedBy "tcp".toList opened events)).1.store := by
  intro opened events h he
  have hcell := congrArg (fun s => (s.cell "b".toList).isSome) he
  revert hcell
  decide

end Server

end MiniStore
