import MiniStore.Protocol.CommandParser
import MiniStore.Server.PubSubManager
import MiniStore.Store.AofWriter

/-!
# CommandHandler

`handleLine` parses a line, passes it through the gates (authentication,
disabled commands, subscriber mode, transactions: `route`) and runs
`executeCommand` for what is left: the command itself, or the queue of an EXEC.
A result of `none` is an exception that leaves `handleLine`; only the log can
throw.

The handler is generic in its log. `executed` lists the commands a line makes it
run, and `Executes` what each of them can change besides the store and the log.
-/

namespace MiniStore

open InMemoryStore

structure QueuedCommand where
  line : Str
  command : Command
  deriving DecidableEq

/-- The fields of the class; `delivered` is what was written to connections by PUBLISH. -/
structure CommandHandler (W : Type) where
  store : InMemoryStore
  persistenceManager : Option PersistenceManager
  aofWriter : Option W
  pubSubManager : Option PubSubManager
  requirepass : Option Str
  disabledCommands : List Str
  transactions : OrdMap Str (List QueuedCommand)
  authenticated : List Str
  delivered : List (ClientConnection × Str)
  deriving DecidableEq

/-- How a line fares at the gates. -/
inductive Route where
  | answered (reply : Str)
  | direct (command : Command)
  | queue (items : List QueuedCommand)
  deriving DecidableEq

namespace CommandHandler

variable {W : Type}

def create (store : InMemoryStore) (persistenceManager : Option PersistenceManager)
    (aofWriter : Option W) (pubSubManager : Option PubSubManager) (requirepass : Option Str)
    (disabledCommands : List Str) : CommandHandler W :=
  ⟨store, persistenceManager, aofWriter, pubSubManager, requirepass, disabledCommands,
    OrdMap.empty, [], []⟩

def checkAndSave (h : CommandHandler W) (clocks : Clocks) : CommandHandler W :=
  match h.persistenceManager with
  | none => h
  | some pm =>
    match pm.checkAndSave h.store clocks with
    | (pm, s, _) => { h with persistenceManager := some pm, store := s }

/-! ## Replies to store results -/

def flagReply (b : Bool) : Str := Reply.integer (if b then 1 else 0)

def countReply : StoreResult Nat → Str
  | .ok n => Reply.integer n
  | .error _ => Reply.wrongType

def itemReply : StoreResult (Option Str) → Str
  | .ok none => Reply.nil
  | .ok (some v) => Reply.value v
  | .error _ => Reply.wrongType

def itemsReply : StoreResult (List Str) → Str
  | .ok vs => Reply.array vs
  | .error _ => Reply.wrongType

/-! ## executeCommand -/

section

variable [AofSink W]

/-- `this.#aofWriter?.write(line)`. -/
def writeAof (h : CommandHandler W) (line : Str) : CommandHandler W × Bool :=
  match h.aofWriter with
  | none => (h, true)
  | some w =>
    match AofSink.write w line with
    | (w, returned) => ({ h with aofWriter := some w }, returned)

/-- The end of a mutating case: the store is done, the line is logged if the
command took effect, then the reply. -/
def finish (h : CommandHandler W) (s : InMemoryStore) (logged : Bool) (line reply : Str) :
    CommandHandler W × Option Str :=
  if logged then
    match { h with store := s }.writeAof line with
    | (h, true) => (h, some reply)
    | (h, false) => (h, none)
  else ({ h with store := s }, some reply)

def answer (h : CommandHandler W) (s : InMemoryStore) (reply : Str) :
    CommandHandler W × Option Str :=
  ({ h with store := s }, some reply)

/-- A push or HSET logs when it is not a WRONGTYPE and `took` its result. -/
def tookCount (took : Nat → Bool) : StoreResult Nat → Bool
  | .ok n => took n
  | .error _ => false

/-- A pop logs when it returns an element. -/
def tookItem : StoreResult (Option Str) → Bool
  | .ok v => v.isSome
  | .error _ => false

/-- The store operations of the command run at `clocks 0`, `clocks 1`, …. -/
def executeCommand (h : CommandHandler W) (command : Command) (line : Str)
    (connection : ClientConnection) (clocks : Clocks) : CommandHandler W × Option Str :=
  match command with
  | .set key value ttlSeconds =>
    h.finish (h.store.set key value ttlSeconds (clocks 0)) true line Reply.ok
  | .get key =>
    match h.store.keyType key (clocks 0) with
    | (s, kind) =>
      if kind ≠ none ∧ kind ≠ some .string then h.answer s Reply.wrongType
      else
        match s.get key (clocks 1) with
        | (s, none) => h.answer s Reply.nil
        | (s, some found) => h.answer s (Reply.value found)
  | .del key =>
    match h.store.del key (clocks 0) with
    | (s, removed) => h.finish s removed line (flagReply removed)
  | .expire key seconds =>
    match h.store.expire key seconds (clocks 0) with
    | (s, applied) => h.finish s applied line (flagReply applied)
  | .lpush key values =>
    match h.store.lpush key values (clocks 0) with
    | (s, result) => h.finish s (tookCount (fun _ => true) result) line (countReply result)
  | .lpop key =>
    match h.store.lpop key (clocks 0) with
    | (s, result) => h.finish s (tookItem result) line (itemReply result)
  | .lrange key start stop =>
    match h.store.lrange key start stop (clocks 0) with
    | (s, result) => h.answer s (itemsReply result)
  | .hset key pairs =>
    match h.store.hset key pairs (clocks 0) with
    | (s, result) => h.finish s (tookCount (fun n => n > 0) result) line (countReply result)
  | .hget key field =>
    match h.store.hget key field (clocks 0) with
    | (s, result) => h.answer s (itemReply result)
  | .exists key =>
    match h.store.exists key (clocks 0) with
    | (s, found) => h.answer s (flagReply found)
  | .ttl key =>
    match h.store.ttl key (clocks 0) with
    | (s, ttl) => h.answer s (Reply.integer ttl)
  | .persist key =>
    match h.store.persist key (clocks 0) with
    | (s, applied) => h.finish s applied line (flagReply applied)
  | .keys pattern =>
    match h.store.keys pattern (clocks 0) with
    | (s, keys) => h.answer s (Reply.array keys)
  | .rpush key values =>
    match h.store.rpush key values (clocks 0) with
    | (s, result) => h.finish s (tookCount (fun _ => true) result) line (countReply result)
  | .rpop key =>
    match h.store.rpop key (clocks 0) with
    | (s, result) => h.finish s (tookItem result) line (itemReply result)
  | .llen key =>
    match h.store.llen key (clocks 0) with
    | (s, result) => h.answer s (countReply result)
  | .hdel key fields =>
    match h.store.hdel key fields (clocks 0) with
    | (s, result) => h.finish s (tookCount (fun n => n > 0) result) line (countReply result)
  | .hgetall key =>
    match h.store.hgetall key (clocks 0) with
    | (s, result) => h.answer s (itemsReply result)
  | .hlen key =>
    match h.store.hlen key (clocks 0) with
    | (s, result) => h.answer s (countReply result)
  | .bgsave =>
    match h.persistenceManager with
    | none => h.answer h.store (Reply.error "persistence not configured".toList)
    | some pm =>
      match pm.save h.store clocks with
      | (pm, s, _) => { h with persistenceManager := some pm }.answer s Reply.ok
  | .bgrewriteaof =>
    match h.aofWriter with
    | none => h.answer h.store (Reply.error "AOF not configured".toList)
    | some w =>
      match AofSink.rewrite w h.store clocks with
      | (w, s) => { h with aofWriter := some w }.answer s Reply.ok
  | .subscribe channels =>
    match h.pubSubManager with
    | none => h.answer h.store (Reply.error "Pub/Sub not configured".toList)
    | some m =>
      match m.subscribe connection channels with
      | (m, replies) => { h with pubSubManager := some m }.answer h.store replies.flatten
  | .unsubscribe channels =>
    match h.pubSubManager with
    | none => h.answer h.store (Reply.error "Pub/Sub not configured".toList)
    | some m =>
      match m.unsubscribe connection channels with
      | (m, replies) => { h with pubSubManager := some m }.answer h.store replies.flatten
  | .publish channel message =>
    match h.pubSubManager with
    | none => h.answer h.store (Reply.error "Pub/Sub not configured".toList)
    | some m =>
      match m.publish channel message with
      | (sent, count) =>
        { h with delivered := h.delivered ++ sent }.answer h.store (Reply.integer count)
  | .auth _ => h.answer h.store Reply.ok
  | .multi | .exec | .discard =>
    h.answer h.store (Reply.error
      ("unhandled command \x7b\"name\":\"".toList ++ command.name ++ "\"\x7d".toList))

/-- The items of an EXEC, one after the other; an exception ends the loop. -/
def executeQueue (h : CommandHandler W) (connection : ClientConnection) (clocks : Nat → Clocks) :
    List QueuedCommand → Nat → CommandHandler W × Option (List Str)
  | [], _ => (h, some [])
  | item :: rest, i =>
    match h.executeCommand item.command item.line connection (clocks i) with
    | (h, none) => (h, none)
    | (h, some reply) =>
      match h.executeQueue connection clocks rest (i + 1) with
      | (h, results) => (h, results.map (reply :: ·))

end

/-! ## handleLine -/

/-- Subscriber mode lets only these through. -/
def isSubscriptionCommand : Command → Bool
  | .subscribe _ | .unsubscribe _ => true
  | _ => false

def subscribed (h : CommandHandler W) (connection : ClientConnection) : Bool :=
  h.pubSubManager.any (·.isSubscribed connection)

def needsAuth (h : CommandHandler W) (connection : ClientConnection) : Bool :=
  h.requirepass.isSome && !decide (connection.id ∈ h.authenticated)

/-- The transaction commands, and queueing inside a transaction. -/
def routeTransaction (h : CommandHandler W) (command : Command) (line : Str)
    (connection : ClientConnection) : CommandHandler W × Route :=
  match command, h.transactions.get? connection.id with
  | .multi, some _ => (h, .answered (Reply.error "MULTI calls can not be nested".toList))
  | .multi, none =>
    ({ h with transactions := h.transactions.set connection.id [] }, .answered Reply.ok)
  | .exec, none => (h, .answered (Reply.error "EXEC without MULTI".toList))
  | .exec, some queue =>
    ({ h with transactions := h.transactions.delete connection.id }, .queue queue)
  | .discard, none => (h, .answered (Reply.error "DISCARD without MULTI".toList))
  | .discard, some _ =>
    ({ h with transactions := h.transactions.delete connection.id }, .answered Reply.ok)
  | command, some queue =>
    ({ h with transactions := h.transactions.set connection.id (queue ++ [⟨line, command⟩]) },
      .answered (Reply.okWith "QUEUED".toList))
  | command, none => (h, .direct command)

/-- `handleLine` up to the point where commands are executed. -/
def route (h : CommandHandler W) (line : Str) (connection : ClientConnection) :
    CommandHandler W × Route :=
  match parseCommand line with
  | .error message => (h, .answered (Reply.error message))
  | .ok command =>
    if h.needsAuth connection then
      match command with
      | .auth password =>
        if some password = h.requirepass then
          ({ h with authenticated := PubSubManager.setAdd h.authenticated connection.id },
            .answered Reply.ok)
        else (h, .answered (Reply.error "invalid password".toList))
      | _ => (h, .answered (Reply.error "NOAUTH Authentication required.".toList))
    else if command.name ∈ h.disabledCommands then
      (h, .answered (Reply.error "command disabled".toList))
    else if h.subscribed connection && !isSubscriptionCommand command then
      (h, .answered (Reply.error
        "only (P)SUBSCRIBE / (P)UNSUBSCRIBE / PING / QUIT allowed in this context".toList))
    else h.routeTransaction command line connection

/-- The `i`-th command executed for the line runs at `clocks i`. -/
def handleLine [AofSink W] (h : CommandHandler W) (line : Str) (connection : ClientConnection)
    (clocks : Nat → Clocks) : CommandHandler W × Option Str :=
  match h.route line connection with
  | (h, .answered reply) => (h, some reply)
  | (h, .direct command) => h.executeCommand command line connection (clocks 0)
  | (h, .queue items) =>
    match h.executeQueue connection clocks items 0 with
    | (h, results) => (h, results.map Reply.rawArray)

/-- The commands a line makes the handler execute, each with its own line. -/
def executed (h : CommandHandler W) (line : Str) (connection : ClientConnection) :
    List QueuedCommand :=
  match (h.route line connection).2 with
  | .answered _ => []
  | .direct command => [⟨line, command⟩]
  | .queue items => items

/-! ## Routing changes no data -/

theorem routeTransaction_data (h : CommandHandler W) (c : Command) (line : Str)
    (connection : ClientConnection) :
    (h.routeTransaction c line connection).1.store = h.store ∧
      (h.routeTransaction c line connection).1.aofWriter = h.aofWriter ∧
      (h.routeTransaction c line connection).1.persistenceManager = h.persistenceManager ∧
      (h.routeTransaction c line connection).1.pubSubManager = h.pubSubManager := by
  unfold routeTransaction
  split <;> exact ⟨rfl, rfl, rfl, rfl⟩

theorem route_data (h : CommandHandler W) (line : Str) (connection : ClientConnection) :
    (h.route line connection).1.store = h.store ∧
      (h.route line connection).1.aofWriter = h.aofWriter ∧
      (h.route line connection).1.persistenceManager = h.persistenceManager ∧
      (h.route line connection).1.pubSubManager = h.pubSubManager := by
  unfold route
  split
  · exact ⟨rfl, rfl, rfl, rfl⟩
  · split
    · split
      · split <;> exact ⟨rfl, rfl, rfl, rfl⟩
      · exact ⟨rfl, rfl, rfl, rfl⟩
    · split
      · exact ⟨rfl, rfl, rfl, rfl⟩
      · split
        · exact ⟨rfl, rfl, rfl, rfl⟩
        · exact routeTransaction_data h _ line connection

/-- A line leaves what executing its commands one after the other leaves, and is answered
if they are. -/
theorem handleLine_executed [AofSink W] (h : CommandHandler W) (line : Str)
    (connection : ClientConnection) (clocks : Nat → Clocks) :
    (h.handleLine line connection clocks).1 = ((h.route line connection).1.executeQueue connection
        clocks (h.executed line connection) 0).1 ∧
      (h.handleLine line connection clocks).2.isSome = ((h.route line connection).1.executeQueue
        connection clocks (h.executed line connection) 0).2.isSome := by
  unfold handleLine executed
  rcases h.route line connection with ⟨h', reply | command | items⟩
  · exact ⟨rfl, rfl⟩
  · dsimp only [executeQueue]
    rcases h'.executeCommand command line connection (clocks 0) with ⟨h'', _ | reply⟩
    · exact ⟨rfl, rfl⟩
    · exact ⟨rfl, rfl⟩
  · dsimp only
    rcases h'.executeQueue connection clocks items 0 with ⟨h'', _ | replies⟩
    · exact ⟨rfl, rfl⟩
    · exact ⟨rfl, rfl⟩

section

variable [AofSink W] {h : CommandHandler W} {line : Str} {connection : ClientConnection}

theorem handleLine_answered {reply : Str} (hr : (h.route line connection).2 = .answered reply)
    (clocks : Nat → Clocks) : (h.handleLine line connection clocks).2 = some reply := by
  rw [handleLine]
  generalize h.route line connection = routed at hr ⊢
  obtain ⟨h', r⟩ := routed
  subst hr
  rfl

theorem handleLine_direct {c : Command} (hr : (h.route line connection).2 = .direct c)
    (clocks : Nat → Clocks) : (h.handleLine line connection clocks).2 =
      ((h.route line connection).1.executeCommand c line connection (clocks 0)).2 := by
  rw [handleLine]
  generalize h.route line connection = routed at hr ⊢
  obtain ⟨h', r⟩ := routed
  subst hr
  rfl

theorem handleLine_queue {items : List QueuedCommand}
    (hr : (h.route line connection).2 = .queue items) (clocks : Nat → Clocks) :
    (h.handleLine line connection clocks).2 =
      ((h.route line connection).1.executeQueue connection clocks items 0).2.map
        Reply.rawArray := by
  rw [handleLine]
  generalize h.route line connection = routed at hr ⊢
  obtain ⟨h', r⟩ := routed
  subst hr
  rfl

end

/-! ## Queued commands -/

/-- Every queued command is what its line parses to. -/
def Parsed (h : CommandHandler W) : Prop :=
  ∀ id queue, h.transactions.get? id = some queue →
    ∀ item ∈ queue, parseCommand item.line = .ok item.command

/-- Routing keeps the queues parsed, and what it lets through is parsed. -/
theorem routeTransaction_parsed {h : CommandHandler W} (hq : h.Parsed) {c : Command} {line : Str}
    (hc : parseCommand line = .ok c) (connection : ClientConnection) :
    Parsed (h.routeTransaction c line connection).1 ∧
      (∀ c', (h.routeTransaction c line connection).2 = .direct c' → parseCommand line = .ok c') ∧
      ∀ items, (h.routeTransaction c line connection).2 = .queue items →
        ∀ item ∈ items, parseCommand item.line = .ok item.command := by
  have hset : ∀ queue, (∀ item ∈ queue, parseCommand item.line = .ok item.command) →
      Parsed { h with transactions := h.transactions.set connection.id queue } := by
    intro queue hqueue id queue' hid
    simp only [OrdMap.get?_set] at hid
    split at hid
    · cases hid; exact hqueue
    · exact hq id queue' hid
  have hdel : Parsed { h with transactions := h.transactions.delete connection.id } := by
    intro id queue hid
    simp only [OrdMap.get?_delete] at hid
    split at hid
    · cases hid
    · exact hq id queue hid
  unfold routeTransaction
  split
  · exact ⟨hq, by simp, by simp⟩
  · exact ⟨hset [] (by simp), by simp, by simp⟩
  · exact ⟨hq, by simp, by simp⟩
  · next hqueue =>
    refine ⟨hdel, by simp, fun items hi => ?_⟩
    cases hi
    exact hq _ _ hqueue
  · exact ⟨hq, by simp, by simp⟩
  · exact ⟨hdel, by simp, by simp⟩
  · next hqueue =>
    refine ⟨hset _ fun item hi => ?_, by simp, by simp⟩
    rcases List.mem_append.mp hi with hi | hi
    · exact hq _ _ hqueue item hi
    · cases List.mem_singleton.mp hi; exact hc
  · refine ⟨hq, fun c' hc' => ?_, by simp⟩
    cases hc'; exact hc

theorem route_parsed {h : CommandHandler W} (hq : h.Parsed) (line : Str)
    (connection : ClientConnection) :
    Parsed (h.route line connection).1 ∧
      ∀ item ∈ h.executed line connection, parseCommand item.line = .ok item.command := by
  suffices hs : Parsed (h.route line connection).1 ∧
      (∀ c', (h.route line connection).2 = .direct c' → parseCommand line = .ok c') ∧
      ∀ items, (h.route line connection).2 = .queue items →
        ∀ item ∈ items, parseCommand item.line = .ok item.command by
    refine ⟨hs.1, fun item hi => ?_⟩
    unfold executed at hi
    split at hi
    · cases hi
    · next c hc => cases List.mem_singleton.mp hi; exact hs.2.1 c hc
    · next items hit => exact hs.2.2 items hit item hi
  unfold route
  split
  · exact ⟨hq, by simp, by simp⟩
  · next c hc =>
    split
    · split
      · split
        · exact ⟨fun id queue hid => hq id queue hid, by simp, by simp⟩
        · exact ⟨hq, by simp, by simp⟩
      · exact ⟨hq, by simp, by simp⟩
    · split
      · exact ⟨hq, by simp, by simp⟩
      · split
        · exact ⟨hq, by simp, by simp⟩
        · exact routeTransaction_parsed hq hc connection

/-- What the gates let through is the line's command, or a queue of the connection. -/
theorem parse_of_direct {h : CommandHandler W} (hq : h.Parsed) {line : Str}
    {connection : ClientConnection} {c : Command}
    (he : (h.route line connection).2 = .direct c) : parseCommand line = .ok c := by
  have hall := (route_parsed hq line connection).2 ⟨line, c⟩
  rw [executed, he] at hall
  exact hall List.mem_cons_self

theorem parse_of_queue {h : CommandHandler W} (hq : h.Parsed) {line : Str}
    {connection : ClientConnection} {items : List QueuedCommand}
    (he : (h.route line connection).2 = .queue items) :
    ∀ item ∈ items, parseCommand item.line = .ok item.command := by
  have hall := (route_parsed hq line connection).2
  rwa [executed, he] at hall

/-! ## What executing changes -/

section

variable [AofSink W]

theorem finish_fst (h : CommandHandler W) (s : InMemoryStore) (logged : Bool) (line reply : Str) :
    ∃ w, (h.finish s logged line reply).1 = { h with store := s, aofWriter := w } := by
  unfold finish writeAof
  cases logged with
  | false => exact ⟨h.aofWriter, rfl⟩
  | true =>
    cases h.aofWriter with
    | none => exact ⟨none, by simp only [if_true]⟩
    | some w =>
      simp only [if_true]
      rcases AofSink.write w line with ⟨w', _ | _⟩ <;> exact ⟨some w', rfl⟩

def subscriptions (m : PubSubManager) (connection : ClientConnection) : Command → PubSubManager
  | .subscribe channels => (m.subscribe connection channels).1
  | .unsubscribe channels => (m.unsubscribe connection channels).1
  | _ => m

def published (m : PubSubManager) : Command → List (ClientConnection × Str)
  | .publish channel message => (m.publish channel message).1
  | _ => []

/-- Two handlers with the same sessions, under the same rules. -/
structure SameSessions (h h' : CommandHandler W) : Prop where
  transactions : h'.transactions = h.transactions
  authenticated : h'.authenticated = h.authenticated
  requirepass : h'.requirepass = h.requirepass
  disabledCommands : h'.disabledCommands = h.disabledCommands

omit [AofSink W] in
theorem SameSessions.trans {h h' h'' : CommandHandler W} (h1 : h.SameSessions h')
    (h2 : h'.SameSessions h'') : h.SameSessions h'' :=
  ⟨h2.transactions.trans h1.transactions, h2.authenticated.trans h1.authenticated,
    h2.requirepass.trans h1.requirepass, h2.disabledCommands.trans h1.disabledCommands⟩

/-- What a command can do to the handler. -/
structure Executes (connection : ClientConnection) (c : Command) (h h' : CommandHandler W) : Prop
    extends SameSessions h h' where
  pubSubManager : h'.pubSubManager = h.pubSubManager.map (subscriptions · connection c)
  delivered : h'.delivered = h.delivered ++ (h.pubSubManager.map (published · c)).getD []
  persistenceManager : c ≠ .bgsave → h'.persistenceManager = h.persistenceManager

theorem executeCommand_executes (h : CommandHandler W) (c : Command) (line : Str)
    (connection : ClientConnection) (clocks : Clocks) :
    Executes connection c h (h.executeCommand c line connection clocks).1 := by
  have hquiet : (∀ m, subscriptions m connection c = m) → (∀ m, published m c = []) →
      ∀ s pm w, (c ≠ .bgsave → pm = h.persistenceManager) → Executes connection c h
        { h with store := s, persistenceManager := pm, aofWriter := w } := by
    intro hs hp s pm w hpm
    refine ⟨⟨rfl, rfl, rfl, rfl⟩, ?_, ?_, hpm⟩
    · cases h.pubSubManager with
      | none => rfl
      | some m => rw [Option.map_some, hs]
    · cases h.pubSubManager with
      | none => exact (List.append_nil _).symm
      | some m => rw [Option.map_some, hp, Option.getD_some, List.append_nil]
  have hanswer : (∀ m, subscriptions m connection c = m) → (∀ m, published m c = []) →
      ∀ s, Executes connection c h { h with store := s } := fun hs hp s =>
    hquiet hs hp s h.persistenceManager h.aofWriter fun _ => rfl
  have hfinish : (∀ m, subscriptions m connection c = m) → (∀ m, published m c = []) →
      ∀ s logged reply, Executes connection c h (h.finish s logged line reply).1 := by
    intro hs hp s logged reply
    obtain ⟨w, hw⟩ := h.finish_fst s logged line reply
    rw [hw]
    exact hquiet hs hp s h.persistenceManager w fun _ => rfl
  cases c with
  | set | del | expire | persist | lpush | rpush | lpop | rpop | hset | hdel =>
    exact hfinish (fun _ => rfl) (fun _ => rfl) _ _ _
  | «exists» | ttl | keys | lrange | llen | hget | hgetall | hlen | auth | multi | exec | discard =>
    exact hanswer (fun _ => rfl) (fun _ => rfl) _
  | get =>
    simp only [executeCommand, answer]
    split
    · exact hanswer (fun _ => rfl) (fun _ => rfl) _
    · split <;> exact hanswer (fun _ => rfl) (fun _ => rfl) _
  | bgsave =>
    simp only [executeCommand, answer]
    split
    · exact hanswer (fun _ => rfl) (fun _ => rfl) _
    · exact hquiet (fun _ => rfl) (fun _ => rfl) _ _ h.aofWriter fun hne => absurd rfl hne
  | bgrewriteaof =>
    simp only [executeCommand, answer]
    split
    · exact hanswer (fun _ => rfl) (fun _ => rfl) _
    · exact hquiet (fun _ => rfl) (fun _ => rfl) _ h.persistenceManager _ fun _ => rfl
  | subscribe | unsubscribe | publish =>
    rcases h with ⟨store, pm, w, _ | m, password, disabled, transactions, authenticated, delivered⟩
    · exact ⟨⟨rfl, rfl, rfl, rfl⟩, rfl, (List.append_nil _).symm, fun _ => rfl⟩
    · simp only [executeCommand, answer]
      exact ⟨⟨rfl, rfl, rfl, rfl⟩, rfl, by simp [published], fun _ => rfl⟩

theorem executeQueue_sessions (connection : ClientConnection) (clocks : Nat → Clocks) :
    ∀ (items : List QueuedCommand) (i : Nat) (h : CommandHandler W),
      h.SameSessions (h.executeQueue connection clocks items i).1
  | [], _, h => ⟨rfl, rfl, rfl, rfl⟩
  | item :: items, i, h => by
    have h1 := h.executeCommand_executes item.command item.line connection (clocks i)
    rw [executeQueue]
    generalize h.executeCommand item.command item.line connection (clocks i) = executed at h1 ⊢
    rcases executed with ⟨h', _ | reply⟩
    · exact h1.toSameSessions
    · exact h1.toSameSessions.trans (executeQueue_sessions connection clocks items (i + 1) h')

theorem handleLine_sessions (h : CommandHandler W) (line : Str) (connection : ClientConnection)
    (clocks : Nat → Clocks) :
    SameSessions (h.route line connection).1 (h.handleLine line connection clocks).1 := by
  rw [(h.handleLine_executed line connection clocks).1]
  exact executeQueue_sessions connection clocks _ 0 _

/-- What holds before a queue and is kept by each of its commands holds after it. -/
theorem executeQueue_rule {P : CommandHandler W → Prop} {Q : QueuedCommand → Prop}
    {connection : ClientConnection}
    (hkeep : ∀ {h : CommandHandler W} {item : QueuedCommand} (clocks : Clocks), P h → Q item →
      P (h.executeCommand item.command item.line connection clocks).1) (clocks : Nat → Clocks) :
    ∀ (items : List QueuedCommand) (i : Nat) {h : CommandHandler W}, P h →
      (∀ item ∈ items, Q item) → P (h.executeQueue connection clocks items i).1
  | [], _, _, H, _ => H
  | item :: items, i, h, H, hq => by
    obtain ⟨hitem, hrest⟩ := List.forall_mem_cons.mp hq
    have H1 := hkeep (clocks i) H hitem
    rw [executeQueue]
    generalize h.executeCommand item.command item.line connection (clocks i) = executed at H1 ⊢
    rcases executed with ⟨h', _ | reply⟩
    · exact H1
    · exact executeQueue_rule hkeep clocks items (i + 1) H1 hrest

end

end CommandHandler

end MiniStore
