import MiniStore.Server.Sessions

/-!
# Deliveries

Published messages over whole runs of the process. The commands that are executed make the calls
of the `PubSubManager`, from inside a transaction or not, and so do the closings (`Server.calls`).
The calls alone say which messages a connection gets, and in which order (`received`); that is
what the process writes to it (`deliveries_exact`).
-/

namespace MiniStore

open InMemoryStore

namespace PubSubManager

/-- What a call after those of `past` sends to a connection. -/
def Call.sends (past : List Call) (connection : ClientConnection) : Call → List Str
  | .publish channel message =>
    if Subscribed past connection channel then [Reply.pushMessage channel message] else []
  | _ => []

/-- What calls after those of `past` send to a connection. -/
def received (connection : ClientConnection) : List Call → List Call → List Str
  | _, [] => []
  | past, call :: calls => call.sends past connection ++ received connection (past ++ [call]) calls

theorem received_append (connection : ClientConnection) (calls' : List Call) :
    ∀ past calls : List Call, received connection past (calls ++ calls') =
      received connection past calls ++ received connection (past ++ calls) calls'
  | past, [] => by rw [List.append_nil]; rfl
  | past, call :: calls => by
    rw [List.cons_append, received, received_append connection calls' (past ++ [call]) calls,
      received, List.append_assoc, List.append_assoc, List.singleton_append]

/-- What has been written to a connection. -/
def sentTo (connection : ClientConnection) (sent : List (ClientConnection × Str)) : List Str :=
  (sent.filter fun d => d.1 = connection).map Prod.snd

theorem sentTo_append (connection : ClientConnection) (sent sent' : List (ClientConnection × Str)) :
    sentTo connection (sent ++ sent') = sentTo connection sent ++ sentTo connection sent' := by
  rw [sentTo, List.filter_append, List.map_append]
  rfl

theorem sentTo_publish (calls : List Call) (connection : ClientConnection)
    (channel message : Str) : sentTo connection ((run calls).publish channel message).1 =
      Call.sends calls connection (.publish channel message) := by
  rw [sentTo, (publish_delivers (tracks_run calls) channel message).1 connection, Call.sends]
  split <;> rfl

end PubSubManager

open PubSubManager

def Command.call (connection : ClientConnection) : Command → Option Call
  | .subscribe (channel :: channels) => some (.subscribe connection channel channels)
  | .unsubscribe channels => some (.unsubscribe connection channels)
  | .publish channel message => some (.publish channel message)
  | _ => none

theorem CommandHandler.route_delivered {W : Type} (h : CommandHandler W) (line : Str)
    (connection : ClientConnection) : (h.route line connection).1.delivered = h.delivered := by
  have hr := h.route_routed line connection
  generalize h.route line connection = routed at hr ⊢
  cases hr <;> rfl

namespace Server

open CommandHandler

def executedCalls (connection : ClientConnection) (es : List Execution) : List Call :=
  es.flatMap fun e => (e.item.command.call connection).toList

def callsOf (st : Server) : ServerEvent → List Call
  | .line text connection clocks =>
    executedCalls connection (st.executionsOf (.line text connection clocks))
  | .close connection => if st.phase = .exited then [] else [.removeConnection connection]
  | _ => []

def calls : Server → List ServerEvent → List Call
  | _, [] => []
  | st, e :: es => st.callsOf e ++ calls (st.next e) es

/-- The subscriptions and the deliveries are those of the calls. -/
structure Delivered (calls : List Call) (h : CommandHandler AofWriter) : Prop where
  manager : h.pubSubManager = some (PubSubManager.run calls)
  sent : ∀ connection, sentTo connection h.delivered = received connection [] calls

section

variable {past : List Call} {h : CommandHandler AofWriter} {connection : ClientConnection}

theorem Delivered.execute (H : Delivered past h) (connection : ClientConnection)
    {item : QueuedCommand} (hp : parseCommand item.line = .ok item.command) (clocks : Clocks) :
    Delivered (past ++ (item.command.call connection).toList)
      (h.executeCommand item.command item.line connection clocks).1 := by
  have hwf := wf_of_parseCommand hp
  have he := h.executeCommand_executes item.command item.line connection clocks
  have hmanager := executeCommand_manager H.manager item.command item.line connection clocks
  have hsent := he.delivered
  rw [H.manager, Option.map_some, Option.getD_some] at hsent
  generalize h.executeCommand item.command item.line connection clocks = executed at hmanager hsent
  generalize item.command = c at hwf hmanager hsent
  have hquiet : subscriptions (PubSubManager.run past) connection c = PubSubManager.run past →
      published (PubSubManager.run past) c = [] → Delivered past executed.1 := by
    intro hs hd
    rw [hs] at hmanager
    rw [hd, List.append_nil] at hsent
    exact ⟨hmanager, fun c' => by rw [hsent]; exact H.sent c'⟩
  -- a call that publishes nothing sends nothing
  have hcall : ∀ call : Call,
      subscriptions (PubSubManager.run past) connection c = (PubSubManager.run past).step call →
      (∀ c', sentTo c' (published (PubSubManager.run past) c) = call.sends past c') →
      Delivered (past ++ [call]) executed.1 := by
    intro call hs hd
    refine ⟨by rw [hmanager, hs, run_snoc], fun c' => ?_⟩
    rw [hsent, sentTo_append, H.sent c', hd c', received_append, List.nil_append, received,
      received, List.append_nil]
  cases c with
  | subscribe channels =>
    obtain ⟨channel, channels, rfl⟩ := List.exists_cons_of_ne_nil hwf.1
    exact hcall (.subscribe connection channel channels) rfl fun _ => rfl
  | unsubscribe channels => exact hcall (.unsubscribe connection channels) rfl fun _ => rfl
  | publish channel message =>
    exact hcall (.publish channel message) rfl fun c' => sentTo_publish past c' channel message
  | _ =>
    have hnone : past ++ [] = past := List.append_nil past
    exact hnone.symm ▸ hquiet rfl rfl

theorem Delivered.executeQueue (H : Delivered past h) (clocks : Nat → Clocks)
    {items : List QueuedCommand}
    (hp : ∀ item ∈ items, parseCommand item.line = .ok item.command) :
    Delivered (past ++ executedCalls connection (executions connection clocks h items 0))
      (h.executeQueue connection clocks items 0).1 := by
  refine executions_rule
    (P := fun es h => Delivered (past ++ executedCalls connection es) h) (Q := fun _ => True)
    (fun {es h item clocks} H hitem _ => ?_) items 0 [] ?_ hp fun _ _ => trivial
  · have H1 := H.execute connection hitem clocks
    rw [executedCalls, List.flatMap_append, List.flatMap_singleton, ← List.append_assoc]
    exact H1
  · rw [executedCalls, List.flatMap_nil, List.append_nil]
    exact H

theorem Delivered.congr (H : Delivered past h) {h' : CommandHandler AofWriter}
    (hm : h'.pubSubManager = h.pubSubManager) (hd : h'.delivered = h.delivered) :
    Delivered past h' :=
  ⟨hm.trans H.manager, fun c => by rw [hd]; exact H.sent c⟩

end

theorem parsed_next {st : Server} (hp : st.handler.Parsed) (e : ServerEvent) :
    (st.next e).handler.Parsed := by
  rcases next_clients st e with hsame | ⟨connection, -, he⟩ | ⟨text, connection, clocks, -, -, he⟩
  · exact fun id queue hq => hp id queue (hsame.transactions ▸ hq)
  · rw [he]
    exact hp
  · have hsessions := st.handler.handleLine_sessions text connection clocks
    rw [he]
    exact fun id queue hq =>
      (route_parsed hp text connection).1 id queue (hsessions.transactions ▸ hq)

theorem parsed_run (events : List ServerEvent) : ∀ {st : Server}, st.handler.Parsed →
    (st.run events).handler.Parsed := by
  induction events with
  | nil => exact fun hp => hp
  | cons e events ih => exact fun hp => ih (parsed_next hp e)

theorem delivered_next {past : List Call} {st : Server} (hp : st.handler.Parsed)
    (H : Delivered past st.handler) (e : ServerEvent) :
    Delivered (past ++ st.callsOf e) (st.next e).handler := by
  have hsame : (∀ text connection clocks, e ≠ .line text connection clocks) →
      (∀ connection, e ≠ .close connection) → st.callsOf e = [] →
      Delivered (past ++ st.callsOf e) (st.next e).handler := by
    intro hl hc hcalls
    rw [hcalls, List.append_nil]
    rcases next_clients st e with hsame | ⟨connection, he, -⟩ | ⟨text, connection, clocks, he, -⟩
    · exact H.congr hsame.pubSubManager hsame.delivered
    · exact absurd he (hc connection)
    · exact absurd he (hl text connection clocks)
  cases e with
  | line text connection clocks =>
    cases hl : st.listening with
    | true =>
      obtain ⟨-, hitems⟩ := route_parsed hp text connection
      obtain ⟨-, -, -, hm⟩ := st.handler.route_data text connection
      have hd : (st.handler.route text connection).1.delivered = st.handler.delivered :=
        st.handler.route_delivered text connection
      rw [(next_line hl text connection clocks).1,
        (st.handler.handleLine_executed text connection clocks).1, callsOf, executionsOf, if_pos hl]
      exact (H.congr hm hd).executeQueue clocks hitems
    | false =>
      have hcalls : st.callsOf (.line text connection clocks) = [] := by
        rw [callsOf, executionsOf, hl]
        rfl
      rw [next_deaf hl, hcalls, List.append_nil]
      exact H
  | close connection =>
    rw [Server.next, callsOf]
    split
    · rw [List.append_nil]
      exact H
    · refine ⟨?_, fun c => ?_⟩
      · rw [run_snoc]
        show st.handler.pubSubManager.map _ = _
        rw [H.manager]
        rfl
      · show sentTo c st.handler.delivered = _
        rw [H.sent c, received_append, List.nil_append]
        exact (List.append_nil _).symm
  | _ => exact hsame (fun _ _ _ h => by cases h) (fun _ h => by cases h) rfl

theorem delivered_run (events : List ServerEvent) : ∀ {past : List Call} {st : Server},
    st.handler.Parsed → Delivered past st.handler →
    Delivered (past ++ st.calls events) (st.run events).handler := by
  induction events with
  | nil =>
    intro past st _ H
    rw [calls, List.append_nil]
    exact H
  | cons e events ih =>
    intro past st hp H
    have hrest := ih (parsed_next hp e) (delivered_next hp H e)
    rw [List.append_assoc] at hrest
    exact hrest

/-- For every server as `main` starts it and every run: the maps of the `PubSubManager` are those
of the calls, each connection has been sent the messages published on its channels while it was
subscribed to them, each once and in order, and a PUBLISH outside of a transaction is answered
with the number of the connections that get its message. -/
theorem deliveries_exact (store : InMemoryStore) (pm : Option PersistenceManager)
    (requirepass : Option Str) (disabledCommands : List Str) (path : Str)
    (fsyncPolicy : FsyncPolicy) (fs : Fs) (events : List ServerEvent) :
    let st0 := main (CommandHandler.create store pm none (some PubSubManager.empty) requirepass
      disabledCommands) path fsyncPolicy fs
    (st0.run events).handler.pubSubManager = some (PubSubManager.run (st0.calls events)) ∧
    (∀ connection, sentTo connection (st0.run events).handler.delivered =
      received connection [] (st0.calls events)) ∧
    ∀ text connection channel message clocks,
      ((st0.run events).handler.route text connection).2 = .direct (.publish channel message) →
      ∃ n : Nat, ((st0.run events).handler.handleLine text connection clocks).2 =
          some (Reply.integer n) ∧
        Set.encard {c | Subscribed (st0.calls events) c channel} = n := by
  intro st0
  have H0 : Delivered [] st0.handler := ⟨rfl, fun _ => rfl⟩
  have hp : st0.handler.Parsed := fun id queue hq => by cases hq
  have H := delivered_run events hp H0
  rw [List.nil_append] at H
  refine ⟨H.manager, H.sent, fun text connection channel message clocks hr => ?_⟩
  have hm := ((st0.run events).handler.route_data text connection).2.2.2
  refine ⟨_, ?_, (publish_delivers (tracks_run (st0.calls events)) channel message).2⟩
  rw [H.manager] at hm
  rw [CommandHandler.handleLine]
  generalize (st0.run events).handler.route text connection = routed at hm hr
  rcases routed with ⟨h, _⟩
  cases hr
  have hm : h.pubSubManager = _ := hm
  simp only [executeCommand, hm, answer]

/-- Two connections subscribe, one of them from a transaction. -/
def twoSubscribers : List ServerEvent :=
  [send "SUBSCRIBE ch", .line "MULTI".toList ⟨2, "web".toList⟩ fun _ => Clocks.still 0,
    .line "SUBSCRIBE ch".toList ⟨2, "web".toList⟩ fun _ => Clocks.still 0,
    .line "EXEC".toList ⟨2, "web".toList⟩ fun _ => Clocks.still 0]

theorem deliveries_exact_twoSubscribers :
    ((booted.run twoSubscribers).handler.handleLine "PUBLISH ch hi".toList ⟨3, "tcp".toList⟩
      fun _ => Clocks.still 0).2 = some ":2\r\n".toList ∧
    ∃ n : Nat, ((booted.run twoSubscribers).handler.handleLine "PUBLISH ch hi".toList
        ⟨3, "tcp".toList⟩ fun _ => Clocks.still 0).2 = some (Reply.integer n) ∧
      Set.encard {c | Subscribed (booted.calls twoSubscribers) c "ch".toList} = n := by
  refine ⟨by decide, ?_⟩
  obtain ⟨-, -, hpublish⟩ := deliveries_exact (InMemoryStore.create 2 Nat.two_pos)
    (some (PersistenceManager.create none)) none [] "aof".toList .no Fs.empty twoSubscribers
  exact hpublish "PUBLISH ch hi".toList ⟨3, "tcp".toList⟩ "ch".toList "hi".toList _ (by decide)

end Server

end MiniStore
