import MiniStore.Lib.Trace
import MiniStore.Server.Answers
import MiniStore.Server.Gates
import MiniStore.Server.Registry

/-!
# Subscriber mode

The gate that keeps subscribed connections to SUBSCRIBE and UNSUBSCRIBE is passed once a line,
but the line may be an EXEC whose commands subscribe. A transaction respects the mode exactly
when no other command of it comes while a channel is joined, counting from none (`Modest`),
and runs of such transactions are the runs that respect it (`subscriber_mode`).
-/

namespace MiniStore

open InMemoryStore

namespace PubSubManager

theorem isSubscribed_eq_false {m : PubSubManager} {connection : ClientConnection} :
    m.isSubscribed connection = false ↔ m.channelsOf connection = [] := by
  unfold isSubscribed channelsOf
  cases m.connections.get? connection with
  | none => exact iff_of_true rfl rfl
  | some channels =>
    rw [Option.getD_some, decide_eq_false_iff_not, Nat.not_lt, Nat.le_zero,
      List.length_eq_zero_iff]

section

variable (connection : ClientConnection)

theorem channelsOf_set (m : PubSubManager) (channels : OrdMap Str (List ClientConnection))
    (s : List Str) : channelsOf ⟨channels, m.connections.set connection s⟩ connection = s := by
  rw [channelsOf, OrdMap.get?_set_self, Option.getD_some]

theorem channelsOf_subscribeLoop : ∀ (channels : List Str) (m : PubSubManager),
    (subscribeLoop connection channels m).1.channelsOf connection =
      channels.foldl setAdd (m.channelsOf connection)
  | [], _ => rfl
  | channel :: channels, m => by
    refine (channelsOf_subscribeLoop channels (subscribeOne connection m channel)).trans ?_
    rw [subscribeOne, channelsOf_set, List.foldl_cons]

theorem channelsOf_unsubscribeLoop : ∀ (channels : List Str) (m : PubSubManager),
    (unsubscribeLoop connection channels m).1.channelsOf connection =
      channels.foldl setDelete (m.channelsOf connection)
  | [], _ => rfl
  | channel :: channels, m => by
    refine (channelsOf_unsubscribeLoop channels (leave connection { m with
      connections := m.connections.set connection (setDelete (m.channelsOf connection) channel) }
        channel)).trans ?_
    rw [channelsOf, connections_leave, OrdMap.get?_set_self, Option.getD_some, List.foldl_cons]

theorem mem_foldl_setDelete {removed : List Str} {c : Str} : ∀ {channels : List Str},
    c ∈ removed.foldl setDelete channels ↔ c ∈ channels ∧ c ∉ removed := by
  induction removed with
  | nil => simp
  | cons channel removed ih =>
    intro channels
    rw [List.foldl_cons, ih, mem_setDelete, List.mem_cons, not_or, and_assoc]

theorem foldl_setDelete_self (channels : List Str) : channels.foldl setDelete channels = [] :=
  List.eq_nil_iff_forall_not_mem.mpr fun _ hc =>
    (mem_foldl_setDelete.mp hc).2 (mem_foldl_setDelete.mp hc).1

theorem foldl_setDelete_nil (removed : List Str) : removed.foldl setDelete [] = [] :=
  List.eq_nil_iff_forall_not_mem.mpr fun _ hc =>
    List.not_mem_nil (mem_foldl_setDelete.mp hc).1

theorem channelsOf_unsubscribe (m : PubSubManager) (channels : List Str) :
    (m.unsubscribe connection channels).1.channelsOf connection =
      (m.targets connection channels).foldl setDelete (m.channelsOf connection) := by
  cases hm : m.connections.get? connection with
  | none =>
    have hchannels : m.channelsOf connection = [] := by rw [channelsOf, hm, Option.getD_none]
    simp only [unsubscribe, hm, hchannels, foldl_setDelete_nil]
  | some connChannels =>
    have htargets : (if channels.length > 0 then channels else connChannels) =
        m.targets connection channels := by
      unfold targets channelsOf
      rw [hm, Option.getD_some]
    have hloop := channelsOf_unsubscribeLoop connection (m.targets connection channels) m
    simp only [unsubscribe, hm, htargets]
    split
    · next hempty =>
      rw [List.length_eq_zero_iff.mp hempty] at hloop
      rw [← hloop, channelsOf, OrdMap.get?_delete, if_pos rfl, Option.getD_none]
    · exact hloop

end

end PubSubManager

namespace CommandHandler

/-- The channels a connection has after a command, from those it has before. -/
def channelsAfter (channels : List Str) : Command → List Str
  | .subscribe added => added.foldl PubSubManager.setAdd channels
  | .unsubscribe removed =>
    if removed.length > 0 then removed.foldl PubSubManager.setDelete channels else []
  | _ => channels

/-- Read in order from the given channels, no command but SUBSCRIBE and UNSUBSCRIBE comes while
there is a channel. -/
def Modest : List Str → List QueuedCommand → Prop
  | _, [] => True
  | channels, item :: items =>
    (isSubscriptionCommand item.command = false → channels = []) ∧
      Modest (channelsAfter channels item.command) items

instance decidableModest : ∀ (channels : List Str) (items : List QueuedCommand),
    Decidable (Modest channels items)
  | _, [] => .isTrue trivial
  | channels, item :: items =>
    have := decidableModest (channelsAfter channels item.command) items
    inferInstanceAs (Decidable (_ ∧ _))

theorem channelsOf_subscriptions (m : PubSubManager) (connection : ClientConnection)
    (c : Command) : (subscriptions m connection c).channelsOf connection =
      channelsAfter (m.channelsOf connection) c := by
  cases c with
  | subscribe channels =>
    simp only [subscriptions, channelsAfter]
    rw [PubSubManager.subscribe, PubSubManager.channelsOf_subscribeLoop,
      PubSubManager.channelsOf_set]
  | unsubscribe channels =>
    simp only [subscriptions, channelsAfter]
    rw [PubSubManager.channelsOf_unsubscribe, PubSubManager.targets]
    split
    · rfl
    · exact PubSubManager.foldl_setDelete_self _
  | _ => rfl

theorem subscribed_eq_false {W : Type} {h : CommandHandler W} {m : PubSubManager}
    (hm : h.pubSubManager = some m) {connection : ClientConnection} :
    h.subscribed connection = false ↔ m.channelsOf connection = [] := by
  rw [subscribed, hm, Option.any_some, PubSubManager.isSubscribed_eq_false]

end CommandHandler

/-- The command finds the connection in the mode it asks for. -/
def Execution.InMode (connection : ClientConnection) (e : Execution) : Prop :=
  CommandHandler.isSubscriptionCommand e.item.command = false →
    e.handler.subscribed connection = false

namespace Server

open CommandHandler Trace

section

variable (connection : ClientConnection) (clocks : Nat → Clocks)

/-- The commands of a modest queue are in mode, and if nothing is thrown only theirs are. -/
theorem inMode_executions : ∀ (items : List QueuedCommand) (i : Nat)
    {h : CommandHandler AofWriter} {m : PubSubManager}, h.pubSubManager = some m →
    (Modest (m.channelsOf connection) items →
      ∀ e ∈ executions connection clocks h items i, Execution.InMode connection e) ∧
    ((h.executeQueue connection clocks items i).2.isSome = true →
      (∀ e ∈ executions connection clocks h items i, Execution.InMode connection e) →
      Modest (m.channelsOf connection) items)
  | [], _, _, _, _ => ⟨fun _ _ he => absurd he List.not_mem_nil, fun _ _ => trivial⟩
  | item :: items, i, h, m, hm => by
    have hm1 := executeCommand_manager hm item.command item.line connection (clocks i)
    have hmode : Execution.InMode connection ⟨h, item, clocks i⟩ ↔
        (isSubscriptionCommand item.command = false → m.channelsOf connection = []) :=
      imp_congr_right fun _ => subscribed_eq_false hm
    rw [executions, CommandHandler.executeQueue, Modest, List.forall_mem_cons, hmode,
      ← channelsOf_subscriptions]
    generalize h.executeCommand item.command item.line connection (clocks i) = executed at hm1 ⊢
    rcases executed with ⟨h', _ | reply⟩
    · exact ⟨fun hq => ⟨hq.1, fun _ he => absurd he List.not_mem_nil⟩, fun hs => by cases hs⟩
    · obtain ⟨hall, hback⟩ := inMode_executions items (i + 1) hm1
      refine ⟨fun hq => ⟨hq.1, hall hq.2⟩, fun hs hq => ⟨hq.1, hback ?_ hq.2⟩⟩
      rwa [Option.isSome_map] at hs

end

def InMode (st : Server) : ServerEvent → Prop
  | .line text connection clocks =>
    ∀ e ∈ st.executionsOf (.line text connection clocks), Execution.InMode connection e
  | _ => True

/-- If the step runs a transaction, it is a modest one. -/
def ModestStep (st : Server) : ServerEvent → Prop
  | .line text connection _ => ∀ items, st.listening = true →
    (st.handler.route text connection).2 = .queue items → Modest [] items
  | _ => True

/-- No write to the log throws in the step. -/
def Answered (st : Server) : ServerEvent → Prop
  | .line text connection clocks => (st.handler.handleLine text connection clocks).2.isSome = true
  | _ => True

theorem inMode_step {st : Server} {m : PubSubManager} (hm : st.handler.pubSubManager = some m)
    (e : ServerEvent) :
    (ModestStep st e → InMode st e) ∧ (Answered st e → InMode st e → ModestStep st e) := by
  cases e with
  | line text connection clocks =>
    have hline := (st.handler.handleLine_executed text connection clocks).2
    have hr := route_routed st.handler text connection
    simp only [InMode, ModestStep, Answered, executionsOf, executed, hline]
    generalize st.handler.route text connection = routed at hr ⊢
    cases st.listening with
    | false => exact ⟨fun _ _ he => absurd he List.not_mem_nil, fun _ _ _ h => by cases h⟩
    | true =>
      cases hr with
      | refused | authenticated | begun | dropped | queued =>
        exact ⟨fun _ _ he => absurd he List.not_mem_nil, fun _ _ _ _ h => by cases h⟩
      | direct ha =>
        refine ⟨fun _ => ?_, fun _ _ _ _ h => by cases h⟩
        refine (inMode_executions connection clocks _ 0 hm).1 ⟨fun hs => ?_, trivial⟩
        exact (subscribed_eq_false hm).mp
          (ha.mode.resolve_right fun hsub => Bool.false_ne_true (hs.symm.trans hsub))
      | @run queue ha =>
        have hnone := (subscribed_eq_false hm).mp (ha.mode.resolve_right Bool.false_ne_true)
        obtain ⟨hall, hback⟩ := inMode_executions connection clocks queue 0 (h := { st.handler with
          transactions := st.handler.transactions.delete connection.id }) hm
        rw [hnone] at hall hback
        refine ⟨fun hq => hall (hq queue rfl rfl), fun hs hq items _ hi => ?_⟩
        cases hi
        exact hback hs hq
  | _ => exact ⟨fun _ => trivial, fun _ _ => trivial⟩

theorem manager_move {h h' : CommandHandler AofWriter} (hmove : Move h h')
    (H : ∃ m, h.pubSubManager = some m) : ∃ m, h'.pubSubManager = some m := by
  cases hmove with
  | line text connection clocks =>
    rw [(h.handleLine_executed text connection clocks).1]
    refine executeQueue_rule (P := fun h => ∃ m, h.pubSubManager = some m) (Q := fun _ => True)
      (fun clocks H _ => ?_) clocks _ 0 ?_ fun _ _ => trivial
    · obtain ⟨m, hm⟩ := H
      exact ⟨_, executeCommand_manager hm _ _ connection clocks⟩
    · rw [(h.route_data text connection).2.2.2]
      exact H
  | save clocks =>
    unfold startSave
    split
    · exact H
    · exact H
  | sweep | saved | log => exact H
  | close connection =>
    obtain ⟨m, hm⟩ := H
    exact ⟨m.removeConnection connection, by rw [hm, Option.map_some]⟩

/-- Runs whose transactions are modest respect subscriber mode, and if no write to the log
throws, only they do. -/
theorem subscriber_mode (st : Server) (hm : ∃ m, st.handler.pubSubManager = some m)
    (events : List ServerEvent) :
    (Along Server.next ModestStep st events → Along Server.next InMode st events) ∧
      (Along Server.next Answered st events → Along Server.next InMode st events →
        Along Server.next ModestStep st events) := by
  have hkeep : ∀ {st : Server} {e : ServerEvent}, (∃ m, st.handler.pubSubManager = some m) →
      ∃ m, (st.next e).handler.pubSubManager = some m := fun h => next_rule manager_move h _
  constructor
  · refine Along.imp (J := fun st => ∃ m, st.handler.pubSubManager = some m) hkeep
      (fun H h => ?_) hm
    obtain ⟨m, hm⟩ := H
    exact (inMode_step hm _).1 h
  · intro ha hi
    refine Along.imp (J := fun st => ∃ m, st.handler.pubSubManager = some m) hkeep
      (fun H h => ?_) hm (ha.and hi)
    obtain ⟨m, hm⟩ := H
    exact (inMode_step hm _).2 h.1 h.2

def leavingFirst : List ServerEvent :=
  [send "MULTI", send "SUBSCRIBE c", send "UNSUBSCRIBE", send "SET a 1", send "EXEC"]

theorem subscriber_mode_leavingFirst : Along Server.next InMode booted leavingFirst := by
  refine (subscriber_mode booted ⟨_, rfl⟩ leavingFirst).1
    ⟨?_, ?_, ?_, ?_, ?_, trivial⟩
  · intro items _ h
    cases h
  · intro items _ h
    cases h
  · intro items _ h
    cases h
  · intro items _ h
    cases h
  · intro items _ h
    cases h
    decide

def joiningFirst : List ServerEvent :=
  [send "MULTI", send "SUBSCRIBE c", send "SET a 1", send "EXEC"]

theorem subscriber_mode_bypassed : ¬ Along Server.next InMode booted joiningFirst := by
  rintro ⟨-, -, -, h, -⟩
  revert h
  show ¬ ∀ e ∈ _, _ → _
  decide

end Server

end MiniStore
