import MiniStore.Lib.OrdMap
import MiniStore.Protocol.Replies

/-!
# PubSubManager

Two maps: from a channel to the connections subscribed to it, and from a
connection to its channels. A set is the list of its elements in insertion order.
-/

namespace MiniStore

/-- A client connection: an object identity and the `id` of the interface. -/
structure ClientConnection where
  ref : Nat
  id : Str
  deriving DecidableEq

structure PubSubManager where
  channels : OrdMap Str (List ClientConnection)
  connections : OrdMap ClientConnection (List Str)
  deriving DecidableEq

namespace PubSubManager

def empty : PubSubManager := ⟨OrdMap.empty, OrdMap.empty⟩

/-- `Set.prototype.add`. -/
def setAdd {α : Type} [DecidableEq α] (set : List α) (a : α) : List α :=
  if a ∈ set then set else set ++ [a]

/-- `Set.prototype.delete`. -/
def setDelete {α : Type} [DecidableEq α] (set : List α) (a : α) : List α :=
  set.filter fun b => b ≠ a

/-- The channels of a connection, or the set created for it. -/
def channelsOf (m : PubSubManager) (connection : ClientConnection) : List Str :=
  (m.connections.get? connection).getD []

def subscribeOne (connection : ClientConnection) (m : PubSubManager) (channel : Str) :
    PubSubManager :=
  ⟨m.channels.set channel (setAdd ((m.channels.get? channel).getD []) connection),
    m.connections.set connection (setAdd (m.channelsOf connection) channel)⟩

def subscribeLoop (connection : ClientConnection) :
    List Str → PubSubManager → PubSubManager × List Str
  | [], m => (m, [])
  | channel :: rest, m =>
    let m := subscribeOne connection m channel
    match subscribeLoop connection rest m with
    | (m', replies) =>
      (m', Reply.subscribe channel (m.channelsOf connection).length :: replies)

def subscribe (m : PubSubManager) (connection : ClientConnection) (channels : List Str) :
    PubSubManager × List Str :=
  subscribeLoop connection channels
    { m with connections := m.connections.set connection (m.channelsOf connection) }

/-- Take a connection out of a channel, and drop the channel when it has none left. -/
def leave (connection : ClientConnection) (m : PubSubManager) (channel : Str) : PubSubManager :=
  match m.channels.get? channel with
  | none => m
  | some conns =>
    let conns := setDelete conns connection
    { m with channels := if conns.length = 0 then m.channels.delete channel
        else m.channels.set channel conns }

def unsubscribeLoop (connection : ClientConnection) :
    List Str → PubSubManager → PubSubManager × List Str
  | [], m => (m, [])
  | channel :: rest, m =>
    let left := setDelete (m.channelsOf connection) channel
    let m := leave connection { m with connections := m.connections.set connection left } channel
    match unsubscribeLoop connection rest m with
    | (m', replies) => (m', Reply.unsubscribe channel left.length :: replies)

def unsubscribe (m : PubSubManager) (connection : ClientConnection) (channels : List Str) :
    PubSubManager × List Str :=
  match m.connections.get? connection with
  | none => (m, channels.map fun ch => Reply.unsubscribe ch 0)
  | some connChannels =>
    match unsubscribeLoop connection (if channels.length > 0 then channels else connChannels) m with
    | (m, replies) =>
      (if (m.channelsOf connection).length = 0 then
        { m with connections := m.connections.delete connection } else m, replies)

def publish (m : PubSubManager) (channel message : Str) : List (ClientConnection × Str) × Nat :=
  match m.channels.get? channel with
  | none => ([], 0)
  | some conns => (conns.map fun conn => (conn, Reply.pushMessage channel message), conns.length)

def removeConnection (m : PubSubManager) (connection : ClientConnection) : PubSubManager :=
  match m.connections.get? connection with
  | none => m
  | some connChannels =>
    let m := connChannels.foldl (leave connection) m
    { m with connections := m.connections.delete connection }

def isSubscribed (m : PubSubManager) (connection : ClientConnection) : Bool :=
  match m.connections.get? connection with
  | none => false
  | some connChannels => connChannels.length > 0

/-- The channels that are confirmed to a connection that unsubscribes. -/
def targets (m : PubSubManager) (connection : ClientConnection) (channels : List Str) :
    List Str :=
  if channels.length > 0 then channels else m.channelsOf connection

/-! ## Leaving changes no connection's channels -/

theorem connections_leave (connection : ClientConnection) (m : PubSubManager) (channel : Str) :
    (leave connection m channel).connections = m.connections := by
  unfold leave
  split <;> rfl

theorem connections_foldl_leave (connection : ClientConnection) (channels : List Str)
    (m : PubSubManager) : (channels.foldl (leave connection) m).connections = m.connections := by
  induction channels generalizing m with
  | nil => rfl
  | cons channel channels ih => rw [List.foldl_cons, ih, connections_leave]

end PubSubManager

end MiniStore
