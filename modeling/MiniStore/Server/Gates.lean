import MiniStore.Server.CommandHandler

/-!
# The gates

What `route` can come to, once and for all (`Routed`): a line is refused, authenticates its
connection, or is admitted, and then opens, runs or drops a transaction, joins one, or is
executed at once. Everything about sessions is read off this list.
-/

namespace MiniStore

namespace CommandHandler

variable {W : Type}

def isTransactionCommand : Command → Bool
  | .multi | .exec | .discard => true
  | _ => false

theorem isTransactionCommand_eq_false {command : Command} (hmulti : command ≠ .multi)
    (hexec : command ≠ .exec) (hdiscard : command ≠ .discard) :
    isTransactionCommand command = false := by
  unfold isTransactionCommand
  split
  · exact absurd rfl hmulti
  · exact absurd rfl hexec
  · exact absurd rfl hdiscard
  · rfl

/-- The line is let through to the transaction commands. -/
structure Admits (h : CommandHandler W) (line : Str) (connection : ClientConnection)
    (command : Command) : Prop where
  parsed : parseCommand line = .ok command
  authenticated : h.needsAuth connection = false
  enabled : command.name ∉ h.disabledCommands
  mode : h.subscribed connection = false ∨ isSubscriptionCommand command = true

inductive Routed (h : CommandHandler W) (line : Str) (connection : ClientConnection) :
    CommandHandler W × Route → Prop
  | refused (message : Str) : Routed h line connection (h, .answered (Reply.error message))
  | authenticated {password : Str} (hp : parseCommand line = .ok (.auth password))
      (hn : h.needsAuth connection = true) (hr : h.requirepass = some password) :
      Routed h line connection ({ h with
        authenticated := PubSubManager.setAdd h.authenticated connection.id }, .answered Reply.ok)
  | begun (ha : h.Admits line connection .multi) (ht : h.transactions.get? connection.id = none) :
      Routed h line connection ({ h with
        transactions := h.transactions.set connection.id [] }, .answered Reply.ok)
  | run {queue : List QueuedCommand} (ha : h.Admits line connection .exec)
      (ht : h.transactions.get? connection.id = some queue) :
      Routed h line connection ({ h with
        transactions := h.transactions.delete connection.id }, .queue queue)
  | dropped {queue : List QueuedCommand} (ha : h.Admits line connection .discard)
      (ht : h.transactions.get? connection.id = some queue) :
      Routed h line connection ({ h with
        transactions := h.transactions.delete connection.id }, .answered Reply.ok)
  | queued {command : Command} {queue : List QueuedCommand} (ha : h.Admits line connection command)
      (hc : isTransactionCommand command = false)
      (ht : h.transactions.get? connection.id = some queue) :
      Routed h line connection ({ h with
        transactions := h.transactions.set connection.id (queue ++ [⟨line, command⟩]) },
        .answered (Reply.okWith "QUEUED".toList))
  | direct {command : Command} (ha : h.Admits line connection command)
      (hc : isTransactionCommand command = false)
      (ht : h.transactions.get? connection.id = none) :
      Routed h line connection (h, .direct command)

theorem routeTransaction_routed {h : CommandHandler W} {line : Str} {connection : ClientConnection}
    {command : Command} (ha : h.Admits line connection command) :
    Routed h line connection (h.routeTransaction command line connection) := by
  unfold routeTransaction
  split
  · exact .refused _
  · next ht => exact .begun ha ht
  · exact .refused _
  · next ht => exact .run ha ht
  · exact .refused _
  · next ht => exact .dropped ha ht
  · next hmulti hexec hdiscard ht =>
    exact .queued ha (isTransactionCommand_eq_false hmulti hexec hdiscard) ht
  · next hmulti hexec hdiscard ht =>
    exact .direct ha (isTransactionCommand_eq_false hmulti hexec hdiscard) ht

theorem route_routed (h : CommandHandler W) (line : Str) (connection : ClientConnection) :
    Routed h line connection (h.route line connection) := by
  unfold route
  split
  · exact .refused _
  · next command hp =>
    split
    · next hn =>
      split
      · split
        · next hr => exact .authenticated hp hn hr.symm
        · exact .refused _
      · exact .refused _
    · next hn =>
      split
      · exact .refused _
      · next he =>
        split
        · exact .refused _
        · next hm =>
          refine routeTransaction_routed ⟨hp, Bool.eq_false_iff.mpr hn, he, ?_⟩
          cases hs : h.subscribed connection with
          | false => exact .inl rfl
          | true =>
            rw [hs, Bool.true_and, Bool.not_eq_true', Bool.not_eq_false] at hm
            exact .inr hm

theorem routeTransaction_direct {h : CommandHandler W} {connection : ClientConnection}
    {command : Command} (hc : isTransactionCommand command = false)
    (ht : h.transactions.get? connection.id = none) (line : Str) :
    h.routeTransaction command line connection = (h, .direct command) := by
  unfold routeTransaction
  rw [ht]
  cases command with
  | multi | exec | discard => cases hc
  | _ => rfl

end CommandHandler

end MiniStore
