import MiniStore.Server.Process

/-!
# Failing writes

A command changes the store before it is logged, and nothing is undone. When a write to the log
throws, the line ends there (`executeQueue_thrown_at`), and the handler is left as one whose log
never fails would be after the same commands (`executeQueue_unfailing`).
-/

namespace MiniStore

open InMemoryStore

/-- A log whose writes go the same way, and never throw. -/
structure Unfailing (W : Type) where
  log : W

instance {W : Type} [AofSink W] : AofSink (Unfailing W) where
  write w line := (⟨(AofSink.write w.log line).1⟩, true)
  rewrite w s clocks :=
    (⟨(AofSink.rewrite w.log s clocks).1⟩, (AofSink.rewrite w.log s clocks).2)

namespace CommandHandler

variable {W : Type}

def unfailing (h : CommandHandler W) : CommandHandler (Unfailing W) :=
  ⟨h.store, h.persistenceManager, h.aofWriter.map Unfailing.mk, h.pubSubManager, h.requirepass,
    h.disabledCommands, h.transactions, h.authenticated, h.delivered⟩

/-- The results of a command on the two handlers: only the one may lose its reply. -/
def SameEffect (r : CommandHandler W × Option Str)
    (r' : CommandHandler (Unfailing W) × Option Str) : Prop :=
  ∃ reply, r' = (r.1.unfailing, some reply) ∧ (r.2 = some reply ∨ r.2 = none)

theorem answer_unfailing (h : CommandHandler W) (s : InMemoryStore) (reply : Str) :
    SameEffect (h.answer s reply) (h.unfailing.answer s reply) :=
  ⟨reply, rfl, .inl rfl⟩

variable [AofSink W]

theorem finish_unfailing (h : CommandHandler W) (s : InMemoryStore) (logged : Bool)
    (line reply : Str) :
    SameEffect (h.finish s logged line reply) (h.unfailing.finish s logged line reply) := by
  unfold finish writeAof
  cases logged with
  | false => exact answer_unfailing h s reply
  | true =>
    cases hw : h.aofWriter with
    | none =>
      simp only [unfailing, hw, if_true, Option.map_none]
      exact ⟨reply, rfl, .inl rfl⟩
    | some w =>
      simp only [unfailing, hw, if_true, Option.map_some]
      have hwrite : AofSink.write (Unfailing.mk w) line =
          (Unfailing.mk (AofSink.write w line).1, true) := rfl
      rw [hwrite]
      rcases AofSink.write w line with ⟨w', _ | _⟩
      · exact ⟨reply, rfl, .inr rfl⟩
      · exact ⟨reply, rfl, .inl rfl⟩

/-- A command does the same, and gets its reply. -/
theorem executeCommand_unfailing (h : CommandHandler W) (c : Command) (line : Str)
    (connection : ClientConnection) (clocks : Clocks) :
    SameEffect (h.executeCommand c line connection clocks)
      (h.unfailing.executeCommand c line connection clocks) := by
  cases c with
  | set | del | expire | persist | lpush | rpush | lpop | rpop | hset | hdel =>
    exact h.finish_unfailing _ _ line _
  | «exists» | ttl | keys | lrange | llen | hget | hgetall | hlen | auth | multi | exec | discard =>
    exact h.answer_unfailing _ _
  | get key =>
    have hstore : h.unfailing.store = h.store := rfl
    simp only [executeCommand, hstore]
    split_ifs
    · exact answer_unfailing h _ Reply.wrongType
    · rcases (h.store.keyType key (clocks 0)).1.get key (clocks 1) with ⟨s, _ | found⟩
      · exact answer_unfailing h s Reply.nil
      · exact answer_unfailing h s (Reply.value found)
  -- A part that is not configured is missing on both sides.
  | bgsave =>
    rcases h with ⟨store, _ | pm, w, m, password, disabled, transactions, authenticated, delivered⟩
    · exact answer_unfailing _ store _
    · exact ⟨_, rfl, .inl rfl⟩
  | subscribe channels =>
    rcases h with ⟨store, pm, w, _ | m, password, disabled, transactions, authenticated, delivered⟩
    · exact answer_unfailing _ store _
    · exact ⟨_, rfl, .inl rfl⟩
  | unsubscribe channels =>
    rcases h with ⟨store, pm, w, _ | m, password, disabled, transactions, authenticated, delivered⟩
    · exact answer_unfailing _ store _
    · exact ⟨_, rfl, .inl rfl⟩
  | publish channel message =>
    rcases h with ⟨store, pm, w, _ | m, password, disabled, transactions, authenticated, delivered⟩
    · exact answer_unfailing _ store _
    · exact ⟨_, rfl, .inl rfl⟩
  | bgrewriteaof =>
    rcases h with ⟨store, pm, _ | w, m, password, disabled, transactions, authenticated, delivered⟩
    · exact answer_unfailing _ store _
    · exact ⟨_, rfl, .inl rfl⟩

/-- The queue ends at `item`: what comes before it has been executed and answered, the write of
its line throws, and the handler is left as one whose log never fails is after `item`. -/
structure CutAt (h : CommandHandler W) (connection : ClientConnection) (clocks : Nat → Clocks)
    (items : List QueuedCommand) (i : Nat) (first : List QueuedCommand) (item : QueuedCommand) :
    Prop where
  begins : first ++ [item] <+: items
  answered : (h.executeQueue connection clocks first i).2.isSome = true
  thrown : ((h.executeQueue connection clocks first i).1.executeCommand item.command item.line
    connection (clocks (i + first.length))).2 = none
  complete : (h.unfailing.executeQueue connection clocks (first ++ [item]) i).1 =
    (h.executeQueue connection clocks items i).1.unfailing

theorem executeQueue_cut (connection : ClientConnection) (clocks : Nat → Clocks) :
    ∀ (items : List QueuedCommand) (i : Nat) {h : CommandHandler W},
      (h.executeQueue connection clocks items i).2 = none →
      ∃ first item, h.CutAt connection clocks items i first item
  | [], _, h, he => by cases he
  | item :: items, i, h, he => by
    obtain ⟨reply, hu, -⟩ :=
      h.executeCommand_unfailing item.command item.line connection (clocks i)
    rcases hx : h.executeCommand item.command item.line connection (clocks i) with ⟨h', _ | r⟩
    · refine ⟨[], item, List.prefix_append [item] items, rfl, ?_, ?_⟩
      · show (h.executeCommand item.command item.line connection (clocks i)).2 = none
        rw [hx]
      · rw [List.nil_append, executeQueue, hu, executeQueue, hx]
        rfl
    · rw [executeQueue, hx] at he
      have he : (h'.executeQueue connection clocks items (i + 1)).2 = none :=
        Option.map_eq_none_iff.mp he
      obtain ⟨first, failed, hbegins, hanswered, hthrown, hcomplete⟩ :=
        executeQueue_cut connection clocks items (i + 1) he
      refine ⟨item :: first, failed, List.cons_prefix_cons.mpr ⟨rfl, hbegins⟩, ?_, ?_, ?_⟩
      · rw [executeQueue, hx]
        exact (Option.isSome_map ..).trans hanswered
      · rw [executeQueue, hx, List.length_cons, Nat.add_comm first.length, ← Nat.add_assoc]
        exact hthrown
      · rw [List.cons_append, executeQueue, hu, hx]
        show (h'.unfailing.executeQueue connection clocks (first ++ [failed]) (i + 1)).1 =
          (h.executeQueue connection clocks (item :: items) i).1.unfailing
        rw [hcomplete, executeQueue, hx]

/-- When a line throws, its commands up to the one whose write failed have taken their full effect,
and none after it has any. -/
theorem failed_line (h : CommandHandler W) (line : Str) (connection : ClientConnection)
    (clocks : Nat → Clocks) (hf : (h.handleLine line connection clocks).2 = none) :
    ∃ first item, CutAt (h.route line connection).1 connection clocks
        (h.executed line connection) 0 first item ∧
      (h.handleLine line connection clocks).1.store =
        ((h.route line connection).1.unfailing.executeQueue connection clocks
          (first ++ [item]) 0).1.store := by
  obtain ⟨hfst, hsnd⟩ := h.handleLine_executed line connection clocks
  rw [hf] at hsnd
  have hnone := Option.isSome_eq_false_iff.mp hsnd.symm
  obtain ⟨first, item, hcut⟩ :=
    executeQueue_cut connection clocks _ 0 (Option.isNone_iff_eq_none.mp hnone)
  refine ⟨first, item, hcut, ?_⟩
  rw [hfst, hcut.complete]
  rfl

end CommandHandler

namespace Server

/-- A rewrite of the log has closed the file and waits for the rename. -/
def midRewrite : Server := booted.run [send "BGREWRITEAOF", .rewriteSettled, .rewriteSettled]

theorem failed_line_unwritable : ∃ first item, CommandHandler.CutAt
    (midRewrite.handler.route "SET a 1".toList ⟨1, "tcp".toList⟩).1 ⟨1, "tcp".toList⟩
      (fun _ => Clocks.still 0) (midRewrite.handler.executed "SET a 1".toList ⟨1, "tcp".toList⟩) 0
        first item ∧
    (midRewrite.handler.handleLine "SET a 1".toList ⟨1, "tcp".toList⟩ fun _ =>
      Clocks.still 0).1.store =
    ((midRewrite.handler.route "SET a 1".toList ⟨1, "tcp".toList⟩).1.unfailing.executeQueue
      ⟨1, "tcp".toList⟩ (fun _ => Clocks.still 0) (first ++ [item]) 0).1.store :=
  midRewrite.handler.failed_line "SET a 1".toList ⟨1, "tcp".toList⟩ (fun _ => Clocks.still 0)
    (by decide)

/-- The line fails, and its key is set. -/
theorem failed_set_applies :
    (midRewrite.handler.handleLine "SET a 1".toList ⟨1, "tcp".toList⟩ fun _ =>
      Clocks.still 0).2 = none ∧
    (midRewrite.handler.handleLine "SET a 1".toList ⟨1, "tcp".toList⟩ fun _ =>
      Clocks.still 0).1.store ≠ midRewrite.handler.store := by
  refine ⟨by decide, fun he => ?_⟩
  have hcell := congrArg (fun s => (s.cell "a".toList).isSome) he
  revert hcell
  decide

end Server

end MiniStore
