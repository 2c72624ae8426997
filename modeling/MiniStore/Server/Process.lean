import MiniStore.Server.Mutations

/-!
# The process

A `Server` is the handler with the point `shutdown` has reached. `shutdown` closes the log
and then takes the snapshot, both in one go, and only after the snapshot is written it
closes the servers; until then clients go on sending commands. The lines of the changes
that have been acknowledged are kept.

What an event does to the handler is a few `Move`s, so what every move keeps holds along
every run (`run_rule`).
-/

namespace MiniStore

open InMemoryStore

/-- Where `shutdown` stands: what it is waiting for, if it has been called. -/
inductive ShutdownPhase where
  | serving
  | saving
  | stopping
  | closing
  | exited
  /-- `aofWriter.stop()` has thrown. -/
  | aborted
  deriving DecidableEq

/-- The process. `acks` are the lines of the changes acknowledged so far, and `written` the
dump that `shutdown` has written. -/
structure Server where
  handler : CommandHandler AofWriter
  phase : ShutdownPhase
  acks : List Str
  written : Option Dump

inductive ServerEvent where
  | line (text : Str) (connection : ClientConnection) (clocks : Nat → Clocks)
  | sweep (sampleSize : Int) (now : Clock)
  | tick (clocks : Clocks)
  | saveDone
  | saveFailed
  /-- The call a rewrite of the log waits for completes, or fails. -/
  | rewriteSettled
  | rewriteRejected
  | close (connection : ClientConnection)
  /-- SIGINT or SIGTERM. -/
  | signal (clocks : Clocks)
  /-- `statsServer.stop()` is done, then `server.close()`. -/
  | statsStopped
  | serverClosed

/-- A command about to be executed. -/
structure Execution where
  handler : CommandHandler AofWriter
  item : QueuedCommand
  clocks : Clocks

namespace Execution

/-- The command is logged, or at least changes what is stored under its key. -/
def changes (e : Execution) : Bool :=
  match e.item.command.mutation (e.clocks 0) with
  | none => false
  | some (key, f) =>
    let c := liveAt (e.clocks 0 0) (e.handler.store.cell key)
    (f c).2 || decide ((f c).1.action.onCell c ≠ c)

end Execution

namespace Server

/-- The commands of a line, each as it is about to be executed; an exception ends them. -/
def executions (connection : ClientConnection) (clocks : Nat → Clocks) :
    CommandHandler AofWriter → List QueuedCommand → Nat → List Execution
  | _, [], _ => []
  | h, item :: rest, i =>
    ⟨h, item, clocks i⟩ ::
      match h.executeCommand item.command item.line connection (clocks i) with
      | (_, none) => []
      | (h, some _) => executions connection clocks h rest (i + 1)

def changed (es : List Execution) : List Str :=
  (es.filter Execution.changes).map fun e => e.item.line

/-- `save()` up to its first `await`; the flag says that it was accepted. -/
def startSave (h : CommandHandler AofWriter) (clocks : Clocks) :
    CommandHandler AofWriter × Bool :=
  match h.persistenceManager with
  | none => (h, false)
  | some pm =>
    match pm.save h.store clocks with
    | (pm, s, accepted) => ({ h with persistenceManager := some pm, store := s }, accepted)

/-- `shutdown` up to its first `await`. A save that is refused rejects, and `shutdown` goes
on to stop the stats server. -/
def shutdown (st : Server) (clocks : Clocks) : Server :=
  match st.handler.aofWriter.map AofWriter.stop with
  | some (w, false) => { st with
      handler := { st.handler with aofWriter := some w }
      phase := .aborted }
  | some (w, true) =>
    match startSave { st.handler with aofWriter := some w } clocks with
    | (h, accepted) => { st with handler := h, phase := if accepted then .saving else .stopping }
  | none =>
    match startSave st.handler clocks with
    | (h, accepted) => { st with handler := h, phase := if accepted then .saving else .stopping }

/-- The save under way ends, and `shutdown` goes on if it was waiting for it. -/
def endSave (st : Server) (finish : PersistenceManager → PersistenceManager) (succeeded : Bool) :
    Server :=
  match st.handler.persistenceManager with
  | none => st
  | some pm =>
    match pm.saving with
    | none => st
    | some (dump, _) => { st with
        handler := { st.handler with persistenceManager := some (finish pm) }
        phase := if st.phase = .saving then .stopping else st.phase
        written := if st.phase = .saving ∧ succeeded then some dump else st.written }

/-- Clients can send lines. -/
def listening (st : Server) : Bool :=
  match st.phase with
  | .closing | .exited => false
  | _ => true

def executionsOf (st : Server) : ServerEvent → List Execution
  | .line text connection clocks =>
    if st.listening then
      executions connection clocks (st.handler.route text connection).1
        (st.handler.executed text connection) 0
    else []
  | _ => []

def step (st : Server) : ServerEvent → Server
  | .line text connection clocks =>
    if st.listening then
      match st.handler.handleLine text connection clocks with
      | (h, none) => { st with handler := h }
      | (h, some _) => { st with
          handler := h
          acks := st.acks ++ changed (st.executionsOf (.line text connection clocks)) }
    else st
  | .sweep n now =>
    if st.phase = .serving then
      { st with handler := { st.handler with store := (st.handler.store.sweepExpired n now).1 } }
    else st
  | .tick clocks =>
    if st.phase = .serving then { st with handler := st.handler.checkAndSave clocks } else st
  | .saveDone => st.endSave (·.saveDone) true
  | .saveFailed => st.endSave (·.saveFailed) false
  | .rewriteSettled =>
    { st with handler := { st.handler with aofWriter := st.handler.aofWriter.map (·.settle) } }
  | .rewriteRejected =>
    { st with handler := { st.handler with aofWriter := st.handler.aofWriter.map (·.reject) } }
  | .close connection => { st with handler := { st.handler with
      pubSubManager := st.handler.pubSubManager.map (·.removeConnection connection) } }
  | .signal clocks => if st.phase = .serving then st.shutdown clocks else st
  | .statsStopped => if st.phase = .stopping then { st with phase := .closing } else st
  | .serverClosed => if st.phase = .closing then { st with phase := .exited } else st

/-- Nothing happens to a process that has exited. -/
def next (st : Server) (e : ServerEvent) : Server := if st.phase = .exited then st else st.step e

def run (st : Server) (events : List ServerEvent) : Server := events.foldl next st

def runExecutions : Server → List ServerEvent → List Execution
  | _, [] => []
  | st, e :: es => st.executionsOf e ++ runExecutions (st.next e) es

/-- The server as `main` starts it, with its log and whatever has been restored. -/
def main (h : CommandHandler AofWriter) (path : Str) (fsyncPolicy : FsyncPolicy) (fs : Fs) :
    Server :=
  ⟨{ h with aofWriter := some (AofWriter.create path fsyncPolicy fs).start }, .serving, [], none⟩

def vacant : CommandHandler AofWriter :=
  CommandHandler.create (InMemoryStore.create 2 (Nat.le_succ 1))
    (some (PersistenceManager.create none)) none (some PubSubManager.empty) none []

def booted : Server := main vacant "aof".toList .no Fs.empty

/-- One connection's lines; the clock stands still. -/
def send (text : String) : ServerEvent :=
  .line text.toList ⟨1, "tcp".toList⟩ fun _ => Clocks.still 0

def sendAt (t : Int) (text : String) : ServerEvent :=
  .line text.toList ⟨1, "tcp".toList⟩ fun _ => Clocks.still t

theorem run_append (st : Server) (events events' : List ServerEvent) :
    st.run (events ++ events') = (st.run events).run events' := List.foldl_append

theorem listening_of_exited {st : Server} (h : st.phase = .exited) : st.listening = false := by
  simp only [listening, h]

theorem step_tick (st : Server) (clocks : Clocks) : st.step (.tick clocks) = st ∨
    st.step (.tick clocks) = { st with handler := (startSave st.handler clocks).1 } := by
  rw [step]
  split
  · rw [startSave, CommandHandler.checkAndSave]
    cases hpm : st.handler.persistenceManager with
    | none => exact .inl rfl
    | some pm =>
      simp only [PersistenceManager.checkAndSave]
      split
      · exact .inr rfl
      · exact .inl (by rw [← hpm])
  · exact .inl rfl

theorem items_of_executions {connection : ClientConnection} {clocks : Nat → Clocks}
    {e : Execution} :
    ∀ {items : List QueuedCommand} {i : Nat} {h : CommandHandler AofWriter},
      e ∈ executions connection clocks h items i → e.item ∈ items
  | [], _, _, he => absurd he List.not_mem_nil
  | item :: items, i, h, he => by
    rw [executions] at he
    rcases List.mem_cons.mp he with rfl | he
    · exact List.mem_cons_self
    · generalize h.executeCommand item.command item.line connection (clocks i) = executed at he
      rcases executed with ⟨h', _ | reply⟩
      · cases he
      · exact List.mem_cons_of_mem _ (items_of_executions he)

/-- What each command of a queue keeps, with the executions so far, the queue keeps. -/
theorem executions_rule {P : List Execution → CommandHandler AofWriter → Prop}
    {Q : Execution → Prop} {connection : ClientConnection} {clocks : Nat → Clocks}
    (hkeep : ∀ {past h item clocks}, P past h → parseCommand item.line = .ok item.command →
      Q ⟨h, item, clocks⟩ → P (past ++ [⟨h, item, clocks⟩])
        (h.executeCommand item.command item.line connection clocks).1) :
    ∀ (items : List QueuedCommand) (i : Nat) (past : List Execution)
      {h : CommandHandler AofWriter}, P past h →
      (∀ item ∈ items, parseCommand item.line = .ok item.command) →
      (∀ e ∈ executions connection clocks h items i, Q e) →
      P (past ++ executions connection clocks h items i)
        (h.executeQueue connection clocks items i).1
  | [], _, past, _, H, _, _ => by
    rw [executions, List.append_nil]
    exact H
  | item :: items, i, past, h, H, hp, hq => by
    obtain ⟨hitem, hrest⟩ := List.forall_mem_cons.mp hp
    rw [executions] at hq ⊢
    obtain ⟨hfirst, hq⟩ := List.forall_mem_cons.mp hq
    have H1 := hkeep H hitem hfirst
    rw [CommandHandler.executeQueue, List.append_cons]
    generalize h.executeCommand item.command item.line connection (clocks i) = executed at H1 hq ⊢
    rcases executed with ⟨h', _ | reply⟩
    · rw [List.append_nil]
      exact H1
    · exact executions_rule hkeep items (i + 1) _ H1 hrest hq

theorem next_deaf {st : Server} (hl : st.listening = false) (text : Str)
    (connection : ClientConnection) (clocks : Nat → Clocks) :
    st.next (.line text connection clocks) = st := by
  unfold Server.next
  split
  · rfl
  · simp only [step, hl, Bool.false_eq_true, if_false]

theorem step_line {st : Server} (hl : st.listening = true) (text : Str)
    (connection : ClientConnection) (clocks : Nat → Clocks) :
    (st.step (.line text connection clocks)).handler =
        (st.handler.handleLine text connection clocks).1 ∧
      (st.step (.line text connection clocks)).acks = st.acks ++
        if (st.handler.handleLine text connection clocks).2.isSome
        then changed (st.executionsOf (.line text connection clocks)) else [] := by
  rw [step, if_pos hl]
  rcases st.handler.handleLine text connection clocks with ⟨h', _ | reply⟩
  · exact ⟨rfl, (List.append_nil _).symm⟩
  · exact ⟨rfl, rfl⟩

theorem next_line {st : Server} (hl : st.listening = true) (text : Str)
    (connection : ClientConnection) (clocks : Nat → Clocks) :
    (st.next (.line text connection clocks)).handler =
        (st.handler.handleLine text connection clocks).1 ∧
      (st.next (.line text connection clocks)).acks = st.acks ++
        if (st.handler.handleLine text connection clocks).2.isSome
        then changed (st.executionsOf (.line text connection clocks)) else [] := by
  have hne : st.phase ≠ .exited := fun he => by
    rw [listening_of_exited he] at hl
    cases hl
  rw [Server.next, if_neg hne]
  exact step_line hl text connection clocks

/-- The instants an event other than a line may read. -/
def Reads : ServerEvent → Int → Prop
  | .sweep _ now, t => now 0 = t
  | .tick clocks, t | .signal clocks, t => clocks.Reads t
  | _, _ => False

theorem decays_next {st : Server} (hL : st.handler.store.Lockstep) {e : ServerEvent}
    (he : ∀ text connection clocks, e ≠ .line text connection clocks) :
    Decays (Reads e) st.handler.store (st.next e).handler.store := by
  have hsave : ∀ (h : CommandHandler AofWriter) (clocks : Clocks), h.store.Lockstep →
      Decays clocks.Reads h.store (startSave h clocks).1.store := by
    intro h clocks hL
    unfold startSave
    split
    · exact hL.decays_refl
    · exact hL.decays_save (fun i j => ⟨i, j, rfl⟩) _
  unfold Server.next
  split
  · exact hL.decays_refl
  cases e with
  | line text connection clocks => exact absurd rfl (he text connection clocks)
  | sweep n now =>
    simp only [step]
    split
    · exact hL.decays_sweepExpired n rfl
    · exact hL.decays_refl
  | tick clocks =>
    rcases step_tick st clocks with e | e <;> rw [e]
    · exact hL.decays_refl
    · exact hsave _ clocks hL
  | saveDone | saveFailed =>
    simp only [step, endSave]
    split
    · exact hL.decays_refl
    · split <;> exact hL.decays_refl
  | rewriteSettled | rewriteRejected | close => exact hL.decays_refl
  | signal clocks =>
    simp only [step, shutdown]
    split
    · split
      · exact hL.decays_refl
      · next w _ => exact hsave { st.handler with aofWriter := some w } clocks hL
      · exact hsave _ clocks hL
    · exact hL.decays_refl
  | statsStopped | serverClosed =>
    simp only [step]
    split <;> exact hL.decays_refl

/-! ## Moves of the handler -/

/-- What happens to the handler, one thing at a time. -/
inductive Move : CommandHandler AofWriter → CommandHandler AofWriter → Prop
  | line (h : CommandHandler AofWriter) (text : Str) (connection : ClientConnection)
      (clocks : Nat → Clocks) : Move h (h.handleLine text connection clocks).1
  | sweep (h : CommandHandler AofWriter) (n : Int) (now : Clock) :
      Move h { h with store := (h.store.sweepExpired n now).1 }
  | save (h : CommandHandler AofWriter) (clocks : Clocks) : Move h (startSave h clocks).1
  | saved (h : CommandHandler AofWriter) (pm : Option PersistenceManager) :
      Move h { h with persistenceManager := pm }
  | log (h : CommandHandler AofWriter) {f : AofWriter → AofWriter}
      (hf : f = AofWriter.settle ∨ f = AofWriter.reject ∨ f = fun w => w.stop.1) :
      Move h { h with aofWriter := h.aofWriter.map f }
  | close (h : CommandHandler AofWriter) (connection : ClientConnection) :
      Move h { h with pubSubManager := h.pubSubManager.map (·.removeConnection connection) }

theorem moves_shutdown (st : Server) (clocks : Clocks) :
    Relation.ReflTransGen Move st.handler (st.shutdown clocks).handler := by
  unfold shutdown
  cases hw : st.handler.aofWriter with
  | none => exact .single (.save _ clocks)
  | some w =>
    have hstop : Move st.handler { st.handler with aofWriter := some w.stop.1 } := by
      have h := Move.log st.handler (f := fun w => w.stop.1) (.inr (.inr rfl))
      rwa [hw] at h
    rw [Option.map_some]
    generalize w.stop = stopped at hstop ⊢
    rcases stopped with ⟨w', _ | _⟩
    · exact .single hstop
    · exact (Relation.ReflTransGen.single hstop).tail (.save _ clocks)

theorem moves_next (st : Server) (e : ServerEvent) :
    Relation.ReflTransGen Move st.handler (st.next e).handler := by
  unfold Server.next
  split
  · exact .refl
  cases e with
  | line text connection clocks =>
    have h := Move.line st.handler text connection clocks
    simp only [step]
    split
    · generalize st.handler.handleLine text connection clocks = handled at h ⊢
      rcases handled with ⟨h', _ | reply⟩ <;> exact .single h
    · exact .refl
  | sweep n now =>
    simp only [step]
    split
    · exact .single (.sweep _ n now)
    · exact .refl
  | tick clocks =>
    rcases step_tick st clocks with e | e
    · rw [e]
    · rw [e]
      exact .single (.save _ clocks)
  | saveDone | saveFailed =>
    simp only [step, endSave]
    split
    · exact .refl
    · split
      · exact .refl
      · exact .single (.saved _ _)
  | rewriteSettled => exact .single (.log _ (.inl rfl))
  | rewriteRejected => exact .single (.log _ (.inr (.inl rfl)))
  | close connection => exact .single (.close _ connection)
  | signal clocks =>
    simp only [step]
    split
    · exact moves_shutdown st clocks
    · exact .refl
  | statsStopped | serverClosed =>
    simp only [step]
    split <;> exact .refl

section

variable {P : CommandHandler AofWriter → Prop} (hmove : ∀ {h h'}, Move h h' → P h → P h')

include hmove

theorem next_rule {st : Server} (h0 : P st.handler) (e : ServerEvent) : P (st.next e).handler := by
  have hrule : ∀ h, Relation.ReflTransGen Move st.handler h → P h := by
    intro h hm
    induction hm with
    | refl => exact h0
    | tail _ hm ih => exact hmove hm ih
  exact hrule _ (moves_next st e)

theorem run_rule (events : List ServerEvent) : ∀ {st : Server}, P st.handler →
    P (st.run events).handler := by
  induction events with
  | nil => exact fun h0 => h0
  | cons e events ih => exact fun h0 => ih (next_rule hmove h0 e)

end

end Server

end MiniStore
