import MiniStore.Server.Mutations

/-!
# Runs of the engine

The engine as a state machine: command lines of any connections, ticks of the
sweeper and of the save interval, and the ends of saves and rewrites, in any
order (`Event`, `step`). `AofLog` keeps the lines `AofWriter.write` is called
with, as it formats them.

A run is a sequence of moments: one for each executed command and each background
activity, with the store before it. `steps_run` breaks a run into them, so that
what holds of a run is shown by one case for each kind of step (`Steps`).
-/

namespace MiniStore

open InMemoryStore

/-- The log as the list of the lines written to it, idealised: a write never fails, and a rewrite
takes the flag and extracts but replaces nothing. `AofWriter` is the log with its files. -/
structure AofLog where
  lines : List Str
  rewriteInProgress : Bool
  deriving DecidableEq

namespace AofLog

def empty : AofLog := ⟨[], false⟩

def write (w : AofLog) (line : Str) : AofLog := { w with lines := w.lines ++ [Text.trim line] }

def rewrite (w : AofLog) (s : InMemoryStore) (clocks : Clocks) : AofLog × InMemoryStore :=
  if w.rewriteInProgress then (w, s)
  else ({ w with rewriteInProgress := true }, (AofWriter.rewriteCommands s clocks).1)

end AofLog

instance : AofSink AofLog := ⟨fun w line => (w.write line, true), AofLog.rewrite⟩

/-- What can happen to a running engine. -/
inductive Event where
  | line (text : Str) (connection : ClientConnection) (clocks : Nat → Clocks)
  | sweep (sampleSize : Int) (now : Clock)
  | tick (clocks : Clocks)
  | save (clocks : Clocks)
  | saveDone
  | saveFailed
  | rewriteEnded
  | close (connection : ClientConnection)

def Event.AllClocks (φ : Clocks → Prop) : Event → Prop
  | .line _ _ clocks => ∀ i, φ (clocks i)
  | .sweep _ now => φ fun _ => now
  | .tick clocks | .save clocks => φ clocks
  | _ => True

/-- One connection sends the lines, each at its own time. -/
def timedLines (lines : List (String × Int)) : List Event :=
  lines.map fun line => .line line.1.toList ⟨1, "tcp".toList⟩ fun _ => Clocks.still line.2

abbrev Engine := CommandHandler AofLog

/-- The store and the log before an executed command or a background activity (`none`). -/
structure Moment where
  store : InMemoryStore
  log : List Str
  item : Option QueuedCommand
  clocks : Clocks

def Moment.time (m : Moment) : Int := m.clocks 0 0

namespace Engine

def lines (h : Engine) : List Str := (h.aofWriter.map AofLog.lines).getD []

def saveNow (h : Engine) (clocks : Clocks) : Engine :=
  match h.persistenceManager with
  | none => h
  | some pm => { h with
      persistenceManager := some (pm.save h.store clocks).1
      store := (pm.save h.store clocks).2.1 }

def step (h : Engine) : Event → Engine
  | .line text connection clocks => (h.handleLine text connection clocks).1
  | .sweep n now => { h with store := (h.store.sweepExpired n now).1 }
  | .tick clocks => h.checkAndSave clocks
  | .save clocks => h.saveNow clocks
  | .saveDone => { h with persistenceManager := h.persistenceManager.map (·.saveDone) }
  | .saveFailed => { h with persistenceManager := h.persistenceManager.map (·.saveFailed) }
  | .rewriteEnded =>
    { h with aofWriter := h.aofWriter.map fun w => { w with rewriteInProgress := false } }
  | .close connection => { h with
      pubSubManager := h.pubSubManager.map (·.removeConnection connection) }

def run (h : Engine) (events : List Event) : Engine := events.foldl step h

def queueMoments (connection : ClientConnection) (clocks : Nat → Clocks) :
    Engine → List QueuedCommand → Nat → List Moment
  | _, [], _ => []
  | h, item :: rest, i =>
    ⟨h.store, h.lines, some item, clocks i⟩ ::
      queueMoments connection clocks
        (h.executeCommand item.command item.line connection (clocks i)).1 rest (i + 1)

def moments (h : Engine) : Event → List Moment
  | .line text connection clocks =>
    queueMoments connection clocks (h.route text connection).1 (h.executed text connection) 0
  | .sweep _ now => [⟨h.store, h.lines, none, fun _ => now⟩]
  | .tick clocks => [⟨h.store, h.lines, none, clocks⟩]
  | .save clocks => [⟨h.store, h.lines, none, clocks⟩]
  | _ => []

def runMoments : Engine → List Event → List Moment
  | _, [] => []
  | h, e :: es => h.moments e ++ runMoments (h.step e) es

/-- The data of the engine that commands work on. -/
def SameData (h h' : Engine) : Prop :=
  h'.store = h.store ∧ h'.lines = h.lines ∧ h'.aofWriter.isSome = h.aofWriter.isSome ∧
    h'.persistenceManager = h.persistenceManager

/-- The steps of a run and the moments they pass. -/
inductive Steps (h0 : Engine) : List Moment → Engine → Prop
  | start : Steps h0 [] h0
  | other {ms : List Moment} {h h' : Engine} : Steps h0 ms h → SameData h h' → Steps h0 ms h'
  | exec {ms : List Moment} {h : Engine} (item : QueuedCommand) (connection : ClientConnection)
      (clocks : Clocks) : Steps h0 ms h → parseCommand item.line = .ok item.command →
      Steps h0 (ms ++ [⟨h.store, h.lines, some item, clocks⟩])
        (h.executeCommand item.command item.line connection clocks).1
  | sweep {ms : List Moment} {h : Engine} (n : Int) (now : Clock) : Steps h0 ms h →
      Steps h0 (ms ++ [⟨h.store, h.lines, none, fun _ => now⟩])
        { h with store := (h.store.sweepExpired n now).1 }
  | save {ms : List Moment} {h : Engine} (clocks : Clocks) : Steps h0 ms h →
      Steps h0 (ms ++ [⟨h.store, h.lines, none, clocks⟩]) (h.saveNow clocks)
  | idle {ms : List Moment} {h : Engine} (clocks : Clocks) : Steps h0 ms h →
      Steps h0 (ms ++ [⟨h.store, h.lines, none, clocks⟩]) h
  | saveDone {ms : List Moment} {h : Engine} : Steps h0 ms h →
      Steps h0 ms { h with persistenceManager := h.persistenceManager.map (·.saveDone) }
  | saveFailed {ms : List Moment} {h : Engine} : Steps h0 ms h →
      Steps h0 ms { h with persistenceManager := h.persistenceManager.map (·.saveFailed) }

theorem SameData.refl (h : Engine) : SameData h h := ⟨rfl, rfl, rfl, rfl⟩

/-! ## Routing -/

theorem route_sameData (h : Engine) (line : Str) (conn : ClientConnection) :
    SameData h (h.route line conn).1 := by
  obtain ⟨hstore, hlog, hpm, -⟩ := h.route_data line conn
  refine ⟨hstore, ?_, by rw [hlog], hpm⟩
  rw [lines, hlog]
  rfl

theorem checkAndSave_cases (h : Engine) (clocks : Clocks) :
    h.checkAndSave clocks = h ∨ h.checkAndSave clocks = h.saveNow clocks := by
  rw [CommandHandler.checkAndSave, saveNow]
  cases hpm : h.persistenceManager with
  | none => exact .inl rfl
  | some pm =>
    simp only [PersistenceManager.checkAndSave]
    split
    · exact .inr rfl
    · exact .inl (by rw [← hpm])

/-! ## Executing -/

/-- The log never throws: a command always gets its reply. -/
theorem executeCommand_reply (h : Engine) (c : Command) (line : Str) (conn : ClientConnection)
    (clocks : Clocks) :
    ∃ h' reply, h.executeCommand c line conn clocks = (h', some reply) := by
  have hfin : ∀ (h : Engine) s b l r, ∃ h' reply, h.finish s b l r = (h', some reply) := by
    intro h s b l r
    unfold CommandHandler.finish CommandHandler.writeAof
    cases b with
    | false => exact ⟨_, _, rfl⟩
    | true =>
      cases h.aofWriter with
      | none => exact ⟨_, _, rfl⟩
      | some w => exact ⟨_, _, rfl⟩
  cases c with
  | set | del | expire | persist | lpush | rpush | lpop | rpop | hset | hdel => exact hfin ..
  | «exists» | ttl | keys | lrange | llen | hget | hgetall | hlen | auth | multi | exec | discard =>
    exact ⟨_, _, rfl⟩
  | get =>
    simp only [CommandHandler.executeCommand]
    split
    · exact ⟨_, _, rfl⟩
    · split <;> exact ⟨_, _, rfl⟩
  | bgsave | bgrewriteaof | subscribe | unsubscribe | publish =>
    simp only [CommandHandler.executeCommand]
    split <;> exact ⟨_, _, rfl⟩

def executeAll (connection : ClientConnection) (clocks : Nat → Clocks) :
    Engine → List QueuedCommand → Nat → Engine
  | h, [], _ => h
  | h, item :: rest, i =>
    executeAll connection clocks
      (h.executeCommand item.command item.line connection (clocks i)).1 rest (i + 1)

theorem executeQueue_fst (conn : ClientConnection) (clocks : Nat → Clocks) :
    ∀ (items : List QueuedCommand) (h : Engine) (i : Nat),
      (h.executeQueue conn clocks items i).1 = executeAll conn clocks h items i
  | [], _, _ => rfl
  | item :: items, h, i => by
    obtain ⟨h', r, e⟩ := executeCommand_reply h item.command item.line conn (clocks i)
    rw [CommandHandler.executeQueue, executeAll, e]
    exact executeQueue_fst conn clocks items h' (i + 1)

theorem handleLine_fst (h : Engine) (line : Str) (conn : ClientConnection)
    (clocks : Nat → Clocks) : (h.handleLine line conn clocks).1 =
      executeAll conn clocks (h.route line conn).1 (h.executed line conn) 0 := by
  rw [(h.handleLine_executed line conn clocks).1]
  exact executeQueue_fst conn clocks _ _ 0

theorem executeAll_transactions (conn : ClientConnection) (clocks : Nat → Clocks) :
    ∀ (items : List QueuedCommand) (h : Engine) (i : Nat),
      (executeAll conn clocks h items i).transactions = h.transactions
  | [], _, _ => rfl
  | item :: items, h, i => by
    rw [executeAll, executeAll_transactions conn clocks items _ (i + 1)]
    exact (h.executeCommand_executes item.command item.line conn (clocks i)).transactions

/-! ## A run as steps -/

theorem steps_executeAll {h0 : Engine} (conn : ClientConnection) (clocks : Nat → Clocks) :
    ∀ (items : List QueuedCommand) {ms : List Moment} {h : Engine} (i : Nat), Steps h0 ms h →
      (∀ item ∈ items, parseCommand item.line = .ok item.command) →
      Steps h0 (ms ++ queueMoments conn clocks h items i) (executeAll conn clocks h items i)
  | [], ms, h, _, hs, _ => by simpa [queueMoments, executeAll] using hs
  | item :: items, ms, h, i, hs, hp => by
    have h1 := hs.exec item conn (clocks i) (hp item List.mem_cons_self)
    have h2 := steps_executeAll conn clocks items (i + 1) h1 fun it hi =>
      hp it (List.mem_cons_of_mem _ hi)
    simpa [queueMoments, executeAll] using h2

theorem steps_step {h0 : Engine} {ms : List Moment} {h : Engine} (hs : Steps h0 ms h)
    (hq : h.Parsed) (e : Event) : Steps h0 (ms ++ h.moments e) (h.step e) := by
  cases e with
  | line text conn clocks =>
    have h1 := hs.other (route_sameData h text conn)
    show Steps h0 (ms ++ queueMoments conn clocks (h.route text conn).1 (h.executed text conn) 0)
      (h.handleLine text conn clocks).1
    rw [handleLine_fst]
    exact steps_executeAll conn clocks _ 0 h1 (CommandHandler.route_parsed hq text conn).2
  | sweep n now => exact hs.sweep n now
  | tick clocks =>
    have htick : h.step (.tick clocks) = h ∨ h.step (.tick clocks) = h.saveNow clocks :=
      checkAndSave_cases h clocks
    rcases htick with e | e <;> rw [e]
    · exact hs.idle clocks
    · exact hs.save clocks
  | save clocks => exact hs.save clocks
  | saveDone => simpa [moments, step] using hs.saveDone
  | saveFailed => simpa [moments, step] using hs.saveFailed
  | rewriteEnded =>
    have : SameData h (h.step .rewriteEnded) := by
      refine ⟨rfl, ?_, ?_, rfl⟩ <;> simp only [step, lines] <;> cases h.aofWriter <;> rfl
    simpa [moments] using hs.other this
  | close conn =>
    have : SameData h (h.step (.close conn)) := ⟨rfl, rfl, rfl, rfl⟩
    simpa [moments] using hs.other this

theorem parsed_step {h : Engine} (hq : h.Parsed) (e : Event) : (h.step e).Parsed := by
  have hsave : ∀ clocks, (h.saveNow clocks).Parsed := by
    intro clocks
    unfold saveNow
    split <;> exact hq
  cases e with
  | line text conn clocks =>
    intro id queue hid
    have := (CommandHandler.route_parsed hq text conn).1
    simp only [Engine.step, handleLine_fst, executeAll_transactions] at hid
    exact this id queue hid
  | tick clocks =>
    have htick : h.step (.tick clocks) = h ∨ h.step (.tick clocks) = h.saveNow clocks :=
      checkAndSave_cases h clocks
    rcases htick with e | e <;> rw [e]
    · exact hq
    · exact hsave clocks
  | save clocks => exact hsave clocks
  | _ => exact hq

theorem steps_run {h0 : Engine} : ∀ (events : List Event) {ms : List Moment} {h : Engine},
    Steps h0 ms h → h.Parsed → Steps h0 (ms ++ h.runMoments events) (h.run events)
  | [], ms, h, hs, _ => by simpa [runMoments, run] using hs
  | e :: es, ms, h, hs, hq => by
    have := steps_run es (steps_step hs hq e) (parsed_step hq e)
    simpa [runMoments, run] using this

theorem allClocks_queueMoments {φ : Clocks → Prop} (conn : ClientConnection)
    {clocks : Nat → Clocks} (hc : ∀ i, φ (clocks i)) : ∀ (items : List QueuedCommand)
    (h : Engine) (i : Nat), ∀ m ∈ queueMoments conn clocks h items i, φ m.clocks
  | [], _, _, _, hm => nomatch hm
  | item :: items, h, i, m, hm => by
    rcases List.mem_cons.mp hm with rfl | hm
    · exact hc i
    · exact allClocks_queueMoments conn hc items _ (i + 1) m hm

/-- What holds of the clocks of all events holds of those of all moments. -/
theorem allClocks_runMoments {φ : Clocks → Prop} : ∀ (events : List Event) (h : Engine),
    (∀ e ∈ events, e.AllClocks φ) → ∀ m ∈ h.runMoments events, φ m.clocks
  | [], _, _, _, hm => nomatch hm
  | e :: es, h, he, m, hm => by
    rcases List.mem_append.mp hm with hm | hm
    · have hc := he e List.mem_cons_self
      cases e with
      | line text conn clocks => exact allClocks_queueMoments conn hc _ _ 0 m hm
      | sweep n now => cases List.mem_singleton.mp hm; exact hc
      | tick clocks => cases List.mem_singleton.mp hm; exact hc
      | save clocks => cases List.mem_singleton.mp hm; exact hc
      | _ => cases hm
    · exact allClocks_runMoments es _ (fun e' h' => he e' (List.mem_cons_of_mem _ h')) m hm

/-! ## The engine at the start -/

def boot (maxKeys : Nat) (hm : 1 ≤ maxKeys) (pm : Option PersistenceManager)
    (pubSub : Option PubSubManager) (requirepass : Option Str) (disabledCommands : List Str) :
    Engine :=
  CommandHandler.create (InMemoryStore.create maxKeys hm) pm (some AofLog.empty) pubSub requirepass
    disabledCommands

section

variable (maxKeys : Nat) (hm : 1 ≤ maxKeys) (pm : Option PersistenceManager)
  (pubSub : Option PubSubManager) (requirepass : Option Str) (disabledCommands : List Str)

theorem parsed_boot : (boot maxKeys hm pm pubSub requirepass disabledCommands).Parsed :=
  fun _ _ h => nomatch h

theorem steps_boot (events : List Event) :
    let h0 := boot maxKeys hm pm pubSub requirepass disabledCommands
    Steps h0 (h0.runMoments events) (h0.run events) := by
  simpa using steps_run events (.start) (parsed_boot maxKeys hm pm pubSub requirepass _)

end

/-! ## What a step does to store and log -/

/-- What executing a command does to store, log and snapshot state. -/
inductive Executes (h h' : Engine) (item : QueuedCommand) (clocks : Clocks) : Prop
  /-- A mutating command acts on its key and logs its line if it took effect. -/
  | mutation (key : Str) (f : Option Cell → Effect × Bool)
      (hm : item.command.mutation (clocks 0) = some (key, f))
      (store : h'.store = (h.store.perform key (clocks 0) f).1)
      (lines : h'.lines = h.lines ++
        if (f (liveAt (clocks 0 0) (h.store.cell key))).2 then [Text.trim item.line] else [])
      (pm : h'.persistenceManager = h.persistenceManager)
  /-- BGSAVE starts a save. -/
  | bgsave (hc : item.command = .bgsave) (eq : SameData (h.saveNow clocks) h')
  /-- Any other command only drops keys that are due. -/
  | read (hc : item.command.mutates = false)
      (store : Decays clocks.Reads h.store h'.store)
      (lines : h'.lines = h.lines) (pm : h'.persistenceManager = h.persistenceManager)

theorem saveNow_lines (h : Engine) (clocks : Clocks) : (h.saveNow clocks).lines = h.lines := by
  unfold saveNow; split <;> rfl

theorem saveNow_aof (h : Engine) (clocks : Clocks) :
    (h.saveNow clocks).aofWriter = h.aofWriter := by
  unfold saveNow; split <;> rfl

theorem decays_saveNow {h : Engine} (hs : h.store.Lockstep) {T : Int → Prop} {clocks : Clocks}
    (ht : ∀ i j, T (clocks i j)) : Decays T h.store (h.saveNow clocks).store := by
  unfold saveNow
  split
  · exact hs.decays_refl
  · exact hs.decays_save ht _

theorem executes_mutation {h : Engine} (hs : h.store.Lockstep) (hw : h.aofWriter.isSome = true)
    (item : QueuedCommand) (conn : ClientConnection) {clocks : Clocks}
    (hc : item.command.mutates = true) :
    Executes h (h.executeCommand item.command item.line conn clocks).1 item clocks ∧
      (h.executeCommand item.command item.line conn clocks).1.aofWriter.isSome = true := by
  obtain ⟨w, hw⟩ := Option.isSome_iff_exists.mp hw
  obtain ⟨key, f, hm⟩ : ∃ key f, item.command.mutation (clocks 0) = some (key, f) :=
    Command.mutates_iff.mp hc
  obtain ⟨reply, he⟩ := CommandHandler.executeCommand_mutation hs hm item.line conn
  have hlogged : (h.store.perform key (clocks 0) f).2 =
      (f (liveAt (clocks 0 0) (h.store.cell key))).2 := hs.perform_snd
  rw [he]
  unfold CommandHandler.finish
  cases hb : (h.store.perform key (clocks 0) f).2 with
  | false =>
    rw [hb] at hlogged
    exact ⟨.mutation key f hm rfl (by rw [← hlogged]; simp [lines]) rfl, by simp [hw]⟩
  | true =>
    rw [hb] at hlogged
    simp only [CommandHandler.writeAof, hw, if_true]
    exact ⟨.mutation key f hm rfl
      (by rw [← hlogged, if_pos rfl]; simp only [lines, hw]; rfl) rfl, rfl⟩

/-- What executing a command does, case by case. -/
theorem executes {h : Engine} (hs : h.store.Lockstep) (hw : h.aofWriter.isSome = true)
    (item : QueuedCommand) (conn : ClientConnection) (clocks : Clocks) :
    Executes h (h.executeCommand item.command item.line conn clocks).1 item clocks ∧
      (h.executeCommand item.command item.line conn clocks).1.aofWriter.isSome = true := by
  by_cases hc : item.command.mutates = true
  · exact executes_mutation hs hw item conn hc
  have hc' : item.command.mutates = false := by simpa using hc
  by_cases hrewrite : item.command = .bgrewriteaof
  · have ht : ∀ i j, clocks.Reads (clocks i j) := fun i j => ⟨i, j, rfl⟩
    obtain ⟨w, hw'⟩ := Option.isSome_iff_exists.mp hw
    have hd : Decays clocks.Reads h.store (AofLog.rewrite w h.store clocks).2 ∧
        (AofLog.rewrite w h.store clocks).1.lines = w.lines := by
      unfold AofLog.rewrite
      split
      · exact ⟨hs.decays_refl, rfl⟩
      · exact ⟨hs.decays_rewriteCommands ht, rfl⟩
    have hl : w.lines = h.lines := by simp [lines, hw']
    rw [hrewrite]
    simp only [CommandHandler.executeCommand, hw']
    exact ⟨.read hc' hd.1 (hd.2.trans hl) rfl, rfl⟩
  have ho := CommandHandler.executeCommand_read hs hc' hrewrite item.line conn clocks
  refine ⟨?_, by rw [ho.log]; exact hw⟩
  have hl : lines (h.executeCommand item.command item.line conn clocks).1 = h.lines := by
    rw [lines, ho.log]
    rfl
  by_cases hsave : item.command = .bgsave
  · refine .bgsave hsave ?_
    rw [hsave]
    simp only [CommandHandler.executeCommand]
    cases hp : h.persistenceManager <;>
      exact ⟨by simp [saveNow, hp, CommandHandler.answer], by rw [saveNow_lines]; rfl,
        by rw [saveNow_aof]; rfl, by simp [saveNow, hp, CommandHandler.answer]⟩
  · exact .read hc' ho.store hl (ho.persistence hsave)

end Engine

end MiniStore
