import MiniStore.Server.Admission
import MiniStore.Server.Meaning
import MiniStore.Server.Walks
import MiniStore.Store.LogShape

/-!
# Background work is invisible

While clients send their lines, the server sweeps, saves by itself, builds the snapshots of the
dashboard and has its saves end. Two handlers that differ by such work are `Alike`: each line is
answered alike by both, and they stay so. On every run, wherever the work falls, every client is
answered and is sent just what it would be without it (`background_invisible`).
-/

namespace MiniStore

open InMemoryStore

def Command.key : Command → Option Str
  | .set key _ _ | .get key | .del key | .expire key _ | .lpush key _ | .lpop key
  | .lrange key _ _ | .hset key _ | .hget key _ | .exists key | .ttl key | .persist key
  | .rpush key _ | .rpop key | .llen key | .hdel key _ | .hgetall key | .hlen key => some key
  | _ => none

namespace CommandHandler

/-- Handlers that differ by what walks over the store, by the text of the log and by the saves. -/
structure Alike (names : List Str) (t : Int) (h h' : CommandHandler AofWriter) : Prop extends
    SameClients h h' where
  store : InMemoryStore.Alike names t h.store h'.store
  log : Option.Rel AofWriter.SameShape h.aofWriter h'.aofWriter
  saves : h'.persistenceManager.isSome = h.persistenceManager.isSome

/-! ## Routing -/

section

variable {W : Type}

def withData (h : CommandHandler W) (s : InMemoryStore) (pm : Option PersistenceManager)
    (w : Option W) : CommandHandler W :=
  { h with store := s, persistenceManager := pm, aofWriter := w }

theorem SameClients.eq_withData {h h' : CommandHandler W} (hs : h.SameClients h') :
    h' = h.withData h'.store h'.persistenceManager h'.aofWriter := by
  obtain ⟨s', pm', w', m', password', disabled', transactions', authenticated', delivered'⟩ := h'
  obtain ⟨⟨rfl, rfl, rfl, rfl⟩, rfl, rfl⟩ := hs
  rfl

theorem routeTransaction_withData (h : CommandHandler W) (s : InMemoryStore)
    (pm : Option PersistenceManager) (w : Option W) (c : Command) (line : Str)
    (connection : ClientConnection) :
    (h.withData s pm w).routeTransaction c line connection =
      ((h.routeTransaction c line connection).1.withData s pm w,
        (h.routeTransaction c line connection).2) := by
  have hqueue : (h.withData s pm w).transactions = h.transactions := rfl
  unfold routeTransaction
  rw [hqueue]
  cases c with
  | multi | exec | discard => cases h.transactions.get? connection.id <;> rfl
  | _ => cases h.transactions.get? connection.id <;> rfl

theorem route_withData (h : CommandHandler W) (s : InMemoryStore) (pm : Option PersistenceManager)
    (w : Option W) (line : Str) (connection : ClientConnection) :
    (h.withData s pm w).route line connection =
      ((h.route line connection).1.withData s pm w, (h.route line connection).2) := by
  have hauth : (h.withData s pm w).needsAuth connection = h.needsAuth connection := rfl
  have hmode : (h.withData s pm w).subscribed connection = h.subscribed connection := rfl
  have hpass : (h.withData s pm w).requirepass = h.requirepass := rfl
  have hoff : (h.withData s pm w).disabledCommands = h.disabledCommands := rfl
  unfold route
  cases parseCommand line with
  | error => rfl
  | ok command =>
    dsimp only
    rw [hauth, hmode, hoff]
    split
    · cases command with
      | auth password =>
        dsimp only
        rw [hpass]
        split <;> rfl
      | _ => rfl
    · split
      · rfl
      · split
        · rfl
        · exact routeTransaction_withData h s pm w command line connection

end

theorem finish_logged (h : CommandHandler AofWriter) (s : InMemoryStore) (line reply : Str) :
    h.finish s true line reply =
      (h.withData s h.persistenceManager (h.aofWriter.map fun w => (w.write line).1),
        if h.aofWriter.all fun w => (w.write line).2 then some reply else none) := by
  obtain ⟨s0, pm, w, m, password, disabled, transactions, authenticated, delivered⟩ := h
  cases w with
  | none => rfl
  | some w =>
    obtain ⟨w', returned, hx⟩ : ∃ w' returned, w.write line = (w', returned) := ⟨_, _, rfl⟩
    have hwrite : AofSink.write w line = (w', returned) := hx
    simp only [CommandHandler.finish, writeAof, hwrite, hx, if_true, withData, Option.map_some,
      Option.all_some]
    cases returned <;> rfl

section

variable {names : List Str} {t : Int} {h h' : CommandHandler AofWriter}

theorem SameClients.alike (hc : h.SameClients h') {s s' : InMemoryStore}
    {pm pm' : Option PersistenceManager} {w w' : Option AofWriter}
    (hs : InMemoryStore.Alike names t s s') (hw : Option.Rel AofWriter.SameShape w w')
    (hpm : pm'.isSome = pm.isSome) : Alike names t (h.withData s pm w) (h'.withData s' pm' w') :=
  ⟨⟨⟨hc.transactions, hc.authenticated, hc.requirepass, hc.disabledCommands⟩, hc.pubSubManager,
    hc.delivered⟩, hs, hw, hpm⟩

theorem Alike.refl (hroom : HasRoom names h.store) (t : Int) : Alike names t h h := by
  refine ⟨⟨⟨rfl, rfl, rfl, rfl⟩, rfl, rfl⟩, .refl hroom t, ?_, rfl⟩
  cases h.aofWriter with
  | none => exact .none
  | some w => exact .some (.refl w)

variable (H : Alike names t h h')

include H

theorem Alike.mono {t' : Int} (ht : t ≤ t') : Alike names t' h h' :=
  ⟨H.toSameClients, H.store.mono ht, H.log, H.saves⟩

theorem Alike.route (line : Str) (connection : ClientConnection) :
    Alike names t (h.route line connection).1 (h'.route line connection).1 ∧
      (h'.route line connection).2 = (h.route line connection).2 := by
  obtain ⟨hstore, hlog, hpm, -⟩ := h.route_data line connection
  rw [H.eq_withData, route_withData]
  refine ⟨⟨⟨⟨rfl, rfl, rfl, rfl⟩, rfl, rfl⟩, ?_, ?_, ?_⟩, rfl⟩
  · rw [hstore]
    exact H.store
  · rw [hlog]
    exact H.log
  · rw [hpm]
    exact H.saves

/-! ## One command -/

theorem Alike.answer {s s' : InMemoryStore} (hs : InMemoryStore.Alike names t s s') (reply : Str) :
    Alike names t (h.answer s reply).1 (h'.answer s' reply).1 :=
  H.toSameClients.alike hs H.log H.saves

/-- Both log, or both throw. -/
theorem Alike.finish {s s' : InMemoryStore} (hs : InMemoryStore.Alike names t s s') (logged : Bool)
    (line reply : Str) :
    Alike names t (h.finish s logged line reply).1 (h'.finish s' logged line reply).1 ∧
      (h'.finish s' logged line reply).2 = (h.finish s logged line reply).2 := by
  have hlog := H.log
  cases logged with
  | false => exact ⟨H.answer hs reply, rfl⟩
  | true =>
    have hwritten : Option.Rel AofWriter.SameShape (h.aofWriter.map fun w => (w.write line).1)
          (h'.aofWriter.map fun w => (w.write line).1) ∧
        h'.aofWriter.all (fun w => (w.write line).2) =
          h.aofWriter.all fun w => (w.write line).2 := by
      generalize h.aofWriter = w at hlog ⊢
      generalize h'.aofWriter = w' at hlog ⊢
      cases hlog with
      | none => exact ⟨.none, rfl⟩
      | some hw =>
        obtain ⟨hshape, hreturned⟩ := hw.write line
        exact ⟨.some hshape, hreturned⟩
    rw [finish_logged, finish_logged, hwritten.2]
    exact ⟨H.toSameClients.alike hs hwritten.1 H.saves, rfl⟩

/-- GET looks at its key twice. -/
theorem Alike.get {key : Str} (hn : key ∈ names) (line : Str) (connection : ClientConnection) :
    Alike names t (h.executeCommand (.get key) line connection (Clocks.still t)).1
        (h'.executeCommand (.get key) line connection (Clocks.still t)).1 ∧
      (h'.executeCommand (.get key) line connection (Clocks.still t)).2 =
        (h.executeCommand (.get key) line connection (Clocks.still t)).2 := by
  have hkind : (h'.store.keyType key (Clocks.still t 0)).2 =
        (h.store.keyType key (Clocks.still t 0)).2 ∧
      InMemoryStore.Alike names t (h.store.keyType key (Clocks.still t 0)).1
        (h'.store.keyType key (Clocks.still t 0)).1 := by
    rw [keyType_eq, keyType_eq]
    exact H.store.perform hn fun _ => trivial
  simp only [executeCommand, hkind.1]
  generalize h.store.keyType key (Clocks.still t 0) = typed at hkind ⊢
  generalize h'.store.keyType key (Clocks.still t 0) = typed' at hkind ⊢
  obtain ⟨-, hs⟩ := hkind
  have hvalue : (typed'.1.get key (Clocks.still t 1)).2 = (typed.1.get key (Clocks.still t 1)).2 ∧
      InMemoryStore.Alike names t (typed.1.get key (Clocks.still t 1)).1
        (typed'.1.get key (Clocks.still t 1)).1 := by
    rw [get_eq, get_eq]
    exact hs.perform hn fits_getCell
  by_cases hw : typed.2 ≠ none ∧ typed.2 ≠ some .string
  · rw [if_pos hw, if_pos hw]
    exact ⟨H.answer hs _, rfl⟩
  · rw [if_neg hw, if_neg hw]
    generalize typed.1.get key (Clocks.still t 1) = got at hvalue ⊢
    generalize typed'.1.get key (Clocks.still t 1) = got' at hvalue ⊢
    obtain ⟨s, v⟩ := got
    obtain ⟨s', v'⟩ := got'
    obtain ⟨rfl, hs'⟩ : v' = v ∧ InMemoryStore.Alike names t s s' := hvalue
    cases v' with
    | none => exact ⟨H.answer hs' _, rfl⟩
    | some v => exact ⟨H.answer hs' _, rfl⟩

theorem Alike.execute {c : Command} (hnames : ∀ key ∈ c.key, key ∈ names) (line : Str)
    (connection : ClientConnection) :
    Alike names t (h.executeCommand c line connection (Clocks.still t)).1
        (h'.executeCommand c line connection (Clocks.still t)).1 ∧
      (h'.executeCommand c line connection (Clocks.still t)).2 =
        (h.executeCommand c line connection (Clocks.still t)).2 := by
  have hnow : ∀ i j, (fun u => u = t) (Clocks.still t i j) := fun _ _ => rfl
  have hle : ∀ u, u = t → u ≤ t := fun _ => Int.le_of_eq
  cases hm : Semantics.acts (Clocks.still t 0) c with
  | some a =>
    obtain ⟨key, seen, f⟩ := a
    obtain ⟨logged, hfinish⟩ := executeCommand_finish (W := AofWriter) hm line connection
    have hkey : key ∈ names := hnames key (by
      cases c <;> cases hm <;> rfl)
    rw [hfinish H.store.room.lockstep, hfinish H.store.room'.lockstep]
    have hleft : liveAt (Clocks.still t 0 0) (h'.store.cell key) =
        liveAt (Clocks.still t 0 0) (h.store.cell key) := H.store.left key
    rw [hleft]
    exact H.finish (H.store.perform hkey (Semantics.fits_acts hm)).2 _ line _
  | none =>
    -- what is configured is configured on both sides
    have hsaves := H.saves
    have hlog := H.log
    have hclients : ∀ m (sent : List (ClientConnection × Str) → List (ClientConnection × Str)),
        Alike names t { h with pubSubManager := m, delivered := sent h.delivered }
          { h' with pubSubManager := m, delivered := sent h'.delivered } := fun m sent =>
      ⟨⟨⟨H.transactions, H.authenticated, H.requirepass, H.disabledCommands⟩, rfl,
        congrArg sent H.delivered⟩, H.store, H.log, H.saves⟩
    cases c with
    | get key => exact H.get (hnames key rfl) line connection
    | keys pattern =>
      obtain ⟨hlisted, hs⟩ := H.store.keysOp pattern
      exact ⟨H.answer hs _, congrArg (fun keys => some (Reply.array keys)) hlisted⟩
    | bgsave =>
      simp only [executeCommand]
      cases hpm : h.persistenceManager with
      | none =>
        rw [hpm, Option.isSome_none, Option.isSome_eq_false_iff, Option.isNone_iff_eq_none] at hsaves
        rw [hsaves]
        exact ⟨H.answer H.store _, rfl⟩
      | some pm =>
        rw [hpm, Option.isSome_some, Option.isSome_iff_exists] at hsaves
        obtain ⟨pm', hpm'⟩ := hsaves
        rw [hpm']
        exact ⟨H.toSameClients.alike
          (H.store.walks (Walk.start.save hnow pm) (Walk.start.save hnow pm') hle) H.log rfl, rfl⟩
    | bgrewriteaof =>
      simp only [executeCommand]
      generalize hw : h.aofWriter = w at hlog
      generalize hw' : h'.aofWriter = w' at hlog
      cases hlog with
      | none => exact ⟨H.answer H.store _, rfl⟩
      | @some w w' hshape =>
        exact ⟨H.toSameClients.alike
          (H.store.walks (Walk.start.rewrite hnow w) (Walk.start.rewrite hnow w') hle)
          (.some (hshape.rewrite h.store h'.store (Clocks.still t))) H.saves, rfl⟩
    | subscribe channels =>
      simp only [executeCommand, H.pubSubManager]
      cases h.pubSubManager with
      | none => exact ⟨H.answer H.store _, rfl⟩
      | some m => exact ⟨hclients (some _) id, rfl⟩
    | unsubscribe channels =>
      simp only [executeCommand, H.pubSubManager]
      cases h.pubSubManager with
      | none => exact ⟨H.answer H.store _, rfl⟩
      | some m => exact ⟨hclients (some _) id, rfl⟩
    | publish channel message =>
      simp only [executeCommand]
      rw [H.pubSubManager]
      cases h.pubSubManager with
      | none => exact ⟨H.answer H.store _, rfl⟩
      | some m => exact ⟨hclients (some m) (· ++ (m.publish channel message).1), rfl⟩
    | auth | multi | exec | discard => exact ⟨H.answer H.store _, rfl⟩
    | _ => cases hm

/-! ## One line -/

omit H in
theorem changes_congr (hs : InMemoryStore.Alike names t h.store h'.store) (item : QueuedCommand) :
    Execution.changes ⟨h', item, Clocks.still t⟩ = Execution.changes ⟨h, item, Clocks.still t⟩ := by
  simp only [Execution.changes]
  split
  · rfl
  · next key f _ =>
    have hleft : liveAt (Clocks.still t 0 0) (h'.store.cell key) =
        liveAt (Clocks.still t 0 0) (h.store.cell key) := hs.left key
    rw [hleft]

omit H in
theorem Alike.executeQueue (connection : ClientConnection) {clocks : Nat → Clocks}
    {times : Nat → Int} (hclocks : ∀ i, clocks i = Clocks.still (times i))
    (hforward : ∀ i, times i ≤ times (i + 1)) {hi : Int} (hhi : ∀ i, times i ≤ hi) :
    ∀ (items : List QueuedCommand) (i : Nat) {h h' : CommandHandler AofWriter},
      Alike names (times i) h h' →
      (∀ x ∈ Server.executions connection clocks h items i, ∀ key ∈ x.item.command.key,
        key ∈ names) →
      Alike names hi (h.executeQueue connection clocks items i).1
          (h'.executeQueue connection clocks items i).1 ∧
        (h'.executeQueue connection clocks items i).2 =
          (h.executeQueue connection clocks items i).2 ∧
        Server.changed (Server.executions connection clocks h' items i) =
          Server.changed (Server.executions connection clocks h items i)
  | [], i, _, _, H, _ => ⟨H.mono (hhi i), rfl, rfl⟩
  | item :: items, i, h, h', H, hnames => by
    rw [Server.executions, List.forall_mem_cons] at hnames
    obtain ⟨hitem, hnames⟩ := hnames
    obtain ⟨H1, hreply⟩ := H.execute hitem item.line connection
    have hchanges := changes_congr H.store item
    rw [CommandHandler.executeQueue, CommandHandler.executeQueue, Server.executions,
      Server.executions]
    rw [← hclocks i] at H1 hreply hchanges
    generalize h.executeCommand item.command item.line connection (clocks i) = executed
      at H1 hreply hnames ⊢
    generalize h'.executeCommand item.command item.line connection (clocks i) = executed'
      at H1 hreply ⊢
    obtain ⟨h1, reply⟩ := executed
    obtain ⟨h1', reply'⟩ := executed'
    obtain rfl : reply' = reply := hreply
    have hcons : ∀ {l l' : List Execution}, Server.changed l' = Server.changed l →
        Server.changed (⟨h', item, clocks i⟩ :: l') =
          Server.changed (⟨h, item, clocks i⟩ :: l) := by
      intro l l' hrest
      simp only [Server.changed, List.filter_cons, hchanges]
      split
      · exact congrArg (item.line :: ·) hrest
      · exact hrest
    cases reply' with
    | none => exact ⟨H1.mono (hhi i), rfl, hcons rfl⟩
    | some reply =>
      obtain ⟨H2, hreplies, hrest⟩ := Alike.executeQueue connection hclocks hforward hhi items (i + 1)
        (H1.mono (hforward i)) hnames
      refine ⟨H2, ?_, hcons hrest⟩
      dsimp only
      rw [hreplies]

theorem Alike.handleLine (line : Str) (connection : ClientConnection) {clocks : Nat → Clocks}
    {times : Nat → Int} (hclocks : ∀ i, clocks i = Clocks.still (times i)) (hlo : t ≤ times 0)
    (hforward : ∀ i, times i ≤ times (i + 1)) {hi : Int} (hhi : ∀ i, times i ≤ hi)
    (hnames : ∀ x ∈ Server.executions connection clocks (h.route line connection).1
      (h.executed line connection) 0, ∀ key ∈ x.item.command.key, key ∈ names) :
    Alike names hi (h.handleLine line connection clocks).1
        (h'.handleLine line connection clocks).1 ∧
      (h'.handleLine line connection clocks).2 = (h.handleLine line connection clocks).2 ∧
      Server.changed (Server.executions connection clocks (h'.route line connection).1
          (h'.executed line connection) 0) =
        Server.changed (Server.executions connection clocks (h.route line connection).1
          (h.executed line connection) 0) := by
  obtain ⟨H1, hroute⟩ := H.route line connection
  have hexecuted : h'.executed line connection = h.executed line connection := by
    rw [executed, executed, hroute]
  obtain ⟨H2, hreplies, hchanged⟩ := Alike.executeQueue connection hclocks hforward hhi
    (h.executed line connection) 0 (H1.mono hlo) hnames
  rw [hexecuted]
  refine ⟨?_, ?_, hchanged⟩
  · rw [(h.handleLine_executed line connection clocks).1,
      (h'.handleLine_executed line connection clocks).1, hexecuted]
    exact H2
  · cases hr : (h.route line connection).2 with
    | answered reply => rw [handleLine_answered hr, handleLine_answered (hroute.trans hr)]
    | direct c =>
      have hcommands : h.executed line connection = [⟨line, c⟩] := by rw [executed, hr]
      rw [hcommands, Server.executions, List.forall_mem_cons] at hnames
      rw [handleLine_direct hr, handleLine_direct (hroute.trans hr), hclocks 0]
      exact ((H1.mono hlo).execute hnames.1 line connection).2
    | queue items =>
      have hcommands : h.executed line connection = items := by rw [executed, hr]
      rw [hcommands] at hreplies
      rw [handleLine_queue hr, handleLine_queue (hroute.trans hr), hreplies]

end

end CommandHandler

/-! ## Runs with background work -/

/-- What the server does by itself. -/
def ServerEvent.background : ServerEvent → Bool
  | .sweep .. | .tick _ | .saveDone | .saveFailed => true
  | _ => false

/-- What can happen to the server, the snapshots of the dashboard included. -/
inductive BusyEvent where
  | event (e : ServerEvent)
  | snapshot (clocks : Clocks)

namespace BusyEvent

/-- The event, if it is not background work. -/
def foreground : BusyEvent → Option ServerEvent
  | .event e => if e.background then none else some e
  | .snapshot _ => none

/-- Each command of a line is executed at one time, and the times are in order. Background work
reads the clock as it goes. -/
def Within (lo hi : Int) : BusyEvent → Prop
  | .event (.line _ _ clocks) => ∃ times : Nat → Int, (∀ i, clocks i = Clocks.still (times i)) ∧
      lo ≤ times 0 ∧ (∀ i, times i ≤ times (i + 1)) ∧ ∀ i, times i ≤ hi
  | .event e => lo ≤ hi ∧ ∀ t, Server.Reads e t → t ≤ hi
  | .snapshot clocks => lo ≤ hi ∧ ∀ t, clocks.Reads t → t ≤ hi

end BusyEvent

namespace Server

open CommandHandler

/-- What building a snapshot leaves of the store. -/
def snapshotted (s : InMemoryStore) (clocks : Clocks) : InMemoryStore :=
  ((StatsServer.buildSnapshot s [] clocks).map Prod.fst).getD s

def busyNext (st : Server) : BusyEvent → Server
  | .event e => st.next e
  | .snapshot clocks =>
    if st.listening then
      { st with handler := { st.handler with store := snapshotted st.handler.store clocks } }
    else st

def busyAnswers : Server → List BusyEvent → List (ClientConnection × Option Str)
  | _, [] => []
  | st, .event e :: es => st.answersOf e ++ busyAnswers (st.next e) es
  | st, .snapshot clocks :: es => busyAnswers (st.busyNext (.snapshot clocks)) es

/-- Servers that differ by background work. -/
structure Alike (names : List Str) (t : Int) (st st' : Server) : Prop where
  handler : st.handler.Alike names t st'.handler
  serving : st.phase = .serving
  serving' : st'.phase = .serving
  acks : st'.acks = st.acks

section

variable {names : List Str} {t : Int} {st st' : Server} (H : Alike names t st st')

include H

theorem Alike.mono {t' : Int} (ht : t ≤ t') : Alike names t' st st' :=
  ⟨H.handler.mono ht, H.serving, H.serving', H.acks⟩

omit H in
theorem next_serving (hs : st.phase = .serving) (e : ServerEvent) : st.next e = st.step e := by
  rw [Server.next, if_neg]
  rw [hs]
  exact ShutdownPhase.noConfusion

omit H in
theorem listening_of_serving (hs : st.phase = .serving) : st.listening = true := by
  rw [listening, hs]

/-! ## One event -/

theorem Alike.background {e : BusyEvent} (hb : e.foreground = none) {hi : Int}
    (hw : e.Within t hi) : Alike names hi st (st'.busyNext e) := by
  have hstore : ∀ {T : Int → Prop} {s : InMemoryStore}, Walk T st'.handler.store s →
      (∀ u, T u → u ≤ hi) → t ≤ hi → InMemoryStore.Alike names hi st.handler.store s :=
    fun hwalk hT hle => (H.handler.store.mono hle).walk_right hwalk hT
  have hserving := H.serving'
  -- only the store and the saves are touched
  have hdone : ∀ {s : InMemoryStore} {pm : Option PersistenceManager} (written : Option Dump),
      InMemoryStore.Alike names hi st.handler.store s →
      pm.isSome = st'.handler.persistenceManager.isSome →
      Alike names hi st ⟨st'.handler.withData s pm st'.handler.aofWriter, st'.phase, st'.acks,
        written⟩ := fun written hs hpm =>
    ⟨⟨⟨⟨H.handler.transactions, H.handler.authenticated, H.handler.requirepass,
      H.handler.disabledCommands⟩, H.handler.pubSubManager, H.handler.delivered⟩, hs, H.handler.log,
      hpm.trans H.handler.saves⟩, H.serving, hserving, H.acks⟩
  have hended : ∀ (finish : PersistenceManager → PersistenceManager) (succeeded : Bool), t ≤ hi →
      Alike names hi st (st'.endSave finish succeeded) := by
    intro finish succeeded hle
    have hnot : st'.phase ≠ .saving := hserving ▸ ShutdownPhase.noConfusion
    unfold endSave
    cases hpm : st'.handler.persistenceManager with
    | none => exact H.mono hle
    | some pm =>
      dsimp only
      split
      · exact H.mono hle
      · rw [if_neg hnot]
        exact hdone _ (H.handler.store.mono hle) (by rw [hpm]; rfl)
  cases e with
  | snapshot clocks =>
    obtain ⟨hle, hreads⟩ := hw
    rw [busyNext, if_pos (listening_of_serving hserving)]
    refine hdone _ (hstore (T := clocks.Reads) ?_ hreads hle) rfl
    unfold snapshotted
    cases hd : StatsServer.buildSnapshot st'.handler.store [] clocks with
    | none => exact .start
    | some done => exact Walk.start.buildSnapshot (fun i j => ⟨i, j, rfl⟩) [] done hd
  | event e =>
    rw [busyNext, next_serving hserving]
    cases e with
    | sweep n now =>
      obtain ⟨hle, hreads⟩ := hw
      rw [step, if_pos hserving]
      exact hdone _ (hstore (Walk.start.sweepExpired H.handler.store.room'.lockstep n rfl) hreads hle)
        rfl
    | tick clocks =>
      obtain ⟨hle, hreads⟩ := hw
      rcases step_tick st' clocks with e | e <;> rw [e]
      · exact H.mono hle
      · unfold startSave
        cases hpm : st'.handler.persistenceManager with
        | none => exact H.mono hle
        | some pm =>
          rw [hpm] at hdone
          exact hdone _ (hstore (Walk.start.save (fun i j => ⟨i, j, rfl⟩) pm) hreads hle) rfl
    | saveDone => exact hended _ _ hw.1
    | saveFailed => exact hended _ _ hw.1
    | _ => cases hb

theorem Alike.foreground {e : ServerEvent} (hf : e.background = false)
    (hrunning : ∀ clocks, e ≠ .signal clocks) {hi : Int} (hw : BusyEvent.Within t hi (.event e))
    (hnames : ∀ x ∈ st.executionsOf e, ∀ key ∈ x.item.command.key, key ∈ names) :
    Alike names hi (st.next e) (st'.next e) ∧ st'.answersOf e = st.answersOf e := by
  have hs := H.serving
  have hs' := H.serving'
  have hlog : ∀ f : AofWriter → AofWriter, (∀ {w w'}, AofWriter.SameShape w w' →
      AofWriter.SameShape (f w) (f w')) → t ≤ hi → Alike names hi
        { st with handler := { st.handler with aofWriter := st.handler.aofWriter.map f } }
        { st' with handler := { st'.handler with aofWriter := st'.handler.aofWriter.map f } } := by
    intro f hf hle
    refine ⟨⟨⟨⟨H.handler.transactions, H.handler.authenticated, H.handler.requirepass,
      H.handler.disabledCommands⟩, H.handler.pubSubManager, H.handler.delivered⟩,
      H.handler.store.mono hle, ?_, H.handler.saves⟩, hs, hs', H.acks⟩
    have hw := H.handler.log
    generalize st.handler.aofWriter = w at hw ⊢
    generalize st'.handler.aofWriter = w' at hw ⊢
    cases hw with
    | none => exact .none
    | some hw => exact .some (hf hw)
  cases e with
  | line text connection clocks =>
    obtain ⟨times, hclocks, hlo, hforward, hhi⟩ := hw
    have hl := listening_of_serving hs
    have hl' := listening_of_serving hs'
    rw [executionsOf, if_pos hl] at hnames
    obtain ⟨hline, hreply, hchanged⟩ :=
      H.handler.handleLine text connection hclocks hlo hforward hhi hnames
    have hphase : ∀ {st : Server}, st.phase = .serving →
        (st.next (.line text connection clocks)).phase = .serving := by
      intro st hs
      rw [next_serving hs, step, if_pos (listening_of_serving hs)]
      split <;> exact hs
    have hstep := next_line hl text connection clocks
    have hstep' := next_line hl' text connection clocks
    refine ⟨⟨?_, hphase hs, hphase hs', ?_⟩, ?_⟩
    · rw [hstep.1, hstep'.1]
      exact hline
    · rw [hstep.2, hstep'.2, hreply, H.acks, executionsOf, executionsOf, if_pos hl, if_pos hl',
        hchanged]
    · rw [answersOf, answersOf, if_pos hl, if_pos hl', hreply]
  | close connection =>
    rw [next_serving hs, next_serving hs']
    refine ⟨⟨⟨⟨⟨H.handler.transactions, H.handler.authenticated, H.handler.requirepass,
      H.handler.disabledCommands⟩, ?_, H.handler.delivered⟩, H.handler.store.mono hw.1,
      H.handler.log, H.handler.saves⟩, hs, hs', H.acks⟩, rfl⟩
    exact congrArg (Option.map (·.removeConnection connection)) H.handler.pubSubManager
  | rewriteSettled =>
    rw [next_serving hs, next_serving hs']
    exact ⟨hlog _ (fun hshape => hshape.settle) hw.1, rfl⟩
  | rewriteRejected =>
    rw [next_serving hs, next_serving hs']
    exact ⟨hlog _ (fun hshape => hshape.reject) hw.1, rfl⟩
  | statsStopped =>
    rw [next_serving hs, next_serving hs', step, step, if_neg (hs ▸ ShutdownPhase.noConfusion),
      if_neg (hs' ▸ ShutdownPhase.noConfusion)]
    exact ⟨H.mono hw.1, rfl⟩
  | serverClosed =>
    rw [next_serving hs, next_serving hs', step, step, if_neg (hs ▸ ShutdownPhase.noConfusion),
      if_neg (hs' ▸ ShutdownPhase.noConfusion)]
    exact ⟨H.mono hw.1, rfl⟩
  | signal clocks => exact absurd rfl (hrunning clocks)
  | _ => cases hf

end

/-! ## Whole runs -/

theorem alike_run {names : List Str} : ∀ (events : List BusyEvent) {lo hi : Int} {st st' : Server},
    Alike names lo st st' → Trace.InTurn BusyEvent.Within lo hi events →
    (∀ clocks, .event (.signal clocks) ∉ events) →
    (∀ x ∈ st.runExecutions (events.filterMap BusyEvent.foreground), ∀ key ∈ x.item.command.key,
      key ∈ names) →
    Alike names hi (st.run (events.filterMap BusyEvent.foreground)) (events.foldl busyNext st') ∧
      st'.busyAnswers events = st.answers (events.filterMap BusyEvent.foreground)
  | [], _, _, _, _, H, ht, _, _ => ⟨H.mono ht, rfl⟩
  | e :: events, lo, hi, st, st', H, ⟨mid, hw, ht⟩, hrunning, hnames => by
    have hrest : ∀ clocks, .event (.signal clocks) ∉ events := fun clocks hmem =>
      hrunning clocks (List.mem_cons_of_mem _ hmem)
    cases hf : e.foreground with
    | none =>
      rw [List.filterMap_cons_none hf] at hnames ⊢
      obtain ⟨hend, hanswers⟩ := alike_run events (H.background hf hw) ht hrest hnames
      refine ⟨hend, Eq.trans ?_ hanswers⟩
      cases e with
      | snapshot => rfl
      | event e =>
        have hsilent : st'.answersOf e = [] := by
          cases e with
          | line => cases hf
          | _ => rfl
        rw [busyAnswers, hsilent, List.nil_append]
        rfl
    | some e' =>
      obtain ⟨rfl, hfore⟩ : e = .event e' ∧ e'.background = false := by
        cases e with
        | snapshot => cases hf
        | event e =>
          rw [BusyEvent.foreground] at hf
          split at hf
          · cases hf
          · next hb => exact ⟨congrArg _ (Option.some.inj hf),
              Option.some.inj hf ▸ Bool.eq_false_iff.mpr hb⟩
      rw [List.filterMap_cons_some hf, runExecutions] at hnames
      obtain ⟨hstep, hanswer⟩ := H.foreground hfore
        (fun clocks he => hrunning clocks (he ▸ List.mem_cons_self)) hw
        fun x hx => hnames x (List.mem_append_left _ hx)
      obtain ⟨hend, hanswers⟩ := alike_run events hstep ht hrest fun x hx =>
        hnames x (List.mem_append_right _ hx)
      rw [List.filterMap_cons_some hf]
      exact ⟨hend, congr_arg₂ (· ++ ·) hanswer hanswers⟩

/-- On every run that starts with room for the keys that the executed commands name, before the
server is told to stop: wherever in the run it sweeps, saves by itself or builds snapshots, and
however its saves end, the clients are answered, and sent, what they would be without any of it,
the same changes are acknowledged, and the same is left of every key. -/
theorem background_invisible (st : Server) (hs : st.phase = .serving) (names : List Str)
    (hroom : HasRoom names st.handler.store) (lo hi : Int) (events : List BusyEvent)
    (ht : Trace.InTurn BusyEvent.Within lo hi events)
    (hrunning : ∀ clocks, .event (.signal clocks) ∉ events)
    (hnames : ∀ x ∈ st.runExecutions (events.filterMap BusyEvent.foreground),
      ∀ key ∈ x.item.command.key, key ∈ names) :
    let busy := events.foldl busyNext st
    let quiet := st.run (events.filterMap BusyEvent.foreground)
    st.busyAnswers events = st.answers (events.filterMap BusyEvent.foreground) ∧
      busy.handler.delivered = quiet.handler.delivered ∧ busy.acks = quiet.acks ∧
      ∀ t, hi ≤ t → ∀ k, liveAt t (busy.handler.store.cell k) =
        liveAt t (quiet.handler.store.cell k) := by
  intro busy quiet
  obtain ⟨hend, hanswers⟩ := alike_run events (⟨.refl hroom lo, hs, hs, rfl⟩ : Alike names lo st st)
    ht hrunning hnames
  exact ⟨hanswers, hend.handler.delivered, hend.acks, fun t hle => (hend.mono hle).handler.store.left⟩

/-- A key expires and a list grows, while the server sweeps, saves and shows what it holds. -/
def upkeep : List BusyEvent :=
  [.event (sendAt 0 "SET a 1 EX 1"), .snapshot (Clocks.still 500),
    .event (sendAt 600 "RPUSH b x"), .event (.tick (Clocks.still 700)),
    .event (.sweep 20 (Clock.still 1000)), .event (sendAt 1000 "RPUSH b y"), .event .saveDone,
    .snapshot (Clocks.still 1000), .event (sendAt 1500 "KEYS *")]

theorem background_invisible_upkeep : booted.busyAnswers upkeep =
    booted.answers [sendAt 0 "SET a 1 EX 1", sendAt 600 "RPUSH b x", sendAt 1000 "RPUSH b y",
      sendAt 1500 "KEYS *"] := by
  have hline : ∀ (t : Int) (text : String) (lo : Int), lo ≤ t →
      BusyEvent.Within lo t (.event (sendAt t text)) := fun t text lo hle =>
    ⟨fun _ => t, fun _ => rfl, hle, fun _ => Int.le_refl t, fun _ => Int.le_refl t⟩
  have hstill : ∀ t u : Int, (Clocks.still t).Reads u → u ≤ t := by
    rintro t _ ⟨i, j, rfl⟩
    exact Int.le_refl t
  have hturn : Trace.InTurn BusyEvent.Within 0 1500 upkeep :=
    ⟨0, hline 0 _ 0 (by decide), 500, ⟨by decide, hstill 500⟩, 600, hline 600 _ 500 (by decide),
      700, ⟨by decide, hstill 700⟩, 1000, ⟨by decide, fun _ hu => Int.le_of_eq hu.symm⟩,
      1000, hline 1000 _ 1000 (by decide), 1000, ⟨by decide, fun _ hu => hu.elim⟩,
      1000, ⟨by decide, hstill 1000⟩, 1500, hline 1500 _ 1000 (by decide), Int.le_refl 1500⟩
  exact (background_invisible booted rfl [['a'], ['b']] (hasRoom_create Nat.two_pos (Nat.le_refl 2))
    0 1500 upkeep hturn (by simp [upkeep, sendAt]) (by decide)).1

end Server

end MiniStore
