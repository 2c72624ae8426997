import MiniStore.Lib.Trace
import MiniStore.Server.Answers
import MiniStore.Server.Gates
import MiniStore.Server.Registry

/-!
# Sessions

What the server keeps of a connection: its transaction and its authentication, by id, and its
subscriptions. `Sessions` adds to the process which connections are open; both transports
report a closing the same way. The subscriptions end with their connection, the rest does
not, so nothing outlives a connection exactly when nothing else is kept of it as it closes
(`owned_iff`).
-/

namespace MiniStore

open InMemoryStore

namespace PubSubManager

/-- Everything in the maps is about connections in `S`. -/
def Within (m : PubSubManager) (S : ClientConnection → Prop) : Prop :=
  ∃ R, m.Tracks R ∧ ∀ connection channel, R connection channel → S connection

theorem within_empty (S : ClientConnection → Prop) : empty.Within S := by
  have h := tracks_run []
  exact ⟨_, h, fun connection channel hr => absurd hr (not_subscribed_nil connection channel)⟩

section

variable {m : PubSubManager} {S S' : ClientConnection → Prop}

theorem Within.mono (h : m.Within S) (hs : ∀ c, S c → S' c) : m.Within S' := by
  obtain ⟨R, hm, hr⟩ := h
  exact ⟨R, hm, fun connection channel h => hs connection (hr connection channel h)⟩

theorem Within.subscribe (h : m.Within S) {connection : ClientConnection} (hc : S connection)
    {channels : List Str} (hne : channels ≠ []) : (m.subscribe connection channels).1.Within S := by
  obtain ⟨R, hm, hr⟩ := h
  obtain ⟨channel, channels, rfl⟩ := List.exists_cons_of_ne_nil hne
  refine ⟨_, (tracks_subscribe connection hm channel channels).1, ?_⟩
  rintro c ch (h | ⟨rfl, -⟩)
  · exact hr c ch h
  · exact hc

theorem Within.unsubscribe (h : m.Within S) (connection : ClientConnection)
    (channels : List Str) : (m.unsubscribe connection channels).1.Within S := by
  obtain ⟨R, hm, hr⟩ := h
  exact ⟨_, (tracks_unsubscribe connection hm channels).1, fun c ch h => hr c ch h.1⟩

theorem Within.removeConnection (h : m.Within S) (connection : ClientConnection) :
    (m.removeConnection connection).Within fun c => S c ∧ c ≠ connection := by
  obtain ⟨R, hm, hr⟩ := h
  exact ⟨_, tracks_removeConnection connection hm, fun c ch h => ⟨hr c ch h.1, h.2⟩⟩

theorem Within.absent (h : m.Within S) {connection : ClientConnection} (hc : ¬ S connection) :
    m.Absent connection := by
  obtain ⟨R, hm, hr⟩ := h
  exact absent_of_tracks hm fun channel h => hc (hr connection channel h)

end

end PubSubManager

namespace CommandHandler

/-- The subscriptions a handler keeps are those of connections in `S`. -/
def Confined (S : ClientConnection → Prop) (h : CommandHandler AofWriter) : Prop :=
  ∃ m, h.pubSubManager = some m ∧ m.Within S

/-- The id is in `#authenticated` or in `#transactions`. -/
def Keeps (h : CommandHandler AofWriter) (id : Str) : Prop :=
  id ∈ h.authenticated ∨ ∃ queue, h.transactions.get? id = some queue

/-- A line keeps something new under the id of its connection only. -/
theorem keeps_route {h : CommandHandler AofWriter} {text : Str} {connection : ClientConnection}
    {id : Str} (hk : Keeps (h.route text connection).1 id) : id = connection.id ∨ h.Keeps id := by
  have hr := route_routed h text connection
  have hset : ∀ {queue : List QueuedCommand}, (id ∈ h.authenticated ∨
      ∃ q, (h.transactions.set connection.id queue).get? id = some q) →
      id = connection.id ∨ h.Keeps id := by
    rintro queue (ha | ⟨q, hq⟩)
    · exact .inr (.inl ha)
    · rw [OrdMap.get?_set] at hq
      split at hq
      · next hid => exact .inl hid
      · exact .inr (.inr ⟨q, hq⟩)
  have hdelete : (id ∈ h.authenticated ∨
      ∃ q, (h.transactions.delete connection.id).get? id = some q) → h.Keeps id := by
    rintro (ha | ⟨q, hq⟩)
    · exact .inl ha
    · rw [OrdMap.get?_delete] at hq
      split at hq
      · cases hq
      · exact .inr ⟨q, hq⟩
  generalize h.route text connection = routed at hr hk
  cases hr with
  | refused | direct => exact .inr hk
  | authenticated =>
    rcases hk with ha | hq
    · rcases PubSubManager.mem_setAdd.mp ha with ha | ha
      · exact .inr (.inl ha)
      · exact .inl ha
    · exact .inr (.inr hq)
  | begun | queued => exact hset hk
  | run | dropped => exact .inr (hdelete hk)

theorem SameSessions.keeps {h h' : CommandHandler AofWriter} (hs : h.SameSessions h') {id : Str}
    (hk : h'.Keeps id) : h.Keeps id := by
  rw [Keeps, hs.transactions, hs.authenticated] at hk
  exact hk

theorem confined_execute {S : ClientConnection → Prop} {h : CommandHandler AofWriter}
    (H : h.Confined S) {connection : ClientConnection} (hc : S connection) {item : QueuedCommand}
    (hp : parseCommand item.line = .ok item.command) (clocks : Clocks) :
    Confined S (h.executeCommand item.command item.line connection clocks).1 := by
  obtain ⟨m, hm, hw⟩ := H
  have hwf := wf_of_parseCommand hp
  refine ⟨_, executeCommand_manager hm item.command item.line connection clocks, ?_⟩
  unfold subscriptions
  split
  · next channels e =>
    rw [e] at hwf
    exact hw.subscribe hc hwf.1
  · next channels _ => exact hw.unsubscribe connection channels
  · exact hw

end CommandHandler

/-- Nothing that concerns connections differs. -/
structure CommandHandler.SameClients {W : Type} (h h' : CommandHandler W) : Prop extends
    SameSessions h h' where
  pubSubManager : h'.pubSubManager = h.pubSubManager
  delivered : h'.delivered = h.delivered

namespace Server

open CommandHandler Trace

theorem startSave_clients (h : CommandHandler AofWriter) (clocks : Clocks) :
    h.SameClients (startSave h clocks).1 := by
  unfold startSave
  split
  · exact ⟨⟨rfl, rfl, rfl, rfl⟩, rfl, rfl⟩
  · exact ⟨⟨rfl, rfl, rfl, rfl⟩, rfl, rfl⟩

theorem shutdown_clients (st : Server) (clocks : Clocks) :
    st.handler.SameClients (st.shutdown clocks).handler := by
  unfold shutdown
  split
  · exact ⟨⟨rfl, rfl, rfl, rfl⟩, rfl, rfl⟩
  · next w _ =>
    have h := startSave_clients { st.handler with aofWriter := some w } clocks
    exact ⟨⟨h.transactions, h.authenticated, h.requirepass, h.disabledCommands⟩, h.pubSubManager,
      h.delivered⟩
  · exact startSave_clients st.handler clocks

theorem next_clients (st : Server) (e : ServerEvent) :
    st.handler.SameClients (st.next e).handler ∨
      (∃ connection, e = .close connection ∧ (st.next e).handler = { st.handler with
        pubSubManager := st.handler.pubSubManager.map (·.removeConnection connection) }) ∨
      ∃ text connection clocks, e = .line text connection clocks ∧ st.listening = true ∧
        (st.next e).handler = (st.handler.handleLine text connection clocks).1 := by
  have hsame : ∀ {h' : CommandHandler AofWriter}, h' = st.handler →
      st.handler.SameClients h' := by
    rintro _ rfl
    exact ⟨⟨rfl, rfl, rfl, rfl⟩, rfl, rfl⟩
  unfold Server.next
  split
  · exact .inl (hsame rfl)
  cases e with
  | line text connection clocks =>
    cases hl : st.listening with
    | true =>
      exact .inr (.inr ⟨text, connection, clocks, rfl, rfl,
        (step_line hl text connection clocks).1⟩)
    | false =>
      rw [step, hl]
      exact .inl (hsame rfl)
  | sweep n now =>
    simp only [step]
    split
    · exact .inl ⟨⟨rfl, rfl, rfl, rfl⟩, rfl, rfl⟩
    · exact .inl (hsame rfl)
  | tick clocks =>
    rcases step_tick st clocks with e | e <;> rw [e]
    · exact .inl (hsame rfl)
    · exact .inl (startSave_clients st.handler clocks)
  | saveDone | saveFailed =>
    simp only [step, endSave]
    split
    · exact .inl (hsame rfl)
    · split
      · exact .inl (hsame rfl)
      · exact .inl ⟨⟨rfl, rfl, rfl, rfl⟩, rfl, rfl⟩
  | rewriteSettled | rewriteRejected => exact .inl ⟨⟨rfl, rfl, rfl, rfl⟩, rfl, rfl⟩
  | close connection => exact .inr (.inl ⟨connection, rfl, rfl⟩)
  | signal clocks =>
    simp only [step]
    split
    · exact .inl (shutdown_clients st clocks)
    · exact .inl (hsame rfl)
  | statsStopped | serverClosed =>
    simp only [step]
    split
    · exact .inl (hsame rfl)
    · exact .inl (hsame rfl)

theorem confined_next {st : Server} {S : ClientConnection → Prop} (hp : st.handler.Parsed)
    (hc : st.handler.Confined S) {e : ServerEvent}
    (hl : ∀ text connection clocks, e = .line text connection clocks → S connection) :
    (st.next e).handler.Parsed ∧ (st.next e).handler.Confined S := by
  rcases next_clients st e with hsame | ⟨connection, -, he⟩ | ⟨text, connection, clocks, rfl, -, he⟩
  · refine ⟨fun id queue hq => hp id queue (hsame.transactions ▸ hq), ?_⟩
    rw [Confined, hsame.pubSubManager]
    exact hc
  · obtain ⟨m, hm, hw⟩ := hc
    rw [he]
    refine ⟨hp, m.removeConnection connection, by rw [hm, Option.map_some], ?_⟩
    exact (hw.removeConnection connection).mono fun _ h => h.1
  · have hsessions := st.handler.handleLine_sessions text connection clocks
    obtain ⟨hparsed, hitems⟩ := route_parsed hp text connection
    rw [he]
    refine ⟨fun id queue hq => hparsed id queue (hsessions.transactions ▸ hq), ?_⟩
    rw [(st.handler.handleLine_executed text connection clocks).1]
    refine executeQueue_rule (P := Confined S) (fun clocks H hq =>
      confined_execute H (hl text connection _ rfl) hq clocks) clocks _ 0 ?_ hitems
    rw [Confined, (st.handler.route_data text connection).2.2.2]
    exact hc

theorem keeps_next {st : Server} {e : ServerEvent} {id : Str} (hk : (st.next e).handler.Keeps id) :
    st.handler.Keeps id ∨
      ∃ text connection clocks, e = .line text connection clocks ∧ id = connection.id := by
  rcases next_clients st e with hsame | ⟨connection, -, he⟩ | ⟨text, connection, clocks, rfl, -, he⟩
  · exact .inl (hsame.keeps hk)
  · rw [he] at hk
    exact .inl hk
  · rw [he] at hk
    rcases keeps_route ((st.handler.handleLine_sessions text connection clocks).keeps hk) with h | h
    · exact .inr ⟨text, connection, clocks, rfl, h⟩
    · exact .inl h

end Server

/-! ## Open connections -/

/-- The process and its open connections. -/
structure Sessions where
  server : Server
  opened : List ClientConnection

inductive SessionEvent where
  | connect (connection : ClientConnection)
  | event (e : ServerEvent)

namespace Sessions

open CommandHandler Trace

/-- Lines and closings come from open connections. `close` is the callback of the TCP server and
of the playground, which are the same. -/
def next (st : Sessions) (e : SessionEvent) : Sessions :=
  if st.server.phase = .exited then st
  else
    match e with
    | .connect connection => { st with opened := PubSubManager.setAdd st.opened connection }
    | .event (.line text connection clocks) =>
      if connection ∈ st.opened then
        { st with server := st.server.next (.line text connection clocks) }
      else st
    | .event (.close connection) =>
      if connection ∈ st.opened then
        ⟨st.server.next (.close connection), PubSubManager.setDelete st.opened connection⟩
      else st
    | .event e => { st with server := st.server.next e }

/-- All that is kept of connections is kept of open ones. -/
structure Owned (st : Sessions) : Prop where
  ids : ∀ id, st.server.handler.Keeps id → ∃ connection ∈ st.opened, connection.id = id
  subscriptions : ∀ m ∈ st.server.handler.pubSubManager, ∀ connection, connection ∉ st.opened →
    m.Absent connection

/-- The event closes an open connection. -/
def Closes (st : Sessions) (e : SessionEvent) (connection : ClientConnection) : Prop :=
  e = .event (.close connection) ∧ st.server.phase ≠ .exited ∧ connection ∈ st.opened

/-- Nothing is kept under the id of a connection that closes, or another one that stays open has
the same id. -/
def ClosesClean (st : Sessions) (e : SessionEvent) : Prop :=
  ∀ connection, st.Closes e connection → st.server.handler.Keeps connection.id →
    ∃ other ∈ st.opened, other ≠ connection ∧ other.id = connection.id

/-- What holds of every run. -/
structure Sound (st : Sessions) : Prop where
  parsed : st.server.handler.Parsed
  confined : st.server.handler.Confined (· ∈ st.opened)

theorem next_cases (st : Sessions) (e : SessionEvent) :
    ((∀ connection, ¬ st.Closes e connection) ∧ (st.next e = st ∨
      (∃ connection, st.next e = ⟨st.server, PubSubManager.setAdd st.opened connection⟩) ∨
      ∃ e', (∀ text connection clocks, e' = .line text connection clocks →
        connection ∈ st.opened) ∧ st.next e = ⟨st.server.next e', st.opened⟩)) ∨
    ∃ connection, st.Closes e connection ∧ st.next e =
      ⟨st.server.step (.close connection), PubSubManager.setDelete st.opened connection⟩ := by
  unfold next
  split
  · next hphase => exact .inl ⟨fun _ hc => hc.2.1 hphase, .inl rfl⟩
  next hphase =>
  cases e with
  | connect connection =>
    exact .inl ⟨fun _ hc => (by cases hc.1), .inr (.inl ⟨connection, rfl⟩)⟩
  | event e =>
    cases e with
    | line text connection clocks =>
      refine .inl ⟨fun _ hc => (by cases hc.1), ?_⟩
      dsimp only
      split
      · next hopen =>
        refine .inr (.inr ⟨.line text connection clocks, fun _ _ _ h => ?_, rfl⟩)
        cases h
        exact hopen
      · exact .inl rfl
    | close connection =>
      dsimp only
      split
      · next hopen =>
        refine .inr ⟨connection, ⟨rfl, hphase, hopen⟩, ?_⟩
        rw [Server.next, if_neg hphase]
      · next hopen =>
        refine .inl ⟨fun c hc => hopen ?_, .inl rfl⟩
        cases hc.1
        exact hc.2.2
    | _ =>
      refine .inl ⟨fun _ hc => (by cases hc.1), .inr (.inr ⟨_, ?_, rfl⟩)⟩
      intro _ _ _ h
      cases h

theorem sound_next {st : Sessions} (H : st.Sound) (e : SessionEvent) : (st.next e).Sound := by
  rcases next_cases st e with ⟨-, he | ⟨connection, he⟩ | ⟨e', hl, he⟩⟩ | ⟨connection, -, he⟩
  · rw [he]
    exact H
  · obtain ⟨m, hm, hw⟩ := H.confined
    rw [he]
    exact ⟨H.parsed, m, hm, hw.mono fun c hc => PubSubManager.mem_setAdd.mpr (.inl hc)⟩
  · obtain ⟨hp, hc⟩ := Server.confined_next H.parsed H.confined hl
    rw [he]
    exact ⟨hp, hc⟩
  · obtain ⟨m, hm, hw⟩ := H.confined
    rw [he]
    refine ⟨H.parsed, m.removeConnection connection, ?_, ?_⟩
    · show st.server.handler.pubSubManager.map _ = _
      rw [hm, Option.map_some]
    · exact (hw.removeConnection connection).mono fun c hc => PubSubManager.mem_setDelete.mpr hc

/-- In a sound state only ids can outlive their connection. -/
theorem Sound.owned {st : Sessions} (H : st.Sound)
    (hids : ∀ id, st.server.handler.Keeps id → ∃ connection ∈ st.opened, connection.id = id) :
    st.Owned := by
  refine ⟨hids, fun m hm connection hc => ?_⟩
  obtain ⟨m', hm', hw⟩ := H.confined
  rw [Option.mem_def, hm'] at hm
  exact Option.some.inj hm ▸ hw.absent hc

/-- A step leaves no id behind exactly when it closes clean. -/
theorem owned_next_iff {st : Sessions} (H : st.Sound) (hst : st.Owned) (e : SessionEvent) :
    (st.next e).Owned ↔ ClosesClean st e := by
  have hnext := sound_next H e
  rcases next_cases st e with ⟨hopen, he⟩ | ⟨connection, hcloses, he⟩
  · refine iff_of_true (hnext.owned fun id hk => ?_) fun c hc => absurd hc (hopen c)
    rcases he with he | ⟨connection, he⟩ | ⟨e', hl, he⟩
    · rw [he] at hk ⊢
      exact hst.ids id hk
    · rw [he] at hk ⊢
      obtain ⟨c, hc, hid⟩ := hst.ids id hk
      exact ⟨c, PubSubManager.mem_setAdd.mpr (.inl hc), hid⟩
    · rw [he] at hk ⊢
      rcases Server.keeps_next hk with hk | ⟨text, connection, clocks, rfl, rfl⟩
      · exact hst.ids id hk
      · exact ⟨connection, hl text connection clocks rfl, rfl⟩
  · constructor
    · intro howned c hc hk
      have hsame : c = connection := by
        have h := hc.1.symm.trans hcloses.1
        cases h
        rfl
      subst hsame
      obtain ⟨other, hother, hid⟩ := howned.ids c.id (he ▸ hk)
      rw [he] at hother
      obtain ⟨hother, hne⟩ := PubSubManager.mem_setDelete.mp hother
      exact ⟨other, hother, hne, hid⟩
    · intro hclean
      refine hnext.owned fun id hk => ?_
      rw [he] at hk ⊢
      have hk : st.server.handler.Keeps id := hk
      obtain ⟨c, hc, hid⟩ := hst.ids id hk
      by_cases hsame : c = connection
      · obtain ⟨other, hother, hne, ho⟩ := hclean connection hcloses (hsame ▸ hid ▸ hk)
        exact ⟨other, PubSubManager.mem_setDelete.mpr ⟨hother, hne⟩,
          ho.trans (hsame ▸ hid)⟩
      · exact ⟨c, PubSubManager.mem_setDelete.mpr ⟨hc, hsame⟩, hid⟩

def main (store : InMemoryStore) (pm : Option PersistenceManager) (requirepass : Option Str)
    (disabledCommands : List Str) (path : Str) (fsyncPolicy : FsyncPolicy) (fs : Fs) : Sessions :=
  ⟨Server.main (CommandHandler.create store pm none (some PubSubManager.empty) requirepass
    disabledCommands) path fsyncPolicy fs, []⟩

/-- Along a run nothing outlives its connection exactly when every closing is clean. -/
theorem owned_iff (store : InMemoryStore) (pm : Option PersistenceManager)
    (requirepass : Option Str) (disabledCommands : List Str) (path : Str)
    (fsyncPolicy : FsyncPolicy) (fs : Fs) (events : List SessionEvent) :
    (∀ past, past <+: events →
      (past.foldl next (main store pm requirepass disabledCommands path fsyncPolicy fs)).Owned) ↔
      Along next ClosesClean (main store pm requirepass disabledCommands path fsyncPolicy fs)
        events := by
  have hsound : (main store pm requirepass disabledCommands path fsyncPolicy fs).Sound :=
    ⟨fun id queue hq => (by cases hq), PubSubManager.empty, rfl, PubSubManager.within_empty _⟩
  have howned : (main store pm requirepass disabledCommands path fsyncPolicy fs).Owned := by
    refine hsound.owned fun id hk => ?_
    rcases hk with hk | ⟨queue, hq⟩
    · cases hk
    · cases hq
  generalize main store pm requirepass disabledCommands path fsyncPolicy fs = st0 at hsound howned ⊢
  have hreach : ∀ past : List SessionEvent, (past.foldl next st0).Sound := fun past =>
    history_rule (I := fun _ st => Sound st) (fun e H => sound_next H e) hsound past
  constructor
  · intro hall
    refine along_of_reached fun past e hp => ?_
    have hpast := hall past ((List.prefix_append past [e]).trans hp)
    refine (owned_next_iff (hreach past) hpast e).mp ?_
    have hlast := hall (past ++ [e]) hp
    rwa [List.foldl_append] at hlast
  · intro hclean past hp
    exact (Along.reached (J := fun st => st.Sound ∧ st.Owned)
      (fun H hc => ⟨sound_next H.1 _, (owned_next_iff H.1 H.2 _).mpr hc⟩) ⟨hsound, howned⟩ hclean
        hp).2

def closingOpen : List SessionEvent :=
  [.connect ⟨1, "tcp".toList⟩, .event (Server.send "MULTI"), .event (.close ⟨1, "tcp".toList⟩)]

theorem transaction_outlives_connection :
    ¬ ∀ past, past <+: closingOpen → (past.foldl next (main (InMemoryStore.create 2 (Nat.le_succ 1))
      none none [] "aof".toList .no Fs.empty)).Owned := by
  intro h
  obtain ⟨connection, hc, -⟩ := (h closingOpen (List.prefix_refl _)).ids "tcp".toList
    (.inr ⟨[], by decide⟩)
  have hnone : (closingOpen.foldl next (main (InMemoryStore.create 2 (Nat.le_succ 1))
      none none [] "aof".toList .no Fs.empty)).opened = [] := by decide
  rw [hnone] at hc
  cases hc

end Sessions

end MiniStore
