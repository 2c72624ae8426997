import MiniStore.Server.Sessions

/-!
# Admission

Who may have a command executed. Whatever runs, at once or out of a queue, was sent by the
connection it runs for, after the right AUTH, and is not disabled (`Admitted`). Connections that
never authenticate leave no trace: without their lines a run is the same (`admission`).
-/

namespace MiniStore

namespace Server

open CommandHandler Trace

/-- The connection sends AUTH with the password. -/
def authenticates (requirepass : Option Str) (events : List ServerEvent)
    (connection : ClientConnection) : Bool :=
  events.any fun e =>
    match e with
    | .line text c _ => c = connection && match parseCommand text with
      | .ok (.auth password) => requirepass = some password
      | _ => false
    | _ => false

/-- The command was sent by the connection, which was free to, and is not disabled. -/
structure Admitted (requirepass : Option Str) (disabledCommands : List Str)
    (events : List ServerEvent) (connection : ClientConnection) (item : QueuedCommand) : Prop where
  parsed : parseCommand item.line = .ok item.command
  enabled : item.command.name ∉ disabledCommands
  sent : ∃ earlier clocks later, events = earlier ++ .line item.line connection clocks :: later ∧
    (requirepass = none ∨ authenticates requirepass earlier connection = true)

def DistinctIds (events : List ServerEvent) : Prop :=
  ∀ text connection clocks text' connection' clocks', .line text connection clocks ∈ events →
    .line text' connection' clocks' ∈ events → connection.id = connection'.id →
    connection = connection'

section

variable {requirepass : Option Str} {disabledCommands : List Str}
  {events events' : List ServerEvent} {connection : ClientConnection}

theorem authenticates_iff : authenticates requirepass events connection = true ↔
    ∃ text clocks password, .line text connection clocks ∈ events ∧
      parseCommand text = .ok (.auth password) ∧ requirepass = some password := by
  rw [authenticates, List.any_eq_true]
  constructor
  · rintro ⟨e, he, h⟩
    cases e with
    | line text c clocks =>
      rw [Bool.and_eq_true, decide_eq_true_iff] at h
      obtain ⟨rfl, h⟩ := h
      split at h
      · next password hp => exact ⟨text, clocks, password, he, hp, of_decide_eq_true h⟩
      · cases h
    | _ => cases h
  · rintro ⟨text, clocks, password, he, hp, hr⟩
    refine ⟨_, he, ?_⟩
    simp only [hp, hr, decide_true, Bool.and_self]

theorem authenticates_mono (events' : List ServerEvent)
    (h : authenticates requirepass events connection = true) :
    authenticates requirepass (events ++ events') connection = true := by
  obtain ⟨text, clocks, password, he, hp, hr⟩ := authenticates_iff.mp h
  exact authenticates_iff.mpr ⟨text, clocks, password, List.mem_append_left _ he, hp, hr⟩

theorem Admitted.mono {item : QueuedCommand}
    (h : Admitted requirepass disabledCommands events connection item) :
    Admitted requirepass disabledCommands (events ++ events') connection item := by
  obtain ⟨earlier, clocks, later, rfl, ha⟩ := h.sent
  exact ⟨h.parsed, h.enabled, earlier, clocks, later ++ events', by
    rw [List.append_assoc, List.cons_append], ha⟩

theorem DistinctIds.left (h : DistinctIds (events ++ events')) : DistinctIds events :=
  fun text c clocks text' c' clocks' hm hm' => h text c clocks text' c' clocks'
    (List.mem_append_left _ hm) (List.mem_append_left _ hm')

end

/-! ## What queues hold -/

/-- What the events say about the sessions. -/
structure Accounts (requirepass : Option Str) (disabledCommands : List Str)
    (past : List ServerEvent) (h : CommandHandler AofWriter) : Prop where
  password : h.requirepass = requirepass
  disabled : h.disabledCommands = disabledCommands
  authenticated : ∀ id ∈ h.authenticated, ∃ connection, connection.id = id ∧
    authenticates requirepass past connection = true
  queued : ∀ id queue, h.transactions.get? id = some queue → ∀ item ∈ queue,
    ∃ connection text clocks, connection.id = id ∧ .line text connection clocks ∈ past ∧
      Admitted requirepass disabledCommands past connection item

section

variable {requirepass : Option Str} {disabledCommands : List Str} {past : List ServerEvent}
  {h : CommandHandler AofWriter}

theorem Accounts.mono (H : Accounts requirepass disabledCommands past h)
    (events : List ServerEvent) : Accounts requirepass disabledCommands (past ++ events) h := by
  refine ⟨H.password, H.disabled, fun id hid => ?_, fun id queue hq item hi => ?_⟩
  · obtain ⟨connection, hc, ha⟩ := H.authenticated id hid
    exact ⟨connection, hc, authenticates_mono _ ha⟩
  · obtain ⟨connection, text, clocks, hc, hm, ha⟩ := H.queued id queue hq item hi
    exact ⟨connection, text, clocks, hc, List.mem_append_left _ hm, ha.mono⟩

theorem Accounts.of_sessions {h' : CommandHandler AofWriter}
    (H : Accounts requirepass disabledCommands past h) (hs : h.SameSessions h') :
    Accounts requirepass disabledCommands past h' := by
  refine ⟨hs.requirepass.trans H.password, hs.disabledCommands.trans H.disabled, ?_, ?_⟩
  · rw [hs.authenticated]
    exact H.authenticated
  · rw [hs.transactions]
    exact H.queued

theorem Accounts.admitted (H : Accounts requirepass disabledCommands past h) {text : Str}
    {connection : ClientConnection} {clocks : Nat → Clocks}
    (hd : DistinctIds (past ++ [.line text connection clocks])) {command : Command}
    (ha : h.Admits text connection command) :
    Admitted requirepass disabledCommands (past ++ [.line text connection clocks]) connection
      ⟨text, command⟩ := by
  refine ⟨ha.parsed, H.disabled ▸ ha.enabled, past, clocks, [], rfl, ?_⟩
  have hauth := ha.authenticated
  rw [needsAuth, H.password] at hauth
  cases hr : requirepass with
  | none => exact .inl rfl
  | some password =>
    rw [hr, Option.isSome_some, Bool.true_and, Bool.not_eq_false', decide_eq_true_iff] at hauth
    obtain ⟨c, hc, hsent⟩ := H.authenticated connection.id hauth
    obtain ⟨text', clocks', _, hmem, _, _⟩ := authenticates_iff.mp hsent
    have hsame : c = connection := hd text' c clocks' text connection clocks
      (List.mem_append_left _ hmem) (List.mem_append_right _ List.mem_cons_self) hc
    exact .inr (hr ▸ hsame ▸ hsent)

theorem Accounts.own (H : Accounts requirepass disabledCommands past h) (hd : DistinctIds past)
    {text : Str} {connection : ClientConnection} {clocks : Nat → Clocks}
    (hsent : .line text connection clocks ∈ past) {queue : List QueuedCommand}
    (hq : h.transactions.get? connection.id = some queue) :
    ∀ item ∈ queue, Admitted requirepass disabledCommands past connection item := by
  intro item hi
  obtain ⟨c, text', clocks', hc, hm, ha⟩ := H.queued connection.id queue hq item hi
  exact hd text' c clocks' text connection clocks hm hsent hc ▸ ha

theorem Accounts.setQueue (H : Accounts requirepass disabledCommands past h) {text : Str}
    {connection : ClientConnection} {clocks : Nat → Clocks}
    (hsent : .line text connection clocks ∈ past) {queue : List QueuedCommand}
    (hall : ∀ item ∈ queue, Admitted requirepass disabledCommands past connection item) :
    Accounts requirepass disabledCommands past
      { h with transactions := h.transactions.set connection.id queue } := by
  refine ⟨H.password, H.disabled, H.authenticated, fun id queue' hq => ?_⟩
  rw [OrdMap.get?_set] at hq
  split at hq
  · next hid =>
    cases hq
    exact fun item hi => ⟨connection, text, clocks, hid.symm, hsent, hall item hi⟩
  · exact H.queued id queue' hq

theorem Accounts.deleteQueue (H : Accounts requirepass disabledCommands past h) (id : Str) :
    Accounts requirepass disabledCommands past
      { h with transactions := h.transactions.delete id } := by
  refine ⟨H.password, H.disabled, H.authenticated, fun id' queue hq => ?_⟩
  rw [OrdMap.get?_delete] at hq
  split at hq
  · cases hq
  · exact H.queued id' queue hq

theorem Accounts.route (H : Accounts requirepass disabledCommands past h) {text : Str}
    {connection : ClientConnection} {clocks : Nat → Clocks}
    (hd : DistinctIds (past ++ [.line text connection clocks])) :
    Accounts requirepass disabledCommands (past ++ [.line text connection clocks])
        (h.route text connection).1 ∧
      ∀ item ∈ h.executed text connection, Admitted requirepass disabledCommands
        (past ++ [.line text connection clocks]) connection item := by
  have H' := H.mono [.line text connection clocks]
  have hlast : ServerEvent.line text connection clocks ∈ past ++ [.line text connection clocks] :=
    List.mem_append_right _ List.mem_cons_self
  have hown : ∀ queue, h.transactions.get? connection.id = some queue → ∀ item ∈ queue,
      Admitted requirepass disabledCommands (past ++ [.line text connection clocks]) connection
        item :=
    fun _ hq => H'.own hd hlast hq
  have hr := route_routed h text connection
  rw [executed]
  generalize h.route text connection = routed at hr ⊢
  cases hr with
  | refused => exact ⟨H', fun _ hi => absurd hi List.not_mem_nil⟩
  | @authenticated password hp hn hpass =>
    refine ⟨⟨H'.password, H'.disabled, fun id hid => ?_, H'.queued⟩,
      fun _ hi => absurd hi List.not_mem_nil⟩
    rcases PubSubManager.mem_setAdd.mp hid with hid | rfl
    · exact H'.authenticated id hid
    · exact ⟨connection, rfl, authenticates_iff.mpr ⟨text, clocks, password, hlast, hp,
        H.password ▸ hpass⟩⟩
  | begun => exact ⟨H'.setQueue hlast fun _ hi => absurd hi List.not_mem_nil,
      fun _ hi => absurd hi List.not_mem_nil⟩
  | run ha ht => exact ⟨H'.deleteQueue _, hown _ ht⟩
  | dropped => exact ⟨H'.deleteQueue _, fun _ hi => absurd hi List.not_mem_nil⟩
  | queued ha hc ht =>
    refine ⟨H'.setQueue hlast fun item hi => ?_, fun _ hi => absurd hi List.not_mem_nil⟩
    rcases List.mem_append.mp hi with hi | hi
    · exact hown _ ht item hi
    · rw [List.mem_singleton.mp hi]
      exact H.admitted hd ha
  | direct ha =>
    refine ⟨H', fun item hi => ?_⟩
    rw [List.mem_singleton.mp hi]
    exact H.admitted hd ha

end

theorem accounts_next {requirepass : Option Str} {disabledCommands : List Str}
    {past : List ServerEvent} {st : Server}
    (H : Accounts requirepass disabledCommands past st.handler) (e : ServerEvent)
    (hd : DistinctIds (past ++ [e])) :
    Accounts requirepass disabledCommands (past ++ [e]) (st.next e).handler := by
  rcases next_clients st e with hsame | ⟨connection, -, he⟩ | ⟨text, connection, clocks, rfl, -, he⟩
  · exact (H.mono [e]).of_sessions hsame.toSameSessions
  · rw [he]
    exact (H.mono [e]).of_sessions ⟨rfl, rfl, rfl, rfl⟩
  · rw [he]
    exact (H.route hd).1.of_sessions (st.handler.handleLine_sessions text connection clocks)

/-! ## Lines without authentication -/

def answersOf (st : Server) : ServerEvent → List (ClientConnection × Option Str)
  | .line text connection clocks =>
    if st.listening then [(connection, (st.handler.handleLine text connection clocks).2)] else []
  | _ => []

def answers : Server → List ServerEvent → List (ClientConnection × Option Str)
  | _, [] => []
  | st, e :: es => st.answersOf e ++ answers (st.next e) es

/-- The event is not a line of a connection that never authenticates. -/
def insider (requirepass : Option Str) (events : List ServerEvent) : ServerEvent → Bool
  | .line _ connection _ => authenticates requirepass events connection
  | _ => true

section

variable {requirepass : Option Str} {disabledCommands : List Str} {past : List ServerEvent}
  {st : Server} {text : Str} {connection : ClientConnection} {clocks : Nat → Clocks}

theorem Accounts.refuses (H : Accounts requirepass disabledCommands past st.handler)
    (hsome : requirepass.isSome = true) {rest : List ServerEvent}
    (hd : DistinctIds (past ++ .line text connection clocks :: rest))
    (hout : authenticates requirepass (past ++ .line text connection clocks :: rest) connection =
      false) :
    ∃ reply, st.handler.route text connection = (st.handler, .answered reply) := by
  have hline : ServerEvent.line text connection clocks ∈
      past ++ .line text connection clocks :: rest :=
    List.mem_append_right _ List.mem_cons_self
  have hnot : connection.id ∉ st.handler.authenticated := by
    intro hid
    obtain ⟨c, hc, ha⟩ := H.authenticated connection.id hid
    obtain ⟨text', clocks', _, hmem, _, _⟩ := authenticates_iff.mp ha
    have hsame : c = connection := hd text' c clocks' text connection clocks
      (List.mem_append_left _ hmem) hline hc
    have hin := authenticates_mono (.line text connection clocks :: rest) (hsame ▸ ha)
    rw [hout] at hin
    cases hin
  have hneeds : st.handler.needsAuth connection = true := by
    rw [needsAuth, H.password, hsome, Bool.true_and, Bool.not_eq_true', decide_eq_false_iff_not]
    exact hnot
  have hadmits : ∀ {command}, ¬ st.handler.Admits text connection command := by
    intro command ha
    exact Bool.false_ne_true (ha.authenticated.symm.trans hneeds)
  have hr := route_routed st.handler text connection
  generalize st.handler.route text connection = routed at hr
  cases hr with
  | refused message => exact ⟨Reply.error message, rfl⟩
  | @authenticated password hp hn hpass =>
    have hin : authenticates requirepass (past ++ .line text connection clocks :: rest) connection =
      true := authenticates_iff.mpr ⟨text, clocks, password, hline, hp, H.password ▸ hpass⟩
    rw [hout] at hin
    cases hin
  | begun ha | run ha | dropped ha | queued ha | direct ha => exact absurd ha hadmits

theorem next_of_refused {reply : Str}
    (hr : st.handler.route text connection = (st.handler, .answered reply)) :
    st.next (.line text connection clocks) = st := by
  have hline : st.handler.handleLine text connection clocks = (st.handler, some reply) := by
    rw [CommandHandler.handleLine, hr]
  have hnone : st.executionsOf (.line text connection clocks) = [] := by
    simp only [executionsOf, executed, hr, executions, ite_self]
  unfold Server.next
  split
  · rfl
  · simp only [step, hline, hnone, changed]
    split
    · rw [List.filter_nil, List.map_nil, List.append_nil]
    · rfl

/-- Dropping such lines changes neither the process nor what others are answered. -/
theorem run_insiders (hsome : requirepass.isSome = true) : ∀ (rest : List ServerEvent)
    {past : List ServerEvent} {st : Server}, DistinctIds (past ++ rest) →
    Accounts requirepass disabledCommands past st.handler →
    st.run (rest.filter (insider requirepass (past ++ rest))) = st.run rest ∧
      answers st (rest.filter (insider requirepass (past ++ rest))) =
        (answers st rest).filter fun answer => authenticates requirepass (past ++ rest) answer.1
  | [], _, _, _, _ => ⟨rfl, rfl⟩
  | e :: rest, past, st, hd, H => by
    have hsplit : past ++ e :: rest = (past ++ [e]) ++ rest := by
      rw [List.append_assoc, List.singleton_append]
    have hnext := accounts_next H e (hsplit ▸ hd).left
    obtain ⟨hrun, hanswers⟩ := run_insiders hsome rest (hsplit ▸ hd) hnext
    rw [← hsplit] at hrun hanswers
    cases hin : insider requirepass (past ++ e :: rest) e with
    | true =>
      rw [List.filter_cons_of_pos hin]
      refine ⟨hrun, ?_⟩
      rw [answers, answers, List.filter_append, hanswers]
      refine congrArg (· ++ _) ?_
      cases e with
      | line text connection clocks =>
        simp only [answersOf]
        split
        · symm
          exact List.filter_cons_of_pos hin
        · rfl
      | _ => rfl
    | false =>
      rw [List.filter_cons_of_neg (Bool.not_eq_true _ ▸ hin)]
      cases e with
      | line text connection clocks =>
        obtain ⟨reply, hr⟩ := H.refuses hsome hd hin
        rw [next_of_refused hr] at hrun hanswers
        refine ⟨hrun.trans ?_, ?_⟩
        · show st.run rest = (st.next _).run rest
          rw [next_of_refused hr]
        · have hnil : (st.answersOf (.line text connection clocks)).filter (fun answer =>
              authenticates requirepass (past ++ .line text connection clocks :: rest) answer.1) =
                [] := by
            simp only [answersOf]
            split
            · exact List.filter_cons_of_neg (Bool.not_eq_true _ ▸ hin)
            · rfl
          rw [hanswers, answers, List.filter_append, next_of_refused hr, hnil, List.nil_append]
      | _ => cases hin

end

/-- Whatever is executed was sent by its connection, after the password was, and is not
disabled; and with a password, connections that never send it change nothing. -/
theorem admission (store : InMemoryStore) (pm : Option PersistenceManager)
    (pubSub : Option PubSubManager) (requirepass : Option Str) (disabledCommands : List Str)
    (path : Str) (fsyncPolicy : FsyncPolicy) (fs : Fs) (events : List ServerEvent)
    (hd : DistinctIds events) :
    let st := main (CommandHandler.create store pm none pubSub requirepass disabledCommands) path
      fsyncPolicy fs
    (∀ past text connection clocks, past ++ [.line text connection clocks] <+: events →
      ∀ e ∈ (st.run past).executionsOf (.line text connection clocks),
        Admitted requirepass disabledCommands (past ++ [.line text connection clocks]) connection
          e.item) ∧
    (requirepass.isSome = true →
      st.run (events.filter (insider requirepass events)) = st.run events ∧
      answers st (events.filter (insider requirepass events)) =
        (answers st events).filter fun answer => authenticates requirepass events answer.1) := by
  intro st
  have H0 : Accounts requirepass disabledCommands [] st.handler :=
    ⟨rfl, rfl, fun id hid => absurd hid List.not_mem_nil, fun id queue hq => by cases hq⟩
  have hfrom : DistinctIds ([] ++ events) := hd
  refine ⟨fun past text connection clocks hp e he => ?_, fun hsome =>
    run_insiders hsome events hfrom H0⟩
  obtain ⟨rest, rfl⟩ := hp
  have H : Accounts requirepass disabledCommands past (st.run past).handler :=
    history_rule (I := fun past (st : Server) => DistinctIds past →
      Accounts requirepass disabledCommands past st.handler)
      (fun e H hd => accounts_next (H hd.left) e hd) (fun _ => H0) past hd.left.left
  simp only [executionsOf] at he
  split at he
  · exact (H.route hd.left).2 e.item (items_of_executions he)
  · cases he

def intrude (text : String) : ServerEvent :=
  .line text.toList ⟨2, "ws".toList⟩ fun _ => Clocks.still 0

def oneAuthenticates : List ServerEvent :=
  [intrude "SET a 1", send "AUTH secret", send "SET b 2", intrude "GET b", intrude "MULTI"]

theorem distinctIds_oneAuthenticates : DistinctIds oneAuthenticates := by
  have hconnection : ∀ text connection clocks, .line text connection clocks ∈ oneAuthenticates →
      connection ∈ [(⟨1, "tcp".toList⟩ : ClientConnection), ⟨2, "ws".toList⟩] := by
    intro text connection clocks h
    simp only [oneAuthenticates, intrude, send, List.mem_cons, ServerEvent.line.injEq,
      List.not_mem_nil, or_false] at h
    rcases h with ⟨-, rfl, -⟩ | ⟨-, rfl, -⟩ | ⟨-, rfl, -⟩ | ⟨-, rfl, -⟩ | ⟨-, rfl, -⟩ <;> decide
  have hids : ∀ c ∈ [(⟨1, "tcp".toList⟩ : ClientConnection), ⟨2, "ws".toList⟩],
      ∀ c' ∈ [(⟨1, "tcp".toList⟩ : ClientConnection), ⟨2, "ws".toList⟩], c.id = c'.id → c = c' := by
    decide
  intro text c clocks text' c' clocks' h h'
  exact hids c (hconnection text c clocks h) c' (hconnection text' c' clocks' h')

theorem admission_oneAuthenticates :
    (main (CommandHandler.create (InMemoryStore.create 2 (Nat.le_succ 1)) none none none
      (some "secret".toList) []) "aof".toList .no Fs.empty).run
        [send "AUTH secret", send "SET b 2"] =
    (main (CommandHandler.create (InMemoryStore.create 2 (Nat.le_succ 1)) none none none
      (some "secret".toList) []) "aof".toList .no Fs.empty).run oneAuthenticates :=
  ((admission (InMemoryStore.create 2 (Nat.le_succ 1)) none none (some "secret".toList) []
    "aof".toList .no Fs.empty oneAuthenticates distinctIds_oneAuthenticates).2 rfl).1

end Server

end MiniStore
