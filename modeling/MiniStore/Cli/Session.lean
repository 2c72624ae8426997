import MiniStore.Cli.Client
import MiniStore.Lib.Trace
import MiniStore.Server.PushRouting
import MiniStore.Server.Sessions
import MiniStore.Server.TcpServer

/-!
# A session of the CLI

The client, the server, the lines on their way to the server and the text on its way back.
The client sends when it likes; the server takes the lines in order, and other clients come
in between; the text arrives in any pieces.

The client tells no reply from another, so it depends on one reply a command. SUBSCRIBE and
UNSUBSCRIBE are answered by pushes only; as long as none of the client is executed, every
promise gets the answer to its own command (`replies_matched`).
-/

namespace MiniStore

open InMemoryStore Text ReplyParser CommandHandler Trace

structure Session where
  server : Server
  connection : ClientConnection
  client : Client
  /-- Lines that the server has not taken, each with its promise. -/
  toServer : List (Nat × Str)
  toClient : Str
  /-- What has been answered so far, each with the promise of its command. -/
  answers : List (Nat × Str)

inductive ClientEvent where
  | send (commandLine : Str)
  /-- The server takes the next line. -/
  | serve (clocks : Nat → Clocks)
  /-- Something else happens to the server. -/
  | other (e : ServerEvent)
  /-- The next `n` characters arrive. -/
  | deliver (n : Nat)

namespace Session

def connect (server : Server) (connection : ClientConnection) : Session :=
  ⟨server, connection, Client.create, [], [], []⟩

/-- What PUBLISH has written to the connection from one state of the handler to the next. -/
def messages (connection : ClientConnection) (h h' : CommandHandler AofWriter) : Str :=
  ((h'.delivered.drop h.delivered.length).filter fun d => d.1 = connection).flatMap Prod.snd

/-- What is written after a line has been handled; an exception is answered as well. -/
def answerText : Option Str → Str
  | some reply => reply
  | none => TcpServer.internalServerError

/-- Not a line or the end of this connection. -/
def foreign (s : Session) : ServerEvent → Bool
  | .line _ connection _ | .close connection => connection ≠ s.connection
  | _ => true

def next (s : Session) : ClientEvent → Session
  | .send commandLine =>
    match s.client.send commandLine with
    | (client, text) => { s with
        client := client
        toServer := s.toServer ++
          (TcpServer.handled (lfLines text).1).map fun line => (s.client.sent, line) }
  | .serve clocks =>
    match s.toServer with
    | [] => s
    | (id, line) :: rest =>
      if s.server.listening then
        let answer := answerText (s.server.handler.handleLine line s.connection clocks).2
        let server := s.server.next (.line line s.connection clocks)
        { s with
          server := server
          toServer := rest
          toClient := s.toClient ++
            (messages s.connection s.server.handler server.handler ++ answer)
          answers := s.answers ++ [(id, answer)] }
      else s
  | .other e =>
    if s.foreign e then
      { s with
        server := s.server.next e
        toClient := s.toClient ++
          messages s.connection s.server.handler (s.server.next e).handler }
    else s
  | .deliver n =>
    { s with client := s.client.onData (s.toClient.take n), toClient := s.toClient.drop n }

/-- The reply is the data of the call that makes the text. -/
def Answers (text : Str) (reply : ParsedReply) : Prop :=
  ∃ call : ReplyCall, call.text = text ∧ sent call = reply

/-- Every promise that has been resolved was resolved once, with the one answer to its own
command, and once all lines are taken and all text has arrived, every promise has been. -/
structure Matched (s : Session) : Prop where
  own : ∀ id reply, (id, reply) ∈ s.client.resolved →
    ∃ text, (id, text) ∈ s.answers ∧ Answers text reply
  single : (s.answers.map Prod.fst).Nodup
  once : (s.client.resolved.map Prod.fst).Nodup
  all : s.toServer = [] → s.toClient = [] →
    ∀ id < s.client.sent, id ∈ s.client.resolved.map Prod.fst
  alive : s.client.crashed = false

/-- The words that pushes begin with, and the mark of a nil. -/
def Reserved (x : Str) : Prop := PushWord x ∨ x = "(nil)".toList

instance : DecidablePred Reserved := fun _ => inferInstanceAs (Decidable (_ ∨ _))

/-- One line is sent, which is not blank; no transaction is run, and no reserved word is
stored when the server takes a line. -/
def InDomain (s : Session) : ClientEvent → Prop
  | .send commandLine => '\n' ∉ commandLine ∧ commandLine ≠ []
  | .serve _ => ∀ id line rest, s.toServer = (id, line) :: rest →
    (∀ items, (s.server.handler.route line s.connection).2 ≠ .queue items) ∧
      ∀ x, s.server.handler.store.Stores x → ¬ Reserved x
  | _ => True

/-- The line that the server takes makes it execute no SUBSCRIBE or UNSUBSCRIBE. -/
def Unsubscribing (s : Session) : ClientEvent → Prop
  | .serve _ => ∀ id line rest, s.toServer = (id, line) :: rest →
    ∀ item ∈ s.server.handler.executed line s.connection,
      isSubscriptionCommand item.command = false
  | _ => True

/-! ## What arrives -/

theorem event_line {c : ReplyCall} (h : c.lines.length = 1) :
    ∃ r, event c = .reply r ∧ Answers c.text r := by
  cases c with
  | value v =>
    by_cases hv : v = "(nil)".toList
    · exact ⟨.bulk none, by rw [event, unmark, if_pos hv], .nil, by rw [hv]; rfl, rfl⟩
    · exact ⟨.bulk (some v), by rw [event, unmark, if_neg hv], .value v, rfl, rfl⟩
  | array items =>
    have hnil : items = [] := by
      rw [ReplyCall.lines, List.length_cons, List.length_map] at h
      exact List.length_eq_zero_iff.mp (by omega)
    subst hnil
    exact ⟨.array [], rfl, .array [], rfl, rfl⟩
  | ok message => exact ⟨_, rfl, .ok message, rfl, rfl⟩
  | nil => exact ⟨_, rfl, .nil, rfl, rfl⟩
  | integer n => exact ⟨_, rfl, .integer n, rfl, rfl⟩
  | error message => exact ⟨_, rfl, .error message, rfl, rfl⟩
  | wrongType => exact ⟨_, rfl, .wrongType, rfl, rfl⟩

theorem event_array {items : List Str} (h : ∀ x ∈ items, ¬ Reserved x) :
    event (.array items) = .reply (.array (items.map some)) := by
  have hmap : items.map unmark = items.map some := List.map_congr_left fun x hx => by
    rw [unmark, if_neg fun e => h x hx (.inr e)]
  rw [event, hmap]
  cases items with
  | nil => rfl
  | cons x items => exact if_neg fun hw => h x List.mem_cons_self (.inl hw)

section

variable {h : CommandHandler AofWriter} (H : h.Quotable) {line : Str}
  {connection : ClientConnection}
  (hq : ∀ items, (h.route line connection).2 ≠ .queue items)
  (hr : ∀ x, h.store.Stores x → ¬ Reserved x)
  (hn : ∀ item ∈ h.executed line connection, isSubscriptionCommand item.command = false)

include H hq hr hn

/-- The answer to a line is one call, which the parser makes a reply of. -/
theorem answer_call (clocks : Nat → Clocks) : ∃ (call : ReplyCall) (r : ParsedReply),
    answerText (h.handleLine line connection clocks).2 = call.text ∧ call.Sendable ∧
      event call = .reply r ∧ Answers call.text r := by
  have hline : ∀ {call : ReplyCall}, call.Sendable → call.lines.length = 1 →
      ∀ {text : Str}, text = call.text → ∃ (call : ReplyCall) (r : ParsedReply),
        text = call.text ∧ call.Sendable ∧ event call = .reply r ∧ Answers call.text r := by
    intro call hs hone text htext
    obtain ⟨r, he, ha⟩ := event_line hone
    exact ⟨call, r, htext, hs, he, ha⟩
  have H1 := Server.quotable_route H line connection
  have hstore := (h.route_data line connection).1
  cases hroute : (h.route line connection).2 with
  | queue items => exact absurd hroute (hq items)
  | answered made =>
    obtain ⟨call, rfl, hs, hone⟩ := isCall_route hroute
    rw [handleLine_answered hroute]
    exact hline hs (hone.mpr rfl) rfl
  | direct c =>
    have hsub : isSubscriptionCommand c = false := hn ⟨line, c⟩ (by
      rw [executed, hroute]
      exact List.mem_singleton.mpr rfl)
    rw [handleLine_direct hroute]
    cases he : ((h.route line connection).1.executeCommand c line connection (clocks 0)).2 with
    | none =>
      have hs : (ReplyCall.error "internal server error".toList).Sendable :=
        forall_mem_of_all (by decide)
      exact hline hs rfl rfl
    | some reply =>
      obtain ⟨call, rfl, hs, rfl | ⟨-, hone⟩⟩ :=
        executeCommand_answer H1.store hsub line connection (clocks 0) he
      · have hall := stores_listed H1.store.lockstep (clocks 0 0) c
        rw [hstore] at hall ⊢
        rw [hstore] at hs
        exact ⟨_, _, rfl, hs, event_array fun x hx => hr x (hall x hx), _, rfl, rfl⟩
      · exact hline hs hone rfl

end

/-- Messages are pushes, whatever happens to the server. -/
theorem messages_move {h h' : CommandHandler AofWriter} (hm : Server.Move h h') (hq : h.Parsed) :
    Server.Pushed h h' := by
  cases hm with
  | line text connection clocks => exact Server.handleLine_messages hq text connection clocks
  | save clocks => exact .of_eq (Server.startSave_clients h clocks).delivered
  | sweep | saved | log | close => exact .of_eq rfl

theorem messages_next {server : Server} (H : server.handler.Quotable) (e : ServerEvent) :
    (server.next e).handler.Quotable ∧ Server.Pushed server.handler (server.next e).handler := by
  refine Server.next_rule (P := fun h => h.Quotable ∧ Server.Pushed server.handler h) ?_
    ⟨H, .of_eq rfl⟩ e
  rintro h h' hm ⟨H, hpushed⟩
  exact ⟨Server.quotable_move hm H, hpushed.trans (messages_move hm H.parsed)⟩

theorem append_messages : ∀ {sent : List (ClientConnection × Str)},
    (∀ d ∈ sent, EmittedAsPush [] d.2) → ∃ events,
      fresh.append (sent.flatMap Prod.snd) = (fresh, events) ∧ Client.Sound events ∧
        Client.repliesOf events = []
  | [], _ => ⟨[], pump_none rfl, fun _ h => absurd h List.not_mem_nil, rfl⟩
  | d :: sent, h => by
    obtain ⟨⟨-, e, he, items, rfl⟩, hrest⟩ := List.forall_mem_cons.mp h
    obtain ⟨events, hevents, hs, hr⟩ := append_messages hrest
    refine ⟨.push (.array items) :: events, ?_, ?_, hr⟩
    · rw [List.flatMap_cons, append_append, he, hevents]
      rfl
    · exact List.forall_mem_cons.mpr ⟨nofun, hs⟩

/-- The server makes one line of what is sent. -/
theorem handled_commandLine {commandLine : Str} (hlf : '\n' ∉ commandLine)
    (hne : commandLine ≠ []) :
    TcpServer.handled (lfLines (commandLine ++ Reply.crlf)).1 = [commandLine] := by
  have hline : '\n' ∉ commandLine ++ ['\r'] := by simpa using hlf
  have hsplit : commandLine ++ Reply.crlf = commandLine ++ ['\r'] ++ '\n' :: [] := by
    rw [List.append_assoc]
    rfl
  have hstrip : TcpServer.stripCr (commandLine ++ ['\r']) = commandLine := by
    rw [TcpServer.stripCr, List.getLast?_concat, if_pos rfl, List.dropLast_concat]
  rw [hsplit, lfLines_line hline]
  simp [TcpServer.handled, lfLines, hstrip, List.length_pos_iff.mpr hne]

/-! ## The invariant -/

/-- The text on its way completes what the client has read, to one reply an answer. -/
structure Paired (s : Session) : Prop where
  quotable : s.server.handler.Quotable
  promises : s.client.resolved.map Prod.fst ++ s.client.pendingResolvers =
    List.range s.client.sent
  commands : s.answers.map Prod.fst ++ s.toServer.map Prod.fst = List.range s.client.sent
  alive : s.client.crashed = false
  settled : s.client.parser.append [] = (s.client.parser, [])
  read : ∃ events, s.client.parser.append s.toClient = (fresh, events) ∧ Client.Sound events ∧
    List.Forall₂ (fun answer reply => Answers answer.2 reply) s.answers
      (s.client.resolved.map Prod.snd ++ Client.repliesOf events)

theorem eq_range_of_append {l l' : List Nat} {n : Nat} (h : l ++ l' = List.range n) :
    l = List.range l.length := by
  have htake := congrArg (List.take l.length) h
  rwa [List.take_left, List.take_range, Nat.min_eq_left] at htake
  have hlen := congrArg List.length h
  rw [List.length_append, List.length_range] at hlen
  omega

theorem Paired.matched {s : Session} (h : s.Paired) : s.Matched := by
  have hresolved := eq_range_of_append h.promises
  have hanswers := eq_range_of_append h.commands
  rw [List.length_map] at hresolved hanswers
  obtain ⟨events, hevents, hs, hread⟩ := h.read
  obtain ⟨hlen, hall⟩ := List.forall₂_iff_get.mp hread
  rw [List.length_append, List.length_map] at hlen
  refine ⟨fun id reply hm => ?_, hanswers ▸ List.nodup_range, hresolved ▸ List.nodup_range, ?_,
    h.alive⟩
  · obtain ⟨k, hk, he⟩ := List.getElem_of_mem hm
    have hka : k < s.answers.length := by omega
    -- the promises and the answers are numbered alike
    have hid : id = k := by
      have hget := congrArg (·[k]?) hresolved
      simpa [hk, he] using hget
    have hida : s.answers[k].1 = k := by
      have hget := congrArg (·[k]?) hanswers
      simpa [hka] using hget
    have hanswer := hall k hka (by rw [List.length_append, List.length_map]; omega)
    simp only [List.get_eq_getElem, List.getElem_append_left, List.length_map, hk, List.getElem_map,
      he] at hanswer
    refine ⟨s.answers[k].2, ?_, hanswer⟩
    have hmem := List.getElem_mem hka
    rwa [show s.answers[k] = (id, s.answers[k].2) from Prod.ext (hida.trans hid.symm) rfl] at hmem
  · intro hto hfrom id hid
    rw [hfrom, h.settled] at hevents
    obtain ⟨-, rfl⟩ := Prod.mk.inj hevents
    have hcommands := congrArg List.length h.commands
    rw [hto, List.map_nil, List.append_nil, List.length_map, List.length_range] at hcommands
    rw [hresolved, List.mem_range]
    simp only [Client.repliesOf, List.filterMap_nil, List.length_nil] at hlen
    omega

theorem paired_connect {server : Server} (H : server.handler.Quotable)
    (connection : ClientConnection) : (connect server connection).Paired :=
  ⟨H, rfl, rfl, rfl, pump_none rfl, [], pump_none rfl, fun _ h => absurd h List.not_mem_nil, .nil⟩

section

variable {s : Session} (h : s.Paired)

include h

theorem Paired.send {commandLine : Str} (hd : '\n' ∉ commandLine ∧ commandLine ≠ []) :
    (s.next (.send commandLine)).Paired := by
  have hlines := handled_commandLine hd.1 hd.2
  have hnext : s.next (.send commandLine) = { s with
      client := { s.client with
        pendingResolvers := s.client.pendingResolvers ++ [s.client.sent]
        sent := s.client.sent + 1 }
      toServer := s.toServer ++ [(s.client.sent, commandLine)] } := by
    simp only [next, Client.send, hlines, List.map_cons, List.map_nil]
  rw [hnext]
  refine ⟨h.quotable, ?_, ?_, h.alive, h.settled, h.read⟩
  · rw [List.range_succ, ← h.promises, List.append_assoc]
  · rw [List.range_succ, ← h.commands, List.map_append, List.append_assoc]
    rfl

theorem Paired.hears {e : ServerEvent} (toClient : Str)
    (hm : toClient = s.toClient ++
      messages s.connection s.server.handler (s.server.next e).handler) :
    (s.server.next e).handler.Quotable ∧ ∃ events,
      s.client.parser.append toClient = (fresh, events) ∧ Client.Sound events ∧
      List.Forall₂ (fun answer reply => Answers answer.2 reply) s.answers
        (s.client.resolved.map Prod.snd ++ Client.repliesOf events) := by
  obtain ⟨events, hevents, hs, hread⟩ := h.read
  obtain ⟨hq, sent, hsent, hpush⟩ := messages_next h.quotable e
  have hmine : messages s.connection s.server.handler (s.server.next e).handler =
      (sent.filter fun d => d.1 = s.connection).flatMap Prod.snd := by
    rw [Session.messages, hsent, List.drop_left]
  obtain ⟨pushes, hpushes, hsound, hreplies⟩ :=
    append_messages fun d hd => hpush d (List.mem_filter.mp hd).1
  refine ⟨hq, events ++ pushes, ?_, fun e he => ?_, ?_⟩
  · rw [hm, hmine, append_append, hevents, hpushes]
  · exact (List.mem_append.mp he).elim (hs e) (hsound e)
  · rw [Client.repliesOf_append, hreplies, List.append_nil]
    exact hread

theorem Paired.other (e : ServerEvent) : (s.next (.other e)).Paired := by
  simp only [next]
  split
  · obtain ⟨hq, hread⟩ := h.hears (e := e) _ rfl
    exact ⟨hq, h.promises, h.commands, h.alive, h.settled, hread⟩
  · exact h

theorem Paired.serve {clocks : Nat → Clocks} (hd : s.InDomain (.serve clocks))
    (hu : s.Unsubscribing (.serve clocks)) : (s.next (.serve clocks)).Paired := by
  simp only [next]
  split
  · exact h
  · next id line rest hto =>
    split
    · obtain ⟨hq, hr⟩ := hd id line rest hto
      obtain ⟨call, r, htext, hs, he, ha⟩ :=
        answer_call h.quotable hq hr (hu id line rest hto) clocks
      obtain ⟨hquotable, events, hevents, hsound, hread⟩ :=
        h.hears (e := .line line s.connection clocks) _ rfl
      have happend := append_text hs
      rw [he] at happend
      refine ⟨hquotable, h.promises, ?_, h.alive, h.settled, events ++ [.reply r], ?_, ?_, ?_⟩
      · rw [← h.commands, hto, List.map_append, List.append_assoc]
        rfl
      · rw [htext, ← List.append_assoc, append_append, hevents, happend]
      · exact fun e he => (List.mem_append.mp he).elim (hsound e) fun he => by
          rw [List.mem_singleton.mp he]
          exact nofun
      · have hlast : List.Forall₂ (fun answer reply => Answers answer.2 reply)
            (s.answers ++ [(id, call.text)])
            (s.client.resolved.map Prod.snd ++ Client.repliesOf events ++ [r]) :=
          List.rel_append hread (.cons ha .nil)
        rw [List.append_assoc] at hlast
        rw [Client.repliesOf_append, htext]
        exact hlast
    · exact h

theorem Paired.deliver (n : Nat) : (s.next (.deliver n)).Paired := by
  obtain ⟨events, hevents, hsound, hread⟩ := h.read
  have hsettled := append_append s.client.parser (s.toClient.take n) []
  rw [← List.take_append_drop n s.toClient, append_append] at hevents
  rw [List.append_nil] at hsettled
  have honData : s.client.onData (s.toClient.take n) =
      (s.client.parser.append (s.toClient.take n)).2.foldl Client.onEvent
        { s.client with parser := (s.client.parser.append (s.toClient.take n)).1 } := rfl
  generalize s.client.parser.append (s.toClient.take n) = chunk at hevents hsettled honData
  obtain ⟨parser, arrived⟩ := chunk
  obtain ⟨hfresh, rfl⟩ := Prod.mk.inj hevents
  -- no more replies have arrived than promises are waiting
  have hle : (Client.repliesOf arrived).length ≤ s.client.pendingResolvers.length := by
    have hlen := hread.length_eq
    have hpromises := congrArg List.length h.promises
    have hcommands := congrArg List.length h.commands
    simp only [Client.repliesOf_append, List.length_append, List.length_map, List.length_range]
      at hlen hpromises hcommands
    omega
  obtain ⟨hparser, hsent, hcrashed, hpending, hresolved⟩ := Client.onEvents_spec arrived
    (fun e he => hsound e (List.mem_append_left _ he))
    (c := { s.client with parser := parser }) hle
  have hfirst : (s.client.pendingResolvers.take (Client.repliesOf arrived).length).length ≤
      (Client.repliesOf arrived).length := List.length_take_le ..
  have hsecond : (Client.repliesOf arrived).length ≤
      (s.client.pendingResolvers.take (Client.repliesOf arrived).length).length := by
    rw [List.length_take_of_le hle]
  simp only [next, honData]
  dsimp only at hparser hsent hcrashed hpending hresolved
  refine ⟨h.quotable, ?_, ?_, hcrashed.trans h.alive, ?_, _, ?_,
    fun e he => hsound e (List.mem_append_right _ he), ?_⟩
  · rw [hresolved, hpending, hsent, List.map_append, List.map_fst_zip hfirst, List.append_assoc,
      List.take_append_drop]
    exact h.promises
  · rw [hsent]
    exact h.commands
  · obtain ⟨hp, he⟩ := Prod.mk.inj hsettled
    rw [hparser]
    exact Prod.ext hp.symm (List.self_eq_append_right.mp he)
  · rw [hparser]
    exact Prod.ext hfresh rfl
  · rw [hresolved, List.map_append, List.map_snd_zip hsecond, List.append_assoc,
      ← Client.repliesOf_append]
    exact hread

end

theorem Paired.next {s : Session} (h : s.Paired) {e : ClientEvent} (hd : s.InDomain e)
    (hu : s.Unsubscribing e) : (s.next e).Paired := by
  cases e with
  | send commandLine => exact h.send hd
  | serve clocks => exact h.serve hd hu
  | other e => exact h.other e
  | deliver n => exact h.deliver n

/-- For every state of the process in which a client connects, and every order in which lines
are sent, taken and answered, other events happen to the server and text arrives, in any
pieces: as long as no SUBSCRIBE or UNSUBSCRIBE of the client is executed, every promise is
resolved once, with the answer to its own command. -/
theorem replies_matched (h0 : CommandHandler AofWriter) (H0 : h0.Quotable) (path : Str)
    (fsyncPolicy : FsyncPolicy) (fs : Fs) (before : List ServerEvent)
    (connection : ClientConnection) (events : List ClientEvent)
    (hd : Along next InDomain (connect ((Server.main h0 path fsyncPolicy fs).run before) connection)
      events)
    (hu : Along next Unsubscribing
      (connect ((Server.main h0 path fsyncPolicy fs).run before) connection) events)
    {past : List ClientEvent} (hp : past <+: events) :
    (past.foldl next
      (connect ((Server.main h0 path fsyncPolicy fs).run before) connection)).Matched := by
  have H : ((Server.main h0 path fsyncPolicy fs).run before).handler.Quotable :=
    Server.run_rule Server.quotable_move before ⟨H0.store, H0.parsed, H0.manager⟩
  exact (Along.reached (J := Paired) (fun h hstep => h.next hstep.1 hstep.2)
    (paired_connect H connection) (hd.and hu) hp).matched

def dialled : Session := connect Server.booted ⟨1, "tcp".toList⟩

def served : ClientEvent := .serve fun _ => Clocks.still 0

theorem stores_booted (x : Str) : ¬ Server.booted.handler.store.Stores x := by
  rintro ⟨k, c, hc, -⟩
  cases hc

/-- Two commands at once; another client writes and publishes in between, and the answers arrive
in pieces. -/
def pipelined : List ClientEvent :=
  [.send "SET a 1".toList, .send "LRANGE l 0 -1".toList,
    .other (.line "RPUSH l x y".toList ⟨2, "web".toList⟩ fun _ => Clocks.still 0), served,
    .other (.line "PUBLISH c hi".toList ⟨2, "web".toList⟩ fun _ => Clocks.still 0), .deliver 3,
    served, .deliver 7, .deliver 40]

def texts : StoredValue → List Str
  | .string v => [v]
  | .list l => l
  | .hash _ => ["(nil)".toList]

theorem not_reserved_of {s : InMemoryStore}
    (h : ∀ k ∈ s.values.keys, ∀ c ∈ s.cell k, ∀ x ∈ k :: texts c.value, ¬ Reserved x) :
    ∀ x, s.Stores x → ¬ Reserved x := by
  rintro x ⟨k, c, hc, hx⟩
  have hall := h k (InMemoryStore.mem_keys.mpr (by rw [hc]; exact Option.some_ne_none c)) c hc
  rcases hx with rfl | hx
  · exact hall x List.mem_cons_self
  · obtain ⟨v | l | m, d⟩ := c
    · obtain rfl : x = v := hx
      exact hall x (List.mem_cons_of_mem k (List.mem_singleton.mpr rfl))
    · exact hall x (List.mem_cons_of_mem k hx)
    · exact absurd (.inr rfl) (hall _ (List.mem_cons_of_mem k (List.mem_singleton.mpr rfl)))

theorem replies_matched_pipelined : (pipelined.foldl next dialled).Matched := by
  refine replies_matched Server.vacant (Server.quotable_fresh 2 (Nat.le_succ 1) _ none [])
    "aof".toList .no Fs.empty [] ⟨1, "tcp".toList⟩ pipelined
    ⟨(by decide : '\n' ∉ "SET a 1".toList ∧ "SET a 1".toList ≠ []),
      (by decide : '\n' ∉ "LRANGE l 0 -1".toList ∧ "LRANGE l 0 -1".toList ≠ []), trivial, ?_,
      trivial, trivial, ?_, trivial, trivial, trivial⟩
    ⟨trivial, trivial, trivial, ?_, trivial, trivial, ?_, trivial, trivial, trivial⟩
    (List.prefix_refl _)
  · rintro id line rest e
    cases e
    exact ⟨fun items h => (by cases h), not_reserved_of (by decide)⟩
  · rintro id line rest e
    cases e
    exact ⟨fun items h => (by cases h), not_reserved_of (by decide)⟩
  · rintro id line rest e
    cases e
    decide
  · rintro id line rest e
    cases e
    decide

/-- A subscription is confirmed, and its promise goes on waiting. -/
theorem replies_matched_subscribe :
    Along next InDomain dialled [.send "SUBSCRIBE c".toList, served, .deliver 40] ∧
      ¬ ([.send "SUBSCRIBE c".toList, served, .deliver 40].foldl next dialled).Matched := by
  constructor
  · refine ⟨(by decide : '\n' ∉ "SUBSCRIBE c".toList ∧ "SUBSCRIBE c".toList ≠ []), ?_, trivial,
      trivial⟩
    rintro id line rest e
    cases e
    exact ⟨fun items h => (by cases h), fun x hx => absurd hx (stores_booted x)⟩
  · intro h
    have htext : ([.send "SUBSCRIBE c".toList, served].foldl next dialled).toClient =
        (ReplyCall.array ["subscribe".toList, "c".toList, "1".toList]).text := by decide
    have hs : (ReplyCall.array ["subscribe".toList, "c".toList, "1".toList]).Sendable := by
      show ∀ i ∈ ["subscribe".toList, "c".toList, "1".toList], Unbroken i
      simp only [List.forall_mem_cons]
      exact ⟨forall_mem_of_all (by decide), forall_mem_of_all (by decide),
        forall_mem_of_all (by decide), fun _ h => absurd h List.not_mem_nil⟩
    have hdata : ([.send "SUBSCRIBE c".toList, served, .deliver 40].foldl next dialled).client =
        ⟨fresh, [0], 1, [], [.array [some "subscribe".toList, some "c".toList, some "1".toList]],
          false⟩ := by
      have hclient : ([.send "SUBSCRIBE c".toList, served].foldl next dialled).client =
          ⟨fresh, [0], 1, [], [], false⟩ := by decide
      have htake : (ReplyCall.array ["subscribe".toList, "c".toList, "1".toList]).text.take 40 =
          (ReplyCall.array ["subscribe".toList, "c".toList, "1".toList]).text := by decide
      show ([.send "SUBSCRIBE c".toList, served].foldl next dialled).client.onData
        (([.send "SUBSCRIBE c".toList, served].foldl next dialled).toClient.take 40) = _
      rw [hclient, htext, htake, Client.onData, append_text hs]
      rfl
    have hpending := h.all (by decide) (by decide) 0 (by rw [hdata]; exact Nat.one_pos)
    rw [hdata] at hpending
    exact List.not_mem_nil hpending

end Session

end MiniStore
