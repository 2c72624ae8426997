import MiniStore.Lib.FixedWindow
import MiniStore.Server.Admission
import MiniStore.Server.Deliveries
import MiniStore.Server.TcpServer

/-!
# The network

The process with its clients: TCP connections, whose chunks `TcpServer` cuts into lines, and
playground connections, whose messages `StatsServer` lets through at a limited rate. Chunks,
messages, lost and closed connections and the activities of the process itself come in any order
(`NetworkEvent`).

To the process an event of the network is the lines and the closings that it brings
(`step_server`), and what others send reaches a connection as published messages only
(`step_other`).
-/

namespace MiniStore

open InMemoryStore Text FixedWindow PubSubManager

/-- What is written to a client: the answer to something it sent, or a published message. -/
inductive Output where
  | reply (text : Str)
  | push (text : Str)
  deriving DecidableEq

/-- What the two servers keep of a connection in the closures of its handlers. -/
inductive Transport where
  | tcp (buffer : Str)
  | playground (window : Window)
  deriving DecidableEq

/-- A client, as long as its connection has not been closed. It is not `writable` once the socket
has been destroyed, or the WebSocket is not open any more. -/
structure Peer where
  transport : Transport
  writable : Bool
  written : List Output
  deriving DecidableEq

/-- `crashed` is set by an exception that nothing catches. -/
structure Network where
  server : Server
  peers : ClientConnection → Option Peer
  crashed : Bool

/-- The part of the configuration that concerns connections. -/
structure NetworkConfig where
  maxLineBytes : Nat
  dashboardPassword : Option Str

inductive NetworkEvent where
  | accepted (connection : ClientConnection)
  /-- A WebSocket upgrade to `/playground`, with the token of its URL. -/
  | upgraded (connection : ClientConnection) (token : Str) (now : Int)
  | data (connection : ClientConnection) (chunk : Str) (clocks : Nat → Nat → Clocks)
  | message (connection : ClientConnection) (text : Str) (now : Int) (clocks : Nat → Clocks)
  /-- The socket has an error, or the WebSocket begins to close. -/
  | lost (connection : ClientConnection)
  | closed (connection : ClientConnection)
  /-- What the process does of itself. -/
  | own (e : ServerEvent)

/-- Lines and closings come from connections only. -/
def ServerEvent.isOwn : ServerEvent → Bool
  | .line .. | .close _ => false
  | _ => true

def NetworkEvent.source : NetworkEvent → Option ClientConnection
  | .accepted c | .upgraded c _ _ | .data c _ _ | .message c _ _ _ | .lost c | .closed c => some c
  | .own _ => none

namespace Peer

def writeAll (p : Peer) (outputs : List Output) : Peer :=
  if p.writable then { p with written := p.written ++ outputs } else p

def write (p : Peer) (o : Output) : Peer := p.writeAll [o]

def shut (p : Peer) : Peer := { p with writable := false }

end Peer

namespace Network

def modify (net : Network) (connection : ClientConnection) (f : Peer → Peer) : Network :=
  { net with peers := fun c => if c = connection then (net.peers c).map f else net.peers c }

/-- `connection.write`, and the writes of the servers themselves. -/
def write (net : Network) (connection : ClientConnection) (o : Output) : Network :=
  net.modify connection (·.write o)

/-- The servers destroy what is open. -/
def shutAll (net : Network) : Network :=
  { net with peers := fun c => (net.peers c).map Peer.shut }

/-- The writes of PUBLISH. -/
def deliver (net : Network) (sent : List (ClientConnection × Str)) : Network :=
  sent.foldl (fun net d => net.write d.1 (.push d.2)) net

/-- What a line has PUBLISH write. -/
def publishedBy (st : Server) (e : ServerEvent) : List (ClientConnection × Str) :=
  (st.next e).handler.delivered.drop st.handler.delivered.length

def execute (net : Network) (e : ServerEvent) : Network :=
  { net with server := net.server.next e }.deliver (publishedBy net.server e)

/-- What is answered to a line, an exception as `TcpServer` answers it. -/
def replyText (answer : ClientConnection × Option Str) : Output :=
  .reply (answer.2.getD TcpServer.internalServerError)

/-- An exception leaves `handleLine`. -/
def throws (st : Server) (e : ServerEvent) : Bool := (st.answersOf e).any (·.2.isNone)

/-- A line is executed and answered. -/
def handleLine (net : Network) (connection : ClientConnection) (line : Str)
    (clocks : Nat → Clocks) : Network :=
  let e := ServerEvent.line line connection clocks
  (net.server.answersOf e).foldl (fun net a => net.write a.1 (replyText a)) (net.execute e)

/-- The line handler of a TCP connection, with the number of lines it has handled. What it
returns is written by the time it returns, as `connection` is the same socket. -/
def lineHandler (connection : ClientConnection) (clocks : Nat → Nat → Clocks) :
    LineHandler (Network × Nat) := fun (net, i) line =>
  ((net.handleLine connection line (clocks i), i + 1), .nothing)

/-- The data handler of a TCP connection. -/
def onData (config : NetworkConfig) (net : Network) (connection : ClientConnection)
    (buffer chunk : Str) (clocks : Nat → Nat → Clocks) : Network :=
  let c := TcpServer.onData config.maxLineBytes (lineHandler connection clocks)
    ⟨buffer, false, [], (net, 0)⟩ chunk
  let net := c.handler.1.modify connection fun p => { p with transport := .tcp c.buffer }
  if c.destroyed then (net.write connection (.reply c.written)).modify connection Peer.shut else net

def rateLimitExceeded : Str := "-ERR rate limit exceeded\r\n".toList

def commandTooLong : Str := "-ERR command too long\r\n".toList

/-- The message handler of a playground connection. Nothing catches what `handleLine` throws. -/
def onMessage (net : Network) (connection : ClientConnection) (window : Window) (text : Str)
    (now : Int) (clocks : Nat → Clocks) : Network :=
  match window.ask 20 1000 now with
  | (window, admitted) =>
    let net := net.modify connection fun p => { p with transport := .playground window }
    if !admitted then net.write connection (.reply rateLimitExceeded)
    else
      let line := trim text
      if units line > 1024 then net.write connection (.reply commandTooLong)
      else if line.length = 0 then net
      else if throws net.server (.line line connection clocks) then
        { net.execute (.line line connection clocks) with crashed := true }.shutAll
      else net.handleLine connection line clocks

def connect (net : Network) (connection : ClientConnection) (transport : Transport) : Network :=
  if net.server.listening ∧ net.peers connection = none then
    { net with peers := fun c =>
        if c = connection then some ⟨transport, true, []⟩ else net.peers c }
  else net

def step (config : NetworkConfig) (net : Network) : NetworkEvent → Network
  | .accepted connection => net.connect connection (.tcp [])
  | .upgraded connection token now =>
    if config.dashboardPassword ≠ none ∧ some token ≠ config.dashboardPassword then net
    else net.connect connection (.playground ⟨0, now⟩)
  | .data connection chunk clocks =>
    match net.peers connection with
    | some ⟨.tcp buffer, true, _⟩ => net.onData config connection buffer chunk clocks
    | _ => net
  | .message connection text now clocks =>
    match net.peers connection with
    | some ⟨.playground window, _, _⟩ => net.onMessage connection window text now clocks
    | _ => net
  | .lost connection => net.modify connection Peer.shut
  | .closed connection =>
    match net.peers connection with
    | none => net
    | some _ => { net with
        server := net.server.next (.close connection)
        peers := fun c => if c = connection then none else net.peers c }
  | .own e =>
    if e.isOwn then
      let net := { net with server := net.server.next e }
      if net.server.listening then net else net.shutAll
    else net

def next (config : NetworkConfig) (net : Network) (e : NetworkEvent) : Network :=
  if net.crashed then net else net.step config e

def run (config : NetworkConfig) (net : Network) (events : List NetworkEvent) : Network :=
  events.foldl (next config) net

/-- The process as `main` starts it, before anybody connects. -/
def main (store : InMemoryStore) (pm : Option PersistenceManager) (requirepass : Option Str)
    (disabledCommands : List Str) (path : Str) (fsyncPolicy : FsyncPolicy) (fs : Fs) : Network :=
  ⟨Server.main (CommandHandler.create store pm none (some PubSubManager.empty) requirepass
    disabledCommands) path fsyncPolicy fs, fun _ => none, false⟩

/-- The process runs and has not closed its servers. -/
def up (net : Network) : Bool := net.server.listening && !net.crashed

end Network

/-! ## One chunk -/

namespace TcpServer

/-- The lines that a chunk brings to the handler. -/
def chunkLines (maxLineBytes : Nat) (buffer chunk : Str) : List Str :=
  if units (buffer ++ chunk) > maxLineBytes then [] else handled (lfLines (buffer ++ chunk)).1

section

variable {σ : Type} {handleLine : LineHandler σ}
  (hquiet : ∀ st line, (handleLine st line).2 = .nothing)

include hquiet

theorem takeLine_quiet (c : TcpConnection σ) (line : Str) : takeLine handleLine c line =
    { c with handler := (handled [line]).foldl (fun st line => (handleLine st line).1) c.handler } := by
  unfold takeLine
  dsimp only
  by_cases h : (stripCr line).length = 0
  · have hh : handled [line] = [] := by simp [handled, List.length_eq_zero_iff.mp h]
    rw [if_pos h, hh]
    rfl
  · have hh : handled [line] = [stripCr line] := by simpa [handled] using Nat.pos_of_ne_zero h
    have hq := hquiet c.handler (stripCr line)
    rw [if_neg h, hh, List.foldl_cons, List.foldl_nil]
    generalize handleLine c.handler (stripCr line) = r at hq ⊢
    rcases r with ⟨st, outcome⟩
    obtain rfl : outcome = .nothing := hq
    rfl

theorem takeLines_quiet : ∀ (b : Str) (c : TcpConnection σ), c.buffer = b →
    takeLines handleLine c = { c with
      buffer := (lfLines b).2
      handler := (handled (lfLines b).1).foldl (fun st line => (handleLine st line).1) c.handler } := by
  refine lf_induction (fun b h c hb => ?_) fun line rest h ih c hb => ?_
  · rw [takeLines_none (by rw [hb]; exact splitLf_none.mpr h), lfLines_of_not_mem h, ← hb]
    rfl
  · rw [takeLines_some (by rw [hb]; exact splitLf_some.mpr ⟨rfl, h⟩), takeLine_quiet hquiet,
      ih _ rfl, lfLines_line h]
    dsimp only
    rw [handled_cons line (lfLines rest).1, List.foldl_append]

theorem onData_quiet (maxLineBytes : Nat) {c : TcpConnection σ} (hc : c.destroyed = false)
    (chunk : Str) : onData maxLineBytes handleLine c chunk =
      if units (c.buffer ++ chunk) > maxLineBytes then { c with
        buffer := c.buffer ++ chunk
        written := c.written ++ lineTooLong
        destroyed := true }
      else { c with
        buffer := (lfLines (c.buffer ++ chunk)).2
        handler := (chunkLines maxLineBytes c.buffer chunk).foldl
          (fun st line => (handleLine st line).1) c.handler } := by
  rw [onData, if_neg (by rw [hc]; exact Bool.false_ne_true), chunkLines]
  split
  · rfl
  · exact takeLines_quiet hquiet _ _ rfl

end

/-- The data handler, whatever the handler of lines does: what is noted, and what is left. -/
theorem onData_noting {σ : Type} (handleLine : LineHandler σ) (maxLineBytes : Nat)
    {c : TcpConnection (σ × List Str)} (hc : c.destroyed = false) (chunk : Str) :
    let c' := onData maxLineBytes (noting handleLine) c chunk
    c'.buffer = (if units (c.buffer ++ chunk) > maxLineBytes then c.buffer ++ chunk
      else (lfLines (c.buffer ++ chunk)).2) ∧
    c'.destroyed = decide (units (c.buffer ++ chunk) > maxLineBytes) ∧
    c'.handler.2 = c.handler.2 ++ chunkLines maxLineBytes c.buffer chunk := by
  rw [onData, if_neg (by rw [hc]; exact Bool.false_ne_true), chunkLines]
  split
  · next ho => exact ⟨rfl, (decide_eq_true ho).symm, (List.append_nil _).symm⟩
  · next ho =>
    obtain ⟨hbuffer, hdestroyed, hlines⟩ := takeLines_noting handleLine _
      { c with buffer := c.buffer ++ chunk } rfl
    exact ⟨hbuffer, hdestroyed.trans (hc.trans (decide_eq_false ho).symm), hlines⟩

end TcpServer

namespace Network

/-! ## The lines of a run -/

def lineEvents (connection : ClientConnection) (clocks : Nat → Nat → Clocks) :
    Nat → List Str → List ServerEvent
  | _, [] => []
  | i, line :: lines =>
    .line line connection (clocks i) :: lineEvents connection clocks (i + 1) lines

/-- What an event is to the process. -/
def serverEvents (config : NetworkConfig) (net : Network) : NetworkEvent → List ServerEvent
  | .accepted _ | .upgraded .. | .lost _ => []
  | .data connection chunk clocks =>
    match net.peers connection with
    | some ⟨.tcp buffer, true, _⟩ =>
      lineEvents connection clocks 0 (TcpServer.chunkLines config.maxLineBytes buffer chunk)
    | _ => []
  | .message connection text now clocks =>
    match net.peers connection with
    | some ⟨.playground window, _, _⟩ =>
      if (window.ask 20 1000 now).2 ∧ units (trim text) ≤ 1024 ∧ (trim text).length ≠ 0 then
        [.line (trim text) connection clocks]
      else []
    | _ => []
  | .closed connection => if net.peers connection = none then [] else [.close connection]
  | .own e => if e.isOwn then [e] else []

def trace (config : NetworkConfig) : Network → List NetworkEvent → List ServerEvent
  | _, [] => []
  | net, e :: es =>
    (if net.crashed then [] else net.serverEvents config e) ++ trace config (net.next config e) es

/-- What an event of the process writes to a connection. -/
def outputsOf (st : Server) (e : ServerEvent) (connection : ClientConnection) : List Output :=
  (sentTo connection (publishedBy st e)).map .push ++
    ((st.answersOf e).filter fun a => a.1 = connection).map replyText

def outputs : Server → List ServerEvent → ClientConnection → List Output
  | _, [], _ => []
  | st, e :: es, connection => outputsOf st e connection ++ outputs (st.next e) es connection

theorem outputs_append (connection : ClientConnection) (es' : List ServerEvent) :
    ∀ (es : List ServerEvent) (st : Server), outputs st (es ++ es') connection =
      outputs st es connection ++ outputs (st.run es) es' connection
  | [], _ => rfl
  | e :: es, st => by
    rw [List.cons_append, outputs, outputs_append connection es' es (st.next e), outputs,
      List.append_assoc]
    rfl

theorem writeAll_nil (p : Peer) : p.writeAll [] = p := by
  unfold Peer.writeAll
  split
  · rw [List.append_nil]
  · rfl

theorem writeAll_append (p : Peer) (os os' : List Output) :
    (p.writeAll os).writeAll os' = p.writeAll (os ++ os') := by
  rcases p with ⟨transport, _ | _, written⟩
  · rfl
  · simp only [Peer.writeAll, if_true, List.append_assoc]

/-- Writes to connections in turn: each gets its own. -/
theorem writes_spec {α : Type} (text : α → Output) (key : α → ClientConnection) :
    ∀ (l : List α) (net : Network),
      let net' := l.foldl (fun net a => net.write (key a) (text a)) net
      net'.server = net.server ∧ net'.crashed = net.crashed ∧ ∀ c, net'.peers c =
        (net.peers c).map (·.writeAll ((l.filter fun a => key a = c).map text))
  | [], net => by
    refine ⟨rfl, rfl, fun c => ?_⟩
    cases h : net.peers c with
    | none => exact h
    | some p => exact h.trans (congrArg some (writeAll_nil p).symm)
  | a :: l, net => by
    obtain ⟨hserver, hcrashed, hpeers⟩ := writes_spec text key l (net.write (key a) (text a))
    refine ⟨hserver, hcrashed, fun c => (hpeers c).trans ?_⟩
    show (if c = key a then (net.peers c).map (·.write (text a)) else net.peers c).map _ = _
    by_cases hc : key a = c
    · rw [if_pos hc.symm, Option.map_map, List.filter_cons_of_pos (by simpa using hc)]
      cases net.peers c with
      | none => rfl
      | some p => exact congrArg some (writeAll_append p _ _)
    · rw [if_neg (Ne.symm hc), List.filter_cons_of_neg (by simpa using hc)]

section

variable (net : Network) (connection : ClientConnection)

theorem execute_spec (e : ServerEvent) :
    (net.execute e).server = net.server.next e ∧ (net.execute e).crashed = net.crashed ∧
      ∀ c, (net.execute e).peers c =
        (net.peers c).map (·.writeAll ((sentTo c (publishedBy net.server e)).map .push)) := by
  obtain ⟨hserver, hcrashed, hpeers⟩ := writes_spec (fun d : ClientConnection × Str => .push d.2)
    Prod.fst (publishedBy net.server e) { net with server := net.server.next e }
  refine ⟨hserver, hcrashed, fun c => (hpeers c).trans ?_⟩
  rw [sentTo, List.map_map]
  rfl

theorem handleLine_spec (line : Str) (clocks : Nat → Clocks) :
    let e := ServerEvent.line line connection clocks
    (net.handleLine connection line clocks).server = net.server.next e ∧
      (net.handleLine connection line clocks).crashed = net.crashed ∧
      ∀ c, (net.handleLine connection line clocks).peers c =
        (net.peers c).map (·.writeAll (outputsOf net.server e c)) := by
  intro e
  obtain ⟨hserver, hcrashed, hpeers⟩ := net.execute_spec e
  obtain ⟨hserver', hcrashed', hpeers'⟩ :=
    writes_spec replyText Prod.fst (net.server.answersOf e) (net.execute e)
  refine ⟨hserver'.trans hserver, hcrashed'.trans hcrashed, fun c => (hpeers' c).trans ?_⟩
  rw [hpeers c, Option.map_map]
  cases net.peers c with
  | none => rfl
  | some p => exact congrArg some (writeAll_append p _ _)

theorem handleLines_spec (clocks : Nat → Nat → Clocks) : ∀ (lines : List Str) (net : Network)
    (i : Nat),
    let es := lineEvents connection clocks i lines
    let net' := (lines.foldl (fun st line => (lineHandler connection clocks st line).1) (net, i)).1
    net'.server = net.server.run es ∧ net'.crashed = net.crashed ∧
      ∀ c, net'.peers c = (net.peers c).map (·.writeAll (outputs net.server es c))
  | [], net, _ => by
    refine ⟨rfl, rfl, fun c => ?_⟩
    cases h : net.peers c with
    | none => exact h
    | some p => exact h.trans (congrArg some (writeAll_nil p).symm)
  | line :: lines, net, i => by
    obtain ⟨hserver, hcrashed, hpeers⟩ := net.handleLine_spec connection line (clocks i)
    obtain ⟨hserver', hcrashed', hpeers'⟩ :=
      handleLines_spec clocks lines (net.handleLine connection line (clocks i)) (i + 1)
    refine ⟨hserver'.trans (by rw [hserver]; rfl), hcrashed'.trans hcrashed, fun c =>
      (hpeers' c).trans ?_⟩
    rw [hpeers c, hserver, Option.map_map]
    cases net.peers c with
    | none => rfl
    | some p => exact congrArg some (writeAll_append p _ _)

theorem onData_spec (config : NetworkConfig) (buffer chunk : Str) (clocks : Nat → Nat → Clocks) :
    let es := lineEvents connection clocks 0
      (TcpServer.chunkLines config.maxLineBytes buffer chunk)
    let net' := net.onData config connection buffer chunk clocks
    net'.server = net.server.run es ∧ net'.crashed = net.crashed ∧
      (∀ c, c ≠ connection →
        net'.peers c = (net.peers c).map (·.writeAll (outputs net.server es c))) ∧
      net'.peers connection = (net.peers connection).map fun p =>
        if units (buffer ++ chunk) > config.maxLineBytes then
          ({ p with transport := .tcp (buffer ++ chunk) }.write (.reply TcpServer.lineTooLong)).shut
        else { p.writeAll (outputs net.server es connection) with
          transport := .tcp (lfLines (buffer ++ chunk)).2 } := by
  have hquiet : ∀ (st : Network × Nat) line,
      (lineHandler connection clocks st line).2 = .nothing := fun _ _ => rfl
  have hdata := TcpServer.onData_quiet hquiet config.maxLineBytes
    (c := ⟨buffer, false, [], (net, 0)⟩) rfl chunk
  by_cases ho : units (buffer ++ chunk) > config.maxLineBytes
  · rw [if_pos ho] at hdata
    simp only [onData, hdata, TcpServer.chunkLines, if_pos ho, if_true]
    refine ⟨rfl, rfl, fun c hc => ?_, ?_⟩
    · show (if c = connection then _ else if c = connection then _ else
        if c = connection then _ else net.peers c) = _
      rw [if_neg hc, if_neg hc, if_neg hc]
      cases net.peers c with
      | none => rfl
      | some p => exact congrArg some (writeAll_nil p).symm
    · show (if connection = connection then Option.map _ (if connection = connection then
        Option.map _ (if connection = connection then _ else _) else _) else _) = _
      rw [if_pos rfl, if_pos rfl, if_pos rfl, Option.map_map, Option.map_map]
      rfl
  · obtain ⟨hserver, hcrashed, hpeers⟩ := handleLines_spec connection clocks
      (TcpServer.chunkLines config.maxLineBytes buffer chunk) net 0
    rw [if_neg ho] at hdata
    simp only [onData, hdata, if_neg ho, Bool.false_eq_true, if_false]
    refine ⟨hserver, hcrashed, fun c hc => ?_, ?_⟩
    · show (if c = connection then _ else _) = _
      rw [if_neg hc]
      exact hpeers c
    · show (if connection = connection then _ else _) = _
      rw [if_pos rfl, hpeers connection, Option.map_map]
      rfl

/-- Only lines make the process write to connections. -/
theorem outputs_quiet (st : Server) {e : ServerEvent}
    (he : ∀ text connection clocks, e ≠ .line text connection clocks) (c : ClientConnection) :
    outputs st [e] c = [] := by
  have hd : (st.next e).handler.delivered = st.handler.delivered := by
    rcases Server.next_clients st e with hsame | ⟨connection, -, h⟩ |
      ⟨text, connection, clocks, h, -⟩
    · exact hsame.delivered
    · rw [h]
    · exact absurd h (he text connection clocks)
  have hanswers : st.answersOf e = [] := by
    cases e with
    | line text connection clocks => exact absurd rfl (he text connection clocks)
    | _ => rfl
  rw [outputs, outputs, outputsOf, publishedBy, hd, List.drop_length, hanswers]
  rfl

theorem onMessage_spec {window : Window} {text : Str} {now : Int} {clocks : Nat → Clocks} :
    let es := if (window.ask 20 1000 now).2 ∧ units (trim text) ≤ 1024 ∧ (trim text).length ≠ 0
      then [ServerEvent.line (trim text) connection clocks] else []
    let net' := net.onMessage connection window text now clocks
    net'.server = net.server.run es ∧ (net'.up = true → ∀ c, c ≠ connection →
      net'.peers c = (net.peers c).map (·.writeAll (outputs net.server es c))) := by
  have hsame : ∀ (f : Peer → Peer) c, c ≠ connection →
      (net.modify connection f).peers c = (net.peers c).map (·.writeAll []) := by
    intro f c hc
    show (if c = connection then _ else net.peers c) = _
    rw [if_neg hc]
    cases net.peers c with
    | none => rfl
    | some p => exact congrArg some (writeAll_nil p).symm
  have hrefused : ∀ (f : Peer → Peer) (o : Output) c, c ≠ connection →
      ((net.modify connection f).write connection o).peers c =
        (net.peers c).map (·.writeAll []) := by
    intro f o c hc
    refine Eq.trans (if_neg hc) (hsame f c hc)
  unfold onMessage
  generalize window.ask 20 1000 now = admitted
  rcases admitted with ⟨w, _ | _⟩
  · simp only [Bool.not_false, if_true, Bool.false_eq_true, false_and, if_false]
    exact ⟨rfl, fun _ => hrefused _ _⟩
  simp only [Bool.not_true, Bool.false_eq_true, if_false, true_and]
  by_cases hlong : units (trim text) > 1024
  · simp only [if_pos hlong, Nat.not_le.mpr hlong, false_and, if_false]
    exact ⟨rfl, fun _ => hrefused _ _⟩
  simp only [if_neg hlong, Nat.not_lt.mp hlong, true_and]
  by_cases hblank : (trim text).length = 0
  · simp only [hblank, ne_eq, not_true_eq_false, if_true, if_false]
    exact ⟨rfl, fun _ => hsame _⟩
  simp only [hblank, ne_eq, not_false_eq_true, if_true, if_false]
  by_cases hthrows : throws net.server (.line (trim text) connection clocks) = true
  · rw [if_pos (by exact hthrows)]
    obtain ⟨hserver, -⟩ := execute_spec (net.modify connection fun p =>
      { p with transport := .playground w }) (.line (trim text) connection clocks)
    refine ⟨hserver, fun hup => ?_⟩
    have hfalse : (_ && false) = true := hup
    rw [Bool.and_false] at hfalse
    cases hfalse
  · rw [if_neg (by exact hthrows)]
    obtain ⟨hserver, -, hpeers⟩ := handleLine_spec (net.modify connection fun p =>
      { p with transport := .playground w }) connection (trim text) clocks
    refine ⟨hserver, fun _ c hc => (hpeers c).trans ?_⟩
    rw [hsame _ c hc, Option.map_map]
    cases net.peers c with
    | none => rfl
    | some p =>
      rw [outputs, outputs, List.append_nil]
      exact congrArg some (writeAll_append p _ _)

end

/-- To the process an event is the lines and closings that it brings. -/
theorem step_server (config : NetworkConfig) (net : Network) (e : NetworkEvent) :
    (net.step config e).server = net.server.run (net.serverEvents config e) := by
  have hconnect : ∀ connection transport,
      (net.connect connection transport).server = net.server := by
    intro connection transport
    unfold connect
    split <;> rfl
  cases e with
  | accepted connection => exact hconnect connection _
  | upgraded connection token now =>
    simp only [step]
    split
    · rfl
    · exact hconnect connection _
  | data connection chunk clocks =>
    simp only [step, serverEvents]
    split
    · exact (net.onData_spec connection config _ chunk clocks).1
    · rfl
  | message connection text now clocks =>
    simp only [step, serverEvents]
    split
    · exact (net.onMessage_spec connection).1
    · rfl
  | lost connection => rfl
  | closed connection =>
    simp only [step, serverEvents]
    cases net.peers connection with
    | none => rfl
    | some p => rfl
  | own e =>
    simp only [step, serverEvents]
    split
    · split <;> rfl
    · rfl

theorem map_writeAll_nil (p : Option Peer) : p.map (·.writeAll []) = p := by
  cases p with
  | none => rfl
  | some p => exact congrArg some (writeAll_nil p)

/-- What the others send reaches a connection as published messages only. -/
theorem step_other {config : NetworkConfig} {net : Network} {e : NetworkEvent}
    {c : ClientConnection} (hc : e.source ≠ some c) (hup : (net.step config e).up = true) :
    (net.step config e).peers c =
      (net.peers c).map (·.writeAll (outputs net.server (net.serverEvents config e) c)) := by
  have hne : ∀ {connection : ClientConnection}, some connection ≠ some c → c ≠ connection :=
    fun h he => h (congrArg some he.symm)
  have hconnect : ∀ {connection} transport, c ≠ connection →
      (net.connect connection transport).peers c = (net.peers c).map (·.writeAll []) := by
    intro connection transport hc
    rw [map_writeAll_nil, connect]
    split
    · exact if_neg hc
    · rfl
  cases e with
  | accepted connection => exact hconnect _ (hne hc)
  | upgraded connection token now =>
    simp only [step, serverEvents]
    split
    · exact (map_writeAll_nil _).symm
    · exact hconnect _ (hne hc)
  | data connection chunk clocks =>
    simp only [step, serverEvents]
    split
    · exact (net.onData_spec connection config _ chunk clocks).2.2.1 c (hne hc)
    · exact (map_writeAll_nil _).symm
  | message connection text now clocks =>
    simp only [step, serverEvents] at hup ⊢
    split
    · next hp =>
      rw [hp] at hup
      exact (net.onMessage_spec connection).2 hup c (hne hc)
    · exact (map_writeAll_nil _).symm
  | lost connection => exact (if_neg (hne hc)).trans (map_writeAll_nil _).symm
  | closed connection =>
    simp only [step, serverEvents]
    cases net.peers connection with
    | none => exact (map_writeAll_nil _).symm
    | some p =>
      rw [if_neg (Option.some_ne_none p), outputs_quiet net.server (fun _ _ _ h => by cases h),
        map_writeAll_nil]
      exact if_neg (hne hc)
  | own e =>
    simp only [step, serverEvents] at hup ⊢
    by_cases how : e.isOwn = true
    · simp only [if_pos how] at hup ⊢
      rw [outputs_quiet net.server (by rintro _ _ _ rfl; cases how), map_writeAll_nil]
      by_cases hl : (net.server.next e).listening = true
      · rw [if_pos hl]
      · rw [if_neg hl] at hup
        rw [up, Bool.and_eq_true] at hup
        exact absurd hup.1 hl
    · simp only [if_neg how]
      exact (map_writeAll_nil _).symm

end Network

end MiniStore
