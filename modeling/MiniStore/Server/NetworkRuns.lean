import MiniStore.Server.Network

/-!
# Runs of the network

To the process a run of the network is a run of its own, in which each chunk and message is the
lines that it brings (`server_run`). A TCP connection's lines are those of its own chunks,
whatever the others send in between (`lines_alone`).
-/

namespace MiniStore

open InMemoryStore Text FixedWindow PubSubManager

namespace Network

theorem listening_of_next {st : Server} {e : ServerEvent} (h : (st.next e).listening = true) :
    st.listening = true := by
  cases hl : st.listening with
  | true => rfl
  | false =>
    have hphase : st.phase = .closing ∨ st.phase = .exited := by
      unfold Server.listening at hl
      split at hl
      · next hp => exact .inl hp
      · next hp => exact .inr hp
      · cases hl
    rcases hphase with hp | hp
    · have hphase : (st.next e).phase = .closing ∨ (st.next e).phase = .exited := by
        rw [Server.next, if_neg (by rw [hp]; exact ShutdownPhase.noConfusion)]
        cases e with
        | line text connection clocks =>
          rw [Server.step, hl]
          exact .inl hp
        | sweep | tick | signal | statsStopped =>
          simp only [Server.step, hp, reduceCtorEq, if_false, true_or]
        | saveDone | saveFailed =>
          simp only [Server.step, Server.endSave]
          split
          · exact .inl hp
          · split
            · exact .inl hp
            · simp only [hp, reduceCtorEq, if_false, true_or]
        | rewriteSettled | rewriteRejected | close => exact .inl hp
        | serverClosed =>
          simp only [Server.step, hp, if_true, or_true]
      rcases hphase with hp | hp
      · simp only [Server.listening, hp, Bool.false_eq_true] at h
      · simp only [Server.listening, hp, Bool.false_eq_true] at h
    · rw [Server.next, if_pos hp, hl] at h
      cases h

theorem listening_of_run {events : List ServerEvent} : ∀ {st : Server},
    (st.run events).listening = true → st.listening = true := by
  induction events with
  | nil => exact fun h => h
  | cons e events ih => exact fun h => listening_of_next (ih h)

theorem next_server (config : NetworkConfig) (net : Network) (e : NetworkEvent) :
    (net.next config e).server =
      net.server.run (if net.crashed then [] else net.serverEvents config e) := by
  unfold next
  split
  · rfl
  · exact net.step_server config e

theorem server_run (config : NetworkConfig) (events : List NetworkEvent) : ∀ net : Network,
    (net.run config events).server = net.server.run (net.trace config events) := by
  induction events with
  | nil => exact fun _ => rfl
  | cons e events ih =>
    intro net
    rw [trace, Server.run_append, ← next_server]
    exact ih (net.next config e)

theorem up_of_next {config : NetworkConfig} {net : Network} {e : NetworkEvent}
    (h : (net.next config e).up = true) : net.up = true := by
  rw [up, Bool.and_eq_true] at h ⊢
  obtain ⟨hlistening, hcrashed⟩ := h
  rw [next_server] at hlistening
  refine ⟨listening_of_run hlistening, ?_⟩
  rw [next] at hcrashed
  cases hc : net.crashed with
  | false => rfl
  | true =>
    rw [if_pos hc, hc] at hcrashed
    cases hcrashed

theorem up_of_run {config : NetworkConfig} (events : List NetworkEvent) : ∀ {net : Network},
    (net.run config events).up = true → net.up = true := by
  induction events with
  | nil => exact fun h => h
  | cons e events ih => exact fun h => up_of_next (ih h)

/-! ## One connection among others -/

/-- The chunks that come on a connection. -/
def chunkOf (connection : ClientConnection) : NetworkEvent → List Str
  | .data c chunk _ => if c = connection then [chunk] else []
  | _ => []

def chunksOf (connection : ClientConnection) (events : List NetworkEvent) : List Str :=
  events.flatMap (chunkOf connection)

def lineOf (connection : ClientConnection) : ServerEvent → Option Str
  | .line text c _ => if c = connection then some text else none
  | _ => none

def linesOf (connection : ClientConnection) (events : List ServerEvent) : List Str :=
  events.filterMap (lineOf connection)

theorem linesOf_append (connection : ClientConnection) (es es' : List ServerEvent) :
    linesOf connection (es ++ es') = linesOf connection es ++ linesOf connection es' :=
  List.filterMap_append

theorem linesOf_lineEvents (connection : ClientConnection) (clocks : Nat → Nat → Clocks) :
    ∀ (lines : List Str) (i : Nat), linesOf connection (lineEvents connection clocks i lines) = lines
  | [], _ => rfl
  | line :: lines, i => by
    have h : lineOf connection (.line line connection (clocks i)) = some line := if_pos rfl
    rw [lineEvents, linesOf, List.filterMap_cons_some h]
    exact congrArg (line :: ·) (linesOf_lineEvents connection clocks lines (i + 1))

theorem linesOf_lineEvents_ne {c connection : ClientConnection} (hc : connection ≠ c)
    (clocks : Nat → Nat → Clocks) : ∀ (lines : List Str) (i : Nat),
      linesOf c (lineEvents connection clocks i lines) = []
  | [], _ => rfl
  | line :: lines, i => by
    have h : lineOf c (.line line connection (clocks i)) = none := if_neg hc
    rw [lineEvents, linesOf, List.filterMap_cons_none h]
    exact linesOf_lineEvents_ne hc clocks lines (i + 1)

theorem linesOf_serverEvents {config : NetworkConfig} {net : Network} {e : NetworkEvent}
    {c : ClientConnection} (hc : e.source ≠ some c) :
    linesOf c (net.serverEvents config e) = [] := by
  have hne : ∀ {connection : ClientConnection}, some connection ≠ some c → connection ≠ c :=
    fun h he => h (congrArg some he)
  cases e with
  | accepted | upgraded | lost => rfl
  | data connection chunk clocks =>
    simp only [serverEvents]
    split
    · exact linesOf_lineEvents_ne (hne hc) clocks _ 0
    · rfl
  | message connection text now clocks =>
    simp only [serverEvents]
    split
    · split
      · exact List.filterMap_cons_none (if_neg (hne hc))
      · rfl
    · rfl
  | closed connection =>
    simp only [serverEvents]
    split <;> rfl
  | own e =>
    simp only [serverEvents]
    split
    · next how =>
      cases e with
      | line => cases how
      | _ => rfl
    · rfl

/-- A TCP connection stands where it would stand with its chunks alone, and has been written
what the process had for it. -/
structure Alone {σ : Type} (c : ClientConnection) (st : Server)
    (n : TcpConnection (σ × List Str)) (past : List ServerEvent) (net : Network) : Prop where
  server : net.server = st.run past
  lines : linesOf c past = n.handler.2
  peer : ∃ written, net.peers c = some ⟨.tcp n.buffer, !n.destroyed, written⟩ ∧
    (n.destroyed = false → written = outputs st past c)

section

variable {σ : Type} (handleLine : LineHandler σ) {config : NetworkConfig} {c : ClientConnection}
  {st : Server} {n : TcpConnection (σ × List Str)} {past : List ServerEvent} {net : Network}

theorem Alone.other (H : Alone c st n past net) {e : NetworkEvent} (hc : e.source ≠ some c)
    (hup : (net.step config e).up = true) :
    Alone c st n (past ++ net.serverEvents config e) (net.step config e) := by
  obtain ⟨written, hpeer, hwritten⟩ := H.peer
  have hpeers := step_other hc hup
  rw [hpeer, Option.map_some] at hpeers
  refine ⟨?_, ?_, ?_⟩
  · rw [step_server, H.server, Server.run_append]
  · rw [linesOf_append, linesOf_serverEvents hc, List.append_nil]
    exact H.lines
  · cases hd : n.destroyed with
    | true =>
      rw [hd] at hpeers
      exact ⟨written, hpeers, fun h => by cases h⟩
    | false =>
      rw [hd] at hpeers
      refine ⟨_, hpeers, fun _ => ?_⟩
      rw [outputs_append, ← H.server, ← hwritten hd]

theorem Alone.data (H : Alone c st n past net) (hd : n.destroyed = false) (chunk : Str)
    (clocks : Nat → Nat → Clocks) :
    Alone c st (TcpServer.onData config.maxLineBytes (TcpServer.noting handleLine) n chunk)
      (past ++ net.serverEvents config (.data c chunk clocks))
      (net.step config (.data c chunk clocks)) := by
  obtain ⟨written, hpeer, hwritten⟩ := H.peer
  obtain ⟨hbuffer, hdestroyed, hlines⟩ :=
    TcpServer.onData_noting handleLine config.maxLineBytes hd chunk
  rw [hd] at hpeer
  have hstep : net.step config (.data c chunk clocks) =
      net.onData config c n.buffer chunk clocks := by
    simp only [step, hpeer, Bool.not_false]
  have hevents : net.serverEvents config (.data c chunk clocks) =
      lineEvents c clocks 0 (TcpServer.chunkLines config.maxLineBytes n.buffer chunk) := by
    simp only [serverEvents, hpeer, Bool.not_false]
  obtain ⟨hserver, -, -, hown⟩ := net.onData_spec c config n.buffer chunk clocks
  rw [hstep, hevents]
  refine ⟨?_, ?_, ?_⟩
  · rw [hserver, H.server, Server.run_append]
  · rw [hlines, linesOf_append, linesOf_lineEvents, H.lines]
  · rw [hown, hpeer, Option.map_some, hbuffer, hdestroyed]
    by_cases ho : units (n.buffer ++ chunk) > config.maxLineBytes
    · rw [if_pos ho, if_pos ho, decide_eq_true ho]
      exact ⟨_, rfl, fun h => by cases h⟩
    · rw [if_neg ho, if_neg ho, decide_eq_false ho]
      refine ⟨_, rfl, fun _ => ?_⟩
      rw [outputs_append, ← H.server, ← hwritten hd]
      rfl

theorem alone_next (H : Alone c st n past net) {e : NetworkEvent}
    (hup : (net.next config e).up = true) (hlost : e ≠ .lost c) (hclosed : e ≠ .closed c) :
    Alone c st (TcpServer.receive config.maxLineBytes (TcpServer.noting handleLine) n (chunkOf c e))
      (past ++ if net.crashed then [] else net.serverEvents config e) (net.next config e) := by
  have hcrashed : net.crashed = false := by
    have h := up_of_next hup
    rw [up, Bool.and_eq_true] at h
    simpa using h.2
  obtain ⟨written, hpeer, -⟩ := H.peer
  have hsame : net.step config e = net → net.serverEvents config e = [] → Alone c st n
      (past ++ net.serverEvents config e) (net.step config e) := by
    intro hs he
    rw [hs, he, List.append_nil]
    exact H
  have hconnect : ∀ transport, net.connect c transport = net := by
    intro transport
    rw [connect, hpeer]
    exact if_neg fun h => Option.some_ne_none _ h.2
  rw [next, hcrashed, if_neg Bool.false_ne_true] at hup
  rw [next, hcrashed, if_neg Bool.false_ne_true, if_neg Bool.false_ne_true]
  by_cases hsource : e.source = some c
  · cases e with
    | accepted connection =>
      obtain rfl := Option.some.inj hsource
      exact hsame (hconnect _) rfl
    | upgraded connection token now =>
      obtain rfl := Option.some.inj hsource
      refine hsame ?_ rfl
      rw [step, hconnect]
      exact ite_self _
    | data connection chunk clocks =>
      obtain rfl := Option.some.inj hsource
      rw [chunkOf, if_pos rfl]
      cases hd : n.destroyed with
      | false => exact H.data handleLine hd chunk clocks
      | true =>
        rw [TcpServer.receive_destroyed _ hd]
        rw [hd] at hpeer
        refine hsame ?_ ?_
        · simp only [step, hpeer, Bool.not_true]
        · simp only [serverEvents, hpeer, Bool.not_true]
    | message connection text now clocks =>
      obtain rfl := Option.some.inj hsource
      refine hsame ?_ ?_
      · simp only [step, hpeer]
      · simp only [serverEvents, hpeer]
    | lost connection => exact absurd (congrArg _ (Option.some.inj hsource)) hlost
    | closed connection => exact absurd (congrArg _ (Option.some.inj hsource)) hclosed
    | own e => cases hsource
  · have hchunk : chunkOf c e = [] := by
      cases e with
      | data connection chunk clocks => exact if_neg fun h => hsource (congrArg some h)
      | _ => rfl
    rw [hchunk]
    exact H.other hsource hup

theorem alone_run (events : List NetworkEvent) : ∀ {n : TcpConnection (σ × List Str)}
    {past : List ServerEvent} {net : Network}, Alone c st n past net →
    (net.run config events).up = true → (∀ e ∈ events, e ≠ .lost c ∧ e ≠ .closed c) →
    Alone c st (TcpServer.receive config.maxLineBytes (TcpServer.noting handleLine) n
        (chunksOf c events)) (past ++ net.trace config events) (net.run config events) := by
  induction events with
  | nil =>
    intro n past net H _ _
    rw [trace, List.append_nil]
    exact H
  | cons e events ih =>
    intro n past net H hup hstays
    obtain ⟨⟨hlost, hclosed⟩, hstays⟩ := List.forall_mem_cons.mp hstays
    have hnext := alone_next handleLine H (up_of_run events hup) hlost hclosed
    have hrun := ih hnext hup hstays
    rw [List.append_assoc, TcpServer.receive, TcpServer.receive, ← List.foldl_append] at hrun
    exact hrun

end

theorem alone_accepted {σ : Type} (s0 : σ) {config : NetworkConfig} {net : Network}
    {c : ClientConnection} (hnew : net.peers c = none)
    (hup : (net.next config (.accepted c)).up = true) :
    Alone c net.server (TcpServer.onConnection (s0, [])) [] (net.next config (.accepted c)) := by
  have h := up_of_next hup
  rw [up, Bool.and_eq_true] at h
  have hstep : net.next config (.accepted c) = net.connect c (.tcp []) :=
    if_neg (by simpa using h.2)
  rw [hstep, connect, if_pos ⟨h.1, hnew⟩]
  exact ⟨rfl, rfl, [], if_pos rfl, fun _ => rfl⟩

/-- For every network and every run of it: from the moment a TCP connection is accepted, and as
long as its socket lasts, the process gets from it the lines that any handler would get from its
chunks on a server of its own, and the socket is destroyed when it would be there. -/
theorem lines_alone {σ : Type} (handleLine : LineHandler σ) (s0 : σ) (config : NetworkConfig)
    (net : Network) (c : ClientConnection) (hnew : net.peers c = none)
    (events : List NetworkEvent) (hstays : ∀ e ∈ events, e ≠ .lost c ∧ e ≠ .closed c)
    (hup : (net.run config (.accepted c :: events)).up = true) :
    let net1 := net.next config (.accepted c)
    let n := TcpServer.receive config.maxLineBytes (TcpServer.noting handleLine)
      (TcpServer.onConnection (s0, [])) (chunksOf c events)
    (net1.run config events).server = net.server.run (net1.trace config events) ∧
      linesOf c (net1.trace config events) = n.handler.2 ∧
      ∃ p, (net1.run config events).peers c = some p ∧ p.writable = !n.destroyed := by
  intro net1 n
  have H := alone_run handleLine events (alone_accepted s0 hnew (up_of_run events hup)) hup hstays
  rw [List.nil_append] at H
  obtain ⟨written, hpeer, -⟩ := H.peer
  exact ⟨H.server, H.lines, _, hpeer, rfl⟩

theorem listening_run {events : List ServerEvent} (hcalm : ∀ e ∈ events, e.isOwn = false) :
    ∀ st : Server, (st.run events).listening = st.listening := by
  induction events with
  | nil => exact fun _ => rfl
  | cons e events ih =>
    intro st
    obtain ⟨he, hcalm⟩ := List.forall_mem_cons.mp hcalm
    refine (ih hcalm (st.next e)).trans ?_
    have hphase : (st.next e).phase = st.phase := by
      unfold Server.next
      split
      · rfl
      · cases e with
        | line text connection clocks =>
          simp only [Server.step]
          split
          · split <;> rfl
          · rfl
        | close connection => rfl
        | _ => cases he
    rw [Server.listening, hphase]
    rfl

def fromTcp : NetworkEvent → Bool
  | .accepted _ | .data .. | .lost _ | .closed _ => true
  | _ => false

/-- TCP clients cannot bring the process down. -/
theorem up_run_of_tcp {config : NetworkConfig} {events : List NetworkEvent}
    (htcp : ∀ e ∈ events, fromTcp e = true) : ∀ net : Network,
    (net.run config events).up = net.up := by
  induction events with
  | nil => exact fun _ => rfl
  | cons e events ih =>
    intro net
    obtain ⟨he, htcp⟩ := List.forall_mem_cons.mp htcp
    refine (ih htcp (net.next config e)).trans ?_
    have hcrashed : (net.next config e).crashed = net.crashed := by
      unfold next
      split
      · rfl
      cases e with
      | accepted connection =>
        simp only [step, connect]
        split <;> rfl
      | data connection chunk clocks =>
        simp only [step]
        split
        · exact (net.onData_spec connection config _ chunk clocks).2.1
        · rfl
      | lost connection => rfl
      | closed connection =>
        simp only [step]
        split <;> rfl
      | _ => cases he
    have hown : ∀ e' ∈ if net.crashed then [] else net.serverEvents config e, e'.isOwn = false := by
      intro e' he'
      split at he'
      · cases he'
      cases e with
      | accepted | lost => cases he'
      | data connection chunk clocks =>
        have hline : ∀ (lines : List Str) (i : Nat),
            ∀ e' ∈ lineEvents connection clocks i lines, e'.isOwn = false := by
          intro lines
          induction lines with
          | nil => exact fun _ _ h => by cases h
          | cons line lines ih =>
            exact fun i => List.forall_mem_cons.mpr ⟨rfl, ih (i + 1)⟩
        simp only [serverEvents] at he'
        split at he'
        · exact hline _ 0 e' he'
        · cases he'
      | closed connection =>
        simp only [serverEvents] at he'
        split at he'
        · cases he'
        · rw [List.mem_singleton.mp he']
          rfl
      | _ => cases he
    rw [up, next_server, listening_run hown, hcrashed]
    rfl

def booted : Network :=
  main Server.vacant.store none none [] "aof".toList .no Fs.empty

def twoClients : List NetworkEvent :=
  [.accepted ⟨2, "b".toList⟩, .data ⟨1, "a".toList⟩ "SET k".toList fun _ _ => Clocks.still 0,
    .data ⟨2, "b".toList⟩ "DEL k\n".toList fun _ _ => Clocks.still 0,
    .data ⟨1, "a".toList⟩ " v\r\n".toList fun _ _ => Clocks.still 0]

theorem lines_alone_twoClients :
    linesOf ⟨1, "a".toList⟩ ((booted.next ⟨64, none⟩ (.accepted ⟨1, "a".toList⟩)).trace ⟨64, none⟩
      twoClients) = ["SET k v".toList] := by
  have hup : (booted.run ⟨64, none⟩ (.accepted ⟨1, "a".toList⟩ :: twoClients)).up = true :=
    (up_run_of_tcp (by unfold twoClients; simp [fromTcp]) booted).trans (by decide)
  have hstays : ∀ e ∈ twoClients, e ≠ .lost ⟨1, "a".toList⟩ ∧ e ≠ .closed ⟨1, "a".toList⟩ := by
    unfold twoClients
    simp
  have hlines := (lines_alone (fun st _ => (st, .nothing)) () ⟨64, none⟩ booted ⟨1, "a".toList⟩ rfl
    twoClients hstays hup).2.1
  obtain ⟨hbuffer, hdestroyed, hfirst⟩ := TcpServer.onData_noting
    (fun (st : Unit) _ => (st, .nothing)) 64 (c := TcpServer.onConnection ((), [])) rfl
    "SET k".toList
  obtain ⟨-, -, hsecond⟩ := TcpServer.onData_noting (fun (st : Unit) _ => (st, .nothing)) 64
    (hdestroyed.trans (by decide)) " v\r\n".toList
  rw [hfirst, hbuffer] at hsecond
  exact hlines.trans (hsecond.trans (by decide))

end Network

end MiniStore
