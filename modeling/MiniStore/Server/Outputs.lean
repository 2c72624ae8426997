import MiniStore.Server.NetworkRuns
import MiniStore.Server.PushRouting
import MiniStore.Server.Shutdown

/-!
# What a client reads

The text that is written to a TCP connection is the replies to its own lines and the messages
published on its channels, and nothing else; each of the two comes complete and in order
(`outputs_exact`). This is so while the log is only used through a descriptor that is open
(`OwnLog`): a closed one may have become the descriptor of a socket.
-/

namespace MiniStore

open InMemoryStore Text PubSubManager CommandHandler

def Output.replied : Output → Option Str
  | .reply text => some text
  | .push _ => none

def Output.pushed : Output → Option Str
  | .reply _ => none
  | .push text => some text

/-- The descriptor is one that the writer has closed. -/
def AofWriter.stale (w : AofWriter) : Bool :=
  w.fd.any fun fd => !w.fs.fds[fd]?.any Option.isSome

theorem AofWriter.write_of_not_stale {w : AofWriter} (h : w.stale = false) (line : Str) :
    (w.write line).2 = true := by
  cases hfd : w.fd with
  | none => rw [AofWriter.write, hfd]
  | some fd =>
    obtain ⟨i, hopen⟩ : ∃ i, w.fs.fds[fd]? = some (some i) := by
      simp only [stale, hfd, Option.any_some, Bool.not_eq_false'] at h
      rcases hi : w.fs.fds[fd]? with _ | _ | i
      · simp [hi] at h
      · simp [hi] at h
      · exact ⟨i, rfl⟩
    simp only [AofWriter.write, hfd, Fs.writeFd, hopen, Fs.syncFd]
    split <;> rfl

/-! ## Every line is answered -/

namespace Server

/-- What is logged goes through a descriptor that is open, and only such a one is closed. -/
structure OwnLog (st : Server) (e : ServerEvent) : Prop where
  logged : ∀ x ∈ st.executionsOf e, x.logged = true →
    ∀ w ∈ x.handler.aofWriter, w.stale = false
  settled : e = .rewriteSettled → ∀ w ∈ st.handler.aofWriter, w.stale = true →
    w.rewriting = some .rename
  signal : (∃ clocks, e = .signal clocks) → ∀ w ∈ st.handler.aofWriter, w.stale = false

theorem answered_execute {x : Execution} (hL : x.handler.store.Lockstep)
    (hx : x.logged = true → ∀ w ∈ x.handler.aofWriter, w.stale = false)
    (connection : ClientConnection) :
    (x.handler.executeCommand x.item.command x.item.line connection x.clocks).2.isSome = true := by
  by_cases hmut : x.item.command.mutates = true
  · obtain ⟨key, f, hm⟩ : ∃ key f, x.item.command.mutation (x.clocks 0) = some (key, f) :=
      Command.mutates_iff.mp hmut
    obtain ⟨reply, he⟩ := executeCommand_mutation hL hm x.item.line connection
    have hlogged := Execution.logged_eq hm
    rw [he, hL.perform_snd, ← hlogged, CommandHandler.finish]
    cases hl : x.logged with
    | false => rfl
    | true =>
      cases hw : x.handler.aofWriter with
      | none => simp only [if_true, writeAof, Option.isSome_some]
      | some w =>
        have hok := AofWriter.write_of_not_stale (hx hl w hw) x.item.line
        have hwrite : AofSink.write w x.item.line = ((w.write x.item.line).1, true) := by
          rw [← hok]
          rfl
        simp only [if_true, writeAof, hwrite, Option.isSome_some]
  · have hread : x.item.command.mutates = false := Bool.eq_false_of_not_eq_true hmut
    by_cases hrewrite : x.item.command = .bgrewriteaof
    · rw [hrewrite]
      simp only [executeCommand]
      split <;> rfl
    · exact (executeCommand_read hL hread hrewrite x.item.line connection x.clocks).answered

theorem answered_queue (connection : ClientConnection) (clocks : Nat → Clocks) :
    ∀ (items : List QueuedCommand) (i : Nat) {h : CommandHandler AofWriter}, h.store.Lockstep →
      (∀ x ∈ executions connection clocks h items i, x.logged = true →
        ∀ w ∈ x.handler.aofWriter, w.stale = false) →
      (h.executeQueue connection clocks items i).2.isSome = true
  | [], _, _, _, _ => rfl
  | item :: items, i, h, hL, hx => by
    rw [executions, List.forall_mem_cons] at hx
    have hsome := answered_execute hL hx.1 connection
    have hL1 := lockstep_execute hL item.command item.line connection (clocks i)
    have hrest := hx.2
    dsimp only at hsome
    rw [executeQueue]
    generalize h.executeCommand item.command item.line connection (clocks i) = executed
      at hsome hL1 hrest ⊢
    rcases executed with ⟨h', _ | reply⟩
    · cases hsome
    · rw [Option.isSome_map]
      exact answered_queue connection clocks items (i + 1) hL1 hrest

/-- A line that does not use a closed descriptor is answered by its commands. -/
theorem answered_next {st : Server} (hL : st.handler.store.Lockstep) {e : ServerEvent}
    (ho : st.OwnLog e) : ∀ a ∈ st.answersOf e, a.2.isSome = true := by
  cases e with
  | line text connection clocks =>
    have hlogged := ho.logged
    cases hl : st.listening with
    | false =>
      simp only [answersOf, hl, if_neg Bool.false_ne_true]
      exact fun a ha => absurd ha List.not_mem_nil
    | true =>
      obtain ⟨hstore, -, -, -⟩ := st.handler.route_data text connection
      rw [executionsOf, if_pos hl] at hlogged
      intro a ha
      rw [answersOf, if_pos hl, List.mem_singleton] at ha
      subst ha
      dsimp only
      rw [(st.handler.handleLine_executed text connection clocks).2]
      exact answered_queue connection clocks _ 0 (by rw [hstore]; exact hL) hlogged
  | _ => exact fun a ha => absurd ha List.not_mem_nil

theorem answered_run : ∀ (events : List ServerEvent) {st : Server}, Sane st.handler →
    Trace.Along next OwnLog st events → ∀ a ∈ st.answers events, a.2.isSome = true
  | [], _, _, _ => fun a ha => absurd ha List.not_mem_nil
  | e :: events, _, H, ho => by
    rw [answers, List.forall_mem_append]
    exact ⟨answered_next H.lockstep ho.1, answered_run events (next_rule Sane.move H e) ho.2⟩

end Server

/-! ## What is written -/

namespace Server

theorem delivered_grows {st : Server} (hp : st.handler.Parsed) (e : ServerEvent) :
    ∃ sent, (st.next e).handler.delivered = st.handler.delivered ++ sent := by
  rcases next_clients st e with hsame | ⟨connection, -, he⟩ | ⟨text, connection, clocks, -, -, he⟩
  · exact ⟨[], by rw [hsame.delivered, List.append_nil]⟩
  · exact ⟨[], by rw [he, List.append_nil]⟩
  · obtain ⟨sent, hsent, -⟩ := handleLine_messages hp text connection clocks
    exact ⟨sent, by rw [he, hsent]⟩

end Server

namespace Network

theorem replied_outputs (c : ClientConnection) : ∀ (es : List ServerEvent) (st : Server),
    (outputs st es c).filterMap Output.replied = ((st.answers es).filter fun a => a.1 = c).map
      fun a => a.2.getD TcpServer.internalServerError
  | [], _ => rfl
  | e :: es, st => by
    have hpush : ∀ texts : List Str, (texts.map Output.push).filterMap Output.replied = [] := by
      intro texts
      rw [List.filterMap_map]
      exact List.filterMap_eq_nil_iff.mpr fun _ _ => rfl
    rw [outputs, outputsOf, List.filterMap_append, List.filterMap_append, hpush, List.nil_append,
      replied_outputs c es (st.next e), Server.answers, List.filter_append, List.map_append,
      List.filterMap_map]
    show List.filterMap (some ∘ fun a : ClientConnection × Option Str =>
      a.2.getD TcpServer.internalServerError) _ ++ _ = _
    rw [List.filterMap_eq_map]

/-- Where every line is answered no reply is missing. -/
theorem replied_of_answered (c : ClientConnection) {es : List ServerEvent} {st : Server}
    (h : ∀ a ∈ st.answers es, a.2.isSome = true) :
    ((outputs st es c).filterMap Output.replied).map some =
      ((st.answers es).filter fun a => a.1 = c).map (·.2) := by
  rw [replied_outputs, List.map_map]
  refine List.map_congr_left fun a ha => ?_
  obtain ⟨reply, hreply⟩ := Option.isSome_iff_exists.mp (h a (List.mem_filter.mp ha).1)
  show some (a.2.getD TcpServer.internalServerError) = a.2
  rw [hreply]
  rfl

theorem pushed_outputs (c : ClientConnection) : ∀ (es : List ServerEvent) {st : Server},
    st.handler.Parsed → sentTo c (st.run es).handler.delivered =
      sentTo c st.handler.delivered ++ (outputs st es c).filterMap Output.pushed
  | [], _, _ => (List.append_nil _).symm
  | e :: es, st, hp => by
    obtain ⟨sent, hsent⟩ := Server.delivered_grows hp e
    have hpublished : publishedBy st e = sent := by rw [publishedBy, hsent, List.drop_left]
    have hreply : ∀ answers : List (ClientConnection × Option Str),
        (answers.map replyText).filterMap Output.pushed = [] := by
      intro answers
      rw [List.filterMap_map]
      exact List.filterMap_eq_nil_iff.mpr fun _ _ => rfl
    have hpush : ∀ texts : List Str, (texts.map Output.push).filterMap Output.pushed = texts := by
      intro texts
      rw [List.filterMap_map]
      exact List.filterMap_some
    have hrest := pushed_outputs c es (Server.parsed_next hp e)
    rw [hsent, sentTo_append, List.append_assoc] at hrest
    rw [outputs, outputsOf, hpublished, List.filterMap_append, List.filterMap_append, hreply, hpush,
      List.append_nil]
    exact hrest

theorem trace_append (config : NetworkConfig) (after : List NetworkEvent) :
    ∀ (before : List NetworkEvent) (net : Network), net.trace config (before ++ after) =
      net.trace config before ++ (net.run config before).trace config after
  | [], _ => rfl
  | e :: before, net => by
    rw [List.cons_append, trace, trace, trace_append config after before, List.append_assoc]
    rfl

/-- For every process as `main` starts it and every run of the network in which the log is only
used through a descriptor that is open: what has been written to a TCP connection whose socket is
still there are the replies to its own lines, complete and in order, and the messages published on
its channels while it was subscribed to them, each once and in order. -/
theorem outputs_exact (store : InMemoryStore) (hL : store.Lockstep)
    (pm : Option PersistenceManager) (requirepass : Option Str) (disabledCommands : List Str)
    (path : Str) (fsyncPolicy : FsyncPolicy) (fs : Fs) (hfs : fs.WF) (config : NetworkConfig)
    (before after : List NetworkEvent) (c : ClientConnection) :
    let net0 := main store pm requirepass disabledCommands path fsyncPolicy fs
    let net := net0.run config before
    let net1 := net.next config (.accepted c)
    Trace.Along Server.next Server.OwnLog net0.server
      (net0.trace config (before ++ .accepted c :: after)) →
    net.peers c = none → (∀ e ∈ after, e ≠ .lost c ∧ e ≠ .closed c) →
    (net1.run config after).up = true →
    ∀ p, (net1.run config after).peers c = some p → p.writable = true →
      (p.written.filterMap Output.replied).map some =
          ((net.server.answers (net1.trace config after)).filter fun a => a.1 = c).map (·.2) ∧
        p.written.filterMap Output.pushed =
          received c (net0.server.calls (net0.trace config before))
            (net.server.calls (net1.trace config after)) := by
  intro net0 net net1 hown hnew hstays hup p hp hw
  -- what it has been written is what the process had for it
  have H := alone_run (fun (st : Unit) _ => (st, .nothing)) after
    (alone_accepted () hnew (up_of_run after hup)) hup hstays
  rw [List.nil_append] at H
  obtain ⟨written, hpeer, hwritten⟩ := H.peer
  rw [hpeer] at hp
  obtain rfl := Option.some.inj hp
  have hdestroyed := (Bool.not_eq_true' _).mp hw
  rw [hwritten hdestroyed]
  have hserver : net.server = net0.server.run (net0.trace config before) :=
    server_run config before net0
  constructor
  · -- nothing throws, so no reply is missing
    have hsane : Server.Sane net0.server.handler :=
      ⟨hL, _, rfl, AofWriter.aligned_start hfs path fsyncPolicy⟩
    have htrace : net.trace config (.accepted c :: after) = net1.trace config after := by
      rw [trace]
      split <;> rfl
    rw [trace_append, htrace, Trace.along_append] at hown
    have hall := Server.answered_run _ (Server.run_rule Server.Sane.move _ hsane) hown.2
    rw [← hserver] at hall
    exact replied_of_answered c hall
  · -- the deliveries before and after
    have hparsed0 : net0.server.handler.Parsed := fun id queue hq => by cases hq
    have hparsed : net.server.handler.Parsed := hserver ▸ Server.parsed_run _ hparsed0
    have H0 : Server.Delivered [] net0.server.handler := ⟨rfl, fun _ => rfl⟩
    have hbefore := Server.delivered_run (net0.trace config before) hparsed0 H0
    rw [List.nil_append, ← hserver] at hbefore
    have hafter := Server.delivered_run (net1.trace config after) hparsed hbefore
    have hpushed := pushed_outputs c (net1.trace config after) hparsed
    rw [hafter.sent c, hbefore.sent c, received_append] at hpushed
    exact (List.append_cancel_left hpushed).symm

theorem ownLog_line {st : Server} {text : Str} {connection : ClientConnection}
    {clocks : Nat → Clocks} (h : ∀ x ∈ st.executionsOf (.line text connection clocks),
      x.logged = true → ∀ w ∈ x.handler.aofWriter, w.stale = false) :
    st.OwnLog (.line text connection clocks) :=
  ⟨h, fun he => (by cases he), fun ⟨_, he⟩ => by cases he⟩

def toItself : NetworkEvent :=
  .data ⟨1, "a".toList⟩ "SET k v\nMULTI\nSUBSCRIBE ch\nPUBLISH ch hi\nEXEC\n".toList
    fun _ _ => Clocks.still 0

theorem outputs_exact_toItself :
    ∃ p, ((booted.next ⟨64, none⟩ (.accepted ⟨1, "a".toList⟩)).run ⟨64, none⟩ [toItself]).peers
        ⟨1, "a".toList⟩ = some p ∧
      (p.written.filterMap Output.replied).length = 5 ∧
      p.written.filterMap Output.pushed = [Reply.pushMessage "ch".toList "hi".toList] := by
  have hup : (booted.run ⟨64, none⟩ [.accepted ⟨1, "a".toList⟩, toItself]).up = true :=
    (up_run_of_tcp (by unfold toItself; simp [fromTcp]) booted).trans (by decide)
  have hstays : ∀ e ∈ [toItself], e ≠ .lost ⟨1, "a".toList⟩ ∧ e ≠ .closed ⟨1, "a".toList⟩ := by
    unfold toItself
    simp
  have hown : Trace.Along Server.next Server.OwnLog booted.server
      (booted.trace ⟨64, none⟩ [.accepted ⟨1, "a".toList⟩, toItself]) :=
    ⟨ownLog_line (by decide), ownLog_line (by decide), ownLog_line (by decide),
      ownLog_line (by decide), ownLog_line (by decide), trivial⟩
  have H := alone_run (fun (st : Unit) _ => (st, .nothing)) [toItself]
    (alone_accepted () (c := ⟨1, "a".toList⟩) rfl (up_of_run [toItself] hup)) hup hstays
  obtain ⟨written, hpeer, -⟩ := H.peer
  obtain ⟨-, hdestroyed, -⟩ := TcpServer.onData_noting (fun (st : Unit) _ => (st, .nothing)) 64
    (c := TcpServer.onConnection ((), [])) rfl
    "SET k v\nMULTI\nSUBSCRIBE ch\nPUBLISH ch hi\nEXEC\n".toList
  obtain ⟨hreplies, hpushed⟩ := outputs_exact (InMemoryStore.create 2 (Nat.le_succ 1))
    (lockstep_create 2 _) none none [] "aof".toList .no Fs.empty Fs.wf_empty ⟨64, none⟩ []
    [toItself] ⟨1, "a".toList⟩ hown rfl hstays hup _ hpeer
    ((Bool.not_eq_true' _).mpr (hdestroyed.trans (by decide)))
  refine ⟨_, hpeer, ?_, hpushed.trans (by decide)⟩
  have hlength := congrArg List.length hreplies
  rw [List.length_map] at hlength
  exact hlength.trans (by decide)

end Network

end MiniStore
