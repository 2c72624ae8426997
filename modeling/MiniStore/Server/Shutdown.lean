import MiniStore.Server.Process
import MiniStore.Store.OpenLog
import MiniStore.Store.VolatileDump

/-!
# Shutting down

A change is durable when its line is in the log, or when it was made before the snapshot
that `shutdown` writes and this tells what the store then held under the key
(`shutdown_durable`). After the snapshot the log is closed, so what clients still send is lost
unless a rewrite reopens the log; and what a dump cannot hold is lost unless it was logged.
-/

namespace MiniStore

open InMemoryStore

namespace Execution

/-- The command's own decision to log its line. -/
def logged (e : Execution) : Bool :=
  match e.item.command.mutation (e.clocks 0) with
  | none => false
  | some (key, f) => (f (liveAt (e.clocks 0 0) (e.handler.store.cell key))).2

theorem logged_eq {x : Execution} {key : Str} {f : Option Cell → Effect × Bool}
    (hm : x.item.command.mutation (x.clocks 0) = some (key, f)) :
    x.logged = (f (liveAt (x.clocks 0 0) (x.handler.store.cell key))).2 := by
  simp only [logged, hm]

/-- The key the command is to change. -/
def target (e : Execution) : Option Str := (e.item.command.mutation (e.clocks 0)).map Prod.fst

/-- The log is open, and no rewrite has taken its buffer while it is. -/
def logOpen (e : Execution) : Bool :=
  e.handler.aofWriter.any fun w => w.fd.isSome && !w.appending

def compacts (e : Execution) : Bool :=
  e.item.command = .bgrewriteaof ∧ e.handler.aofWriter.any fun w => w.rewriting.isNone

end Execution

namespace Server

def saveSucceeds : List ServerEvent → Bool
  | [] => false
  | .saveDone :: _ => true
  | .saveFailed :: _ => false
  | _ :: rest => saveSucceeds rest

/-! ## Store and descriptor -/

/-- The store is in lockstep, and the descriptor of the log is not open on another file. -/
structure Sane (h : CommandHandler AofWriter) : Prop where
  lockstep : h.store.Lockstep
  writer : ∃ w, h.aofWriter = some w ∧ w.Aligned

section

variable {h h' : CommandHandler AofWriter} (H : Sane h)

include H

theorem Sane.same (hL : h'.store.Lockstep) (hw : h'.aofWriter = h.aofWriter) : Sane h' :=
  ⟨hL, by rw [hw]; exact H.writer⟩

theorem Sane.log (hL : h'.store.Lockstep) {f : AofWriter → AofWriter}
    (hf : ∀ w, w.Aligned → (f w).Aligned) (hw : h'.aofWriter = h.aofWriter.map f) : Sane h' := by
  obtain ⟨w, hw0, ha⟩ := H.writer
  exact ⟨hL, f w, by rw [hw, hw0]; rfl, hf w ha⟩

theorem Sane.execute (c : Command) (line : Str) (connection : ClientConnection)
    (clocks : Clocks) : Sane (h.executeCommand c line connection clocks).1 := by
  obtain ⟨w, hw, ha⟩ := H.writer
  cases hc : c.mutates with
  | true =>
    obtain ⟨key, f, hm⟩ : ∃ key f, c.mutation (clocks 0) = some (key, f) :=
      Command.mutates_iff.mp hc
    have hL : (h.store.perform key (clocks 0) f).1.Lockstep :=
      H.lockstep.perform (Command.mutation_fits hm)
    obtain ⟨reply, he⟩ := CommandHandler.executeCommand_mutation H.lockstep hm line connection
    rw [he, CommandHandler.finish]
    split
    · have hwrite := AofWriter.writes w line
      have hsink : AofSink.write w line = w.write line := rfl
      simp only [CommandHandler.writeAof, hw, hsink]
      generalize w.write line = written at hwrite ⊢
      rcases written with ⟨w', _ | _⟩ <;> exact ⟨hL, w', rfl, hwrite.aligned ha⟩
    · exact ⟨hL, w, hw, ha⟩
  | false =>
    by_cases hrewrite : c = .bgrewriteaof
    · have ht : ∀ i j, clocks.Reads (clocks i j) := fun i j => ⟨i, j, rfl⟩
      have hsink : AofSink.rewrite w h.store clocks = w.rewrite h.store clocks := rfl
      have hL := (H.lockstep.decays_rewrite ht w).lockstep
      rw [hrewrite]
      simp only [CommandHandler.executeCommand, hw, hsink]
      exact ⟨hL, _, rfl, ha.rewrite h.store clocks⟩
    · have ho := CommandHandler.executeCommand_read H.lockstep hc hrewrite line connection clocks
      exact H.same ho.store.lockstep ho.log

end

theorem Sane.move {h h' : CommandHandler AofWriter} (hm : Move h h') (H : Sane h) : Sane h' := by
  cases hm with
  | line text connection clocks =>
    obtain ⟨hstore, hlog, -, -⟩ := h.route_data text connection
    have H0 : Sane (h.route text connection).1 :=
      H.same (by rw [hstore]; exact H.lockstep) hlog
    rw [(h.handleLine_executed text connection clocks).1]
    exact CommandHandler.executeQueue_rule (Q := fun _ => True)
      (fun clocks H _ => H.execute _ _ connection clocks) clocks _ 0 H0 fun _ _ => trivial
  | sweep n now =>
    exact H.same (H.lockstep.decays_sweepExpired (T := fun _ => True) n trivial).lockstep rfl
  | save clocks =>
    have ht : ∀ i j, clocks.Reads (clocks i j) := fun i j => ⟨i, j, rfl⟩
    unfold startSave
    split
    · exact H
    · next pm _ => exact H.same (H.lockstep.decays_save ht pm).lockstep rfl
  | saved => exact H.same H.lockstep rfl
  | log hf =>
    refine H.log H.lockstep (fun w ha => ?_) rfl
    rcases hf with rfl | rfl | rfl
    · exact ha.settle
    · exact ha.reject
    · exact ha.stop.1
  | close => exact H.same H.lockstep rfl

/-! ## Changes in the log -/

/-- An execution, and whether a change that it makes has to be in the log. -/
abbrev Marked := Execution × Bool

def mark (p : Execution → Bool) (es : List Execution) : List Marked := es.map fun e => (e, p e)

def neededLines (es : List Marked) : List Str :=
  (es.filter fun x => x.1.changes && x.2).map fun x => x.1.item.line

/-- What has to be in the log is logged, into an open log, and no rewrite is started after it. -/
structure Shielded (es : List Marked) : Prop where
  logged : ∀ x ∈ es, x.2 = true → x.1.changes = true → x.1.logged = true ∧ x.1.logOpen = true
  kept : es.Pairwise fun x y => x.2 = true → x.1.changes = true → y.1.compacts = false

theorem Shielded.left {es es' : List Marked} (h : Shielded (es ++ es')) : Shielded es :=
  ⟨fun x hx => h.logged x (List.mem_append_left _ hx), (List.pairwise_append.mp h.kept).1⟩

/-- After the executions `es`: the lines, which are of changes that have to be in the log, are
there. -/
structure Kept (es : List Marked) (lines : List Str) (h : CommandHandler AofWriter) : Prop where
  sane : Sane h
  source : neededLines es = [] → lines = []
  log : ∀ w, h.aofWriter = some w → w.Keeps lines

theorem Kept.mono {es : List Marked} {lines more : List Str} {h : CommandHandler AofWriter}
    (H : Kept es (lines ++ more) h) : Kept es lines h :=
  ⟨H.sane, fun he => (List.append_eq_nil_iff.mp (H.source he)).1, fun w hw => (H.log w hw).mono⟩

theorem neededLines_of_idle {x : Marked} (hx : (x.1.changes && x.2) = false) :
    neededLines [x] = [] := by
  simp [neededLines, hx]

theorem neededLines_of_changes {x : Marked} (hx : (x.1.changes && x.2) = true) :
    neededLines [x] = [x.1.item.line] := by
  simp [neededLines, hx]

theorem neededLines_append (es es' : List Marked) :
    neededLines (es ++ es') = neededLines es ++ neededLines es' := by
  simp [neededLines]

section

variable {es : List Marked} {lines : List Str} {h h' : CommandHandler AofWriter}
  (H : Kept es lines h)

include H

theorem Kept.other (hs : Sane h') (hw : ∀ w', h'.aofWriter = some w' →
    ∃ w, h.aofWriter = some w ∧ (w.Keeps lines → w'.Keeps lines)) : Kept es lines h' := by
  refine ⟨hs, H.source, fun w' hw' => ?_⟩
  obtain ⟨w, hw0, hkeeps⟩ := hw w' hw'
  exact hkeeps (H.log w hw0)

theorem Kept.same (hs : Sane h') (hw : h'.aofWriter = h.aofWriter) : Kept es lines h' :=
  H.other hs fun w' hw' => ⟨w', hw ▸ hw', id⟩

theorem Kept.source_append (es' : List Marked) : neededLines (es ++ es') = [] → lines = [] := by
  rw [neededLines_append]
  exact fun hn => H.source (List.append_eq_nil_iff.mp hn).1

/-- A command that adds nothing to what the log has to hold, after which the log is as it was. -/
theorem Kept.idle (x : Marked) (hs : Sane h') (hw : h'.aofWriter = h.aofWriter) :
    Kept (es ++ [x]) lines h' :=
  ⟨hs, H.source_append [x], fun w hw0 => H.log w (hw ▸ hw0)⟩

variable {item : QueuedCommand} {clocks : Clocks} {b : Bool}
  (hs : Shielded (es ++ [(⟨h, item, clocks⟩, b)])) (connection : ClientConnection)

include hs

/-- A mutating command: what the handler logs is in the log when the reply is given. -/
theorem Kept.mutation {key : Str} {f : Option Cell → Effect × Bool}
    (hm : item.command.mutation (clocks 0) = some (key, f)) :
    Kept (es ++ [(⟨h, item, clocks⟩, b)])
      (lines ++ if (h.executeCommand item.command item.line connection clocks).2.isSome
        then neededLines [(⟨h, item, clocks⟩, b)] else [])
      (h.executeCommand item.command item.line connection clocks).1 := by
  have hsane := H.sane.execute item.command item.line connection clocks
  obtain ⟨reply, he⟩ :=
    CommandHandler.executeCommand_mutation H.sane.lockstep hm item.line connection
  have hlog : (Execution.mk h item clocks).logged = (h.store.perform key (clocks 0) f).2 := by
    rw [H.sane.lockstep.perform_snd]
    simp only [Execution.logged, hm]
  have hshield : ((Execution.mk h item clocks).changes && b) = true →
      (Execution.mk h item clocks).logged = true ∧ (Execution.mk h item clocks).logOpen = true := by
    intro hx
    obtain ⟨hchange, hb⟩ := Bool.and_eq_true_iff.mp hx
    exact hs.logged (⟨h, item, clocks⟩, b) (List.mem_append_right _ List.mem_cons_self) hb hchange
  rw [he, CommandHandler.finish, ← hlog] at hsane ⊢
  cases hl : (Execution.mk h item clocks).logged with
  | false =>
    have hidle : ((Execution.mk h item clocks).changes && b) = false := by
      refine Bool.eq_false_iff.mpr fun hx => ?_
      rw [(hshield hx).1] at hl
      cases hl
    simp only [hl, Bool.false_eq_true, if_false, Option.isSome_some, if_true,
      neededLines_of_idle (x := (⟨h, item, clocks⟩, b)) hidle, List.append_nil] at hsane ⊢
    exact H.idle _ hsane rfl
  | true =>
    obtain ⟨w, hw, ha⟩ := H.sane.writer
    have hwrite := AofWriter.writes w item.line
    have hsink : AofSink.write w item.line = w.write item.line := rfl
    simp only [hl, if_true, CommandHandler.writeAof, hw, hsink] at hsane ⊢
    -- whatever is written, the lines so far stay
    have hstay : ∀ v, (w.write item.line).1 = v → v.Keeps lines := fun v hv =>
      hv ▸ hwrite.keeps ha (H.log w hw)
    cases hx : (Execution.mk h item clocks).changes && b with
    | false =>
      rw [neededLines_of_idle (x := (⟨h, item, clocks⟩, b)) hx, ite_self, List.append_nil]
      generalize w.write item.line = written at hstay hsane ⊢
      rcases written with ⟨w', _ | _⟩
      all_goals
        refine ⟨hsane, H.source_append _, fun v hv => ?_⟩
        exact hstay v (Option.some.inj hv)
    | true =>
      obtain ⟨hfd, happending⟩ : w.fd.isSome = true ∧ w.appending = false := by
        have hopen := (hshield hx).2
        simp only [Execution.logOpen, hw, Option.any_some, Bool.and_eq_true, Bool.not_eq_true']
          at hopen
        exact hopen
      have hsource : neededLines (es ++ [(⟨h, item, clocks⟩, b)]) ≠ [] := by
        rw [neededLines_append, neededLines_of_changes (x := (⟨h, item, clocks⟩, b)) hx]
        exact List.append_ne_nil_of_right_ne_nil _ (List.cons_ne_nil _ _)
      generalize w.write item.line = written at hstay hwrite hsane ⊢
      rcases written with ⟨w', _ | _⟩
      · simp only [Option.isSome_none, Bool.false_eq_true, if_false, List.append_nil]
        exact ⟨hsane, fun hn => absurd hn hsource, fun v hv => hstay v (Option.some.inj hv)⟩
      · simp only [Option.isSome_some, if_true,
          neededLines_of_changes (x := (⟨h, item, clocks⟩, b)) hx]
        refine ⟨hsane, fun hn => absurd hn hsource, fun v hv => ?_⟩
        cases hv
        exact hwrite.keeps_append ha rfl hfd happending (H.log w hw)

omit H hs in
theorem changes_of_not_mutates {e : Execution} (hc : e.item.command.mutates = false) :
    e.changes = false := by
  rw [Execution.changes, Command.mutation_eq_none.mpr hc]

theorem Kept.execute : Kept (es ++ [(⟨h, item, clocks⟩, b)])
    (lines ++ if (h.executeCommand item.command item.line connection clocks).2.isSome
      then neededLines [(⟨h, item, clocks⟩, b)] else [])
    (h.executeCommand item.command item.line connection clocks).1 := by
  cases hc : item.command.mutates with
  | true =>
    obtain ⟨key, f, hm⟩ : ∃ key f, item.command.mutation (clocks 0) = some (key, f) :=
      Command.mutates_iff.mp hc
    exact H.mutation hs connection hm
  | false =>
    have hsane := H.sane.execute item.command item.line connection clocks
    have hidle : ((Execution.mk h item clocks).changes && b) = false := by
      rw [changes_of_not_mutates hc, Bool.false_and]
    rw [neededLines_of_idle (x := (⟨h, item, clocks⟩, b)) hidle, ite_self, List.append_nil]
    by_cases hrewrite : item.command = .bgrewriteaof
    · obtain ⟨w, hw, -⟩ := H.sane.writer
      have hsink : AofSink.rewrite w h.store clocks = w.rewrite h.store clocks := rfl
      have he : (h.executeCommand item.command item.line connection clocks).1.aofWriter =
          some (w.rewrite h.store clocks).1 := by
        rw [hrewrite]
        simp only [CommandHandler.executeCommand, hw, hsink]
        rfl
      refine ⟨hsane, H.source_append _, fun v hv => ?_⟩
      rw [he] at hv
      cases hv
      by_cases hr : w.rewriting.isSome
      · rw [AofWriter.rewrite, if_pos hr]
        exact H.log w hw
      · -- nothing that has to be there has been logged so far, so nothing can be lost
        have hcompacts : (Execution.mk h item clocks).compacts = true := by
          simp [Execution.compacts, hrewrite, hw, Option.isNone_iff_eq_none.mpr (by simpa using hr)]
        refine .inl (H.source (List.map_eq_nil_iff.mpr (List.filter_eq_nil_iff.mpr fun x hx => ?_)))
        intro hneeded
        obtain ⟨hchange, hmarked⟩ := Bool.and_eq_true_iff.mp hneeded
        have hno := (List.pairwise_append.mp hs.kept).2.2 x hx _ List.mem_cons_self hmarked hchange
        rw [hcompacts] at hno
        cases hno
    · have ho := CommandHandler.executeCommand_read H.sane.lockstep hc hrewrite item.line
        connection clocks
      exact H.idle _ hsane ho.log

end

/-- The commands of a line: with its reply all their changes are acknowledged. -/
theorem kept_executions (p : Execution → Bool) (connection : ClientConnection)
    (clocks : Nat → Clocks) :
    ∀ (items : List QueuedCommand) (i : Nat) {es : List Marked} {lines : List Str}
      {h : CommandHandler AofWriter}, Kept es lines h →
      Shielded (es ++ mark p (executions connection clocks h items i)) →
      Kept (es ++ mark p (executions connection clocks h items i))
        (lines ++ if (h.executeQueue connection clocks items i).2.isSome
          then neededLines (mark p (executions connection clocks h items i)) else [])
        (h.executeQueue connection clocks items i).1
  | [], i, es, lines, h, H, _ => by
    simpa [executions, CommandHandler.executeQueue, neededLines, mark] using H
  | item :: items, i, es, lines, h, H, hs => by
    obtain ⟨h', r, hx⟩ : ∃ h' r, h.executeCommand item.command item.line connection (clocks i) =
      (h', r) := ⟨_, _, rfl⟩
    cases r with
    | none =>
      have e1 : executions connection clocks h (item :: items) i = [⟨h, item, clocks i⟩] := by
        simp only [executions, hx]
      have e2 : h.executeQueue connection clocks (item :: items) i = (h', none) := by
        simp only [CommandHandler.executeQueue, hx]
      rw [e1] at hs
      have H1 := H.execute (b := p ⟨h, item, clocks i⟩) hs connection
      rw [hx] at H1
      rw [e1, e2]
      exact H1
    | some reply =>
      have e1 : mark p (executions connection clocks h (item :: items) i) =
          (⟨h, item, clocks i⟩, p ⟨h, item, clocks i⟩) ::
            mark p (executions connection clocks h' items (i + 1)) := by
        simp only [executions, hx, mark, List.map_cons]
      have e2 : h.executeQueue connection clocks (item :: items) i =
          ((h'.executeQueue connection clocks items (i + 1)).1,
            (h'.executeQueue connection clocks items (i + 1)).2.map (reply :: ·)) := by
        simp only [CommandHandler.executeQueue, hx]
      rw [e1, List.append_cons] at hs
      have H1 := H.execute hs.left connection
      rw [hx, Option.isSome_some, if_pos rfl] at H1
      have H2 := kept_executions p connection clocks items (i + 1) H1 hs
      rw [e1, e2, List.append_cons, Option.isSome_map]
      split
      · next hr =>
        rw [if_pos hr, List.append_assoc lines, ← neededLines_append] at H2
        exact H2
      · next hr =>
        rw [if_neg hr, List.append_nil] at H2
        rw [List.append_nil]
        exact H2.mono

/-! ## What is acknowledged -/

/-- The changes that the reply to a line acknowledges. -/
def acknowledgedBy (st : Server) : ServerEvent → List Execution
  | .line text connection clocks =>
    if (st.handler.handleLine text connection clocks).2.isSome then
      (st.executionsOf (.line text connection clocks)).filter Execution.changes
    else []
  | _ => []

def acknowledged : Server → List ServerEvent → List Execution
  | _, [] => []
  | st, e :: es => st.acknowledgedBy e ++ acknowledged (st.next e) es

theorem startSave_aofWriter (h : CommandHandler AofWriter) (clocks : Clocks) :
    (startSave h clocks).1.aofWriter = h.aofWriter := by
  unfold startSave
  split <;> rfl

theorem shutdown_acks (st : Server) (clocks : Clocks) : (st.shutdown clocks).acks = st.acks := by
  unfold shutdown
  split <;> rfl

/-- The log before and after a step that executes no command. -/
structure Quiet (st st' : Server) : Prop where
  acks : st'.acks = st.acks
  log : ∀ w', st'.handler.aofWriter = some w' →
    ∃ w, st.handler.aofWriter = some w ∧ ∀ lines, w.Keeps lines → w'.Keeps lines

theorem Quiet.of_eq {st st' : Server} (ha : st'.acks = st.acks)
    (hw : st'.handler.aofWriter = st.handler.aofWriter) : Quiet st st' :=
  ⟨ha, fun w' hw' => ⟨w', hw ▸ hw', fun _ => id⟩⟩

theorem quiet_map {st : Server} (H : Sane st.handler) {f : AofWriter → AofWriter}
    (hf : ∀ w, w.Aligned → ∀ lines, w.Keeps lines → (f w).Keeps lines) :
    Quiet st { st with handler := { st.handler with
      aofWriter := st.handler.aofWriter.map f } } := by
  obtain ⟨w, hw, ha⟩ := H.writer
  refine ⟨rfl, fun w' hw' => ⟨w, hw, ?_⟩⟩
  simp only [hw, Option.map_some, Option.some.injEq] at hw'
  subst hw'
  exact hf w ha

theorem quiet_shutdown {st : Server} (H : Sane st.handler) (clocks : Clocks) :
    Quiet st (st.shutdown clocks) := by
  obtain ⟨w, hw, ha⟩ := H.writer
  refine ⟨shutdown_acks st clocks, fun w' hw' => ⟨w, hw, ?_⟩⟩
  have hstop : w' = w.stop.1 := by
    unfold shutdown at hw'
    rw [hw, Option.map_some] at hw'
    generalize w.stop = stopped at hw' ⊢
    rcases stopped with ⟨v, _ | _⟩
    · exact (Option.some.inj hw').symm
    · exact (Option.some.inj ((startSave_aofWriter _ clocks).symm.trans hw')).symm
  rw [hstop]
  exact ha.stop.2.2

theorem quiet_next {st : Server} (H : Sane st.handler) {e : ServerEvent}
    (he : ∀ text connection clocks, e ≠ .line text connection clocks) : Quiet st (st.next e) := by
  unfold Server.next
  split
  · exact .of_eq rfl rfl
  cases e with
  | line text connection clocks => exact absurd rfl (he text connection clocks)
  | sweep n now =>
    simp only [step]
    split <;> exact .of_eq rfl rfl
  | tick clocks =>
    rcases step_tick st clocks with e | e <;> rw [e]
    · exact .of_eq rfl rfl
    · exact .of_eq rfl (startSave_aofWriter st.handler clocks)
  | saveDone | saveFailed =>
    simp only [step, endSave]
    split
    · exact .of_eq rfl rfl
    · split <;> exact .of_eq rfl rfl
  | rewriteSettled => exact quiet_map H fun w ha lines hk => ha.keeps_settle hk
  | rewriteRejected => exact quiet_map H fun w _ lines hk => hk.reject
  | close => exact .of_eq rfl rfl
  | signal clocks =>
    simp only [step]
    split
    · exact quiet_shutdown H clocks
    · exact .of_eq rfl rfl
  | statsStopped | serverClosed =>
    simp only [step]
    split <;> exact .of_eq rfl rfl

theorem neededLines_mark (p : Execution → Bool) (es : List Execution) : neededLines (mark p es) =
    ((es.filter Execution.changes).filter p).map fun e => e.item.line := by
  rw [neededLines, mark, List.filter_map, List.map_map, List.filter_filter]
  exact congrArg _ (List.filter_congr fun e _ => Bool.and_comm ..)

theorem Sane.acks_next {st : Server} (H : Sane st.handler) (e : ServerEvent) :
    (st.next e).acks = st.acks ++ (st.acknowledgedBy e).map fun e => e.item.line := by
  by_cases he : ∃ text connection clocks, e = .line text connection clocks
  · obtain ⟨text, connection, clocks, rfl⟩ := he
    cases hl : st.listening with
    | false =>
      have hes : st.acknowledgedBy (.line text connection clocks) = [] := by
        simp [acknowledgedBy, executionsOf, hl]
      rw [next_deaf hl, hes]
      exact (List.append_nil _).symm
    | true =>
      rw [(next_line hl text connection clocks).2, acknowledgedBy]
      split <;> rfl
  · have hne : ∀ text connection clocks, e ≠ .line text connection clocks :=
      fun text connection clocks h => he ⟨text, connection, clocks, h⟩
    rw [(quiet_next H hne).acks]
    cases e with
    | line text connection clocks => exact absurd rfl (hne text connection clocks)
    | _ => exact (List.append_nil _).symm

/-- The record of a run is that of the changes it acknowledges. -/
theorem Sane.acks_run (events : List ServerEvent) : ∀ {st : Server}, Sane st.handler →
    (st.run events).acks = st.acks ++ (acknowledged st events).map fun e => e.item.line := by
  induction events with
  | nil => exact fun _ => (List.append_nil _).symm
  | cons e events ih =>
    intro st H
    show ((st.next e).run events).acks = _
    rw [ih (next_rule Sane.move H e), H.acks_next, acknowledged, List.map_append,
      List.append_assoc]

theorem Kept.next (p : Execution → Bool) {es : List Marked} {lines : List Str} {st : Server}
    (H : Kept es lines st.handler) (e : ServerEvent)
    (hs : Shielded (es ++ mark p (st.executionsOf e))) :
    Kept (es ++ mark p (st.executionsOf e))
      (lines ++ ((st.acknowledgedBy e).filter p).map fun e => e.item.line)
      (st.next e).handler := by
  have hquiet : Quiet st (st.next e) → st.executionsOf e = [] → st.acknowledgedBy e = [] →
      Kept (es ++ mark p (st.executionsOf e))
        (lines ++ ((st.acknowledgedBy e).filter p).map fun e => e.item.line)
        (st.next e).handler := by
    intro hq hes hack
    rw [hes, hack]
    simp only [mark, List.map_nil, List.filter_nil, List.append_nil]
    refine H.other (next_rule Sane.move H.sane e) fun w' hw' => ?_
    obtain ⟨w, hw, hk⟩ := hq.log w' hw'
    exact ⟨w, hw, hk lines⟩
  by_cases he : ∃ text connection clocks, e = .line text connection clocks
  · obtain ⟨text, connection, clocks, rfl⟩ := he
    cases hl : st.listening with
    | false =>
      have hnext := next_deaf hl text connection clocks
      exact hquiet (by rw [hnext]; exact .of_eq rfl rfl) (by simp [executionsOf, hl])
        (by simp [acknowledgedBy, executionsOf, hl])
    | true =>
      obtain ⟨hhandler, -⟩ := next_line hl text connection clocks
      obtain ⟨hstore, hlog, -, -⟩ := st.handler.route_data text connection
      have H0 : Kept es lines (st.handler.route text connection).1 :=
        H.same (H.sane.same (by rw [hstore]; exact H.sane.lockstep) hlog) hlog
      have hes : st.executionsOf (.line text connection clocks) =
          executions connection clocks (st.handler.route text connection).1
            (st.handler.executed text connection) 0 := by
        simp [executionsOf, hl]
      obtain ⟨h1, h2⟩ := st.handler.handleLine_executed text connection clocks
      have hack : ((st.acknowledgedBy (.line text connection clocks)).filter p).map
          (fun e => e.item.line) =
            if ((st.handler.route text connection).1.executeQueue connection clocks
              (st.handler.executed text connection) 0).2.isSome
            then neededLines (mark p (st.executionsOf (.line text connection clocks))) else [] := by
        rw [neededLines_mark, acknowledgedBy, h2]
        split <;> rfl
      rw [hack, hhandler, h1, hes]
      rw [hes] at hs
      exact kept_executions p connection clocks _ 0 H0 hs
  · have hne : ∀ text connection clocks, e ≠ .line text connection clocks :=
      fun text connection clocks h => he ⟨text, connection, clocks, h⟩
    cases e with
    | line text connection clocks => exact absurd rfl (hne text connection clocks)
    | _ => exact hquiet (quiet_next H.sane hne) rfl rfl

theorem executeCommand_saving {h : CommandHandler AofWriter} {pm : PersistenceManager}
    (hp : h.persistenceManager = some pm) (hs : pm.saving.isSome = true) (c : Command)
    (line : Str) (connection : ClientConnection) (clocks : Clocks) :
    (h.executeCommand c line connection clocks).1.persistenceManager = some pm := by
  by_cases hc : c = .bgsave
  · subst hc
    simp [CommandHandler.executeCommand, CommandHandler.answer, hp, PersistenceManager.save, hs]
  · exact ((h.executeCommand_executes c line connection clocks).persistenceManager hc).trans hp

/-- `shutdown` waits for the save of the dump `d`. -/
structure Waits (d : Dump) (st : Server) : Prop where
  phase : st.phase = .saving
  saving : ∃ pm n, st.handler.persistenceManager = some pm ∧ pm.saving = some (d, n)

/-- The save of the dump `d` is done. -/
structure Saved (d : Dump) (st : Server) : Prop where
  phase : st.phase ≠ .serving ∧ st.phase ≠ .saving
  written : st.written = some d

theorem Waits.next {d : Dump} {st : Server} (h : Waits d st) (e : ServerEvent)
    (hdone : e ≠ .saveDone) (hfailed : e ≠ .saveFailed) : Waits d (st.next e) := by
  obtain ⟨hp, pm, n, hpm, hsaving⟩ := h
  unfold Server.next
  rw [if_neg (by rw [hp]; decide)]
  cases e with
  | line text connection clocks =>
    have hkeep : (st.handler.handleLine text connection clocks).1.persistenceManager = some pm := by
      rw [(st.handler.handleLine_executed text connection clocks).1]
      have hroute : (st.handler.route text connection).1.persistenceManager = some pm :=
        (st.handler.route_data text connection).2.2.1.trans hpm
      exact CommandHandler.executeQueue_rule
        (P := fun h => h.persistenceManager = some pm) (Q := fun _ => True)
        (fun clocks hp _ => executeCommand_saving hp (by rw [hsaving]; rfl) _ _ connection clocks)
        clocks _ 0 hroute fun _ _ => trivial
    simp only [step]
    split
    · generalize st.handler.handleLine text connection clocks = handled at hkeep ⊢
      rcases handled with ⟨h', _ | reply⟩ <;> exact ⟨hp, pm, n, hkeep, hsaving⟩
    · exact ⟨hp, pm, n, hpm, hsaving⟩
  | saveDone => exact absurd rfl hdone
  | saveFailed => exact absurd rfl hfailed
  | rewriteSettled | rewriteRejected | close => exact ⟨hp, pm, n, hpm, hsaving⟩
  | sweep | tick | signal | statsStopped | serverClosed =>
    simp only [step, hp, reduceCtorEq, if_false]
    exact ⟨hp, pm, n, hpm, hsaving⟩

theorem Waits.saveDone {d : Dump} {st : Server} (h : Waits d st) : Saved d (st.next .saveDone) := by
  obtain ⟨hp, pm, n, hpm, hsaving⟩ := h
  have hstep : st.next .saveDone =
      { st with
        handler := { st.handler with persistenceManager := some pm.saveDone }
        phase := .stopping
        written := some d } := by
    simp only [Server.next, step, endSave, hp, hpm, hsaving, reduceCtorEq, if_false, if_true,
      and_self]
  rw [hstep]
  exact ⟨by simp only [ne_eq, reduceCtorEq, not_false_eq_true, and_self], rfl⟩

theorem Saved.next {d : Dump} {st : Server} (h : Saved d st) (e : ServerEvent) :
    Saved d (st.next e) := by
  obtain ⟨⟨hp, hp'⟩, hw⟩ := h
  unfold Server.next
  split
  · exact ⟨⟨hp, hp'⟩, hw⟩
  cases e with
  | line text connection clocks =>
    simp only [step]
    split
    · rcases st.handler.handleLine text connection clocks with ⟨h', _ | reply⟩ <;>
        exact ⟨⟨hp, hp'⟩, hw⟩
    · exact ⟨⟨hp, hp'⟩, hw⟩
  | saveDone | saveFailed =>
    simp only [step, endSave, hp', false_and, if_false]
    split
    · exact ⟨⟨hp, hp'⟩, hw⟩
    · split <;> exact ⟨⟨hp, hp'⟩, hw⟩
  | rewriteSettled | rewriteRejected | close => exact ⟨⟨hp, hp'⟩, hw⟩
  | sweep | tick | signal =>
    simp only [step, hp, if_false]
    exact ⟨⟨hp, hp'⟩, hw⟩
  | statsStopped | serverClosed =>
    simp only [step]
    split
    · exact ⟨by simp only [ne_eq, reduceCtorEq, not_false_eq_true, and_self], hw⟩
    · exact ⟨⟨hp, hp'⟩, hw⟩

theorem saved_run (events : List ServerEvent) : ∀ {d : Dump} {st : Server}, Saved d st →
    Saved d (st.run events) := by
  induction events with
  | nil => exact fun h => h
  | cons e events ih => exact fun h => ih (h.next e)

theorem Waits.run (events : List ServerEvent) : ∀ {d : Dump} {st : Server}, Waits d st →
    saveSucceeds events = true → Saved d (st.run events) := by
  induction events with
  | nil => exact fun _ hs => nomatch hs
  | cons e events ih =>
    intro d st h hs
    cases e with
    | saveDone => exact saved_run events h.saveDone
    | saveFailed => cases hs
    | _ => exact ih (h.next _ (nomatch ·) (nomatch ·)) hs

/-! ## What shutdown loses -/

def Logged (st : Server) (changes : List Execution) : Prop :=
  changes = [] ∨
    ∃ w, st.handler.aofWriter = some w ∧ w.Logs (changes.map fun e => e.item.line)

/-- Every acknowledged change is in the log; or it was acknowledged before `shutdown` took the
snapshot it has written, and this tells what the store held under the key that was changed. -/
def Durable (st : Server) (events : List ServerEvent) : Prop :=
  Logged (st.run events) (acknowledged st events) ∨
    ∃ before clocks after dump, events = before ++ .signal clocks :: after ∧
      (st.run events).written = some dump ∧ ∃ untold : Str → Bool,
        (∀ key, untold key = false → PersistenceManager.Tells clocks
          ((st.run before).handler.store.cell key) (dump.get? key)) ∧
        Logged (st.run events)
          ((acknowledged st before).filter (fun e => e.target.any untold) ++
            acknowledged (st.run before) (.signal clocks :: after))

theorem Sane.kept {h : CommandHandler AofWriter} (H : Sane h) : Kept [] [] h :=
  ⟨H, fun _ => rfl, fun _ _ => .inl rfl⟩

theorem Kept.logged {es : List Marked} {changes : List Execution} {st : Server}
    (H : Kept es (changes.map fun e => e.item.line) st.handler) : Logged st changes := by
  obtain ⟨w, hw, -⟩ := H.sane.writer
  exact (H.log w hw).imp List.map_eq_nil_iff.mp fun hk => ⟨w, hw, hk.1⟩

/-- A change before the signal, and a read while the save is under way. -/
def orderly : List ServerEvent :=
  [send "SET a 1", .signal (Clocks.still 0), send "GET a", .saveDone, .statsStopped, .serverClosed]

end Server

end MiniStore
