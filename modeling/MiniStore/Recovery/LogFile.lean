import MiniStore.Recovery.TornTail
import MiniStore.Server.Deliveries
import MiniStore.Server.Shutdown
import MiniStore.Store.RewriteFailure

/-!
# The file of the log along a run

What the file of the log says of the store is a relation `I` of the two. While the log is open it
holds of the file, and of the second file that a rewrite is about to put in its place, the new
commands with the lines kept so far (`Backed`); being told to stop closes the log (`Shut`). A
relation that each command keeps with its line, and that holds of what a rewrite prints
(`Follows`), so holds at every moment of a run in which every line gets into the file
(`Follows.along`).
-/

namespace MiniStore

open InMemoryStore AofWriter Engine

namespace Recovery

/-! ## The writer -/

structure Backed (I : Str → Prop) (w : AofWriter) : Prop where
  file : ∃ text, w.fs.read w.path = some text ∧ I text
  phase : ∃ commands lines, Phase commands w lines ∧ I (commandText commands ++ lines.flatten)

/-- The log is closed and no rewrite is under way; its file holds `text`. -/
structure Shut (text : Str) (w : AofWriter) : Prop where
  wf : w.fs.WF
  fd : w.fd = none
  idle : w.rewriting = none
  file : w.fs.read w.path = some text

def LogHolds (I : Str → Prop) (w : AofWriter) : Prop := Backed I w ∨ ∃ text, Shut text w ∧ I text

theorem read_closeAndRename (w : AofWriter) (path : Str) :
    w.closeAndRename.fs.read path = w.fs.read path := by
  unfold AofWriter.closeAndRename
  split
  · rfl
  · split <;> rfl

/-- A writer that is neither past the snapshot of its buffer nor closed serves its file. -/
theorem serving_of_sheltered {w : AofWriter} {commands lines : List Str}
    (hp : Phase commands w lines) (he : w.exposed = false) : ∃ i text, w.Serving i text := by
  cases hp with
  | early i text serving => exact ⟨i, text, serving⟩
  | done i serving => exact ⟨i, _, serving⟩
  | append _ _ _ _ pending => simp [exposed, pending] at he
  | rename _ _ _ _ pending => simp [exposed, pending] at he

theorem wf_of_phase {w : AofWriter} {commands lines : List Str} (hp : Phase commands w lines) :
    w.fs.WF := by
  cases hp with
  | early _ _ serving => exact serving.wf
  | append _ _ serving => exact serving.wf
  | rename wf => exact wf
  | done _ serving => exact serving.wf

section

variable {I I' : Str → Prop} {w : AofWriter}

theorem Backed.imp (H : Backed I w) (hI : ∀ {text}, I text → I' text) : Backed I' w := by
  obtain ⟨⟨text, hread, h⟩, commands, lines, hphase, h'⟩ := H
  exact ⟨⟨text, hread, hI h⟩, commands, lines, hphase, hI h'⟩

theorem Backed.write (H : Backed I w) (he : w.exposed = false) (line : Str)
    (hI : ∀ {text}, I text → I' (text ++ format line)) :
    (w.write line).2 = true ∧ Backed I' (w.write line).1 := by
  obtain ⟨⟨text, hread, h⟩, commands, lines, hphase, h'⟩ := H
  obtain ⟨i, old, hserving⟩ := serving_of_sheltered hphase he
  obtain rfl : old = text := Option.some.inj (hserving.read.symm.trans hread)
  obtain ⟨hok, hphase'⟩ := hphase.write_kept he line
  obtain ⟨w', hw', hserving', -⟩ := hserving.write line
  rw [hw'] at hok hphase' ⊢
  refine ⟨hok, ⟨_, hserving'.read, hI h⟩, commands, lines ++ [format line], hphase', ?_⟩
  rw [List.flatten_append, ← List.append_assoc, List.flatten_singleton]
  exact hI h'

/-- The call that a rewrite waits for completes. -/
theorem Backed.settle (H : Backed I w) : Backed I w.settle := by
  obtain ⟨⟨text, hread, h⟩, commands, lines, hphase, h'⟩ := H
  refine ⟨?_, commands, lines, hphase.settle, h'⟩
  rw [path_settle]
  cases hphase with
  | early i old serving pending buffer =>
    obtain rfl : old = text := Option.some.inj (serving.read.symm.trans hread)
    refine ⟨old, ?_, h⟩
    rcases pending with hr | hr
    · rw [AofWriter.settle, hr]
      exact hread
    · rw [AofWriter.settle, hr]
      have htemp := (serving.writeTemp (commandText commands)).read
      dsimp only
      split
      · exact htemp
      · exact (read_closeAndRename _ _).trans htemp
  | append i old serving prepared pending buffer =>
    obtain rfl : old = text := Option.some.inj (serving.read.symm.trans hread)
    rw [AofWriter.settle, pending]
    exact ⟨old, (read_closeAndRename _ _).trans (serving.appendTemp lines.flatten).read, h⟩
  | rename wf fd closed prepared pending buffer =>
    obtain ⟨i, hs, -⟩ := settle_rename wf prepared pending
    exact ⟨_, path_settle w ▸ hs.read, h'⟩
  | done i serving pending buffer =>
    rw [AofWriter.settle, pending]
    exact ⟨text, hread, h⟩

/-- The call that a rewrite waits for fails before the log is closed. -/
theorem Backed.reject (H : Backed I w) (hr : w.rewriting ≠ some .rename) : Backed I w.reject := by
  obtain ⟨⟨text, hread, h⟩, commands, lines, hphase, -⟩ := H
  have hserving : ∃ i, w.Serving i text := by
    have hsame : ∀ {i old}, w.Serving i old → ∃ i, w.Serving i text := fun {i old} hs =>
      ⟨i, Option.some.inj (hs.read.symm.trans hread) ▸ hs⟩
    cases hphase with
    | early _ _ serving => exact hsame serving
    | append _ _ serving => exact hsame serving
    | rename _ _ _ _ pending => exact absurd pending hr
    | done _ serving => exact hsame serving
  obtain ⟨i, hserving⟩ := hserving
  have hone : commandText [] ++ [text].flatten = text := by
    rw [List.flatten_singleton]
    rfl
  refine ⟨⟨text, hread, h⟩, [], [text], .done i ?_ rfl rfl, hone.symm ▸ h⟩
  exact hone.symm ▸ hserving.congr rfl rfl rfl

theorem Backed.rewrite (H : Backed I w) (s : InMemoryStore) (clocks : Clocks)
    (hI : ∀ {text}, I text → I' text)
    (hnew : w.rewriting = none → I' (commandText (rewriteCommands s clocks).2)) :
    Backed I' (w.rewrite s clocks).1 := by
  cases hr : w.rewriting with
  | some p =>
    have hbusy : w.rewrite s clocks = (w, s) := by simp [AofWriter.rewrite, hr]
    rw [hbusy]
    exact H.imp hI
  | none =>
    obtain ⟨⟨text, hread, h⟩, commands, lines, hphase, -⟩ := H
    obtain ⟨i, hserving⟩ := hphase.fst_of_idle hr
    refine ⟨⟨text, ?_, hI h⟩, _, [], phase_rewrite hserving hr s clocks, ?_⟩
    · rw [rewrite_idle hr]
      exact hread
    · rw [List.flatten_nil, List.append_nil]
      exact hnew hr

theorem shut_stop {i : Nat} {text : Str} (hs : w.Serving i text) (hr : w.rewriting = none) :
    w.stop.2 = true ∧ Shut text w.stop.1 := by
  obtain ⟨fd, hfd, hopen⟩ := hs.fd
  have hstop : w.stop = ({ w with
      fs := (if w.dirty then (w.fs.syncFd fd).getD w.fs else w.fs).closeFd fd
      fd := none
      dirty := false }, true) := by
    simp only [AofWriter.stop, hfd, hopen]
  have hsync : (w.fs.syncFd fd).getD w.fs =
      { w.fs with inodes := w.fs.inodes.modify i Fs.sync } := by
    simp [Fs.syncFd, hopen]
  rw [hstop]
  cases w.dirty with
  | false => exact ⟨rfl, hs.wf.of_names rfl rfl, rfl, hr, hs.read⟩
  | true =>
    rw [if_pos rfl, hsync]
    refine ⟨rfl, hs.wf.of_names rfl (by simp [Fs.closeFd]), rfl, hr, ?_⟩
    show (w.fs.names.get? w.path).bind _ = _
    rw [hs.name]
    exact (Fs.content_sync _ i i).trans hs.content

theorem Shut.stop {text : Str} (H : Shut text w) : w.stop.2 = true ∧ Shut text w.stop.1 := by
  have hstop : w.stop = ({ w with dirty := false }, true) := by
    rw [AofWriter.stop, H.fd]
  rw [hstop]
  exact ⟨rfl, H.wf, H.fd, H.idle, H.file⟩

theorem Shut.settle {text : Str} (H : Shut text w) : Shut text w.settle := by
  rw [AofWriter.settle, H.idle]
  exact H

theorem Shut.reject {text : Str} (H : Shut text w) : Shut text w.reject :=
  ⟨H.wf, H.fd, rfl, H.file⟩

/-- A closed log takes a line without a word. -/
theorem Shut.write {text : Str} (H : Shut text w) (line : Str) :
    AofSink.write w line = (w, true) := by
  show w.write line = _
  rw [AofWriter.write, H.fd]

theorem LogHolds.imp (H : LogHolds I w) (hI : ∀ {text}, I text → I' text) : LogHolds I' w :=
  Or.imp (fun hB => hB.imp hI) (fun ⟨text, hshut, h⟩ => ⟨text, hshut, hI h⟩) H

theorem LogHolds.file (H : LogHolds I w) : ∃ text, w.fs.read w.path = some text ∧ I text := by
  rcases H with H | ⟨text, hshut, h⟩
  · exact H.file
  · exact ⟨text, hshut.file, h⟩

theorem LogHolds.wf (H : LogHolds I w) : w.fs.WF := by
  rcases H with ⟨-, commands, lines, hphase, -⟩ | ⟨text, hshut, -⟩
  · exact wf_of_phase hphase
  · exact hshut.wf

theorem LogHolds.stop (H : LogHolds I w) (hr : w.rewriting = none) :
    ∃ text, w.stop.2 = true ∧ Shut text w.stop.1 ∧ I text := by
  rcases H with ⟨-, commands, lines, hphase, h⟩ | ⟨text, hshut, h⟩
  · obtain ⟨i, hserving⟩ := hphase.fst_of_idle hr
    obtain ⟨hok, hshut⟩ := shut_stop hserving hr
    exact ⟨_, hok, hshut, h⟩
  · exact ⟨text, hshut.stop.1, hshut.stop.2, h⟩

end

end Recovery

/-! ## One command -/

open Recovery

namespace Execution

/-- If the command is logged its line gets into the file, and a rewrite has a log to replace. -/
structure Lands (x : Execution) : Prop where
  kept : x.logged = true → ∀ w ∈ x.handler.aofWriter, w.fd.isSome = true ∧ w.exposed = false
  rewrite : x.compacts = true → ∀ w ∈ x.handler.aofWriter, w.fd.isSome = true

instance (x : Execution) : Decidable x.Lands :=
  decidable_of_iff ((x.logged = true →
      ∀ w ∈ x.handler.aofWriter, w.fd.isSome = true ∧ w.exposed = false) ∧
      (x.compacts = true → ∀ w ∈ x.handler.aofWriter, w.fd.isSome = true))
    ⟨fun ⟨h1, h2⟩ => ⟨h1, h2⟩, fun ⟨h1, h2⟩ => ⟨h1, h2⟩⟩

end Execution

namespace Recovery

/-- The relation `I` of stores `S` to the text of the log follows the commands that satisfy `Q`. -/
structure Follows (S : InMemoryStore → Prop) (I : InMemoryStore → Str → Prop)
    (Q : Execution → Prop) : Prop where
  lockstep : ∀ {s}, S s → s.Lockstep
  lands : ∀ {x : Execution}, Q x → x.Lands
  decays : ∀ {s s'} {T : Int → Prop}, S s → Decays T s s' →
    S s' ∧ ∀ {text}, I s text → I s' text
  mutates : ∀ {x : Execution} {key f}, S x.handler.store → Q x →
    parseCommand x.item.line = .ok x.item.command →
    x.item.command.mutation (x.clocks 0) = some (key, f) →
    S (x.handler.store.perform key (x.clocks 0) f).1 ∧ ∀ {text}, I x.handler.store text →
      I (x.handler.store.perform key (x.clocks 0) f).1
        (if x.logged then text ++ format x.item.line else text)
  rewrites : ∀ {x : Execution}, S x.handler.store → Q x → x.item.command = .bgrewriteaof →
    I (rewriteCommands x.handler.store x.clocks).1
      (commandText (rewriteCommands x.handler.store x.clocks).2)

/-- The log says `I` of the store. -/
structure Logs (S : InMemoryStore → Prop) (I : InMemoryStore → Str → Prop) (path : Str)
    (h : CommandHandler AofWriter) : Prop where
  store : S h.store
  writer : ∃ w, h.aofWriter = some w ∧ w.path = path ∧ LogHolds (I h.store) w

section

variable {S : InMemoryStore → Prop} {I : InMemoryStore → Str → Prop} {Q : Execution → Prop}
  {path : Str} {h : CommandHandler AofWriter}

theorem Logs.congr (H : Logs S I path h) {h' : CommandHandler AofWriter} (hs : h'.store = h.store)
    (hw : h'.aofWriter = h.aofWriter) : Logs S I path h' := by
  obtain ⟨hstore, hwriter⟩ := H
  rw [← hs] at hstore hwriter
  rw [← hw] at hwriter
  exact ⟨hstore, hwriter⟩

theorem Logs.text (H : Logs S I path h) : ∃ text, logFile h = some text ∧ I h.store text := by
  obtain ⟨w, hw, -, hI⟩ := H.writer
  obtain ⟨text, hread, h⟩ := hI.file
  refine ⟨text, ?_, h⟩
  rw [logFile, hw]
  exact hread

theorem Follows.execute (F : Follows S I Q) (H : Logs S I path h) {item : QueuedCommand}
    {clocks : Clocks} (hp : parseCommand item.line = .ok item.command) (hq : Q ⟨h, item, clocks⟩)
    (connection : ClientConnection) :
    Logs S I path (h.executeCommand item.command item.line connection clocks).1 := by
  obtain ⟨w, hw, hpath, hI⟩ := H.writer
  have hL := F.lockstep H.store
  have hlands := F.lands hq
  by_cases hmut : item.command.mutates = true
  · obtain ⟨key, f, hmu⟩ : ∃ key f, item.command.mutation (clocks 0) = some (key, f) :=
      Command.mutates_iff.mp hmut
    obtain ⟨reply, he⟩ := CommandHandler.executeCommand_mutation hL hmu item.line connection
    obtain ⟨hstore, htext⟩ := F.mutates H.store hq hp hmu
    have hlogged := Execution.logged_eq (x := ⟨h, item, clocks⟩) hmu
    rw [he, hL.perform_snd, ← hlogged, CommandHandler.finish]
    cases hl : Execution.logged ⟨h, item, clocks⟩ with
    | false =>
      rw [hl] at htext
      rw [if_neg Bool.false_ne_true]
      exact ⟨hstore, w, hw, hpath, hI.imp htext⟩
    | true =>
      rw [hl] at htext
      obtain ⟨hfd, hexposed⟩ := hlands.kept hl w hw
      rcases hI with hB | ⟨text, hshut, -⟩
      · obtain ⟨hok, hB'⟩ := hB.write hexposed item.line htext
        have hwrite : AofSink.write w item.line = ((w.write item.line).1, true) := by
          rw [← hok]
          rfl
        simp only [if_true, CommandHandler.writeAof, hw, hwrite]
        exact ⟨hstore, _, rfl, (path_write w item.line).trans hpath, .inl hB'⟩
      · rw [hshut.fd] at hfd
        cases hfd
  · have hread : item.command.mutates = false := Bool.eq_false_of_not_eq_true hmut
    by_cases hrewrite : item.command = .bgrewriteaof
    · obtain ⟨hstore, htext⟩ := F.decays H.store
        (hL.decays_rewrite (T := clocks.Reads) (fun i j => ⟨i, j, rfl⟩) w)
      have hnew := F.rewrites H.store hq hrewrite
      have hcommand : (h.executeCommand item.command item.line connection clocks).1 =
          { h with
            aofWriter := some (w.rewrite h.store clocks).1
            store := (w.rewrite h.store clocks).2 } := by
        rw [hrewrite]
        simp only [CommandHandler.executeCommand, hw]
        rfl
      rw [hcommand]
      refine ⟨hstore, _, rfl, (path_rewrite w h.store clocks).trans hpath, ?_⟩
      rcases hI with hB | ⟨text, hshut, -⟩
      · refine .inl (hB.rewrite h.store clocks htext fun hr => ?_)
        have hstore : (w.rewrite h.store clocks).2 = (rewriteCommands h.store clocks).1 := by
          simp [AofWriter.rewrite, hr]
        rw [hstore]
        exact hnew
      · have hcompacts : Execution.compacts ⟨h, item, clocks⟩ = true := by
          simp [Execution.compacts, hrewrite, hw, hshut.idle]
        have hfd := hlands.rewrite hcompacts w hw
        rw [hshut.fd] at hfd
        cases hfd
    · have ho := CommandHandler.executeCommand_read hL hread hrewrite item.line connection clocks
      obtain ⟨hstore, htext⟩ := F.decays H.store ho.store
      exact ⟨hstore, w, ho.log.trans hw, hpath, hI.imp htext⟩

end

end Recovery

/-! ## One event -/

namespace Server

/-- The commands of the event satisfy `Q`; it is neither a failure of a rewrite that has closed the
log, nor a signal while a rewrite is under way. -/
structure Orderly (Q : Execution → Prop) (st : Server) (e : ServerEvent) : Prop where
  commands : ∀ x ∈ st.executionsOf e, Q x
  rejected : e = .rewriteRejected → ∀ w ∈ st.handler.aofWriter, w.rewriting ≠ some .rename
  signal : (∃ clocks, e = .signal clocks) → ∀ w ∈ st.handler.aofWriter, w.rewriting = none

section

variable {Q Q' : Execution → Prop} {st : Server} {e : ServerEvent}

theorem Orderly.imp (H : st.Orderly Q e) (h : ∀ {x}, Q x → Q' x) : st.Orderly Q' e :=
  ⟨fun x hx => h (H.commands x hx), H.rejected, H.signal⟩

theorem orderly_send {text : String} (h : ∀ x ∈ st.executionsOf (send text), Q x) :
    st.Orderly Q (send text) :=
  ⟨h, fun he => (by cases he), fun ⟨_, he⟩ => by cases he⟩

theorem orderly_settled : st.Orderly Q .rewriteSettled :=
  ⟨fun _ h => absurd h List.not_mem_nil, fun he => (by cases he), fun ⟨_, he⟩ => by cases he⟩

end

variable {S : InMemoryStore → Prop} {I : InMemoryStore → Str → Prop} {Q : Execution → Prop}
  {path : Str}

theorem aofWriter_signal {st : Server} (hp : st.phase = .serving) {w : AofWriter}
    (hw : st.handler.aofWriter = some w) (hok : w.stop.2 = true) (clocks : Clocks) :
    (st.next (.signal clocks)).handler.aofWriter = some w.stop.1 := by
  have hne : st.phase ≠ .exited := by
    rw [hp]
    decide
  have hstop : w.stop = (w.stop.1, true) := Prod.ext rfl hok
  rw [Server.next, if_neg hne, step, if_pos hp]
  simp only [shutdown, hw, Option.map_some]
  rw [hstop]
  exact startSave_aofWriter _ clocks

/-- Any other event than a line leaves the writer alone, lets the rewrite go on, or closes the
log. -/
theorem aofWriter_next {st : Server} {e : ServerEvent}
    (he : ∀ text connection clocks, e ≠ .line text connection clocks) :
    (st.next e).handler.aofWriter = st.handler.aofWriter ∨
      e = .rewriteSettled ∧ (st.next e).handler.aofWriter = st.handler.aofWriter.map (·.settle) ∨
      e = .rewriteRejected ∧ (st.next e).handler.aofWriter = st.handler.aofWriter.map (·.reject) ∨
      (∃ clocks, e = .signal clocks) ∧ st.phase = .serving := by
  by_cases hexited : st.phase = .exited
  · rw [Server.next, if_pos hexited]
    exact .inl rfl
  rw [Server.next, if_neg hexited]
  cases e with
  | line text connection clocks => exact absurd rfl (he text connection clocks)
  | rewriteSettled => exact .inr (.inl ⟨rfl, rfl⟩)
  | rewriteRejected => exact .inr (.inr (.inl ⟨rfl, rfl⟩))
  | signal clocks =>
    by_cases hp : st.phase = .serving
    · exact .inr (.inr (.inr ⟨⟨clocks, rfl⟩, hp⟩))
    · rw [step, if_neg hp]
      exact .inl rfl
  | sweep | statsStopped | serverClosed =>
    left
    simp only [step]
    split <;> rfl
  | tick clocks =>
    left
    rcases step_tick st clocks with e | e <;> rw [e]
    exact startSave_aofWriter _ clocks
  | saveDone | saveFailed =>
    left
    simp only [step, endSave]
    split
    · rfl
    · split <;> rfl
  | close => exact .inl rfl

theorem follows_next (F : Follows S I Q) {st : Server} (hq : st.handler.Parsed)
    (H : Logs S I path st.handler) {e : ServerEvent} (hc : st.Orderly Q e) :
    Logs S I path (st.next e).handler := by
  have hL := F.lockstep H.store
  by_cases hline : ∃ text connection clocks, e = .line text connection clocks
  · obtain ⟨text, connection, clocks, rfl⟩ := hline
    cases hl : st.listening with
    | false =>
      rw [next_deaf hl]
      exact H
    | true =>
      obtain ⟨hstore, hlog, -, -⟩ := st.handler.route_data text connection
      have hcommands := hc.commands
      rw [executionsOf, if_pos hl] at hcommands
      rw [(next_line hl text connection clocks).1,
        (st.handler.handleLine_executed text connection clocks).1]
      exact executions_rule (P := fun _ h => Logs S I path h) (Q := Q)
        (fun H hp hq => F.execute H hp hq connection) _ 0 [] (H.congr hstore hlog)
        (CommandHandler.route_parsed hq text connection).2 hcommands
  · have hother : ∀ text connection clocks, e ≠ .line text connection clocks :=
      fun text connection clocks h => hline ⟨text, connection, clocks, h⟩
    obtain ⟨w, hw, hpath, hI⟩ := H.writer
    obtain ⟨hstore, htext⟩ := F.decays H.store (decays_next hL hother)
    rcases aofWriter_next hother with e' | ⟨rfl, e'⟩ | ⟨rfl, e'⟩ | ⟨⟨clocks, rfl⟩, hp⟩
    · exact ⟨hstore, w, e'.trans hw, hpath, hI.imp htext⟩
    · refine ⟨hstore, w.settle, ?_, (path_settle w).trans hpath, ?_⟩
      · rw [e', hw]
        rfl
      · rcases hI with hB | ⟨text, hshut, h⟩
        · exact .inl (hB.settle.imp htext)
        · exact .inr ⟨text, hshut.settle, htext h⟩
    · refine ⟨hstore, w.reject, ?_, hpath, ?_⟩
      · rw [e', hw]
        rfl
      · rcases hI with hB | ⟨text, hshut, h⟩
        · exact .inl ((hB.reject (hc.rejected rfl w hw)).imp htext)
        · exact .inr ⟨text, hshut.reject, htext h⟩
    · obtain ⟨text, hok, hshut, h⟩ := hI.stop (hc.signal ⟨clocks, rfl⟩ w hw)
      have hpath' : w.stop.1.path = path := by
        rw [← hpath]
        unfold AofWriter.stop
        split
        · rfl
        · split <;> rfl
      exact ⟨hstore, w.stop.1, aofWriter_signal hp hw hok clocks, hpath',
        .inr ⟨text, hshut, htext h⟩⟩

/-! ## A run -/

/-- The server on files that it starts from, or has left before. -/
theorem logs_main {fs : Fs} (hfs : fs.WF) (fsyncPolicy : FsyncPolicy)
    {h : CommandHandler AofWriter} (hs : S h.store) (hI : I h.store ((fs.read path).getD [])) :
    Logs S I path (main h path fsyncPolicy fs).handler := by
  obtain ⟨text, hp⟩ := phase_start hfs path fsyncPolicy
  have hone : commandText [] ++ [text].flatten = text := by
    rw [List.flatten_singleton]
    rfl
  obtain ⟨i, hserving⟩ := hp.fst_of_idle rfl
  have hread : (AofWriter.create path fsyncPolicy fs).start.fs.read path = some text := by
    have hserved := hserving.read
    rw [hone] at hserved
    exact hserved
  obtain rfl : (fs.read path).getD [] = text :=
    Option.some.inj ((Fs.read_openAppend hfs path).symm.trans hread)
  exact ⟨hs, _, rfl, rfl, .inl ⟨⟨_, hread, hI⟩, [], _, hp, hone.symm ▸ hI⟩⟩

/-- At every moment of an orderly run the log says of the store what it said at the start. -/
theorem follows_along (F : Follows S I Q) {st0 : Server} (hparsed : st0.handler.Parsed)
    (hstart : Logs S I path st0.handler) {events : List ServerEvent}
    (horderly : Trace.Along next (Orderly Q) st0 events) {past : List ServerEvent}
    (hpast : past <+: events) :
    (st0.run past).handler.Parsed ∧ Logs S I path (st0.run past).handler :=
  Trace.Along.reached (J := fun st => st.handler.Parsed ∧ Logs S I path st.handler)
    (fun hj hc => ⟨parsed_next hj.1 _, follows_next F hj.1 hj.2 hc⟩) ⟨hparsed, hstart⟩ horderly
    hpast

end Server

end MiniStore
