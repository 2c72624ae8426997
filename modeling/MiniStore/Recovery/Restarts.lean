import MiniStore.Recovery.LiveLog
import MiniStore.Store.Recency
import MiniStore.Store.Sweeps

/-!
# Lives of the server

A life goes through any number of crashes, also in the middle of a rewrite of the log. After each
the server starts on the files that are left, with no sessions (`Setup.start`). Where the log is an
image of the store, the crashes leave no trace in the data: what the store holds and answers is
what a store would that has executed the same commands without ever stopping (`crashes_invisible`).
-/

namespace MiniStore

open InMemoryStore Text

/-- What a crash leaves of the files: every descriptor is gone. -/
def Fs.closed (fs : Fs) : Fs := { fs with fds := [] }

/-- The configuration, as far as the data depends on it. -/
structure Setup where
  maxKeys : Nat
  positive : 1 ≤ maxKeys
  requirepass : Option Str
  disabledCommands : List Str
  aofPath : Str
  aofFsync : FsyncPolicy

/-- What can happen to the server, crashes included. -/
inductive LifeEvent where
  | event (e : ServerEvent)
  | crash (restoreClocks : Clocks) (clocks : Nat → Nat → Clocks)

open Recovery

namespace Setup

/-- `main()` on a dump and the files of the log. -/
def start (c : Setup) (dump : Option Dump) (fs : Fs) (restoreClocks : Clocks)
    (clocks : Nat → Nat → Clocks) : Server :=
  Server.main
    (CommandHandler.create
      (startup c.maxKeys c.positive dump (readLines ((fs.read c.aofPath).getD [])) restoreClocks
        clocks)
      (some ((PersistenceManager.create dump).restore (create c.maxKeys c.positive)
        restoreClocks).1)
      none (some PubSubManager.empty) c.requirepass c.disabledCommands)
    c.aofPath c.aofFsync fs

def dumpOf (st : Server) : Option Dump := st.handler.persistenceManager.bind (·.dumpFile)

def filesOf (st : Server) : Fs := (st.handler.aofWriter.map (·.fs)).getD Fs.empty

def lifeStep (c : Setup) (st : Server) : LifeEvent → Server
  | .event e => st.next e
  | .crash restoreClocks clocks => c.start (dumpOf st) (filesOf st).closed restoreClocks clocks

def executionsOf (st : Server) : LifeEvent → List Execution
  | .event e => st.executionsOf e
  | .crash .. => []

/-- An event is careful and completes no dump. -/
def Careful (c : Setup) (st : Server) : LifeEvent → Prop
  | .event e => st.Careful c.maxKeys e ∧ e ≠ .saveDone
  | .crash .. => True

end Setup

namespace Execution

def serve (s : InMemoryStore) (e : Execution) : InMemoryStore :=
  ((replayHandler s).executeCommand e.item.command e.item.line replayConnection e.clocks).1.store

end Execution

def served (s : InMemoryStore) (es : List Execution) : InMemoryStore := es.foldl Execution.serve s

theorem served_snoc (s : InMemoryStore) (es : List Execution) (e : Execution) :
    served s (es ++ [e]) = Execution.serve (served s es) e := by
  rw [served, List.foldl_append]
  rfl

/-! ## One command on both stores -/

namespace Recovery

section

variable {live other : InMemoryStore} (h : Mirrors live other)

include h

theorem Mirrors.symm : Mirrors other live :=
  ⟨fun k => by rw [h.cell]; exact h.permanent k, fun k => (h.cell k).symm⟩

theorem Mirrors.trans {third : InMemoryStore} (h' : Mirrors other third) : Mirrors live third :=
  ⟨h.permanent, fun k => (h'.cell k).trans (h.cell k)⟩

theorem Mirrors.decays_right {T : Int → Prop} {other' : InMemoryStore} (hd : Decays T other other') :
    Mirrors live other' := (h.symm.decays hd).symm

theorem Mirrors.perform_both (hl : live.Lockstep) (ho : other.Lockstep)
    (hmax : other.maxKeys = live.maxKeys) (hroom : live.size < live.maxKeys) {key : Str}
    {now : Clock} {f : Option Cell → Effect × Bool}
    (hp : Cell.Permanent ((f (live.cell key)).1.action.onCell (live.cell key))) :
    Mirrors (live.perform key now f).1 (other.perform key now f).1 := by
  have hsize : other.size < other.maxKeys := by
    rw [hmax, ho.size_eq hl fun k => by rw [h.cell]]
    exact hroom
  have hp' : Cell.Permanent (other.cell key) := by
    rw [h.cell]
    exact h.permanent key
  refine ⟨fun k => ?_, fun k => ?_⟩
  · rw [hl.cell_perform_permanent (h.permanent key) hroom]
    split
    · exact hp
    · exact h.permanent k
  · rw [hl.cell_perform_permanent (h.permanent key) hroom, ho.cell_perform_permanent hp' hsize,
      h.cell key, h.cell k]

end

end Recovery

/-- The store holds what a store holds that has executed the commands of the life so far. -/
structure Undisturbed (c : Setup) (past : List Execution) (s : InMemoryStore) : Prop where
  mirrors : Mirrors s (served (create c.maxKeys c.positive) past)
  lockstep : (served (create c.maxKeys c.positive) past).Lockstep
  maxKeys : (served (create c.maxKeys c.positive) past).maxKeys = c.maxKeys

section

variable {c : Setup} {past : List Execution} {h : CommandHandler AofWriter}
  (H : Undisturbed c past h.store)

include H

theorem Undisturbed.decays {T : Int → Prop} {s' : InMemoryStore} (hd : Decays T h.store s') :
    Undisturbed c past s' := ⟨H.mirrors.decays hd, H.lockstep, H.maxKeys⟩

theorem Undisturbed.execute (hs : Storable c.maxKeys h.store) {item : QueuedCommand}
    {clocks : Clocks} (hp : parseCommand item.line = .ok item.command)
    (hc : Execution.Careful c.maxKeys ⟨h, item, clocks⟩) (connection : ClientConnection) :
    Undisturbed c (past ++ [⟨h, item, clocks⟩])
      (h.executeCommand item.command item.line connection clocks).1.store := by
  have hL := hs.lockstep
  by_cases hmut : item.command.mutates = true
  · obtain ⟨key, f, hmu⟩ : ∃ key f, item.command.mutation (clocks 0) = some (key, f) :=
      Command.mutates_iff.mp hmut
    -- whatever is logged, the store is the same
    have hstore : ∀ {W : Type} [AofSink W] (h : CommandHandler W), h.store.Lockstep →
        ∀ connection, (h.executeCommand item.command item.line connection clocks).1.store =
          (h.store.perform key (clocks 0) f).1 := by
      intro W _ h hL connection
      obtain ⟨reply, he⟩ := CommandHandler.executeCommand_mutation hL hmu item.line connection
      obtain ⟨w, hw⟩ := CommandHandler.finish_fst h (h.store.perform key (clocks 0) f).1
        (h.store.perform key (clocks 0) f).2 item.line reply
      rw [he, hw]
    have hroom : h.store.size < h.store.maxKeys := by
      rw [hs.maxKeys]
      exact hc.tame.room
    have hserve : served (create c.maxKeys c.positive) (past ++ [⟨h, item, clocks⟩]) =
        ((served (create c.maxKeys c.positive) past).perform key (clocks 0) f).1 :=
      (served_snoc _ _ _).trans (hstore (replayHandler _) H.lockstep replayConnection)
    rw [hstore h hL connection]
    refine ⟨hserve ▸ ?_, hserve ▸ H.lockstep.perform (Command.mutation_fits hmu), ?_⟩
    · refine H.mirrors.perform_both hL H.lockstep (H.maxKeys.trans hs.maxKeys.symm) hroom ?_
      exact hc.tame.permanent rfl (wf_of_parseCommand hp) hmu (hs.noEmpty key) (hs.permanent key)
    · rw [hserve, H.lockstep.maxKeys_perform, H.maxKeys]
  · have hread : item.command.mutates = false := Bool.eq_false_of_not_eq_true hmut
    -- a rewrite reads the store, and the other store has no log
    have hdecays : Decays (fun _ => True) h.store
          (h.executeCommand item.command item.line connection clocks).1.store ∧
        Decays (fun _ => True) (served (create c.maxKeys c.positive) past)
          (served (create c.maxKeys c.positive) (past ++ [⟨h, item, clocks⟩])) := by
      rw [served_snoc]
      by_cases hrewrite : item.command = .bgrewriteaof
      · simp only [Execution.serve, hrewrite]
        refine ⟨?_, H.lockstep.decays_refl⟩
        cases hw : h.aofWriter with
        | none =>
          simp only [CommandHandler.executeCommand, hw]
          exact hL.decays_refl
        | some w =>
          simp only [CommandHandler.executeCommand, hw]
          exact hL.decays_rewrite (fun _ _ => trivial) w
      · exact ⟨(CommandHandler.executeCommand_read hL hread hrewrite item.line connection
          clocks).store.mono fun _ _ => trivial,
          (CommandHandler.executeCommand_read (h := replayHandler _) H.lockstep hread hrewrite
            item.line replayConnection clocks).store.mono fun _ _ => trivial⟩
    obtain ⟨hlive, hserve⟩ := hdecays
    exact ⟨(H.mirrors.decays hlive).decays_right hserve, hserve.lockstep,
      hserve.maxKeys.trans H.maxKeys⟩

end

/-! ## No dump on the disk -/

theorem dumpFile_save {pm : PersistenceManager} (s : InMemoryStore) (clocks : Clocks) :
    (pm.save s clocks).1.dumpFile = pm.dumpFile := by
  unfold PersistenceManager.save
  split <;> rfl

theorem dumpFile_startSave (h : CommandHandler AofWriter) (clocks : Clocks) :
    (Server.startSave h clocks).1.persistenceManager.bind (·.dumpFile) =
      h.persistenceManager.bind (·.dumpFile) := by
  unfold Server.startSave
  cases hpm : h.persistenceManager with
  | none =>
    dsimp only
    rw [hpm]
  | some pm => exact dumpFile_save h.store clocks

/-- BGSAVE begins a save, and no other command has to do with dumps. -/
theorem dumpFile_executeCommand (h : CommandHandler AofWriter) (c : Command) (line : Str)
    (connection : ClientConnection) (clocks : Clocks) :
    (h.executeCommand c line connection clocks).1.persistenceManager.bind (·.dumpFile) =
      h.persistenceManager.bind (·.dumpFile) := by
  by_cases hc : c = .bgsave
  · subst hc
    unfold CommandHandler.executeCommand
    cases hpm : h.persistenceManager with
    | none =>
      show h.persistenceManager.bind _ = _
      rw [hpm]
    | some pm => exact dumpFile_save h.store clocks
  · rw [(h.executeCommand_executes c line connection clocks).persistenceManager hc]

/-- Only a save that completes writes a dump. -/
theorem dumpOf_next {st : Server} {e : ServerEvent} (he : e ≠ .saveDone)
    (hnone : Setup.dumpOf st = none) : Setup.dumpOf (st.next e) = none := by
  unfold Server.next
  split
  · exact hnone
  cases e with
  | line text connection clocks =>
    cases hl : st.listening with
    | false =>
      simp only [Server.step, hl, Bool.false_eq_true, if_false]
      exact hnone
    | true =>
      rw [Setup.dumpOf, (Server.step_line hl text connection clocks).1,
        (st.handler.handleLine_executed text connection clocks).1]
      refine CommandHandler.executeQueue_rule
        (P := fun h => h.persistenceManager.bind (·.dumpFile) = none) (Q := fun _ => True)
        (fun {h item} clocks H _ =>
          (dumpFile_executeCommand h item.command item.line connection clocks).trans H)
        clocks _ 0 ?_ fun _ _ => trivial
      rw [(st.handler.route_data text connection).2.2.1]
      exact hnone
  | tick clocks =>
    rcases Server.step_tick st clocks with e | e <;> rw [e]
    · exact hnone
    · exact (dumpFile_startSave st.handler clocks).trans hnone
  | saveDone => exact absurd rfl he
  | saveFailed =>
    simp only [Server.step, Server.endSave]
    split
    · exact hnone
    · next pm hpm =>
      rw [Setup.dumpOf, hpm] at hnone
      split
      · rw [Setup.dumpOf, hpm]
        exact hnone
      · exact hnone
  | signal clocks =>
    simp only [Server.step, Server.shutdown]
    split
    · split
      · exact hnone
      · next w _ =>
        exact (dumpFile_startSave { st.handler with aofWriter := some w } clocks).trans hnone
      · exact (dumpFile_startSave st.handler clocks).trans hnone
    · exact hnone
  | sweep | statsStopped | serverClosed =>
    simp only [Server.step]
    split <;> exact hnone
  | rewriteSettled | rewriteRejected | close => exact hnone

/-! ## Whole lives -/

/-- What holds at every point of a life. -/
structure Living (c : Setup) (past : List Execution) (st : Server) : Prop where
  parsed : st.handler.Parsed
  live : Server.Live c.maxKeys c.positive c.aofPath st.handler
  noDump : Setup.dumpOf st = none
  undisturbed : Undisturbed c past st.handler.store

section

variable {c : Setup} {past : List Execution} {st : Server}

theorem Living.event (H : Living c past st) {e : ServerEvent} (hc : st.Careful c.maxKeys e)
    (he : e ≠ .saveDone) : Living c (past ++ st.executionsOf e) (st.next e) := by
  refine ⟨Server.parsed_next H.parsed e,
    Server.follows_next (follows_image c.maxKeys c.positive) H.parsed H.live hc.orderly,
    dumpOf_next he H.noDump, ?_⟩
  by_cases hline : ∃ text connection clocks, e = .line text connection clocks
  · obtain ⟨text, connection, clocks, rfl⟩ := hline
    have hcommands := hc.orderly.commands
    cases hl : st.listening with
    | false =>
      have hnone : st.executionsOf (.line text connection clocks) = [] := by
        simp only [Server.executionsOf, hl, Bool.false_eq_true, if_false]
      rw [hnone, List.append_nil, Server.next_deaf hl]
      exact H.undisturbed
    | true =>
      obtain ⟨hstore, hlog, -, -⟩ := st.handler.route_data text connection
      rw [Server.executionsOf, if_pos hl] at hcommands ⊢
      rw [(Server.next_line hl text connection clocks).1,
        (st.handler.handleLine_executed text connection clocks).1]
      refine (Server.executions_rule (P := fun es h =>
          Server.Live c.maxKeys c.positive c.aofPath h ∧ Undisturbed c es h.store)
        (Q := Execution.Careful c.maxKeys) (fun {es h item clocks} H hp hc =>
          ⟨(follows_image c.maxKeys c.positive).execute H.1 hp hc connection,
            H.2.execute H.1.store hp hc connection⟩) _ 0 past
        ⟨H.live.congr hstore hlog, ?_⟩
        (CommandHandler.route_parsed H.parsed text connection).2 hcommands).2
      rw [hstore]
      exact H.undisturbed
  · have hother : ∀ text connection clocks, e ≠ .line text connection clocks :=
      fun text connection clocks h => hline ⟨text, connection, clocks, h⟩
    have hnone : st.executionsOf e = [] := by
      cases e with
      | line text connection clocks => exact absurd rfl (hother text connection clocks)
      | _ => rfl
    rw [hnone, List.append_nil]
    exact H.undisturbed.decays (Server.decays_next H.live.store.lockstep hother)

theorem living_start {s : InMemoryStore} {fs : Fs} (hfs : fs.WF) (hs : Storable c.maxKeys s)
    (hI : Image c.maxKeys c.positive s ((fs.read c.aofPath).getD [])) (hu : Undisturbed c past s)
    (restoreClocks : Clocks) (clocks : Nat → Nat → Clocks) :
    Living c past (c.start none fs restoreClocks clocks) := by
  have hsame := hI.mirrors clocks
  have h0 := lockstep_create c.maxKeys c.positive
  have hlock := lockstep_replay h0 hI.logged clocks
  have hmax := maxKeys_replay h0 hI.logged clocks
  refine ⟨fun id queue hq => (by cases hq), Server.logs_main hfs c.aofFsync ?_ ?_, rfl, ?_⟩
  · refine ⟨⟨hlock, hmax, fun k => ?_, fun k hk => ?_, fun k => ?_⟩, fun k => ?_⟩
    · exact (hsame.cell k).symm ▸ hs.noEmpty k
    · exact hs.token k (hsame.cell k ▸ hk)
    · exact (hsame.cell k).symm ▸ hs.spelled k
    · exact (hsame.cell k).symm ▸ hs.permanent k
  · exact ⟨hI.complete, hI.logged, fun clk => hsame.symm.trans (hI.mirrors clk)⟩
  · exact ⟨hsame.symm.trans hu.mirrors, hu.lockstep, hu.maxKeys⟩

theorem Living.crash (H : Living c past st) (restoreClocks : Clocks)
    (clocks : Nat → Nat → Clocks) :
    Living c past (c.lifeStep st (.crash restoreClocks clocks)) := by
  obtain ⟨w, hw, hpath, hlog⟩ := H.live.writer
  obtain ⟨text, hread, hI⟩ := hlog.file
  have hfiles : Setup.filesOf st = w.fs := by
    rw [Setup.filesOf, hw]
    rfl
  have htext : ((Setup.filesOf st).closed.read c.aofPath).getD [] = text := by
    rw [hfiles, ← hpath]
    show (w.fs.read w.path).getD [] = text
    rw [hread]
    rfl
  rw [Setup.lifeStep, H.noDump]
  refine living_start ?_ H.live.store (htext.symm ▸ hI) H.undisturbed restoreClocks clocks
  rw [hfiles]
  exact hlog.wf.of_names rfl rfl

end

end MiniStore
