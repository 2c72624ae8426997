import MiniStore.Protocol.Printing
import MiniStore.Recovery.CompleteLog
import MiniStore.Recovery.Framing

/-!
# A log cut off in the middle of a line

A crash may leave any number of bytes of the log. Its complete lines replay to the state
after as many logged commands (`Recovers`); the rest of a line is read as a line of its
own, and after a restart as the beginning of the next one that is logged. So a log can be
cut and written on just when it is cut behind a complete line (`torn_log_iff`).
-/

namespace MiniStore

open InMemoryStore Text CommandParser Engine

/-- SET without EX, DEL, LPUSH and RPUSH. -/
def Command.plain : Command → Bool
  | .set _ _ none | .del _ | .lpush .. | .rpush .. => true
  | _ => false

theorem Command.mutates_of_plain {c : Command} (h : c.plain = true) : c.mutates = true := by
  cases c with
  | set | del | lpush | rpush => rfl
  | _ => cases h

theorem Command.timeless_of_plain {c : Command} (h : c.plain = true) : c.timeless = true := by
  cases c with
  | set k v n =>
    cases n with
    | none => rfl
    | some n => cases h
  | del | lpush | rpush => rfl
  | _ => cases h

theorem Command.present_of_logged {c : Command} (h : c.plain = true) {now : Clock} {key : Str}
    {f : Option Cell → Effect × Bool} (hm : c.mutation now = some (key, f)) {x : Option Cell}
    (hl : (f x).2 = true) : x ≠ none ∨ (f x).1.action.onCell x ≠ none := by
  cases x with
  | some y => exact .inl (Option.some_ne_none y)
  | none =>
    cases c with
    | set k v n => cases hm; exact .inr (Option.some_ne_none _)
    | del => cases hm; cases hl
    | lpush | rpush => cases hm; exact .inr (Option.some_ne_none _)
    | _ => cases h

namespace Recovery

/-- An executed command, its connection and its clocks. -/
structure Request where
  item : QueuedCommand
  connection : ClientConnection
  clocks : Clocks

def execute (h : CommandHandler AofWriter) (r : Request) : CommandHandler AofWriter :=
  (h.executeCommand r.item.command r.item.line r.connection r.clocks).1

def serve (h : CommandHandler AofWriter) (requests : List Request) : CommandHandler AofWriter :=
  requests.foldl execute h

/-- A plain command on one line. -/
structure Request.Plain (r : Request) : Prop where
  parsed : parseCommand r.item.line = .ok r.item.command
  plain : r.item.command.plain = true
  oneLine : ∀ c ∈ trim r.item.line, isBreak c = false

/-- At no time there are `maxKeys` keys. -/
def Roomy (maxKeys : Nat) (h : CommandHandler AofWriter) (requests : List Request) : Prop :=
  ∀ j ≤ requests.length, (serve h (requests.take j)).store.size < maxKeys

def logFile (h : CommandHandler AofWriter) : Option Str :=
  h.aofWriter.bind fun w => w.fs.read w.path

/-- What `main` does when a crash has left `text` in the log of `w`: replay it into a new
store, and open the log again. -/
def restart (maxKeys : Nat) (hm : 1 ≤ maxKeys) (pm : Option PersistenceManager)
    (pubSub : Option PubSubManager) (requirepass : Option Str) (disabledCommands : List Str)
    (w : AofWriter) (text : Str) (clocks : Nat → Nat → Clocks) : CommandHandler AofWriter :=
  CommandHandler.create (replay (create maxKeys hm) (readLines text) clocks) pm
    (some (AofWriter.create w.path w.fsyncPolicy (w.fs.writeFile w.path text)).start) pubSub
    requirepass disabledCommands

/-! ## Complete lines -/

/-- A handler whose log holds `text`: complete lines that replay to its store, in which
no key has a deadline. -/
structure Recovers (maxKeys : Nat) (hm : 1 ≤ maxKeys) (i : Nat) (h : CommandHandler AofWriter)
    (text : Str) : Prop where
  serving : ∃ w, h.aofWriter = some w ∧ w.Serving i text
  complete : Complete text
  logged : ∀ l ∈ readLines text, Mutating l
  lockstep : h.store.Lockstep
  sameMax : h.store.maxKeys = maxKeys
  noEmpty : NoEmpty h.store
  spelled : ∀ k, h.store.cell k ≠ none → IsToken k
  mirrors : ∀ clocks, Mirrors h.store (replay (create maxKeys hm) (readLines text) clocks)

section

variable {maxKeys : Nat} {hm : 1 ≤ maxKeys} {i : Nat} {h : CommandHandler AofWriter} {text : Str}

theorem logFile_serving {w : AofWriter} (hw : h.aofWriter = some w) (hs : w.Serving i text) :
    logFile h = some text := by
  rw [logFile, hw, Option.bind_some, Fs.read, hs.name]
  exact hs.content

theorem Recovers.logFile (H : Recovers maxKeys hm i h text) : logFile h = some text := by
  obtain ⟨w, hw, hs⟩ := H.serving
  exact logFile_serving hw hs

theorem execute_mutation {w : AofWriter} (hw : h.aofWriter = some w) (hs : w.Serving i text)
    (hL : h.store.Lockstep) {r : Request} {key : Str} {f : Option Cell → Effect × Bool}
    (hmu : r.item.command.mutation (r.clocks 0) = some (key, f)) :
    (execute h r).store = (h.store.perform key (r.clocks 0) f).1 ∧
      ∃ w', (execute h r).aofWriter = some w' ∧
        w'.Serving i (text ++ if (f (liveAt (r.clocks 0 0) (h.store.cell key))).2
          then AofWriter.format r.item.line else []) := by
  obtain ⟨reply, he⟩ := CommandHandler.executeCommand_mutation hL hmu r.item.line r.connection
  rw [← hL.perform_snd, execute, he, CommandHandler.finish]
  cases (h.store.perform key (r.clocks 0) f).2 with
  | false => exact ⟨rfl, w, hw, by simpa using hs⟩
  | true =>
    obtain ⟨w', e, hs', -⟩ := hs.write r.item.line
    have hsink : AofSink.write w r.item.line = (w', true) := e
    simp only [if_true, CommandHandler.writeAof, hw, hsink]
    exact ⟨trivial, w', rfl, hs'⟩

/-- A plain command either logs nothing and changes nothing, or it logs its line. -/
theorem Recovers.execute (H : Recovers maxKeys hm i h text) {r : Request} (hr : r.Plain)
    (hroom : h.store.size < maxKeys) :
    Recovers maxKeys hm i (execute h r) text ∨
      Recovers maxKeys hm i (execute h r) (text ++ AofWriter.format r.item.line) ∧
        (0 < h.store.size ∨ 0 < (Recovery.execute h r).store.size) := by
  obtain ⟨w, hw, hs⟩ := H.serving
  have hwf := wf_of_parseCommand hr.parsed
  obtain ⟨key, f, hmu⟩ : ∃ key f, r.item.command.mutation (r.clocks 0) = some (key, f) :=
    Command.mutates_iff.mp (Command.mutates_of_plain hr.plain)
  obtain ⟨hst, w', hw', hs'⟩ := execute_mutation hw hs H.lockstep hmu
  have hperm := (H.mirrors fun _ _ => Clocks.still 0).permanent
  rw [liveAt_permanent (hperm key)] at hs'
  have hL' : (Recovery.execute h r).store.Lockstep := by
    rw [hst]
    exact H.lockstep.perform (Command.mutation_fits hmu)
  have hmax : (Recovery.execute h r).store.maxKeys = maxKeys := by
    rw [hst, H.lockstep.maxKeys_perform, H.sameMax]
  have hn := hst ▸ noEmpty_perform H.lockstep H.noEmpty hwf hmu
  have hsp : ∀ k, (Recovery.execute h r).store.cell k ≠ none → IsToken k := by
    rw [hst]
    exact isToken_perform H.lockstep H.spelled hwf hmu
  have hroom' : h.store.size < h.store.maxKeys := by rw [H.sameMax]; exact hroom
  cases hlogged : (f (h.store.cell key)).2 with
  | false =>
    rw [hlogged, if_neg (by simp), List.append_nil] at hs'
    refine .inl ⟨⟨w', hw', hs'⟩, H.complete, H.logged, hL', hmax, hn, hsp, fun clocks => ?_⟩
    rw [hst]
    refine (H.mirrors clocks).perform_live H.lockstep hroom' ?_
    rcases Command.onCell_of_unlogged hwf hmu (H.noEmpty key) hlogged with
      e | ⟨pairs, m, d, hc, -⟩
    · exact e
    · have hp := hr.plain
      rw [hc] at hp
      cases hp
  | true =>
    rw [hlogged, if_pos rfl] at hs'
    have hread := readLines_append_format H.complete hr.oneLine
    have hp' : parseCommand (trim r.item.line) = .ok r.item.command := by
      rw [parseCommand_trim, hr.parsed]
    have hmut : Mutating (trim r.item.line) := ⟨_, hp', Command.mutates_of_plain hr.plain⟩
    refine .inr ⟨⟨⟨w', hw', hs'⟩, complete_append_format text _, ?_, hL', hmax, hn, hsp,
      fun clocks => ?_⟩, ?_⟩
    · rw [hread]
      exact fun l hl => (List.mem_append.mp hl).elim (H.logged l) fun hl =>
        List.mem_singleton.mp hl ▸ hmut
    · have hr0 := lockstep_create maxKeys hm
      have hc := Command.timeless_of_plain hr.plain
      have hmu' : r.item.command.mutation (clocks (readLines text).length 0 0) = some (key, f) :=
        (Command.mutation_timeless hc _ _).trans hmu
      rw [hread, replay_snoc hr0 H.logged clocks hp' hmu', hst]
      refine (H.mirrors clocks).perform H.lockstep (lockstep_replay hr0 H.logged clocks) ?_ hroom'
        hc hmu hmu'
      rw [maxKeys_replay hr0 H.logged, H.sameMax]
      rfl
    · refine (Command.present_of_logged hr.plain hmu hlogged).imp size_pos_of_cell fun hne => ?_
      refine size_pos_of_cell (k := key) ?_
      rw [hst, H.lockstep.cell_perform_self, liveAt_permanent (hperm key)]
      exact hne

end

/-! ## Runs -/

theorem serve_snoc (h : CommandHandler AofWriter) (requests : List Request) (r : Request) :
    serve h (requests ++ [r]) = execute (serve h requests) r := by
  rw [serve, List.foldl_append]
  rfl

theorem Roomy.init {maxKeys : Nat} {h : CommandHandler AofWriter} {requests : List Request}
    {r : Request} (hr : Roomy maxKeys h (requests ++ [r])) :
    Roomy maxKeys h requests ∧ (serve h requests).store.size < maxKeys ∧
      (execute (serve h requests) r).store.size < maxKeys := by
  have hlen : (requests ++ [r]).length = requests.length + 1 := by simp
  have hinit : Roomy maxKeys h requests := fun j hj => by
    have hj' := hr j (by omega)
    rwa [List.take_append_of_le_length hj] at hj'
  refine ⟨hinit, ?_, ?_⟩
  · have hlast := hinit requests.length (Nat.le_refl _)
    rwa [List.take_length] at hlast
  · have hlast := hr (requests ++ [r]).length (Nat.le_refl _)
    rwa [List.take_length, serve_snoc] at hlast

/-- The beginning of a line. -/
structure Tail (tail : Str) : Prop where
  ne : tail ≠ []
  head : ∀ c cs, tail = c :: cs → isSpace c = false
  oneLine : ∀ c ∈ tail, isBreak c = false

theorem tail_firstBytes {line : Str} {c : Command} (hp : parseCommand line = .ok c)
    (hl : ∀ d ∈ trim line, isBreak d = false) (n : Nat) :
    firstBytes n (AofWriter.format line) = AofWriter.format line ∨
      firstBytes n (AofWriter.format line) = [] ∨ Tail (firstBytes n (AofWriter.format line)) := by
  have hne := List.length_pos_iff.mp (trim_ne_nil hp)
  obtain ⟨d, ds, e⟩ := List.exists_cons_of_ne_nil hne
  refine (firstBytes_line hl n).imp_right fun hbreak => ?_
  by_cases hnil : firstBytes n (AofWriter.format line) = []
  · exact .inl hnil
  · refine .inr ⟨hnil, fun x xs hx => ?_, hbreak⟩
    rw [AofWriter.format, e, List.cons_append] at hx
    rcases head_firstBytes hx with rfl | rfl
    · exact head_trim e
    · decide

section

variable {maxKeys : Nat} {hm : 1 ≤ maxKeys} {i : Nat} {h : CommandHandler AofWriter} {text : Str}

theorem Recovers.serve (H : Recovers maxKeys hm i h text) (requests : List Request) :
    (∀ r ∈ requests, r.Plain) → Roomy maxKeys h requests →
      ∃ text', Recovers maxKeys hm i (serve h requests) text' := by
  induction requests using List.reverseRecOn with
  | nil => exact fun _ _ => ⟨text, H⟩
  | append_singleton requests r ih =>
    intro hplain hroom
    obtain ⟨hinit, hsize, -⟩ := hroom.init
    obtain ⟨text', H'⟩ := ih (fun q hq => hplain q (List.mem_append_left _ hq)) hinit
    rw [serve_snoc]
    rcases H'.execute (hplain r (List.mem_append_right _ (List.mem_singleton.mpr rfl))) hsize with
      H'' | ⟨H'', -⟩
    · exact ⟨_, H''⟩
    · exact ⟨_, H''⟩

/-- Every cut of the log is behind the lines of some of the commands, or in the middle of
the next line. -/
theorem Recovers.cut (H : Recovers maxKeys hm i h []) (requests : List Request) :
    (∀ r ∈ requests, r.Plain) → Roomy maxKeys h requests →
      ∃ text, Recovers maxKeys hm i (Recovery.serve h requests) text ∧
        ∀ n, ∃ j ≤ requests.length, ∃ u tail,
          Recovers maxKeys hm i (Recovery.serve h (requests.take j)) u ∧
            firstBytes n text = u ++ tail ∧ (tail = [] ∨ Tail tail ∧ 2 ≤ maxKeys) := by
  induction requests using List.reverseRecOn with
  | nil =>
    refine fun _ _ => ⟨[], H, fun n => ⟨0, Nat.le_refl 0, [], [], H, ?_, .inl rfl⟩⟩
    cases n <;> rfl
  | append_singleton requests r ih =>
    intro hplain hroom
    obtain ⟨hinit, hsize, hsize'⟩ := hroom.init
    have hr := hplain r (List.mem_append_right _ (List.mem_singleton.mpr rfl))
    obtain ⟨text, H', hcut⟩ := ih (fun q hq => hplain q (List.mem_append_left _ hq)) hinit
    have hlen : (requests ++ [r]).length = requests.length + 1 := by simp
    -- a cut of the log so far
    have earlier : ∀ n, ∃ j ≤ (requests ++ [r]).length, ∃ u tail,
        Recovers maxKeys hm i (Recovery.serve h ((requests ++ [r]).take j)) u ∧
          firstBytes n text = u ++ tail ∧ (tail = [] ∨ Tail tail ∧ 2 ≤ maxKeys) := fun n => by
      obtain ⟨j, hj, u, tail, hu, e, ht⟩ := hcut n
      refine ⟨j, by omega, u, tail, ?_, e, ht⟩
      rw [List.take_append_of_le_length hj]
      exact hu
    rw [serve_snoc]
    rcases H'.execute hr hsize with H'' | ⟨H'', hpos⟩
    · exact ⟨text, H'', earlier⟩
    · refine ⟨_, H'', fun n => ?_⟩
      rcases firstBytes_append n text (AofWriter.format r.item.line) with e | ⟨m, e⟩
      · rw [e]
        exact earlier n
      · rcases tail_firstBytes hr.parsed hr.oneLine m with e' | ht
        · refine ⟨(requests ++ [r]).length, Nat.le_refl _, text ++ AofWriter.format r.item.line, [],
            ?_, ?_, .inl rfl⟩
          · rw [List.take_length, serve_snoc]
            exact H''
          · rw [e, e', List.append_nil]
        · refine ⟨requests.length, by omega, text, _, ?_, e, ht.imp_right fun ht => ⟨ht, ?_⟩⟩
          · rw [List.take_left]
            exact H'
          · omega

end

/-! ## The restart -/

theorem not_complete_tail {u tail : Str} (ht : Tail tail) : ¬ Complete (u ++ tail) := by
  rintro (e | ⟨s, e⟩)
  · exact ht.ne (List.append_eq_nil_iff.mp e).2
  · have hlast := congrArg List.getLast? e
    rw [List.getLast?_append_of_ne_nil u ht.ne, List.getLast?_append_of_ne_nil s (by simp)] at hlast
    have hmem := List.mem_of_getLast? hlast
    have hbreak := ht.oneLine '\n' hmem
    cases hbreak

theorem serving_restart {w : AofWriter} {i : Nat} {old : Str} (hs : w.Serving i old)
    (text : Str) : ∃ j, (AofWriter.create w.path w.fsyncPolicy
      (w.fs.writeFile w.path text)).start.Serving j text := by
  obtain ⟨hwf, -, ⟨j, hj, hc⟩, -⟩ := Fs.writeFile_spec hs.wf w.path text
  have e : (AofWriter.create w.path w.fsyncPolicy (w.fs.writeFile w.path text)).start =
      { AofWriter.create w.path w.fsyncPolicy { w.fs.writeFile w.path text with
          fds := (w.fs.writeFile w.path text).fds ++ [some j] } with
        fd := some (w.fs.writeFile w.path text).fds.length } := by
    simp [AofWriter.start, AofWriter.create, Fs.openAppend_some hj]
  rw [e]
  exact ⟨j, hwf.of_names rfl rfl, ⟨_, rfl, by simp [AofWriter.create]⟩, hj, hc⟩

/-- Whatever is executed from here on, the log replays to the state it leaves. -/
def WrittenOn (maxKeys : Nat) (hm : 1 ≤ maxKeys) (h : CommandHandler AofWriter) : Prop :=
  ∀ more, (∀ r ∈ more, r.Plain) → Roomy maxKeys h more → ∀ clocks,
    ∃ file, logFile (serve h more) = some file ∧
      ∀ k, (replay (create maxKeys hm) (readLines file) clocks).cell k =
        (serve h more).store.cell k

section

variable {maxKeys : Nat} {hm : 1 ≤ maxKeys} {i : Nat} {h : CommandHandler AofWriter} {u : Str}
  (H : Recovers maxKeys hm i h u)

include H

theorem Recovers.writtenOn : WrittenOn maxKeys hm h := by
  intro more hplain hroom clocks
  obtain ⟨text, H'⟩ := H.serve more hplain hroom
  exact ⟨text, H'.logFile, (H'.mirrors clocks).cell⟩

theorem Recovers.restart {w : AofWriter} {j : Nat} {old : Str} (hs : w.Serving j old)
    (pm : Option PersistenceManager) (pubSub : Option PubSubManager) (requirepass : Option Str)
    (disabledCommands : List Str) (clocks : Nat → Nat → Clocks) :
    ∃ i, Recovers maxKeys hm i
      (restart maxKeys hm pm pubSub requirepass disabledCommands w u clocks) u := by
  obtain ⟨i, hs'⟩ := serving_restart hs u
  have hr0 := lockstep_create maxKeys hm
  have hcell := (H.mirrors clocks).cell
  refine ⟨i, ⟨_, rfl, hs'⟩, H.complete, H.logged, lockstep_replay hr0 H.logged clocks,
    maxKeys_replay hr0 H.logged clocks, fun k => ?_, fun k hk => ?_, fun clocks' => ?_⟩
  · show Cell.NonEmpty ((replay _ _ clocks).cell k)
    rw [hcell]
    exact H.noEmpty k
  · exact H.spelled k (hcell k ▸ hk)
  · refine ⟨fun k => ?_, fun k => ?_⟩
    · show Cell.Permanent ((replay _ _ clocks).cell k)
      rw [hcell]
      exact (H.mirrors clocks).permanent k
    · exact ((H.mirrors clocks').cell k).trans (hcell k).symm

/-! ## Behind a tail -/

variable (clocks : Nat → Nat → Clocks)

theorem Recovers.replay_line {x line : Str} (hx : readLines x = [line]) :
    (replay (create maxKeys hm) (readLines u) clocks).Lockstep ∧
      (replay (create maxKeys hm) (readLines u) clocks).maxKeys = maxKeys ∧
      replay (create maxKeys hm) (readLines (u ++ x)) clocks =
        (replayLine (clocks (readLines u).length)
          (replayHandler (replay (create maxKeys hm) (readLines u) clocks)) line).store := by
  obtain ⟨s, he, hs, hmax⟩ := replayLoop_mutating clocks (readLines u) 0
    (lockstep_create maxKeys hm) H.logged
  have hr : replay (create maxKeys hm) (readLines u) clocks = s := by rw [replay, he]; rfl
  rw [hr]
  refine ⟨hs, hmax, ?_⟩
  rw [readLines_complete H.complete, hx, replay, replayLoop_append, he, Nat.zero_add]
  rfl

end

theorem readLines_tail {tail : Str} (ht : Tail tail) : readLines tail = [tail] :=
  readLines_of_not_break ht.oneLine ht.ne

theorem lockstep_replayLine {s : InMemoryStore} (hs : s.Lockstep) (clocks : Nat → Clocks)
    (line : Str) : (replayLine clocks (replayHandler s) line).store.Lockstep ∧
      (replayLine clocks (replayHandler s) line).store.maxKeys = s.maxKeys := by
  rcases replayLine_cases hs clocks line with hd | ⟨c, key, f, -, hmu, e⟩
  · exact ⟨hd.lockstep, hd.maxKeys⟩
  · rw [e]
    exact ⟨hs.perform (Command.mutation_fits hmu), hs.maxKeys_perform⟩

/-- A string is there after a line only if it was there before, or the line is its SET. -/
theorem string_replayLine {s : InMemoryStore} (hs : s.Lockstep) (clocks : Nat → Clocks)
    {line k v : Str} {d : Option Int}
    (h : (replayLine clocks (replayHandler s) line).store.cell k = some ⟨.string v, d⟩) :
    (∃ d', s.cell k = some ⟨.string v, d'⟩) ∨ ∃ n, parseCommand line = .ok (.set k v n) := by
  rcases replayLine_cases hs clocks line with hd | ⟨c, key, f, hp, hmu, e⟩
  · rcases hd.cell k with e | ⟨e, -⟩
    · exact .inl ⟨d, e ▸ h⟩
    · rw [e] at h
      cases h
  · rw [e] at h
    by_cases hk : k = key
    · subst hk
      rw [hs.cell_perform_self] at h
      rcases Command.string_onCell hmu h with ⟨d', hx⟩ | ⟨n, rfl⟩
      · exact .inl ⟨d', (liveAt_eq_some.mp hx).1⟩
      · exact .inr ⟨n, hp⟩
    · rcases hs.cell_perform_other hk with e' | e'
      · exact .inl ⟨d, e' ▸ h⟩
      · rw [e'] at h
        cases h

theorem tokens_of_set {line k v : Str} {n : Option Nat}
    (h : parseCommand line = .ok (.set k v n)) :
    ∃ t, toUpperCase t = "SET".toList ∧ (tokens line = [t, k, v] ∨
      ∃ ex secs, tokens line = [t, k, v, ex, secs] ∧ (parsePositiveInt secs).isSome = true) := by
  obtain ⟨t, ts, htok, hname⟩ := name_of_parseCommand h
  refine ⟨t, hname, ?_⟩
  have hset : parseSet (t :: ts) = .ok (.set k v n) := by
    rw [parseCommand, htok] at h
    simp only [hname] at h
    exact h
  rw [htok]
  rcases of_parseSet hset with ⟨t', k', v', e, hc⟩ | ⟨t', k', v', ex, secs, m, e, hm, hc⟩
  · cases e
    cases hc
    exact .inl rfl
  · cases e
    cases hc
    exact .inr ⟨ex, secs, rfl, by rw [hm]; rfl⟩

theorem isToken_setTokens {key v : Str} (hkey : IsToken key) (hv : IsToken v) :
    ∀ t ∈ ["SET".toList, key, v], IsToken t := by
  simp only [List.forall_mem_cons]
  exact ⟨isToken_of_all (by decide) (by decide), hkey, hv, fun _ h => absurd h List.not_mem_nil⟩

/-- Behind a tail, SET is not the first token any more. -/
theorem glued_not_set {tail : Str} (ht : Tail tail) {key value : Str} (hk : IsToken key)
    (hv : IsToken value) (hx : value.all isDigit = false) (k v : Str) (n : Option Nat) :
    parseCommand (tail ++ join ["SET".toList, key, value]) ≠ .ok (.set k v n) := by
  intro h
  have htokens := isToken_setTokens hk hv
  obtain ⟨ps, p, hne, e⟩ := tokens_glue ht.head ht.ne htokens
  obtain ⟨t, hname, e' | ⟨ex, secs, e', hsecs⟩⟩ := tokens_of_set h
  · -- three tokens: the first of them is the tail and SET
    rw [e] at e'
    have hlen := congrArg List.length e'
    simp only [List.length_append, List.length_cons, List.length_nil] at hlen
    obtain rfl : ps = [] := List.length_eq_zero_iff.mp (by omega)
    obtain ⟨rfl, -⟩ := List.cons.inj e'
    have hp : p ≠ [] := hne.resolve_left fun hnil => hnil rfl
    obtain ⟨c, cs, rfl⟩ := List.exists_cons_of_ne_nil hp
    have hlong := congrArg List.length hname
    rw [toUpperCase, List.flatMap_append, List.length_append] at hlong
    have hset : ("SET".toList.flatMap upperChar).length = 3 := by decide
    have hthree : "SET".toList.length = 3 := by decide
    have hpos : 0 < ((c :: cs).flatMap upperChar).length := by
      rw [List.flatMap_cons, List.length_append]
      have := length_upperChar_pos c
      omega
    omega
  · -- five tokens: the value is the number of seconds
    rw [e] at e'
    have hlast := congrArg List.getLast? e'
    simp only [List.getLast?_append, List.getLast?_cons_cons, List.getLast?_singleton,
      Option.some_or, Option.some.injEq] at hlast
    obtain ⟨m, hm⟩ := Option.isSome_iff_exists.mp hsecs
    rw [← hlast, parsePositiveInt, if_neg (by rw [hx]; simp)] at hm
    cases hm

/-- A value that is not stored, and no number. -/
theorem exists_fresh_value (x : Option Cell) :
    ∃ v, IsToken v ∧ v.all isDigit = false ∧ ∀ d, x ≠ some ⟨.string v, d⟩ := by
  have htoken : ∀ n, IsToken (List.replicate (n + 1) 'x') := fun n =>
    ⟨by simp, fun c hc => by rw [List.eq_of_mem_replicate hc]; decide⟩
  have hdigit : ∀ n, (List.replicate (n + 1) 'x').all isDigit = false := fun n => by
    rw [List.replicate_succ, List.all_cons]
    rfl
  rcases x with _ | ⟨s | l | m, d⟩
  · exact ⟨_, htoken 0, hdigit 0, fun _ h => nomatch h⟩
  · refine ⟨_, htoken s.length, hdigit s.length, fun _ h => ?_⟩
    have hlen := congrArg List.length (StoredValue.string.inj (Cell.mk.inj (Option.some.inj h)).1)
    rw [List.length_replicate] at hlen
    omega
  · exact ⟨_, htoken 0, hdigit 0, fun _ h => nomatch h⟩
  · exact ⟨_, htoken 0, hdigit 0, fun _ h => nomatch h⟩

/-- Some key can be set: the stored ones and it number fewer than `maxKeys`. -/
theorem exists_settable {s : InMemoryStore} {maxKeys : Nat} (h2 : 2 ≤ maxKeys)
    (hsp : ∀ k, s.cell k ≠ none → IsToken k) (hsize : s.size < maxKeys) :
    ∃ (key : Str) (l : List Str), IsToken key ∧ key ∈ l ∧ (∀ k, s.cell k ≠ none → k ∈ l) ∧
      l.length < maxKeys := by
  by_cases hk : ∃ k, s.cell k ≠ none
  · obtain ⟨k, hk⟩ := hk
    refine ⟨k, s.values.keys, hsp k hk, mem_keys.mpr hk, fun _ => mem_keys.mpr, ?_⟩
    rw [OrdMap.length_keys]
    exact hsize
  · exact ⟨['x'], [['x']], isToken_of_all (by decide) (by decide), List.mem_singleton.mpr rfl,
      fun k h => absurd ⟨k, h⟩ hk, h2⟩

theorem exists_set_request {key v : Str} (hkey : IsToken key) (hv : IsToken v) :
    ∃ r : Request, r.Plain ∧ r.item.command.mutation (r.clocks 0) =
      some (key, loggedBy (fun _ => true) (setCell v none)) ∧
      r.item.line = join ["SET".toList, key, v] := by
  have htokens := isToken_setTokens hkey hv
  have hbreak := isBreak_join htokens
  rw [← trim_join htokens] at hbreak
  exact ⟨⟨⟨_, .set key v none⟩, ⟨0, []⟩, Clocks.still 0⟩, ⟨parse_set hkey hv, rfl, hbreak⟩, rfl, rfl⟩

/-- Set a key in a store behind whose log there is a tail: the replay will not. -/
theorem Recovers.not_writtenOn {maxKeys : Nat} {hm : 1 ≤ maxKeys} {i : Nat}
    {h h1 : CommandHandler AofWriter} {u tail : Str} (H : Recovers maxKeys hm i h u)
    (ht : Tail tail) (h2 : 2 ≤ maxKeys) {clocks : Nat → Nat → Clocks}
    (hst : h1.store = replay (create maxKeys hm) (readLines (u ++ tail)) clocks) {w : AofWriter}
    {j : Nat} (hw : h1.aofWriter = some w) (hs : w.Serving j (u ++ tail))
    (hsp : ∀ k, h1.store.cell k ≠ none → IsToken k) (hsize : h1.store.size < maxKeys) :
    ¬ WrittenOn maxKeys hm h1 := by
  intro hon
  obtain ⟨hru, hmaxu, hline⟩ := H.replay_line clocks (readLines_tail ht)
  have hL : h1.store.Lockstep := by
    rw [hst, hline]
    exact (lockstep_replayLine hru _ _).1
  obtain ⟨key, l, hkey, hmem, hsub, hlen⟩ := exists_settable h2 hsp hsize
  obtain ⟨v, hv, hdigit, hfresh⟩ :=
    exists_fresh_value ((replay (create maxKeys hm) (readLines u) clocks).cell key)
  have htokens := isToken_setTokens hkey hv
  have htrim := trim_join htokens
  have hbreak := isBreak_join htokens
  have hglued := glued_not_set ht hkey hv hdigit
  obtain ⟨r, hr, hmu, hrl⟩ := exists_set_request hkey hv
  generalize join ["SET".toList, key, v] = line at htrim hbreak hglued hrl
  obtain ⟨hst', w', hw', hs'⟩ := execute_mutation hw hs hL hmu
  have hcell : (Recovery.execute h1 r).store.cell key = some ⟨.string v, none⟩ := by
    rw [hst', hL.cell_perform_self]
    rfl
  have hsub' : ∀ k, (Recovery.execute h1 r).store.cell k ≠ none → k ∈ l := by
    intro k hk
    rw [hst'] at hk
    by_cases e : k = key
    · rw [e]
      exact hmem
    · refine hsub k fun hn => hk ?_
      rcases hL.cell_perform_other e with e' | e'
      · rw [e', hn]
      · exact e'
  have hL' : (Recovery.execute h1 r).store.Lockstep := by
    rw [hst']
    exact hL.perform (Command.mutation_fits hmu)
  have hroom : Roomy maxKeys h1 [r] := by
    intro k hk
    match k, hk with
    | 0, _ => exact hsize
    | 1, _ => exact Nat.lt_of_le_of_lt (hL'.size_le_of_subset hsub') hlen
  obtain ⟨file, hfile, hcells⟩ := hon _ (List.forall_mem_singleton.mpr hr) hroom clocks
  -- the tail and the line are read as one
  have hread : readLines (tail ++ line ++ ['\n']) = [tail ++ line] :=
    readLines_line fun c hc => (List.mem_append.mp hc).elim (ht.oneLine c) (hbreak c)
  have hfile' : file = u ++ (tail ++ line ++ ['\n']) := by
    have e := (logFile_serving hw' hs').symm.trans hfile
    have hf : (loggedBy (fun _ => true) (setCell v none)
      (liveAt (r.clocks 0 0) (h1.store.cell key))).2 = true := rfl
    rw [if_pos hf, AofWriter.format, hrl, htrim] at e
    rw [← Option.some.inj e]
    simp
  obtain ⟨-, -, hreplay⟩ := H.replay_line clocks hread
  have hlast := (hcells key).trans hcell
  rw [hfile', hreplay] at hlast
  rcases string_replayLine hru _ hlast with ⟨d, hd⟩ | ⟨n, hp⟩
  · exact hfresh d hd
  · exact hglued _ _ _ hp

/-! ## A cut log -/

def PrefixState (h : CommandHandler AofWriter) (requests : List Request) (s : InMemoryStore) :
    Prop :=
  ∃ j ≤ requests.length, ∀ k, s.cell k = (serve h (requests.take j)).store.cell k

/-- The text after the last LF. -/
def lastLine (text : Str) : Str := text.rtakeWhile (· ≠ '\n')

theorem lastLine_append {u tail : Str} (hu : Complete u) (ht : ∀ c ∈ tail, isBreak c = false) :
    lastLine (u ++ tail) = tail := by
  have htail : ∀ c ∈ tail.reverse, decide (c ≠ '\n') = true := fun c hc => by
    have hbreak := ht c (List.mem_reverse.mp hc)
    refine decide_eq_true fun e => ?_
    rw [e] at hbreak
    cases hbreak
  rw [lastLine, List.rtakeWhile, List.reverse_append, List.takeWhile_append_of_pos htail]
  rcases hu with rfl | ⟨s, rfl⟩
  · simp
  · simp

section

variable {maxKeys : Nat} {hm : 1 ≤ maxKeys} {i : Nat} {h0 h : CommandHandler AofWriter}
  {requests : List Request} {j : Nat} {u : Str} (hj : j ≤ requests.length)
  (H : Recovers maxKeys hm i (serve h0 (requests.take j)) u)

include hj H

theorem prefixState_of_recovers (clocks : Nat → Nat → Clocks) :
    PrefixState h0 requests (replay (create maxKeys hm) (readLines u) clocks) :=
  ⟨j, hj, (H.mirrors clocks).cell⟩

/-- A tail that the parser rejects is skipped. -/
theorem prefixState_of_rejected {tail m : Str} (ht : Tail tail)
    (hp : parseCommand tail = .error m) (clocks : Nat → Nat → Clocks) :
    PrefixState h0 requests (replay (create maxKeys hm) (readLines (u ++ tail)) clocks) := by
  obtain ⟨-, -, hline⟩ := H.replay_line clocks (readLines_tail ht)
  rw [hline, replayLine_rejected hp]
  exact prefixState_of_recovers hj H clocks

omit hj in
/-- A tail that lacks only its LF is read as the complete line is. -/
theorem prefixState_of_whole {tail text : Str} (ht : Tail tail)
    (hcut : ∀ n, ∃ l ≤ requests.length, ∃ u' tail',
      Recovers maxKeys hm i (serve h0 (requests.take l)) u' ∧
        firstBytes n text = u' ++ tail' ∧ (tail' = [] ∨ Tail tail' ∧ 2 ≤ maxKeys))
    (hwhole : u ++ tail ++ ['\n'] <+: text) (clocks : Nat → Nat → Clocks) :
    PrefixState h0 requests (replay (create maxKeys hm) (readLines (u ++ tail)) clocks) := by
  -- the cut one byte later is behind a complete line
  obtain ⟨rest, hrest⟩ := hwhole
  obtain ⟨n, hn⟩ := firstBytes_prefix (u ++ tail ++ ['\n']) rest
  rw [hrest] at hn
  obtain ⟨l, hl, u', tail', Hl, e, htail⟩ := hcut n
  rw [hn] at e
  obtain rfl : tail' = [] := by
    rcases htail with ht' | ⟨ht', -⟩
    · exact ht'
    · exact absurd (e ▸ .inr ⟨u ++ tail, rfl⟩) (not_complete_tail (u := u') ht')
  rw [List.append_nil] at e
  have hread : readLines (u ++ tail) = readLines u' := by
    rw [← e, List.append_assoc, readLines_complete H.complete, readLines_complete H.complete,
      readLines_tail ht, readLines_line ht.oneLine]
  rw [hread]
  exact prefixState_of_recovers hl Hl clocks

end

theorem recovers_start {maxKeys : Nat} {hm : 1 ≤ maxKeys} {h : CommandHandler AofWriter}
    (hstore : h.store = create maxKeys hm) {w : AofWriter} (hw : h.aofWriter = some w) {i : Nat}
    (hs : w.Serving i []) : Recovers maxKeys hm i h [] := by
  refine ⟨⟨w, hw, hs⟩, .inl rfl, fun l hl => absurd hl List.not_mem_nil,
    hstore ▸ lockstep_create maxKeys hm, by rw [hstore]; rfl, ?_, ?_, fun clocks => ?_⟩
  · rw [hstore]
    exact fun _ _ hc => nomatch hc
  · rw [hstore]
    exact fun _ hk => absurd rfl hk
  · rw [hstore]
    exact ⟨fun k => Cell.permanent_none, fun k => rfl⟩

theorem Roomy.take {maxKeys : Nat} {h : CommandHandler AofWriter} {requests : List Request}
    (hroom : Roomy maxKeys h requests) (j : Nat) : Roomy maxKeys h (requests.take j) := by
  intro k hk
  rw [List.length_take] at hk
  have hk' := hroom k (by omega)
  rwa [List.take_take, min_eq_left (by omega)]

/-- For every sequence of plain commands, each on one line, that a handler with an open
log executes on an empty store, with always fewer than `maxKeys` keys, and for every cut of
the log: the cut log replays to the state after some of the commands, and goes on to do so
for all commands after the restart, exactly if it ends behind a complete line. For the
state after the restart alone it is enough that the parser rejects the rest of the line,
or that only the LF is missing. -/
theorem torn_log_iff (maxKeys : Nat) (hm : 1 ≤ maxKeys) (h0 : CommandHandler AofWriter)
    (hstore : h0.store = create maxKeys hm) (w0 : AofWriter) (hw0 : h0.aofWriter = some w0) (i : Nat)
    (hs0 : w0.Serving i []) (requests : List Request) (hplain : ∀ r ∈ requests, r.Plain)
    (hroom : Roomy maxKeys h0 requests) (w : AofWriter)
    (hw : (serve h0 requests).aofWriter = some w) (file : Str)
    (hfile : w.fs.read w.path = some file) (n : Nat) (pm : Option PersistenceManager)
    (pubSub : Option PubSubManager) (requirepass : Option Str) (disabledCommands : List Str)
    (clocks : Nat → Nat → Clocks) (h1 : CommandHandler AofWriter)
    (h1e : h1 = restart maxKeys hm pm pubSub requirepass disabledCommands w (firstBytes n file)
      clocks) :
    (PrefixState h0 requests h1.store ∧ WrittenOn maxKeys hm h1 ↔
        Complete (firstBytes n file)) ∧
      ((∃ m, parseCommand (lastLine (firstBytes n file)) = .error m) ∨
          firstBytes n file ++ ['\n'] <+: file →
        PrefixState h0 requests h1.store) := by
  have H0 : Recovers maxKeys hm i h0 [] := recovers_start hstore hw0 hs0
  obtain ⟨text, H, hcut⟩ := H0.cut requests hplain hroom
  obtain ⟨w', hw', hs⟩ := H.serving
  obtain rfl : w' = w := Option.some.inj (hw'.symm.trans hw)
  obtain rfl : text = file := by
    have hread := H.logFile
    rw [logFile, hw', Option.bind_some, hfile] at hread
    exact (Option.some.inj hread).symm
  obtain ⟨j, hj, u, tail, Hj, e, htail⟩ := hcut n
  have hst : h1.store = replay (create maxKeys hm) (readLines (firstBytes n text)) clocks := by
    rw [h1e]
    rfl
  rw [e] at h1e hst ⊢
  rcases htail with rfl | ⟨ht, h2⟩
  · rw [List.append_nil] at *
    have hstate : PrefixState h0 requests h1.store := hst ▸ prefixState_of_recovers hj Hj clocks
    obtain ⟨i', H1⟩ := Hj.restart hs pm pubSub requirepass disabledCommands clocks
    exact ⟨⟨fun _ => Hj.complete, fun _ => ⟨hstate, h1e ▸ H1.writtenOn⟩⟩, fun _ => hstate⟩
  · refine ⟨⟨fun ⟨hstate, hon⟩ => ?_, fun hc => absurd hc (not_complete_tail ht)⟩, ?_⟩
    · -- the restarted store has as many keys as one before it
      obtain ⟨j', hj', hcells⟩ := hstate
      have hplain' : ∀ r ∈ requests.take j', r.Plain :=
        fun r hr => hplain r (List.mem_of_mem_take hr)
      obtain ⟨u', Hj'⟩ := H0.serve (requests.take j') hplain' (hroom.take j')
      obtain ⟨hru, -, hline⟩ := Hj.replay_line clocks (readLines_tail ht)
      have hL : h1.store.Lockstep := by
        rw [hst, hline]
        exact (lockstep_replayLine hru _ _).1
      have hsize : h1.store.size < maxKeys := by
        rw [hL.size_eq Hj'.lockstep fun k => by rw [hcells]]
        exact hroom j' hj'
      obtain ⟨i', hs1⟩ := serving_restart hs (u ++ tail)
      have hw1 : h1.aofWriter = some (AofWriter.create w'.path w'.fsyncPolicy
          (w'.fs.writeFile w'.path (u ++ tail))).start := by rw [h1e]; rfl
      exact absurd hon (Hj.not_writtenOn ht h2 hst hw1 hs1
        (fun k hk => Hj'.spelled k (hcells k ▸ hk)) hsize)
    · rintro (⟨m, hp⟩ | hwhole)
      · rw [lastLine_append Hj.complete ht.oneLine] at hp
        exact hst ▸ prefixState_of_rejected hj Hj ht hp clocks
      · exact hst ▸ prefixState_of_whole Hj ht hcut hwhole clocks

def setK : Request :=
  ⟨⟨"SET k 12".toList, .set ['k'] "12".toList none⟩, ⟨1, "tcp".toList⟩, Clocks.still 0⟩

theorem plain_setK : ∀ r ∈ [setK], r.Plain :=
  List.forall_mem_singleton.mpr ⟨by decide, rfl, forall_mem_of_all (by decide)⟩

theorem roomy_setK : Roomy 2 logging [setK] := by
  intro j hj
  match j, hj with
  | 0, _ => decide
  | 1, _ => decide

/-- The log cut behind its only line. -/
theorem torn_log_behind_line : ∃ w, (serve logging [setK]).aofWriter = some w ∧
    WrittenOn 2 (by decide) (restart 2 (by decide) none none none [] w
      (firstBytes 9 "SET k 12\n".toList) fun _ _ => Clocks.still 0) := by
  obtain ⟨w0, hw0, hs0⟩ := serving_logging
  obtain ⟨w, hw, hf⟩ : ∃ w, (serve logging [setK]).aofWriter = some w ∧
      w.fs.read w.path = some "SET k 12\n".toList := ⟨_, rfl, rfl⟩
  exact ⟨w, hw, ((torn_log_iff 2 (by decide) logging rfl w0 hw0 0 hs0 [setK] plain_setK roomy_setK
    w hw "SET k 12\n".toList hf 9 none none none [] (fun _ _ => Clocks.still 0) _ rfl).1.mpr
      (.inr ⟨"SET k 12".toList, by decide⟩)).2⟩

/-- Cut after seven bytes, `SET k 12` is replayed as `SET k 1`; and a SET logged after the
restart continues that line, which is then no command at all. -/
theorem torn_value_changes :
    logFile (serve logging [setK]) = some "SET k 12\n".toList ∧
    firstBytes 7 "SET k 12\n".toList = "SET k 1".toList ∧
    ¬ PrefixState logging [setK]
      (replay (create 2 (by decide)) (readLines "SET k 1".toList) fun _ _ => Clocks.still 0) ∧
    readLines ("SET k 1".toList ++ AofWriter.format "SET b 2".toList) =
      ["SET k 1SET b 2".toList] ∧
    ((parseCommand "SET k 1SET b 2".toList).toOption = none) := by
  refine ⟨by decide, by decide, ?_, by decide, by decide⟩
  rintro ⟨j, hj, h⟩
  have hk := h ['k']
  match j, hj with
  | 0, _ => revert hk; decide
  | 1, _ => revert hk; decide

end Recovery

end MiniStore
