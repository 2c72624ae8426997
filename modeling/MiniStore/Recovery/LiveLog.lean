import MiniStore.Recovery.Compaction
import MiniStore.Recovery.LogFile

/-!
# The log while the server runs

At every moment of a run, rewrites under way or not, the file at the path of the log is an image
of the store: complete lines that replay to it (`Image`, `follows_image`). A rewrite prints a store
without deadlines as it is, at whatever times it reads the clock (`image_rewritten`).
-/

namespace MiniStore

open InMemoryStore Text CommandParser AofWriter Engine

namespace Recovery

/-- What commands leave that set no deadline. -/
structure Storable (maxKeys : Nat) (s : InMemoryStore) : Prop extends Legible maxKeys s where
  permanent : ∀ k, Cell.Permanent (s.cell k)

theorem storable_create (maxKeys : Nat) (hm : 1 ≤ maxKeys) :
    Storable maxKeys (create maxKeys hm) :=
  ⟨legible_create maxKeys hm, fun _ => Cell.permanent_none⟩

theorem Storable.decays {maxKeys : Nat} {s s' : InMemoryStore} (H : Storable maxKeys s)
    {T : Int → Prop} (hd : Decays T s s') : Storable maxKeys s' := by
  refine ⟨H.toLegible.decays hd, fun k => ?_⟩
  rw [hd.cell_eq (H.permanent k)]
  exact H.permanent k

/-! ## What a rewrite prints -/

def lineOf (cells : Str → Option Cell) (key : Str) : List Str :=
  ((cells key).map fun c => join (valueTokens key c.value)).toList

section

variable {s : InMemoryStore} (hp : ∀ k, Cell.Permanent (s.cell k))

include hp

theorem keysLoop_permanent (test : Str → Bool) (now : Clock) : ∀ (ks : List Str) (i : Nat),
    (∀ k ∈ ks, s.cell k ≠ none) → keysLoop test now ks i s = (s, ks.filter test)
  | [], _, _ => rfl
  | key :: ks, i, hk => by
    have hgate : s.expireIfNeeded key (now i) = (s, false) := by
      rcases s.expireIfNeeded_cases key (now i) with ⟨he, -, -⟩ | ⟨-, -, c, hc, hx⟩
      · exact he
      · have hl := liveAt_permanent (hp key) (now i)
        rw [hc, liveAt_some, if_pos hx] at hl
        cases hl
    rw [keysLoop, hgate]
    simp only [keysLoop_permanent test now ks (i + 1) fun k hm => hk k (List.mem_cons_of_mem _ hm),
      List.filter_cons, Bool.not_false, Bool.true_and]

/-- The clock is read for each key, and does not matter. -/
theorem rewriteLoop_permanent (hn : NoEmpty s) (clocks : Clocks) : ∀ (keys : List Str) (i : Nat),
    (∀ k ∈ keys, s.cell k ≠ none) →
      (rewriteLoop clocks keys i s).2 = keys.flatMap (lineOf s.cell) := by
  intro keys
  induction keys generalizing s with
  | nil => exact fun _ _ => rfl
  | cons key keys ih =>
    intro i hk
    obtain ⟨c, hc⟩ := Option.ne_none_iff_exists'.mp (hk key List.mem_cons_self)
    have hpc : c.deadline = none := hp key c hc
    have hline : keyLines key (clocks (i + 1) 1) c = lineOf s.cell key := by
      obtain ⟨v, d⟩ := c
      obtain rfl : d = none := hpc
      have hlines : keyLines key (clocks (i + 1) 1) ⟨v, none⟩ = printed key v none :=
        keyLines_eq (hn key _ hc) rfl fun _ h => nomatch h
      have hone : lineOf s.cell key = [join (valueTokens key v)] := by
        rw [lineOf, hc]
        rfl
      rw [hlines, hone]
      cases v <;> rfl
    have hrest : (rewriteLoop clocks keys (i + 3) (s.touch key)).2 =
        keys.flatMap (lineOf s.cell) :=
      ih (s := s.touch key) hp hn (i + 3) fun k hm => hk k (List.mem_cons_of_mem _ hm)
    rw [rewriteLoop, rewriteKey_live hc fun _ _ => liveAt_permanent (hp key) _, hline,
      List.flatMap_cons]
    exact congrArg _ hrest

end

theorem Storable.rewriteCommands {maxKeys : Nat} {s : InMemoryStore} (H : Storable maxKeys s)
    (clocks : Clocks) :
    (AofWriter.rewriteCommands s clocks).2 = s.values.keys.flatMap (lineOf s.cell) := by
  have hmem : ∀ k ∈ s.values.keys, s.cell k ≠ none := fun k hk => mem_keys.mp hk
  have hall : s.values.keys.filter (globMatch ['*']) = s.values.keys := by
    refine List.filter_eq_self.mpr fun k hk => ?_
    exact (PersistenceManager.globMatch_star k).mpr
      (PersistenceManager.oneLine_of_isToken (H.token k (hmem k hk)))
  rw [AofWriter.rewriteCommands, InMemoryStore.keys, keysLoop_permanent H.permanent _ _ _ 0 hmem,
    hall]
  exact rewriteLoop_permanent H.permanent H.noEmpty clocks _ 1 hmem

/-! ## What replays to a store -/

/-- Complete lines of commands that replay to the store, at whatever times. -/
structure Image (maxKeys : Nat) (hm : 1 ≤ maxKeys) (s : InMemoryStore) (text : Str) : Prop where
  complete : Complete text
  logged : ∀ l ∈ readLines text, Mutating l
  mirrors : ∀ clocks, Mirrors s (replay (create maxKeys hm) (readLines text) clocks)

section

variable {maxKeys : Nat} {hm : 1 ≤ maxKeys} {s : InMemoryStore}

theorem image_create : Image maxKeys hm (create maxKeys hm) [] :=
  ⟨.inl rfl, fun _ h => absurd h List.not_mem_nil, fun _ =>
    ⟨fun _ => Cell.permanent_none, fun _ => rfl⟩⟩

theorem Image.decays {text : Str} (H : Image maxKeys hm s text) {T : Int → Prop}
    {s' : InMemoryStore} (hd : Decays T s s') : Image maxKeys hm s' text :=
  ⟨H.complete, H.logged, fun clocks => (H.mirrors clocks).decays hd⟩

theorem Storable.rebuilds (H : Storable maxKeys s) (hm : 1 ≤ maxKeys) (clocks : Nat → Nat → Clocks)
    (keys : List Str) : keys.Nodup → (∀ k ∈ keys, s.cell k ≠ none) → keys.length ≤ maxKeys →
      (∀ l ∈ keys.flatMap (lineOf s.cell), Mutating l) ∧
      ∀ k, (replay (create maxKeys hm) (keys.flatMap (lineOf s.cell)) clocks).cell k =
        if k ∈ keys then s.cell k else none := by
  have h := lockstep_create maxKeys hm
  induction keys using List.reverseRecOn with
  | nil => exact fun _ _ _ => ⟨fun l hl => absurd hl List.not_mem_nil, fun k => rfl⟩
  | append_singleton keys key ih =>
    intro hnd hcells hlen
    obtain ⟨hnd', -, hne⟩ := List.nodup_append.mp hnd
    have hnew : key ∉ keys := fun hk => hne key hk key (List.mem_singleton.mpr rfl) rfl
    rw [List.length_append, List.length_singleton] at hlen
    obtain ⟨hl, hcell⟩ := ih hnd' (fun k hk => hcells k (List.mem_append_left _ hk)) (by omega)
    have hkey := hcells key (List.mem_append_right _ (List.mem_singleton.mpr rfl))
    obtain ⟨c, hc⟩ := Option.ne_none_iff_exists'.mp hkey
    obtain ⟨cmd, hparse, hmut, heffect⟩ :=
      command_value (H.token key hkey) (H.spelled key c hc) (H.noEmpty key c hc)
    have hlines : (keys ++ [key]).flatMap (lineOf s.cell) =
        keys.flatMap (lineOf s.cell) ++ [join (valueTokens key c.value)] := by
      rw [List.flatMap_append, List.flatMap_singleton, lineOf, hc]
      rfl
    rw [hlines]
    refine ⟨fun l hm => (List.mem_append.mp hm).elim (hl l) fun hm =>
      List.mem_singleton.mp hm ▸ ⟨cmd, hparse, hmut⟩, fun k => ?_⟩
    -- the replay so far holds these keys only, so there is room for one more
    have hr := lockstep_replay h hl clocks
    have hsize := hr.size_le_of_subset (l := keys) fun k hk => by
      by_contra hmem
      exact hk ((hcell k).trans (if_neg hmem))
    have hroom : (replay (create maxKeys hm) (keys.flatMap (lineOf s.cell)) clocks).size <
        (replay (create maxKeys hm) (keys.flatMap (lineOf s.cell)) clocks).maxKeys := by
      rw [maxKeys_replay h hl clocks]
      show _ < maxKeys
      omega
    have hnone : (replay (create maxKeys hm) (keys.flatMap (lineOf s.cell)) clocks).cell key =
        none := (hcell key).trans (if_neg hnew)
    obtain ⟨f, b, hmu, hput⟩ := heffect (clocks (keys.flatMap (lineOf s.cell)).length 0 0)
    rw [replay_snoc h hl clocks hparse hmu, hr.cell_perform_permanent
      (by rw [hnone]; exact Cell.permanent_none) hroom, hnone, hput, hcell]
    by_cases hk : k = key
    · rw [if_pos hk, hk, if_pos (List.mem_append_right _ (List.mem_singleton.mpr rfl)), hc]
      have hd : c.deadline = none := H.permanent key c hc
      show some (⟨c.value, none⟩ : Cell) = some c
      rw [← hd]
    · rw [if_neg hk]
      simp [hk]

/-- The file that a rewrite begins with. -/
theorem image_rewritten (H : Storable maxKeys s) (clocks : Clocks) :
    Image maxKeys hm s (commandText (AofWriter.rewriteCommands s clocks).2) := by
  have hmem : ∀ k ∈ s.values.keys, s.cell k ≠ none := fun k hk => mem_keys.mp hk
  have hlen : s.values.keys.length ≤ maxKeys := by
    rw [OrdMap.length_keys, ← H.maxKeys]
    exact H.lockstep.size_le
  have hbreak : ∀ l ∈ s.values.keys.flatMap (lineOf s.cell), ∀ c ∈ l, isBreak c = false := by
    intro l hl
    obtain ⟨k, hk, hl⟩ := List.mem_flatMap.mp hl
    obtain ⟨c, hc⟩ := Option.ne_none_iff_exists'.mp (hmem k hk)
    rw [lineOf, hc] at hl
    rw [List.mem_singleton.mp hl]
    exact isBreak_join (isToken_valueTokens (H.token k (hmem k hk)) (H.spelled k c hc))
  have hread := readLines_commandText hbreak
  have hbuilt := fun clocks => H.rebuilds hm clocks _ s.values.keys_nodup hmem hlen
  rw [H.rewriteCommands clocks]
  refine ⟨complete_commandText _, ?_, fun clocks => ⟨H.permanent, fun k => ?_⟩⟩
  · rw [hread]
    exact (hbuilt fun _ _ => clocks).1
  · rw [hread, (hbuilt clocks).2]
    by_cases hk : k ∈ s.values.keys
    · exact if_pos hk
    · rw [if_neg hk]
      by_contra hne
      exact hk (mem_keys.mpr (Ne.symm hne))

end

/-! ## One more command -/

theorem Tame.onCell {maxKeys : Nat} {m : Moment} (ht : Tame maxKeys m) {item : QueuedCommand}
    (hi : m.item = some item) (hwf : item.command.WF) {now : Clock} {key : Str}
    {f : Option Cell → Effect × Bool} (hmu : item.command.mutation now = some (key, f))
    (hn : Cell.NonEmpty (m.store.cell key)) (hl : (f (m.store.cell key)).2 = false) :
    (f (m.store.cell key)).1.action.onCell (m.store.cell key) = m.store.cell key := by
  rcases Command.onCell_of_unlogged hwf hmu hn hl with e | ⟨pairs, map, d, hc, hx, hz, e⟩
  · exact e
  · have hset : m.item = some ⟨item.line, .hset key pairs⟩ := by rw [hi, ← hc]
    rw [e, setPairs_of_addsOrKeeps ht.hset hset hx hz, hx]

/-- What a tame command leaves under its key has no deadline. -/
theorem Tame.permanent {maxKeys : Nat} {m : Moment} (ht : Tame maxKeys m) {item : QueuedCommand}
    (hi : m.item = some item) (hwf : item.command.WF) {now : Clock} {key : Str}
    {f : Option Cell → Effect × Bool} (hmu : item.command.mutation now = some (key, f))
    (hn : Cell.NonEmpty (m.store.cell key)) (hp : Cell.Permanent (m.store.cell key)) :
    Cell.Permanent ((f (m.store.cell key)).1.action.onCell (m.store.cell key)) := by
  cases hl : (f (m.store.cell key)).2 with
  | true =>
    exact Command.permanent_of_timeless (timeless_of_logged ht.noTtl hi hmu hl) hmu hp
  | false => exact (ht.onCell hi hwf hmu hn hl).symm ▸ hp

section

variable {maxKeys : Nat} {hm : 1 ≤ maxKeys} {s : InMemoryStore} (H : Storable maxKeys s)
  {log : List Str} {item : QueuedCommand} {clocks : Clocks}
  (ht : Tame maxKeys ⟨s, log, some item, clocks⟩) (hp : parseCommand item.line = .ok item.command)
  {key : Str} {f : Option Cell → Effect × Bool}
  (hmu : item.command.mutation (clocks 0) = some (key, f))

include H ht hp hmu

theorem Storable.perform : Storable maxKeys (s.perform key (clocks 0) f).1 := by
  have hwf := wf_of_parseCommand hp
  have hroom : s.size < s.maxKeys := by
    rw [H.maxKeys]
    exact ht.room
  refine ⟨H.toLegible.perform hwf hmu, fun k => ?_⟩
  rw [H.lockstep.cell_perform_permanent (H.permanent key) hroom]
  split
  · exact ht.permanent rfl hwf hmu (H.noEmpty key) (H.permanent key)
  · exact H.permanent k

theorem Image.unlogged {text : Str} (hI : Image maxKeys hm s text)
    (hl : (f (s.cell key)).2 = false) :
    Image maxKeys hm (s.perform key (clocks 0) f).1 text := by
  have hroom : s.size < s.maxKeys := by
    rw [H.maxKeys]
    exact ht.room
  have hkeep := ht.onCell rfl (wf_of_parseCommand hp) hmu (H.noEmpty key) hl
  exact ⟨hI.complete, hI.logged, fun clk => (hI.mirrors clk).perform_live H.lockstep hroom hkeep⟩

theorem Image.logged_line {text : Str} (hI : Image maxKeys hm s text)
    (hl : (f (s.cell key)).2 = true) (hline : ∀ c ∈ trim item.line, isBreak c = false) :
    Image maxKeys hm (s.perform key (clocks 0) f).1 (text ++ format item.line) := by
  have hroom : s.size < s.maxKeys := by
    rw [H.maxKeys]
    exact ht.room
  have hread := readLines_append_format hI.complete hline
  have hp' : parseCommand (trim item.line) = .ok item.command := by
    rw [parseCommand_trim, hp]
  have hr0 := lockstep_create maxKeys hm
  have hc := timeless_of_logged ht.noTtl rfl hmu hl
  refine ⟨complete_append_format text _, ?_, fun clk => ?_⟩
  · rw [hread]
    exact fun l hl => (List.mem_append.mp hl).elim (hI.logged l) fun hl =>
      List.mem_singleton.mp hl ▸ ⟨_, hp', Command.mutates_iff.mpr ⟨key, f, hmu⟩⟩
  · have hmu' : item.command.mutation (clk (readLines text).length 0 0) = some (key, f) :=
      (Command.mutation_timeless hc _ _).trans hmu
    rw [hread, replay_snoc hr0 hI.logged clk hp' hmu']
    refine (hI.mirrors clk).perform H.lockstep (lockstep_replay hr0 hI.logged clk) ?_ hroom hc hmu
      hmu'
    rw [maxKeys_replay hr0 hI.logged, H.maxKeys]
    rfl

end

end Recovery

open Recovery

namespace Execution

def moment (e : Execution) : Moment := ⟨e.handler.store, [], some e.item, e.clocks⟩

/-- The command finds a slot free and sets no deadline, and its line is read as one line. -/
structure Plain (maxKeys : Nat) (e : Execution) : Prop where
  room : e.moment.store.size < maxKeys
  noTtl : e.moment.setsTtl = false
  oneLine : e.logged = true → ∀ c ∈ trim e.item.line, isBreak c = false

/-- What the command changes gets into the file: an HSET adds a field or leaves the hash as it
is. -/
structure Recorded (e : Execution) : Prop extends Lands e where
  hset : e.moment.addsOrKeeps = true

structure Careful (maxKeys : Nat) (e : Execution) : Prop extends Plain maxKeys e, Recorded e

theorem Careful.tame {maxKeys : Nat} {e : Execution} (h : e.Careful maxKeys) :
    Tame maxKeys e.moment :=
  ⟨h.room, h.noTtl, h.hset⟩

instance (maxKeys : Nat) (e : Execution) : Decidable (e.Plain maxKeys) :=
  -- the characters of the line, not all that there are
  letI : Decidable (∀ c ∈ trim e.item.line, isBreak c = false) := List.decidableBAll _ _
  decidable_of_iff (e.moment.store.size < maxKeys ∧ e.moment.setsTtl = false ∧
      (e.logged = true → ∀ c ∈ trim e.item.line, isBreak c = false))
    ⟨fun ⟨h1, h2, h3⟩ => ⟨h1, h2, h3⟩, fun ⟨h1, h2, h3⟩ => ⟨h1, h2, h3⟩⟩

instance (e : Execution) : Decidable e.Recorded :=
  decidable_of_iff (e.Lands ∧ e.moment.addsOrKeeps = true)
    ⟨fun ⟨h1, h2⟩ => ⟨h1, h2⟩, fun h => ⟨h.toLands, h.hset⟩⟩

instance (maxKeys : Nat) (e : Execution) : Decidable (e.Careful maxKeys) :=
  decidable_of_iff (e.Plain maxKeys ∧ e.Recorded) ⟨fun ⟨h1, h2⟩ => ⟨h1, h2⟩, fun h =>
    ⟨h.toPlain, h.toRecorded⟩⟩

end Execution

namespace Recovery

theorem follows_image (maxKeys : Nat) (hm : 1 ≤ maxKeys) :
    Follows (Storable maxKeys) (Image maxKeys hm) (Execution.Careful maxKeys) where
  lockstep H := H.lockstep
  lands hq := hq.toLands
  decays H hd := ⟨H.decays hd, fun hI => hI.decays hd⟩
  mutates {x key f} H hq hp hmu := by
    have hlive : liveAt (x.clocks 0 0) (x.handler.store.cell key) = x.handler.store.cell key :=
      liveAt_permanent (H.permanent key) _
    have hlogged := Execution.logged_eq hmu
    rw [hlive] at hlogged
    refine ⟨H.perform hq.tame hp hmu, fun {text} hI => ?_⟩
    cases hl : x.logged with
    | false => exact hI.unlogged H hq.tame hp hmu (hlogged.symm.trans hl)
    | true => exact hI.logged_line H hq.tame hp hmu (hlogged.symm.trans hl) (hq.oneLine hl)
  rewrites {x} H _ _ :=
    (image_rewritten H x.clocks).decays
      (H.lockstep.decays_rewriteCommands (T := fun _ => True) fun _ _ => trivial)

end Recovery

namespace Server

/-- The commands of the event are plain. -/
def Plain (maxKeys : Nat) (st : Server) (e : ServerEvent) : Prop :=
  ∀ x ∈ st.executionsOf e, x.Plain maxKeys

/-- What the event changes gets into the file. -/
abbrev Recorded : Server → ServerEvent → Prop := Orderly Execution.Recorded

structure Careful (maxKeys : Nat) (st : Server) (e : ServerEvent) : Prop where
  orderly : st.Orderly (Execution.Careful maxKeys) e
  serving : ∀ clocks, e ≠ .signal clocks

/-- The log of a process is an image of its store. -/
abbrev Live (maxKeys : Nat) (hm : 1 ≤ maxKeys) (path : Str) : CommandHandler AofWriter → Prop :=
  Logs (Storable maxKeys) (Image maxKeys hm) path

theorem live_start {maxKeys : Nat} (hm : 1 ≤ maxKeys) {pm : Option PersistenceManager}
    {pubSub : Option PubSubManager} {requirepass : Option Str} {disabledCommands : List Str}
    {path : Str} {fsyncPolicy : FsyncPolicy} {fs : Fs} (hfs : fs.WF) (hnew : fs.read path = none)
    {st0 : Server} (hst0 : st0 = main (CommandHandler.create (create maxKeys hm) pm none pubSub
      requirepass disabledCommands) path fsyncPolicy fs) :
    st0.handler.Parsed ∧ Live maxKeys hm path st0.handler := by
  subst hst0
  refine ⟨fun id queue hq => (by cases hq), logs_main hfs fsyncPolicy (storable_create maxKeys hm) ?_⟩
  rw [hnew]
  exact image_create

theorem live_replays {maxKeys : Nat} {hm : 1 ≤ maxKeys} {path : Str}
    {h : CommandHandler AofWriter} (H : Live maxKeys hm path h) :
    ∃ text, logFile h = some text ∧ ∀ clocks k,
      (replay (create maxKeys hm) (readLines text) clocks).cell k = h.store.cell k := by
  obtain ⟨text, hfile, hI⟩ := H.text
  exact ⟨text, hfile, fun clocks => (hI.mirrors clocks).cell⟩

/-! ## Is the log complete? -/

/-- For every server as `main` starts it on an empty store and no log, and every run of any lines
of any connections, with whatever else happens, in which commands set no deadline, find a slot free
and come on one line: if every HSET that adds no field leaves its hash as it is, nothing is logged
while the log is closed or a rewrite exposes the line, no rewrite begins when the log is closed or
fails after it has closed it, and the process is not told to stop within a rewrite, then what the
file of the log holds replays to the store. -/
theorem replay_complete (maxKeys : Nat) (hm : 1 ≤ maxKeys) (pm : Option PersistenceManager)
    (pubSub : Option PubSubManager) (requirepass : Option Str) (disabledCommands : List Str)
    (path : Str) (fsyncPolicy : FsyncPolicy) (fs : Fs) (hfs : fs.WF) (hnew : fs.read path = none)
    (st0 : Server) (hst0 : st0 = main (CommandHandler.create (create maxKeys hm) pm none pubSub
      requirepass disabledCommands) path fsyncPolicy fs)
    (events : List ServerEvent) (hplain : Trace.Along next (Plain maxKeys) st0 events)
    (hrecorded : Trace.Along next Recorded st0 events) :
    ∃ text, logFile (st0.run events).handler = some text ∧ ∀ clocks k,
      (replay (create maxKeys hm) (readLines text) clocks).cell k =
        (st0.run events).handler.store.cell k := by
  obtain ⟨hparsed, hstart⟩ := live_start hm hfs hnew hst0
  have horderly : Trace.Along next (Orderly (Execution.Careful maxKeys)) st0 events :=
    (hplain.and hrecorded).imp (J := fun _ => True) (fun _ => trivial) (fun _ h =>
      ⟨fun x hx => ⟨h.1 x hx, h.2.commands x hx⟩, h.2.rejected, h.2.signal⟩) trivial
  exact live_replays (follows_along (follows_image maxKeys hm) hparsed hstart horderly
    List.prefix_rfl).2

def threeHsets (value : String) : List ServerEvent :=
  [send "HSET h f a", send ("HSET h f " ++ value), send "BGREWRITEAOF", .rewriteSettled,
    send "HSET h g c", .rewriteSettled, .rewriteSettled, .rewriteSettled,
    .signal (Clocks.still 0), send "HLEN h"]

theorem orderly_signal {Q : Execution → Prop} {st : Server} {clocks : Clocks}
    (h : ∀ w ∈ st.handler.aofWriter, w.rewriting = none) : st.Orderly Q (.signal clocks) :=
  ⟨fun _ h => absurd h List.not_mem_nil, fun he => (by cases he), fun _ => h⟩

theorem replay_complete_repeated_hset :
    ∃ text, logFile (booted.run (threeHsets "a")).handler = some text ∧
      (replay (InMemoryStore.create 2 Nat.two_pos) (readLines text) fun _ _ =>
        Clocks.still 0).cell ['h'] = (booted.run (threeHsets "a")).handler.store.cell ['h'] := by
  have hplain : Trace.Along next (Plain 2) booted (threeHsets "a") := by
    refine ⟨?_, ?_, ?_, ?_, ?_, ?_, ?_, ?_, ?_, ?_, trivial⟩ <;> unfold Plain <;> decide
  have hrecorded : Trace.Along next Recorded booted (threeHsets "a") :=
    ⟨orderly_send (by decide), orderly_send (by decide), orderly_send (by decide),
      orderly_settled, orderly_send (by decide), orderly_settled, orderly_settled,
      orderly_settled, orderly_signal (by decide), orderly_send (by decide), trivial⟩
  obtain ⟨text, hfile, hcell⟩ := replay_complete 2 Nat.two_pos
    (some (PersistenceManager.create none)) (some PubSubManager.empty) none [] "aof".toList .no
    Fs.empty Fs.wf_empty rfl booted rfl (threeHsets "a") hplain hrecorded
  exact ⟨text, hfile, hcell _ _⟩

/-- The second HSET overwrites the field and is not logged. -/
theorem overwriting_hset_lost :
    Trace.Along next (Plain 2) booted [send "HSET h f a", send "HSET h f b"] ∧
      logFile (booted.run [send "HSET h f a", send "HSET h f b"]).handler =
        some "HSET h f a\n".toList ∧
      (replay (InMemoryStore.create 2 Nat.two_pos) (readLines "HSET h f a\n".toList) fun _ _ =>
        Clocks.still 0).cell ['h'] ≠
          (booted.run [send "HSET h f a", send "HSET h f b"]).handler.store.cell ['h'] := by
  refine ⟨⟨?_, ?_, trivial⟩, by decide, by decide⟩ <;> unfold Plain <;> decide

/-! ## Being told to stop -/

/-- The store of a process that has closed its log. -/
structure Stopped (text : Str) (h : CommandHandler AofWriter) : Prop where
  lockstep : h.store.Lockstep
  writer : ∃ w, h.aofWriter = some w ∧ Shut text w

theorem Stopped.execute {text : Str} {h : CommandHandler AofWriter} (H : Stopped text h)
    {item : QueuedCommand} {clocks : Clocks}
    (hc : Execution.compacts ⟨h, item, clocks⟩ = false) (connection : ClientConnection) :
    Stopped text (h.executeCommand item.command item.line connection clocks).1 := by
  obtain ⟨w, hw, hshut⟩ := H.writer
  have hL := H.lockstep
  by_cases hmut : item.command.mutates = true
  · obtain ⟨key, f, hmu⟩ : ∃ key f, item.command.mutation (clocks 0) = some (key, f) :=
      Command.mutates_iff.mp hmut
    obtain ⟨reply, he⟩ := CommandHandler.executeCommand_mutation hL hmu item.line connection
    have hlockstep : (h.store.perform key (clocks 0) f).1.Lockstep :=
      hL.perform (Command.mutation_fits hmu)
    rw [he, CommandHandler.finish]
    split
    · simp only [CommandHandler.writeAof, hw, hshut.write]
      exact ⟨hlockstep, w, rfl, hshut⟩
    · exact ⟨hlockstep, w, hw, hshut⟩
  · have hread : item.command.mutates = false := Bool.eq_false_of_not_eq_true hmut
    have hrewrite : item.command ≠ .bgrewriteaof := by
      intro hr
      simp [Execution.compacts, hr, hw, hshut.idle] at hc
    have ho := CommandHandler.executeCommand_read hL hread hrewrite item.line connection clocks
    exact ⟨ho.store.lockstep, w, ho.log.trans hw, hshut⟩

theorem Stopped.next {text : Str} {st : Server} (hq : st.handler.Parsed)
    (H : Stopped text st.handler) {e : ServerEvent}
    (hc : ∀ x ∈ st.executionsOf e, x.compacts = false) : Stopped text (st.next e).handler := by
  obtain ⟨w, hw, hshut⟩ := H.writer
  by_cases hline : ∃ text connection clocks, e = .line text connection clocks
  · obtain ⟨line, connection, clocks, rfl⟩ := hline
    cases hl : st.listening with
    | false =>
      rw [next_deaf hl]
      exact H
    | true =>
      obtain ⟨hstore, hlog, -, -⟩ := st.handler.route_data line connection
      have H0 : Stopped text (st.handler.route line connection).1 :=
        ⟨by rw [hstore]; exact H.lockstep, w, hlog.trans hw, hshut⟩
      rw [executionsOf, if_pos hl] at hc
      rw [(next_line hl line connection clocks).1,
        (st.handler.handleLine_executed line connection clocks).1]
      exact executions_rule (P := fun _ h => Stopped _ h) (Q := fun x => x.compacts = false)
        (fun H _ hc => H.execute hc connection) _ 0 [] H0
        (CommandHandler.route_parsed hq line connection).2 hc
  · have hother : ∀ text connection clocks, e ≠ .line text connection clocks :=
      fun text connection clocks h => hline ⟨text, connection, clocks, h⟩
    refine ⟨(decays_next H.lockstep hother).lockstep, ?_⟩
    rcases aofWriter_next hother with e' | ⟨-, e'⟩ | ⟨-, e'⟩ | ⟨⟨clocks, rfl⟩, hp⟩
    · exact ⟨w, e'.trans hw, hshut⟩
    · exact ⟨w.settle, by rw [e', hw]; rfl, hshut.settle⟩
    · exact ⟨w.reject, by rw [e', hw]; rfl, hshut.reject⟩
    · exact ⟨w.stop.1, aofWriter_signal hp hw hshut.stop.1 clocks, hshut.stop.2⟩

theorem stopped_run {text : Str} (rest : List ServerEvent) : ∀ {st : Server}, st.handler.Parsed →
    Stopped text st.handler → (∀ x ∈ runExecutions st rest, x.compacts = false) →
      Stopped text (st.run rest).handler := by
  induction rest with
  | nil => exact fun _ H _ => H
  | cons e rest ih =>
    intro st hq H hc
    rw [runExecutions, List.forall_mem_append] at hc
    exact ih (parsed_next hq e) (H.next hq hc.1) hc.2

theorem serving_next {maxKeys : Nat} {st : Server} {e : ServerEvent} (hp : st.phase = .serving)
    (hc : st.Careful maxKeys e) : (st.next e).phase = .serving := by
  have hne : st.phase ≠ .exited := by
    rw [hp]
    decide
  rw [Server.next, if_neg hne]
  cases e with
  | signal clocks => exact absurd rfl (hc.serving clocks)
  | line text connection clocks =>
    simp only [step]
    split
    · rcases st.handler.handleLine text connection clocks with ⟨h', _ | reply⟩ <;> exact hp
    · exact hp
  | saveDone | saveFailed =>
    simp only [step, endSave]
    split
    · exact hp
    · split
      · exact hp
      · simp [hp]
  | sweep | tick =>
    simp only [step]
    split <;> exact hp
  | statsStopped | serverClosed =>
    simp only [step, hp, reduceCtorEq, if_false]
  | rewriteSettled | rewriteRejected | close => exact hp

/-- For every server as `main` starts it on an empty store and no log, and every run in which
commands set no deadline, find a slot free, come on one line and leave nothing unlogged, no line is
logged while a rewrite exposes it, and no rewrite fails after it has closed the log: at every
moment of the run, within rewrites and after any number of them, what the file of the log holds
replays to the store. If then it is told to stop with no rewrite under way, and none is started
any more, the file goes on replaying to the store as it was at the signal, whatever clients still
send. -/
theorem log_recovers (maxKeys : Nat) (hm : 1 ≤ maxKeys) (pm : Option PersistenceManager)
    (pubSub : Option PubSubManager) (requirepass : Option Str) (disabledCommands : List Str)
    (path : Str) (fsyncPolicy : FsyncPolicy) (fs : Fs) (hfs : fs.WF) (hnew : fs.read path = none)
    (st0 : Server) (hst0 : st0 = main (CommandHandler.create (create maxKeys hm) pm none pubSub
      requirepass disabledCommands) path fsyncPolicy fs)
    (events : List ServerEvent) (hcareful : Trace.Along next (Careful maxKeys) st0 events) :
    (∀ past, past <+: events →
      ∃ text, logFile (st0.run past).handler = some text ∧ ∀ clocks k,
        (replay (create maxKeys hm) (readLines text) clocks).cell k =
          (st0.run past).handler.store.cell k) ∧
    ∀ saveClocks rest, (∀ w ∈ (st0.run events).handler.aofWriter, w.rewriting = none) →
      (∀ x ∈ runExecutions (st0.run (events ++ [.signal saveClocks])) rest,
        x.compacts = false) →
      ∃ text, logFile (st0.run (events ++ .signal saveClocks :: rest)).handler = some text ∧
        ∀ clocks k, (replay (create maxKeys hm) (readLines text) clocks).cell k =
          (st0.run events).handler.store.cell k := by
  obtain ⟨hparsed0, hstart⟩ := live_start hm hfs hnew hst0
  have horderly : Trace.Along next (Orderly (Execution.Careful maxKeys)) st0 events :=
    hcareful.imp (J := fun _ => True) (fun _ => trivial) (fun _ h => h.orderly) trivial
  have halong := fun {past : List ServerEvent} (hpast : past <+: events) =>
    follows_along (follows_image maxKeys hm) hparsed0 hstart horderly hpast
  refine ⟨fun past hpast => live_replays (halong hpast).2, fun saveClocks rest hidle hrest => ?_⟩
  obtain ⟨hparsed, hlive⟩ := halong List.prefix_rfl
  obtain ⟨w, hw, -, hI⟩ := hlive.writer
  obtain ⟨text, hok, hshut, hI⟩ := hI.stop (hidle w hw)
  have hserving : (st0.run events).phase = .serving :=
    hcareful.keeps (J := fun st => st.phase = .serving) serving_next (by rw [hst0]; rfl)
  have hstopped : Stopped text ((st0.run events).next (.signal saveClocks)).handler :=
    ⟨(decays_next hlive.store.lockstep fun _ _ _ h => by cases h).lockstep, w.stop.1,
      aofWriter_signal hserving hw hok saveClocks, hshut⟩
  have hrun : st0.run (events ++ .signal saveClocks :: rest) =
      ((st0.run events).next (.signal saveClocks)).run rest := run_append st0 events _
  have hsignal : st0.run (events ++ [.signal saveClocks]) =
      (st0.run events).next (.signal saveClocks) := run_append st0 events _
  rw [hsignal] at hrest
  obtain ⟨-, w', hw', hshut'⟩ := stopped_run rest (parsed_next hparsed _) hstopped hrest
  refine ⟨text, ?_, fun clocks => (hI.mirrors clocks).cell⟩
  rw [hrun, logFile, hw']
  exact hshut'.file

def compacting : List ServerEvent :=
  [send "SET a 1", send "DEL a", send "RPUSH l x", send "BGREWRITEAOF", .rewriteSettled,
    send "RPUSH l y", .rewriteSettled, .rewriteSettled, .rewriteSettled]

theorem careful_send {maxKeys : Nat} {st : Server} {text : String}
    (h : ∀ x ∈ st.executionsOf (send text), x.Careful maxKeys) : st.Careful maxKeys (send text) :=
  ⟨orderly_send h, fun _ he => by cases he⟩

theorem careful_settled {maxKeys : Nat} {st : Server} : st.Careful maxKeys .rewriteSettled :=
  ⟨orderly_settled, fun _ he => by cases he⟩

theorem log_recovers_compacting :
    (∃ text, logFile (booted.run compacting).handler = some text ∧
      (replay (InMemoryStore.create 2 Nat.two_pos) (readLines text) fun _ _ =>
        Clocks.still 0).cell ['l'] = some ⟨.list [['x'], ['y']], none⟩) ∧
    ∃ text, logFile (booted.run
        (compacting ++ [.signal (Clocks.still 0), send "RPUSH l z"])).handler = some text ∧
      (replay (InMemoryStore.create 2 Nat.two_pos) (readLines text) fun _ _ =>
        Clocks.still 0).cell ['l'] = some ⟨.list [['x'], ['y']], none⟩ := by
  have hcareful : Trace.Along next (Careful 2) booted compacting :=
    ⟨careful_send (by decide), careful_send (by decide), careful_send (by decide),
      careful_send (by decide), careful_settled, careful_send (by decide), careful_settled,
      careful_settled, careful_settled, trivial⟩
  obtain ⟨hserving, hstopped⟩ := log_recovers 2 Nat.two_pos
    (some (PersistenceManager.create none)) (some PubSubManager.empty) none [] "aof".toList .no
    Fs.empty Fs.wf_empty rfl booted rfl compacting hcareful
  obtain ⟨text, hfile, hcell⟩ := hserving compacting List.prefix_rfl
  obtain ⟨text', hfile', hcell'⟩ := hstopped (Clocks.still 0) [send "RPUSH l z"] (by decide)
    (by decide)
  exact ⟨⟨text, hfile, (hcell _ _).trans (by decide)⟩,
    text', hfile', (hcell' _ _).trans (by decide)⟩

end Server

end MiniStore
