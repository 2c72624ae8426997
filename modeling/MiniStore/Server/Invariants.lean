import MiniStore.Server.Runs

/-!
# What holds along every run

`Sound` is the invariant of the engine: the store is in lockstep, holds nothing
empty and only keys a client can spell, and the log holds mutating commands only.
`steps_rule` is the induction over a run that the results on recovery use.
-/

namespace MiniStore

open InMemoryStore

/-- If the moment is that of a mutating command, it is one of `p`. A BGREWRITEAOF is not excluded,
and does nothing to the lines of an `AofLog`. -/
def Moment.runsOnly (p : Command → Bool) (m : Moment) : Bool :=
  m.item.all fun item => !item.command.mutates || p item.command

theorem Moment.command_of_runsOnly {p : Command → Bool} {m : Moment} (h : m.runsOnly p = true)
    {item : QueuedCommand} (hi : m.item = some item) {now : Clock} {key : Str}
    {f : Option Cell → Effect × Bool} (hm : item.command.mutation now = some (key, f)) :
    p item.command = true := by
  have hc : item.command.mutates = true := Command.mutates_iff.mpr ⟨key, f, hm⟩
  simpa [Moment.runsOnly, hi, hc] using h

def Command.setKey : Command → Option Str
  | .set key _ _ => some key
  | _ => none

def Command.pushKey : Command → Option Str
  | .lpush key _ | .rpush key _ => some key
  | _ => none

def Moment.setKey (m : Moment) : Option Str := m.item.bind (·.command.setKey)

def Moment.pushKey (m : Moment) : Option Str := m.item.bind (·.command.pushKey)

theorem Command.setKey_of_not_mutates {c : Command} (h : c.mutates = false) : c.setKey = none := by
  cases c with
  | set => cases h
  | _ => rfl

theorem Moment.setKey_of_not_mutates {m : Moment}
    (h : ∀ item ∈ m.item, item.command.mutates = false) : m.setKey = none := by
  unfold Moment.setKey
  cases hi : m.item with
  | none => rfl
  | some item => exact Command.setKey_of_not_mutates (h item hi)

namespace Engine

def Mutating (line : Str) : Prop := ∃ c, parseCommand line = .ok c ∧ c.mutates = true

/-- A run from an empty store and an empty log. -/
structure Fresh (maxKeys : Nat) (hm : 1 ≤ maxKeys) (h0 : Engine) : Prop where
  store : h0.store = create maxKeys hm
  log : h0.aofWriter = some AofLog.empty

theorem fresh_boot (maxKeys : Nat) (hm : 1 ≤ maxKeys) (pm : Option PersistenceManager)
    (pubSub : Option PubSubManager) (requirepass : Option Str) (disabledCommands : List Str) :
    Fresh maxKeys hm (Engine.boot maxKeys hm pm pubSub requirepass disabledCommands) := ⟨rfl, rfl⟩

/-- The invariant of the engine. -/
structure Sound (maxKeys : Nat) (h : Engine) : Prop where
  lockstep : h.store.Lockstep
  noEmpty : NoEmpty h.store
  spelled : ∀ k, h.store.cell k ≠ none → Text.IsToken k
  maxKeys : h.store.maxKeys = maxKeys
  logging : h.aofWriter.isSome = true
  logged : ∀ l ∈ h.lines, Mutating l

theorem Sound.decays {maxKeys : Nat} {h h' : Engine} (hs : Sound maxKeys h) {T : Int → Prop}
    (hd : Decays T h.store h'.store) (hw : h'.aofWriter.isSome = true)
    (hl : h'.lines = h.lines) : Sound maxKeys h' :=
  ⟨hd.lockstep, hd.noEmpty hs.noEmpty, fun k hk => hs.spelled k (hd.cell_ne_none hk),
    hd.maxKeys.trans hs.maxKeys, hw, hl ▸ hs.logged⟩

theorem noEmpty_perform {s : InMemoryStore} (hL : s.Lockstep) (hn : NoEmpty s) {c : Command}
    (hc : c.WF) {now : Clock} {key : Str} {f : Option Cell → Effect × Bool}
    (hm : c.mutation now = some (key, f)) : NoEmpty (s.perform key now f).1 := by
  have hpn : NoEmpty (s.purge key (now 0)) :=
    (hL.decays_purge (T := fun _ => True) key trivial).noEmpty hn
  exact hpn.commit (hL.purge key _) (Command.mutation_full hc hm (hpn key))

theorem isToken_perform {s : InMemoryStore} (hL : s.Lockstep)
    (hs : ∀ k, s.cell k ≠ none → Text.IsToken k) {c : Command} (hc : c.WF) {now : Clock} {key : Str}
    {f : Option Cell → Effect × Bool} (hm : c.mutation now = some (key, f)) (k : Str)
    (hk : (s.perform key now f).1.cell k ≠ none) : Text.IsToken k := by
  by_cases e : k = key
  · rw [e]
    exact Command.isToken_of_mutation hc hm
  · rcases hL.cell_perform_other e with e' | e'
    · exact hs k (e' ▸ hk)
    · exact absurd e' hk

theorem Sound.exec {maxKeys : Nat} {h : Engine} (hs : Sound maxKeys h) (item : QueuedCommand)
    (conn : ClientConnection) (clocks : Clocks) (hp : parseCommand item.line = .ok item.command) :
    Sound maxKeys (h.executeCommand item.command item.line conn clocks).1 := by
  obtain ⟨hx, hw⟩ := Engine.executes hs.lockstep hs.logging item conn clocks
  rcases hx with ⟨key, f, hm, hst, hli, -⟩ | ⟨-, e1, e2, -, -⟩ | ⟨-, hst, hli, -⟩
  · have hn := noEmpty_perform hs.lockstep hs.noEmpty (wf_of_parseCommand hp) hm
    have hsp := isToken_perform hs.lockstep hs.spelled (wf_of_parseCommand hp) hm
    refine ⟨hst ▸ hs.lockstep.perform (Command.mutation_fits hm), hst ▸ hn, hst ▸ hsp,
      by rw [hst, hs.lockstep.maxKeys_perform, hs.maxKeys], hw, fun l hl => ?_⟩
    rw [hli] at hl
    rcases List.mem_append.mp hl with hl | hl
    · exact hs.logged l hl
    · split at hl
      · rw [List.mem_singleton.mp hl]
        exact ⟨item.command, by rw [parseCommand_trim, hp], Command.mutates_iff.mpr ⟨_, _, hm⟩⟩
      · cases hl
  · have hd : Decays (fun _ => True) h.store (h.saveNow clocks).store :=
      Engine.decays_saveNow hs.lockstep fun _ _ => trivial
    exact hs.decays (e1 ▸ hd) hw (e2.trans (Engine.saveNow_lines h clocks))
  · exact hs.decays hst hw hli

theorem Fresh.lines {maxKeys : Nat} {hm : 1 ≤ maxKeys} {h0 : Engine} (h : Fresh maxKeys hm h0) :
    h0.lines = [] := by simp [Engine.lines, h.log, AofLog.empty]

theorem Fresh.sound {maxKeys : Nat} {hm : 1 ≤ maxKeys} {h0 : Engine} (h : Fresh maxKeys hm h0) :
    Sound maxKeys h0 where
  lockstep := h.store ▸ lockstep_create maxKeys hm
  noEmpty := by rw [h.store]; exact fun _ _ hc => nomatch hc
  spelled := by rw [h.store]; exact fun _ hk => absurd rfl hk
  maxKeys := by rw [h.store]; rfl
  logging := by rw [h.log]; rfl
  logged := by simp [h.lines]

theorem Sound.steps {maxKeys : Nat} {h0 : Engine} (h0s : Sound maxKeys h0) {ms : List Moment}
    {h : Engine} (hs : Engine.Steps h0 ms h) : Sound maxKeys h := by
  induction hs with
  | start => exact h0s
  | other _ hd ih =>
    obtain ⟨e1, e2, e3, -⟩ := hd
    exact ih.decays (T := fun _ => True) (by rw [e1]; exact ih.lockstep.decays_refl)
      (by rw [e3]; exact ih.logging) e2
  | exec item conn clocks _ hp ih => exact ih.exec item conn clocks hp
  | sweep n now _ ih =>
    exact ih.decays (ih.lockstep.decays_sweepExpired (T := fun _ => True) n trivial) ih.logging rfl
  | save clocks _ ih =>
    exact ih.decays (Engine.decays_saveNow (T := fun _ => True) ih.lockstep fun _ _ => trivial)
      (by rw [Engine.saveNow_aof]; exact ih.logging) (Engine.saveNow_lines ..)
  | idle _ _ ih => exact ih
  | saveDone _ ih => exact ⟨ih.lockstep, ih.noEmpty, ih.spelled, ih.maxKeys, ih.logging, ih.logged⟩
  | saveFailed _ ih =>
    exact ⟨ih.lockstep, ih.noEmpty, ih.spelled, ih.maxKeys, ih.logging, ih.logged⟩

/-- Every moment of the list satisfies `φ` with the moments before it. -/
def Along (φ : List Moment → Moment → Prop) (ms : List Moment) : Prop :=
  ∀ past m rest, ms = past ++ m :: rest → φ past m

theorem Along.init {φ : List Moment → Moment → Prop} {ms : List Moment} {m : Moment}
    (h : Along φ (ms ++ [m])) : Along φ ms :=
  fun past x rest e => h past x (rest ++ [m]) (by simp [e])

theorem Along.last {φ : List Moment → Moment → Prop} {ms : List Moment} {m : Moment}
    (h : Along φ (ms ++ [m])) : φ ms m := h ms m [] rfl

/-- The moments, each with those before it. -/
def withPast : List Moment → List Moment → List (List Moment × Moment)
  | _, [] => []
  | past, m :: rest => (past, m) :: withPast (past ++ [m]) rest

theorem mem_withPast (x : List Moment × Moment) : ∀ (ms past : List Moment),
    x ∈ withPast past ms ↔ ∃ ms' rest, ms = ms' ++ x.2 :: rest ∧ x.1 = past ++ ms'
  | [], past => by simp [withPast]
  | m :: ms, past => by
    rw [withPast, List.mem_cons, mem_withPast x ms]
    constructor
    · rintro (rfl | ⟨ms', rest, rfl, e⟩)
      · exact ⟨[], ms, rfl, (List.append_nil past).symm⟩
      · exact ⟨m :: ms', rest, rfl, by rw [e, List.append_assoc]; rfl⟩
    · rintro ⟨_ | ⟨m', ms'⟩, rest, e, hx⟩
      · obtain ⟨rfl, rfl⟩ := List.cons.inj e
        exact .inl (Prod.ext (by simpa using hx) rfl)
      · obtain ⟨rfl, rfl⟩ := List.cons.inj e
        exact .inr ⟨ms', rest, rfl, by rw [hx, List.append_assoc]; rfl⟩

instance {φ : List Moment → Moment → Prop} [∀ past m, Decidable (φ past m)] (ms : List Moment) :
    Decidable (Along φ ms) :=
  decidable_of_iff (∀ x ∈ withPast [] ms, φ x.1 x.2)
    ⟨fun h past m rest e => h (past, m) ((mem_withPast _ ms []).mpr ⟨past, rest, e, rfl⟩),
      fun h x hx => by
        obtain ⟨ms', rest, e, hp⟩ := (mem_withPast x ms []).mp hx
        rw [hp]
        exact h ms' x.2 rest e⟩

theorem along_of_forall {φ : Moment → Prop} {ms : List Moment} (h : ∀ m ∈ ms, φ m) :
    Along (fun _ => φ) ms := fun past m rest e => h m (by simp [e])

/-- The induction rule for what relates the moments, the store and the log of a
run: one case for a mutating command, one for everything else. -/
theorem steps_rule {maxKeys : Nat} {h0 : Engine} (h0s : Sound maxKeys h0)
    {φ : List Moment → Moment → Prop} {P : List Moment → InMemoryStore → List Str → Prop}
    (start : P [] h0.store h0.lines)
    (mutation : ∀ (ms : List Moment) (h : Engine) (item : QueuedCommand) (clocks : Clocks)
      (key : Str) (f : Option Cell → Effect × Bool), Sound maxKeys h → P ms h.store h.lines →
      φ ms ⟨h.store, h.lines, some item, clocks⟩ → parseCommand item.line = .ok item.command →
      item.command.mutation (clocks 0) = some (key, f) →
      P (ms ++ [⟨h.store, h.lines, some item, clocks⟩]) (h.store.perform key (clocks 0) f).1
        (h.lines ++ if (f (liveAt (clocks 0 0) (h.store.cell key))).2
          then [Text.trim item.line] else []))
    (decay : ∀ (ms : List Moment) (h : Engine) (item : Option QueuedCommand) (clocks : Clocks)
      (s' : InMemoryStore), Sound maxKeys h → P ms h.store h.lines →
      φ ms ⟨h.store, h.lines, item, clocks⟩ → (∀ it ∈ item, it.command.mutates = false) →
      Decays clocks.Reads h.store s' → P (ms ++ [⟨h.store, h.lines, item, clocks⟩]) s' h.lines)
    {ms : List Moment} {h : Engine} (hs : Engine.Steps h0 ms h) (ha : Along φ ms) :
    P ms h.store h.lines := by
  induction hs with
  | start => exact start
  | other _ hd ih =>
    obtain ⟨e1, e2, -, -⟩ := hd
    rw [e1, e2]; exact ih ha
  | @exec ms h item conn clocks hs hp ih =>
    have hS := h0s.steps hs
    rcases (Engine.executes hS.lockstep hS.logging item conn clocks).1 with
      ⟨key, f, hm, hst, hli, -⟩ | ⟨hc, e1, e2, -, -⟩ | ⟨hc, hst, hli, -⟩
    · rw [hst, hli]
      exact mutation ms h item clocks key f hS (ih ha.init) ha.last hp hm
    · rw [e1, e2, Engine.saveNow_lines]
      refine decay ms h (some item) clocks _ hS (ih ha.init) ha.last (fun it hit => ?_)
        (Engine.decays_saveNow hS.lockstep fun i j => ⟨i, j, rfl⟩)
      cases hit; rw [hc]; rfl
    · rw [hli]
      exact decay ms h (some item) clocks _ hS (ih ha.init) ha.last
        (fun it hit => by cases hit; exact hc) hst
  | @sweep ms h n now hs ih =>
    have hS := h0s.steps hs
    exact decay ms h none (fun _ => now) _ hS (ih ha.init) ha.last (fun _ hit => nomatch hit)
      (hS.lockstep.decays_sweepExpired n ⟨0, 0, rfl⟩)
  | @save ms h clocks hs ih =>
    have hS := h0s.steps hs
    rw [Engine.saveNow_lines]
    exact decay ms h none clocks _ hS (ih ha.init) ha.last (fun _ hit => nomatch hit)
      (Engine.decays_saveNow hS.lockstep fun i j => ⟨i, j, rfl⟩)
  | @idle ms h clocks hs ih =>
    have hS := h0s.steps hs
    exact decay ms h none clocks _ hS (ih ha.init) ha.last (fun _ hit => nomatch hit)
      hS.lockstep.decays_refl
  | saveDone _ ih => exact ih ha
  | saveFailed _ ih => exact ih ha

/-- The file and the dump under way, if there are any, satisfy `Q` with the log. -/
def Dumps (Q : List Str → Dump → Prop) (h : Engine) : Prop :=
  ∀ pm ∈ h.persistenceManager,
    (∀ dump ∈ pm.dumpFile, Q h.lines dump) ∧ ∀ p ∈ pm.saving, Q h.lines p.1

theorem Dumps.congr {Q : List Str → Dump → Prop} {h h' : Engine} (hd : Dumps Q h)
    (hpm : h'.persistenceManager = h.persistenceManager)
    (hl : ∀ dump, Q h.lines dump → Q h'.lines dump) : Dumps Q h' := by
  intro pm hm
  rw [hpm] at hm
  exact ⟨fun dump hf => hl dump ((hd pm hm).1 dump hf), fun p hp => hl p.1 ((hd pm hm).2 p hp)⟩

theorem Dumps.saveNow {Q : List Str → Dump → Prop} {h : Engine} (hd : Dumps Q h) {clocks : Clocks}
    (hx : Q h.lines (PersistenceManager.extract h.store clocks).2) : Dumps Q (h.saveNow clocks) := by
  cases hpm : h.persistenceManager with
  | none =>
    have e : h.saveNow clocks = h := by simp only [Engine.saveNow, hpm]
    rw [e]
    exact hd
  | some pm =>
    intro pm' hm
    rw [saveNow_lines]
    simp only [Engine.saveNow, hpm, Option.mem_some] at hm
    subst hm
    unfold PersistenceManager.save
    split
    · exact hd pm hpm
    · exact ⟨(hd pm hpm).1, fun p hp => by cases hp; exact hx⟩

/-- The induction rule for what relates every dump to the log: it outlasts the growth of
the log, and holds of what a save extracts. -/
theorem dumps_rule {maxKeys : Nat} {h0 : Engine} (h0s : Sound maxKeys h0)
    {φ : List Moment → Moment → Prop} {Q : List Str → Dump → Prop} (start : Dumps Q h0)
    (grow : ∀ log l dump, Q log dump → Q (log ++ l) dump)
    (extracted : ∀ (ms : List Moment) (h : Engine) (clocks : Clocks), Engine.Steps h0 ms h →
      Along φ ms → Q h.lines (PersistenceManager.extract h.store clocks).2)
    {ms : List Moment} {h : Engine} (hs : Engine.Steps h0 ms h) (ha : Along φ ms) :
    Dumps Q h := by
  induction hs with
  | start => exact start
  | other _ hd ih =>
    obtain ⟨-, e2, -, e4⟩ := hd
    exact (ih ha).congr e4 fun dump hq => by rw [e2]; exact hq
  | @exec ms h item conn clocks hs _ ih =>
    have hS := h0s.steps hs
    rcases (Engine.executes hS.lockstep hS.logging item conn clocks).1 with
      ⟨key, f, -, -, hli, hpm⟩ | ⟨-, -, e2, -, e4⟩ | ⟨-, -, hli, hpm⟩
    · exact (ih ha.init).congr hpm fun dump hq => by rw [hli]; exact grow _ _ _ hq
    · exact ((ih ha.init).saveNow (extracted ms h clocks hs ha.init)).congr e4 fun dump hq => by
        rw [e2]; exact hq
    · exact (ih ha.init).congr hpm fun dump hq => by rw [hli]; exact hq
  | sweep n now _ ih => exact (ih ha.init).congr rfl fun _ hq => hq
  | @save ms h clocks hs ih =>
    exact (ih ha.init).saveNow (extracted ms h clocks hs ha.init)
  | idle clocks _ ih => exact ih ha.init
  | @saveDone ms h _ ih =>
    intro pm' hm
    obtain ⟨pm, hpm, rfl⟩ := Option.map_eq_some_iff.mp hm
    obtain ⟨hfile, hsaving⟩ := ih ha pm hpm
    unfold PersistenceManager.saveDone
    split
    · exact ⟨hfile, hsaving⟩
    · next dump n hp =>
      exact ⟨fun d hd => by cases hd; exact hsaving (dump, n) hp, fun p hp => nomatch hp⟩
  | @saveFailed ms h _ ih =>
    intro pm' hm
    obtain ⟨pm, hpm, rfl⟩ := Option.map_eq_some_iff.mp hm
    exact ⟨(ih ha pm hpm).1, fun p hp => nomatch hp⟩

end Engine

end MiniStore
