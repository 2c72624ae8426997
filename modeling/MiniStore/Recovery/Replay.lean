import MiniStore.Server.Invariants

/-!
# Starting up

What `main` does before it serves: restore the dump into a new store, then feed
every line of the log to a handler without log, persistence or pub/sub
(`startup`, `replay`).

Every line the engine logs is a mutating command (`Sound.logged`), and replaying
such a line performs its cell function on its key (`replay_snoc`).
-/

namespace MiniStore

open InMemoryStore Engine

namespace Recovery

/-! ## The source's startup -/

/-- `dummyConnection`. -/
def replayConnection : ClientConnection := ⟨0, "replay".toList⟩

/-- One line of the log; blank lines are skipped. -/
def replayLine (clocks : Nat → Clocks) (h : Engine) (line : Str) : Engine :=
  if (Text.trim line).length > 0 then (h.handleLine line replayConnection clocks).1 else h

/-- The `i`-th line runs at `clocks i`. -/
def replayLoop (clocks : Nat → Nat → Clocks) : List Str → Nat → Engine → Engine
  | [], _, h => h
  | line :: rest, i, h => replayLoop clocks rest (i + 1) (replayLine (clocks i) h line)

/-- `new CommandHandler(store)`. -/
def replayHandler (s : InMemoryStore) : Engine := CommandHandler.create s none none none none []

/-- Replay a log over a store. -/
def replay (s : InMemoryStore) (lines : List Str) (clocks : Nat → Nat → Clocks) : InMemoryStore :=
  (replayLoop clocks lines 0 (replayHandler s)).store

/-- Restore the dump file, then replay the log. -/
def startup (maxKeys : Nat) (hm : 1 ≤ maxKeys) (dumpFile : Option Dump) (lines : List Str)
    (restoreClocks : Clocks) (replayClocks : Nat → Nat → Clocks) : InMemoryStore :=
  replay ((PersistenceManager.create dumpFile).restore (InMemoryStore.create maxKeys hm)
    restoreClocks).2.1 lines replayClocks

/-! ## Replaying a logged line -/

theorem trim_ne_nil {line : Str} {c : Command} (h : parseCommand line = .ok c) :
    (Text.trim line).length > 0 := by
  refine List.length_pos_iff.mpr fun e => ?_
  rw [← parseCommand_trim, e] at h
  cases h

/-- A mutating command passes the gates of the replay handler. -/
theorem route_replayHandler (s : InMemoryStore) {line : Str} {c : Command}
    (hp : parseCommand line = .ok c) (hc : c.mutates = true) :
    (replayHandler s).route line replayConnection = (replayHandler s, .direct c) := by
  have ht : (replayHandler s).routeTransaction c line replayConnection =
      (replayHandler s, .direct c) := by
    cases c <;> first | rfl | cases hc
  simp only [CommandHandler.route, hp]
  simpa [CommandHandler.needsAuth, CommandHandler.subscribed, replayHandler,
    CommandHandler.create] using ht

theorem replayLine_mutating {s : InMemoryStore} (hs : s.Lockstep) {line : Str} {c : Command}
    (hp : parseCommand line = .ok c) {clocks : Nat → Clocks} {key : Str}
    {f : Option Cell → Effect × Bool} (hm : c.mutation (clocks 0 0) = some (key, f)) :
    replayLine clocks (replayHandler s) line =
      replayHandler (s.perform key (clocks 0 0) f).1 := by
  have hc : c.mutates = true := Command.mutates_iff.mpr ⟨key, f, hm⟩
  obtain ⟨reply, he⟩ := CommandHandler.executeCommand_mutation (h := replayHandler s) hs hm line
    replayConnection
  rw [replayLine, if_pos (trim_ne_nil hp), CommandHandler.handleLine, route_replayHandler s hp hc]
  simp only [he, CommandHandler.finish]
  split <;> rfl

theorem route_replayHandler_cases (s : InMemoryStore) (line : Str) :
    (∃ h' reply, (replayHandler s).route line replayConnection = (h', .answered reply) ∧
        h'.store = s) ∨
      ∃ c, parseCommand line = .ok c ∧
        (replayHandler s).route line replayConnection = (replayHandler s, .direct c) := by
  cases hp : parseCommand line with
  | error m =>
    exact .inl ⟨replayHandler s, Reply.error m, by simp only [CommandHandler.route, hp], rfl⟩
  | ok c =>
    have e : (replayHandler s).route line replayConnection =
        (replayHandler s).routeTransaction c line replayConnection := by
      simp [CommandHandler.route, hp, CommandHandler.needsAuth, CommandHandler.subscribed,
        replayHandler, CommandHandler.create]
    rw [e]
    cases c with
    | multi | exec | discard => exact .inl ⟨_, _, rfl, rfl⟩
    | _ => exact .inr ⟨_, rfl, rfl⟩

/-- Replaying any line drops due keys at most, or performs the command it parses to. -/
theorem replayLine_cases {s : InMemoryStore} (hs : s.Lockstep) (clocks : Nat → Clocks)
    (line : Str) :
    Decays (fun _ => True) s (replayLine clocks (replayHandler s) line).store ∨
      ∃ c key f, parseCommand line = .ok c ∧ c.mutation (clocks 0 0) = some (key, f) ∧
        (replayLine clocks (replayHandler s) line).store =
          (s.perform key (clocks 0 0) f).1 := by
  by_cases hblank : (Text.trim line).length > 0
  · have e : replayLine clocks (replayHandler s) line =
        ((replayHandler s).handleLine line replayConnection clocks).1 := if_pos hblank
    rcases route_replayHandler_cases s line with ⟨h', reply, hr, hst⟩ | ⟨c, hp, hr⟩
    · left
      rw [e, CommandHandler.handleLine, hr]
      show Decays _ s h'.store
      rw [hst]
      exact hs.decays_refl
    · cases hc : c.mutates with
      | true =>
        obtain ⟨key, f, hm⟩ : ∃ key f, c.mutation (clocks 0 0) = some (key, f) :=
          Command.mutates_iff.mp hc
        exact .inr ⟨c, key, f, hp, hm, congrArg CommandHandler.store (replayLine_mutating hs hp hm)⟩
      | false =>
        left
        rw [e, CommandHandler.handleLine, hr]
        by_cases hrewrite : c = .bgrewriteaof
        · rw [hrewrite]
          exact hs.decays_refl
        · exact (CommandHandler.executeCommand_read (h := replayHandler s) hs hc hrewrite line
            replayConnection (clocks 0)).store.mono fun _ _ => trivial
  · left
    rw [replayLine, if_neg hblank]
    exact hs.decays_refl

theorem replayLine_rejected {line : Str} {m : Str} (hp : parseCommand line = .error m)
    (clocks : Nat → Clocks) (s : InMemoryStore) :
    replayLine clocks (replayHandler s) line = replayHandler s := by
  unfold replayLine
  split
  · simp only [CommandHandler.handleLine, CommandHandler.route, hp]
  · rfl

theorem replayLoop_append (clocks : Nat → Nat → Clocks) (ls ms : List Str) :
    ∀ (i : Nat) (h : Engine), replayLoop clocks (ls ++ ms) i h =
      replayLoop clocks ms (i + ls.length) (replayLoop clocks ls i h) := by
  induction ls with
  | nil => intro i h; rfl
  | cons l ls ih =>
    intro i h
    simp only [List.cons_append, replayLoop, ih, List.length_cons]
    rw [Nat.add_assoc, Nat.add_comm 1]

theorem replayLoop_mutating (clocks : Nat → Nat → Clocks) : ∀ (lines : List Str) (i : Nat)
    {s : InMemoryStore}, s.Lockstep → (∀ l ∈ lines, Mutating l) →
      ∃ s', replayLoop clocks lines i (replayHandler s) = replayHandler s' ∧ s'.Lockstep ∧
        s'.maxKeys = s.maxKeys
  | [], _, s, hs, _ => ⟨s, rfl, hs, rfl⟩
  | l :: ls, i, s, hs, hl => by
    obtain ⟨c, hp, hc⟩ := hl l List.mem_cons_self
    obtain ⟨key, f, hm⟩ : ∃ key f, c.mutation (clocks i 0 0) = some (key, f) :=
      Command.mutates_iff.mp hc
    have h1 : (s.perform key (clocks i 0 0) f).1.Lockstep := hs.perform (Command.mutation_fits hm)
    obtain ⟨s', he, hs', hmax⟩ := replayLoop_mutating clocks ls (i + 1) h1 fun l' h' =>
      hl l' (List.mem_cons_of_mem _ h')
    refine ⟨s', ?_, hs', hmax.trans hs.maxKeys_perform⟩
    rw [replayLoop, replayLine_mutating hs hp hm, he]

section

variable {s : InMemoryStore} (hs : s.Lockstep) {lines : List Str}
  (hl : ∀ l ∈ lines, Mutating l) (clocks : Nat → Nat → Clocks)

include hs hl

theorem lockstep_replay : (replay s lines clocks).Lockstep := by
  obtain ⟨s', he, hs', -⟩ := replayLoop_mutating clocks lines 0 hs hl
  rw [replay, he]; exact hs'

theorem maxKeys_replay : (replay s lines clocks).maxKeys = s.maxKeys := by
  obtain ⟨s', he, -, hmax⟩ := replayLoop_mutating clocks lines 0 hs hl
  rw [replay, he]; exact hmax

theorem replay_snoc {line : Str} {c : Command} (hp : parseCommand line = .ok c) {key : Str}
    {f : Option Cell → Effect × Bool}
    (hm : c.mutation (clocks lines.length 0 0) = some (key, f)) :
    replay s (lines ++ [line]) clocks =
      ((replay s lines clocks).perform key (clocks lines.length 0 0) f).1 := by
  obtain ⟨s', he, hs', -⟩ := replayLoop_mutating clocks lines 0 hs hl
  have : replay s lines clocks = s' := by rw [replay, he]; rfl
  rw [this, replay, replayLoop_append, he, Nat.zero_add, replayLoop, replayLine_mutating hs' hp hm]
  rfl

theorem replay_logged {line : Str} {c : Command} (hp : parseCommand line = .ok c) {key : Str}
    {f : Option Cell → Effect × Bool} (hm : c.mutation (clocks lines.length 0 0) = some (key, f))
    (b : Bool) : replay s (lines ++ if b then [Text.trim line] else []) clocks =
      if b then ((replay s lines clocks).perform key (clocks lines.length 0 0) f).1
      else replay s lines clocks := by
  cases b with
  | true => exact replay_snoc hs hl clocks (by rw [parseCommand_trim, hp]) hm
  | false => simp

end

/-! ## Replaying at one instant -/

/-- The deadlines a command sets lie in the future. -/
theorem liveAt_onCell {c : Command} (hc : c.WF) {t : Int} {key : Str}
    {f : Option Cell → Effect × Bool} (hm : c.mutation (Clock.still t) = some (key, f))
    {x : Option Cell} (hx : liveAt t x = x) :
    liveAt t ((f x).1.action.onCell x) = (f x).1.action.onCell x := by
  cases hy : (f x).1.action.onCell x with
  | none => rfl
  | some y =>
    refine liveAt_eq_some.mpr ⟨rfl, ?_⟩
    unfold Cell.expired
    rcases Command.deadline_onCell hm hy with e | e | ⟨y', hy', e⟩
    · rw [e]
    · rw [e]
      cases c with
      | set k v n =>
        cases n with
        | none => rfl
        | some n =>
          have hn : 1 ≤ n := (hc.2.2 n rfl).1
          refine decide_eq_false fun hle : t + n * 1000 ≤ t => ?_
          omega
      | expire k n =>
        have hn : 1 ≤ n := hc.2.1
        refine decide_eq_false fun hle : t + n * 1000 ≤ t => ?_
        omega
      | _ => rfl
    · rw [e]
      obtain rfl : x = some y' := hy'
      exact (liveAt_eq_some.mp hx).2

/-- A replay at one instant expires nothing. -/
theorem liveAt_replay (t : Int) {s : InMemoryStore} (hs : s.Lockstep)
    (hlive : ∀ k, liveAt t (s.cell k) = s.cell k) (lines : List Str)
    (hl : ∀ l ∈ lines, Mutating l) (k : Str) :
    liveAt t ((replay s lines fun _ _ => Clocks.still t).cell k) =
      (replay s lines fun _ _ => Clocks.still t).cell k := by
  induction lines using List.reverseRecOn generalizing k with
  | nil => exact hlive k
  | append_singleton lines l ih =>
    have hl' : ∀ l' ∈ lines, Mutating l' := fun l' h' => hl l' (List.mem_append_left _ h')
    obtain ⟨c, hp, hc⟩ := hl l (List.mem_append_right _ (List.mem_singleton.mpr rfl))
    obtain ⟨key, f, hm⟩ : ∃ key f, c.mutation (Clock.still t) = some (key, f) :=
      Command.mutates_iff.mp hc
    have hr := lockstep_replay hs hl' fun _ _ => Clocks.still t
    rw [replay_snoc hs hl' _ hp hm]
    by_cases hk : k = key
    · have hself := ih hl' key
      rw [hk, hr.cell_perform_self]
      show liveAt t ((f (liveAt t _)).1.action.onCell (liveAt t _)) =
        (f (liveAt t _)).1.action.onCell (liveAt t _)
      rw [hself]
      exact liveAt_onCell (wf_of_parseCommand hp) hm hself
    · rcases hr.cell_perform_other hk with e | e
      · rw [e]; exact ih hl' k
      · rw [e]; rfl

end Recovery

end MiniStore
