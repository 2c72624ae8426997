import MiniStore.Recovery.Replay

/-!
# Replay across expirations

Nothing in the log says that a key has expired, and a replay runs at one instant:
the replayed store still holds the keys that have expired and have not been SET
since (`ghosts`). The commands on such a key are not logged, except a SET, which
overwrites it, and a push, which creates the list anew while the replay pushes
onto the ghost.
-/

namespace MiniStore

open InMemoryStore Engine

/-- Every mutating command but HSET and HDEL. -/
def Command.onStringsAndLists : Command → Bool
  | .hset .. | .hdel .. => false
  | _ => true

def Moment.due (m : Moment) : List Str :=
  m.store.values.keys.filter fun k => (liveAt m.time (m.store.cell k)).isNone

namespace Recovery

/-! ## Ghosts -/

/-- The keys that have expired once `m` is over, given those that had before. -/
def ghostsAt (ghosts : List Str) (m : Moment) : List Str :=
  ghosts ++ m.due.filter fun k => k ∉ ghosts

/-- The keys that have expired and have not been SET since. -/
def ghosts (ms : List Moment) : List Str :=
  ms.foldl (fun ghosts m => (ghostsAt ghosts m).filter fun k => m.setKey ≠ some k) []

/-- A push about to run is on no key that has expired and has not been SET since. -/
def PushesNoGhost (past : List Moment) (m : Moment) : Prop :=
  ∀ key ∈ m.pushKey, key ∉ ghostsAt (ghosts past) m

instance (past : List Moment) (m : Moment) : Decidable (PushesNoGhost past m) :=
  inferInstanceAs (Decidable (∀ key ∈ m.pushKey, _))

/-- The stored keys and the ghosts leave a slot free. -/
def RoomForGhosts (maxKeys : Nat) (past : List Moment) (m : Moment) : Prop :=
  m.store.size + ((ghosts past).filter fun k => (m.store.cell k).isNone).length < maxKeys

instance (maxKeys : Nat) (past : List Moment) (m : Moment) :
    Decidable (RoomForGhosts maxKeys past m) := inferInstanceAs (Decidable (_ < _))

/-! ## Cells that differ in their deadlines -/

/-- The same value, and a deadline on both sides or on none. -/
def SameButDeadline (c c' : Option Cell) : Prop :=
  c.map (fun c => (c.value, c.deadline.isSome)) = c'.map fun c => (c.value, c.deadline.isSome)

theorem sameButDeadline_some {v v' : StoredValue} {d d' : Option Int} :
    SameButDeadline (some ⟨v, d⟩) (some ⟨v', d'⟩) ↔ v = v' ∧ d.isSome = d'.isSome := by
  simp [SameButDeadline]

/-- Such cells are both absent, or both present with one value. -/
theorem SameButDeadline.cases {c c' : Option Cell} (h : SameButDeadline c c') :
    c = none ∧ c' = none ∨
      ∃ v d d', c = some ⟨v, d⟩ ∧ c' = some ⟨v, d'⟩ ∧ d.isSome = d'.isSome := by
  rcases c with _ | ⟨v, d⟩ <;> rcases c' with _ | ⟨v', d'⟩
  · exact .inl ⟨rfl, rfl⟩
  · cases h
  · cases h
  · obtain ⟨rfl, hd⟩ := sameButDeadline_some.mp h
    exact .inr ⟨v, d, d', rfl, rfl, hd⟩

theorem mutation_congr {c : Command} {now now' : Clock} {key : Str}
    {f f' : Option Cell → Effect × Bool} (hm : c.mutation now = some (key, f))
    (hm' : c.mutation now' = some (key, f')) {x x' : Option Cell} (h : SameButDeadline x x') :
    (f x).2 = (f' x').2 ∧
      SameButDeadline ((f x).1.action.onCell x) ((f' x').1.action.onCell x') := by
  cases c with
  | set k v n =>
    cases hm; cases hm'
    cases n <;> exact ⟨rfl, rfl⟩
  | del k =>
    cases hm; cases hm'
    rcases h.cases with ⟨rfl, rfl⟩ | ⟨v, d, d', rfl, rfl, -⟩ <;> exact ⟨rfl, rfl⟩
  | expire k n =>
    cases hm; cases hm'
    rcases h.cases with ⟨rfl, rfl⟩ | ⟨v, d, d', rfl, rfl, -⟩ <;> exact ⟨rfl, rfl⟩
  | persist k =>
    cases hm; cases hm'
    rcases h.cases with ⟨rfl, rfl⟩ | ⟨v, _ | d, _ | d', rfl, rfl, hd⟩
    · exact ⟨rfl, rfl⟩
    · exact ⟨rfl, rfl⟩
    · cases hd
    · cases hd
    · exact ⟨rfl, rfl⟩
  | lpush k vs | rpush k vs =>
    cases hm; cases hm'
    rcases h.cases with ⟨rfl, rfl⟩ | ⟨_ | l | m, d, d', rfl, rfl, hd⟩
    · exact ⟨rfl, rfl⟩
    · exact ⟨rfl, h⟩
    · exact ⟨rfl, sameButDeadline_some.mpr ⟨rfl, hd⟩⟩
    · exact ⟨rfl, h⟩
  | lpop k | rpop k =>
    cases hm; cases hm'
    rcases h.cases with ⟨rfl, rfl⟩ | ⟨_ | l | m, d, d', rfl, rfl, hd⟩
    · exact ⟨rfl, rfl⟩
    · exact ⟨rfl, h⟩
    · simp only [loggedBy, popCell]
      split
      · exact ⟨rfl, rfl⟩
      · exact ⟨rfl, sameButDeadline_some.mpr ⟨rfl, hd⟩⟩
    · exact ⟨rfl, h⟩
  | hset k pairs =>
    cases hm; cases hm'
    rcases h.cases with ⟨rfl, rfl⟩ | ⟨_ | l | m, d, d', rfl, rfl, hd⟩
    · exact ⟨rfl, rfl⟩
    · exact ⟨rfl, h⟩
    · exact ⟨rfl, h⟩
    · exact ⟨rfl, sameButDeadline_some.mpr ⟨rfl, hd⟩⟩
  | hdel k fields =>
    cases hm; cases hm'
    rcases h.cases with ⟨rfl, rfl⟩ | ⟨_ | l | m, d, d', rfl, rfl, hd⟩
    · exact ⟨rfl, rfl⟩
    · exact ⟨rfl, h⟩
    · exact ⟨rfl, h⟩
    · simp only [loggedBy, hdelCell]
      split
      · exact ⟨rfl, rfl⟩
      · split
        · exact ⟨rfl, sameButDeadline_some.mpr ⟨rfl, hd⟩⟩
        · exact ⟨rfl, h⟩
  | _ => cases hm

/-! ## The simulation -/

theorem mem_due {m : Moment} {k : Str} :
    k ∈ m.due ↔ m.store.cell k ≠ none ∧ liveAt m.time (m.store.cell k) = none := by
  rw [Moment.due, List.mem_filter, OrdMap.mem_keys_iff_has, has_iff_cell,
    Option.isNone_iff_eq_none]

theorem mem_ghostsAt {gs : List Str} {m : Moment} {k : Str} :
    k ∈ ghostsAt gs m ↔ k ∈ gs ∨ k ∈ m.due := by
  by_cases h : k ∈ gs <;> simp [ghostsAt, h]

theorem ghosts_append (ms : List Moment) (m : Moment) :
    ghosts (ms ++ [m]) = (ghostsAt (ghosts ms) m).filter fun k => m.setKey ≠ some k := by
  simp [ghosts]

theorem ghosts_other {m : Moment} (h : m.setKey = none) (ms : List Moment) :
    ghosts (ms ++ [m]) = ghostsAt (ghosts ms) m := by
  rw [ghosts_append, h, List.filter_eq_self]
  simp

/-- No ghost is live, and every other key is in the replayed store what it is in the
live one, but for the time of its deadline. -/
structure Haunted (ms : List Moment) (live replayed : InMemoryStore) : Prop where
  gone : ∀ k ∈ ghosts ms, ∃ m ∈ ms, liveAt m.time (live.cell k) = none
  cell : ∀ k, k ∉ ghosts ms → SameButDeadline (live.cell k) (replayed.cell k)

section

variable {ms : List Moment} {m : Moment} {replayed : InMemoryStore}
  (h : Haunted ms m.store replayed) (hmono : ∀ p ∈ ms, p.time ≤ m.time)

include h

/-- The replayed store holds stored keys and ghosts only. -/
theorem Haunted.size_lt (hr : replayed.Lockstep) {maxKeys : Nat}
    (hroom : RoomForGhosts maxKeys ms m) : replayed.size < maxKeys := by
  have hsub : ∀ k, replayed.cell k ≠ none →
      k ∈ m.store.values.keys ++ (ghosts ms).filter fun k => (m.store.cell k).isNone := by
    intro k hk
    rw [List.mem_append, OrdMap.mem_keys_iff_has, has_iff_cell]
    cases hc : m.store.cell k with
    | some c => exact .inl (Option.some_ne_none c)
    | none =>
      refine .inr (List.mem_filter.mpr ⟨?_, by simp [hc]⟩)
      by_contra hg
      rcases (h.cell k hg).cases with ⟨-, e⟩ | ⟨v, d, d', e, -⟩
      · exact hk e
      · rw [hc] at e; cases e
  have hle := hr.size_le_of_subset hsub
  rw [List.length_append, OrdMap.length_keys] at hle
  exact Nat.lt_of_le_of_lt hle hroom

include hmono

theorem Haunted.gone_at {k : Str} (hk : k ∈ ghostsAt (ghosts ms) m) :
    liveAt m.time (m.store.cell k) = none := by
  rcases mem_ghostsAt.mp hk with hk | hk
  · obtain ⟨p, hp, e⟩ := h.gone k hk
    rw [← liveAt_liveAt (hmono p hp), e]; rfl
  · exact (mem_due.mp hk).2

omit hmono in
theorem Haunted.live_at {k : Str} (hk : k ∉ ghostsAt (ghosts ms) m) :
    liveAt m.time (m.store.cell k) = m.store.cell k ∧
      SameButDeadline (m.store.cell k) (replayed.cell k) := by
  rw [mem_ghostsAt, not_or, mem_due, not_and] at hk
  refine ⟨?_, h.cell k hk.1⟩
  cases hc : m.store.cell k with
  | none => rfl
  | some c =>
    rw [liveAt_some]
    split
    · next he => exact absurd (by rw [hc, liveAt_some, if_pos he]) (hk.2 (by simp [hc]))
    · rfl

theorem Haunted.update {live' replayed' : InMemoryStore} {key : Str}
    (hg : ∀ k, k ≠ key → (k ∈ ghosts (ms ++ [m]) ↔ k ∈ ghostsAt (ghosts ms) m))
    (hl : ∀ k, k ≠ key → live'.cell k = m.store.cell k)
    (hr : ∀ k, k ≠ key → replayed'.cell k = replayed.cell k)
    (hgone : key ∈ ghosts (ms ++ [m]) → live'.cell key = none)
    (hcell : key ∉ ghosts (ms ++ [m]) → SameButDeadline (live'.cell key) (replayed'.cell key)) :
    Haunted (ms ++ [m]) live' replayed' := by
  refine ⟨fun k hk => ⟨m, by simp, ?_⟩, fun k hk => ?_⟩
  · by_cases e : k = key
    · rw [e, hgone (e ▸ hk)]; rfl
    · rw [hl k e, h.gone_at hmono ((hg k e).mp hk)]
  · by_cases e : k = key
    · rw [e] at hk ⊢; exact hcell hk
    · rw [hl k e, hr k e]
      exact (h.live_at fun hk' => hk ((hg k e).mpr hk')).2

/-- Where keys only decay, what is gone is a ghost. -/
theorem Haunted.decays {live' : InMemoryStore} (hd : Decays (· = m.time) m.store live')
    (hno : m.setKey = none) : Haunted (ms ++ [m]) live' replayed := by
  have hg := ghosts_other hno ms
  refine ⟨fun k hk => ⟨m, by simp, ?_⟩, fun k hk => ?_⟩
  · rw [hg] at hk
    rcases hd.cell k with e | ⟨e, -⟩
    · rw [e, h.gone_at hmono hk]
    · rw [e]; rfl
  · rw [hg] at hk
    obtain ⟨hlive, hsame⟩ := h.live_at hk
    rcases hd.cell k with e | ⟨e, t, rfl, hgone⟩
    · rw [e]; exact hsame
    · rw [← hlive, hgone] at hsame
      rw [e]; exact hsame

end

/-- The moments the replay gets right: a command on strings and lists at one instant,
no earlier than those before, with a slot free, and no push onto a ghost. -/
structure Exorcised (maxKeys : Nat) (past : List Moment) (m : Moment) : Prop where
  command : m.runsOnly Command.onStringsAndLists = true
  still : ∀ i j, m.clocks i j = m.time
  mono : ∀ p ∈ past, p.time ≤ m.time
  room : RoomForGhosts maxKeys past m
  push : PushesNoGhost past m

/-- On a key that is absent, only SET and the pushes do anything; the rest of the
commands on strings and lists are not logged. -/
theorem mutation_absent {c : Command} (hc : c.onStringsAndLists = true) {now : Clock} {key : Str}
    {f : Option Cell → Effect × Bool} (hm : c.mutation now = some (key, f))
    (hset : c.setKey = none) (hpush : c.pushKey ≠ some key) :
    (f none).1.action.onCell none = none ∧ (f none).2 = false := by
  cases c with
  | set => cases hset
  | lpush | rpush => cases hm; exact absurd rfl hpush
  | hset | hdel => cases hc
  | del | expire | persist | lpop | rpop => cases hm; exact ⟨rfl, rfl⟩
  | _ => cases hm

section

variable {maxKeys : Nat} {ms : List Moment} {m : Moment} {replayed : InMemoryStore}
  (h : Haunted ms m.store replayed) (hφ : Exorcised maxKeys ms m) {item : QueuedCommand}
  (hi : m.item = some item) {key : Str} {f f' : Option Cell → Effect × Bool}
  (hm : item.command.mutation (m.clocks 0) = some (key, f)) {now : Clock}
  (hm' : item.command.mutation now = some (key, f')) {live' replayed' : InMemoryStore}
  (hlive : ∀ k, live'.cell k = if k = key then
    (f (liveAt m.time (m.store.cell key))).1.action.onCell (liveAt m.time (m.store.cell key))
    else m.store.cell k)

include h hφ hi hm hlive

/-- A command other than SET on a ghost does nothing and is not logged. -/
theorem Haunted.on_ghost (hset : item.command.setKey = none)
    (hg : ghosts (ms ++ [m]) = ghostsAt (ghosts ms) m) (hk : key ∈ ghostsAt (ghosts ms) m) :
    (f (liveAt m.time (m.store.cell key))).2 = false ∧ Haunted (ms ++ [m]) live' replayed := by
  have hpush : item.command.pushKey ≠ some key := fun e =>
    hφ.push key (by rw [Moment.pushKey, hi]; exact e) hk
  obtain ⟨he, hlog⟩ := mutation_absent (Moment.command_of_runsOnly hφ.command hi hm) hm hset hpush
  have hgone := h.gone_at hφ.mono hk
  have hself := hlive key
  rw [if_pos rfl, hgone, he] at hself
  refine ⟨by rw [hgone, hlog], h.update hφ.mono (fun k _ => by rw [hg])
    (fun k hk => (hlive k).trans (if_neg hk)) (fun _ _ => rfl) (fun _ => hself)
    fun hk' => absurd (hg ▸ hk) hk'⟩

theorem Haunted.unlogged (hp : parseCommand item.line = .ok item.command)
    (hn : Cell.NonEmpty (m.store.cell key))
    (hg : ghosts (ms ++ [m]) = ghostsAt (ghosts ms) m) (hk : key ∉ ghostsAt (ghosts ms) m)
    (hlog : (f (liveAt m.time (m.store.cell key))).2 = false) :
    Haunted (ms ++ [m]) live' replayed := by
  obtain ⟨hself, hsame⟩ := h.live_at hk
  have hc := Moment.command_of_runsOnly hφ.command hi hm
  rw [hself] at hlog
  refine h.update hφ.mono (fun k _ => by rw [hg]) (fun k hk => (hlive k).trans (if_neg hk))
    (fun _ _ => rfl) (fun hk' => absurd (hg ▸ hk') hk) fun _ => ?_
  rw [hlive, if_pos rfl, hself]
  rcases Command.onCell_of_unlogged (wf_of_parseCommand hp) hm hn hlog with e | ⟨pairs, o, d, e, -⟩
  · rw [e]; exact hsame
  · rw [e] at hc; cases hc

variable (hreplayed : ∀ k, replayed'.cell k =
  if k = key then (f' (replayed.cell key)).1.action.onCell (replayed.cell key) else replayed.cell k)

include hm' hreplayed

omit hi in
theorem Haunted.logged (hg : ghosts (ms ++ [m]) = ghostsAt (ghosts ms) m)
    (hk : key ∉ ghostsAt (ghosts ms) m) : Haunted (ms ++ [m]) live' replayed' := by
  obtain ⟨hself, hsame⟩ := h.live_at hk
  refine h.update hφ.mono (fun k _ => by rw [hg]) (fun k hk => (hlive k).trans (if_neg hk))
    (fun k hk => (hreplayed k).trans (if_neg hk)) (fun hk' => absurd (hg ▸ hk') hk) fun _ => ?_
  rw [hlive, if_pos rfl, hself, hreplayed, if_pos rfl]
  exact (mutation_congr hm hm' hsame).2

theorem Haunted.set {k' : Str} (hset : item.command.setKey = some k') :
    (f (liveAt m.time (m.store.cell key))).2 = true ∧ Haunted (ms ++ [m]) live' replayed' := by
  have hg := ghosts_append ms m
  obtain ⟨line, c⟩ := item
  cases c with
  | set k v n =>
    cases hm; cases hm'
    rw [show m.setKey = some key by rw [Moment.setKey, hi]; rfl] at hg
    refine ⟨rfl, h.update hφ.mono (fun k hk => ?_) (fun k hk => (hlive k).trans (if_neg hk))
      (fun k hk => (hreplayed k).trans (if_neg hk)) (fun hk => ?_) fun _ => ?_⟩
    · rw [hg, List.mem_filter]; simp [Ne.symm hk]
    · rw [hg] at hk; simp at hk
    · rw [hlive, if_pos rfl, hreplayed, if_pos rfl]
      cases n <;> rfl
  | _ => cases hset

end

/-- Along a run of such moments, the replay of the log differs from the store in the
ghosts only. -/
theorem haunted_steps {maxKeys : Nat} {hm : 1 ≤ maxKeys} {h0 : Engine} (h0f : Fresh maxKeys hm h0)
    (T : Int) {ms : List Moment} {h : Engine} (hs : Engine.Steps h0 ms h)
    (ha : Along (Exorcised maxKeys) ms) :
    Haunted ms h.store (replay (create maxKeys hm) h.lines fun _ _ => Clocks.still T) := by
  have hL := lockstep_create maxKeys hm
  refine steps_rule (P := fun ms s lines =>
    Haunted ms s (replay (create maxKeys hm) lines fun _ _ => Clocks.still T))
    h0f.sound ?_ ?_ ?_ hs ha
  · rw [h0f.lines, h0f.store]
    exact ⟨fun k hk => (nomatch hk), fun k _ => rfl⟩
  · intro ms h item clk key f hS ih hφ hp hmu
    obtain ⟨f', hmu'⟩ := Command.mutation_key hmu (Clock.still T)
    have hlr := lockstep_replay hL hS.logged fun _ _ => Clocks.still T
    have hsize : h.store.size < h.store.maxKeys := by
      have : h.store.size + _ < maxKeys := hφ.room
      rw [hS.maxKeys]
      omega
    have hrsize := Haunted.size_lt (m := ⟨h.store, h.lines, some item, clk⟩) ih hlr hφ.room
    have hlive := hS.lockstep.cell_perform_free key (clk 0) f hsize
    have hreplayed := hlr.cell_perform_free key (Clock.still T) f'
      (by rw [maxKeys_replay hL hS.logged]; exact hrsize)
    rw [show Clock.still T 0 = T from rfl,
      liveAt_replay T hL (fun _ => rfl) h.lines hS.logged key] at hreplayed
    rw [replay_logged hL hS.logged _ hp hmu']
    cases hset : item.command.setKey with
    | some k' =>
      obtain ⟨hlog, hh⟩ : (f (liveAt (clk 0 0) (h.store.cell key))).2 = true ∧ _ :=
        ih.set hφ rfl hmu hmu' hlive hreplayed hset
      rw [if_pos hlog]
      exact hh
    | none =>
      have hg := ghosts_other (m := ⟨h.store, h.lines, some item, clk⟩) hset ms
      by_cases hk : key ∈ ghostsAt (ghosts ms) ⟨h.store, h.lines, some item, clk⟩
      · obtain ⟨hlog, hh⟩ : (f (liveAt (clk 0 0) (h.store.cell key))).2 = false ∧ _ :=
          ih.on_ghost hφ rfl hmu hlive hset hg hk
        rw [hlog, if_neg Bool.false_ne_true]
        exact hh
      · split
        · exact ih.logged hφ hmu hmu' hlive hreplayed hg hk
        · next hlog =>
          exact ih.unlogged hφ rfl hmu hlive hp (hS.noEmpty key) hg hk (Bool.eq_false_iff.mpr hlog)
  · intro ms h item clk s' _ ih hφ hit hd
    refine ih.decays (m := ⟨h.store, h.lines, item, clk⟩) hφ.mono (hd.mono ?_)
      (Moment.setKey_of_not_mutates (m := ⟨h.store, h.lines, item, clk⟩) hit)
    rintro t ⟨i, j, rfl⟩
    exact hφ.still i j

/-- For every run of lines of any connections whose mutating commands are those on
strings and lists, with a clock that stands still during each command and never goes
back: if no push is on a key that has expired and has not been SET since, and the
stored keys and such keys always leave a slot free, then every key that has no
deadline at the end has the same value after replaying the log at any one instant. -/
theorem replay_expirations (maxKeys : Nat) (hm : 1 ≤ maxKeys) (pm : Option PersistenceManager)
    (pubSub : Option PubSubManager) (requirepass : Option Str) (disabledCommands : List Str)
    (events : List Event) (h0 : Engine)
    (h0e : h0 = Engine.boot maxKeys hm pm pubSub requirepass disabledCommands)
    (hcmd : ∀ m ∈ h0.runMoments events, m.runsOnly Command.onStringsAndLists = true)
    (hstill : ∀ e ∈ events, e.AllClocks fun clocks => ∀ i j, clocks i j = clocks 0 0)
    (hmono : (h0.runMoments events).Pairwise fun m m' => m.time ≤ m'.time)
    (hroom : Along (RoomForGhosts maxKeys) (h0.runMoments events))
    (hpush : Along PushesNoGhost (h0.runMoments events)) (T : Int) (k : Str) (v : StoredValue)
    (hk : (h0.run events).store.cell k = some ⟨v, none⟩) :
    (replay (create maxKeys hm) (h0.run events).lines fun _ _ => Clocks.still T).cell k =
      some ⟨v, none⟩ := by
  have hf : Fresh maxKeys hm h0 := h0e ▸ fresh_boot maxKeys hm pm pubSub requirepass disabledCommands
  have hs : Engine.Steps h0 (h0.runMoments events) (h0.run events) :=
    h0e ▸ Engine.steps_boot maxKeys hm pm pubSub requirepass disabledCommands events
  have hh := haunted_steps hf T hs fun past m rest e => by
    have hm : m ∈ h0.runMoments events := by simp [e]
    refine ⟨hcmd m hm, allClocks_runMoments events _ hstill m hm, fun p hp => ?_,
      hroom past m rest e, hpush past m rest e⟩
    exact (List.pairwise_append.mp (e ▸ hmono)).2.2 p hp m List.mem_cons_self
  have hno : k ∉ ghosts (h0.runMoments events) := by
    intro hg
    obtain ⟨m, -, e⟩ := hh.gone k hg
    rw [hk] at e
    cases e
  rcases (hh.cell k hno).cases with ⟨e, -⟩ | ⟨v', d, d', e, e', hd⟩
  · rw [hk] at e; cases e
  · rw [hk] at e
    cases e
    rw [Option.isSome_none, eq_comm, Option.isSome_eq_false_iff, Option.isNone_iff_eq_none] at hd
    rw [e', hd]

/-- A key expires and is created again, by a SET and then by the given line. -/
def setAgain (line : String) : List Event :=
  timedLines [("SET k a EX 1", 0), (line, 2000), ("RPUSH l x", 3000)]

theorem replay_expirations_set_again :
    (replay (create 3 (by decide))
      ((Engine.boot 3 (by decide) none none none []).run (setAgain "SET k b")).lines
      fun _ _ => Clocks.still 9000).cell ['k'] = some ⟨.string ['b'], none⟩ :=
  replay_expirations 3 (by decide) none none none [] (setAgain "SET k b") _ rfl (by decide)
    (by simp [setAgain, timedLines, Event.AllClocks, Clocks.still, Clock.still]) (by decide)
    (by decide) (by decide) 9000 ['k'] _ (by decide)

/-- The list pushed after the expiry is lost: the replay pushes onto the ghost. -/
theorem push_on_ghost_lost :
    (∀ m ∈ (Engine.boot 3 (by decide) none none none []).runMoments (setAgain "LPUSH k x"),
      m.runsOnly Command.onStringsAndLists = true ∧ m.store.size < 3) ∧
    ((Engine.boot 3 (by decide) none none none []).run (setAgain "LPUSH k x")).lines =
      ["SET k a EX 1".toList, "LPUSH k x".toList, "RPUSH l x".toList] ∧
    ((Engine.boot 3 (by decide) none none none []).run (setAgain "LPUSH k x")).store.cell ['k'] =
      some ⟨.list [['x']], none⟩ ∧
    (replay (create 3 (by decide))
      ((Engine.boot 3 (by decide) none none none []).run (setAgain "LPUSH k x")).lines
      fun _ _ => Clocks.still 9000).cell ['k'] = some ⟨.string ['a'], some 10000⟩ := by
  decide

end Recovery

end MiniStore
