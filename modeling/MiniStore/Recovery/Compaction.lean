import MiniStore.Protocol.Printing
import MiniStore.Recovery.Replay
import MiniStore.Server.Spelling
import MiniStore.Store.AofRewrite
import MiniStore.Store.ReadOut

/-!
# What a compacted log rebuilds

A rewrite prints every live key as one or two commands. The parser reads them back
(`keyLines_eq`), and each key's lines append the key with its value and its deadline
rounded up to the next second (`appends_keyLines`); so replaying all of them into an
empty store with room rebuilds the live keys in their order (`rewrite_recreates`).
-/

namespace MiniStore

open InMemoryStore Text CommandParser AofWriter Engine

namespace Recovery

/-! ## The lines of a key -/

/-- The seconds left until `d`, rounded up, as `ttl` gives them. -/
def secondsLeft (t d : Int) : Nat := (max 0 (ceilSeconds (max 0 (d - t)))).toNat

theorem secondsLeft_spec {t d : Int} (h : t < d) (hfar : d ≤ t + maxTtlSeconds * 1000) :
    max 0 (ceilSeconds (max 0 (d - t))) = secondsLeft t d ∧ 1 ≤ secondsLeft t d ∧
      secondsLeft t d ≤ maxTtlSeconds ∧ d ≤ t + secondsLeft t d * 1000 ∧
      t + secondsLeft t d * 1000 < d + 1000 := by
  unfold secondsLeft ceilSeconds
  omega

/-- The tokens of the command that builds the value. -/
def valueTokens (key : Str) : StoredValue → List Str
  | .string v => ["SET".toList, key, v]
  | .list l => "RPUSH".toList :: key :: l
  | .hash m => "HSET".toList :: key :: m.entries.flatMap fun e => [e.1, e.2]

/-- The lines of a key: one for the value, with EX for a string that has a deadline, and
EXPIRE for a list or a hash that has one. -/
def printed (key : Str) (v : StoredValue) (seconds : Option Nat) : List Str :=
  match v, seconds with
  | v, none => [join (valueTokens key v)]
  | .string v, some n =>
    [join ["SET".toList, key, v, "EX".toList, (toString n).toList]]
  | v, some n => [join (valueTokens key v), join ["EXPIRE".toList, key, (toString n).toList]]

theorem join_three (a b c : Str) : join [a, b, c] = a ++ ' ' :: b ++ ' ' :: c := by
  rw [join_cons_cons, join_cons_cons, join_singleton, List.append_assoc, List.cons_append]

theorem join_command {values : List Str} (command key : Str) (hne : values ≠ []) :
    join (command :: key :: values) = command ++ ' ' :: key ++ ' ' :: joinSpace values := by
  obtain ⟨v, vs, rfl⟩ := List.exists_cons_of_ne_nil hne
  rw [join_cons_cons, join_cons_cons, List.append_assoc, List.cons_append]
  rfl

theorem keyLines_eq {key : Str} {t : Int} {c : Cell} (hne : c.value.NonEmpty)
    (hlive : c.expired t = false) (hfar : ∀ d ∈ c.deadline, d ≤ t + maxTtlSeconds * 1000) :
    keyLines key t c = printed key c.value (c.deadline.map (secondsLeft t)) := by
  obtain ⟨v, d⟩ := c
  have hlist : ∀ {l : List Str}, l ≠ [] → l.length > 0 := fun h => List.length_pos_iff.mpr h
  have hpairs : ∀ {m : OrdMap Str Str}, m.size ≠ 0 →
      (m.entries.flatMap fun e => [e.1, e.2]) ≠ [] := by
    intro m hm he
    have hlen := length_flatMap_pairs m.entries
    rw [he] at hlen
    have hsize : m.size = 0 := by
      show m.entries.length = 0
      have hnil : ([] : List Str).length = 0 := rfl
      omega
    exact hm hsize
  cases d with
  | none =>
    cases v with
    | string v => simp [keyLines, ttlCell, printed, valueTokens, join_three]
    | list l =>
      simp only [keyLines, ttlCell, if_pos (hlist hne), printed, Option.map_none, valueTokens,
        join_command _ _ hne]
      rfl
    | hash m =>
      simp only [keyLines, ttlCell, if_pos (hlist (hpairs hne)), printed, Option.map_none,
        valueTokens, join_command _ _ (hpairs hne)]
      rfl
  | some d =>
    have hlt : t < d := by
      have : decide (d ≤ t) = false := hlive
      simpa using this
    obtain ⟨hcast, hpos, -⟩ := secondsLeft_spec hlt (hfar d rfl)
    have hgt : (secondsLeft t d : Int) > 0 := by omega
    have htoken : toString (secondsLeft t d : Int) = toString (secondsLeft t d) := rfl
    cases v with
    | string v =>
      simp only [keyLines, ttlCell, hcast, if_pos hgt, printed, Option.map_some, htoken]
      rw [join_cons_cons, join_cons_cons, join_cons_cons, join_cons_cons, join_singleton]
      simp
    | list l =>
      simp only [keyLines, ttlCell, hcast, if_pos hgt, if_pos (hlist hne), printed,
        Option.map_some, valueTokens, join_command _ _ hne, htoken, join_three]
      rfl
    | hash m =>
      simp only [keyLines, ttlCell, hcast, if_pos hgt, if_pos (hlist (hpairs hne)), printed,
        Option.map_some, valueTokens, join_command _ _ (hpairs hne), htoken, join_three]
      rfl

/-! ## Replaying them -/

/-- Setting pairs of new fields appends them. -/
theorem entries_setPairs : ∀ (pairs : List (Str × Str)) {m : OrdMap Str Str},
    (m.keys ++ pairs.map Prod.fst).Nodup → (setPairs m pairs).1.entries = m.entries ++ pairs
  | [], m, _ => (List.append_nil _).symm
  | p :: pairs, m, hnd => by
    have hnew : m.has p.1 = false := by
      refine OrdMap.has_eq_false_iff.mpr (OrdMap.get?_eq_none_iff.mpr fun hm => ?_)
      exact (List.nodup_append.mp hnd).2.2 p.1 hm p.1 List.mem_cons_self rfl
    have hnd' : ((m.set p.1 p.2).keys ++ pairs.map Prod.fst).Nodup := by
      rw [OrdMap.keys_set_of_new hnew, List.append_assoc]
      exact hnd
    rw [setPairs_cons]
    show (setPairs (m.set p.1 p.2) pairs).1.entries = _
    rw [entries_setPairs pairs hnd', OrdMap.entries_set_of_new hnew, List.append_assoc]
    rfl

theorem setPairs_entries (m : OrdMap Str Str) : (setPairs OrdMap.empty m.entries).1 = m :=
  OrdMap.ext (entries_setPairs m.entries m.nodup)

/-- The line of a value is read back as a command that creates its key, at whatever time. -/
theorem command_value {key : Str} (hk : IsToken key) {v : StoredValue} (hv : v.Spelled)
    (hne : v.NonEmpty) : ∃ c, parseCommand (join (valueTokens key v)) = .ok c ∧
      c.mutates = true ∧ ∀ now, ∃ f b, c.mutation now = some (key, f) ∧
        (f none).1 = .put v none b := by
  cases v with
  | string v => exact ⟨_, parse_set hk hv, rfl, fun _ => ⟨_, _, rfl, rfl⟩⟩
  | list l =>
    refine ⟨_, parse_rpush hk hne hv, rfl, fun _ => ⟨_, false, rfl, ?_⟩⟩
    show Effect.put (.list (pushAll [] l)) none false = _
    rw [pushAll_eq, List.nil_append]
  | hash m =>
    have hpos : m.entries.length > 0 := Nat.pos_of_ne_zero hne
    have hfields : ∀ p ∈ m.entries, IsToken p.1 ∧ IsToken p.2 := fun p hp =>
      hv p.1 p.2 (OrdMap.mem_entries_iff.mp hp)
    refine ⟨_, parse_hset hk (List.length_pos_iff.mp hpos) hfields, rfl, fun _ =>
      ⟨_, true, rfl, ?_⟩⟩
    show Effect.put (.hash (setPairs OrdMap.empty m.entries).1) none
      (decide (m.entries.length > 0)) = _
    rw [decide_eq_true hpos, setPairs_entries]

/-- `s'` has, after the keys of `s`, a key that holds `c`. -/
structure Appends (s s' : InMemoryStore) (key : Str) (c : Cell) : Prop where
  adds : PersistenceManager.Adds s s' key c
  keys : s'.values.keys = s.values.keys ++ [key]

theorem evicted_of_room {s : InMemoryStore} (h : s.Lockstep) (key : Str)
    (hroom : s.cell key ≠ none ∨ s.size < s.maxKeys) (e : Effect) :
    s.view.evicted s.maxKeys key e.action = none := by
  cases e with
  | put v d b =>
    refine (LruCache.victim_eq_none s.maxKeys_pos).mpr ?_
    refine hroom.imp (fun hc => (h.view_wf.mem key).mpr hc) fun hlt => ?_
    have hlen : s.view.order.length = s.size := h.length_order
    omega
  | _ => rfl

theorem appends_perform {s : InMemoryStore} (h : s.Lockstep) {key : Str} (hn : s.cell key = none)
    (hroom : s.size < s.maxKeys) (now : Clock) {f : Option Cell → Effect × Bool}
    (hf : ∀ c, (f c).1.Fits c) {v : StoredValue} {d : Option Int} {b : Bool}
    (hput : (f none).1 = .put v d b) : Appends s (s.perform key now f).1 key ⟨v, d⟩ := by
  have hperm : Cell.Permanent (s.cell key) := by rw [hn]; exact Cell.permanent_none
  refine ⟨⟨h.perform hf, h.maxKeys_perform, fun k => ?_⟩, ?_⟩
  · rw [h.cell_perform_permanent hperm hroom, hn, hput]
    rfl
  · have hp : s.purge key (now 0) = s := purge_of_live (by rw [hn]; rfl)
    show ((s.purge key (now 0)).commit key (now 1) _).values.keys = _
    rw [hp, hn, hput, keys_commit h (evicted_of_room h key (.inr hroom) _)]
    exact if_neg fun hm => absurd hn (mem_keys.mp hm)

theorem Appends.perform {s s' : InMemoryStore} {key : Str} {v : StoredValue}
    (ha : Appends s s' key ⟨v, none⟩) (now : Clock) {f : Option Cell → Effect × Bool}
    (hf : ∀ c, (f c).1.Fits c) {d : Int} {b : Bool}
    (hput : (f (some ⟨v, none⟩)).1 = .put v (some d) b) :
    Appends s (s'.perform key now f).1 key ⟨v, some d⟩ := by
  have hs' := ha.adds.lockstep
  have hc : s'.cell key = some ⟨v, none⟩ := by rw [ha.adds.cell, if_pos rfl]
  have hp : s'.purge key (now 0) = s' :=
    purge_of_live (liveAt_permanent (by rw [hc]; exact Cell.permanent_some.mpr rfl) _)
  have hne : s'.cell key ≠ none := by rw [hc]; exact Option.some_ne_none _
  have he : (s'.perform key now f).1 = s'.commit key (now 1) (.put v (some d) b) := by
    show (s'.purge key (now 0)).commit key (now 1) _ = _
    rw [hp, hc, hput]
  rw [he]
  refine ⟨⟨he ▸ hs'.perform hf, (maxKeys_commit hs' ..).trans ha.adds.maxKeys, fun k => ?_⟩, ?_⟩
  · rw [hs'.cell_commit_of_room _ (.inl hne), ha.adds.cell]
    split
    · rfl
    · next hk => rw [ha.adds.cell, if_neg hk]
  · rw [keys_commit hs' (evicted_of_room hs' key (.inl hne) _), ← ha.keys]
    exact if_pos (mem_keys.mpr hne)

/-- The cell a printed key is read back as at `t`. -/
def renewed (t : Int) (c : Cell) : Cell :=
  ⟨c.value, c.deadline.map fun d => t + secondsLeft t d * 1000⟩

section

variable {t : Int} {s : InMemoryStore} (h : s.Lockstep) {lines : List Str}
  (hl : ∀ l ∈ lines, Mutating l) {key : Str} (hk : IsToken key)
  (hn : (replay s lines fun _ _ => Clocks.still t).cell key = none)
  (hroom : (replay s lines fun _ _ => Clocks.still t).size < s.maxKeys)

include h hl hk hn hroom

theorem appends_value {v : StoredValue} (hv : v.Spelled) (hne : v.NonEmpty) :
    Mutating (join (valueTokens key v)) ∧
      Appends (replay s lines fun _ _ => Clocks.still t)
        (replay s (lines ++ [join (valueTokens key v)]) fun _ _ => Clocks.still t) key
        ⟨v, none⟩ := by
  have hr := lockstep_replay h hl fun _ _ => Clocks.still t
  have hmax := maxKeys_replay h hl fun _ _ => Clocks.still t
  obtain ⟨c, hp, hc, heffect⟩ := command_value hk hv hne
  obtain ⟨f, b, hm, hput⟩ := heffect (Clock.still t)
  refine ⟨⟨c, hp, hc⟩, ?_⟩
  rw [replay_snoc h hl _ hp hm]
  exact appends_perform hr hn (by rw [hmax]; exact hroom) _ (Command.mutation_fits hm) hput

/-- The lines of a key append it, with its deadline rounded up. -/
theorem appends_keyLines {c : Cell} (hv : c.value.Spelled) (hne : c.value.NonEmpty)
    (hlive : c.expired t = false) (hfar : ∀ d ∈ c.deadline, d ≤ t + maxTtlSeconds * 1000) :
    (∀ l ∈ keyLines key t c, Mutating l) ∧
      Appends (replay s lines fun _ _ => Clocks.still t)
        (replay s (lines ++ keyLines key t c) fun _ _ => Clocks.still t) key (renewed t c) := by
  obtain ⟨hvm, hva⟩ := appends_value h hl hk hn hroom hv hne
  have hlines : keyLines key t c = printed key c.value (c.deadline.map (secondsLeft t)) :=
    keyLines_eq hne hlive hfar
  obtain ⟨v, d⟩ := c
  cases d with
  | none =>
    have e : keyLines key t ⟨v, none⟩ = [join (valueTokens key v)] := by
      rw [hlines]
      cases v <;> rfl
    rw [e]
    exact ⟨fun l hm => List.mem_singleton.mp hm ▸ hvm, hva⟩
  | some d =>
    have hlt : t < d := by
      have hd : decide (d ≤ t) = false := hlive
      simpa using hd
    obtain ⟨-, hpos, hmax, -⟩ := secondsLeft_spec hlt (hfar d rfl)
    -- a list or a hash gets its deadline by a second command
    have two : Mutating (join ["EXPIRE".toList, key, (toString (secondsLeft t d)).toList]) ∧
        Appends (replay s lines fun _ _ => Clocks.still t)
          (replay s (lines ++ [join (valueTokens key v),
            join ["EXPIRE".toList, key, (toString (secondsLeft t d)).toList]]) fun _ _ =>
            Clocks.still t) key (renewed t ⟨v, some d⟩) := by
      have hp := parse_expire hk hpos hmax
      have hl' : ∀ l ∈ lines ++ [join (valueTokens key v)], Mutating l := fun l hm =>
        (List.mem_append.mp hm).elim (hl l) fun hm => List.mem_singleton.mp hm ▸ hvm
      refine ⟨⟨_, hp, rfl⟩, ?_⟩
      rw [List.append_cons, replay_snoc h hl' _ hp rfl]
      exact hva.perform (b := true) _ (fun c => fits_expireCell c) rfl
    cases v with
    | string v =>
      have hp := parse_set_ex hk hv hpos hmax
      have hr := lockstep_replay h hl fun _ _ => Clocks.still t
      rw [hlines]
      refine ⟨fun l hm => List.mem_singleton.mp hm ▸ ⟨_, hp, rfl⟩, ?_⟩
      show Appends _ (replay s (lines ++
        [join ["SET".toList, key, v, "EX".toList, (toString (secondsLeft t d)).toList]]) _) _ _
      have hm : (Command.set key v (some (secondsLeft t d))).mutation (Clock.still t) =
          some (key, _) := rfl
      rw [replay_snoc h hl _ hp hm]
      refine appends_perform hr hn ?_ _ (Command.mutation_fits hm) (b := true) rfl
      rw [maxKeys_replay h hl fun _ _ => Clocks.still t]
      exact hroom
    | list l =>
      rw [hlines]
      exact ⟨List.forall_mem_cons.mpr ⟨hvm, fun l hm => List.mem_singleton.mp hm ▸ two.1⟩, two.2⟩
    | hash m =>
      rw [hlines]
      exact ⟨List.forall_mem_cons.mpr ⟨hvm, fun l hm => List.mem_singleton.mp hm ▸ two.1⟩, two.2⟩

end

/-- What can be printed and read back. -/
structure Printable (t : Int) (key : Str) (c : Cell) : Prop where
  key : IsToken key
  spelled : c.value.Spelled
  nonEmpty : c.value.NonEmpty
  live : c.expired t = false
  near : ∀ d ∈ c.deadline, d ≤ t + maxTtlSeconds * 1000

theorem rebuilds_linesOf {t : Int} {cells : Str → Option Cell} {maxKeys : Nat}
    (hm : 1 ≤ maxKeys) (keys : List Str) : keys.Nodup →
    (∀ k ∈ keys, ∃ c, cells k = some c ∧ Printable t k c) → keys.length ≤ maxKeys →
      (∀ l ∈ linesOf t cells keys, Mutating l) ∧
      (replay (InMemoryStore.create maxKeys hm) (linesOf t cells keys) fun _ _ =>
        Clocks.still t).values.keys = keys ∧
      ∀ k, (replay (InMemoryStore.create maxKeys hm) (linesOf t cells keys) fun _ _ =>
        Clocks.still t).cell k = if k ∈ keys then (cells k).map (renewed t) else none := by
  have h := lockstep_create maxKeys hm
  induction keys using List.reverseRecOn with
  | nil => exact fun _ _ _ => ⟨fun l hl => absurd hl List.not_mem_nil, rfl, fun k => rfl⟩
  | append_singleton keys key ih =>
    intro hnd hcells hlen
    obtain ⟨hnd', -, hne⟩ := List.nodup_append.mp hnd
    have hkey : key ∉ keys := fun hk => hne key hk key (List.mem_singleton.mpr rfl) rfl
    rw [List.length_append, List.length_singleton] at hlen
    obtain ⟨hl, hkeys, hcell⟩ := ih hnd' (fun k hk => hcells k (List.mem_append_left _ hk)) (by omega)
    obtain ⟨c, hc, hp⟩ := hcells key (List.mem_append_right _ (List.mem_singleton.mpr rfl))
    have hlines : linesOf t cells (keys ++ [key]) = linesOf t cells keys ++ keyLines key t c := by
      rw [linesOf, List.flatMap_append, List.flatMap_singleton, hc]
      rfl
    have hsize : (replay (InMemoryStore.create maxKeys hm) (linesOf t cells keys) fun _ _ =>
        Clocks.still t).size = keys.length := by
      rw [InMemoryStore.size, ← OrdMap.length_keys, hkeys]
    obtain ⟨hlast, hadds, hkeys'⟩ := appends_keyLines h hl hp.key
      ((hcell key).trans (if_neg hkey)) (by rw [hsize]; exact hlen) hp.spelled hp.nonEmpty hp.live
      hp.near
    rw [hlines]
    refine ⟨fun l hm => (List.mem_append.mp hm).elim (hl l) (hlast l), ?_, fun k => ?_⟩
    · rw [hkeys', hkeys]
    · rw [hadds.cell, hcell]
      by_cases hk : k = key
      · subst hk
        rw [if_pos rfl, if_pos (List.mem_append_right _ (List.mem_singleton.mpr rfl)), hc]
        rfl
      · rw [if_neg hk]
        simp [hk]

/-! ## The file -/

theorem readLines_commandText : ∀ {lines : List Str}, (∀ l ∈ lines, ∀ c ∈ l, isBreak c = false) →
    readLines (commandText lines) = lines
  | [], _ => rfl
  | [l], h => by
    show readLines (List.intercalate ['\n'] [l] ++ ['\n']) = _
    rw [List.intercalate_singleton, readLines_line (h l List.mem_cons_self)]
  | l :: m :: lines, h => by
    have ih := readLines_commandText fun k hk => h k (List.mem_cons_of_mem _ hk)
    have e : commandText (l :: m :: lines) = l ++ '\n' :: commandText (m :: lines) := by
      unfold commandText
      rw [List.intercalate_cons_cons, List.append_assoc, List.append_assoc]
      rfl
    rw [e, readLines_append, readLines_line (h l List.mem_cons_self), ih]
    rfl

theorem isToken_valueTokens {key : Str} (hk : IsToken key) {v : StoredValue} (hv : v.Spelled) :
    ∀ u ∈ valueTokens key v, IsToken u := by
  cases v with
  | string v =>
    simp only [valueTokens, List.forall_mem_cons]
    exact ⟨isToken_of_all (by decide) (by decide), hk, hv, fun _ h => absurd h List.not_mem_nil⟩
  | list l =>
    simp only [valueTokens, List.forall_mem_cons]
    exact ⟨isToken_of_all (by decide) (by decide), hk, hv⟩
  | hash m =>
    simp only [valueTokens, List.forall_mem_cons]
    refine ⟨isToken_of_all (by decide) (by decide), hk, fun u hu => ?_⟩
    obtain ⟨p, hpm, hu⟩ := List.mem_flatMap.mp hu
    have hp := hv p.1 p.2 (OrdMap.mem_entries_iff.mp hpm)
    rcases List.mem_cons.mp hu with rfl | hu
    · exact hp.1
    · exact List.mem_singleton.mp hu ▸ hp.2

/-- No printed line contains a line terminator. -/
theorem isBreak_keyLines {t : Int} {key : Str} {c : Cell} (hp : Printable t key c) :
    ∀ l ∈ keyLines key t c, ∀ d ∈ l, isBreak d = false := by
  have hvalue := isBreak_join (isToken_valueTokens hp.key hp.spelled)
  have hexpire : ∀ n : Nat, ∀ d ∈ join ["EXPIRE".toList, key, (toString n).toList],
      isBreak d = false := by
    refine fun n => isBreak_join ?_
    simp only [List.forall_mem_cons]
    exact ⟨isToken_of_all (by decide) (by decide), hp.key, isToken_toString n,
      fun _ h => absurd h List.not_mem_nil⟩
  have hset : ∀ v : Str, IsToken v → ∀ n : Nat,
      ∀ d ∈ join ["SET".toList, key, v, "EX".toList, (toString n).toList], isBreak d = false := by
    refine fun v hv n => isBreak_join ?_
    simp only [List.forall_mem_cons]
    exact ⟨isToken_of_all (by decide) (by decide), hp.key, hv, isToken_of_all (by decide) (by decide),
      isToken_toString n, fun _ h => absurd h List.not_mem_nil⟩
  have hv := hp.spelled
  rw [keyLines_eq hp.nonEmpty hp.live hp.near]
  obtain ⟨v, d⟩ := c
  cases d with
  | none =>
    intro l hl
    cases v <;> exact List.mem_singleton.mp hl ▸ hvalue
  | some d =>
    cases v with
    | string v => exact fun l hl => List.mem_singleton.mp hl ▸ hset v hv _
    | list l =>
      exact List.forall_mem_cons.mpr ⟨hvalue, fun l hl => List.mem_singleton.mp hl ▸ hexpire _⟩
    | hash m =>
      exact List.forall_mem_cons.mpr ⟨hvalue, fun l hl => List.mem_singleton.mp hl ▸ hexpire _⟩

theorem isBreak_linesOf {t : Int} {cells : Str → Option Cell} {keys : List Str}
    (h : ∀ k ∈ keys, ∃ c, cells k = some c ∧ Printable t k c) :
    ∀ l ∈ linesOf t cells keys, ∀ d ∈ l, isBreak d = false := by
  intro l hl
  obtain ⟨k, hk, hl⟩ := List.mem_flatMap.mp hl
  obtain ⟨c, hc, hp⟩ := h k hk
  simp only [hc] at hl
  exact isBreak_keyLines hp l hl

/-! ## Compaction -/

/-- A deadline on both sides or on none, less than a second later. -/
def LessThanASecondLater : Option Int → Option Int → Prop
  | none, none => True
  | some d, some d' => d ≤ d' ∧ d' < d + 1000
  | _, _ => False

/-- A cell and what it was rebuilt as. -/
def Recreates : Option Cell → Option Cell → Prop
  | none, none => True
  | some c, some c' => c'.value = c.value ∧ LessThanASecondLater c.deadline c'.deadline
  | _, _ => False

theorem recreates_renewed {t : Int} {k : Str} {c : Cell} (hp : Printable t k c) :
    Recreates (some c) (some (renewed t c)) := by
  refine ⟨rfl, ?_⟩
  have hlive := hp.live
  have hnear := hp.near
  obtain ⟨v, d⟩ := c
  cases d with
  | none => trivial
  | some d =>
    have hlt : t < d := by
      have hd : decide (d ≤ t) = false := hlive
      simpa using hd
    exact (secondsLeft_spec hlt (hnear d rfl)).2.2.2

/-- For every store an engine reaches from the start, and every time at which no deadline
is more than `maxTtlSeconds` ahead: a rewrite with no writes meanwhile leaves a file
whose lines the parser accepts; replaying them at the same time into an empty store with
as many slots rebuilds the live keys in their order, each with its value and, if it has
a deadline, one that is less than a second later. -/
theorem rewrite_recreates (maxKeys : Nat) (hm : 1 ≤ maxKeys) (pm : Option PersistenceManager)
    (pubSub : Option PubSubManager) (requirepass : Option Str) (disabledCommands : List Str)
    (events : List Event) (s : InMemoryStore)
    (hs : s = ((Engine.boot maxKeys hm pm pubSub requirepass disabledCommands).run events).store)
    (t : Int) (hnear : ∀ k c, s.cell k = some c → ∀ d ∈ c.deadline, d ≤ t + maxTtlSeconds * 1000)
    (maxKeys' : Nat) (hm' : 1 ≤ maxKeys') (hroom : maxKeys ≤ maxKeys')
    (w : AofWriter) (i : Nat) (text : Str) (hw : w.Serving i text) (hr : w.rewriting = none) :
    ∃ file, (w.rewrite s (Clocks.still t)).1.settle.settle.settle.fs.read w.path = some file ∧
      (w.rewrite s (Clocks.still t)).1.settle.settle.settle.rewriting = none ∧
      (∀ line ∈ readLines file, ∃ c, parseCommand line = .ok c) ∧
      (replay (InMemoryStore.create maxKeys' hm') (readLines file) fun _ _ =>
        Clocks.still t).values.keys = s.values.keys.filter (fun k => (liveAt t (s.cell k)).isSome) ∧
      ∀ k, Recreates (liveAt t (s.cell k))
        ((replay (InMemoryStore.create maxKeys' hm') (readLines file) fun _ _ =>
          Clocks.still t).cell k) := by
  have h0 := (Engine.fresh_boot maxKeys hm pm pubSub requirepass disabledCommands).sound
  have hsteps := Engine.steps_boot maxKeys hm pm pubSub requirepass disabledCommands events
  have hS := h0.steps hsteps
  have hspelled := Engine.spelled_steps h0 (fun _ _ hc => nomatch hc) hsteps
  rw [← hs] at hspelled
  have hL : s.Lockstep := hs ▸ hS.lockstep
  have htoken : ∀ k, s.cell k ≠ none → IsToken k := hs ▸ hS.spelled
  have hfull : NoEmpty s := hs ▸ hS.noEmpty
  have hsize : s.size ≤ maxKeys := by
    have hmax : s.maxKeys = maxKeys := hs ▸ hS.maxKeys
    exact hmax ▸ hL.size_le
  have hprint : ∀ k c, liveAt t (s.cell k) = some c → Printable t k c := by
    intro k c hc
    obtain ⟨hc, hx⟩ := liveAt_eq_some.mp hc
    have hne : s.cell k ≠ none := by rw [hc]; exact Option.some_ne_none c
    exact ⟨htoken k hne, hspelled k c hc, hfull k c hc, hx, hnear k c hc⟩
  -- every key is a token, so KEYS lists all that is live
  have hlisted := listed_of_oneLine t fun k hk =>
    PersistenceManager.oneLine_of_isToken (htoken k hk)
  have hcells : ∀ k ∈ listed t s, ∃ c, liveAt t (s.cell k) = some c ∧ Printable t k c := by
    intro k hk
    obtain ⟨c, hc⟩ := Option.isSome_iff_exists.mp (mem_listed.mp hk).1
    exact ⟨c, hc, hprint k c hc⟩
  have hlen : (listed t s).length ≤ maxKeys' := by
    have hsub : (listed t s).length ≤ s.values.keys.length := List.length_filter_le _ _
    rw [OrdMap.length_keys] at hsub
    exact Nat.le_trans hsub (Nat.le_trans hsize hroom)
  obtain ⟨hmut, hkeys, hcell⟩ := rebuilds_linesOf hm' (listed t s) (listed_nodup t s) hcells hlen
  have hlines : (rewriteCommands s (Clocks.still t)).2 =
      linesOf t (fun k => liveAt t (s.cell k)) (listed t s) := by
    rw [rewriteCommands_still hL]
  obtain ⟨hidle, hfile⟩ := read_rewritten hw hr s (Clocks.still t)
  refine ⟨_, hfile, hidle, ?_⟩
  rw [hlines, readLines_commandText (isBreak_linesOf hcells)]
  refine ⟨fun line hl => ?_, hkeys.trans hlisted, fun k => ?_⟩
  · obtain ⟨c, hp, -⟩ := hmut line hl
    exact ⟨c, hp⟩
  · rw [hcell]
    cases hc : liveAt t (s.cell k) with
    | none =>
      split <;> trivial
    | some c =>
      have hstored : s.cell k ≠ none := fun e => by rw [e] at hc; cases hc
      have hk : k ∈ listed t s := by
        rw [hlisted]
        exact List.mem_filter.mpr ⟨mem_keys.mpr hstored, by rw [hc]; rfl⟩
      rw [if_pos hk]
      exact recreates_renewed (hprint k c hc)

def withDeadlines : List Event :=
  timedLines [("SET 7 x EX 5", 0), ("RPUSH l a b", 0), ("HSET h f v", 0), ("EXPIRE h 7", 0)]

def started : AofWriter := (AofWriter.create "aof".toList .no Fs.empty).start

theorem serving_started : started.Serving 0 [] :=
  ⟨(Fs.resolve_spec Fs.wf_empty "aof".toList).1.of_names rfl rfl, ⟨0, rfl, rfl⟩, rfl, rfl⟩

theorem rewrite_recreates_withDeadlines :
    ∃ file, (started.rewrite ((Engine.boot 3 (by decide) none none none []).run withDeadlines).store
        (Clocks.still 1500)).1.settle.settle.settle.fs.read "aof".toList = some file ∧
      (replay (InMemoryStore.create 3 (by decide)) (readLines file) fun _ _ =>
        Clocks.still 1500).values.keys = [['7'], ['l'], ['h']] := by
  obtain ⟨file, hfile, -, -, hkeys, -⟩ := rewrite_recreates 3 (by decide) none none none []
    withDeadlines _ rfl 1500 (fun k c => forall_cell (P := fun _ c => ∀ d ∈ c.deadline,
      d ≤ 1500 + maxTtlSeconds * 1000) (by decide) k c) 3 (by decide) (Nat.le_refl 3) started 0 []
    serving_started rfl
  exact ⟨file, hfile, hkeys.trans (by decide)⟩

end Recovery

end MiniStore
