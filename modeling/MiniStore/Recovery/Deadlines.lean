import MiniStore.Recovery.LogFile
import MiniStore.Recovery.MovingRewrite
import MiniStore.Recovery.RoundTrip

/-!
# Deadlines after a restart

Both files keep a deadline as the number of seconds a key had left: the log those of the command
that set it, or of the rewrite that printed it, the dump those at the save. A recovery counts them
again from the restart on.

Whatever else the log builds, it builds every key the live store has, and with a deadline the
seconds that the last line of the key gives it after the restart (`Foretells`).
-/

namespace MiniStore

open InMemoryStore Text CommandParser AofWriter Engine PersistenceManager CommandHandler

/-- The seconds that the command gives the key to live. -/
def Command.secondsFor (k : Str) : Command → Option Nat
  | .set key _ (some n) => if key = k then some n else none
  | .expire key n => if key = k then some n else none
  | _ => none

theorem Command.secondsFor_other {c : Command} {now : Clock} {key : Str}
    {f : Option Cell → Effect × Bool} (hm : c.mutation now = some (key, f)) {k : Str}
    (hk : key ≠ k) : c.secondsFor k = none := by
  cases c with
  | set key v n =>
    cases hm
    cases n with
    | none => rfl
    | some n => exact if_neg hk
  | expire key n => cases hm; exact if_neg hk
  | _ => rfl

theorem Command.secondsFor_of_not_mutates {c : Command} (hc : c.mutates = false) (k : Str) :
    c.secondsFor k = none := by
  cases c with
  | set | expire => cases hc
  | _ => rfl

namespace Recovery

def lineSeconds (k line : Str) : Option Nat :=
  match parseCommand line with
  | .error _ => none
  | .ok command => command.secondsFor k

/-- The seconds in the last line that gives the key a deadline. -/
def lastSeconds (lines : List Str) (k : Str) : Option Nat :=
  lines.foldl (fun n line => (lineSeconds k line).or n) none

theorem lineSeconds_command {line : Str} {c : Command} (hp : parseCommand line = .ok c) (k : Str) :
    lineSeconds k line = c.secondsFor k := by
  simp only [lineSeconds, hp]

theorem lastSeconds_append (lines : List Str) (line k : Str) :
    lastSeconds (lines ++ [line]) k = (lineSeconds k line).or (lastSeconds lines k) := by
  rw [lastSeconds, List.foldl_append]
  rfl

theorem lineSeconds_of_not_isOn {k line : Str} (h : isOn k line = false) :
    lineSeconds k line = none := by
  cases hp : parseCommand line with
  | error => simp only [lineSeconds, hp]
  | ok c =>
    rw [lineSeconds_command hp]
    cases hm : c.mutation (Clock.still 0) with
    | none =>
      refine Command.secondsFor_of_not_mutates (Bool.eq_false_of_not_eq_true fun hc => ?_) k
      obtain ⟨key, f, hf⟩ := Command.mutates_iff.mp hc
      rw [hm] at hf
      cases hf
    | some action =>
      rw [isOn_command hp hm, decide_eq_false_iff_not] at h
      exact Command.secondsFor_other hm h

theorem lastSeconds_filter (lines : List Str) (k : Str) :
    lastSeconds (lines.filter (isOn k)) k = lastSeconds lines k :=
  foldl_filter_of_fixes (fun n line h => by rw [lineSeconds_of_not_isOn h, Option.none_or]) lines
    none

theorem lineSeconds_value {k : Str} (hk : IsToken k) {v : StoredValue} (hv : v.Spelled)
    (hne : v.NonEmpty) : lineSeconds k (join (valueTokens k v)) = none := by
  obtain ⟨command, hvalue, -, heffect⟩ := command_value hk hv hne
  obtain ⟨f, b, hm, hput⟩ := heffect (Clock.still 0)
  rw [lineSeconds_command hvalue]
  cases command with
  | set key v n =>
    cases n with
    | none => rfl
    | some n =>
      cases hm
      cases hput
  | expire =>
    cases hm
    cases hput
  | _ => rfl

/-- The lines of a key give it the seconds it has left. -/
theorem lastSeconds_keyLines {t : Int} {k : Str} {c : Cell} (hp : Printable t k c) :
    lastSeconds (keyLines k t c) k = c.deadline.map (secondsLeft t) := by
  have hfirst := lineSeconds_value hp.key hp.spelled hp.nonEmpty
  have hlive := hp.live
  have hnear := hp.near
  have hspelled := hp.spelled
  rw [keyLines_eq hp.nonEmpty hlive hnear]
  obtain ⟨v, _ | d⟩ := c
  · cases v <;> exact (lastSeconds_append [] _ k).trans (by rw [hfirst]; rfl)
  · have hlt : t < d := by
      have hd : decide (d ≤ t) = false := hlive
      simpa using hd
    obtain ⟨-, hpos, hmax, -⟩ := secondsLeft_spec hlt (hnear d rfl)
    have hexpire : lineSeconds k
        (join ["EXPIRE".toList, k, (toString (secondsLeft t d)).toList]) =
          some (secondsLeft t d) := by
      rw [lineSeconds_command (parse_expire hp.key hpos hmax)]
      exact if_pos rfl
    cases v with
    | string v =>
      refine (lastSeconds_append [] _ k).trans ?_
      rw [lineSeconds_command (parse_set_ex hp.key hspelled hpos hmax), Command.secondsFor,
        if_pos rfl]
      rfl
    | list l | hash m =>
      refine (lastSeconds_append [_] _ k).trans ?_
      rw [hexpire]
      rfl

/-- A recovered key is not live at `r` past its deadline `d`, and is to live no longer
than a second past `d`. -/
def NotProlonged (r d : Int) (recovered : Option Cell) : Prop :=
  ∀ c, liveAt r recovered = some c → r < d ∧ ∃ d' ∈ c.deadline, d' ≤ d + 1000

/-! ## What a command cannot take away -/

/-- A list at least as long, a hash with at least the fields, or a value of another kind. -/
def Covers : StoredValue → StoredValue → Prop
  | .list l, .list l' => l.length ≤ l'.length
  | .hash m, .hash m' => ∀ f, m.has f = true → m'.has f = true
  | _, _ => True

theorem covers_refl (v : StoredValue) : Covers v v := by
  cases v with
  | string v => trivial
  | list l => exact Nat.le_refl _
  | hash m => exact fun _ => id

/-- The built cell is there and covers the live one, and where the live one has a deadline it has
that of the seconds. -/
def Shadow (r : Int) (n : Option Nat) (live recovered : Option Cell) : Prop :=
  ∀ c ∈ live, ∃ c' ∈ recovered, Covers c.value c'.value ∧
    ∀ d ∈ c.deadline, ∃ seconds ∈ n, c'.deadline = some (r + seconds * 1000)

theorem has_setPairs_mono (pairs : List (Str × Str)) : ∀ {m m' : OrdMap Str Str},
    (∀ f, m.has f = true → m'.has f = true) →
      ∀ f, (setPairs m pairs).1.has f = true → (setPairs m' pairs).1.has f = true := by
  induction pairs with
  | nil => exact fun h => h
  | cons p pairs ih =>
    intro m m' h
    rw [setPairs_cons, setPairs_cons]
    refine ih fun f hf => ?_
    rw [OrdMap.has_set, Bool.or_eq_true] at hf ⊢
    exact hf.imp_right (h f)

theorem has_deleteFields_mono (fields : List Str) : ∀ {m m' : OrdMap Str Str},
    (∀ f, m.has f = true → m'.has f = true) →
      ∀ f, (deleteFields m fields).1.has f = true → (deleteFields m' fields).1.has f = true := by
  induction fields with
  | nil => exact fun h => h
  | cons g fields ih =>
    intro m m' h
    rw [deleteFields_cons, deleteFields_cons]
    refine ih fun f hf => ?_
    rw [OrdMap.has_delete, Bool.and_eq_true] at hf ⊢
    exact hf.imp_right (h f)

theorem size_le_of_has {m m' : OrdMap Str Str} (h : ∀ f, m.has f = true → m'.has f = true) :
    m.size ≤ m'.size := by
  have := OrdMap.size_le_of_keys_subset (m := m) (l := m'.keys) fun f hf =>
    OrdMap.mem_keys_iff_has.mpr (h f (OrdMap.mem_keys_iff_has.mp hf))
  rwa [OrdMap.length_keys] at this

section

variable {r : Int} {n : Option Nat}

theorem shadow_none {x' : Option Cell} : Shadow r n none x' := fun _ h => nomatch h

theorem shadow_some {v : StoredValue} {d : Option Int} {x' : Option Cell} :
    Shadow r n (some ⟨v, d⟩) x' ↔ ∃ v' d', x' = some ⟨v', d'⟩ ∧ Covers v v' ∧
      ∀ e ∈ d, ∃ seconds ∈ n, d' = some (r + seconds * 1000) := by
  constructor
  · intro h
    obtain ⟨⟨v', d'⟩, hx, hv, hd⟩ := h _ rfl
    exact ⟨v', d', hx, hv, hd⟩
  · rintro ⟨v', d', rfl, hv, hd⟩ c hc
    cases hc
    exact ⟨_, rfl, hv, hd⟩

/-- A push leaves a list, or does nothing, and covers what it covered. -/
theorem shadow_push {addAll : List Str → List Str → List Str} {vs : List Str}
    (hadd : ∀ l, (addAll l vs).length = vs.length + l.length) {x x' : Option Cell}
    (h : Shadow r n x x') (hlog : tookCount (fun _ => true) (pushCell addAll vs x).2 = true) :
    Shadow r n ((pushCell addAll vs x).1.action.onCell x)
      ((pushCell addAll vs x').1.action.onCell x') := by
  rcases x with _ | ⟨_ | l | m, d⟩
  · -- the list is new, but the log may have built something under the key
    refine shadow_some.mpr ?_
    rcases x' with _ | ⟨_ | l' | m', d'⟩
    · exact ⟨_, _, rfl, covers_refl _, fun _ he => nomatch he⟩
    · exact ⟨_, _, rfl, trivial, fun _ he => nomatch he⟩
    · refine ⟨_, _, rfl, ?_, fun _ he => nomatch he⟩
      show (addAll [] vs).length ≤ (addAll l' vs).length
      rw [hadd, hadd]
      exact Nat.add_le_add_left (Nat.zero_le _) _
    · exact ⟨_, _, rfl, trivial, fun _ he => nomatch he⟩
  · cases hlog
  · obtain ⟨v', d', rfl, hv, hd⟩ := shadow_some.mp h
    refine shadow_some.mpr ?_
    rcases v' with _ | l' | m'
    · exact ⟨_, _, rfl, trivial, hd⟩
    · refine ⟨_, _, rfl, ?_, hd⟩
      show (addAll l vs).length ≤ (addAll l' vs).length
      rw [hadd, hadd]
      exact Nat.add_le_add_left hv _
    · exact ⟨_, _, rfl, trivial, hd⟩
  · cases hlog

/-- A pop that leaves something leaves something in the longer list too. -/
theorem shadow_pop {take : List Str → Option Str × List Str}
    (htake : ∀ l, (take l).2.length = l.length - 1) {x x' : Option Cell} (h : Shadow r n x x')
    (hlog : tookItem (popCell take x).2 = true) :
    Shadow r n ((popCell take x).1.action.onCell x) ((popCell take x').1.action.onCell x') := by
  rcases x with _ | ⟨_ | l | m, d⟩
  · cases hlog
  · cases hlog
  · obtain ⟨v', d', rfl, hv, hd⟩ := shadow_some.mp h
    have hl := htake l
    simp only [popCell]
    split
    · exact shadow_none
    · next hne =>
      refine shadow_some.mpr ?_
      rcases v' with _ | l' | m'
      · exact ⟨_, _, rfl, trivial, hd⟩
      · have hl' := htake l'
        have hv : l.length ≤ l'.length := hv
        have hpos := List.length_pos_iff.mpr hne
        have hne' : (take l').2 ≠ [] := List.length_pos_iff.mp (by omega)
        simp only [hne', if_false]
        refine ⟨_, _, rfl, ?_, hd⟩
        show (take l).2.length ≤ (take l').2.length
        omega
      · exact ⟨_, _, rfl, trivial, hd⟩
  · cases hlog

theorem shadow_hset {pairs : List (Str × Str)} {x x' : Option Cell} (h : Shadow r n x x') :
    Shadow r n ((hsetCell pairs x).1.action.onCell x) ((hsetCell pairs x').1.action.onCell x') := by
  rcases x with _ | ⟨_ | l | m, d⟩
  · refine shadow_some.mpr ?_
    rcases x' with _ | ⟨_ | l' | m', d'⟩
    · exact ⟨_, _, rfl, covers_refl _, fun _ he => nomatch he⟩
    · exact ⟨_, _, rfl, trivial, fun _ he => nomatch he⟩
    · exact ⟨_, _, rfl, trivial, fun _ he => nomatch he⟩
    · refine ⟨_, _, rfl, ?_, fun _ he => nomatch he⟩
      exact has_setPairs_mono pairs fun f hf => by simp at hf
  · obtain ⟨v', d', rfl, -, hd⟩ := shadow_some.mp h
    refine shadow_some.mpr ?_
    rcases v' with _ | l' | m' <;> exact ⟨_, _, rfl, trivial, hd⟩
  · obtain ⟨v', d', rfl, hv, hd⟩ := shadow_some.mp h
    refine shadow_some.mpr ?_
    rcases v' with _ | l' | m'
    · exact ⟨_, _, rfl, trivial, hd⟩
    · exact ⟨_, _, rfl, hv, hd⟩
    · exact ⟨_, _, rfl, trivial, hd⟩
  · obtain ⟨v', d', rfl, hv, hd⟩ := shadow_some.mp h
    refine shadow_some.mpr ?_
    rcases v' with _ | l' | m'
    · exact ⟨_, _, rfl, trivial, hd⟩
    · exact ⟨_, _, rfl, trivial, hd⟩
    · exact ⟨_, _, rfl, has_setPairs_mono pairs hv, hd⟩

theorem shadow_hdel {fields : List Str} {x x' : Option Cell} (h : Shadow r n x x')
    (hlog : tookCount (fun n => n > 0) (hdelCell fields x).2 = true) :
    Shadow r n ((hdelCell fields x).1.action.onCell x)
      ((hdelCell fields x').1.action.onCell x') := by
  rcases x with _ | ⟨_ | l | m, d⟩
  · cases hlog
  · cases hlog
  · cases hlog
  · obtain ⟨v', d', rfl, hv, hd⟩ := shadow_some.mp h
    simp only [hdelCell]
    split
    · exact shadow_none
    · next hne =>
      have hcount : (deleteFields m fields).2 > 0 := by
        simp only [hdelCell, if_neg hne] at hlog
        split at hlog
        · assumption
        · simpa [tookCount] using hlog
      rw [if_pos hcount]
      refine shadow_some.mpr ?_
      rcases v' with _ | l' | m'
      · exact ⟨_, _, rfl, trivial, hd⟩
      · exact ⟨_, _, rfl, trivial, hd⟩
      · have hmono := has_deleteFields_mono fields hv
        have hle := size_le_of_has hmono
        have hne' : (deleteFields m' fields).1.size ≠ 0 := by omega
        simp only [if_neg hne']
        split
        · exact ⟨_, _, rfl, hmono, hd⟩
        · next hz =>
          have hsame : (deleteFields m' fields).1 = m' :=
            deleteFields_of_zero fields (Nat.eq_zero_of_not_pos hz)
          rw [hsame] at hmono
          exact ⟨_, _, rfl, hmono, hd⟩

theorem has_setPairs_of_zero (pairs : List (Str × Str)) : ∀ {m : OrdMap Str Str},
    (setPairs m pairs).2 = 0 → ∀ f, (setPairs m pairs).1.has f = m.has f := by
  induction pairs with
  | nil => exact fun _ _ => rfl
  | cons p pairs ih =>
    intro m hz f
    rw [setPairs_cons] at hz ⊢
    have hp : m.has p.1 = true := by
      by_contra hn
      rw [if_neg hn] at hz
      omega
    rw [if_pos hp, Nat.zero_add] at hz
    rw [ih hz, OrdMap.has_set]
    by_cases hf : f = p.1
    · simp [hf, hp]
    · simp [hf]

theorem shift_length (l : List Str) : (shift l).2.length = l.length - 1 := by
  cases l <;> rfl

theorem pop_length (l : List Str) : (pop l).2.length = l.length - 1 := List.length_dropLast

variable {c : Command} {now : Clock} {key : Str} {f f' : Option Cell → Effect × Bool}
  (hm : c.mutation now = some (key, f)) {x x' : Option Cell} (h : Shadow r n x x')

include hm h

theorem shadow_logged (hm' : c.mutation (Clock.still r) = some (key, f')) (hlog : (f x).2 = true) :
    Shadow r ((c.secondsFor key).or n) ((f x).1.action.onCell x) ((f' x').1.action.onCell x') := by
  cases c with
  | set k v m =>
    cases hm; cases hm'
    cases m with
    | none => exact shadow_some.mpr ⟨_, _, rfl, trivial, fun _ he => nomatch he⟩
    | some m =>
      exact shadow_some.mpr ⟨_, _, rfl, trivial, fun e he => ⟨m, by simp [Command.secondsFor], rfl⟩⟩
  | expire k m =>
    cases hm; cases hm'
    rcases x with _ | ⟨v, d⟩
    · cases hlog
    · obtain ⟨v', d', rfl, hv, -⟩ := shadow_some.mp h
      exact shadow_some.mpr ⟨_, _, rfl, hv, fun e he => ⟨m, by simp [Command.secondsFor], rfl⟩⟩
  | del k =>
    cases hm
    cases x with
    | none => cases hlog
    | some c => exact shadow_none
  | persist k =>
    cases hm; cases hm'
    rcases x with _ | ⟨v, _ | d⟩
    · cases hlog
    · cases hlog
    · obtain ⟨v', d', rfl, hv, -⟩ := shadow_some.mp h
      refine shadow_some.mpr ?_
      cases d' <;> exact ⟨_, _, rfl, hv, fun _ he => nomatch he⟩
  | lpush k vs =>
    cases hm; cases hm'
    refine shadow_push (fun l => ?_) h hlog
    rw [unshiftAll_eq, List.length_append, List.length_reverse]
  | rpush k vs =>
    cases hm; cases hm'
    refine shadow_push (fun l => ?_) h hlog
    rw [pushAll_eq, List.length_append, Nat.add_comm]
  | lpop k => cases hm; cases hm'; exact shadow_pop shift_length h hlog
  | rpop k => cases hm; cases hm'; exact shadow_pop pop_length h hlog
  | hset k pairs => cases hm; cases hm'; exact shadow_hset h
  | hdel k fields => cases hm; cases hm'; exact shadow_hdel h hlog
  | _ => cases hm

theorem shadow_unlogged (hc : c.WF) (hx : Cell.NonEmpty x) (hlog : (f x).2 = false) :
    Shadow r n ((f x).1.action.onCell x) x' := by
  rcases Command.onCell_of_unlogged hc hm hx hlog with e | ⟨pairs, m, d, rfl, rfl, hz, e⟩
  · rw [e]
    exact h
  · -- an HSET that adds no field
    rw [e]
    obtain ⟨v', d', rfl, hv, hd⟩ := shadow_some.mp h
    refine shadow_some.mpr ⟨v', d', rfl, ?_, hd⟩
    cases v' with
    | string v => trivial
    | list l => trivial
    | hash m' =>
      intro g hg
      rw [has_setPairs_of_zero pairs hz] at hg
      exact hv g hg

end

theorem Shadow.of_live {r : Int} {n : Option Nat} {x x' y : Option Cell} (h : Shadow r n x x')
    (hy : y = x ∨ y = none) : Shadow r n y x' := by
  rcases hy with rfl | rfl
  · exact h
  · exact shadow_none

/-! ## The file -/

/-- The log builds every live key, with its deadline counted from `r`. -/
structure Foretells (r : Int) (s : InMemoryStore) (text : Str) : Prop where
  complete : Complete text
  logged : ∀ l ∈ readLines text, Mutating l
  shadow : ∀ k, Shadow r (lastSeconds (readLines text) k) (s.cell k)
    ((built r (readLines text)).get? k)

theorem foretells_create (r : Int) (maxKeys : Nat) (hm : 1 ≤ maxKeys) :
    Foretells r (create maxKeys hm) [] :=
  ⟨.inl rfl, fun _ h => absurd h List.not_mem_nil, fun _ => shadow_none⟩

section

variable {r : Int} {s : InMemoryStore} {text : Str}

theorem Foretells.decays (H : Foretells r s text) {T : Int → Prop} {s' : InMemoryStore}
    (hd : Decays T s s') : Foretells r s' text :=
  ⟨H.complete, H.logged, fun k => (H.shadow k).of_live ((hd.cell k).imp_right And.left)⟩

/-- A rewrite starts the log anew. -/
theorem foretells_rewritten {maxKeys : Nat} {lo hi : Int} {clocks : Clocks}
    (hw : clocks.Within lo hi) (hs : Legible maxKeys s) (hn : Near lo s) (r : Int) :
    Foretells r (rewriteCommands s clocks).1 (commandText (rewriteCommands s clocks).2) := by
  obtain ⟨hlines, hkeys⟩ := rewritten_lines hw hs hn
  have hread := readLines_commandText fun l hl => (hlines l hl).2
  refine ⟨complete_commandText _, ?_, fun k => ?_⟩
  · rw [hread]
    exact fun l hl => (hlines l hl).1
  · rw [hread]
    intro c hc
    obtain ⟨t, hp, hfilter⟩ := hkeys k c hc
    refine ⟨⟨c.value, c.deadline.map fun d => r + secondsLeft t d * 1000⟩, ?_, covers_refl _,
      fun d hd => ⟨secondsLeft t d, ?_, ?_⟩⟩
    · rw [← get?_built_filter, hfilter]
      exact get?_built_keyLines hp r
    · rw [← lastSeconds_filter, hfilter, lastSeconds_keyLines hp, hd]
      rfl
    · show c.deadline.map _ = _
      rw [hd]
      rfl

theorem Foretells.live (H : Foretells r s text) (now : Int) (k : Str) :
    Shadow r (lastSeconds (readLines text) k) (liveAt now (s.cell k))
      ((built r (readLines text)).get? k) := by
  refine (H.shadow k).of_live ?_
  cases s.cell k with
  | none => exact .inl rfl
  | some c => rw [liveAt_some]; split <;> simp

variable {maxKeys : Nat} {item : QueuedCommand} {clocks : Clocks} (hs : Legible maxKeys s)
  (hp : parseCommand item.line = .ok item.command) {key : Str} {f : Option Cell → Effect × Bool}
  (hmu : item.command.mutation (clocks 0) = some (key, f)) (H : Foretells r s text)

include hs hp hmu H

theorem Foretells.unlogged (hl : (f (liveAt (clocks 0 0) (s.cell key))).2 = false) :
    Foretells r (s.perform key (clocks 0) f).1 text := by
  refine ⟨H.complete, H.logged, fun k => ?_⟩
  by_cases hk : k = key
  · have hself : (s.perform key (clocks 0) f).1.cell key =
        (f (liveAt (clocks 0 0) (s.cell key))).1.action.onCell
          (liveAt (clocks 0 0) (s.cell key)) := hs.lockstep.cell_perform_self
    rw [hk, hself]
    exact shadow_unlogged hmu (H.live _ key) (wf_of_parseCommand hp)
      (hs.noEmpty.liveAt _ key) hl
  · exact (H.shadow k).of_live (hs.lockstep.cell_perform_other hk)

theorem Foretells.logged_line (hl : (f (liveAt (clocks 0 0) (s.cell key))).2 = true)
    (hline : ∀ c ∈ trim item.line, isBreak c = false) :
    Foretells r (s.perform key (clocks 0) f).1 (text ++ format item.line) := by
  have hread := readLines_append_format H.complete hline
  have hp' : parseCommand (trim item.line) = .ok item.command := by
    rw [parseCommand_trim, hp]
  obtain ⟨f', hm'⟩ := Command.mutation_key hmu (Clock.still r)
  refine ⟨complete_append_format text _, ?_, fun k => ?_⟩
  · rw [hread]
    exact fun l hl => (List.mem_append.mp hl).elim (H.logged l) fun hl =>
      List.mem_singleton.mp hl ▸ ⟨_, hp', Command.mutates_iff.mpr ⟨key, f, hmu⟩⟩
  · rw [hread, lastSeconds_append, built_append_singleton, get?_buildLine,
      buildCell_command hp' hm', lineSeconds_command hp']
    by_cases hk : k = key
    · have hself : (s.perform key (clocks 0) f).1.cell key =
          (f (liveAt (clocks 0 0) (s.cell key))).1.action.onCell
            (liveAt (clocks 0 0) (s.cell key)) := hs.lockstep.cell_perform_self
      rw [if_pos hk.symm, hk, hself]
      exact shadow_logged hmu (H.live _ key) hm' hl
    · rw [if_neg (Ne.symm hk), Command.secondsFor_other hmu (Ne.symm hk), Option.none_or]
      exact (H.shadow k).of_live (hs.lockstep.cell_perform_other hk)

end

end Recovery

open Recovery

/-- The line of the command gets into the file, and is read as one line. -/
structure Execution.Written (x : Execution) : Prop extends Execution.Lands x where
  oneLine : x.logged = true → ∀ c ∈ trim x.item.line, isBreak c = false

instance (x : Execution) : Decidable x.Written :=
  letI : Decidable (∀ c ∈ trim x.item.line, isBreak c = false) := List.decidableBAll _ _
  decidable_of_iff (x.Lands ∧ (x.logged = true → ∀ c ∈ trim x.item.line, isBreak c = false))
    ⟨fun ⟨h1, h2⟩ => ⟨h1, h2⟩, fun h => ⟨h.toLands, h.oneLine⟩⟩

namespace Recovery

/-- The file goes on foretelling the store. -/
theorem follows_foretells (maxKeys : Nat) (r : Int) :
    Follows (Legible maxKeys) (Foretells r) (fun x => x.Written ∧ x.Timed) where
  lockstep H := H.lockstep
  lands hq := hq.1.toLands
  decays H hd := ⟨H.decays hd, fun hI => hI.decays hd⟩
  mutates {x key f} H hq hp hmu := by
    have hlogged := Execution.logged_eq hmu
    refine ⟨H.perform (wf_of_parseCommand hp) hmu, fun {text} hI => ?_⟩
    cases hl : x.logged with
    | false => exact hI.unlogged H hp hmu (hlogged.symm.trans hl)
    | true => exact hI.logged_line H hp hmu (hlogged.symm.trans hl) (hq.1.oneLine hl)
  rewrites {x} H hq _ := by
    obtain ⟨-, lo, hi, hw, hn⟩ := hq
    exact foretells_rewritten hw H hn r

/-! ## Is a deadline prolonged? -/

theorem notProlonged_none {r d : Int} : NotProlonged r d none := fun _ h => nomatch h

theorem notProlonged_some {r d e : Int} {v : StoredValue}
    (hl : liveAt r (some ⟨v, some e⟩) = some ⟨v, some e⟩) :
    NotProlonged r d (some ⟨v, some e⟩) ↔ r < d ∧ e ≤ d + 1000 := by
  constructor
  · intro h
    obtain ⟨hr, e', he, hle⟩ := h _ hl
    cases he
    exact ⟨hr, hle⟩
  · rintro ⟨hr, hle⟩ c hc
    rw [hl] at hc
    cases hc
    exact ⟨hr, e, rfl, hle⟩

/-- The entry of a live cell prolongs it unless the seconds left, counted from `r`, end in time. -/
theorem notProlonged_restored {saved d : Int} (hd : saved < d) (r : Int) (v : StoredValue) :
    NotProlonged r d (some (restored r (serialize saved ⟨v, some d⟩))) ↔
      r < d ∧ r + ceilSeconds (d - saved) * 1000 ≤ d + 1000 := by
  obtain ⟨h1, -, -⟩ := ceilSeconds_live hd
  have hsec : max 0 (ceilSeconds (max 0 (d - saved))) = ceilSeconds (d - saved) := by
    rw [show max 0 (d - saved) = d - saved by omega]
    unfold ceilSeconds
    omega
  rw [hsec] at h1
  have hcell : restored r (serialize saved ⟨v, some d⟩) =
      ⟨restoredValue (serializeValue v), some (r + ceilSeconds (d - saved) * 1000)⟩ := by
    simp only [restored, serialize, Option.map_some, hsec,
      Int.toNat_of_nonneg (Int.le_of_lt h1)]
  rw [hcell, notProlonged_some]
  refine liveAt_eq_some.mpr ⟨rfl, decide_eq_false ?_⟩
  omega

/-- A dump is read with the seconds that were left when it was saved. -/
theorem notProlonged_dump {maxKeys : Nat} (hm : 1 ≤ maxKeys) {s : InMemoryStore}
    (H : Legible maxKeys s) {k : Str} {v : StoredValue} {d : Int}
    (hk : s.cell k = some ⟨v, some d⟩) (saved r : Int) :
    NotProlonged r d ((saveAndRestore s maxKeys hm saved r).1.cell k) ↔
      k = PlainObject.protoKey ∨ d ≤ saved ∨
        (r < d ∧ r + ceilSeconds (d - saved) * 1000 ≤ d + 1000) := by
  have hone : ∀ k, s.cell k ≠ none → OneLine k := fun k hk => oneLine_of_isToken (H.token k hk)
  have hroom : savedKeys s saved ≤ maxKeys := by
    have hlen := (describes_extract_still (t := saved) H.lockstep hone).length_le (s := s)
      fun k hk hn => hk (by rw [hn]; rfl)
    have hsize := H.lockstep.size_le
    rw [H.maxKeys] at hsize
    exact Nat.le_trans hlen hsize
  rw [(cell_saveAndRestore H.lockstep hone maxKeys hm saved r hroom).2 k, hk]
  by_cases hp : k = PlainObject.protoKey
  · simp [hp, notProlonged_none]
  · rw [if_neg hp, liveAt_some]
    by_cases hd : d ≤ saved
    · have hx : Cell.expired ⟨v, some d⟩ saved = true := decide_eq_true hd
      rw [if_pos hx]
      simp [hd, notProlonged_none]
    · have hx : Cell.expired ⟨v, some d⟩ saved = false := decide_eq_false hd
      rw [hx, if_neg Bool.false_ne_true, Option.map_some, notProlonged_restored (by omega)]
      simp [hp, hd]

/-- For every server as `main` starts it on an empty store and no log, every run, and every key
that has a deadline `d` when it stops. If the clock does not go back in the run and every logged
line gets into the file as one line, then the last line of the file that gives the key a deadline
gives it some `n` seconds; and if the file never builds more keys than there are slots, the key is
not prolonged by a replay at `r` exactly if `r` is before `d` and the seconds, counted from `r`, end
at most a second after `d`. A dump saved at `saved` does not prolong the key exactly if it does not
hold it or `r` is before `d` and the seconds that were left, counted from `r`, end at most a second
after `d`. -/
theorem recovered_deadline_iff (maxKeys : Nat) (hm : 1 ≤ maxKeys) (pm : Option PersistenceManager)
    (pubSub : Option PubSubManager) (requirepass : Option Str) (disabledCommands : List Str)
    (path : Str) (fsyncPolicy : FsyncPolicy) (fs : Fs) (hfs : fs.WF) (hnew : fs.read path = none)
    (st0 : Server) (hst0 : st0 = Server.main (CommandHandler.create (create maxKeys hm) pm none
      pubSub requirepass disabledCommands) path fsyncPolicy fs)
    (events : List ServerEvent) (r : Int) (k : Str) (v : StoredValue) (d : Int)
    (hk : (st0.run events).handler.store.cell k = some ⟨v, some d⟩) :
    (∀ lo hi, Timely lo hi events →
      Trace.Along Server.next (Server.Orderly Execution.Written) st0 events →
      ∃ text n, logFile (st0.run events).handler = some text ∧
        lastSeconds (readLines text) k = some n ∧
        (BuildsAtMost maxKeys r (readLines text) →
          (NotProlonged r d ((replay (create maxKeys hm) (readLines text) fun _ _ =>
            Clocks.still r).cell k) ↔ r < d ∧ r + n * 1000 ≤ d + 1000))) ∧
    ∀ saved,
      NotProlonged r d ((saveAndRestore (st0.run events).handler.store maxKeys hm saved r).1.cell
          k) ↔
        k = PlainObject.protoKey ∨ d ≤ saved ∨
          (r < d ∧ r + ceilSeconds (d - saved) * 1000 ≤ d + 1000) := by
  have hlegible0 : Legible maxKeys st0.handler.store := hst0 ▸ legible_create maxKeys hm
  have hparsed0 : st0.handler.Parsed := hst0 ▸ fun id queue hq => (by cases hq)
  constructor
  · intro lo hi htimely hwritten
    have hstart : Logs (Legible maxKeys) (Foretells r) path st0.handler := by
      subst hst0
      refine Server.logs_main hfs fsyncPolicy (legible_create maxKeys hm) ?_
      rw [hnew]
      exact foretells_create r maxKeys hm
    have hnear0 : Near lo st0.handler.store := hst0 ▸ fun k c hc => by cases hc
    have horderly : Trace.Along Server.next
        (Server.Orderly fun x => x.Written ∧ x.Timed) st0 events :=
      (hwritten.and (Server.timed_along events hparsed0 hlegible0 hnear0 htimely)).imp
        (J := fun _ => True) (fun _ => trivial) (fun _ h =>
          ⟨fun x hx => ⟨h.1.commands x hx, h.2 x hx⟩, h.1.rejected, h.1.signal⟩) trivial
    obtain ⟨text, hfile, hI⟩ := (Server.follows_along (follows_foretells maxKeys r) hparsed0 hstart
      horderly List.prefix_rfl).2.text
    obtain ⟨v', d', hc, -, hd⟩ := shadow_some.mp (hk ▸ hI.shadow k)
    obtain ⟨n, hn, rfl⟩ := hd d rfl
    refine ⟨text, n, hfile, hn, fun hfit => ?_⟩
    have hlive := liveAt_replay r (lockstep_create maxKeys hm) (fun _ => rfl) _ hI.logged k
    rw [cell_replay_built hm r _ hI.logged hfit k, hc] at hlive
    rw [cell_replay_built hm r _ hI.logged hfit k, hc, notProlonged_some hlive]
  · exact fun saved => notProlonged_dump hm (Server.legible_run events hparsed0 hlegible0) hk saved r

open Server

/-- A key with ten seconds to live, and a rewrite of the log half a second later. -/
def tenSeconds : List ServerEvent :=
  [sendAt 0 "SET k v EX 10", sendAt 500 "BGREWRITEAOF", .rewriteSettled, .rewriteSettled,
    .rewriteSettled, .rewriteSettled]

theorem recovered_deadline_soon :
    (∃ text, logFile (booted.run tenSeconds).handler = some text ∧
      NotProlonged 900 10000 ((replay (create 2 Nat.two_pos) (readLines text) fun _ _ =>
        Clocks.still 900).cell ['k'])) ∧
    NotProlonged 900 10000 ((saveAndRestore (booted.run tenSeconds).handler.store 2 Nat.two_pos 800
      900).1.cell ['k']) := by
  have hsettled : ∀ t, ServerEvent.rewriteSettled.Within t t := fun t =>
    ⟨Int.le_refl t, fun _ h => False.elim h⟩
  have htimely : Timely 0 500 tenSeconds :=
    ⟨0, within_sendAt (by decide) _, 500, within_sendAt (by decide) _, 500, hsettled 500, 500,
      hsettled 500, 500, hsettled 500, 500, hsettled 500, Int.le_refl 500⟩
  have hwritten : Trace.Along next (Orderly Execution.Written) booted tenSeconds :=
    ⟨⟨by decide, fun h => (by cases h), fun ⟨_, h⟩ => by cases h⟩,
      ⟨by decide, fun h => (by cases h), fun ⟨_, h⟩ => by cases h⟩,
      orderly_settled, orderly_settled, orderly_settled, orderly_settled, trivial⟩
  obtain ⟨hlog, hdump⟩ := recovered_deadline_iff 2 Nat.two_pos
    (some (PersistenceManager.create none)) (some PubSubManager.empty) none [] "aof".toList .no
    Fs.empty Fs.wf_empty rfl booted rfl tenSeconds 900 ['k'] (.string ['v']) 10000 (by decide)
  obtain ⟨text, n, hfile, hn, hiff⟩ := hlog 0 500 htimely hwritten
  have htext : logFile (booted.run tenSeconds).handler = some "SET k v EX 10\n".toList := by decide
  obtain rfl : "SET k v EX 10\n".toList = text := Option.some.inj (htext.symm.trans hfile)
  obtain rfl : 10 = n := Option.some.inj (Eq.trans (by decide) hn)
  exact ⟨⟨_, hfile, (hiff (by decide)).mpr (by decide)⟩, (hdump 800).mpr (by decide)⟩

/-- Stopped at 1000 and restarted at 20000, the key is live again, from either file. -/
theorem expired_key_revives :
    (booted.run [sendAt 0 "SET k v EX 10"]).handler.store.cell ['k'] =
      some ⟨.string ['v'], some 10000⟩ ∧
    logFile (booted.run [sendAt 0 "SET k v EX 10"]).handler = some "SET k v EX 10\n".toList ∧
    (replay (create 2 Nat.two_pos) (readLines "SET k v EX 10\n".toList) fun _ _ =>
      Clocks.still 20000).evictionCount = 0 ∧
    liveAt 20000 ((replay (create 2 Nat.two_pos) (readLines "SET k v EX 10\n".toList) fun _ _ =>
      Clocks.still 20000).cell ['k']) = some ⟨.string ['v'], some 30000⟩ ∧
    liveAt 20000 ((saveAndRestore (booted.run [sendAt 0 "SET k v EX 10"]).handler.store 2
      Nat.two_pos 1000 20000).1.cell ['k']) = some ⟨.string ['v'], some 29000⟩ := by
  decide

end Recovery

end MiniStore
