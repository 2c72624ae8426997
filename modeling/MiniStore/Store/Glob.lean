import MiniStore.Lib.RegExp
import MiniStore.Store.KeysMRU

/-!
# KEYS

`keys` writes a regular expression from its pattern, by two substitutions, and tests it on the
keys of the map that its loop removes from. `scan` is that code. Its result is that of
`InMemoryStore.keys` (`scan_eq`), where the regular expression is a recursion on the pattern
and the loop runs over a list; on keys of one line it is the meaning of a glob (`globMatch_iff`).
-/

namespace MiniStore

namespace InMemoryStore

open RegExp (Term Matches)
open PersistenceManager (OneLine)

/-! ## The regular expression -/

/-- The class `[.+?^${}()|[\]\\]`. -/
def isEscaped (c : Char) : Bool := ".+?^$\x7b\x7d()|[]\\".toList.contains c

/-- `pattern.replace(/[.+?^${}()|[\]\\]/g, '\\$&')` -/
def escapeSyntax (pattern : Str) : Str :=
  pattern.flatMap fun c => if isEscaped c then ['\\', c] else [c]

/-- `.replace(/\*/g, '.*')` -/
def starsToDots (pattern : Str) : Str :=
  pattern.flatMap fun c => if c = '*' then ['.', '*'] else [c]

def regexStr (pattern : Str) : Str := '^' :: (starsToDots (escapeSyntax pattern) ++ ['$'])

/-- The characters `.` matches. -/
def inLine (c : Char) : Bool := !isLineTerminator c

/-! ## The loop -/

/-- `for (const key of this.#values.keys())`: the iterator of a `Map` passes over the entries
that have been removed by the time it gets there. -/
def scanLoop (test : Str → Bool) (now : Clock) :
    List Str → Nat → InMemoryStore → InMemoryStore × List Str
  | [], _, s => (s, [])
  | key :: rest, i, s =>
    if s.values.has key then
      match s.expireIfNeeded key (now i) with
      | (s, expired) =>
        match scanLoop test now rest (i + 1) s with
        | (s, matched) => (s, if !expired && test key then key :: matched else matched)
    else scanLoop test now rest i s

/-- `none` is a regular expression that `new RegExp` rejects or that is not modelled. -/
def scan (s : InMemoryStore) (pattern : Str) (now : Clock) : Option (InMemoryStore × List Str) :=
  (RegExp.parse (regexStr pattern)).map fun regex =>
    scanLoop (RegExp.test inLine regex) now s.values.keys 0 s

/-! ## What the regular expression means -/

/-- The pattern with each `*` replaced by some text, and every other character itself. -/
inductive Glob : Str → Str → Prop
  | nil : Glob [] []
  | star {p s} (w : Str) : Glob p s → Glob ('*' :: p) (w ++ s)
  | char {p s} {c : Char} : c ≠ '*' → Glob p s → Glob (c :: p) (c :: s)

def globTerms (pattern : Str) : List Term :=
  pattern.map fun c => if c = '*' then .dots else .char c

/-- Apart from the star, what has a meaning in a regular expression is escaped. -/
theorem isSyntax_iff {c : Char} : RegExp.isSyntax c = true ↔ c = '*' ∨ isEscaped c = true := by
  have hperm : "^$\\.*+?()[]\x7b\x7d|".toList.Perm
      ('*' :: ".+?^$\x7b\x7d()|[]\\".toList) := by decide
  rw [RegExp.isSyntax, isEscaped, List.contains_iff_mem, List.contains_iff_mem, hperm.mem_iff,
    List.mem_cons]

theorem parse_regexStr (pattern : Str) :
    RegExp.parse (regexStr pattern) = some (.start :: (globTerms pattern ++ [.stop])) := by
  suffices h : RegExp.parse (starsToDots (escapeSyntax pattern) ++ ['$']) =
      some (globTerms pattern ++ [.stop]) by
    rw [regexStr, RegExp.parse_start, h]
    rfl
  induction pattern with
  | nil => rfl
  | cons c pattern ih =>
    -- a star, an escaped character, and one that needs no escape
    by_cases hstar : c = '*'
    · subst hstar
      have e : starsToDots (escapeSyntax ('*' :: pattern)) =
          '.' :: '*' :: starsToDots (escapeSyntax pattern) := by rfl
      rw [e, List.cons_append, List.cons_append, RegExp.parse_dots, ih]
      rfl
    have hterms : globTerms (c :: pattern) = .char c :: globTerms pattern := by
      simp [globTerms, hstar]
    cases hesc : isEscaped c with
    | true =>
      have e : starsToDots (escapeSyntax (c :: pattern)) =
          '\\' :: c :: starsToDots (escapeSyntax pattern) := by
        simp [starsToDots, escapeSyntax, hesc, hstar]
      have hsyn := isSyntax_iff.mpr (.inr hesc)
      rw [e, List.cons_append, List.cons_append, RegExp.parse_escaped hsyn, ih, hterms]
      rfl
    | false =>
      have hsyn : RegExp.isSyntax c = false := by
        rw [← Bool.not_eq_true, isSyntax_iff]
        simp [hstar, hesc]
      have e : starsToDots (escapeSyntax (c :: pattern)) =
          c :: starsToDots (escapeSyntax pattern) := by
        simp [starsToDots, escapeSyntax, hesc, hstar]
      rw [e, List.cons_append, RegExp.parse_char hsyn, ih, hterms]
      rfl

/-- `.*` and what follows it, wherever it stands. -/
theorem seek_inLine {rest : Bool → Str → Bool} {rest' : Str → Bool}
    (h : ∀ first s, rest first s = rest' s) :
    ∀ first s, RegExp.seek inLine rest first s = starMatch rest' s
  | first, [] => h first []
  | first, c :: s => by rw [RegExp.seek, starMatch, h, seek_inLine h false s, inLine]

theorem run_globTerms (pattern : Str) : ∀ first s,
    RegExp.run inLine (globTerms pattern ++ [.stop]) first s = globMatch pattern s := by
  induction pattern with
  | nil => exact fun _ s => Bool.and_true _
  | cons c pattern ih =>
    intro first s
    by_cases hstar : c = '*'
    · subst hstar
      exact seek_inLine ih first s
    · have hterms : globTerms (c :: pattern) = .char c :: globTerms pattern := by
        simp [globTerms, hstar]
      rw [hterms, List.cons_append]
      cases s with
      | nil => simp [RegExp.run, globMatch, hstar]
      | cons d s => simp [RegExp.run, globMatch, hstar, ih]

theorem test_globTerms (pattern k : Str) :
    RegExp.test inLine (.start :: (globTerms pattern ++ [.stop])) k = globMatch pattern k :=
  RegExp.test_start.trans (run_globTerms pattern true k)

/-- Where `.` matches every character, a match is a glob's. -/
theorem matches_iff_glob {pattern before s : Str} (hs : OneLine s) :
    Matches inLine (globTerms pattern ++ [.stop]) before s ↔ Glob pattern s := by
  induction pattern generalizing before s with
  | nil =>
    constructor
    · rintro (_ | _ | _ | _ | h)
      exact .nil
    · rintro ⟨⟩
      exact .stop .nil
  | cons c pattern ih =>
    by_cases hstar : c = '*'
    · subst hstar
      constructor
      · rintro (_ | _ | @⟨_, _, w, after, hw, h⟩)
        exact .star w ((ih fun c hc => hs c (List.mem_append_right w hc)).mp h)
      · rintro (_ | @⟨_, s, w, h⟩ | ⟨hc, -⟩)
        · refine .dots (fun c hc => ?_) ((ih fun c hc => hs c (List.mem_append_right w hc)).mpr h)
          rw [inLine, hs c (List.mem_append_left s hc)]
          rfl
        · exact absurd rfl hc
    · have hterms : globTerms (c :: pattern) = .char c :: globTerms pattern := by
        simp [globTerms, hstar]
      rw [hterms, List.cons_append]
      constructor
      · rintro (_ | h)
        exact .char hstar ((ih fun c hc => hs c (List.mem_cons_of_mem _ hc)).mp h)
      · rintro (_ | _ | ⟨-, h⟩)
        · exact absurd rfl hstar
        · exact .char ((ih fun c hc => hs c (List.mem_cons_of_mem _ hc)).mpr h)

theorem globMatch_iff {pattern k : Str} (hk : OneLine k) :
    globMatch pattern k = true ↔ Glob pattern k := by
  have hstart : Matches inLine (globTerms pattern ++ [.stop]) [] k ↔ Glob pattern k :=
    matches_iff_glob hk
  rw [← run_globTerms pattern true k, ← hstart, ← RegExp.run_iff]
  rfl

theorem glob_star (k : Str) : Glob ['*'] k := by
  simpa using Glob.star k .nil

/-! ## The scan -/

/-- No key is gone before the iterator gets to it. -/
theorem scanLoop_eq (test : Str → Bool) (now : Clock) : ∀ (ks : List Str) (i : Nat)
    {s : InMemoryStore}, s.Lockstep → ks.Nodup → (∀ k ∈ ks, s.cell k ≠ none) →
      scanLoop test now ks i s = keysLoop test now ks i s
  | [], _, _, _, _, _ => rfl
  | key :: ks, i, s, h, hn, hk => by
    obtain ⟨hkey, hn⟩ := List.nodup_cons.mp hn
    obtain ⟨hhead, hk⟩ := List.forall_mem_cons.mp hk
    have ih := scanLoop_eq test now ks (i + 1) (h.purge key (now i)) hn fun k hmem => by
      rw [h.cell_purge, if_neg (ne_of_mem_of_not_mem hmem hkey)]
      exact hk k hmem
    rw [scanLoop, if_pos (has_iff_cell.mpr hhead), keysLoop]
    simp only [purge] at ih
    simp only [ih]

theorem scan_eq {s : InMemoryStore} (h : s.Lockstep) (pattern : Str) (now : Clock) :
    s.scan pattern now = some (s.keys pattern now) := by
  rw [scan, parse_regexStr, Option.map_some, funext (test_globTerms pattern)]
  exact congrArg some (scanLoop_eq _ now _ 0 h s.values.keys_nodup fun k => mem_keys.mp)

/-- With the clock held still, KEYS returns the live keys that the glob matches, each once and
in the order of insertion, and removes exactly the expired ones; `*` matches every key. -/
theorem keys_glob (s : InMemoryStore) (h : s.Lockstep) (hk : ∀ k ∈ s.values.keys, OneLine k)
    (pattern : Str) (t : Int) :
    ∃ s' matched, s.scan pattern (Clock.still t) = some (s', matched) ∧
      s.keys pattern (Clock.still t) = (s', matched) ∧
      (∀ k, k ∈ matched ↔ s.live t k = true ∧ Glob pattern k) ∧
      matched.Sublist s.values.keys ∧ matched.Nodup ∧
      (∀ k, s'.cell k = liveAt t (s.cell k)) ∧
      (pattern = ['*'] → matched = s.values.keys.filter (s.live t)) := by
  obtain ⟨hcells, hmatched⟩ := keys_still h pattern t
  have hsub : (s.keys pattern (Clock.still t)).2.Sublist s.values.keys := by
    rw [hmatched]
    exact List.filter_sublist
  refine ⟨(s.keys pattern (Clock.still t)).1, (s.keys pattern (Clock.still t)).2,
    scan_eq h pattern _, rfl, fun k => ?_, hsub, s.values.keys_nodup.sublist hsub, hcells, ?_⟩
  · rw [hmatched, List.mem_filter, Bool.and_eq_true]
    constructor
    · rintro ⟨hmem, hl, hg⟩
      exact ⟨hl, (globMatch_iff (hk k hmem)).mp hg⟩
    · rintro ⟨hl, hg⟩
      obtain ⟨c, hc, -⟩ := live_iff.mp hl
      have hmem : k ∈ s.values.keys := mem_keys.mpr (by simp [hc])
      exact ⟨hmem, hl, (globMatch_iff (hk k hmem)).mpr hg⟩
  · rintro rfl
    rw [hmatched]
    refine List.filter_congr fun k hmem => ?_
    rw [(globMatch_iff (hk k hmem)).mpr (glob_star k), Bool.and_true]
    rfl

def dotted : InMemoryStore :=
  runAll (create 2 Nat.two_pos) [(.set ['a', '.', 'c'] ['1'] none, Clock.still 0),
    (.set ['a', 'b', 'c'] ['2'] none, Clock.still 0)]

theorem keys_glob_dotted : ∃ s' matched,
    dotted.scan ['a', '.', '*'] (Clock.still 0) = some (s', matched) ∧
      ['a', '.', 'c'] ∈ matched ∧ ['a', 'b', 'c'] ∉ matched := by
  have hkeys : dotted.values.keys = [['a', '.', 'c'], ['a', 'b', 'c']] := by decide
  obtain ⟨s', matched, hscan, -, hmem, -⟩ := keys_glob dotted
    ((lockstep_create 2 Nat.two_pos).runAll _)
    (by rw [hkeys]; simp [OneLine, isLineTerminator]) ['a', '.', '*'] 0
  refine ⟨s', matched, hscan, (hmem _).mpr ⟨by decide, ?_⟩, fun h => ?_⟩
  · exact .char (by decide) (.char (by decide) (.star ['c'] .nil))
  · rcases ((hmem _).mp h).2 with _ | _ | ⟨-, _ | _ | _⟩

end InMemoryStore

end MiniStore
