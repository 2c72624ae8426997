import MiniStore.Recovery.BuiltLog
import MiniStore.Recovery.Compaction
import MiniStore.Server.Deliveries
import MiniStore.Server.Refinement

/-!
# A rewrite while time passes

A rewrite looks at each key three times, and the clock goes on meanwhile. A key that has expired by
the last look leaves at most an EXPIRE for a key that is not there (`rewriteKey_cases`); a key that
is still there afterwards has its lines, with the seconds left at one reading of the clock
(`rewritten_lines`), and they build it again (`get?_built_keyLines`). A clock that does not go back
never shows a deadline further ahead than a command can put it (`timed_along`).
-/

namespace MiniStore

open InMemoryStore Text CommandParser AofWriter Engine

namespace Recovery

/-! ## One key -/

/-- A look at a key finds what is live, and leaves it. -/
theorem look {s : InMemoryStore} (h : s.Lockstep) (key : Str) (now : Clock) {α : Type}
    {f : Option Cell → Effect × α} (hfits : ∀ x, (f x).1.Fits x)
    (hkeeps : ∀ x, (f x).1.action.onCell x = x) :
    ∃ s', s.perform key now f = (s', (f (liveAt (now 0) (s.cell key))).2) ∧ s'.Lockstep ∧
      s'.cell key = liveAt (now 0) (s.cell key) :=
  ⟨_, Prod.ext rfl h.perform_snd, h.perform hfits, h.cell_perform_self.trans (hkeeps _)⟩

theorem keeps_getCell (x : Option Cell) : (getCell x).1.action.onCell x = x := by
  rcases x with _ | ⟨_ | _ | _, d⟩ <;> rfl

theorem keeps_ttlCell (t : Int) (x : Option Cell) : (ttlCell t x).1.action.onCell x = x := by
  rcases x with _ | ⟨v, _ | d⟩ <;> rfl

theorem keeps_readCell {α β : Type} (payload : StoredValue → Option β) (absent : α) (read : β → α)
    (x : Option Cell) : (readCell payload absent read x).1.action.onCell x = x := by
  cases x with
  | none => rfl
  | some c =>
    simp only [readCell]
    split <;> rfl

/-- The line that gives a key the seconds read before its value was looked at. -/
def expireLine (key : Str) (seconds : Int) : Str :=
  "EXPIRE ".toList ++ key ++ ' ' :: (toString seconds).toList

/-- When the value is gone, all there can be is the line for the deadline. -/
theorem rewriteKey_valueGone {s s1 s2 : InMemoryStore} {key : Str} {clocks : Clocks} {i : Nat}
    {type : ValueType} {seconds : Int}
    (e1 : s.perform key (clocks i) keyTypeCell = (s1, some type))
    (e2 : s1.perform key (clocks (i + 1)) (ttlCell (clocks (i + 1) 1)) = (s2, seconds))
    (h2 : s2.Lockstep) (hlast : liveAt (clocks (i + 2) 0) (s2.cell key) = none) :
    (rewriteKey clocks i key s).1.cell key = none ∧ ((rewriteKey clocks i key s).2 = [] ∨
      seconds > 0 ∧ (rewriteKey clocks i key s).2 = [expireLine key seconds]) := by
  have hlook : ∀ {α β : Type} (payload : StoredValue → Option β) (absent : α) (read : β → α),
      ∃ s3, s2.perform key (clocks (i + 2)) (readCell payload absent read) = (s3, .ok absent) ∧
        s3.cell key = none := by
    intro α β payload absent read
    obtain ⟨s3, e3, -, c3⟩ := look h2 key (clocks (i + 2)) (f := readCell payload absent read)
      fits_readCell (keeps_readCell payload absent read)
    rw [hlast] at e3 c3
    exact ⟨s3, e3, c3⟩
  have hexpire : ∀ {s3 : InMemoryStore} {p : InMemoryStore × List Str}, s3.cell key = none →
      (s3, [] ++ (if seconds > 0 then [expireLine key seconds] else [])) = p →
      p.1.cell key = none ∧ (p.2 = [] ∨ seconds > 0 ∧ p.2 = [expireLine key seconds]) := by
    rintro s3 p c3 rfl
    refine ⟨c3, ?_⟩
    dsimp only
    split
    · next hpos => exact .inr ⟨hpos, rfl⟩
    · exact .inl rfl
  generalize hp : rewriteKey clocks i key s = p
  simp only [rewriteKey, keyType_eq, e1, ttl_eq, e2] at hp
  cases type with
  | string =>
    obtain ⟨s3, e3, -, c3⟩ := look h2 key (clocks (i + 2)) fits_getCell keeps_getCell
    rw [hlast] at e3 c3
    simp only [get_eq, e3, getCell] at hp
    subst hp
    exact ⟨c3, .inl rfl⟩
  | list =>
    obtain ⟨s3, e3, c3⟩ := hlook StoredValue.asList [] (slice 0 (-1))
    simp only [lrange, readAs_eq, e3] at hp
    exact hexpire c3 hp
  | hash =>
    obtain ⟨s3, e3, c3⟩ := hlook StoredValue.asHash []
      fun map => map.entries.flatMap fun e => [e.1, e.2]
    simp only [hgetall, readAs_eq, e3] at hp
    exact hexpire c3 hp

/-- A key that is gone at the last look leaves nothing, or an EXPIRE. -/
theorem rewriteKey_gone {s : InMemoryStore} (h : s.Lockstep) (key : Str) (clocks : Clocks) (i : Nat)
    (hgone : liveAt (clocks (i + 2) 0) (liveAt (clocks (i + 1) 0)
      (liveAt (clocks i 0) (s.cell key))) = none) :
    (rewriteKey clocks i key s).1.cell key = none ∧
      ((rewriteKey clocks i key s).2 = [] ∨
        ∃ c, s.cell key = some c ∧ (ttlCell (clocks (i + 1) 1) (some c)).2 > 0 ∧
          (rewriteKey clocks i key s).2 =
            [expireLine key (ttlCell (clocks (i + 1) 1) (some c)).2]) := by
  obtain ⟨s1, e1, h1, c1⟩ := look h key (clocks i) (f := keyTypeCell) (fun _ => trivial)
    fun _ => rfl
  cases hx1 : liveAt (clocks i 0) (s.cell key) with
  | none =>
    rw [hx1] at c1
    rw [rewriteKey, keyType_eq, e1, hx1]
    exact ⟨c1, .inl rfl⟩
  | some c =>
    rw [hx1] at e1 hgone c1
    obtain ⟨s2, e2, h2, c2⟩ := look h1 key (clocks (i + 1))
      (fun x => fits_ttlCell (t := clocks (i + 1) 1) x) (keeps_ttlCell (clocks (i + 1) 1))
    rw [c1] at e2 c2
    obtain ⟨hcell, hnil | ⟨hpos, hlines⟩⟩ := rewriteKey_valueGone e1 e2 h2 (by rw [c2, hgone])
    · exact ⟨hcell, .inl hnil⟩
    · refine ⟨hcell, .inr ⟨c, (liveAt_eq_some.mp hx1).1, ?_⟩⟩
      cases hx2 : liveAt (clocks (i + 1) 0) (some c) with
      | none =>
        rw [hx2] at hpos
        cases hpos
      | some c' =>
        obtain ⟨e, -⟩ := liveAt_eq_some.mp hx2
        cases e
        rw [hx2] at hpos hlines
        exact ⟨hpos, hlines⟩

theorem rewriteKey_cases {s : InMemoryStore} (h : s.Lockstep) (key : Str) {clocks : Clocks}
    (i : Nat) {lo hi : Int} (hw : clocks.Within lo hi) :
    (rewriteKey clocks i key s).1.cell key = none ∧
        ((rewriteKey clocks i key s).2 = [] ∨
          ∃ c, s.cell key = some c ∧ (ttlCell (clocks (i + 1) 1) (some c)).2 > 0 ∧
            (rewriteKey clocks i key s).2 =
              [expireLine key (ttlCell (clocks (i + 1) 1) (some c)).2]) ∨
      ∃ c, s.cell key = some c ∧ (rewriteKey clocks i key s).1.cell key = some c ∧
        c.expired (clocks (i + 1) 1) = false ∧
        (rewriteKey clocks i key s).2 = keyLines key (clocks (i + 1) 1) c := by
  have hsecond : clocks (i + 1) 0 ≤ clocks (i + 2) 0 := hw.onward (i + 1) 0 0
  have hfirst : clocks i 0 ≤ clocks (i + 2) 0 := by
    have hle := hw.onward i 0 0
    omega
  cases hx : liveAt (clocks (i + 2) 0) (s.cell key) with
  | none =>
    have hgone : liveAt (clocks (i + 2) 0) (liveAt (clocks (i + 1) 0)
        (liveAt (clocks i 0) (s.cell key))) = none := by
      rw [liveAt_liveAt hsecond, liveAt_liveAt hfirst, hx]
    exact .inl (rewriteKey_gone h key clocks i hgone)
  | some c =>
    obtain ⟨hc, hlive⟩ := liveAt_eq_some.mp hx
    have hearlier : ∀ {t}, t ≤ clocks (i + 2) 0 → c.expired t = false := fun ht =>
      Bool.eq_false_of_not_eq_true fun hdue => by
        rw [expired_mono ht hdue] at hlive
        cases hlive
    have hall : ∀ j < 3, liveAt (clocks (i + j) 0) (s.cell key) = s.cell key := by
      intro j hj
      rw [hc]
      refine liveAt_eq_some.mpr ⟨rfl, ?_⟩
      match j, hj with
      | 0, _ => exact hearlier hfirst
      | 1, _ => exact hearlier hsecond
      | 2, _ => exact hlive
    rw [rewriteKey_live hc hall]
    exact .inr ⟨c, hc, hc, hearlier (hw.onward (i + 1) 1 0), rfl⟩

/-! ## The lines of a key -/

/-- The line is read as one mutating command on the key. -/
structure LineOn (key line : Str) : Prop where
  mutating : Mutating line
  oneLine : ∀ c ∈ line, isBreak c = false
  isOn : isOn key line = true

theorem isOn_unique {k k' line : Str} (h : isOn k line = true) (h' : isOn k' line = true) :
    k = k' := by
  cases hp : parseCommand line with
  | error => simp [Recovery.isOn, hp] at h
  | ok c =>
    cases hm : c.mutation (Clock.still 0) with
    | none => simp [Recovery.isOn, hp, hm] at h
    | some action =>
      rw [isOn_command hp hm, decide_eq_true_iff] at h h'
      exact h.symm.trans h'

theorem lineOn_of_parse {key line : Str} {c : Command} (hp : parseCommand line = .ok c)
    {f : Option Cell → Effect × Bool} (hm : c.mutation (Clock.still 0) = some (key, f))
    (hbreak : ∀ c ∈ line, isBreak c = false) : LineOn key line :=
  ⟨⟨c, hp, Command.mutates_iff.mpr ⟨key, f, hm⟩⟩, hbreak,
    by rw [isOn_command hp hm, decide_eq_true rfl]⟩

theorem lineOn_expire {key : Str} (hk : IsToken key) {n : Nat} (h1 : 1 ≤ n)
    (h2 : n ≤ maxTtlSeconds) : LineOn key (join ["EXPIRE".toList, key, (toString n).toList]) := by
  refine lineOn_of_parse (parse_expire hk h1 h2) rfl (isBreak_join ?_)
  simp only [List.forall_mem_cons]
  exact ⟨isToken_of_all (by decide) (by decide), hk, isToken_toString n,
    fun _ h => absurd h List.not_mem_nil⟩

theorem lineOn_value {key : Str} (hk : IsToken key) {v : StoredValue} (hv : v.Spelled)
    (hne : v.NonEmpty) : LineOn key (join (valueTokens key v)) := by
  obtain ⟨c, hp, -, heffect⟩ := command_value hk hv hne
  obtain ⟨f, b, hm, -⟩ := heffect (Clock.still 0)
  exact lineOn_of_parse hp hm (isBreak_join (isToken_valueTokens hk hv))

theorem lineOn_keyLines {t : Int} {key : Str} {c : Cell} (hp : Printable t key c) :
    ∀ l ∈ keyLines key t c, LineOn key l := by
  have hvalue := lineOn_value hp.key hp.spelled hp.nonEmpty
  have hbreak := isBreak_keyLines hp
  rw [keyLines_eq hp.nonEmpty hp.live hp.near] at hbreak ⊢
  have hlive := hp.live
  have hnear := hp.near
  have hspelled := hp.spelled
  obtain ⟨v, _ | d⟩ := c
  · intro l hl
    cases v <;> exact List.mem_singleton.mp hl ▸ hvalue
  · have hlt : t < d := by
      have hd : decide (d ≤ t) = false := hlive
      simpa using hd
    obtain ⟨-, hpos, hmax, -⟩ := secondsLeft_spec hlt (hnear d rfl)
    have hexpire := lineOn_expire hp.key hpos hmax
    cases v with
    | string v =>
      intro l hl
      have hparse := parse_set_ex hp.key hspelled hpos hmax
      rw [List.mem_singleton.mp hl]
      exact lineOn_of_parse hparse rfl (hbreak _ (List.mem_singleton.mpr rfl))
    | list l =>
      exact List.forall_mem_cons.mpr ⟨hvalue, fun l hl => List.mem_singleton.mp hl ▸ hexpire⟩
    | hash m =>
      exact List.forall_mem_cons.mpr ⟨hvalue, fun l hl => List.mem_singleton.mp hl ▸ hexpire⟩

/-- A time to live that is printed is one a command can set. -/
theorem seconds_of_ttl {t : Int} {c : Cell}
    (hfar : ∀ d ∈ c.deadline, d ≤ t + maxTtlSeconds * 1000) (hpos : (ttlCell t (some c)).2 > 0) :
    ∃ n : Nat, 1 ≤ n ∧ n ≤ maxTtlSeconds ∧ (ttlCell t (some c)).2 = n := by
  obtain ⟨v, _ | d⟩ := c
  · cases hpos
  · have hlt : t < d := by
      by_contra hge
      have hzero : max 0 (d - t) = 0 := by omega
      simp only [ttlCell, hzero] at hpos
      exact absurd hpos (by decide)
    obtain ⟨hcast, h1, h2, -⟩ := secondsLeft_spec hlt (hfar d rfl)
    exact ⟨secondsLeft t d, h1, h2, hcast⟩

/-! ## All keys -/

/-- No deadline is further ahead of `t` than a command can put it. -/
def Near (t : Int) (s : InMemoryStore) : Prop :=
  ∀ k c, s.cell k = some c → ∀ d ∈ c.deadline, d ≤ t + maxTtlSeconds * 1000

theorem Near.mono {t t' : Int} {s : InMemoryStore} (h : Near t s) (ht : t ≤ t') : Near t' s := by
  intro k c hc d hd
  have hle := h k c hc d hd
  omega

theorem Near.decays {t : Int} {s s' : InMemoryStore} (h : Near t s) {T : Int → Prop}
    (hd : Decays T s s') : Near t s' := by
  intro k c hc
  rcases hd.cell k with e | ⟨e, -⟩
  · exact h k c (e ▸ hc)
  · rw [e] at hc
    cases hc

section

variable {maxKeys : Nat} {lo hi : Int} {clocks : Clocks} (hw : clocks.Within lo hi)

include hw

theorem lineOn_rewriteKey {s : InMemoryStore} (hs : Legible maxKeys s) (hn : Near lo s) (key : Str)
    (i : Nat) : (∀ l ∈ (rewriteKey clocks i key s).2, LineOn key l) ∧
      ∀ c, (rewriteKey clocks i key s).1.cell key = some c →
        ∃ t, Printable t key c ∧ (rewriteKey clocks i key s).2 = keyLines key t c := by
  have hfar : ∀ {c : Cell}, s.cell key = some c → ∀ d ∈ c.deadline,
      d ≤ clocks (i + 1) 1 + maxTtlSeconds * 1000 := by
    intro c hc d hd
    have hle := hn key c hc d hd
    have hlo := (hw.bounds (i + 1) 1).1
    omega
  rcases rewriteKey_cases hs.lockstep key i hw with
    ⟨hnone, hlines⟩ | ⟨c, hc, hc', hlive, hlines⟩
  · refine ⟨?_, fun c hc => by rw [hnone] at hc; cases hc⟩
    rcases hlines with hnil | ⟨c, hc, hpos, hlines⟩
    · rw [hnil]
      exact fun l hl => absurd hl List.not_mem_nil
    · obtain ⟨n, h1, h2, hseconds⟩ := seconds_of_ttl (hfar hc) hpos
      rw [hlines, hseconds]
      intro l hl
      have hjoin : expireLine key n = join ["EXPIRE".toList, key, (toString n).toList] := by
        rw [join_three]
        rfl
      rw [List.mem_singleton.mp hl, hjoin]
      exact lineOn_expire (hs.token key (by rw [hc]; exact Option.some_ne_none c)) h1 h2
  · have hp : Printable (clocks (i + 1) 1) key c :=
      ⟨hs.token key (by rw [hc]; exact Option.some_ne_none c), hs.spelled key c hc,
        hs.noEmpty key c hc, hlive, hfar hc⟩
    rw [hlines, hc']
    refine ⟨lineOn_keyLines hp, fun x hx => ?_⟩
    obtain rfl : c = x := Option.some.inj hx
    exact ⟨_, hp, rfl⟩

theorem rewriteLoop_lines : ∀ (keys : List Str) (i : Nat) {s : InMemoryStore}, keys.Nodup →
    Legible maxKeys s → Near lo s →
      (∀ l ∈ (rewriteLoop clocks keys i s).2, ∃ key ∈ keys, LineOn key l) ∧
      ∀ k ∈ keys, ∀ c, (rewriteLoop clocks keys i s).1.cell k = some c →
        ∃ t, Printable t k c ∧ (rewriteLoop clocks keys i s).2.filter (isOn k) = keyLines k t c
  | [], _, _, _, _, _ => ⟨fun l hl => absurd hl List.not_mem_nil,
      fun k hk => absurd hk List.not_mem_nil⟩
  | key :: keys, i, s, hnd, hs, hn => by
    obtain ⟨hnot, hnd⟩ := List.nodup_cons.mp hnd
    obtain ⟨hfirst, hkey⟩ := lineOn_rewriteKey hw hs hn key i
    have hd : Decays (fun _ => True) s (rewriteKey clocks i key s).1 :=
      decays_rewriteKey hs.lockstep (fun _ _ => trivial) i key
    have hd' : Decays (fun _ => True) (rewriteKey clocks i key s).1
        (rewriteLoop clocks keys (i + 3) (rewriteKey clocks i key s).1).1 :=
      decays_rewriteLoop (fun _ _ => trivial) keys (i + 3) hd.lockstep
    obtain ⟨hrest, hkeys⟩ := rewriteLoop_lines keys (i + 3) hnd (hs.decays hd) (hn.decays hd)
    rw [rewriteLoop]
    generalize rewriteKey clocks i key s = first at *
    obtain ⟨s1, lines⟩ := first
    dsimp only at *
    generalize rewriteLoop clocks keys (i + 3) s1 = rest at *
    obtain ⟨s2, more⟩ := rest
    dsimp only at *
    refine ⟨fun l hl => ?_, fun k hk c hc => ?_⟩
    · rcases List.mem_append.mp hl with hl | hl
      · exact ⟨key, List.mem_cons_self, hfirst l hl⟩
      · obtain ⟨k, hk, hl⟩ := hrest l hl
        exact ⟨k, List.mem_cons_of_mem _ hk, hl⟩
    · rw [List.filter_append]
      rcases List.mem_cons.mp hk with rfl | hk
      · -- the later lines are on other keys
        have hc1 : s1.cell k = some c := by
          rcases hd'.cell k with e | ⟨e, -⟩
          · exact e ▸ hc
          · rw [e] at hc
            cases hc
        obtain ⟨t, hp, hlines⟩ := hkey c hc1
        have hmore : more.filter (isOn k) = [] := by
          refine List.filter_eq_nil_iff.mpr fun l hl hon => ?_
          obtain ⟨k', hk', hl⟩ := hrest l hl
          exact hnot (isOn_unique hon hl.isOn ▸ hk')
        have hall : lines.filter (isOn k) = lines :=
          List.filter_eq_self.mpr fun l hl => (hfirst l hl).isOn
        exact ⟨t, hp, by rw [hmore, hall, List.append_nil, hlines]⟩
      · have hnone : lines.filter (isOn k) = [] := by
          refine List.filter_eq_nil_iff.mpr fun l hl hon => ?_
          exact hnot (isOn_unique hon (hfirst l hl).isOn ▸ hk)
        rw [hnone, List.nil_append]
        exact hkeys k hk c hc

end

theorem mem_keysLoop {test : Str → Bool} (now : Clock) {k : Str} (ht : test k = true) :
    ∀ (keys : List Str) (i : Nat) {s : InMemoryStore}, s.Lockstep → keys.Nodup →
      (∀ key ∈ keys, s.cell key ≠ none) → k ∈ keys →
      (keysLoop test now keys i s).1.cell k ≠ none → k ∈ (keysLoop test now keys i s).2
  | key :: keys, i, s, h, hnd, hne, hk, hc => by
    obtain ⟨hnot, hnd⟩ := List.nodup_cons.mp hnd
    rw [keysLoop_cons test now keys i (hne key List.mem_cons_self)] at hc ⊢
    dsimp only at hc ⊢
    have hrest : k ∈ keys → k ∈ (keysLoop test now keys (i + 1) (s.purge key (now i))).2 := by
      intro hm
      refine mem_keysLoop now ht keys (i + 1) (h.purge key (now i)) hnd (fun k' hk' => ?_) hm hc
      have hother : k' ≠ key := by
        rintro rfl
        exact hnot hk'
      rw [h.cell_purge, if_neg hother]
      exact hne k' (List.mem_cons_of_mem _ hk')
    rcases List.mem_cons.mp hk with rfl | hm
    · -- what the gate removes does not come back
      have hd : Decays (fun _ => True) (s.purge k (now i))
          (keysLoop test now keys (i + 1) (s.purge k (now i))).1 :=
        decays_keysLoop test (fun _ => trivial) keys (i + 1) (h.purge k (now i))
      have hlive := hd.cell_ne_none hc
      rw [h.cell_purge_self, ← Option.isSome_iff_ne_none] at hlive
      rw [hlive, ht, Bool.and_true, if_pos rfl]
      exact List.mem_cons_self
    · split
      · exact List.mem_cons_of_mem _ (hrest hm)
      · exact hrest hm

/-- What a rewrite prints: commands, and of those on a key that is left the lines of the key, with
the seconds left at some time. -/
theorem rewritten_lines {maxKeys : Nat} {lo hi : Int} {clocks : Clocks} (hw : clocks.Within lo hi)
    {s : InMemoryStore} (hs : Legible maxKeys s) (hn : Near lo s) :
    (∀ l ∈ (rewriteCommands s clocks).2, Mutating l ∧ ∀ c ∈ l, isBreak c = false) ∧
      ∀ k c, (rewriteCommands s clocks).1.cell k = some c →
        ∃ t, Printable t k c ∧ (rewriteCommands s clocks).2.filter (isOn k) = keyLines k t c := by
  have hL := hs.lockstep
  have hcells : ∀ k ∈ s.values.keys, s.cell k ≠ none := fun k hk => mem_keys.mp hk
  have hd : Decays (fun _ => True) s (s.keys ['*'] (clocks 0)).1 :=
    hL.decays_keys ['*'] fun _ => trivial
  have hmem := fun k (ht : globMatch ['*'] k = true) =>
    mem_keysLoop (clocks 0) ht s.values.keys 0 hL s.values.keys_nodup hcells
  have hlisted : (s.keys ['*'] (clocks 0)).2.Nodup := by
    obtain ⟨he, -⟩ :=
      PersistenceManager.keysLoop_listedAt (globMatch ['*']) (clocks 0) s.values.keys 0 hL
      s.values.keys_nodup hcells
    rw [InMemoryStore.keys, he]
    exact s.values.keys_nodup.sublist (PersistenceManager.listedAt_sublist ..)
  obtain ⟨hlines, hkeys⟩ := rewriteLoop_lines hw _ 1 hlisted (hs.decays hd) (hn.decays hd)
  refine ⟨fun l hl => ?_, fun k c hc => ?_⟩
  · obtain ⟨key, -, hon⟩ := hlines l hl
    exact ⟨hon.mutating, hon.oneLine⟩
  · have hloop : Decays (fun _ => True) (s.keys ['*'] (clocks 0)).1 (rewriteCommands s clocks).1 :=
      decays_rewriteLoop (fun _ _ => trivial) _ 1 hd.lockstep
    have hkept : (s.keys ['*'] (clocks 0)).1.cell k ≠ none :=
      hloop.cell_ne_none (by rw [hc]; exact Option.some_ne_none c)
    have hk := hd.cell_ne_none hkept
    have hstar : globMatch ['*'] k = true := (PersistenceManager.globMatch_star k).mpr
      (PersistenceManager.oneLine_of_isToken (hs.token k hk))
    exact hkeys k (hmem k hstar (mem_keys.mpr hk) hkept) c hc

/-- What the lines of a key build at `r`. -/
theorem get?_built_keyLines {t : Int} {k : Str} {c : Cell} (hp : Printable t k c) (r : Int) :
    (built r (keyLines k t c)).get? k =
      some ⟨c.value, c.deadline.map fun d => r + secondsLeft t d * 1000⟩ := by
  obtain ⟨command, hvalue, -, heffect⟩ := command_value hp.key hp.spelled hp.nonEmpty
  obtain ⟨f, b, hm, hput⟩ := heffect (Clock.still r)
  have hfirst : buildCell r k none (join (valueTokens k c.value)) = some ⟨c.value, none⟩ := by
    rw [buildCell_command hvalue hm, if_pos rfl, hput]
    rfl
  have hlive := hp.live
  have hnear := hp.near
  have hspelled := hp.spelled
  rw [get?_built, keyLines_eq hp.nonEmpty hlive hnear]
  obtain ⟨v, _ | d⟩ := c
  · cases v <;> exact hfirst
  · have hlt : t < d := by
      have hd : decide (d ≤ t) = false := hlive
      simpa using hd
    obtain ⟨-, hpos, hmax, -⟩ := secondsLeft_spec hlt (hnear d rfl)
    have hexpire : buildCell r k (some ⟨v, none⟩)
        (join ["EXPIRE".toList, k, (toString (secondsLeft t d)).toList]) =
          some ⟨v, some (r + secondsLeft t d * 1000)⟩ := by
      rw [buildCell_command (parse_expire hp.key hpos hmax) rfl, if_pos rfl]
      rfl
    cases v with
    | string v =>
      show buildCell r k none _ = _
      rw [buildCell_command (parse_set_ex hp.key hspelled hpos hmax) rfl, if_pos rfl]
      rfl
    | list l | hash m =>
      show buildCell r k (buildCell r k none _) _ = _
      rw [hfirst, hexpire]
      rfl

/-! ## Along a run -/

section

variable {lo hi : Int} {clocks : Clocks} (hw : clocks.Within lo hi)

include hw

theorem near_perform {s : InMemoryStore} (hL : s.Lockstep) (hn : Near lo s) {c : Command}
    (hc : c.WF) {key : Str} {f : Option Cell → Effect × Bool}
    (hm : c.mutation (clocks 0) = some (key, f)) : Near hi (s.perform key (clocks 0) f).1 := by
  have hold := hn.mono hw.le
  intro k x hx d hd
  by_cases hk : k = key
  · rw [hk, hL.cell_perform_self] at hx
    rcases Command.deadline_onCell hm hx with e | e | ⟨y, hy, e⟩
    · rw [e] at hd
      cases hd
    · -- a deadline the command sets
      have hbound : ∀ (j n : Nat), n ≤ maxTtlSeconds →
          clocks 0 j + n * 1000 ≤ hi + maxTtlSeconds * 1000 := fun j n hle => by
        have hread := (hw.bounds 0 j).2
        have hle : (n : Int) ≤ maxTtlSeconds := Int.ofNat_le.mpr hle
        omega
      rw [e] at hd
      cases c with
      | set key v n =>
        cases n with
        | none => cases hd
        | some n =>
          cases hd
          exact hbound 2 n (hc.2.2 n rfl).2
      | expire key n =>
        cases hd
        exact hbound 1 n hc.2.2
      | _ => cases hd
    · rw [e] at hd
      exact hold key y (liveAt_eq_some.mp hy).1 d hd
  · rcases hL.cell_perform_other hk with e | e
    · exact hold k x (e ▸ hx) d hd
    · rw [e] at hx
      cases hx

variable {maxKeys : Nat} {h : CommandHandler AofWriter} {item : QueuedCommand}

theorem near_execute (hL : h.store.Lockstep) (hn : Near lo h.store)
    (hp : parseCommand item.line = .ok item.command) (connection : ClientConnection) :
    Near hi (h.executeCommand item.command item.line connection clocks).1.store := by
  rcases CommandHandler.execute_store hL item.command item.line connection clocks with
    ⟨key, f, hf, e⟩ | hd
  · rw [e]
    exact near_perform hw hL hn (wf_of_parseCommand hp) hf
  · exact (hn.decays hd).mono hw.le

omit hw in
theorem legible_execute (H : Legible maxKeys h.store)
    (hp : parseCommand item.line = .ok item.command) (connection : ClientConnection)
    (clocks : Clocks) :
    Legible maxKeys (h.executeCommand item.command item.line connection clocks).1.store := by
  rcases CommandHandler.execute_store H.lockstep item.command item.line connection clocks with
    ⟨key, f, hf, e⟩ | hd
  · rw [e]
    exact H.perform (wf_of_parseCommand hp) hf
  · exact H.decays hd

end

end Recovery

open Recovery

/-- The clock does not go back, and no deadline is further ahead than a command can put it. -/
def Execution.Timed (x : Execution) : Prop :=
  ∃ lo hi, x.clocks.Within lo hi ∧ Near lo x.handler.store

namespace Server

variable {maxKeys : Nat}

theorem legible_next {st : Server} (hq : st.handler.Parsed) (H : Legible maxKeys st.handler.store)
    (e : ServerEvent) : Legible maxKeys (st.next e).handler.store := by
  by_cases he : ∃ text connection clocks, e = .line text connection clocks
  · obtain ⟨text, connection, clocks, rfl⟩ := he
    cases hl : st.listening with
    | false =>
      rw [next_deaf hl]
      exact H
    | true =>
      obtain ⟨hstore, -, -, -⟩ := st.handler.route_data text connection
      rw [(next_line hl text connection clocks).1,
        (st.handler.handleLine_executed text connection clocks).1]
      exact CommandHandler.executeQueue_rule (P := fun h => Legible maxKeys h.store)
        (fun clocks H hp => legible_execute H hp connection clocks) clocks _ 0
        (by rw [hstore]; exact H)
        (CommandHandler.route_parsed hq text connection).2
  · exact H.decays (decays_next H.lockstep fun text connection clocks h =>
      he ⟨text, connection, clocks, h⟩)

theorem legible_run (events : List ServerEvent) : ∀ {st : Server}, st.handler.Parsed →
    Legible maxKeys st.handler.store → Legible maxKeys (st.run events).handler.store := by
  induction events with
  | nil => exact fun _ H => H
  | cons e events ih => exact fun hq H => ih (parsed_next hq e) (legible_next hq H e)

theorem timed_queue (connection : ClientConnection) {clocks : Nat → Clocks} {ends : Nat → Int}
    (hw : ∀ i, (clocks i).Within (ends i) (ends (i + 1))) {hi : Int} (hhi : ∀ i, ends i ≤ hi) :
    ∀ (items : List QueuedCommand) (i : Nat) {h : CommandHandler AofWriter},
      Legible maxKeys h.store → Near (ends i) h.store →
      (∀ item ∈ items, parseCommand item.line = .ok item.command) →
      (∀ x ∈ executions connection clocks h items i, x.Timed) ∧
        Near hi (h.executeQueue connection clocks items i).1.store
  | [], i, _, _, hn, _ => ⟨fun x hx => absurd hx List.not_mem_nil, hn.mono (hhi i)⟩
  | item :: items, i, h, H, hn, hp => by
    obtain ⟨hitem, hrest⟩ := List.forall_mem_cons.mp hp
    have H1 := legible_execute H hitem connection (clocks i)
    have hn1 := near_execute (hw i) H.lockstep hn hitem connection
    rw [executions, CommandHandler.executeQueue, List.forall_mem_cons]
    generalize h.executeCommand item.command item.line connection (clocks i) = executed at H1 hn1 ⊢
    rcases executed with ⟨h', _ | reply⟩
    · exact ⟨⟨⟨_, _, hw i, hn⟩, fun x hx => absurd hx List.not_mem_nil⟩, hn1.mono (hhi (i + 1))⟩
    · obtain ⟨htimed, hn2⟩ := timed_queue connection hw hhi items (i + 1) H1 hn1 hrest
      exact ⟨⟨⟨_, _, hw i, hn⟩, htimed⟩, hn2⟩

theorem timed_next {st : Server} (hq : st.handler.Parsed) (H : Legible maxKeys st.handler.store)
    {lo hi : Int} (hn : Near lo st.handler.store) {e : ServerEvent} (hw : e.Within lo hi) :
    (∀ x ∈ st.executionsOf e, x.Timed) ∧ Near hi (st.next e).handler.store := by
  by_cases he : ∃ text connection clocks, e = .line text connection clocks
  · obtain ⟨text, connection, clocks, rfl⟩ := he
    obtain ⟨ends, hlo, hhi, hclocks⟩ := hw
    cases hl : st.listening with
    | false =>
      rw [next_deaf hl, executionsOf, hl, if_neg Bool.false_ne_true]
      exact ⟨fun x hx => absurd hx List.not_mem_nil, hn.mono (Int.le_trans hlo (hhi 0))⟩
    | true =>
      obtain ⟨hstore, -, -, -⟩ := st.handler.route_data text connection
      rw [executionsOf, if_pos hl, (next_line hl text connection clocks).1,
        (st.handler.handleLine_executed text connection clocks).1]
      rw [← hstore] at H hn
      exact timed_queue connection hclocks hhi _ 0 H (hn.mono hlo)
        (CommandHandler.route_parsed hq text connection).2
  · have hother : ∀ text connection clocks, e ≠ .line text connection clocks :=
      fun text connection clocks h => he ⟨text, connection, clocks, h⟩
    have hle : lo ≤ hi := by
      cases e with
      | line text connection clocks => exact absurd rfl (hother text connection clocks)
      | _ => exact hw.1
    refine ⟨?_, (hn.decays (decays_next H.lockstep hother)).mono hle⟩
    cases e with
    | line text connection clocks => exact absurd rfl (hother text connection clocks)
    | _ => exact fun x hx => absurd hx List.not_mem_nil

theorem timed_along : ∀ (events : List ServerEvent) {st : Server} {lo hi : Int},
    st.handler.Parsed → Legible maxKeys st.handler.store → Near lo st.handler.store →
      Timely lo hi events →
      Trace.Along next (fun st e => ∀ x ∈ st.executionsOf e, x.Timed) st events
  | [], _, _, _, _, _, _, _ => trivial
  | e :: events, _, _, _, hq, H, hn, ⟨_, hw, ht⟩ => by
    obtain ⟨htimed, hn1⟩ := timed_next hq H hn hw
    exact ⟨htimed, timed_along events (parsed_next hq e) (legible_next hq H e) hn1 ht⟩

end Server

end MiniStore
