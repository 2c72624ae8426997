import MiniStore.Store.Extraction

/-!
# What a dump holds and what a restore makes of it

`serialize` is the entry of a cell, read at some time, and `Describes` says that a
dump has the entries of given cells. An extraction during which nothing falls due
describes the store (`describes_saveLoop`), and so does one at a clock that stands
still, apart from what is already due (`describes_extract_still`).

`restored` is the cell an entry turns into. Restoring a dump into a store with
room adds the cells of its entries (`restoreLoop_spec`).
-/

namespace MiniStore

open InMemoryStore

namespace PersistenceManager

/-! ## Entries -/

def serializeValue : StoredValue → SerializedValue
  | .string value => .string value
  | .list value => .list value
  | .hash map => .hash (PlainObject.empty.assignAll map.entries)

/-- The entry of a cell whose `ttl` is read at `now`. -/
def serialize (now : Int) (c : Cell) : SerializedKey :=
  ⟨serializeValue c.value, c.deadline.map fun d => max 0 (ceilSeconds (max 0 (d - now)))⟩

def restoredValue : SerializedValue → StoredValue
  | .string value => .string value
  | .list value => .list value
  | .hash obj => .hash (setPairs OrdMap.empty obj.entries).1

/-- The cell of an entry restored at `now`. -/
def restored (now : Int) (e : SerializedKey) : Cell :=
  ⟨restoredValue e.value, e.ttl.map fun ttl => now + ttl.toNat * 1000⟩

/-- The dump has the entries of the cells, with each `ttl` read at a time of `T`. -/
structure Describes (T : Int → Prop) (cells : Str → Option Cell) (dump : Dump) : Prop where
  absent : ∀ k, cells k = none ∨ k = PlainObject.protoKey → dump.get? k = none
  present : ∀ k c, cells k = some c → k ≠ PlainObject.protoKey →
    ∃ now, T now ∧ dump.get? k = some (serialize now c)

/-- A dump has no more entries than the store has keys. -/
theorem Describes.length_le {T : Int → Prop} {cells : Str → Option Cell} {dump : Dump}
    (hd : Describes T cells dump) {s : InMemoryStore} (hs : ∀ k, cells k ≠ none → s.cell k ≠ none) :
    dump.entries.length ≤ s.size := by
  have hsub : ∀ k ∈ dump.entries.map Prod.fst, k ∈ s.values.keys := by
    intro k hk
    obtain ⟨⟨k, e⟩, hm, rfl⟩ := List.mem_map.mp hk
    have he := PlainObject.mem_entries.mp hm
    rw [OrdMap.mem_keys_iff_has, has_iff_cell]
    refine hs k fun hn => ?_
    rw [hd.absent k (.inl hn)] at he
    cases he
  have := (List.subperm_of_subset dump.nodup_entries hsub).length_le
  rwa [List.length_map, OrdMap.length_keys] at this

theorem objectOf_flatMap : ∀ (es : List (Str × Str)) (obj : PlainObject Str),
    objectOf (es.flatMap fun e => [e.1, e.2]) obj = obj.assignAll es
  | [], _ => rfl
  | e :: es, obj => by
    show objectOf (es.flatMap fun e => [e.1, e.2]) (obj.assign e.1 e.2) = _
    rw [objectOf_flatMap es]
    rfl

theorem slice_all (l : List Str) : slice 0 (-1) l = l := by
  have hfirst : max 0 (if (0 : Int) < 0 then (l.length : Int) + 0 else 0) = 0 := by simp
  have hstop : (if (-1 : Int) < 0 then (l.length : Int) + -1 else -1) = l.length - 1 := by
    rw [if_pos (by omega)]; omega
  unfold slice
  simp only [hfirst, hstop]
  rw [if_neg (show ¬(l.length : Int) - 1 ≥ l.length by omega)]
  split
  · rw [List.length_eq_zero_iff.mp (by omega : l.length = 0)]
  · rw [show ((l.length : Int) - 1 + 1).toNat = l.length by omega]
    simp

theorem get?_setPairs : ∀ (pairs : List (Str × Str)) {m : OrdMap Str Str},
    (pairs.map Prod.fst).Nodup →
      (∀ p ∈ pairs, (setPairs m pairs).1.get? p.1 = some p.2) ∧
        ∀ f, f ∉ pairs.map Prod.fst → (setPairs m pairs).1.get? f = m.get? f
  | [], _, _ => ⟨fun _ hp => (nomatch hp), fun _ _ => rfl⟩
  | p :: pairs, m, hnd => by
    obtain ⟨hp, hnd⟩ := List.nodup_cons.mp hnd
    obtain ⟨h1, h2⟩ := get?_setPairs pairs (m := m.set p.1 p.2) hnd
    rw [setPairs_cons]
    refine ⟨fun q hq => ?_, fun f hf => ?_⟩
    · rcases List.mem_cons.mp hq with rfl | hq
      · exact (h2 _ hp).trans (by rw [OrdMap.get?_set, if_pos rfl])
      · exact h1 q hq
    · rw [List.map_cons, List.mem_cons, not_or] at hf
      exact (h2 f hf.2).trans (by rw [OrdMap.get?_set, if_neg hf.1])

/-- A map filled from a plain object has its properties. -/
theorem get?_setPairs_entries (o : PlainObject Str) (f : Str) :
    (setPairs OrdMap.empty o.entries).1.get? f = o.get? f := by
  obtain ⟨h1, h2⟩ := get?_setPairs o.entries o.nodup_entries (m := OrdMap.empty)
  cases ho : o.get? f with
  | some v => exact h1 (f, v) (PlainObject.mem_entries.mpr ho)
  | none =>
    refine (h2 f fun hf => ?_).trans (OrdMap.get?_empty f)
    obtain ⟨⟨f', v⟩, hm, rfl⟩ := List.mem_map.mp hf
    rw [PlainObject.mem_entries.mp hm] at ho
    cases ho

/-- A plain object filled from a map has its entries, but for `__proto__`. -/
theorem get?_assignAll_entries (m : OrdMap Str Str) (f : Str) :
    (PlainObject.empty.assignAll m.entries).get? f =
      if f = PlainObject.protoKey then none else m.get? f := by
  rw [PlainObject.get?_assignAll _ m.nodup]
  split
  · rfl
  · rw [PlainObject.get?_empty, Option.or_none]
    rfl

/-! ## What survives in a plain object -/

/-- The same kind and content; the order of the fields of a hash is left open. -/
def SameValue : StoredValue → StoredValue → Prop
  | .string v, .string v' => v = v'
  | .list l, .list l' => l = l'
  | .hash m, .hash m' => ∀ f, m.get? f = m'.get? f
  | _, _ => False

/-- Neither the key nor a field of the hash is `__proto__`. -/
def Representable (k : Str) (c : Cell) : Prop :=
  k ≠ PlainObject.protoKey ∧ ∀ m ∈ c.value.asHash, m.get? PlainObject.protoKey = none

instance (k : Str) (c : Cell) : Decidable (Representable k c) :=
  inferInstanceAs (Decidable (_ ∧ _))

/-- A value is restored as it was, unless it is a hash with a field `__proto__`. -/
theorem sameValue_restored (v : StoredValue) :
    SameValue v (restoredValue (serializeValue v)) ↔
      ∀ m ∈ v.asHash, m.get? PlainObject.protoKey = none := by
  cases v with
  | string v => exact ⟨fun _ _ h => (nomatch h), fun _ => rfl⟩
  | list l => exact ⟨fun _ _ h => (nomatch h), fun _ => rfl⟩
  | hash m =>
    have hget : ∀ f, (setPairs OrdMap.empty (PlainObject.empty.assignAll m.entries).entries).1.get? f =
        if f = PlainObject.protoKey then none else m.get? f := by
      intro f
      rw [get?_setPairs_entries, get?_assignAll_entries]
    show (∀ f, m.get? f = _) ↔ ∀ m' ∈ some m, _
    simp only [hget, Option.mem_some, forall_eq']
    constructor
    · intro h
      simpa using h PlainObject.protoKey
    · intro h f
      split
      · next e => rw [e]; exact h
      · rfl

/-! ## Extraction -/

theorem perform_of_live {α : Type} {s : InMemoryStore} {key : Str} {now : Clock}
    {f : Option Cell → Effect × α} (hl : liveAt (now 0) (s.cell key) = s.cell key) :
    s.perform key now f = (s.commit key (now 1) (f (s.cell key)).1, (f (s.cell key)).2) := by
  unfold perform
  rw [purge_of_live hl]

theorem lockstep_touch {s : InMemoryStore} (h : s.Lockstep) {key : Str} {c : Cell}
    (hc : s.cell key = some c) : (s.touch key).Lockstep := by
  have he : Effect.touch.Fits (s.cell key) := by rw [hc]; exact Option.some_ne_none c
  have : (s.commit key 0 .touch).Lockstep := h.commit 0 he
  exact this

section

variable {s : InMemoryStore} {key : Str} {c : Cell} (hc : s.cell key = some c)

include hc

theorem readValue_live {now : Clock} (hl : liveAt (now 0) (s.cell key) = s.cell key) :
    readValue s key now c.value.type = (s.touch key, some (serializeValue c.value)) := by
  obtain ⟨v, d⟩ := c
  cases v with
  | string v =>
    simp only [readValue, StoredValue.type, get_eq, perform_of_live hl, hc, getCell, commit,
      serializeValue, Option.map_some]
  | list l =>
    simp only [readValue, StoredValue.type, lrange, readAs_eq, perform_of_live hl, hc, readCell,
      StoredValue.asList, commit, serializeValue, slice_all]
  | hash m =>
    simp only [readValue, StoredValue.type, hgetall, readAs_eq, perform_of_live hl, hc, readCell,
      StoredValue.asHash, commit, serializeValue, objectOf_flatMap]

theorem saveKey_live {clocks : Clocks} {i : Nat}
    (hl : ∀ j < 3, liveAt (clocks (i + j) 0) (s.cell key) = s.cell key) (dump : Dump) :
    saveKey clocks i key s dump =
      (s.touch key, dump.assign key (serialize (clocks (i + 2) 1) c)) := by
  have h0 : liveAt (clocks i 0) (s.cell key) = s.cell key := hl 0 (by omega)
  have h1 := hl 1 (by omega)
  have h2 := hl 2 (by omega)
  have hct : (s.touch key).cell key = some c := hc
  unfold saveKey
  rw [keyType_eq, perform_of_live h0]
  simp only [hc, keyTypeCell, commit, Option.map_some, readValue_live hc h1, ttl_eq]
  rw [perform_of_live (s := s.touch key) h2]
  obtain ⟨v, _ | d⟩ := c
  · simp only [hct, ttlCell, commit, serialize, Option.map_none]
    rw [if_neg (by omega)]
  · simp only [hct, ttlCell, commit, serialize, Option.map_some]
    rw [if_pos (by omega)]

end

/-- No key of the list is due when the extraction looks at it. -/
def Undisturbed (clocks : Clocks) (s : InMemoryStore) : List Str → Nat → Prop
  | [], _ => True
  | key :: rest, i =>
    (s.cell key ≠ none ∧ ∀ j < 3, liveAt (clocks (i + j) 0) (s.cell key) = s.cell key) ∧
      Undisturbed clocks s rest (i + 3)

theorem Undisturbed.congr {clocks : Clocks} {s s' : InMemoryStore} (hc : ∀ k, s'.cell k = s.cell k) :
    ∀ {keys : List Str} {i : Nat}, Undisturbed clocks s keys i → Undisturbed clocks s' keys i
  | [], _, _ => trivial
  | _ :: _, _, h => ⟨by rw [hc]; exact h.1, Undisturbed.congr hc h.2⟩

theorem undisturbed_of_live {clocks : Clocks} {s : InMemoryStore} : ∀ {keys : List Str} (i : Nat),
    (∀ k ∈ keys, s.cell k ≠ none ∧ ∀ j, liveAt (clocks j 0) (s.cell k) = s.cell k) →
      Undisturbed clocks s keys i
  | [], _, _ => trivial
  | key :: _, i, h =>
    ⟨⟨(h key List.mem_cons_self).1, fun j _ => (h key List.mem_cons_self).2 (i + j)⟩,
      undisturbed_of_live (i + 3) fun k hk => h k (List.mem_cons_of_mem _ hk)⟩

/-- An undisturbed extraction leaves the cells alone and gives each key its entry. -/
theorem saveLoop_spec (clocks : Clocks) : ∀ (keys : List Str) (i : Nat) {s : InMemoryStore}
    (dump : Dump), s.Lockstep → Undisturbed clocks s keys i →
      (∀ k, (saveLoop clocks keys i s dump).1.cell k = s.cell k) ∧
      (saveLoop clocks keys i s dump).1.dirtyCount = s.dirtyCount ∧
      (∀ k, k ∉ keys ∨ k = PlainObject.protoKey →
        (saveLoop clocks keys i s dump).2.get? k = dump.get? k) ∧
      ∀ k ∈ keys, k ≠ PlainObject.protoKey → ∀ c, s.cell k = some c →
        ∃ now, clocks.Reads now ∧
          (saveLoop clocks keys i s dump).2.get? k = some (serialize now c)
  | [], _, _, _, _, _ => ⟨fun _ => rfl, rfl, fun _ _ => rfl, fun _ h => nomatch h⟩
  | key :: keys, i, s, dump, h, hu => by
    obtain ⟨⟨hne, hl⟩, hu⟩ := hu
    obtain ⟨c, hc⟩ := Option.ne_none_iff_exists'.mp hne
    have ht := lockstep_touch h hc
    have hct : ∀ k, (s.touch key).cell k = s.cell k := fun _ => rfl
    obtain ⟨h1, h2, h3, h4⟩ := saveLoop_spec clocks keys (i + 3)
      (dump.assign key (serialize (clocks (i + 2) 1) c)) ht (hu.congr hct)
    rw [saveLoop, saveKey_live hc hl]
    refine ⟨h1, h2, ?_, ?_⟩
    · rintro k hk
      rw [h3 k (hk.imp_left fun h => fun hm => h (List.mem_cons_of_mem _ hm)),
        PlainObject.get?_assign, if_neg]
      rintro ⟨rfl, hp⟩
      exact hk.elim (fun h => h List.mem_cons_self) hp
    · intro k hk hp c' hc'
      by_cases hm : k ∈ keys
      · exact h4 k hm hp c' hc'
      · obtain rfl : k = key := (List.mem_cons.mp hk).resolve_right hm
        obtain rfl : c = c' := Option.some.inj (hc.symm.trans hc')
        refine ⟨_, ⟨i + 2, 1, rfl⟩, ?_⟩
        rw [h3 k (.inl hm), PlainObject.get?_assign, if_pos ⟨rfl, hp⟩]

/-! ## The keys of the store -/

/-- A key the pattern `*` matches. -/
def OneLine (k : Str) : Prop := ∀ c ∈ k, isLineTerminator c = false

theorem oneLine_of_isToken {k : Str} (h : Text.IsToken k) : OneLine k := by
  intro c hc
  have hs := h.2 c hc
  cases ht : isLineTerminator c with
  | false => rfl
  | true =>
    simp only [isLineTerminator, Bool.or_eq_true, beq_iff_eq] at ht
    simp only [Text.isSpace] at hs
    rcases ht with ((rfl | rfl) | h) | h
    · cases hs
    · cases hs
    · simp [h] at hs
    · simp [h] at hs

theorem globMatch_star (k : Str) : globMatch ['*'] k = true ↔ OneLine k := by
  show starMatch (globMatch []) k = true ↔ _
  induction k with
  | nil => simp [starMatch, globMatch, OneLine]
  | cons c k ih =>
    simp only [starMatch, globMatch, List.isEmpty_cons, Bool.false_or, Bool.and_eq_true,
      Bool.not_eq_true', OneLine, List.forall_mem_cons] at ih ⊢
    rw [ih]

/-- Listing at a clock whose readings agree about which keys are due (`due`). -/
theorem keysLoop_spec (test : Str → Bool) {now : Clock} (due : Str → Bool) :
    ∀ (ks : List Str) (i : Nat) {s : InMemoryStore}, s.Lockstep → ks.Nodup →
      (∀ k ∈ ks, s.cell k ≠ none ∧
        ∀ j, liveAt (now j) (s.cell k) = if due k then none else s.cell k) →
      (∀ k, (keysLoop test now ks i s).1.cell k =
          if k ∈ ks ∧ due k = true then none else s.cell k) ∧
        (keysLoop test now ks i s).2 = ks.filter fun k => !due k && test k
  | [], _, _, _, _, _ => ⟨fun k => by simp [keysLoop], rfl⟩
  | key :: ks, i, s, h, hn, hk => by
    obtain ⟨hkey, hn⟩ := List.nodup_cons.mp hn
    obtain ⟨hne, hl⟩ := hk key List.mem_cons_self
    have hcell := h.cell_purge key (now i)
    have hother : ∀ k ∈ ks, (s.purge key (now i)).cell k = s.cell k := by
      intro k hm
      rw [hcell, if_neg]
      rintro rfl
      exact hkey hm
    obtain ⟨h1, h2⟩ := keysLoop_spec test due ks (i + 1) (h.purge key (now i)) hn fun k hm => by
      rw [hother k hm]; exact hk k (List.mem_cons_of_mem _ hm)
    have hlisted : (liveAt (now i) (s.cell key)).isSome = !due key := by
      rw [hl i]
      cases due key with
      | true => rfl
      | false => exact Option.isSome_iff_ne_none.mpr hne
    rw [keysLoop_cons test now ks i hne, hlisted]
    refine ⟨fun k => ?_, ?_⟩
    · show (keysLoop test now ks (i + 1) (s.purge key (now i))).1.cell k = _
      rw [h1]
      by_cases hm : k ∈ ks
      · simp only [hm, true_and, List.mem_cons, or_true, hother k hm]
      · rw [if_neg (fun h => hm h.1), hcell]
        by_cases e : k = key
        · subst e; simp [hl i]
        · rw [if_neg e, if_neg]
          rintro ⟨hm', -⟩
          exact (List.mem_cons.mp hm').elim e hm
    · show (if (!due key && test key) = true then
        key :: (keysLoop test now ks (i + 1) (s.purge key (now i))).2
        else (keysLoop test now ks (i + 1) (s.purge key (now i))).2) = _
      rw [h2, List.filter_cons]

/-- An undisturbed extraction of all keys describes the store. -/
theorem describes_saveLoop {clocks : Clocks} {keys : List Str} {i : Nat} {s : InMemoryStore}
    (h : s.Lockstep) (hu : Undisturbed clocks s keys i) (hk : ∀ k, s.cell k ≠ none → k ∈ keys) :
    Describes clocks.Reads s.cell (saveLoop clocks keys i s PlainObject.empty).2 := by
  obtain ⟨-, -, h3, h4⟩ := saveLoop_spec clocks keys i PlainObject.empty h hu
  have hne : ∀ {keys : List Str} {i : Nat}, Undisturbed clocks s keys i →
      ∀ k ∈ keys, s.cell k ≠ none := by
    intro keys
    induction keys with
    | nil => intro _ _ k hk; cases hk
    | cons key keys ih =>
      intro i hu k hm
      rcases List.mem_cons.mp hm with rfl | hm
      · exact hu.1.1
      · exact ih hu.2 k hm
  refine ⟨fun k hc => ?_, fun k c hc hp => ?_⟩
  · refine (h3 k (hc.imp_left fun hc hm => hne hu k hm hc)).trans rfl
  · exact h4 k (hk k (by simp [hc])) hp c hc

theorem extract_spec (clocks : Clocks) {s : InMemoryStore} (h : s.Lockstep)
    (hone : ∀ k, s.cell k ≠ none → OneLine k) (due : Str → Bool)
    (hd : ∀ k, s.cell k ≠ none →
      ∀ i j, liveAt (clocks i j) (s.cell k) = if due k then none else s.cell k) :
    (∀ k, (extract s clocks).1.cell k = if due k then none else s.cell k) ∧
      Describes clocks.Reads (fun k => if due k then none else s.cell k) (extract s clocks).2 := by
  have hmem : ∀ k, k ∈ s.values.keys ↔ s.cell k ≠ none := fun k => by
    rw [OrdMap.mem_keys_iff_has, has_iff_cell]
  obtain ⟨h1, h2⟩ := keysLoop_spec (globMatch ['*']) due s.values.keys 0 h s.values.keys_nodup
    fun k hk => ⟨(hmem k).mp hk, fun j => hd k ((hmem k).mp hk) 0 j⟩
  have hcell : ∀ k, (s.keys ['*'] (clocks 0)).1.cell k = if due k then none else s.cell k := by
    intro k
    refine (h1 k).trans ?_
    by_cases hk : s.cell k = none
    · simp [hk]
    · simp [(hmem k).mpr hk]
  have hL : (s.keys ['*'] (clocks 0)).1.Lockstep :=
    (h.decays_keys (T := fun _ => True) ['*'] fun _ => trivial).lockstep
  have hu : Undisturbed clocks (s.keys ['*'] (clocks 0)).1 (s.keys ['*'] (clocks 0)).2 1 := by
    refine undisturbed_of_live 1 fun k hk => ?_
    have hk' : k ∈ s.values.keys.filter fun k => !due k && globMatch ['*'] k := h2 ▸ hk
    obtain ⟨hv, ht⟩ := List.mem_filter.mp hk'
    have hdue : due k = false := by simp at ht; exact ht.1
    have hc : (s.keys ['*'] (clocks 0)).1.cell k = s.cell k := by rw [hcell, hdue]; rfl
    rw [hc]
    refine ⟨(hmem k).mp hv, fun j => ?_⟩
    rw [hd k ((hmem k).mp hv), hdue]; rfl
  have hall : ∀ k, (s.keys ['*'] (clocks 0)).1.cell k ≠ none → k ∈ (s.keys ['*'] (clocks 0)).2 := by
    intro k hk
    have hk' : k ∈ s.values.keys.filter fun k => !due k && globMatch ['*'] k := by
      rw [hcell] at hk
      cases hdue : due k with
      | true => simp [hdue] at hk
      | false =>
        rw [hdue] at hk
        exact List.mem_filter.mpr ⟨(hmem k).mpr hk, by
          simpa [hdue] using (globMatch_star k).mpr (hone k hk)⟩
    exact h2 ▸ hk'
  have hdesc := describes_saveLoop hL hu hall
  have hkeep := (saveLoop_spec clocks _ 1 PlainObject.empty hL hu).1
  rw [funext hcell] at hdesc
  exact ⟨fun k => (hkeep k).trans (hcell k), hdesc⟩

theorem describes_extract_permanent {clocks : Clocks} {s : InMemoryStore} (h : s.Lockstep)
    (hone : ∀ k, s.cell k ≠ none → OneLine k) (hp : ∀ k, Cell.Permanent (s.cell k)) :
    Describes clocks.Reads s.cell (extract s clocks).2 := by
  have := (extract_spec clocks h hone (fun _ => false) fun k _ i j =>
    liveAt_permanent (hp k) _).2
  simpa using this

theorem describes_extract_still {t : Int} {s : InMemoryStore} (h : s.Lockstep)
    (hone : ∀ k, s.cell k ≠ none → OneLine k) :
    Describes (· = t) (fun k => liveAt t (s.cell k)) (extract s (Clocks.still t)).2 := by
  have hdue : ∀ k, (if (liveAt t (s.cell k)).isNone then none else s.cell k) = liveAt t (s.cell k) :=
    fun k => (liveAt_eq_ite t (s.cell k)).symm
  have hspec := (extract_spec (Clocks.still t) h hone
    (fun k => (liveAt t (s.cell k)).isNone) fun k _ i j => (hdue k).symm).2
  rw [funext hdue] at hspec
  refine ⟨hspec.absent, fun k c hc hp => ?_⟩
  obtain ⟨now, ⟨i, j, rfl⟩, he⟩ := hspec.present k c hc hp
  exact ⟨t, rfl, he⟩

/-! ## Restoring -/

/-- A store that holds `c` under a key and is otherwise as before. -/
structure Adds (s s' : InMemoryStore) (key : Str) (c : Cell) : Prop where
  lockstep : s'.Lockstep
  maxKeys : s'.maxKeys = s.maxKeys
  cell : ∀ k, s'.cell k = if k = key then some c else s.cell k

theorem Adds.size_le {s s' : InMemoryStore} {key : Str} {c : Cell} (h : Adds s s' key c) :
    s'.size ≤ s.size + 1 := by
  have hl : ∀ k, s'.cell k ≠ none → k ∈ key :: s.values.keys := by
    intro k hk
    rw [h.cell] at hk
    split at hk
    · next e => rw [e]; exact List.mem_cons_self
    · exact List.mem_cons_of_mem _ (OrdMap.mem_keys_iff_has.mpr (has_iff_cell.mpr hk))
  have := h.lockstep.size_le_of_subset hl
  rwa [List.length_cons, OrdMap.length_keys] at this

theorem Adds.expireIfGiven {s s' : InMemoryStore} {key : Str} {e : SerializedKey} {v : StoredValue}
    (ha : Adds s s' key ⟨v, none⟩) (hv : v = restoredValue e.value) {clocks : Clocks} {i : Nat} :
    ∃ now, clocks.Reads now ∧
      Adds s (PersistenceManager.expireIfGiven s' key e.ttl (clocks i)) key (restored now e) := by
  have hc : s'.cell key = some ⟨v, none⟩ := by rw [ha.cell, if_pos rfl]
  have hl : liveAt (clocks i 0) (s'.cell key) = s'.cell key :=
    liveAt_permanent (by rw [hc]; exact Cell.permanent_some.mpr rfl) _
  obtain ⟨value, ttl⟩ := e
  cases ttl with
  | none =>
    rw [hv] at ha
    exact ⟨clocks i 0, ⟨i, 0, rfl⟩, ha.lockstep, ha.maxKeys, ha.cell⟩
  | some n =>
    simp only [PersistenceManager.expireIfGiven, expire_eq]
    refine ⟨clocks i 1, ⟨i, 1, rfl⟩, ha.lockstep.perform fits_expireCell,
      ha.lockstep.maxKeys_perform.trans ha.maxKeys, fun k => ?_⟩
    by_cases hk : k = key
    · rw [if_pos hk, hk, ha.lockstep.cell_perform_self, hl, hc, hv]
      rfl
    · have hroom : (s'.purge key (clocks i 0)).cell key ≠ none := by
        rw [ha.lockstep.cell_purge_self, hl, hc]; simp
      rw [if_neg hk, ha.lockstep.cell_perform_of_room (.inl hroom) hk, ha.cell, if_neg hk]

/-- An entry restored under a new key, with a slot free, becomes its cell. -/
theorem restoreKey_spec {s : InMemoryStore} (h : s.Lockstep) {key : Str} (clocks : Clocks) (i : Nat)
    (hn : s.cell key = none)
    (hroom : s.size < s.maxKeys) (e : SerializedKey) (he : ∀ n ∈ e.ttl, 0 < n) :
    ∃ s', restoreKey clocks i key e s = (s', true) ∧
      ∃ now, clocks.Reads now ∧ Adds s s' key (restored now e) := by
  have hskip : ¬(e.ttl.any fun ttl => ttl ≤ 0) = true := by
    cases ht : e.ttl with
    | none => simp
    | some n => simpa using he n (by simp [ht])
  have hperm : Cell.Permanent (s.cell key) := by rw [hn]; exact Cell.permanent_none
  -- whatever is put under the key, given that it is a new one
  have adds : ∀ {α : Type} (f : Option Cell → Effect × α) (c : Cell), (∀ c, (f c).1.Fits c) →
      (f none).1.action.onCell none = some c → Adds s (s.perform key (clocks i) f).1 key c := by
    intro α f c hf hput
    refine ⟨h.perform hf, h.maxKeys_perform, fun k => ?_⟩
    rw [h.cell_perform_permanent hperm hroom, hn, hput]
  unfold restoreKey
  rw [if_neg hskip]
  cases hv : e.value with
  | string value =>
    refine ⟨_, rfl, clocks i 2, ⟨i, 2, rfl⟩, ?_⟩
    rw [set_eq]
    refine adds _ _ (fun _ => trivial) ?_
    simp only [setCell, Effect.action, LruCache.Action.onCell, restored, hv, restoredValue]
    cases e.ttl <;> rfl
  | list value =>
    have ha : Adds s (s.rpush key value (clocks i)).1 key ⟨.list value, none⟩ := by
      rw [rpush_eq h]
      refine adds _ _ (fun c => fits_pushCell c) ?_
      simp [pushCell, Effect.action, LruCache.Action.onCell, pushAll_eq]
    exact ⟨_, rfl, ha.expireIfGiven (by rw [hv]; rfl)⟩
  | hash obj =>
    have ha : Adds s (s.hset key obj.entries (clocks i)).1 key
        ⟨.hash (setPairs OrdMap.empty obj.entries).1, none⟩ := by
      rw [hset_eq h]
      exact adds _ _ (fun c => fits_hsetCell c) rfl
    exact ⟨_, rfl, ha.expireIfGiven (by rw [hv]; rfl)⟩

theorem restoreLoop_spec (clocks : Clocks) : ∀ (es : List (Str × SerializedKey)) (i : Nat)
    {s : InMemoryStore} (n : Nat), s.Lockstep → (es.map Prod.fst).Nodup →
      (∀ p ∈ es, s.cell p.1 = none) → s.size + es.length ≤ s.maxKeys →
      (∀ p ∈ es, ∀ ttl ∈ p.2.ttl, 0 < ttl) →
      (restoreLoop clocks es i s n).1.Lockstep ∧
        (restoreLoop clocks es i s n).1.maxKeys = s.maxKeys ∧
        (restoreLoop clocks es i s n).2 = n + es.length ∧
        (∀ k, k ∉ es.map Prod.fst → (restoreLoop clocks es i s n).1.cell k = s.cell k) ∧
        ∀ p ∈ es, ∃ now, clocks.Reads now ∧
          (restoreLoop clocks es i s n).1.cell p.1 = some (restored now p.2)
  | [], _, _, _, h, _, _, _, _ => ⟨h, rfl, rfl, fun _ _ => rfl, fun _ hp => nomatch hp⟩
  | (key, e) :: es, i, s, n, h, hnd, hnew, hroom, hpos => by
    obtain ⟨hkey, hnd⟩ := List.nodup_cons.mp hnd
    rw [List.length_cons] at hroom
    obtain ⟨s', e1, now, hnow, ha⟩ := restoreKey_spec h clocks i (hnew _ List.mem_cons_self)
      (by omega) e (hpos _ List.mem_cons_self)
    have hother : ∀ p ∈ es, s'.cell p.1 = none := by
      intro p hp
      rw [ha.cell, if_neg, hnew p (List.mem_cons_of_mem _ hp)]
      rintro rfl
      exact hkey (List.mem_map.mpr ⟨p, hp, rfl⟩)
    have hsize := ha.size_le
    obtain ⟨h1, h2, h3, h4, h5⟩ := restoreLoop_spec clocks es (i + 2) (n + 1) ha.lockstep hnd
      hother (by rw [ha.maxKeys]; omega) fun p hp => hpos p (List.mem_cons_of_mem _ hp)
    have eloop : restoreLoop clocks ((key, e) :: es) i s n =
        restoreLoop clocks es (i + 2) s' (n + 1) := by
      rw [restoreLoop, e1]; rfl
    rw [eloop]
    refine ⟨h1, h2.trans ha.maxKeys, by rw [h3, List.length_cons]; omega, ?_, ?_⟩
    · intro k hk
      rw [List.map_cons, List.mem_cons, not_or] at hk
      rw [h4 k hk.2, ha.cell, if_neg hk.1]
    · intro p hp
      rcases List.mem_cons.mp hp with rfl | hp
      · exact ⟨now, hnow, by rw [h4 _ hkey, ha.cell, if_pos rfl]⟩
      · exact h5 p hp

theorem restore_spec (pm : PersistenceManager) {dump : Dump} (hd : pm.dumpFile = some dump)
    (maxKeys : Nat) (hm : 1 ≤ maxKeys) (clocks : Clocks) (hroom : dump.entries.length ≤ maxKeys)
    (hpos : ∀ k e, dump.get? k = some e → ∀ ttl ∈ e.ttl, 0 < ttl) :
    (pm.restore (InMemoryStore.create maxKeys hm) clocks).2.1.Lockstep ∧
      (pm.restore (InMemoryStore.create maxKeys hm) clocks).2.1.maxKeys = maxKeys ∧
      (pm.restore (InMemoryStore.create maxKeys hm) clocks).2.2 = dump.entries.length ∧
      (∀ k, dump.get? k = none → (pm.restore (InMemoryStore.create maxKeys hm) clocks).2.1.cell k = none) ∧
      ∀ k e, dump.get? k = some e → ∃ now, clocks.Reads now ∧
        (pm.restore (InMemoryStore.create maxKeys hm) clocks).2.1.cell k = some (restored now e) := by
  obtain ⟨h1, h2, h3, h4, h5⟩ := restoreLoop_spec clocks dump.entries 0 0
    (lockstep_create maxKeys hm) dump.nodup_entries (fun _ _ => rfl)
    (by rw [maxKeys_create]; exact Nat.le_trans (Nat.le_of_eq (Nat.zero_add _)) hroom)
    fun p hp => hpos p.1 p.2 (PlainObject.mem_entries.mp hp)
  have e : pm.restore (InMemoryStore.create maxKeys hm) clocks =
      ({ pm with lastSavedDirtyCount :=
          (restoreLoop clocks dump.entries 0 (InMemoryStore.create maxKeys hm) 0).1.dirtyCount },
        restoreLoop clocks dump.entries 0 (InMemoryStore.create maxKeys hm) 0) := by
    simp only [restore, hd]
  rw [e]
  refine ⟨h1, h2, by rw [h3]; omega, ?_, ?_⟩
  · intro k hk
    refine (h4 k ?_).trans rfl
    intro hmem
    obtain ⟨⟨j, e'⟩, hp, rfl⟩ := List.mem_map.mp hmem
    rw [PlainObject.mem_entries.mp hp] at hk
    cases hk
  · intro k e' hk
    exact h5 (k, e') (PlainObject.mem_entries.mpr hk)

end PersistenceManager

end MiniStore
