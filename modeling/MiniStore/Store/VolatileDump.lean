import MiniStore.Store.Snapshot
import MiniStore.Store.Sweeps

/-!
# Deadlines that pass during a save

`save` looks at a key four times: in KEYS, in `keyType`, in the read of the value and in
`ttl`. `savedEntry` is the entry the key gets, whatever the clock shows each time. A key
that is gone when `ttl` is called is dumped like one without a deadline, and so is a list
or a hash that is gone when its value is read; these are all the cases in which a key
loses its deadline (`volatile_dumped_iff`).
-/

namespace MiniStore

open InMemoryStore

namespace PersistenceManager

/-- The entry of a key that holds `c`: `keyType` is called at `atType`, the value is read
at `atValue`, and the gate of `ttl` is passed at `atTtl`, which then reads `now`. -/
def savedEntry (c : Cell) (atType atValue atTtl now : Int) : Option SerializedKey :=
  if c.expired atType then none
  else if c.expired atValue then
    match c.value with
    | .string _ => none
    | .list _ => some ⟨.list [], none⟩
    | .hash _ => some ⟨.hash PlainObject.empty, none⟩
  else if c.expired atTtl then some ⟨serializeValue c.value, none⟩
  else some (serialize now c)

/-! ## One key -/

/-- A read changes the cell of its own key at most. -/
theorem cell_read_other {α : Type} {s : InMemoryStore} (h : s.Lockstep) {key k : Str} {now : Clock}
    {f : Option Cell → Effect × α} (hread : ∀ c, (f c).1 = .keep ∨ (f c).1 = .touch)
    (hk : k ≠ key) : (s.perform key now f).1.cell k = s.cell k := by
  have hp : (s.purge key (now 0)).cell k = s.cell k := by rw [h.cell_purge, if_neg hk]
  show ((s.purge key (now 0)).commit key (now 1) _).cell k = _
  rcases hread ((s.purge key (now 0)).cell key) with e | e <;> rw [e] <;> exact hp

theorem reads_keyTypeCell (c : Option Cell) :
    (keyTypeCell c).1 = .keep ∨ (keyTypeCell c).1 = .touch := .inl rfl

theorem cell_readValue_other {s : InMemoryStore} (h : s.Lockstep) {key k : Str} (hk : k ≠ key)
    (now : Clock) (type : ValueType) : (readValue s key now type).1.cell k = s.cell k := by
  obtain ⟨_, f, -, hreads, e⟩ := readValue_reads s key now type
  rw [e]
  exact cell_read_other h hreads hk

theorem cell_saveKey_other {s : InMemoryStore} (h : s.Lockstep) {key k : Str} (hk : k ≠ key)
    (clocks : Clocks) (i : Nat) (dump : Dump) :
    (saveKey clocks i key s dump).1.cell k = s.cell k := by
  have hread : (s.keyType key (clocks i)).1.cell k = s.cell k := by
    rw [keyType_eq]
    exact cell_read_other h reads_keyTypeCell hk
  have h1 : (s.keyType key (clocks i)).1.Lockstep :=
    (h.decays_keyType (T := fun _ => True) key trivial).lockstep
  unfold saveKey
  rcases hv : s.keyType key (clocks i) with ⟨s1, _ | type⟩
  · rw [hv] at hread
    exact hread
  rw [hv] at hread h1
  have hvalue := cell_readValue_other h1 hk (clocks (i + 1)) type
  have hd : Decays (fun _ => True) s1 (readValue s1 key (clocks (i + 1)) type).1 :=
    decays_readValue h1 key trivial type
  have h2 := hd.lockstep
  simp only
  rcases hv2 : readValue s1 key (clocks (i + 1)) type with ⟨s2, _ | value⟩
  · rw [hv2] at hvalue
    exact hvalue.trans hread
  · rw [hv2] at hvalue h2
    show (s2.ttl key (clocks (i + 2))).1.cell k = _
    rw [ttl_eq, cell_read_other h2 (reads_ttlCell _) hk]
    exact hvalue.trans hread

section

variable {s : InMemoryStore} (h : s.Lockstep) {key : Str} {c : Cell} (hc : s.cell key = some c)

include h hc

theorem keyType_snd (now : Clock) :
    (s.keyType key now).2 = if c.expired (now 0) then none else some c.value.type := by
  rw [keyType_eq, h.perform_snd, hc, liveAt_some]
  split <;> rfl

theorem purge_of_expired {now : Int} (hx : c.expired now = true) :
    (s.purge key now).Lockstep ∧ (s.purge key now).cell key = none := by
  refine ⟨h.purge key now, ?_⟩
  rw [h.cell_purge_self, hc, liveAt_some, if_pos hx]

omit h in
theorem live_of_not_expired {now : Int} (hx : c.expired now = false) :
    liveAt now (s.cell key) = s.cell key := by
  rw [hc, liveAt_some, hx]
  rfl

theorem readValue_expired {now : Clock} (hx : c.expired (now 0) = true) :
    readValue s key now c.value.type = (s.purge key (now 0), match c.value with
      | .string _ => none
      | .list _ => some (.list [])
      | .hash _ => some (.hash PlainObject.empty)) := by
  have hnone := (purge_of_expired h hc hx).2
  obtain ⟨v, d⟩ := c
  cases v with
  | string => simp only [readValue, StoredValue.type, get_eq, perform, hnone, getCell, commit,
      Option.map_none]
  | list => simp only [readValue, StoredValue.type, lrange, readAs_eq, perform, hnone, readCell,
      commit]
  | hash => simp only [readValue, StoredValue.type, hgetall, readAs_eq, perform, hnone, readCell,
      commit, objectOf]

theorem saveKey_snd (clocks : Clocks) (i : Nat) (dump : Dump) : (saveKey clocks i key s dump).2 =
    match savedEntry c (clocks i 0) (clocks (i + 1) 0) (clocks (i + 2) 0) (clocks (i + 2) 1) with
    | none => dump
    | some e => dump.assign key e := by
  have htype := keyType_snd h hc (clocks i)
  unfold saveKey savedEntry
  cases hx : c.expired (clocks i 0) with
  | true =>
    rw [hx, if_pos rfl] at htype
    rw [if_pos rfl]
    rcases hk : s.keyType key (clocks i) with ⟨s1, type⟩
    rw [hk] at htype
    rw [show type = none from htype]
  | false =>
    have hstay : s.keyType key (clocks i) = (s, some c.value.type) := by
      rw [keyType_eq, perform_of_live (live_of_not_expired hc hx), hc]
      rfl
    rw [hstay, if_neg Bool.false_ne_true]
    simp only
    cases hy : c.expired (clocks (i + 1) 0) with
    | true =>
      obtain ⟨hL, hnone⟩ := purge_of_expired h hc hy
      have hgone : ((s.purge key (clocks (i + 1) 0)).ttl key (clocks (i + 2))).2 = -2 := by
        rw [ttl_eq, hL.perform_snd, hnone]
        rfl
      rw [readValue_expired h hc hy, if_pos rfl]
      rcases c.value with _ | _ | _
      · rfl
      · simp only [hgone]
        rfl
      · simp only [hgone]
        rfl
    | false =>
      rw [readValue_live hc (live_of_not_expired hc hy), if_neg Bool.false_ne_true]
      have hct : (s.touch key).cell key = some c := hc
      have hL := lockstep_touch h hc
      have hlast : ((s.touch key).ttl key (clocks (i + 2))).2 =
          (ttlCell (clocks (i + 2) 1) (liveAt (clocks (i + 2) 0) (some c))).2 := by
        rw [ttl_eq, hL.perform_snd, hct]
      simp only [hlast]
      rw [liveAt_some]
      cases c.expired (clocks (i + 2) 0) with
      | true => rfl
      | false =>
        obtain ⟨v, _ | d⟩ := c
        · rfl
        · have hpos : max 0 (ceilSeconds (max 0 (d - clocks (i + 2) 1))) ≥ 0 := Int.le_max_left ..
          simp only [if_neg Bool.false_ne_true, ttlCell, if_pos hpos, serialize, Option.map_some]

theorem get?_saveKey {k : Str} (hk : k ≠ key ∨ k = PlainObject.protoKey) (clocks : Clocks) (i : Nat)
    (dump : Dump) : (saveKey clocks i key s dump).2.get? k = dump.get? k := by
  rw [saveKey_snd h hc]
  split
  · rfl
  · rw [PlainObject.get?_assign, if_neg]
    rintro ⟨rfl, hp⟩
    exact hk.elim (fun hk => hk rfl) hp

end

/-! ## All keys -/

theorem get?_saveLoop (clocks : Clocks) : ∀ (keys : List Str) (i : Nat) {s : InMemoryStore}
    (dump : Dump), s.Lockstep → keys.Nodup → (∀ k ∈ keys, s.cell k ≠ none) →
      (∀ k, k ∉ keys ∨ k = PlainObject.protoKey →
        (saveLoop clocks keys i s dump).2.get? k = dump.get? k) ∧
      ∀ n k c, keys[n]? = some k → k ≠ PlainObject.protoKey → s.cell k = some c →
        (saveLoop clocks keys i s dump).2.get? k =
          (savedEntry c (clocks (i + 3 * n) 0) (clocks (i + 3 * n + 1) 0)
            (clocks (i + 3 * n + 2) 0) (clocks (i + 3 * n + 2) 1)).or (dump.get? k)
  | [], _, _, _, _, _, _ => ⟨fun _ _ => rfl, fun n k c hn => by cases hn⟩
  | key :: keys, i, s, dump, h, hnd, hne => by
    obtain ⟨hnot, hnd⟩ := List.nodup_cons.mp hnd
    obtain ⟨c0, hc0⟩ := Option.ne_none_iff_exists'.mp (hne key List.mem_cons_self)
    have hother : ∀ k ∈ keys, (saveKey clocks i key s dump).1.cell k = s.cell k := by
      intro k hk
      refine cell_saveKey_other h ?_ clocks i dump
      rintro rfl
      exact hnot hk
    have hd : Decays (fun _ => True) s (saveKey clocks i key s dump).1 :=
      decays_saveKey h (fun _ _ => trivial) i key dump
    have hL := hd.lockstep
    have hdump := saveKey_snd h hc0 clocks i dump
    have hloop : (saveLoop clocks (key :: keys) i s dump).2 =
        (saveLoop clocks keys (i + 3) (saveKey clocks i key s dump).1
          (saveKey clocks i key s dump).2).2 := rfl
    obtain ⟨h1, h2⟩ := get?_saveLoop clocks keys (i + 3) (saveKey clocks i key s dump).2 hL hnd
      fun k hk => by rw [hother k hk]; exact hne k (List.mem_cons_of_mem _ hk)
    rw [hloop]
    refine ⟨fun k hk => ?_, fun n k c hn hp hc => ?_⟩
    · rw [List.mem_cons, not_or] at hk
      rw [h1 k (hk.imp_left And.right), get?_saveKey h hc0 (hk.imp_left And.left)]
    · cases n with
      | zero =>
        obtain rfl : key = k := Option.some.inj hn
        obtain rfl : c0 = c := Option.some.inj (hc0.symm.trans hc)
        rw [h1 key (.inl hnot), hdump]
        show _ = (savedEntry c0 (clocks i 0) (clocks (i + 1) 0) (clocks (i + 2) 0)
          (clocks (i + 2) 1)).or _
        split
        · next e => rw [e]; rfl
        · next e => rw [e, PlainObject.get?_assign, if_pos ⟨rfl, hp⟩]; rfl
      | succ n =>
        have hmem : k ∈ keys := List.mem_of_getElem? hn
        have hk : k ≠ key := fun e => hnot (e ▸ hmem)
        have := h2 n k c hn hp ((hother k hmem).trans hc)
        rw [get?_saveKey h hc0 (.inl hk)] at this
        rw [show i + 3 * (n + 1) = i + 3 + 3 * n by omega]
        exact this

/-- The keys that KEYS lists of `keys`, checking the first of them at `now i`. -/
def listedAt (test : Str → Bool) (now : Clock) (cells : Str → Option Cell) :
    List Str → Nat → List Str
  | [], _ => []
  | key :: rest, i =>
    if (liveAt (now i) (cells key)).isSome && test key then
      key :: listedAt test now cells rest (i + 1)
    else listedAt test now cells rest (i + 1)

theorem listedAt_congr (test : Str → Bool) (now : Clock) {cells cells' : Str → Option Cell} :
    ∀ {keys : List Str} {i : Nat}, (∀ k ∈ keys, cells k = cells' k) →
      listedAt test now cells keys i = listedAt test now cells' keys i
  | [], _, _ => rfl
  | key :: keys, i, hk => by
    unfold listedAt
    rw [hk key List.mem_cons_self, listedAt_congr test now fun k hm =>
      hk k (List.mem_cons_of_mem _ hm)]

theorem listedAt_sublist (test : Str → Bool) (now : Clock) (cells : Str → Option Cell) :
    ∀ (keys : List Str) (i : Nat), (listedAt test now cells keys i).Sublist keys
  | [], _ => List.Sublist.refl _
  | key :: keys, i => by
    have ih := listedAt_sublist test now cells keys (i + 1)
    unfold listedAt
    split
    · exact ih.cons_cons key
    · exact ih.cons key

theorem keysLoop_listedAt (test : Str → Bool) (now : Clock) : ∀ (keys : List Str) (i : Nat)
    {s : InMemoryStore}, s.Lockstep → keys.Nodup → (∀ k ∈ keys, s.cell k ≠ none) →
      (keysLoop test now keys i s).2 = listedAt test now s.cell keys i ∧
      ∀ k, k ∉ keys ∨ k ∈ listedAt test now s.cell keys i →
        (keysLoop test now keys i s).1.cell k = s.cell k
  | [], _, _, _, _, _ => ⟨rfl, fun _ _ => rfl⟩
  | key :: keys, i, s, h, hnd, hne => by
    obtain ⟨hnot, hnd⟩ := List.nodup_cons.mp hnd
    have hcell := h.cell_purge key (now i)
    have hother : ∀ k ∈ keys, (s.purge key (now i)).cell k = s.cell k := by
      intro k hk
      rw [hcell, if_neg]
      rintro rfl
      exact hnot hk
    obtain ⟨h1, h2⟩ := keysLoop_listedAt test now keys (i + 1) (h.purge key (now i)) hnd
      fun k hk => by rw [hother k hk]; exact hne k (List.mem_cons_of_mem _ hk)
    have hsame := listedAt_congr test now (i := i + 1) hother
    rw [hsame] at h1 h2
    rw [keysLoop_cons test now keys i (hne key List.mem_cons_self), h1]
    refine ⟨rfl, fun k hk => ?_⟩
    have hkey : ∀ k, k ∈ listedAt test now s.cell keys (i + 1) → k ≠ key := by
      rintro k hm rfl
      exact hnot ((listedAt_sublist ..).subset hm)
    -- the key itself is listed only if the gate has left it
    have hkeep : k ∉ keys ∨ k ∈ listedAt test now s.cell keys (i + 1) := by
      rcases hk with hk | hk
      · exact .inl fun hm => hk (List.mem_cons_of_mem _ hm)
      · unfold listedAt at hk
        split at hk
        · rcases List.mem_cons.mp hk with rfl | hk
          · exact .inl hnot
          · exact .inr hk
        · exact .inr hk
    refine (h2 k hkeep).trans ?_
    rw [hcell]
    split
    · next e =>
      subst e
      rcases hk with hk | hk
      · exact absurd List.mem_cons_self hk
      · unfold listedAt at hk
        split at hk
        · next hl =>
          have hsome := (Bool.and_eq_true_iff.mp hl).1
          obtain ⟨c', hc'⟩ := Option.isSome_iff_exists.mp hsome
          rw [hc', (liveAt_eq_some.mp hc').1]
        · exact absurd rfl (hkey k hk)
    · rfl

/-- The keys that a save looks at, in turn. -/
def savedOrder (clocks : Clocks) (s : InMemoryStore) : List Str :=
  listedAt (globMatch ['*']) (clocks 0) s.cell s.values.keys 0

/-- The entries of a dump. The `n`-th key listed is looked at with the clocks `3 * n + 1`,
`3 * n + 2` and `3 * n + 3`; the entry of `__proto__` is never dumped. -/
theorem get?_extract {s : InMemoryStore} (h : s.Lockstep) (clocks : Clocks) :
    (∀ k, k ∉ savedOrder clocks s ∨ k = PlainObject.protoKey →
      (extract s clocks).2.get? k = none) ∧
    ∀ n k c, (savedOrder clocks s)[n]? = some k → k ≠ PlainObject.protoKey → s.cell k = some c →
      (extract s clocks).2.get? k =
        savedEntry c (clocks (3 * n + 1) 0) (clocks (3 * n + 2) 0) (clocks (3 * n + 3) 0)
          (clocks (3 * n + 3) 1) := by
  obtain ⟨hkeys, hkept⟩ := keysLoop_listedAt (globMatch ['*']) (clocks 0) s.values.keys 0 h
    s.values.keys_nodup fun k hk => mem_keys.mp hk
  have hL : (s.keys ['*'] (clocks 0)).1.Lockstep :=
    (h.decays_keys (T := fun _ => True) ['*'] fun _ => trivial).lockstep
  unfold savedOrder
  generalize hlist : listedAt (globMatch ['*']) (clocks 0) s.cell s.values.keys 0 = keys at *
  have hsub : keys.Sublist s.values.keys := hlist ▸ listedAt_sublist ..
  have hcell : ∀ k ∈ keys, (s.keys ['*'] (clocks 0)).1.cell k = s.cell k := fun k hk =>
    hkept k (.inr hk)
  have hextract : (extract s clocks).2 =
      (saveLoop clocks keys 1 (s.keys ['*'] (clocks 0)).1 PlainObject.empty).2 := by
    rw [← hkeys]
    rfl
  obtain ⟨habsent, hentry⟩ := get?_saveLoop clocks keys 1 PlainObject.empty hL
    (s.values.keys_nodup.sublist hsub)
    fun k hk => by rw [hcell k hk]; exact mem_keys.mp (hsub.subset hk)
  refine ⟨fun k hk => ?_, fun n k c hn hp hc => ?_⟩
  · rw [hextract, habsent k hk, PlainObject.get?_empty]
  · have := hentry n k c hn hp ((hcell k (List.mem_of_getElem? hn)).trans hc)
    rw [PlainObject.get?_empty, Option.or_none] at this
    rw [hextract, this, Nat.add_comm 1 (3 * n)]

/-- The key is still there when it is looked at first, and gone when `ttl` is called; or
the value that is gone when it is read is a list or a hash. -/
def losesTtl (c : Cell) (atType atValue atTtl : Int) : Bool :=
  c.deadline.isSome && !c.expired atType &&
    if c.expired atValue then decide (c.value.type ≠ .string) else c.expired atTtl

theorem losesTtl_iff {c : Cell} (hc : c.deadline.isSome = true) (atType atValue atTtl now : Int) :
    losesTtl c atType atValue atTtl = false ↔
      ∀ e, savedEntry c atType atValue atTtl now = some e → e.ttl.isSome = true := by
  unfold losesTtl savedEntry
  obtain ⟨v, d⟩ := c
  obtain ⟨d, rfl⟩ := Option.isSome_iff_exists.mp hc
  cases (Cell.mk v (some d)).expired atType <;> cases (Cell.mk v (some d)).expired atValue <;>
    cases (Cell.mk v (some d)).expired atTtl <;> cases v <;> simp [serialize, StoredValue.type]

/-- For every reachable store and every clock: the keys that have a deadline when the
save starts are dumped with a `ttl`, or not at all, just when for none of those listed
the deadline passes at the wrong moment. The `n`-th key listed is looked at with the
clocks `3 * n + 1`, `3 * n + 2` and `3 * n + 3`; the entry of `__proto__` is never
dumped. -/
theorem volatile_dumped_iff (maxKeys : Nat) (hm : 1 ≤ maxKeys) (past : List (Op × Clock))
    (clocks : Clocks) (s : InMemoryStore) (hs : s = runAll (InMemoryStore.create maxKeys hm) past) :
    (∀ k c, s.cell k = some c → c.deadline.isSome = true →
      ∀ e, (extract s clocks).2.get? k = some e → e.ttl.isSome = true) ↔
    ∀ n k c, (listedAt (globMatch ['*']) (clocks 0) s.cell s.values.keys 0)[n]? = some k →
      k ≠ PlainObject.protoKey → s.cell k = some c → c.deadline.isSome = true →
      losesTtl c (clocks (3 * n + 1) 0) (clocks (3 * n + 2) 0) (clocks (3 * n + 3) 0) = false := by
  have h : s.Lockstep := hs ▸ (lockstep_create maxKeys hm).runAll past
  obtain ⟨habsent, hat⟩ := get?_extract h clocks
  constructor
  · intro hall n k c hn hp hc hd
    refine (losesTtl_iff hd _ _ _ (clocks (3 * n + 3) 1)).mpr fun e he => ?_
    exact hall k c hc hd e ((hat n k c hn hp hc).trans he)
  · intro hall k c hc hd e he
    have hlisted : k ∈ savedOrder clocks s ∧ k ≠ PlainObject.protoKey := by
      by_contra hno
      rw [habsent k (by tauto)] at he
      cases he
    obtain ⟨n, hn⟩ := List.getElem?_of_mem hlisted.1
    rw [hat n k c hn hlisted.2 hc] at he
    exact (losesTtl_iff hd _ _ _ _).mp (hall n k c hn hlisted.2 hc hd) e he

def volatileKeys : List (Op × Clock) :=
  [(.set ['s'] ['x'] (some 1), Clock.still 0), (.rpush ['l'] [['x']], Clock.still 0),
    (.expire ['l'] 1, Clock.still 0)]

/-- The clock moves on by one before every operation of the save. -/
def ticking (start : Int) : Clocks := fun i _ => start + i

/-- Started at 996, the save reads `s` in time, and finds that `l` has expired. -/
theorem volatile_dumped_ticking :
    (extract (runAll (InMemoryStore.create 2 (Nat.le_succ 1)) volatileKeys) (ticking 996)).2.get?
        ['s'] = some ⟨.string ['x'], some 1⟩ ∧ ∀ k c,
      (runAll (InMemoryStore.create 2 (Nat.le_succ 1)) volatileKeys).cell k = some c →
      c.deadline.isSome = true →
      ∀ e, (extract (runAll (InMemoryStore.create 2 (Nat.le_succ 1)) volatileKeys)
        (ticking 996)).2.get? k = some e → e.ttl.isSome = true := by
  refine ⟨by decide, (volatile_dumped_iff 2 (Nat.le_succ 1) volatileKeys (ticking 996) _ rfl).mpr
    fun n k c hn _ hc _ => ?_⟩
  have hlisted : listedAt (globMatch ['*']) (ticking 996 0)
      (runAll (InMemoryStore.create 2 (Nat.le_succ 1)) volatileKeys).cell
      (runAll (InMemoryStore.create 2 (Nat.le_succ 1)) volatileKeys).values.keys 0 =
        [['s'], ['l']] := by decide
  rw [hlisted] at hn
  match n, hn with
  | 0, hn =>
    cases hn
    have hs : (runAll (InMemoryStore.create 2 (Nat.le_succ 1)) volatileKeys).cell ['s'] =
        some ⟨.string ['x'], some 1000⟩ := by decide
    cases hs.symm.trans hc
    decide
  | 1, hn =>
    cases hn
    have hl : (runAll (InMemoryStore.create 2 (Nat.le_succ 1)) volatileKeys).cell ['l'] =
        some ⟨.list [['x']], some 1000⟩ := by decide
    cases hl.symm.trans hc
    decide

/-- The deadline of `s` passes before `ttl` is called, that of `l` before `l` is read. -/
theorem volatile_dumped_for_good :
    (extract (runAll (InMemoryStore.create 2 (by decide)) volatileKeys) (ticking 997)).2.get? ['s'] =
      some ⟨.string ['x'], none⟩ ∧
    (extract (runAll (InMemoryStore.create 2 (by decide)) volatileKeys) (ticking 995)).2.get? ['l'] =
      some ⟨.list [], none⟩ := by
  decide

/-! ## What a dump tells of a key -/

/-- The entry says what the cell holds: its value as a restore makes it, with the seconds its
deadline is off. A cell without an entry had expired by the clock of the save. -/
def Tells (clocks : Clocks) : Option Cell → Option SerializedKey → Prop
  | none, none => True
  | none, some _ => False
  | some c, none => ∃ now, clocks.Reads now ∧ c.expired now = true
  | some c, some e => SameValue c.value (restoredValue e.value) ∧
      ∃ now, clocks.Reads now ∧ e.ttl = (serialize now c).ttl

end PersistenceManager

end MiniStore
