import MiniStore.Store.Recency
import MiniStore.Store.Snapshot

/-!
# Sweeps are invisible

Two runs of the same client operations, one of them with sweeps in between. What the
swept store lacks is due (`Swept`), and every operation looks at its key through the
lazy-expiry gate, so both runs answer alike as long as neither evicts
(`sweeps_invisible`). KEYS lists in the order of insertion; a key that is due and
created again moves to the end in both stores.
-/

namespace MiniStore

open InMemoryStore

/-! ## Answers -/

/-- The result of an operation on one key, of which `c` is left when it is called. -/
def Op.answer (now : Clock) (c : Option Cell) : Op → OpResult
  | .get _ => .found (getCell c).2
  | .set .. | .keys _ | .sweepExpired _ => .done
  | .del _ => .flag (delCell c).2
  | .expire _ seconds => .flag (expireCell (now 1 + seconds * 1000) c).2
  | .exists _ => .flag (existsCell c).2
  | .ttl _ => .number (ttlCell (now 1) c).2
  | .persist _ => .flag (persistCell c).2
  | .keyType _ => .kind (keyTypeCell c).2
  | .lpush _ values => .count (pushCell unshiftAll values c).2
  | .lpop _ => .item (popCell shift c).2
  | .lrange _ start stop => .items (readCell StoredValue.asList [] (slice start stop) c).2
  | .rpush _ values => .count (pushCell pushAll values c).2
  | .rpop _ => .item (popCell pop c).2
  | .llen _ => .count (readCell StoredValue.asList 0 List.length c).2
  | .hset _ pairs => .count (hsetCell pairs c).2
  | .hget _ field => .item (readCell StoredValue.asHash none (·.get? field) c).2
  | .hdel _ fields => .count (hdelCell fields c).2
  | .hgetall _ =>
    .items (readCell StoredValue.asHash [] (fun map => map.entries.flatMap fun e => [e.1, e.2]) c).2
  | .hlen _ => .count (readCell StoredValue.asHash 0 OrdMap.size c).2

/-- An operation on one key answers from what is left of its cell. -/
theorem Op.run_snd {s : InMemoryStore} (h : s.Lockstep) {op : Op} {key : Str}
    (hk : op.key = some key) (now : Clock) :
    (op.run s now).2 = op.answer now (liveAt (now 0) (s.cell key)) := by
  have answers : ∀ {α : Type} {p : InMemoryStore × α} {f : Option Cell → Effect × α},
      p = s.perform key now f → p.2 = (f (liveAt (now 0) (s.cell key))).2 := by
    intro α p f e
    rw [e]
    exact h.perform_snd
  cases op with
  | get => cases hk; exact congrArg OpResult.found (answers (get_eq _ now s))
  | set => cases hk; rfl
  | del => cases hk; exact congrArg OpResult.flag (answers (del_eq _ now s))
  | expire => cases hk; exact congrArg OpResult.flag (answers (expire_eq _ now s _))
  | «exists» => cases hk; exact congrArg OpResult.flag (answers (InMemoryStore.exists_eq _ now s))
  | ttl => cases hk; exact congrArg OpResult.number (answers (ttl_eq _ now s))
  | persist => cases hk; exact congrArg OpResult.flag (answers (persist_eq _ now s))
  | keyType => cases hk; exact congrArg OpResult.kind (answers (keyType_eq _ now s))
  | lpush => cases hk; exact congrArg OpResult.count (answers (lpush_eq h _ now _))
  | rpush => cases hk; exact congrArg OpResult.count (answers (rpush_eq h _ now _))
  | lpop => cases hk; exact congrArg OpResult.item (answers (lpop_eq _ now s))
  | rpop => cases hk; exact congrArg OpResult.item (answers (rpop_eq _ now s))
  | hset => cases hk; exact congrArg OpResult.count (answers (hset_eq h _ now _))
  | hdel => cases hk; exact congrArg OpResult.count (answers (hdel_eq _ now s _))
  | lrange | hgetall =>
    cases hk; exact congrArg OpResult.items (answers (readAs_eq _ now _ _ _ s))
  | llen | hlen =>
    cases hk; exact congrArg OpResult.count (answers (readAs_eq _ now _ _ _ s))
  | hget => cases hk; exact congrArg OpResult.item (answers (readAs_eq _ now _ _ _ s))
  | keys => cases hk
  | sweepExpired => cases hk

/-! ## Keys in the order of insertion -/

/-- What an effect on a key makes of the list of the keys, if it evicts none. -/
def InMemoryStore.Effect.onKeys (key : Str) : Effect → List Str → List Str
  | .put .., keys => if key ∈ keys then keys else keys ++ [key]
  | .remove, keys => keys.erase key
  | _, keys => keys

theorem keys_commit {s : InMemoryStore} (h : s.Lockstep) {key : Str} {now : Int} {e : Effect}
    (hv : s.view.evicted s.maxKeys key e.action = none) :
    (s.commit key now e).values.keys = e.onKeys key s.values.keys := by
  cases e with
  | keep => rfl
  | touch => rfl
  | remove =>
    exact keys_removeKey s key
  | put v d b =>
    have hr : s.reserveSlotFor key now = s := by
      rcases h.reserveSlotFor_cases key now with ⟨-, e⟩ | ⟨u, hu, -, -⟩
      · exact e
      · rw [show s.view.victim s.maxKeys key = none from hv] at hu
        cases hu
    rw [values_commit_put, hr, Effect.onKeys]
    split
    · next hk => exact OrdMap.keys_set_of_has (OrdMap.mem_keys_iff_has.mp hk)
    · next hk =>
      refine OrdMap.keys_set_of_new (Bool.eq_false_iff.mpr fun hh => hk ?_)
      exact OrdMap.mem_keys_iff_has.mpr hh

/-! ## A swept store -/

/-- `s'` lacks some keys of `s` that are due at `t`; the others are the same and in the
same order. -/
structure Swept (t : Int) (s s' : InMemoryStore) : Prop where
  lockstep : s.Lockstep
  lockstep' : s'.Lockstep
  maxKeys : s'.maxKeys = s.maxKeys
  cell : ∀ k, s'.cell k = s.cell k ∨ s'.cell k = none ∧ liveAt t (s.cell k) = none
  keys : s'.values.keys = s.values.keys.filter fun k => (s'.cell k).isSome

theorem Swept.refl {s : InMemoryStore} (h : s.Lockstep) (t : Int) : Swept t s s := by
  refine ⟨h, h, rfl, fun _ => .inl rfl, (List.filter_eq_self.mpr fun k hk => ?_).symm⟩
  exact Option.isSome_iff_ne_none.mpr (mem_keys.mp hk)

theorem liveAt_none_mono {t t' : Int} (ht : t ≤ t') {o : Option Cell} (h : liveAt t o = none) :
    liveAt t' o = none := by
  rw [← liveAt_liveAt ht, h, liveAt_none]

section

variable {t : Int} {s s' : InMemoryStore} (h : Swept t s s')

include h

theorem Swept.mono {t' : Int} (ht : t ≤ t') : Swept t' s s' :=
  ⟨h.lockstep, h.lockstep', h.maxKeys,
    fun k => (h.cell k).imp_right fun ⟨e, hl⟩ => ⟨e, liveAt_none_mono ht hl⟩, h.keys⟩

theorem Swept.live (k : Str) : liveAt t (s'.cell k) = liveAt t (s.cell k) := by
  rcases h.cell k with e | ⟨e, hl⟩
  · rw [e]
  · rw [e, hl, liveAt_none]

theorem Swept.size_le : s'.size ≤ s.size := by
  have hsub : ∀ k, s'.cell k ≠ none → k ∈ s.values.keys := by
    intro k hk
    rcases h.cell k with e | ⟨e, -⟩
    · exact mem_keys.mpr (e ▸ hk)
    · exact absurd e hk
  have := h.lockstep'.size_le_of_subset hsub
  rwa [OrdMap.length_keys] at this

/-- Less is left of the swept store. -/
theorem Swept.thin {s'' : InMemoryStore} (h'' : s''.Lockstep) (hm : s''.maxKeys = s'.maxKeys)
    (hc : ∀ k, s''.cell k = s'.cell k ∨ s''.cell k = none ∧ liveAt t (s'.cell k) = none)
    (hk : s''.values.keys = s'.values.keys.filter fun k => (s''.cell k).isSome) :
    Swept t s s'' := by
  refine ⟨h.lockstep, h'', hm.trans h.maxKeys, fun k => ?_, ?_⟩
  · rcases hc k with e | ⟨e, hl⟩
    · rw [e]; exact h.cell k
    · exact .inr ⟨e, by rw [← h.live]; exact hl⟩
  · rw [hk, h.keys, List.filter_filter]
    refine List.filter_congr fun k _ => ?_
    rcases hc k with e | ⟨e, -⟩
    · rw [e, Bool.and_self]
    · rw [e]; rfl

end

/-! ## Dropping keys -/

theorem keys_drop {s : InMemoryStore} (h : s.Lockstep) (key : Str) :
    (s.drop key).values.keys = s.values.keys.filter fun k => ((s.drop key).cell k).isSome := by
  have hv : (s.drop key).values = s.values.delete key := values_removeKey s key
  rw [hv, OrdMap.keys_delete, s.values.keys_nodup.erase_eq_filter]
  refine List.filter_congr fun k hk => ?_
  rw [h.cell_drop]
  by_cases e : k = key
  · simp [e]
  · have hsome := Option.isSome_iff_ne_none.mpr (mem_keys.mp hk)
    simp [e, hsome]

theorem Swept.drop {t : Int} {s s' : InMemoryStore} (h : Swept t s s') {key : Str}
    (hk : liveAt t (s'.cell key) = none) : Swept t s (s'.drop key) := by
  refine h.thin (h.lockstep'.drop key) (maxKeys_removeKey s' key) (fun k => ?_)
    (keys_drop h.lockstep' key)
  rw [h.lockstep'.cell_drop]
  by_cases e : k = key
  · exact .inr ⟨if_pos e, e ▸ hk⟩
  · exact .inl (if_neg e)

theorem Swept.purge_right {t : Int} {s s' : InMemoryStore} (h : Swept t s s') (key : Str) :
    Swept t s (s'.purge key t) := by
  rcases purge_cases s' key t with e | ⟨e, hl⟩
  · rw [e]; exact h
  · rw [e]; exact h.drop hl

/-- The swept store lacks the key already. -/
theorem Swept.drop_left {t : Int} {s s' : InMemoryStore} (h : Swept t s s') {key : Str}
    (hk : s'.cell key = none) : Swept t (s.drop key) s' := by
  have hc := h.lockstep.cell_drop key
  refine ⟨h.lockstep.drop key, h.lockstep', h.maxKeys.trans (maxKeys_removeKey s key).symm,
    fun k => ?_, ?_⟩
  · rw [hc]
    by_cases e : k = key
    · exact .inl (by rw [if_pos e, e, hk])
    · rw [if_neg e]; exact h.cell k
  · rw [keys_drop h.lockstep, List.filter_filter, h.keys]
    refine List.filter_congr fun k hm => ?_
    by_cases e : k = key
    · simp [e, hk]
    · have hsome := Option.isSome_iff_ne_none.mpr (mem_keys.mp hm)
      rw [hc, if_neg e, hsome, Bool.and_true]

theorem Swept.purge {t : Int} {s s' : InMemoryStore} (h : Swept t s s') (key : Str) :
    Swept t (s.purge key t) (s'.purge key t) := by
  have hr := h.purge_right key
  rcases purge_cases s key t with e | ⟨e, hl⟩
  · rw [e]; exact hr
  · rw [e]
    refine hr.drop_left ?_
    rw [h.lockstep'.cell_purge_self, h.live, hl]

/-! ## Client operations on both sides -/

/-- An effect on a key that evicts none leaves the other cells alone. -/
theorem cell_commit_of_no_victim {s : InMemoryStore} (h : s.Lockstep) {key : Str} (now : Int)
    {e : Effect} (hv : s.view.evicted s.maxKeys key e.action = none) (k : Str) :
    (s.commit key now e).cell k = if k = key then e.action.onCell (s.cell key) else s.cell k := by
  have hview := congrArg (LruCache.cell · k) (h.view_commit key now e)
  by_cases ek : k = key
  · rw [if_pos ek, ek, h.cell_commit_self]
  · rw [if_neg ek]
    refine hview.trans ((LruCache.cell_commit_eq ek _).trans ?_)
    rw [hv]
    exact if_neg (fun h => nomatch h)

section

variable {t : Int} {s s' : InMemoryStore} (h : Swept t s s') {key : Str}
  (hk : s'.cell key = s.cell key) {now : Int} {e : Effect}
  (hv : s.view.evicted s.maxKeys key e.action = none)

include h hk hv

/-- The swept store is no larger, so it evicts nothing either. -/
theorem Swept.no_victim : s'.view.evicted s'.maxKeys key e.action = none := by
  cases e with
  | put v d b =>
    refine (LruCache.victim_eq_none s'.maxKeys_pos).mpr ?_
    rcases (LruCache.victim_eq_none s.maxKeys_pos).mp hv with hmem | hlt
    · refine .inl ((h.lockstep'.view_wf.mem key).mpr ?_)
      have hne : s.cell key ≠ none := (h.lockstep.view_wf.mem key).mp hmem
      rwa [← hk] at hne
    · refine .inr ?_
      have hlen : s.view.order.length = s.size := h.lockstep.length_order
      have hlen' : s'.view.order.length = s'.size := h.lockstep'.length_order
      have := h.size_le
      rw [h.maxKeys]
      omega
  | _ => rfl

theorem Swept.keys_commit : (s'.commit key now e).values.keys =
    (s.commit key now e).values.keys.filter fun k => ((s'.commit key now e).cell k).isSome := by
  have hv' := h.no_victim hk hv
  have hc' := cell_commit_of_no_victim h.lockstep' now hv'
  rw [MiniStore.keys_commit h.lockstep hv, MiniStore.keys_commit h.lockstep' hv']
  have hother : ∀ k, k ≠ key → ((s'.commit key now e).cell k).isSome = (s'.cell k).isSome :=
    fun k ek => by rw [hc', if_neg ek]
  have hself : (s'.commit key now e).cell key = e.action.onCell (s'.cell key) := by
    rw [hc', if_pos rfl]
  cases e with
  | keep => exact h.keys
  | touch => exact h.keys
  | remove =>
    show s'.values.keys.erase key = (s.values.keys.erase key).filter _
    rw [s'.values.keys_nodup.erase_eq_filter, s.values.keys_nodup.erase_eq_filter, h.keys,
      List.filter_filter, List.filter_filter]
    refine List.filter_congr fun k _ => ?_
    by_cases ek : k = key
    · simp [ek, hself, LruCache.Action.onCell, Effect.action]
    · rw [hother k ek, Bool.and_comm]
  | put v d b =>
    have hsome : ((s'.commit key now (.put v d b)).cell key).isSome = true := by rw [hself]; rfl
    have hmem : key ∈ s'.values.keys ↔ key ∈ s.values.keys := by rw [mem_keys, mem_keys, hk]
    simp only [Effect.onKeys, hmem]
    split
    · rw [h.keys]
      refine List.filter_congr fun k hkm => ?_
      by_cases ek : k = key
      · subst ek
        rw [hsome, hk]
        exact Option.isSome_iff_ne_none.mpr (mem_keys.mp hkm)
      · exact (hother k ek).symm
    · next hnew =>
      rw [List.filter_append, List.filter_singleton, hsome, h.keys]
      refine congrArg (· ++ [key]) (List.filter_congr fun k hkm => (hother k fun ek => ?_).symm)
      exact hnew (ek ▸ hkm)

theorem Swept.commit (hf : e.Fits (s.cell key)) :
    Swept t (s.commit key now e) (s'.commit key now e) := by
  have hc := cell_commit_of_no_victim h.lockstep now hv
  have hc' := cell_commit_of_no_victim h.lockstep' now (h.no_victim hk hv)
  refine ⟨h.lockstep.commit now hf, h.lockstep'.commit now (hk ▸ hf), ?_, fun k => ?_,
    h.keys_commit hk hv⟩
  · rw [maxKeys_commit h.lockstep', maxKeys_commit h.lockstep, h.maxKeys]
  · rw [hc, hc']
    by_cases ek : k = key
    · rw [if_pos ek, if_pos ek, hk]; exact .inl rfl
    · rw [if_neg ek, if_neg ek]; exact h.cell k

end

theorem keys_still {s : InMemoryStore} (h : s.Lockstep) (pattern : Str) (t : Int) :
    (∀ k, (s.keys pattern (Clock.still t)).1.cell k = liveAt t (s.cell k)) ∧
      (s.keys pattern (Clock.still t)).2 =
        s.values.keys.filter fun k => (liveAt t (s.cell k)).isSome && globMatch pattern k := by
  obtain ⟨h1, h2⟩ := PersistenceManager.keysLoop_spec (globMatch pattern)
    (fun k => (liveAt t (s.cell k)).isNone) s.values.keys 0 h s.values.keys_nodup
    fun k hk => ⟨mem_keys.mp hk, fun _ => liveAt_eq_ite t (s.cell k)⟩
  refine ⟨fun k => (h1 k).trans ?_, h2.trans ?_⟩
  · by_cases hk : s.cell k = none
    · simp [hk]
    · simp only [mem_keys.mpr hk, true_and]
      exact (liveAt_eq_ite t (s.cell k)).symm
  · exact List.filter_congr fun k _ => by rw [Option.not_isNone]

theorem Swept.keysLoop {t : Int} {s : InMemoryStore} (test : Str → Bool) : ∀ (ks : List Str)
    (i : Nat) {s' : InMemoryStore}, Swept t s s' →
      Swept t s (keysLoop test (Clock.still t) ks i s').1
  | [], _, _, h => h
  | key :: ks, i, _, h => Swept.keysLoop test ks (i + 1) (h.purge_right key)

/-- Two stores that lack the same keys. -/
theorem Swept.of_common {t : Int} {s a b : InMemoryStore} (ha : Swept t s a) (hb : Swept t s b)
    (hc : ∀ k, b.cell k = a.cell k) : Swept t a b := by
  refine ⟨ha.lockstep', hb.lockstep', hb.maxKeys.trans ha.maxKeys.symm, fun k => .inl (hc k), ?_⟩
  rw [hb.keys, ha.keys, List.filter_filter]
  refine List.filter_congr fun k _ => ?_
  rw [hc, Bool.and_self]

theorem Swept.keysOp {t : Int} {s s' : InMemoryStore} (h : Swept t s s') (pattern : Str) :
    (s'.keys pattern (Clock.still t)).2 = (s.keys pattern (Clock.still t)).2 ∧
      Swept t (s.keys pattern (Clock.still t)).1 (s'.keys pattern (Clock.still t)).1 := by
  obtain ⟨c1, r1⟩ := keys_still h.lockstep pattern t
  obtain ⟨c2, r2⟩ := keys_still h.lockstep' pattern t
  constructor
  · rw [r1, r2, h.keys, List.filter_filter]
    refine List.filter_congr fun k _ => ?_
    rw [h.live]
    rcases h.cell k with e | ⟨e, hl⟩
    · rw [e]
      cases s.cell k with
      | none => rfl
      | some c => rw [Option.isSome_some, Bool.and_true]
    · rw [hl]; rfl
  · have hleft := Swept.keysLoop (globMatch pattern) s.values.keys 0 (Swept.refl h.lockstep t)
    have hright := Swept.keysLoop (globMatch pattern) s'.values.keys 0 h
    refine hleft.of_common hright fun k => ?_
    exact (c2 k).trans ((h.live k).trans (c1 k).symm)

/-- The operation creates its key while there are `maxKeys` others. -/
def createsWhenFull (s : InMemoryStore) (op : Op) (now : Clock) : Bool :=
  op.key.any fun key => ((s.purge key (now 0)).cell key).isNone &&
    ((op.run s now).1.cell key).isSome && (s.purge key (now 0)).size == s.maxKeys

/-- An operation on one key that is not created in a full store evicts none. -/
theorem evicted_of_not_full {s : InMemoryStore} (h : s.Lockstep) {op : Op} {key : Str} {now : Clock}
    {f : Option Cell → Effect} (he : op.effect now = some (key, f))
    (hk : op.key = some key) (hc : createsWhenFull s op now = false) :
    (s.purge key (now 0)).view.evicted (s.purge key (now 0)).maxKeys key
      (f ((s.purge key (now 0)).cell key)).action = none := by
  have hp := h.purge key (now 0)
  refine Option.not_isSome_iff_eq_none.mp fun hsome => ?_
  obtain ⟨hnone, hnew, hfull⟩ := (LruCache.isSome_evicted (s.purge key (now 0)).maxKeys_pos
    hp.view_wf (Op.effect_fits he _)).mp hsome
  rw [← hp.view_commit key (now 1)] at hnew
  have hrun : (op.run s now).1.cell key ≠ none := by rw [Op.run_effect h he]; exact hnew
  have hsize : (s.purge key (now 0)).size = s.maxKeys := by
    rw [← maxKeys_purge s key (now 0), ← hfull]
    exact hp.length_order.symm
  have hpn : (s.purge key (now 0)).cell key = none := hnone
  simp [createsWhenFull, hk, hpn, hsize, Option.isNone_iff_eq_none, hrun] at hc

/-! ## Whole runs -/

def Op.isSweep : Op → Bool
  | .sweepExpired _ => true
  | _ => false

theorem Swept.run {t : Int} {s s' : InMemoryStore} (h : Swept t s s') {op : Op}
    (hop : op.isSweep = false) (hc : createsWhenFull s op (Clock.still t) = false) :
    (op.run s' (Clock.still t)).2 = (op.run s (Clock.still t)).2 ∧
      Swept t (op.run s (Clock.still t)).1 (op.run s' (Clock.still t)).1 := by
  cases hk : op.key with
  | none =>
    cases op with
    | keys pattern =>
      obtain ⟨h1, h2⟩ := h.keysOp pattern
      exact ⟨congrArg OpResult.names h1, h2⟩
    | sweepExpired => cases hop
    | _ => cases hk
  | some key =>
    obtain ⟨f, he⟩ := Op.effect_of_key hk (Clock.still t)
    have hp := h.purge key
    have hcell : (s'.purge key t).cell key = (s.purge key t).cell key := by
      rw [h.lockstep'.cell_purge_self, h.lockstep.cell_purge_self, h.live]
    have hv := evicted_of_not_full h.lockstep he hk hc
    constructor
    · rw [Op.run_snd h.lockstep hk, Op.run_snd h.lockstep' hk]
      exact congrArg (op.answer _) (h.live key)
    · rw [Op.run_effect h.lockstep he, Op.run_effect h.lockstep' he]
      show Swept t ((s.purge key t).commit key t (f ((s.purge key t).cell key)))
        ((s'.purge key t).commit key t (f ((s'.purge key t).cell key)))
      rw [hcell]
      exact hp.commit hcell hv (Op.effect_fits he _)

theorem Swept.foldl_drop {t : Int} {s : InMemoryStore} : ∀ (ks : List Str) {s' : InMemoryStore},
    Swept t s s' → (∀ k ∈ ks, liveAt t (s'.cell k) = none) →
      Swept t s (ks.foldl InMemoryStore.drop s')
  | [], _, h, _ => h
  | key :: ks, s', h, hks => by
    refine Swept.foldl_drop ks (h.drop (hks key List.mem_cons_self)) fun k hk => ?_
    rw [h.lockstep'.cell_drop]
    split
    · rfl
    · exact hks k (List.mem_cons_of_mem _ hk)

theorem Swept.sweep {t : Int} {s s' : InMemoryStore} (h : Swept t s s') (n : Int) :
    Swept t s (s'.sweepExpired n (Clock.still t)).1 := by
  have hcell : ∀ k, (s'.sample n t).cell k = s'.cell k := cell_sample s' n t
  have hs : Swept t s (s'.sample n t) := by
    refine ⟨h.lockstep, h.lockstep'.sample n t, h.maxKeys, fun k => ?_, ?_⟩
    · rw [hcell]; exact h.cell k
    · simp only [hcell]; exact h.keys
  rw [sweepExpired_fst]
  refine Swept.foldl_drop _ hs fun k hk => ?_
  have hx := ExpiryManager.collectExpired_expired _ _ _ k hk
  show liveAt t ((s'.sample n t).cell k) = none
  rw [hcell]
  cases hc : s'.cell k with
  | none => rfl
  | some c =>
    rw [isExpired_eq hc] at hx
    rw [liveAt_some]
    exact if_pos hx

def answers : InMemoryStore → List (Op × Int) → List OpResult
  | _, [] => []
  | s, (op, t) :: ops =>
    if op.isSweep then answers (op.run s (Clock.still t)).1 ops
    else (op.run s (Clock.still t)).2 :: answers (op.run s (Clock.still t)).1 ops

def runAt (s : InMemoryStore) (ops : List (Op × Int)) : InMemoryStore :=
  runAll s (ops.map fun o => (o.1, Clock.still o.2))

def clients (ops : List (Op × Int)) : List (Op × Int) := ops.filter fun o => !o.1.isSweep

def neverFull : InMemoryStore → List (Op × Int) → Bool
  | _, [] => true
  | s, (op, t) :: ops =>
    !createsWhenFull s op (Clock.still t) && neverFull (op.run s (Clock.still t)).1 ops

theorem Swept.runs : ∀ (ops : List (Op × Int)) {t : Int} {s s' : InMemoryStore}, Swept t s s' →
    (∀ o ∈ ops, t ≤ o.2) → (ops.Pairwise fun a b => a.2 ≤ b.2) →
    neverFull s (clients ops) = true →
    answers s' ops = answers s (clients ops) ∧
      ∀ t', t ≤ t' → (∀ o ∈ ops, o.2 ≤ t') → Swept t' (runAt s (clients ops)) (runAt s' ops)
  | [], _, _, _, h, _, _, _ => ⟨rfl, fun _ ht _ => h.mono ht⟩
  | (op, u) :: ops, t, s, s', h, hle, hsorted, hfull => by
    obtain ⟨hnext, hlater⟩ := List.pairwise_cons.mp hsorted
    have hu := h.mono (hle _ List.mem_cons_self)
    cases hop : op.isSweep with
    | true =>
      have hclients : clients ((op, u) :: ops) = clients ops :=
        List.filter_cons_of_neg (by simp [hop])
      obtain ⟨n, rfl⟩ : ∃ n, op = .sweepExpired n := by
        cases op with
        | sweepExpired n => exact ⟨n, rfl⟩
        | _ => cases hop
      rw [hclients] at hfull ⊢
      obtain ⟨h1, h2⟩ := Swept.runs ops (hu.sweep n) hnext hlater hfull
      refine ⟨(if_pos rfl).trans h1, fun t' _ hl => ?_⟩
      exact h2 t' (hl _ List.mem_cons_self) fun o ho => hl o (List.mem_cons_of_mem _ ho)
    | false =>
      have hclients : clients ((op, u) :: ops) = (op, u) :: clients ops :=
        List.filter_cons_of_pos (by simp [hop])
      rw [hclients] at hfull ⊢
      obtain ⟨hc, hfull⟩ := Bool.and_eq_true_iff.mp hfull
      obtain ⟨ha, hs⟩ := hu.run hop (by simpa using hc)
      obtain ⟨h1, h2⟩ := Swept.runs ops hs hnext hlater hfull
      constructor
      · rw [answers, answers, hop, if_neg Bool.false_ne_true, if_neg Bool.false_ne_true, ha, h1]
      · intro t' _ hl
        exact h2 t' (hl _ List.mem_cons_self) fun o ho => hl o (List.mem_cons_of_mem _ ho)

theorem neverFull_append : ∀ (a b : List (Op × Int)) {s : InMemoryStore},
    neverFull s (a ++ b) = true → neverFull s a = true
  | [], _, _, _ => rfl
  | (op, t) :: a, b, s, h => by
    obtain ⟨hc, ha⟩ := Bool.and_eq_true_iff.mp h
    exact Bool.and_eq_true_iff.mpr ⟨hc, neverFull_append a b ha⟩

/-- For every capacity and every run of operations from a new store, each at one time and
the times in order, in which without its sweeps no key is created in a full store: the
clients get the same answers with and without the sweeps. At every operation the same is
left in both stores, an operation on a key answers from what is left of it, and KEYS
lists of what is left just the names that match. -/
theorem sweeps_invisible (maxKeys : Nat) (hm : 1 ≤ maxKeys) (ops : List (Op × Int))
    (hsorted : ops.Pairwise fun a b => a.2 ≤ b.2)
    (hroom : neverFull (create maxKeys hm) (clients ops) = true) :
    answers (create maxKeys hm) ops = answers (create maxKeys hm) (clients ops) ∧
    ∀ (past rest : List (Op × Int)) (op : Op) (t : Int), ops = past ++ (op, t) :: rest →
      ∀ s, s = runAt (create maxKeys hm) past →
        (∀ k, liveAt t (s.cell k) =
          liveAt t ((runAt (create maxKeys hm) (clients past)).cell k)) ∧
        (∀ key, op.key = some key →
          (op.run s (Clock.still t)).2 = op.answer (Clock.still t) (liveAt t (s.cell key))) ∧
        ∀ pattern, op = .keys pattern → (op.run s (Clock.still t)).2 = .names
          (s.values.keys.filter fun k => (liveAt t (s.cell k)).isSome && globMatch pattern k) := by
  have hnew : (create maxKeys hm).Lockstep := lockstep_create maxKeys hm
  have hrefl := Swept.refl hnew
  -- a time before every operation
  have hstart : ∀ (ops : List (Op × Int)), (ops.Pairwise fun a b => a.2 ≤ b.2) →
      ∃ t, ∀ o ∈ ops, t ≤ o.2 := by
    intro ops hops
    cases ops with
    | nil => exact ⟨0, fun _ ho => absurd ho List.not_mem_nil⟩
    | cons o ops =>
      refine ⟨o.2, fun p hp => ?_⟩
      rcases List.mem_cons.mp hp with rfl | hp
      · exact Int.le_refl _
      · exact (List.pairwise_cons.mp hops).1 p hp
  constructor
  · obtain ⟨t, ht⟩ := hstart ops hsorted
    exact (Swept.runs ops (hrefl t) ht hsorted hroom).1
  · rintro past rest op t rfl s rfl
    obtain ⟨hpast, -, hcross⟩ := List.pairwise_append.mp hsorted
    have hle : ∀ o ∈ past, o.2 ≤ t := fun o ho => hcross o ho _ List.mem_cons_self
    have hroom' : neverFull (create maxKeys hm) (clients past) = true := by
      rw [clients, List.filter_append] at hroom
      exact neverFull_append _ _ hroom
    have h : (runAt (create maxKeys hm) past).Lockstep := hnew.runAll _
    refine ⟨fun k => ?_, fun key hk => ?_, fun pattern hop => ?_⟩
    · obtain ⟨u, hu⟩ := hstart past hpast
      have hmin : min u t ≤ t := Int.min_le_right u t
      have hlow : ∀ o ∈ past, min u t ≤ o.2 := fun o ho =>
        Int.le_trans (Int.min_le_left u t) (hu o ho)
      exact ((Swept.runs past (hrefl _) hlow hpast hroom').2 t hmin hle).live k
    · exact Op.run_snd h hk _
    · rw [hop]
      exact congrArg OpResult.names (keys_still h pattern t).2

/-- A key that a sweep collects between two reads of the run. -/
def sweptBetween : List (Op × Int) :=
  [(.set ['a'] ['x'] (some 1), 0), (.rpush ['b'] [['y']], 500), (.sweepExpired 20, 1000),
    (.get ['a'], 1000), (.hset ['a'] [(['f'], ['v'])], 1000), (.keys ['*'], 1500)]

theorem sweeps_invisible_swept : answers (create 2 (by decide)) sweptBetween =
    answers (create 2 (by decide)) (clients sweptBetween) :=
  (sweeps_invisible 2 (by decide) sweptBetween (by decide) (by decide)).1

end MiniStore
