import MiniStore.Store.Lockstep

/-!
# Recency

The rules of recency, read off the calls alone: `Op.refreshes` says when an operation
refreshes its key, and `lastRefresh` at which operation of a run a key was refreshed
last. The list of the tracker is in the order of the last refreshes
(`ranked_runAll`), so what a full store evicts is the key whose last refresh is the
oldest (`evicts_lru`).
-/

namespace MiniStore

open InMemoryStore

/-! ## The rules -/

def Op.key : Op → Option Str
  | .keys _ | .sweepExpired _ => none
  | .get key | .set key _ _ | .del key | .expire key _ | .exists key | .ttl key | .persist key
  | .keyType key | .lpush key _ | .lpop key | .lrange key _ _ | .rpush key _ | .rpop key
  | .llen key | .hset key _ | .hget key _ | .hdel key _ | .hgetall key | .hlen key => some key

/-- Whether the operation refreshes its key, of which `c` is left when it is called: SET
does, and so does what creates the key, reads a string, gives or takes a deadline, or
works on a list or a hash of its kind, apart from an HDEL that removes no field. -/
def Op.refreshes (c : Option Cell) : Op → Bool
  | .set .. => true
  | .get _ => c.any fun c => c.value.type = .string
  | .expire .. => c.isSome
  | .persist _ => c.any fun c => c.deadline.isSome
  | .lpush .. | .rpush .. => c.all fun c => c.value.type = .list
  | .hset .. => c.all fun c => c.value.type = .hash
  | .lpop _ | .rpop _ | .lrange .. | .llen _ => c.any fun c => c.value.type = .list
  | .hget .. | .hgetall _ | .hlen _ => c.any fun c => c.value.type = .hash
  | .hdel _ fields => c.any fun c => c.value.asHash.any fun map => fields.any map.has
  | .del _ | .exists _ | .ttl _ | .keyType _ | .keys _ | .sweepExpired _ => false

/-- The key a call refreshes. -/
def Op.refreshed (s : InMemoryStore) (now : Clock) (op : Op) : Option Str :=
  op.key.filter fun key => op.refreshes (liveAt (now 0) (s.cell key))

def refreshedKeys : InMemoryStore → List (Op × Clock) → List (Option Str)
  | _, [] => []
  | s, (op, now) :: ops => op.refreshed s now :: refreshedKeys (op.run s now).1 ops

/-- The number of the last entry for the key, counted from one; zero if there is none. -/
def lastRefresh (refreshed : List (Option Str)) (key : Str) : Nat :=
  refreshed.length - refreshed.reverse.idxOf (some key)

theorem lastRefresh_append (l : List (Option Str)) (x : Option Str) (key : Str) :
    lastRefresh (l ++ [x]) key = if x = some key then l.length + 1 else lastRefresh l key := by
  unfold lastRefresh
  rw [List.reverse_append, List.reverse_singleton, List.singleton_append, List.length_append,
    List.length_singleton, List.idxOf_cons]
  by_cases e : x = some key
  · simp [e]
  · simp only [beq_eq_false_iff_ne.mpr e, cond_false, if_neg e]
    omega

theorem lastRefresh_le (l : List (Option Str)) (key : Str) : lastRefresh l key ≤ l.length :=
  Nat.sub_le ..

theorem refreshedKeys_append (ops : List (Op × Clock)) (o : Op × Clock) : ∀ s : InMemoryStore,
    refreshedKeys s (ops ++ [o]) =
      refreshedKeys s ops ++ [o.1.refreshed (runAll s ops) o.2] := by
  induction ops with
  | nil => intro s; rfl
  | cons o' ops ih => intro s; exact congrArg (_ :: ·) (ih _)

/-! ## The code follows the rules -/

theorem deleteFields_eq_zero (fields : List Str) : ∀ m : OrdMap Str Str,
    (deleteFields m fields).2 = 0 ↔ fields.any m.has = false := by
  induction fields with
  | nil => intro m; exact ⟨fun _ => rfl, fun _ => rfl⟩
  | cons f fs ih =>
    intro m
    rw [InMemoryStore.deleteFields_cons, List.any_cons]
    cases hf : m.has f with
    | true => simp
    | false =>
      rw [OrdMap.delete_of_not_has hf]
      simpa using ih m

/-- The effect uses its key only if `b`, and keeps it only if not. -/
def InMemoryStore.Effect.Follows (e : Effect) (b : Bool) : Prop :=
  (e.action.Uses → b = true) ∧ (e.action = .keep → b = false)

theorem follows_keep : Effect.Follows .keep false := ⟨False.elim, fun _ => rfl⟩

theorem follows_touch : Effect.Follows .touch true := ⟨fun _ => rfl, fun h => nomatch h⟩

theorem follows_put {v : StoredValue} {d : Option Int} {b : Bool} :
    Effect.Follows (.put v d b) true := ⟨fun _ => rfl, fun h => nomatch h⟩

theorem follows_remove {b : Bool} : Effect.Follows .remove b := ⟨False.elim, fun h => nomatch h⟩

theorem follows_readList {α : Type} {absent : α} {read : List Str → α} (c : Option Cell) :
    (readCell StoredValue.asList absent read c).1.Follows
      (c.any fun c => c.value.type = .list) := by
  rcases c with _ | ⟨_ | _ | _, d⟩
  · exact follows_keep
  · exact follows_keep
  · exact follows_touch
  · exact follows_keep

theorem follows_readHash {α : Type} {absent : α} {read : OrdMap Str Str → α} (c : Option Cell) :
    (readCell StoredValue.asHash absent read c).1.Follows
      (c.any fun c => c.value.type = .hash) := by
  rcases c with _ | ⟨_ | _ | _, d⟩
  · exact follows_keep
  · exact follows_keep
  · exact follows_keep
  · exact follows_touch

theorem follows_pushCell {addAll : List Str → List Str → List Str} {values : List Str}
    (c : Option Cell) :
    (pushCell addAll values c).1.Follows (c.all fun c => c.value.type = .list) := by
  rcases c with _ | ⟨_ | _ | _, d⟩
  · exact follows_put
  · exact follows_keep
  · exact follows_put
  · exact follows_keep

theorem follows_popCell {take : List Str → Option Str × List Str} (c : Option Cell) :
    (popCell take c).1.Follows (c.any fun c => c.value.type = .list) := by
  rcases c with _ | ⟨_ | l | _, d⟩
  · exact follows_keep
  · exact follows_keep
  · simp only [popCell]
    split
    · exact follows_remove
    · exact follows_put
  · exact follows_keep

theorem follows_hsetCell {pairs : List (Str × Str)} (c : Option Cell) :
    (hsetCell pairs c).1.Follows (c.all fun c => c.value.type = .hash) := by
  rcases c with _ | ⟨_ | _ | _, d⟩
  · exact follows_put
  · exact follows_keep
  · exact follows_keep
  · exact follows_put

theorem follows_hdelCell {fields : List Str} (c : Option Cell) :
    (hdelCell fields c).1.Follows
      (c.any fun c => c.value.asHash.any fun map => fields.any map.has) := by
  rcases c with _ | ⟨_ | _ | m, d⟩
  · exact follows_keep
  · exact follows_keep
  · exact follows_keep
  · show Effect.Follows _ (fields.any m.has)
    simp only [hdelCell]
    split
    · exact follows_remove
    · split
      · next h =>
        have : fields.any m.has = true := by
          rw [← Bool.not_eq_false, ← deleteFields_eq_zero]
          omega
        rw [this]
        exact follows_put
      · next h =>
        rw [(deleteFields_eq_zero fields m).mp (by omega)]
        exact follows_keep

section

variable {op : Op} {now : Clock} {key : Str} {f : Option Cell → Effect}

/-- What an operation uses it refreshes, and what it keeps it does not. -/
theorem Op.follows (he : op.effect now = some (key, f)) (c : Option Cell) :
    op.key = some key ∧ (f c).Follows (op.refreshes c) := by
  cases op with
  | set => cases he; exact ⟨rfl, follows_put⟩
  | get =>
    cases he
    refine ⟨rfl, ?_⟩
    rcases c with _ | ⟨_ | _ | _, d⟩
    · exact follows_keep
    · exact follows_touch
    · exact follows_keep
    · exact follows_keep
  | del =>
    cases he
    cases c with
    | none => exact ⟨rfl, follows_keep⟩
    | some c => exact ⟨rfl, follows_remove⟩
  | expire =>
    cases he
    cases c with
    | none => exact ⟨rfl, follows_keep⟩
    | some c => exact ⟨rfl, follows_put⟩
  | persist =>
    cases he
    rcases c with _ | ⟨v, _ | d⟩
    · exact ⟨rfl, follows_keep⟩
    · exact ⟨rfl, follows_keep⟩
    · exact ⟨rfl, follows_put⟩
  | ttl =>
    cases he
    rcases c with _ | ⟨v, _ | d⟩ <;> exact ⟨rfl, follows_keep⟩
  | «exists» | keyType => cases he; exact ⟨rfl, follows_keep⟩
  | lpush | rpush => cases he; exact ⟨rfl, follows_pushCell c⟩
  | lpop | rpop => cases he; exact ⟨rfl, follows_popCell c⟩
  | hset => cases he; exact ⟨rfl, follows_hsetCell c⟩
  | hdel => cases he; exact ⟨rfl, follows_hdelCell c⟩
  | lrange | llen => cases he; exact ⟨rfl, follows_readList c⟩
  | hget | hgetall | hlen => cases he; exact ⟨rfl, follows_readHash c⟩
  | keys => cases he
  | sweepExpired => cases he

end

theorem Op.effect_of_key {op : Op} {key : Str} (h : op.key = some key) (now : Clock) :
    ∃ f, op.effect now = some (key, f) := by
  cases op <;> cases h <;> exact ⟨_, rfl⟩

/-! ## The order of the last refreshes -/

theorem order_purge {s : InMemoryStore} (h : s.Lockstep) (key : Str) (now : Int) :
    (s.purge key now).lru.order.Sublist s.lru.order := by
  rcases purge_cases s key now with e | ⟨e, -⟩
  · rw [e]
  · rw [e]
    exact h.order_removeKey key ▸ List.erase_sublist

theorem order_keysLoop (test : Str → Bool) (now : Clock) : ∀ (ks : List Str) (i : Nat)
    {s : InMemoryStore}, s.Lockstep → (keysLoop test now ks i s).1.lru.order.Sublist s.lru.order
  | [], _, _, _ => List.Sublist.refl _
  | key :: ks, i, _, h =>
    (order_keysLoop test now ks (i + 1) (h.purge key (now i))).trans (order_purge h key (now i))

theorem Op.order_of_no_key {s : InMemoryStore} (h : s.Lockstep) {op : Op} (hk : op.key = none)
    (now : Clock) : (op.run s now).1.lru.order.Sublist s.lru.order := by
  cases op with
  | keys pattern => exact order_keysLoop _ now _ 0 h
  | sweepExpired n =>
    show (s.sweepExpired n now).1.lru.order.Sublist _
    rw [sweepExpired_fst]
    rw [((h.sample n (now 0)).dropped _).order]
    exact List.filter_sublist
  | _ => cases hk

/-- One more operation keeps the tracked keys in the order of their last refreshes. -/
theorem ranked_run {s : InMemoryStore} (h : s.Lockstep) {refreshed : List (Option Str)}
    (hr : s.view.Ranked (lastRefresh refreshed)) (op : Op) (now : Clock) :
    (op.run s now).1.view.Ranked (lastRefresh (refreshed ++ [op.refreshed s now])) := by
  cases hk : op.key with
  | none =>
    have e : op.refreshed s now = none := by rw [Op.refreshed, hk]; rfl
    have hrank : ∀ j, lastRefresh (refreshed ++ [none]) j = lastRefresh refreshed j := fun j => by
      rw [lastRefresh_append, if_neg (by simp)]
    rw [e]
    have := hr.sublist (Op.order_of_no_key h hk now)
    exact this.imp fun hab => by rwa [hrank, hrank]
  | some key =>
    obtain ⟨f, he⟩ := Op.effect_of_key hk now
    obtain ⟨-, huse, hkeep⟩ := Op.follows he (liveAt (now 0) (s.cell key))
    have hp := h.purge key (now 0)
    have e : op.refreshed s now =
        if op.refreshes (liveAt (now 0) (s.cell key)) then some key else none := by
      rw [Op.refreshed, hk, Option.filter_some]
    have hrp : (s.purge key (now 0)).view.Ranked (lastRefresh refreshed) :=
      hr.sublist (order_purge h key (now 0))
    rw [Op.run_effect h he, LruCache.Ranked, hp.view_commit, h.cell_purge_self, e]
    refine LruCache.Ranked.commit hrp hp.view_wf.nodup (fun j hj => ?_) (fun ha => ?_)
      fun ha j _ => ?_
    · rw [lastRefresh_append, if_neg]
      split
      · exact fun e => hj (Option.some.inj e).symm
      · intro e
        cases e
    · rw [hkeep ha, lastRefresh_append, if_neg (by simp)]
    · rw [huse ha, if_pos rfl, lastRefresh_append, if_pos rfl]
      exact Nat.lt_succ_of_le (lastRefresh_le refreshed j)

theorem ranked_runAll (maxKeys : Nat) (hm : 1 ≤ maxKeys) (ops : List (Op × Clock)) :
    (runAll (create maxKeys hm) ops).view.Ranked
      (lastRefresh (refreshedKeys (create maxKeys hm) ops)) := by
  induction ops using List.reverseRecOn with
  | nil => exact List.Pairwise.nil
  | append_singleton ops o ih =>
    rw [runAll_append, refreshedKeys_append]
    exact ranked_run ((lockstep_create maxKeys hm).runAll ops) ih o.1 o.2

/-! ## Evictions -/

/-- What the operation on `key` evicts and what it leaves, given the ranks of the keys:
`s` is the store before it, `s'` the store after it. -/
structure EvictsOldest (rank : Str → Nat) (s s' : InMemoryStore) (key : Str) (now : Clock)
    (victim : Option Str) : Prop where
  /-- There is a victim just when the key is created in a full store. -/
  full : victim.isSome = true ↔ (s.purge key (now 0)).cell key = none ∧ s'.cell key ≠ none ∧
    (s.purge key (now 0)).size = s.maxKeys
  /-- It is another key, and of the stored keys its rank is the lowest. -/
  oldest : ∀ v ∈ victim, v ≠ key ∧ s.cell v ≠ none ∧
    ∀ k, k ≠ key → k ≠ v → s.cell k ≠ none → rank v < rank k
  /-- Of the other keys it alone is lost. -/
  cell : ∀ k, k ≠ key → s'.cell k = if victim = some k then none else s.cell k
  /-- The others keep their places. -/
  order : s'.lru.order.filter (fun k => decide (k ≠ key)) =
    s.lru.order.filter fun k => decide (k ≠ key ∧ victim ≠ some k)

theorem order_purge_filter {s : InMemoryStore} (h : s.Lockstep) (key : Str) (now : Int)
    (p : Str → Prop) [DecidablePred p] :
    (s.purge key now).lru.order.filter (fun k => decide (k ≠ key ∧ p k)) =
      s.lru.order.filter fun k => decide (k ≠ key ∧ p k) := by
  rcases purge_cases s key now with e | ⟨e, -⟩
  · rw [e]
  · have ho : (s.purge key now).lru.order = s.lru.order.erase key := by
      rw [e]; exact h.order_removeKey key
    rw [ho, s.lru.nodup_order.erase_eq_filter, List.filter_filter]
    refine List.filter_congr fun k _ => ?_
    by_cases hk : k = key <;> simp [hk]

theorem evictsOldest_run {rank : Str → Nat} {s : InMemoryStore} (h : s.Lockstep)
    (hr : s.view.Ranked rank) {op : Op} {key : Str} (hk : op.key = some key) (now : Clock) :
    ∃ victim, EvictsOldest rank s (op.run s now).1 key now victim := by
  obtain ⟨f, he⟩ := Op.effect_of_key hk now
  have hp := h.purge key (now 0)
  have hrp : (s.purge key (now 0)).view.Ranked rank := hr.sublist (order_purge h key (now 0))
  have hother : ∀ k, k ≠ key → (s.purge key (now 0)).cell k = s.cell k := fun k hk => by
    rw [h.cell_purge, if_neg hk]
  have hview := hp.view_commit key (now 1) (f ((s.purge key (now 0)).cell key))
  have hfits := Op.effect_fits he ((s.purge key (now 0)).cell key)
  rw [Op.run_effect h he]
  generalize f ((s.purge key (now 0)).cell key) = e at hview hfits ⊢
  generalize (s.purge key (now 0)).commit key (now 1) e = s' at hview ⊢
  refine ⟨(s.purge key (now 0)).view.evicted s.maxKeys key e.action, ?_, fun v hv => ?_,
    fun k hk => ?_, ?_⟩
  · have hw := hp.view_wf
    rw [maxKeys_purge] at hw hview
    have hself : s'.cell key = _ := congrArg (LruCache.cell · key) hview
    rw [hself, InMemoryStore.size, ← hp.length_order]
    exact LruCache.isSome_evicted s.maxKeys_pos hw hfits
  · obtain ⟨-, hv⟩ := LruCache.evicted_eq hv
    obtain ⟨hmem, hnew, -⟩ := LruCache.victim_mem hv
    have hne : v ≠ key := fun e => hnew (e ▸ hmem)
    refine ⟨hne, ?_, fun k hk hkv hstored => ?_⟩
    · rw [← hother v hne]
      exact (hp.view_wf.mem v).mp hmem
    · rw [← hother k hk] at hstored
      exact hrp.victim hv ((hp.view_wf.mem k).mpr hstored) hkv
  · rw [← hother k hk, ← maxKeys_purge s key (now 0)]
    exact (congrArg (LruCache.cell · k) hview).trans (LruCache.cell_commit_eq hk _)
  · have ho : s'.lru.order = _ := congrArg LruCache.order hview
    rw [maxKeys_purge] at ho
    rw [ho, LruCache.order_commit_filter hp.view_wf.nodup]
    exact order_purge_filter h key (now 0) _

/-- For every capacity, every run of operations from a new store and every next
operation, whatever the clock. The tracked keys are in the order of their last
refreshes. An operation on one key evicts exactly when it creates the key, the key
itself having expired if it was due, while there are `maxKeys` keys: then it removes one
other key, of all the stored ones the one whose last refresh is the oldest. All others
keep value, deadline and place. KEYS and a sweep remove only what is due, and the rest
keeps its places. -/
theorem evicts_lru (maxKeys : Nat) (hm : 1 ≤ maxKeys) (ops : List (Op × Clock)) (op : Op)
    (now : Clock) (s : InMemoryStore) (hs : s = runAll (create maxKeys hm) ops) :
    (s.lru.order.Pairwise fun a b => lastRefresh (refreshedKeys (create maxKeys hm) ops) b <
      lastRefresh (refreshedKeys (create maxKeys hm) ops) a) ∧
    (∀ key, op.key = some key → ∃ victim,
      EvictsOldest (lastRefresh (refreshedKeys (create maxKeys hm) ops)) s (op.run s now).1 key now
        victim) ∧
    (op.key = none →
      (∀ k, (op.run s now).1.cell k = s.cell k ∨
        (op.run s now).1.cell k = none ∧ ∃ i, liveAt (now i) (s.cell k) = none) ∧
      (op.run s now).1.lru.order.Sublist s.lru.order) := by
  have h : s.Lockstep := hs ▸ (lockstep_create maxKeys hm).runAll ops
  have hr := hs ▸ ranked_runAll maxKeys hm ops
  refine ⟨hr, fun key hk => evictsOldest_run h hr hk now, fun hk => ⟨fun k => ?_,
    Op.order_of_no_key h hk now⟩⟩
  have hd : Decays (fun t => ∃ i, now i = t) s (op.run s now).1 := by
    cases op with
    | keys pattern => exact h.decays_keys pattern fun i => ⟨i, rfl⟩
    | sweepExpired n => exact h.decays_sweepExpired n ⟨0, rfl⟩
    | _ => cases hk
  rcases hd.cell k with e | ⟨e, t, ⟨i, rfl⟩, hl⟩
  · exact .inl e
  · exact .inr ⟨e, i, hl⟩

def readThenFull : List (Op × Clock) :=
  [(.set ['a'] ['x'] none, Clock.still 0), (.set ['b'] ['x'] none, Clock.still 1),
    (.get ['a'], Clock.still 2)]

theorem evicts_lru_read : ∃ victim,
    EvictsOldest (lastRefresh (refreshedKeys (create 2 (by decide)) readThenFull))
      (runAll (create 2 (by decide)) readThenFull)
      (Op.run (runAll (create 2 (by decide)) readThenFull) (Clock.still 3)
        (.rpush ['c'] [['y']])).1 ['c'] (Clock.still 3) victim :=
  (evicts_lru 2 (by decide) readThenFull (.rpush ['c'] [['y']]) (Clock.still 3) _ rfl).2.1 _ rfl

end MiniStore
