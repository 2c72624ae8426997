import MiniStore.Store.Operations

/-!
# The lockstep invariant over whole runs

`Op` lists the public operations and `Op.run` applies one. `Op.effect` gives the
key and the cell function of an operation, and `Op.run_cases` says once what an
operation can do to the store: it acts on one key after its gate, or it only drops
keys that are due. The invariants follow from it:

* `Lockstep.runAll`: `#values`, `#lru` and `#expiry` never drift apart;
* `NoEmpty.runAll`: no empty list or hash is stored;
* `lockstep_reachable`: both, for every state reachable from a new store, and a
  key that is created again carries no deadline.
-/

namespace MiniStore

open InMemoryStore

/-- The public operations, with their arguments. -/
inductive Op where
  | get (key : Str)
  | set (key value : Str) (ttlSeconds : Option Nat)
  | del (key : Str)
  | expire (key : Str) (seconds : Nat)
  | exists (key : Str)
  | ttl (key : Str)
  | persist (key : Str)
  | keys (pattern : Str)
  | keyType (key : Str)
  | lpush (key : Str) (values : List Str)
  | lpop (key : Str)
  | lrange (key : Str) (start stop : Int)
  | rpush (key : Str) (values : List Str)
  | rpop (key : Str)
  | llen (key : Str)
  | hset (key : Str) (pairs : List (Str × Str))
  | hget (key field : Str)
  | hdel (key : Str) (fields : List Str)
  | hgetall (key : Str)
  | hlen (key : Str)
  | sweepExpired (sampleSize : Int)
  deriving DecidableEq

/-- The result of an operation. -/
inductive OpResult where
  | done
  | found (value : Option Str)
  | flag (b : Bool)
  | number (n : Int)
  | kind (type : Option ValueType)
  | names (keys : List Str)
  | count (n : StoreResult Nat)
  | item (value : StoreResult (Option Str))
  | items (values : StoreResult (List Str))
  deriving DecidableEq

namespace Op

def run (s : InMemoryStore) (now : Clock) : Op → InMemoryStore × OpResult
  | get key => (s.get key now).map id .found
  | set key value ttlSeconds => (s.set key value ttlSeconds now, .done)
  | del key => (s.del key now).map id .flag
  | expire key seconds => (s.expire key seconds now).map id .flag
  | .exists key => (s.exists key now).map id .flag
  | ttl key => (s.ttl key now).map id .number
  | persist key => (s.persist key now).map id .flag
  | keys pattern => (s.keys pattern now).map id .names
  | keyType key => (s.keyType key now).map id .kind
  | lpush key values => (s.lpush key values now).map id .count
  | lpop key => (s.lpop key now).map id .item
  | lrange key start stop => (s.lrange key start stop now).map id .items
  | rpush key values => (s.rpush key values now).map id .count
  | rpop key => (s.rpop key now).map id .item
  | llen key => (s.llen key now).map id .count
  | hset key pairs => (s.hset key pairs now).map id .count
  | hget key field => (s.hget key field now).map id .item
  | hdel key fields => (s.hdel key fields now).map id .count
  | hgetall key => (s.hgetall key now).map id .items
  | hlen key => (s.hlen key now).map id .count
  | sweepExpired n => ((s.sweepExpired n now).1, .number (s.sweepExpired n now).2)

/-- At least one value, pair or field where the operation takes a list of them. -/
def HasArguments : Op → Prop
  | lpush _ values | rpush _ values => values ≠ []
  | hset _ pairs => pairs ≠ []
  | hdel _ fields => fields ≠ []
  | _ => True

end Op

/-- One operation after the other, each with its own clock. -/
def runAll (s : InMemoryStore) (ops : List (Op × Clock)) : InMemoryStore :=
  ops.foldl (fun s o => (o.1.run s o.2).1) s

theorem runAll_append (s : InMemoryStore) (ops ops' : List (Op × Clock)) :
    runAll s (ops ++ ops') = runAll (runAll s ops) ops' := List.foldl_append

/-! ## Values that are not empty -/

def StoredValue.NonEmpty : StoredValue → Prop
  | .string _ => True
  | .list l => l ≠ []
  | .hash m => m.size ≠ 0

def Cell.NonEmpty (c : Option Cell) : Prop := ∀ c' ∈ c, c'.value.NonEmpty

/-- The effect stores no empty value. -/
def InMemoryStore.Effect.Full : Effect → Prop
  | .put v _ _ => v.NonEmpty
  | _ => True

theorem unshiftAll_eq (values : List Str) : ∀ l, unshiftAll l values = values.reverse ++ l := by
  induction values with
  | nil => intro l; rfl
  | cons v vs ih =>
    intro l
    show unshiftAll (v :: l) vs = _
    rw [ih, List.reverse_cons, List.append_assoc]; rfl

theorem pushAll_eq (values : List Str) : ∀ l, pushAll l values = l ++ values := by
  induction values with
  | nil => intro l; exact (List.append_nil l).symm
  | cons v vs ih =>
    intro l
    show pushAll (l ++ [v]) vs = _
    rw [ih, List.append_assoc]; rfl

theorem setPairs_foldl (pairs : List (Str × Str)) : ∀ (m : OrdMap Str Str) (n : Nat),
    pairs.foldl (fun (m, added) (field, value) =>
      (m.set field value, if m.has field then added else added + 1)) (m, n) =
        ((setPairs m pairs).1, n + (setPairs m pairs).2) := by
  induction pairs with
  | nil => intro m n; rfl
  | cons p ps ih =>
    intro m n
    unfold setPairs
    simp only [List.foldl_cons]
    rw [ih, ih]
    split
    · simp
    · simp; omega

theorem setPairs_cons (m : OrdMap Str Str) (p : Str × Str) (ps : List (Str × Str)) :
    setPairs m (p :: ps) =
      ((setPairs (m.set p.1 p.2) ps).1,
        (if m.has p.1 then 0 else 1) + (setPairs (m.set p.1 p.2) ps).2) := by
  rw [setPairs, List.foldl_cons, setPairs_foldl]

theorem size_setPairs (pairs : List (Str × Str)) : ∀ m : OrdMap Str Str,
    (setPairs m pairs).1.size = m.size + (setPairs m pairs).2 := by
  induction pairs with
  | nil => intro m; rfl
  | cons p ps ih =>
    intro m
    rw [setPairs_cons, ih]
    cases hp : m.has p.1 with
    | true => simp [OrdMap.size_set_of_has hp]
    | false => simp [OrdMap.size_set_of_new hp]; omega

theorem size_setPairs_pos {m : OrdMap Str Str} {pairs : List (Str × Str)} (hp : pairs ≠ []) :
    (setPairs m pairs).1.size ≠ 0 := by
  cases pairs with
  | nil => exact absurd rfl hp
  | cons p ps =>
    have hpos : 0 < (m.set p.1 p.2).size := by
      have hm : p.1 ∈ (m.set p.1 p.2).keys := OrdMap.mem_keys_set.mpr (.inl rfl)
      rw [← OrdMap.length_keys]
      exact List.length_pos_of_mem hm
    rw [setPairs_cons, size_setPairs]
    omega

/-! ## What an operation can do -/

theorem fits_pushCell {addAll : List Str → List Str → List Str} {values : List Str}
    (c : Option Cell) : (pushCell addAll values c).1.Fits c := by
  rcases c with _ | ⟨_ | _ | _, _⟩ <;> trivial

theorem fits_popCell {take : List Str → Option Str × List Str} (c : Option Cell) :
    (popCell take c).1.Fits c := by
  rcases c with _ | ⟨_ | l | _, _⟩
  · trivial
  · trivial
  · by_cases h : (take l).2 = [] <;> simp [popCell, h, Effect.Fits, Effect.action,
      LruCache.Action.Fits]
  · trivial

theorem fits_readCell {α β : Type} {payload : StoredValue → Option β} {absent : α} {read : β → α}
    (c : Option Cell) : (readCell payload absent read c).1.Fits c := by
  cases c with
  | none => trivial
  | some c =>
    simp only [readCell]
    cases payload c.value <;> simp [Effect.Fits, Effect.action, LruCache.Action.Fits]

theorem fits_hsetCell {pairs : List (Str × Str)} (c : Option Cell) :
    (hsetCell pairs c).1.Fits c := by
  rcases c with _ | ⟨_ | _ | _, _⟩ <;> trivial

theorem fits_hdelCell {fields : List Str} (c : Option Cell) : (hdelCell fields c).1.Fits c := by
  rcases c with _ | ⟨_ | _ | m, _⟩
  · trivial
  · trivial
  · trivial
  · simp only [hdelCell]
    split
    · simp [Effect.Fits, Effect.action, LruCache.Action.Fits]
    · split <;> trivial

theorem fits_getCell (c : Option Cell) : (getCell c).1.Fits c := by
  rcases c with _ | ⟨_ | _ | _, _⟩ <;> simp [getCell, Effect.Fits, Effect.action,
    LruCache.Action.Fits]

theorem fits_delCell (c : Option Cell) : (delCell c).1.Fits c := by
  cases c <;> simp [delCell, Effect.Fits, Effect.action, LruCache.Action.Fits]

theorem fits_expireCell {d : Int} (c : Option Cell) : (expireCell d c).1.Fits c := by
  cases c <;> trivial

theorem fits_ttlCell {t : Int} (c : Option Cell) : (ttlCell t c).1.Fits c := by
  rcases c with _ | ⟨_, _ | _⟩ <;> trivial

theorem fits_persistCell (c : Option Cell) : (persistCell c).1.Fits c := by
  rcases c with _ | ⟨_, _ | _⟩ <;> trivial

theorem full_pushCell {addAll : List Str → List Str → List Str} {values : List Str}
    (ha : ∀ l, addAll l values ≠ []) (c : Option Cell) : (pushCell addAll values c).1.Full := by
  rcases c with _ | ⟨_ | _ | _, _⟩
  · exact ha _
  · trivial
  · exact ha _
  · trivial

theorem full_popCell {take : List Str → Option Str × List Str} (c : Option Cell) :
    (popCell take c).1.Full := by
  rcases c with _ | ⟨_ | l | _, _⟩
  · trivial
  · trivial
  · by_cases h : (take l).2 = []
    · simp only [popCell, if_pos h]; trivial
    · simp only [popCell, if_neg h]; exact h
  · trivial

theorem full_readCell {α β : Type} {payload : StoredValue → Option β} {absent : α} {read : β → α}
    (c : Option Cell) : (readCell payload absent read c).1.Full := by
  cases c with
  | none => trivial
  | some c => simp only [readCell]; split <;> trivial

theorem full_hsetCell {pairs : List (Str × Str)} (hp : pairs ≠ []) (c : Option Cell) :
    (hsetCell pairs c).1.Full := by
  rcases c with _ | ⟨_ | _ | m, _⟩
  · exact size_setPairs_pos hp
  · trivial
  · trivial
  · exact size_setPairs_pos hp

theorem full_hdelCell {fields : List Str} (c : Option Cell) : (hdelCell fields c).1.Full := by
  rcases c with _ | ⟨_ | _ | m, _⟩
  · trivial
  · trivial
  · trivial
  · by_cases h : (deleteFields m fields).1.size = 0
    · simp only [hdelCell, if_pos h]; trivial
    · simp only [hdelCell, if_neg h]
      split
      · exact h
      · trivial

theorem full_getCell (c : Option Cell) : (getCell c).1.Full := by
  rcases c with _ | ⟨_ | _ | _, _⟩ <;> trivial

theorem full_delCell (c : Option Cell) : (delCell c).1.Full := by cases c <;> trivial

theorem full_expireCell {d : Int} {c : Option Cell} (hc : Cell.NonEmpty c) :
    (expireCell d c).1.Full := by
  cases c with
  | none => trivial
  | some c => exact hc c rfl

theorem full_ttlCell {t : Int} (c : Option Cell) : (ttlCell t c).1.Full := by
  rcases c with _ | ⟨_, _ | _⟩ <;> trivial

theorem full_persistCell {c : Option Cell} (hc : Cell.NonEmpty c) : (persistCell c).1.Full := by
  rcases c with _ | ⟨v, _ | _⟩
  · trivial
  · trivial
  · exact hc _ rfl

theorem unshiftAll_ne_nil {values : List Str} (h : values ≠ []) (l : List Str) :
    unshiftAll l values ≠ [] := by rw [unshiftAll_eq]; simp [h]

theorem pushAll_ne_nil {values : List Str} (h : values ≠ []) (l : List Str) :
    pushAll l values ≠ [] := by rw [pushAll_eq]; simp [h]

/-- Of an operation on one key, the key and the effect on its cell. -/
def Op.effect (now : Clock) : Op → Option (Str × (Option Cell → Effect))
  | get key => some (key, fun c => (getCell c).1)
  | set key value ttlSeconds =>
    some (key, fun c => (setCell value (ttlSeconds.map fun n => now 2 + n * 1000) c).1)
  | del key => some (key, fun c => (delCell c).1)
  | expire key seconds => some (key, fun c => (expireCell (now 1 + seconds * 1000) c).1)
  | .exists key => some (key, fun c => (existsCell c).1)
  | ttl key => some (key, fun c => (ttlCell (now 1) c).1)
  | persist key => some (key, fun c => (persistCell c).1)
  | keyType key => some (key, fun c => (keyTypeCell c).1)
  | lpush key values => some (key, fun c => (pushCell unshiftAll values c).1)
  | rpush key values => some (key, fun c => (pushCell pushAll values c).1)
  | lpop key => some (key, fun c => (popCell shift c).1)
  | rpop key => some (key, fun c => (popCell pop c).1)
  | lrange key start stop =>
    some (key, fun c => (readCell StoredValue.asList [] (slice start stop) c).1)
  | llen key => some (key, fun c => (readCell StoredValue.asList 0 List.length c).1)
  | hset key pairs => some (key, fun c => (hsetCell pairs c).1)
  | hdel key fields => some (key, fun c => (hdelCell fields c).1)
  | hget key field => some (key, fun c => (readCell StoredValue.asHash none (·.get? field) c).1)
  | hgetall key =>
    some (key, fun c => (readCell StoredValue.asHash []
      (fun map => map.entries.flatMap fun e => [e.1, e.2]) c).1)
  | hlen key => some (key, fun c => (readCell StoredValue.asHash 0 OrdMap.size c).1)
  | keys _ | sweepExpired _ => none

section

variable {s : InMemoryStore} {now : Clock} {op : Op} {key : Str} {f : Option Cell → Effect}

theorem Op.run_effect (h : s.Lockstep) (he : op.effect now = some (key, f)) :
    (op.run s now).1 =
      (s.purge key (now 0)).commit key (now 1) (f ((s.purge key (now 0)).cell key)) := by
  cases op with
  | get => cases he; exact congrArg Prod.fst (get_eq _ now s)
  | set => cases he; exact set_eq _ now s _ _
  | del => cases he; exact congrArg Prod.fst (del_eq _ now s)
  | expire => cases he; exact congrArg Prod.fst (expire_eq _ now s _)
  | «exists» => cases he; exact congrArg Prod.fst (InMemoryStore.exists_eq _ now s)
  | ttl => cases he; exact congrArg Prod.fst (ttl_eq _ now s)
  | persist => cases he; exact congrArg Prod.fst (persist_eq _ now s)
  | keyType => cases he; exact congrArg Prod.fst (keyType_eq _ now s)
  | lpush => cases he; exact congrArg Prod.fst (lpush_eq h _ now _)
  | rpush => cases he; exact congrArg Prod.fst (rpush_eq h _ now _)
  | lpop => cases he; exact congrArg Prod.fst (lpop_eq _ now s)
  | rpop => cases he; exact congrArg Prod.fst (rpop_eq _ now s)
  | hset => cases he; exact congrArg Prod.fst (hset_eq h _ now _)
  | hdel => cases he; exact congrArg Prod.fst (hdel_eq _ now s _)
  | lrange | llen | hget | hgetall | hlen =>
    cases he; exact congrArg Prod.fst (readAs_eq _ now _ _ _ s)
  | keys => cases he
  | sweepExpired => cases he

theorem Op.run_decays (h : s.Lockstep) (he : op.effect now = none) :
    Decays (fun _ => True) s (op.run s now).1 := by
  cases op with
  | keys pattern => exact h.decays_keys pattern fun _ => trivial
  | sweepExpired n => exact h.decays_sweepExpired n trivial
  | _ => cases he

theorem Op.effect_fits (he : op.effect now = some (key, f)) (c : Option Cell) : (f c).Fits c := by
  cases op with
  | get => cases he; exact fits_getCell c
  | del => cases he; exact fits_delCell c
  | expire => cases he; exact fits_expireCell c
  | ttl => cases he; exact fits_ttlCell c
  | persist => cases he; exact fits_persistCell c
  | lpush | rpush => cases he; exact fits_pushCell c
  | lpop | rpop => cases he; exact fits_popCell c
  | hset => cases he; exact fits_hsetCell c
  | hdel => cases he; exact fits_hdelCell c
  | lrange | llen | hget | hgetall | hlen => cases he; exact fits_readCell c
  | set | «exists» | keyType => cases he; trivial
  | keys => cases he
  | sweepExpired => cases he

/-- Given its arguments, an operation leaves no empty value. -/
theorem Op.effect_full (he : op.effect now = some (key, f)) (ha : op.HasArguments)
    {c : Option Cell} (hc : Cell.NonEmpty c) : (f c).Full := by
  cases op with
  | get => cases he; exact full_getCell c
  | del => cases he; exact full_delCell c
  | expire => cases he; exact full_expireCell hc
  | ttl => cases he; exact full_ttlCell c
  | persist => cases he; exact full_persistCell hc
  | lpush => cases he; exact full_pushCell (unshiftAll_ne_nil ha) c
  | rpush => cases he; exact full_pushCell (pushAll_ne_nil ha) c
  | lpop | rpop => cases he; exact full_popCell c
  | hset => cases he; exact full_hsetCell ha c
  | hdel => cases he; exact full_hdelCell c
  | lrange | llen | hget | hgetall | hlen => cases he; exact full_readCell c
  | set | «exists» | keyType => cases he; trivial
  | keys => cases he
  | sweepExpired => cases he

/-- An operation acts on one key, or drops keys that are due. -/
theorem Op.run_cases (h : s.Lockstep) (op : Op) (now : Clock) :
    (∃ key f, op.effect now = some (key, f) ∧ (op.run s now).1 =
        (s.purge key (now 0)).commit key (now 1) (f ((s.purge key (now 0)).cell key))) ∨
      op.effect now = none ∧ Decays (fun _ => True) s (op.run s now).1 := by
  cases he : op.effect now with
  | none => exact .inr ⟨rfl, Op.run_decays h he⟩
  | some e => exact .inl ⟨e.1, e.2, rfl, Op.run_effect h he⟩

end

namespace InMemoryStore

/-! ## The invariants -/

theorem Lockstep.run {s : InMemoryStore} (h : s.Lockstep) (op : Op) (now : Clock) :
    (op.run s now).1.Lockstep := by
  rcases op.run_cases h now with ⟨key, f, he, hs⟩ | ⟨-, hd⟩
  · rw [hs]; exact (h.purge key (now 0)).commit (now 1) (Op.effect_fits he _)
  · exact hd.lockstep

theorem maxKeys_run {s : InMemoryStore} (h : s.Lockstep) (op : Op) (now : Clock) :
    (op.run s now).1.maxKeys = s.maxKeys := by
  rcases op.run_cases h now with ⟨key, f, he, hs⟩ | ⟨-, hd⟩
  · rw [hs, maxKeys_commit (h.purge key (now 0)), maxKeys_purge]
  · exact hd.maxKeys

theorem Lockstep.runAll {s : InMemoryStore} (h : s.Lockstep) (ops : List (Op × Clock)) :
    (runAll s ops).Lockstep := by
  induction ops generalizing s with
  | nil => exact h
  | cons o ops ih => exact ih (h.run o.1 o.2)

theorem maxKeys_runAll {s : InMemoryStore} (h : s.Lockstep) (ops : List (Op × Clock)) :
    (runAll s ops).maxKeys = s.maxKeys := by
  induction ops generalizing s with
  | nil => rfl
  | cons o ops ih => exact (ih (h.run o.1 o.2)).trans (maxKeys_run h o.1 o.2)

def NoEmpty (s : InMemoryStore) : Prop := ∀ k, Cell.NonEmpty (s.cell k)

theorem Decays.noEmpty {T : Int → Prop} {s s' : InMemoryStore} (h : Decays T s s') (hn : NoEmpty s) :
    NoEmpty s' := by
  intro k c hc
  rcases h.cell k with e | ⟨e, -⟩
  · exact hn k c (e ▸ hc)
  · rw [e] at hc; cases hc

theorem NoEmpty.commit {s : InMemoryStore} (hn : NoEmpty s) (h : s.Lockstep) {key : Str}
    {now : Int} {e : Effect} (he : e.Full) : NoEmpty (s.commit key now e) := by
  intro k c hc
  by_cases hk : k = key
  · subst hk
    rw [h.cell_commit_self] at hc
    cases e with
    | keep => exact hn k c hc
    | touch => exact hn k c hc
    | put v d b => cases hc; exact he
    | remove => cases hc
  · have hv := congrArg (LruCache.cell · k) (h.view_commit key now e)
    rcases LruCache.cell_commit_other hk e.action with e' | ⟨-, -, e'⟩
    · exact hn k c ((hv.trans e').symm.trans hc)
    · rw [show (s.commit key now e).cell k = none from hv.trans e'] at hc; cases hc

theorem NoEmpty.run {s : InMemoryStore} (hn : NoEmpty s) (h : s.Lockstep) {op : Op} {now : Clock}
    (ha : op.HasArguments) : NoEmpty (op.run s now).1 := by
  rcases op.run_cases h now with ⟨key, f, he, hs⟩ | ⟨-, hd⟩
  · have hp : NoEmpty (s.purge key (now 0)) :=
      (h.decays_purge (T := fun _ => True) key trivial).noEmpty hn
    rw [hs]
    exact hp.commit (h.purge key (now 0)) (Op.effect_full he ha (hp key))
  · exact hd.noEmpty hn

theorem NoEmpty.runAll {s : InMemoryStore} (hn : NoEmpty s) (h : s.Lockstep)
    {ops : List (Op × Clock)} (ha : ∀ o ∈ ops, o.1.HasArguments) : NoEmpty (runAll s ops) := by
  induction ops generalizing s with
  | nil => exact hn
  | cons o ops ih =>
    exact ih (hn.run h (ha o List.mem_cons_self)) (h.run o.1 o.2) fun o' ho' =>
      ha o' (List.mem_cons_of_mem _ ho')

/-! ## Created keys -/

/-- A key that is absent or due, and that a push or HSET creates, has no deadline. -/
def Forgets (s : InMemoryStore) (op : Op) (key : Str) : Prop :=
  ∀ now : Clock, liveAt (now 0) (s.cell key) = none →
    (op.run s now).1.expiry.deadline key = none

theorem forgets_perform {α : Type} {s : InMemoryStore} (h : s.Lockstep) {key : Str} {now : Clock}
    {f : Option Cell → Effect × α}
    (hd : ∃ v b, (f none).1 = .put v none b) (hl : liveAt (now 0) (s.cell key) = none) :
    (s.perform key now f).1.expiry.deadline key = none := by
  obtain ⟨v, b, hv⟩ := hd
  have hc : (s.perform key now f).1.cell key = _ := h.cell_perform_self
  rw [hl, hv] at hc
  exact (get?_of_cell hc).2

theorem Lockstep.forgets {s : InMemoryStore} (h : s.Lockstep) (key : Str) :
    (∀ values, Forgets s (.lpush key values) key) ∧ (∀ values, Forgets s (.rpush key values) key) ∧
      ∀ pairs, Forgets s (.hset key pairs) key := by
  refine ⟨fun values now hl => ?_, fun values now hl => ?_, fun pairs now hl => ?_⟩
  · show (s.lpush key values now).1.expiry.deadline key = none
    rw [lpush_eq h]
    exact forgets_perform h ⟨_, _, rfl⟩ hl
  · show (s.rpush key values now).1.expiry.deadline key = none
    rw [rpush_eq h]
    exact forgets_perform h ⟨_, _, rfl⟩ hl
  · show (s.hset key pairs now).1.expiry.deadline key = none
    rw [hset_eq h]
    exact forgets_perform h ⟨_, _, rfl⟩ hl

/-- Every state reachable from a new store by public operations, whatever the
clock: the tracked keys are the stored keys, each once; deadlines belong to
stored keys; there are at most `maxKeys` keys; no list or hash is empty; and a
key that a push or HSET creates, having been removed in whatever way before,
carries no deadline. -/
theorem lockstep_reachable (maxKeys : Nat) (hm : 1 ≤ maxKeys) (ops : List (Op × Clock))
    (ha : ∀ o ∈ ops, o.1.HasArguments) (s : InMemoryStore)
    (hs : s = runAll (create maxKeys hm) ops) :
    (∀ k, s.lru.has k = s.values.has k) ∧ s.lru.order.Nodup ∧
      (∀ k, k ∈ s.lru.order ↔ k ∈ s.values.keys) ∧
      (∀ k, s.expiry.has k = true → s.values.has k = true) ∧
      s.size ≤ maxKeys ∧
      (∀ k v, s.values.get? k = some v → v.NonEmpty) ∧
      ∀ key, (∀ values, Forgets s (.lpush key values) key) ∧
        (∀ values, Forgets s (.rpush key values) key) ∧ ∀ pairs, Forgets s (.hset key pairs) key := by
  have h0 := lockstep_create maxKeys hm
  have h : s.Lockstep := hs ▸ h0.runAll ops
  have hn : NoEmpty s := hs ▸ NoEmpty.runAll (fun _ _ hc => by cases hc) h0 ha
  have hmax : s.maxKeys = maxKeys := by rw [hs, maxKeys_runAll h0]; rfl
  refine ⟨fun k => ?_, s.lru.nodup_order, fun k => ?_, fun k hk => ?_, hmax ▸ h.size_le,
    fun k v hv => ?_, h.forgets⟩
  · rw [Bool.eq_iff_iff, ← LRUTracker.mem_order, h.tracked]
  · rw [h.tracked, OrdMap.mem_keys_iff_has]
  · rw [ExpiryManager.has_eq, Option.isSome_iff_exists] at hk
    obtain ⟨d, hd⟩ := hk
    exact h.deadlines k d hd
  · exact hn k _ (cell_of_get? hv)

theorem lockstep_reachable_eviction :
    (runAll (create 1 (by decide)) [(.set ['a'] ['x'] (some 5), Clock.still 0),
      (.rpush ['b'] [['y']], Clock.still 1000)]).size ≤ 1 :=
  (lockstep_reachable 1 (by decide) [(.set ['a'] ['x'] (some 5), Clock.still 0),
    (.rpush ['b'] [['y']], Clock.still 1000)] (by simp [Op.HasArguments]) _ rfl).2.2.2.2.1

end InMemoryStore

end MiniStore
