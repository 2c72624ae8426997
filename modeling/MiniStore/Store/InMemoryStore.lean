import MiniStore.Store.LRUTracker
import MiniStore.Store.ExpiryManager

/-!
# InMemoryStore

The store coordinates `#values` (key to tagged value), `#lru` (recency) and
`#expiry` (deadlines). Every public operation is translated as a function from
a store to a store and a result.

An operation reads the clock at fixed places of its body; a `Clock` gives the
reading at each place in order, so an arbitrary clock is an arbitrary function.
`notified` records the calls of `onExpired` and `onEvicted`.
-/

namespace MiniStore

/-- The successive readings of `now()` during one operation. -/
abbrev Clock := Nat → Int

def Clock.still (t : Int) : Clock := fun _ => t

inductive ValueType where
  | string | list | hash
  deriving DecidableEq

/-- A stored value tagged by kind. Lists keep the head at index 0. -/
inductive StoredValue where
  | string (value : Str)
  | list (value : List Str)
  | hash (value : OrdMap Str Str)
  deriving DecidableEq

def StoredValue.type : StoredValue → ValueType
  | string _ => .string
  | list _ => .list
  | hash _ => .hash

def StoredValue.asList : StoredValue → Option (List Str)
  | list value => some value
  | _ => none

def StoredValue.asHash : StoredValue → Option (OrdMap Str Str)
  | hash value => some value
  | _ => none

inductive StoreError where
  | WRONGTYPE
  deriving DecidableEq

abbrev StoreResult (α : Type) := Except StoreError α

/-- A call of one of the two listeners. -/
inductive Notification where
  | expired (key : Str)
  | evicted (key : Str)
  deriving DecidableEq

/-- The constructor rejects `maxKeys < 1`. -/
structure InMemoryStore where
  values : OrdMap Str StoredValue
  lru : LRUTracker
  expiry : ExpiryManager
  maxKeys : Nat
  maxKeys_pos : 1 ≤ maxKeys
  evictionCount : Nat
  dirtyCount : Nat
  notified : List Notification
  deriving DecidableEq

namespace InMemoryStore

def create (maxKeys : Nat) (h : 1 ≤ maxKeys) : InMemoryStore :=
  ⟨OrdMap.empty, LRUTracker.empty, ExpiryManager.empty, maxKeys, h, 0, 0, []⟩

def size (s : InMemoryStore) : Nat := s.values.size

/-! ## Internals -/

def onExpired (s : InMemoryStore) (key : Str) : InMemoryStore :=
  { s with notified := s.notified ++ [.expired key] }

def onEvicted (s : InMemoryStore) (key : Str) : InMemoryStore :=
  { s with notified := s.notified ++ [.evicted key] }

def touch (s : InMemoryStore) (key : Str) : InMemoryStore := { s with lru := s.lru.touch key }

def markDirty (s : InMemoryStore) : InMemoryStore := { s with dirtyCount := s.dirtyCount + 1 }

/-- Store a payload under a key: a new entry, or the entry mutated in place. -/
def put (s : InMemoryStore) (key : Str) (value : StoredValue) : InMemoryStore :=
  { s with values := s.values.set key value }

/-- The one place a key is removed. -/
def removeKey (s : InMemoryStore) (key : Str) : InMemoryStore :=
  if s.values.has key then
    { s.markDirty with
      values := s.values.delete key
      lru := s.lru.delete key
      expiry := s.expiry.clear key }
  else s

/-- The lazy-expiry gate: remove `key` if it is past its deadline. -/
def expireIfNeeded (s : InMemoryStore) (key : Str) (now : Int) : InMemoryStore × Bool :=
  if s.values.has key then
    if s.expiry.isExpired key now then ((s.removeKey key).onExpired key, true) else (s, false)
  else (s, false)

def makeRoomForNewKey (s : InMemoryStore) (now : Int) : InMemoryStore :=
  match s.lru.peekLRU with
  | none => s
  | some victim =>
    if s.expiry.isExpired victim now then (s.removeKey victim).onExpired victim
    else { s.removeKey victim with evictionCount := s.evictionCount + 1 }.onEvicted victim

def reserveSlotFor (s : InMemoryStore) (key : Str) (now : Int) : InMemoryStore :=
  if !s.values.has key && s.values.size ≥ s.maxKeys then s.makeRoomForNewKey now else s

/-- `#pushNewList` and `#pushNewListTail`, given the list they build. -/
def pushNew (s : InMemoryStore) (key : Str) (list : List Str) (now : Int) :
    InMemoryStore × StoreResult Nat :=
  (((s.reserveSlotFor key now).put key (.list list)).touch key, .ok list.length)

def unshiftAll (list values : List Str) : List Str := values.foldl (fun l v => v :: l) list

def pushAll (list values : List Str) : List Str := values.foldl (fun l v => l ++ [v]) list

def pushNewList (s : InMemoryStore) (key : Str) (values : List Str) (now : Int) :
    InMemoryStore × StoreResult Nat :=
  s.pushNew key (unshiftAll [] values) now

def pushNewListTail (s : InMemoryStore) (key : Str) (values : List Str) (now : Int) :
    InMemoryStore × StoreResult Nat :=
  s.pushNew key (pushAll [] values) now

def createHash (s : InMemoryStore) (key : Str) (now : Int) : InMemoryStore :=
  (s.reserveSlotFor key now).put key (.hash OrdMap.empty)

/-! ## Strings and keys -/

def get (s : InMemoryStore) (key : Str) (now : Clock) : InMemoryStore × Option Str :=
  match s.expireIfNeeded key (now 0) with
  | (s, true) => (s, none)
  | (s, false) =>
    match s.values.get? key with
    | some (.string value) => (s.touch key, some value) -- read counts as a use
    | _ => (s, none)

def set (s : InMemoryStore) (key value : Str) (ttlSeconds : Option Nat) (now : Clock) :
    InMemoryStore :=
  let s := (s.expireIfNeeded key (now 0)).1
  let s := (((s.reserveSlotFor key (now 1)).put key (.string value)).touch key).markDirty
  match ttlSeconds with
  | some seconds => { s with expiry := s.expiry.set key (now 2 + seconds * 1000) }
  | none => { s with expiry := s.expiry.clear key } -- plain SET drops any prior TTL

def del (s : InMemoryStore) (key : Str) (now : Clock) : InMemoryStore × Bool :=
  let s := (s.expireIfNeeded key (now 0)).1 -- an already-expired key counts as absent
  if s.values.has key then (s.removeKey key, true) else (s, false)

def expire (s : InMemoryStore) (key : Str) (seconds : Nat) (now : Clock) : InMemoryStore × Bool :=
  match s.expireIfNeeded key (now 0) with
  | (s, true) => (s, false)
  | (s, false) =>
    if s.values.has key then
      let s := { s with expiry := s.expiry.set key (now 1 + seconds * 1000) }
      ((s.touch key).markDirty, true)
    else (s, false)

def «exists» (s : InMemoryStore) (key : Str) (now : Clock) : InMemoryStore × Bool :=
  match s.expireIfNeeded key (now 0) with
  | (s, expired) => (s, !expired && s.values.has key)

/-- `Math.ceil(ms / 1000)`. -/
def ceilSeconds (ms : Int) : Int := -(-ms / 1000)

def ttl (s : InMemoryStore) (key : Str) (now : Clock) : InMemoryStore × Int :=
  match s.expireIfNeeded key (now 0) with
  | (s, expired) =>
    if expired || !s.values.has key then (s, -2)
    else
      match s.expiry.remainingMs key (now 1) with
      | none => (s, -1)
      | some remMs => (s, max 0 (ceilSeconds remMs))

def persist (s : InMemoryStore) (key : Str) (now : Clock) : InMemoryStore × Bool :=
  match s.expireIfNeeded key (now 0) with
  | (s, expired) =>
    if expired || !s.values.has key then (s, false)
    else if !s.expiry.has key then (s, false)
    else (({ s with expiry := s.expiry.clear key }.touch key).markDirty, true)

def keyType (s : InMemoryStore) (key : Str) (now : Clock) : InMemoryStore × Option ValueType :=
  match s.expireIfNeeded key (now 0) with
  | (s, true) => (s, none)
  | (s, false) => (s, (s.values.get? key).map StoredValue.type)

/-! ## KEYS -/

/-- The characters `.` of a regular expression does not match. -/
def isLineTerminator (c : Char) : Bool :=
  c == '\n' || c == '\r' || c.toNat == 0x2028 || c.toNat == 0x2029

/-- `.*` followed by `rest`. -/
def starMatch (rest : Str → Bool) : Str → Bool
  | [] => rest []
  | c :: s => rest (c :: s) || (!isLineTerminator c && starMatch rest s)

/-- The regular expression `keys` builds: `*` stands for `.*`, every other
character for itself. -/
def globMatch : Str → Str → Bool
  | [], s => s.isEmpty
  | c :: p, s =>
    if c = '*' then starMatch (globMatch p) s
    else
      match s with
      | [] => false
      | d :: s => d == c && globMatch p s

/-- The loop over `#values.keys()`; the `i`-th key is checked at `now i`. -/
def keysLoop (test : Str → Bool) (now : Clock) :
    List Str → Nat → InMemoryStore → InMemoryStore × List Str
  | [], _, s => (s, [])
  | key :: rest, i, s =>
    match s.expireIfNeeded key (now i) with
    | (s, expired) =>
      match keysLoop test now rest (i + 1) s with
      | (s, matched) => (s, if !expired && test key then key :: matched else matched)

def keys (s : InMemoryStore) (pattern : Str) (now : Clock) : InMemoryStore × List Str :=
  keysLoop (globMatch pattern) now s.values.keys 0 s

/-! ## Lists -/

/-- The shape of `lpush` and `rpush`; `create` makes a new list, `addAll` puts the values on one. -/
def pushWith (create : InMemoryStore → Str → List Str → Int → InMemoryStore × StoreResult Nat)
    (addAll : List Str → List Str → List Str) (s : InMemoryStore) (key : Str)
    (values : List Str) (now : Clock) : InMemoryStore × StoreResult Nat :=
  match s.expireIfNeeded key (now 0) with
  | (s, true) => create s key values (now 1)
  | (s, false) =>
    match s.values.get? key with
    | none => create s key values (now 1)
    | some (.list list) =>
      let list := addAll list values
      (((s.put key (.list list)).touch key).markDirty, .ok list.length)
    | some _ => (s, .error .WRONGTYPE)

def lpush (s : InMemoryStore) (key : Str) (values : List Str) (now : Clock) :
    InMemoryStore × StoreResult Nat :=
  pushWith pushNewList unshiftAll s key values now

def rpush (s : InMemoryStore) (key : Str) (values : List Str) (now : Clock) :
    InMemoryStore × StoreResult Nat :=
  pushWith pushNewListTail pushAll s key values now

/-- The shape of `lpop` and `rpop`; `take` removes an end element. -/
def popWith (take : List Str → Option Str × List Str) (s : InMemoryStore) (key : Str)
    (now : Clock) : InMemoryStore × StoreResult (Option Str) :=
  match s.expireIfNeeded key (now 0) with
  | (s, true) => (s, .ok none)
  | (s, false) =>
    match s.values.get? key with
    | none => (s, .ok none)
    | some (.list list) =>
      let s := s.put key (.list (take list).2)
      if (take list).2 = [] then (s.removeKey key, .ok (take list).1)
      else ((s.touch key).markDirty, .ok (take list).1)
    | some _ => (s, .error .WRONGTYPE)

def shift (list : List Str) : Option Str × List Str := (list.head?, list.tail)

def pop (list : List Str) : Option Str × List Str := (list.getLast?, list.dropLast)

def lpop (s : InMemoryStore) (key : Str) (now : Clock) :
    InMemoryStore × StoreResult (Option Str) :=
  popWith shift s key now

def rpop (s : InMemoryStore) (key : Str) (now : Clock) :
    InMemoryStore × StoreResult (Option Str) :=
  popWith pop s key now

/-- The shape of the reads of one kind: `lrange`, `llen`, `hget`, `hgetall`, `hlen`. -/
def readAs {α β : Type} (payload : StoredValue → Option β) (absent : α) (read : β → α)
    (s : InMemoryStore) (key : Str) (now : Clock) : InMemoryStore × StoreResult α :=
  match s.expireIfNeeded key (now 0) with
  | (s, true) => (s, .ok absent)
  | (s, false) =>
    match s.values.get? key with
    | none => (s, .ok absent)
    | some entry =>
      match payload entry with
      | none => (s, .error .WRONGTYPE)
      | some value => (s.touch key, .ok (read value))

/-- The index arithmetic of `lrange`. -/
def slice (start stop : Int) (list : List Str) : List Str :=
  let len : Int := list.length
  let first := max 0 (if start < 0 then len + start else start)
  let stop := if stop < 0 then len + stop else stop
  let last := if stop ≥ len then len - 1 else stop
  if first > last then [] else (list.take (last + 1).toNat).drop first.toNat

def lrange (s : InMemoryStore) (key : Str) (start stop : Int) (now : Clock) :
    InMemoryStore × StoreResult (List Str) :=
  readAs StoredValue.asList [] (slice start stop) s key now

def llen (s : InMemoryStore) (key : Str) (now : Clock) : InMemoryStore × StoreResult Nat :=
  readAs StoredValue.asList 0 List.length s key now

/-! ## Hashes -/

def setPairs (map : OrdMap Str Str) (pairs : List (Str × Str)) : OrdMap Str Str × Nat :=
  pairs.foldl (fun (m, added) (field, value) =>
    (m.set field value, if m.has field then added else added + 1)) (map, 0)

def deleteFields (map : OrdMap Str Str) (fields : List Str) : OrdMap Str Str × Nat :=
  fields.foldl (fun (m, removed) field =>
    (m.delete field, if m.has field then removed + 1 else removed)) (map, 0)

/-- `hset` from the point where its map is at hand. -/
def hsetFill (s : InMemoryStore) (key : Str) (map : OrdMap Str Str) (pairs : List (Str × Str)) :
    InMemoryStore × StoreResult Nat :=
  let filled := setPairs map pairs
  let s := (s.put key (.hash filled.1)).touch key
  (if pairs.length > 0 then s.markDirty else s, .ok filled.2)

def hset (s : InMemoryStore) (key : Str) (pairs : List (Str × Str)) (now : Clock) :
    InMemoryStore × StoreResult Nat :=
  match s.expireIfNeeded key (now 0) with
  | (s, expired) =>
    match if expired then none else s.values.get? key with
    | none => (s.createHash key (now 1)).hsetFill key OrdMap.empty pairs
    | some (.hash map) => s.hsetFill key map pairs
    | some _ => (s, .error .WRONGTYPE)

def hget (s : InMemoryStore) (key field : Str) (now : Clock) :
    InMemoryStore × StoreResult (Option Str) :=
  readAs StoredValue.asHash none (fun map => map.get? field) s key now

def hdel (s : InMemoryStore) (key : Str) (fields : List Str) (now : Clock) :
    InMemoryStore × StoreResult Nat :=
  match s.expireIfNeeded key (now 0) with
  | (s, true) => (s, .ok 0)
  | (s, false) =>
    match s.values.get? key with
    | none => (s, .ok 0)
    | some (.hash map) =>
      let rest := deleteFields map fields
      let s := s.put key (.hash rest.1)
      if rest.1.size = 0 then (s.removeKey key, .ok rest.2)
      else if rest.2 > 0 then ((s.touch key).markDirty, .ok rest.2)
      else (s, .ok rest.2)
    | some _ => (s, .error .WRONGTYPE)

def hgetall (s : InMemoryStore) (key : Str) (now : Clock) :
    InMemoryStore × StoreResult (List Str) :=
  readAs StoredValue.asHash [] (fun map => map.entries.flatMap fun e => [e.1, e.2]) s key now

def hlen (s : InMemoryStore) (key : Str) (now : Clock) : InMemoryStore × StoreResult Nat :=
  readAs StoredValue.asHash 0 OrdMap.size s key now

/-! ## Active sweep -/

def sweepExpired (s : InMemoryStore) (sampleSize : Int) (now : Clock) : InMemoryStore × Nat :=
  match s.expiry.collectExpired (now 0) sampleSize with
  | (expiry, expired) =>
    (expired.foldl (fun s key => (s.removeKey key).onExpired key) { s with expiry := expiry },
      expired.length)

end InMemoryStore

end MiniStore
