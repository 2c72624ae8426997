import MiniStore.Lib.PlainObject
import MiniStore.Store.Lockstep

/-!
# PersistenceManager

`save` first extracts the whole store into a dump, in one go, and then waits for
the file system; `restore` reads a dump back through the store's own operations.
The dump and the hashes in it are plain objects.

A save is two events: `save` takes the flag and extracts, and later either
`saveDone` (the renames succeeded) or `saveFailed` ends it. Store operations may
come in between.
-/

namespace MiniStore

open InMemoryStore

/-- The value of a dumped key, by its `type`. -/
inductive SerializedValue where
  | string (value : Str)
  | list (value : List Str)
  | hash (value : PlainObject Str)
  deriving DecidableEq

structure SerializedKey where
  value : SerializedValue
  ttl : Option Int
  deriving DecidableEq

abbrev Dump := PlainObject SerializedKey

/-- The clocks of the store operations of a longer computation, in order. -/
abbrev Clocks := Nat → Clock

def Clocks.still (t : Int) : Clocks := fun _ => Clock.still t

structure PersistenceManager where
  lastSavedDirtyCount : Nat
  /-- The dump under way and the dirty count captured for it: `#saveInProgress`. -/
  saving : Option (Dump × Nat)
  /-- What the file at `#dumpPath` holds. -/
  dumpFile : Option Dump
  deriving DecidableEq

namespace PersistenceManager

def create (dumpFile : Option Dump) : PersistenceManager := ⟨0, none, dumpFile⟩

/-! ## Extraction -/

/-- `obj[arr[i]] = arr[i + 1]` for every second index. -/
def objectOf : List Str → PlainObject Str → PlainObject Str
  | field :: value :: rest, obj => objectOf rest (obj.assign field value)
  | _, obj => obj

/-- Read a key as its type says; `none` is the value `undefined`. -/
def readValue (s : InMemoryStore) (key : Str) (now : Clock) :
    ValueType → InMemoryStore × Option SerializedValue
  | .string =>
    match s.get key now with
    | (s, value) => (s, value.map .string)
  | .list =>
    match s.lrange key 0 (-1) now with
    | (s, .ok value) => (s, some (.list value))
    | (s, .error _) => (s, none)
  | .hash =>
    match s.hgetall key now with
    | (s, .ok arr) => (s, some (.hash (objectOf arr PlainObject.empty)))
    | (s, .error _) => (s, none)

/-- The loop body, for one key; its three store operations run at `clocks i` and after. -/
def saveKey (clocks : Clocks) (i : Nat) (key : Str) (s : InMemoryStore) (dump : Dump) :
    InMemoryStore × Dump :=
  match s.keyType key (clocks i) with
  | (s, none) => (s, dump) -- expired lazily during loop
  | (s, some type) =>
    match readValue s key (clocks (i + 1)) type with
    | (s, none) => (s, dump)
    | (s, some value) =>
      match s.ttl key (clocks (i + 2)) with
      | (s, ttl) => (s, dump.assign key ⟨value, if ttl ≥ 0 then some ttl else none⟩)

def saveLoop (clocks : Clocks) : List Str → Nat → InMemoryStore → Dump → InMemoryStore × Dump
  | [], _, s, dump => (s, dump)
  | key :: rest, i, s, dump =>
    match saveKey clocks i key s dump with
    | (s, dump) => saveLoop clocks rest (i + 3) s dump

/-- Everything `save` does before its first `await`, the flag and the counter apart. -/
def extract (s : InMemoryStore) (clocks : Clocks) : InMemoryStore × Dump :=
  match s.keys ['*'] (clocks 0) with
  | (s, keys) => saveLoop clocks keys 1 s PlainObject.empty

/-! ## Saving -/

/-- `save()` up to its first `await`; the flag says whether it was rejected. -/
def save (pm : PersistenceManager) (s : InMemoryStore) (clocks : Clocks) :
    PersistenceManager × InMemoryStore × Bool :=
  if pm.saving.isSome then (pm, s, false)
  else
    match extract s clocks with
    | (s', dump) => ({ pm with saving := some (dump, s.dirtyCount) }, s', true)

/-- The rename succeeded. -/
def saveDone (pm : PersistenceManager) : PersistenceManager :=
  match pm.saving with
  | none => pm
  | some (dump, dirtyCount) => ⟨dirtyCount, none, some dump⟩

/-- One of the file system calls failed. -/
def saveFailed (pm : PersistenceManager) : PersistenceManager := { pm with saving := none }

def checkAndSave (pm : PersistenceManager) (s : InMemoryStore) (clocks : Clocks) :
    PersistenceManager × InMemoryStore × Bool :=
  if s.dirtyCount ≠ pm.lastSavedDirtyCount then pm.save s clocks else (pm, s, true)

/-! ## Restoring -/

/-- `if (ttl !== undefined) this.#store.expire(key, ttl)`. -/
def expireIfGiven (s : InMemoryStore) (key : Str) (ttl : Option Int) (now : Clock) :
    InMemoryStore :=
  match ttl with
  | none => s
  | some ttl => (s.expire key ttl.toNat now).1

/-- One entry of the dump; its store operations run at `clocks i` and after. -/
def restoreKey (clocks : Clocks) (i : Nat) (key : Str) (e : SerializedKey) (s : InMemoryStore) :
    InMemoryStore × Bool :=
  if e.ttl.any fun ttl => ttl ≤ 0 then (s, false)
  else
    match e.value with
    | .string value => (s.set key value (e.ttl.map Int.toNat) (clocks i), true)
    | .list value =>
      (expireIfGiven (s.rpush key value (clocks i)).1 key e.ttl (clocks (i + 1)), true)
    | .hash obj =>
      (expireIfGiven (s.hset key obj.entries (clocks i)).1 key e.ttl (clocks (i + 1)), true)

def restoreLoop (clocks : Clocks) :
    List (Str × SerializedKey) → Nat → InMemoryStore → Nat → InMemoryStore × Nat
  | [], _, s, restoredCount => (s, restoredCount)
  | (key, e) :: rest, i, s, restoredCount =>
    match restoreKey clocks i key e s with
    | (s, restored) =>
      restoreLoop clocks rest (i + 2) s (if restored then restoredCount + 1 else restoredCount)

/-- `restore()`; a missing file restores nothing. -/
def restore (pm : PersistenceManager) (s : InMemoryStore) (clocks : Clocks) :
    PersistenceManager × InMemoryStore × Nat :=
  match pm.dumpFile with
  | none => (pm, s, 0)
  | some dump =>
    match restoreLoop clocks dump.entries 0 s 0 with
    | (s, restoredCount) => ({ pm with lastSavedDirtyCount := s.dirtyCount }, s, restoredCount)

end PersistenceManager

end MiniStore
