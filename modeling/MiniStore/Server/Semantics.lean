import Mathlib.Data.Rat.Floor
import Mathlib.Data.Set.Card
import MiniStore.Protocol.Command
import MiniStore.Protocol.Replies
import MiniStore.Store.Glob
import MiniStore.Store.KeyObjects

/-!
# What the commands mean

The database as a client sees it, with no store in sight. A key has an entry: a string, a
list or a mapping, perhaps until a deadline. A list without items and a mapping without fields
are no entry, and an absent key stands for both (`Kind.meaning`). `meaning` says of a
command on one key which answers are right and what it leaves there, in terms of what it finds.
`Step` is one command on the whole database, at two of the instants it reads: it looks at its key
at the one and counts a new deadline from the other. KEYS looks at every key at an instant of its
own. `Explained` is a run of such steps.
-/

namespace MiniStore

namespace Semantics

inductive Value where
  | string (text : Str)
  | list (items : List Str)
  | mapping (field : Str → Option Str)

structure Entry where
  value : Value
  deadline : Option Int

/-- A partial map from keys to entries. -/
abbrev Contents := Str → Option Entry

/-- What is there at an instant: an entry is gone from its deadline on. -/
def present (t : Int) (e : Option Entry) : Option Entry :=
  e.filter fun e => e.deadline.all fun d => t < d

theorem present_present {t t' : Int} (ht : t ≤ t') (e : Option Entry) :
    present t' (present t e) = present t' e := by
  rcases e with _ | ⟨v, _ | d⟩
  · rfl
  · rfl
  · by_cases hd : t < d
    · simp [present, Option.filter, hd]
    · have hd' : ¬t' < d := by omega
      simp [present, Option.filter, hd, hd']

/-! ## Commands on one key -/

/-- The answers that are right, and the entry that is left. -/
structure Meaning where
  answers : Set Str
  left : Option Entry

/-- A kind of values with an empty one, which is not stored. -/
structure Kind (α : Type) where
  wrap : α → Value
  unwrap : Value → Option α
  empty : α

def lists : Kind (List Str) where
  wrap := .list
  unwrap
    | .list items => some items
    | _ => none
  empty := []

def mappings : Kind (Str → Option Str) where
  wrap := .mapping
  unwrap
    | .mapping field => some field
    | _ => none
  empty := fun _ => none

open Classical in
/-- The empty value is no entry. -/
noncomputable def Kind.leave {α : Type} (kind : Kind α) (deadline : Option Int) (value : α) :
    Option Entry :=
  if value = kind.empty then none else some ⟨kind.wrap value, deadline⟩

/-- A command on values of a kind refuses the other kinds, and keeps the deadline. -/
noncomputable def Kind.meaning {α : Type} (kind : Kind α) (f : α → Set Str × α) :
    Option Entry → Meaning
  | none => ⟨(f kind.empty).1, kind.leave none (f kind.empty).2⟩
  | some e =>
    match kind.unwrap e.value with
    | none => ⟨{Reply.wrongType}, some e⟩
    | some value => ⟨(f value).1, kind.leave e.deadline (f value).2⟩

def flag (b : Bool) : Str := Reply.integer (if b then 1 else 0)

def item : Option Str → Str
  | none => Reply.nil
  | some v => Reply.value v

/-- GET refuses lists and mappings. -/
def lookup : Option Entry → Meaning
  | none => ⟨{Reply.nil}, none⟩
  | some ⟨.string text, d⟩ => ⟨{Reply.value text}, some ⟨.string text, d⟩⟩
  | some e => ⟨{Reply.wrongType}, some e⟩

/-- The whole seconds that are left, a part of one counting as one. -/
def remaining (t : Int) : Option Entry → Int
  | none => -2
  | some ⟨_, none⟩ => -1
  | some ⟨_, some d⟩ => max 0 ⌈((d - t : Int) : ℚ) / 1000⌉

def assign (field : Str → Option Str) (pairs : List (Str × Str)) : Str → Option Str :=
  pairs.foldl (fun field pair => Function.update field pair.1 (some pair.2)) field

def without (field : Str → Option Str) (fields : List Str) : Str → Option Str := fun f =>
  if f ∈ fields then none else field f

def support (field : Str → Option Str) : Set Str := {f | field f ≠ none}

/-- A mapping read out in some order, each field once. -/
def listings (field : Str → Option Str) : Set Str :=
  {r | ∃ fields : List Str, fields.Nodup ∧ (∀ f, f ∈ fields ↔ f ∈ support field) ∧
    r = Reply.array (fields.flatMap fun f => [f, (field f).getD []])}

/-- Of a command on one key, the key, and what it means for what is found there; a new deadline
is counted from `t`. -/
noncomputable def meaning (t : Int) : Command → Option (Str × (Option Entry → Meaning))
  | .set key value ttlSeconds =>
    some (key, fun _ =>
      ⟨{Reply.ok}, some ⟨.string value, ttlSeconds.map fun n => t + n * 1000⟩⟩)
  | .get key => some (key, lookup)
  | .del key => some (key, fun found => ⟨{flag found.isSome}, none⟩)
  | .exists key => some (key, fun found => ⟨{flag found.isSome}, found⟩)
  | .expire key seconds =>
    some (key, fun found =>
      ⟨{flag found.isSome}, found.map fun e => { e with deadline := some (t + seconds * 1000) }⟩)
  | .persist key =>
    some (key, fun found =>
      ⟨{flag (found.bind Entry.deadline).isSome}, found.map fun e => { e with deadline := none }⟩)
  | .ttl key => some (key, fun found => ⟨{Reply.integer (remaining t found)}, found⟩)
  | .lpush key values =>
    some (key, lists.meaning fun items =>
      ({Reply.integer (values.length + items.length : Nat)}, values.reverse ++ items))
  | .rpush key values =>
    some (key, lists.meaning fun items =>
      ({Reply.integer (items.length + values.length : Nat)}, items ++ values))
  | .lpop key => some (key, lists.meaning fun items => ({item items.head?}, items.tail))
  | .rpop key => some (key, lists.meaning fun items => ({item items.getLast?}, items.dropLast))
  | .lrange key start stop =>
    some (key, lists.meaning fun items => ({Reply.array (Deque.between start stop items)}, items))
  | .llen key => some (key, lists.meaning fun items => ({Reply.integer items.length}, items))
  | .hset key pairs =>
    some (key, mappings.meaning fun field =>
      ({Reply.integer (support (assign field pairs) \ support field).ncard}, assign field pairs))
  | .hdel key fields =>
    some (key, mappings.meaning fun field =>
      ({Reply.integer (support field \ support (without field fields)).ncard},
        without field fields))
  | .hget key f => some (key, mappings.meaning fun field => ({item (field f)}, field))
  | .hgetall key => some (key, mappings.meaning fun field => (listings field, field))
  | .hlen key =>
    some (key, mappings.meaning fun field => ({Reply.integer (support field).ncard}, field))
  | _ => none

/-! ## Runs -/

/-- What can be seen of a command: the instants it reads, whether a slot is free, the keys it is
reported to evict, and its reply, unless an exception takes the place of it. -/
structure Observed where
  command : Command
  clocks : Clocks
  room : Bool
  evicted : List Str
  reply : Option Str

/-- To create an entry in a full database may cost another key its entry. -/
structure Observed.MayEvict (o : Observed) (key : Str) (found left : Option Entry) : Prop where
  one : o.evicted.length ≤ 1
  other : key ∉ o.evicted
  full : o.evicted ≠ [] → found = none ∧ left ≠ none ∧ o.room = false

/-- The keys that match, each once: those that are there all the time, and no others but those
that are there some of it. -/
structure Lists (db : Contents) (clocks : Clocks) (pattern : Str) (keys : List Str) : Prop where
  nodup : keys.Nodup
  sound : ∀ k ∈ keys, InMemoryStore.Glob pattern k ∧
    ∃ seen, clocks.Reads seen ∧ present seen (db k) ≠ none
  complete : ∀ k, InMemoryStore.Glob pattern k →
    (∀ seen, clocks.Reads seen → present seen (db k) ≠ none) → k ∈ keys

inductive Step : Contents → Observed → Contents → Prop
  | onKey {db : Contents} {o : Observed} {key : Str} {m : Option Entry → Meaning} (seen t : Int)
      (hseen : o.clocks.Reads seen) (ht : o.clocks.Reads t) (hle : seen ≤ t)
      (hm : meaning t o.command = some (key, m))
      (hreply : ∀ r ∈ o.reply, r ∈ (m (present seen (db key))).answers)
      (hevict : o.MayEvict key (present seen (db key)) (m (present seen (db key))).left) :
      Step db o fun k =>
        if k = key then (m (present seen (db key))).left
        else if k ∈ o.evicted then none else db k
  | listing {db : Contents} {o : Observed} {pattern : Str} (hc : o.command = .keys pattern)
      (hreply : ∀ r ∈ o.reply, ∃ keys, r = Reply.array keys ∧ Lists db o.clocks pattern keys) :
      Step db o db
  | unrelated {db : Contents} {o : Observed} (hc : ∀ t, meaning t o.command = none)
      (hk : ∀ pattern, o.command ≠ .keys pattern) : Step db o db

/-- The observations are those of a database that starts and ends with these contents. -/
inductive Explained : Contents → List Observed → Contents → Prop
  | nil (db : Contents) : Explained db [] db
  | cons {db db' db'' : Contents} {o : Observed} {os : List Observed} (head : Step db o db')
      (tail : Explained db' os db'') : Explained db (o :: os) db''

theorem Explained.append {db db' db'' : Contents} {os os' : List Observed}
    (h : Explained db os db') (h' : Explained db' os' db'') : Explained db (os ++ os') db'' := by
  induction h with
  | nil => exact h'
  | cons head _ ih => exact .cons head (ih h')

end Semantics

end MiniStore
