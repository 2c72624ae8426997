import MiniStore.Lib.Text

/-!
# Structured commands

One constructor for each member of the `Command` union, with the fields of its
interface. `Command.WF` collects what the parser promises about the fields of a
command it accepts.
-/

namespace MiniStore

open Text

/-- Upper bound (~317 years) so that `now + seconds * 1000` stays a safe integer. -/
def maxTtlSeconds : Nat := 9999999999

/-- `Number.MAX_SAFE_INTEGER`. -/
def maxSafeInteger : Nat := 9007199254740991

inductive Command where
  | set (key value : Str) (ttlSeconds : Option Nat)
  | get (key : Str)
  | del (key : Str)
  | expire (key : Str) (seconds : Nat)
  | lpush (key : Str) (values : List Str)
  | lpop (key : Str)
  | lrange (key : Str) (start stop : Int)
  | hset (key : Str) (pairs : List (Str × Str))
  | hget (key field : Str)
  | exists (key : Str)
  | ttl (key : Str)
  | persist (key : Str)
  | keys (pattern : Str)
  | rpush (key : Str) (values : List Str)
  | rpop (key : Str)
  | llen (key : Str)
  | hdel (key : Str) (fields : List Str)
  | hgetall (key : Str)
  | hlen (key : Str)
  | bgsave
  | bgrewriteaof
  | subscribe (channels : List Str)
  | unsubscribe (channels : List Str)
  | publish (channel message : Str)
  | multi
  | exec
  | discard
  | auth (password : Str)
  deriving DecidableEq

namespace Command

def name : Command → Str
  | set .. => "SET".toList
  | get .. => "GET".toList
  | del .. => "DEL".toList
  | expire .. => "EXPIRE".toList
  | lpush .. => "LPUSH".toList
  | lpop .. => "LPOP".toList
  | lrange .. => "LRANGE".toList
  | hset .. => "HSET".toList
  | hget .. => "HGET".toList
  | .exists .. => "EXISTS".toList
  | ttl .. => "TTL".toList
  | persist .. => "PERSIST".toList
  | keys .. => "KEYS".toList
  | rpush .. => "RPUSH".toList
  | rpop .. => "RPOP".toList
  | llen .. => "LLEN".toList
  | hdel .. => "HDEL".toList
  | hgetall .. => "HGETALL".toList
  | hlen .. => "HLEN".toList
  | bgsave => "BGSAVE".toList
  | bgrewriteaof => "BGREWRITEAOF".toList
  | subscribe .. => "SUBSCRIBE".toList
  | unsubscribe .. => "UNSUBSCRIBE".toList
  | publish .. => "PUBLISH".toList
  | multi => "MULTI".toList
  | exec => "EXEC".toList
  | discard => "DISCARD".toList
  | auth .. => "AUTH".toList

/-- Tokens are non-empty and free of white space, lists have an element, and
numbers are in range. -/
def WF : Command → Prop
  | set key value seconds =>
    IsToken key ∧ IsToken value ∧ ∀ n ∈ seconds, 1 ≤ n ∧ n ≤ maxTtlSeconds
  | expire key seconds => IsToken key ∧ 1 ≤ seconds ∧ seconds ≤ maxTtlSeconds
  | lpush key values | rpush key values => IsToken key ∧ values ≠ [] ∧ ∀ v ∈ values, IsToken v
  | lrange key start stop =>
    IsToken key ∧ start.natAbs ≤ maxSafeInteger ∧ stop.natAbs ≤ maxSafeInteger
  | hset key pairs => IsToken key ∧ pairs ≠ [] ∧ ∀ p ∈ pairs, IsToken p.1 ∧ IsToken p.2
  | hget key field => IsToken key ∧ IsToken field
  | hdel key fields => IsToken key ∧ fields ≠ [] ∧ ∀ f ∈ fields, IsToken f
  | get key | del key | lpop key | .exists key | ttl key | persist key | keys key | rpop key
  | llen key | hgetall key | hlen key | auth key => IsToken key
  | subscribe channels => channels ≠ [] ∧ ∀ c ∈ channels, IsToken c
  | unsubscribe channels => ∀ c ∈ channels, IsToken c
  | publish channel message => IsToken channel ∧ IsToken message
  | bgsave | bgrewriteaof | multi | exec | discard => True

end Command

end MiniStore
