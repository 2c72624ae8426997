import MiniStore.Protocol.Command

/-!
# CommandParser

`parseCommand` turns one raw protocol line into a `Command` or an error text.
Surrounding white space does not matter (`parseCommand_trim`), and an accepted
command is well formed (`wf_of_parseCommand`).
-/

namespace MiniStore

open Text

abbrev ParseResult := Except Str Command

namespace CommandParser

/-! ## Characters and numbers -/

/-- `toUpperCase` of one character. The capitals of the other letters hold a
character outside ASCII, so they are in no command name; they are kept as they
are. -/
def upperChar (c : Char) : Str :=
  if 'a' ≤ c ∧ c ≤ 'z' then [Char.ofNat (c.toNat - 32)]
  else if c = 'ı' then ['I']
  else if c = 'ſ' then ['S']
  else if c = 'ß' then ['S', 'S']
  else if c = 'ﬀ' then ['F', 'F']
  else if c = 'ﬁ' then ['F', 'I']
  else if c = 'ﬂ' then ['F', 'L']
  else if c = 'ﬃ' then ['F', 'F', 'I']
  else if c = 'ﬄ' then ['F', 'F', 'L']
  else if c = 'ﬅ' then ['S', 'T']
  else if c = 'ﬆ' then ['S', 'T']
  else [c]

def toUpperCase (s : Str) : Str := s.flatMap upperChar

theorem length_ite_pos {p : Prop} [Decidable p] {a b : Str} (ha : 0 < a.length)
    (hb : 0 < b.length) : 0 < (if p then a else b).length := by
  split
  · exact ha
  · exact hb

theorem length_upperChar_pos (c : Char) : 0 < (upperChar c).length := by
  unfold upperChar
  repeat' apply length_ite_pos
  all_goals exact Nat.succ_pos _

/-- The class `\d`. -/
def isDigit (c : Char) : Bool := '0' ≤ c && c ≤ '9'

def digitsValue (s : Str) : Nat := s.foldl (fun n c => 10 * n + (c.toNat - 48)) 0

/-- A strictly positive integer TTL in seconds. -/
def parsePositiveInt (token : Str) : Option Nat :=
  if token ≠ [] ∧ token.all isDigit then
    let n := digitsValue token
    if n < 1 ∨ n > maxTtlSeconds then none else some n
  else none

/-- A digit string read as a safe integer with the given sign. -/
def signed (digits : Str) (negative : Bool) : Option Int :=
  if digits ≠ [] ∧ digits.all isDigit then
    let n := digitsValue digits
    if n > maxSafeInteger then none else some (if negative then -(n : Int) else n)
  else none

/-- A signed integer index (LRANGE bounds). -/
def parseSignedInt (token : Str) : Option Int :=
  match token with
  | '-' :: digits => signed digits true
  | digits => signed digits false

/-! ## One command each -/

def err (message : Str) : ParseResult := .error message

def arityError (command : String) : ParseResult :=
  err ("wrong number of arguments for '".toList ++ command.toList ++ "' command".toList)

/-- The commands with no argument. -/
def parseBare (tokens : List Str) (command : String) (make : Command) : ParseResult :=
  match tokens with
  | [_] => .ok make
  | _ => arityError command

/-- The commands with one argument. -/
def parseUnary (tokens : List Str) (command : String) (make : Str → Command) : ParseResult :=
  match tokens with
  | [_, key] => .ok (make key)
  | _ => arityError command

/-- The commands with two arguments. -/
def parseBinary (tokens : List Str) (command : String) (make : Str → Str → Command) :
    ParseResult :=
  match tokens with
  | [_, key, arg] => .ok (make key arg)
  | _ => arityError command

/-- The commands with a key and one or more arguments. -/
def parseVariadic (tokens : List Str) (command : String) (make : Str → List Str → Command) :
    ParseResult :=
  match tokens with
  | _ :: key :: arg :: args => .ok (make key (arg :: args))
  | _ => arityError command

/-- SET key value | SET key value EX seconds -/
def parseSet (tokens : List Str) : ParseResult :=
  match tokens with
  | [_, key, value] => .ok (.set key value none)
  | [_, key, value, ex, secs] =>
    if toUpperCase ex ≠ "EX".toList then
      err ("syntax error near '".toList ++ ex ++ "' (expected EX)".toList)
    else
      match parsePositiveInt secs with
      | none => err "EX seconds must be a positive integer".toList
      | some seconds => .ok (.set key value (some seconds))
  | _ => arityError "set"

def parseExpire (tokens : List Str) : ParseResult :=
  match tokens with
  | [_, key, secs] =>
    match parsePositiveInt secs with
    | none => err "seconds must be a positive integer".toList
    | some seconds => .ok (.expire key seconds)
  | _ => arityError "expire"

def parseLrange (tokens : List Str) : ParseResult :=
  match tokens with
  | [_, key, first, last] =>
    match parseSignedInt first, parseSignedInt last with
    | some start, some stop => .ok (.lrange key start stop)
    | _, _ => err "start and stop must be integers".toList
  | _ => arityError "lrange"

def pairUp : List Str → List (Str × Str)
  | field :: value :: rest => (field, value) :: pairUp rest
  | _ => []

/-- HSET key field value [field value ...] -/
def parseHset (tokens : List Str) : ParseResult :=
  match tokens with
  | _ :: key :: rest =>
    if rest.length < 2 ∨ rest.length % 2 ≠ 0 then arityError "hset"
    else .ok (.hset key (pairUp rest))
  | _ => arityError "hset"

/-- SUBSCRIBE channel [channel...] -/
def parseSubscribe (tokens : List Str) : ParseResult :=
  match tokens with
  | _ :: channel :: channels => .ok (.subscribe (channel :: channels))
  | _ => arityError "subscribe"

/-- The switch on the command name. -/
def parseNamed (name : Str) (tokens : List Str) : ParseResult :=
  if name = "SET".toList then parseSet tokens
  else if name = "GET".toList then parseUnary tokens "get" .get
  else if name = "DEL".toList then parseUnary tokens "del" .del
  else if name = "EXPIRE".toList then parseExpire tokens
  else if name = "LPUSH".toList then parseVariadic tokens "lpush" .lpush
  else if name = "LPOP".toList then parseUnary tokens "lpop" .lpop
  else if name = "LRANGE".toList then parseLrange tokens
  else if name = "HSET".toList then parseHset tokens
  else if name = "HGET".toList then parseBinary tokens "hget" .hget
  else if name = "EXISTS".toList then parseUnary tokens "exists" .exists
  else if name = "TTL".toList then parseUnary tokens "ttl" .ttl
  else if name = "PERSIST".toList then parseUnary tokens "persist" .persist
  else if name = "KEYS".toList then parseUnary tokens "keys" .keys
  else if name = "RPUSH".toList then parseVariadic tokens "rpush" .rpush
  else if name = "RPOP".toList then parseUnary tokens "rpop" .rpop
  else if name = "LLEN".toList then parseUnary tokens "llen" .llen
  else if name = "HDEL".toList then parseVariadic tokens "hdel" .hdel
  else if name = "HGETALL".toList then parseUnary tokens "hgetall" .hgetall
  else if name = "HLEN".toList then parseUnary tokens "hlen" .hlen
  else if name = "BGSAVE".toList then parseBare tokens "bgsave" .bgsave
  else if name = "BGREWRITEAOF".toList then parseBare tokens "bgrewriteaof" .bgrewriteaof
  else if name = "SUBSCRIBE".toList then parseSubscribe tokens
  else if name = "UNSUBSCRIBE".toList then .ok (.unsubscribe tokens.tail)
  else if name = "PUBLISH".toList then parseBinary tokens "publish" .publish
  else if name = "MULTI".toList then parseBare tokens "multi" .multi
  else if name = "EXEC".toList then parseBare tokens "exec" .exec
  else if name = "DISCARD".toList then parseBare tokens "discard" .discard
  else if name = "AUTH".toList then parseUnary tokens "auth" .auth
  else err ("unknown command '".toList ++ tokens.headD [] ++ "'".toList)

end CommandParser

open CommandParser in
def parseCommand (line : Str) : ParseResult :=
  match tokens line with
  | [] => err "empty command".toList
  | t :: ts => parseNamed (toUpperCase t) (t :: ts)

@[simp] theorem parseCommand_trim (line : Str) : parseCommand (trim line) = parseCommand line := by
  unfold parseCommand; rw [tokens_trim]

namespace CommandParser

/-! ## What is accepted -/

theorem parsePositiveInt_range {token : Str} {n : Nat} (h : parsePositiveInt token = some n) :
    1 ≤ n ∧ n ≤ maxTtlSeconds := by
  by_cases ht : token ≠ [] ∧ token.all isDigit
  · rw [parsePositiveInt, if_pos ht] at h
    by_cases hn : digitsValue token < 1 ∨ digitsValue token > maxTtlSeconds
    · simp only [hn, if_true, reduceCtorEq] at h
    · simp only [hn, if_false, Option.some.injEq] at h; omega
  · rw [parsePositiveInt, if_neg ht] at h; cases h

theorem signed_range {digits : Str} {negative : Bool} {n : Int}
    (h : signed digits negative = some n) : n.natAbs ≤ maxSafeInteger := by
  by_cases hd : digits ≠ [] ∧ digits.all isDigit
  · rw [signed, if_pos hd] at h
    by_cases hn : digitsValue digits > maxSafeInteger
    · simp only [hn, if_true, reduceCtorEq] at h
    · simp only [hn, if_false, Option.some.injEq] at h; split at h <;> omega
  · rw [signed, if_neg hd] at h; cases h

theorem parseSignedInt_range {token : Str} {n : Int} (h : parseSignedInt token = some n) :
    n.natAbs ≤ maxSafeInteger := by
  unfold parseSignedInt at h
  split at h <;> exact signed_range h

section

variable {tokens : List Str} {c : Command}

theorem of_parseBare {command : String} {make : Command}
    (h : parseBare tokens command make = .ok c) : c = make := by
  unfold parseBare at h
  split at h
  · cases h; rfl
  · cases h

theorem of_parseUnary {command : String} {make : Str → Command}
    (h : parseUnary tokens command make = .ok c) : ∃ t key, tokens = [t, key] ∧ c = make key := by
  unfold parseUnary at h
  split at h
  · cases h; exact ⟨_, _, rfl, rfl⟩
  · cases h

theorem of_parseBinary {command : String} {make : Str → Str → Command}
    (h : parseBinary tokens command make = .ok c) :
    ∃ t key arg, tokens = [t, key, arg] ∧ c = make key arg := by
  unfold parseBinary at h
  split at h
  · cases h; exact ⟨_, _, _, rfl, rfl⟩
  · cases h

theorem of_parseVariadic {command : String} {make : Str → List Str → Command}
    (h : parseVariadic tokens command make = .ok c) :
    ∃ t key arg args, tokens = t :: key :: arg :: args ∧ c = make key (arg :: args) := by
  unfold parseVariadic at h
  split at h
  · cases h; exact ⟨_, _, _, _, rfl, rfl⟩
  · cases h

theorem of_parseSet (h : parseSet tokens = .ok c) :
    (∃ t key value, tokens = [t, key, value] ∧ c = .set key value none) ∨
      ∃ t key value ex secs seconds, tokens = [t, key, value, ex, secs] ∧
        parsePositiveInt secs = some seconds ∧ c = .set key value (some seconds) := by
  unfold parseSet at h
  split at h
  · next t key value =>
    cases h
    exact .inl ⟨t, key, value, rfl, rfl⟩
  · next t key value ex secs =>
    split at h
    · cases h
    · split at h
      · cases h
      · next seconds hn =>
        cases h
        exact .inr ⟨t, key, value, ex, secs, seconds, rfl, hn, rfl⟩
  · cases h

theorem of_parseExpire (h : parseExpire tokens = .ok c) : ∃ t key secs seconds,
    tokens = [t, key, secs] ∧ parsePositiveInt secs = some seconds ∧ c = .expire key seconds := by
  unfold parseExpire at h
  split at h
  · split at h
    · cases h
    · next hn => cases h; exact ⟨_, _, _, _, rfl, hn, rfl⟩
  · cases h

theorem of_parseLrange (h : parseLrange tokens = .ok c) : ∃ t key first last start stop,
    tokens = [t, key, first, last] ∧ parseSignedInt first = some start ∧
      parseSignedInt last = some stop ∧ c = .lrange key start stop := by
  unfold parseLrange at h
  split at h
  · split at h
    · next h1 h2 => cases h; exact ⟨_, _, _, _, _, _, rfl, h1, h2, rfl⟩
    · cases h
  · cases h

theorem of_parseHset (h : parseHset tokens = .ok c) : ∃ t key rest,
    tokens = t :: key :: rest ∧ 2 ≤ rest.length ∧ c = .hset key (pairUp rest) := by
  unfold parseHset at h
  split at h
  · split at h
    · cases h
    · next hl => cases h; exact ⟨_, _, _, rfl, by omega, rfl⟩
  · cases h

theorem of_parseSubscribe (h : parseSubscribe tokens = .ok c) : ∃ t channel channels,
    tokens = t :: channel :: channels ∧ c = .subscribe (channel :: channels) := by
  unfold parseSubscribe at h
  split at h
  · cases h; exact ⟨_, _, _, rfl, rfl⟩
  · cases h

theorem mem_pairUp : ∀ {l : List Str} {p : Str × Str}, p ∈ pairUp l → p.1 ∈ l ∧ p.2 ∈ l
  | [], p, h => by cases h
  | [_], p, h => by cases h
  | f :: v :: l, p, h => by
    rcases List.mem_cons.mp h with rfl | h
    · simp
    · have := mem_pairUp h
      exact ⟨by simp [this.1], by simp [this.2]⟩

end

/-! ## Accepted commands are well formed -/

section

variable {tokens : List Str} (ht : ∀ t ∈ tokens, IsToken t) {c : Command}

theorem wf_of_parseBare {name : String} {make : Command} (hm : make.WF)
    (h : parseBare tokens name make = .ok c) : c.WF := of_parseBare h ▸ hm

include ht

theorem wf_of_parseUnary {name : String} {make : Str → Command}
    (hm : ∀ k, IsToken k → (make k).WF) (h : parseUnary tokens name make = .ok c) : c.WF := by
  obtain ⟨t, key, rfl, rfl⟩ := of_parseUnary h
  exact hm key (ht key (by simp))

theorem wf_of_parseBinary {name : String} {make : Str → Str → Command}
    (hm : ∀ k a, IsToken k → IsToken a → (make k a).WF)
    (h : parseBinary tokens name make = .ok c) : c.WF := by
  obtain ⟨t, key, arg, rfl, rfl⟩ := of_parseBinary h
  exact hm key arg (ht key (by simp)) (ht arg (by simp))

theorem wf_of_parseVariadic {name : String} {make : Str → List Str → Command}
    (hm : ∀ k vs, IsToken k → vs ≠ [] → (∀ v ∈ vs, IsToken v) → (make k vs).WF)
    (h : parseVariadic tokens name make = .ok c) : c.WF := by
  obtain ⟨t, key, arg, args, rfl, rfl⟩ := of_parseVariadic h
  obtain ⟨-, hrest⟩ := List.forall_mem_cons.mp ht
  obtain ⟨hkey, hargs⟩ := List.forall_mem_cons.mp hrest
  exact hm key _ hkey (List.cons_ne_nil arg args) hargs

theorem wf_of_parseSet (h : parseSet tokens = .ok c) : c.WF := by
  rcases of_parseSet h with ⟨t, key, value, rfl, rfl⟩ | ⟨t, key, value, ex, secs, n, rfl, hn, rfl⟩
  · exact ⟨ht key (by simp), ht value (by simp), fun n hn => by simp at hn⟩
  · refine ⟨ht key (by simp), ht value (by simp), fun m hm => ?_⟩
    cases hm
    exact parsePositiveInt_range hn

theorem wf_of_parseExpire (h : parseExpire tokens = .ok c) : c.WF := by
  obtain ⟨t, key, secs, n, rfl, hn, rfl⟩ := of_parseExpire h
  exact ⟨ht key (by simp), parsePositiveInt_range hn⟩

theorem wf_of_parseLrange (h : parseLrange tokens = .ok c) : c.WF := by
  obtain ⟨t, key, first, last, start, stop, rfl, h1, h2, rfl⟩ := of_parseLrange h
  exact ⟨ht key (by simp), parseSignedInt_range h1, parseSignedInt_range h2⟩

theorem wf_of_parseHset (h : parseHset tokens = .ok c) : c.WF := by
  obtain ⟨t, key, rest, rfl, hl, rfl⟩ := of_parseHset h
  refine ⟨ht key (by simp), ?_, fun p hp => ?_⟩
  · match rest, hl with
    | _ :: _ :: _, _ => exact (nomatch ·)
  · obtain ⟨h1, h2⟩ := mem_pairUp hp
    exact ⟨ht _ (by simp [h1]), ht _ (by simp [h2])⟩

theorem wf_of_parseSubscribe (h : parseSubscribe tokens = .ok c) : c.WF := by
  obtain ⟨t, channel, channels, rfl, rfl⟩ := of_parseSubscribe h
  exact ⟨List.cons_ne_nil channel channels, (List.forall_mem_cons.mp ht).2⟩

omit ht in
theorem of_ite {p : Prop} [Decidable p] {a b : ParseResult} {P : Prop} (ha : a = .ok c → P)
    (hb : b = .ok c → P) (h : (if p then a else b) = .ok c) : P := by
  by_cases hp : p
  · exact ha (by rwa [if_pos hp] at h)
  · exact hb (by rwa [if_neg hp] at h)

theorem wf_of_parseNamed {name : Str} : parseNamed name tokens = .ok c → c.WF :=
  of_ite (wf_of_parseSet ht) <|
  of_ite (wf_of_parseUnary ht fun _ hk => hk) <|
  of_ite (wf_of_parseUnary ht fun _ hk => hk) <|
  of_ite (wf_of_parseExpire ht) <|
  of_ite (wf_of_parseVariadic ht fun _ _ hk hn hv => ⟨hk, hn, hv⟩) <|
  of_ite (wf_of_parseUnary ht fun _ hk => hk) <|
  of_ite (wf_of_parseLrange ht) <|
  of_ite (wf_of_parseHset ht) <|
  of_ite (wf_of_parseBinary ht fun _ _ hk ha => ⟨hk, ha⟩) <|
  of_ite (wf_of_parseUnary ht fun _ hk => hk) <|
  of_ite (wf_of_parseUnary ht fun _ hk => hk) <|
  of_ite (wf_of_parseUnary ht fun _ hk => hk) <|
  of_ite (wf_of_parseUnary ht fun _ hk => hk) <|
  of_ite (wf_of_parseVariadic ht fun _ _ hk hn hv => ⟨hk, hn, hv⟩) <|
  of_ite (wf_of_parseUnary ht fun _ hk => hk) <|
  of_ite (wf_of_parseUnary ht fun _ hk => hk) <|
  of_ite (wf_of_parseVariadic ht fun _ _ hk hn hv => ⟨hk, hn, hv⟩) <|
  of_ite (wf_of_parseUnary ht fun _ hk => hk) <|
  of_ite (wf_of_parseUnary ht fun _ hk => hk) <|
  of_ite (wf_of_parseBare trivial) <|
  of_ite (wf_of_parseBare trivial) <|
  of_ite (wf_of_parseSubscribe ht) <|
  of_ite (fun h => by cases h; exact fun v hv => ht v (List.mem_of_mem_tail hv)) <|
  of_ite (wf_of_parseBinary ht fun _ _ hk ha => ⟨hk, ha⟩) <|
  of_ite (wf_of_parseBare trivial) <|
  of_ite (wf_of_parseBare trivial) <|
  of_ite (wf_of_parseBare trivial) <|
  of_ite (wf_of_parseUnary ht fun _ hk => hk) fun h => nomatch h

end

/-! ## Accepted commands are named by their first token -/

section

variable {tokens : List Str} {c : Command} {n : Str}

theorem name_of_parseBare {command : String} {make : Command} (hm : make.name = n)
    (h : parseBare tokens command make = .ok c) : c.name = n := of_parseBare h ▸ hm

theorem name_of_parseUnary {command : String} {make : Str → Command} (hm : ∀ k, (make k).name = n)
    (h : parseUnary tokens command make = .ok c) : c.name = n := by
  obtain ⟨t, key, -, rfl⟩ := of_parseUnary h
  exact hm key

theorem name_of_parseBinary {command : String} {make : Str → Str → Command}
    (hm : ∀ k a, (make k a).name = n) (h : parseBinary tokens command make = .ok c) :
    c.name = n := by
  obtain ⟨t, key, arg, -, rfl⟩ := of_parseBinary h
  exact hm key arg

theorem name_of_parseVariadic {command : String} {make : Str → List Str → Command}
    (hm : ∀ k vs, (make k vs).name = n) (h : parseVariadic tokens command make = .ok c) :
    c.name = n := by
  obtain ⟨t, key, arg, args, -, rfl⟩ := of_parseVariadic h
  exact hm key (arg :: args)

theorem name_of_parseSet (h : parseSet tokens = .ok c) : c.name = "SET".toList := by
  rcases of_parseSet h with ⟨t, key, value, -, rfl⟩ | ⟨t, key, value, ex, secs, n, -, -, rfl⟩
  · rfl
  · rfl

theorem name_of_parseExpire (h : parseExpire tokens = .ok c) : c.name = "EXPIRE".toList := by
  obtain ⟨t, key, secs, n, -, -, rfl⟩ := of_parseExpire h
  rfl

theorem name_of_parseLrange (h : parseLrange tokens = .ok c) : c.name = "LRANGE".toList := by
  obtain ⟨t, key, first, last, start, stop, -, -, -, rfl⟩ := of_parseLrange h
  rfl

theorem name_of_parseHset (h : parseHset tokens = .ok c) : c.name = "HSET".toList := by
  obtain ⟨t, key, rest, -, -, rfl⟩ := of_parseHset h
  rfl

theorem name_of_parseSubscribe (h : parseSubscribe tokens = .ok c) :
    c.name = "SUBSCRIBE".toList := by
  obtain ⟨t, channel, channels, -, rfl⟩ := of_parseSubscribe h
  rfl

theorem name_of_ite {name : Str} {a b : ParseResult} (ha : a = .ok c → c.name = n)
    (hb : b = .ok c → c.name = name) (h : (if name = n then a else b) = .ok c) :
    c.name = name := by
  by_cases hp : name = n
  · exact (ha (by rwa [if_pos hp] at h)).trans hp.symm
  · exact hb (by rwa [if_neg hp] at h)

theorem name_of_parseNamed {name : Str} : parseNamed name tokens = .ok c → c.name = name :=
  name_of_ite name_of_parseSet <|
  name_of_ite (name_of_parseUnary fun _ => rfl) <|
  name_of_ite (name_of_parseUnary fun _ => rfl) <|
  name_of_ite name_of_parseExpire <|
  name_of_ite (name_of_parseVariadic fun _ _ => rfl) <|
  name_of_ite (name_of_parseUnary fun _ => rfl) <|
  name_of_ite name_of_parseLrange <|
  name_of_ite name_of_parseHset <|
  name_of_ite (name_of_parseBinary fun _ _ => rfl) <|
  name_of_ite (name_of_parseUnary fun _ => rfl) <|
  name_of_ite (name_of_parseUnary fun _ => rfl) <|
  name_of_ite (name_of_parseUnary fun _ => rfl) <|
  name_of_ite (name_of_parseUnary fun _ => rfl) <|
  name_of_ite (name_of_parseVariadic fun _ _ => rfl) <|
  name_of_ite (name_of_parseUnary fun _ => rfl) <|
  name_of_ite (name_of_parseUnary fun _ => rfl) <|
  name_of_ite (name_of_parseVariadic fun _ _ => rfl) <|
  name_of_ite (name_of_parseUnary fun _ => rfl) <|
  name_of_ite (name_of_parseUnary fun _ => rfl) <|
  name_of_ite (name_of_parseBare rfl) <|
  name_of_ite (name_of_parseBare rfl) <|
  name_of_ite name_of_parseSubscribe <|
  name_of_ite (fun h => by cases h; rfl) <|
  name_of_ite (name_of_parseBinary fun _ _ => rfl) <|
  name_of_ite (name_of_parseBare rfl) <|
  name_of_ite (name_of_parseBare rfl) <|
  name_of_ite (name_of_parseBare rfl) <|
  name_of_ite (name_of_parseUnary fun _ => rfl) fun h => nomatch h

end

end CommandParser

/-- An accepted command has the name its line starts with. -/
theorem name_of_parseCommand {line : Str} {c : Command} (h : parseCommand line = .ok c) :
    ∃ t ts, tokens line = t :: ts ∧ CommandParser.toUpperCase t = c.name := by
  unfold parseCommand at h
  split at h
  · cases h
  · next t ts hts => exact ⟨t, ts, hts, (CommandParser.name_of_parseNamed h).symm⟩

theorem wf_of_parseCommand {line : Str} {c : Command} (h : parseCommand line = .ok c) : c.WF := by
  unfold parseCommand at h
  split at h
  · cases h
  · next t ts hts =>
    exact CommandParser.wf_of_parseNamed
      (fun u hu => isToken_of_mem_tokens (s := line) (hts ▸ hu)) h

end MiniStore
