import MiniStore.Protocol.CommandParser

/-!
# Commands printed and read back

A number is printed by its decimal digits, and a command by its tokens with spaces
between them. The parser reads both back.
-/

namespace MiniStore

open Text

namespace CommandParser

/-! ## Numbers -/

theorem toList_toString (n : Nat) : (toString n).toList = Nat.toDigits 10 n := Nat.toList_repr

theorem isDigit_eq (c : Char) : isDigit c = c.isDigit := by
  unfold isDigit Char.isDigit
  rfl

theorem all_isDigit_toString (n : Nat) : (toString n).toList.all isDigit = true := by
  rw [toList_toString]
  refine List.all_eq_true.mpr fun c hc => ?_
  rw [isDigit_eq]
  exact Nat.isDigit_of_mem_toDigits (by decide) (by decide) hc

theorem digitsValue_toString (n : Nat) : digitsValue (toString n).toList = n := by
  rw [toList_toString]
  exact Nat.ofDigitChars_ten_toDigits

theorem toString_ne_nil (n : Nat) : (toString n).toList ≠ [] := by
  rw [toList_toString]
  exact Nat.toDigits_ne_nil

theorem parsePositiveInt_toString {n : Nat} (h : 1 ≤ n) (h' : n ≤ maxTtlSeconds) :
    parsePositiveInt (toString n).toList = some n := by
  rw [parsePositiveInt, if_pos ⟨toString_ne_nil n, all_isDigit_toString n⟩, digitsValue_toString]
  exact if_neg (by omega)

theorem isSpace_of_isDigit {c : Char} (h : isDigit c = true) : isSpace c = false := by
  obtain ⟨h1, h2⟩ := Bool.and_eq_true_iff.mp h
  have h1 : 48 ≤ c.toNat := of_decide_eq_true h1
  have h2 : c.toNat ≤ 57 := of_decide_eq_true h2
  rw [Bool.eq_false_iff]
  intro hs
  simp only [isSpace, Bool.or_eq_true, Bool.and_eq_true, decide_eq_true_eq, beq_iff_eq] at hs
  omega

theorem isToken_toString (n : Nat) : IsToken (toString n).toList :=
  ⟨toString_ne_nil n, fun _ hc =>
    isSpace_of_isDigit (List.all_eq_true.mp (all_isDigit_toString n) _ hc)⟩

/-- Minus is not a digit. -/
theorem parseSignedInt_digits {digits : Str} (h : digits.all isDigit = true) :
    parseSignedInt digits = signed digits false := by
  unfold parseSignedInt
  split
  · have hminus := (List.all_eq_true.mp h) '-' List.mem_cons_self
    exact absurd hminus (by decide)
  · rfl

theorem parseSignedInt_toString {i : Int} (h : i.natAbs ≤ maxSafeInteger) :
    parseSignedInt (toString i).toList = some i := by
  have hsigned : ∀ (n : Nat) (negative : Bool), n ≤ maxSafeInteger →
      signed (toString n).toList negative = some (if negative then -(n : Int) else n) := by
    intro n negative hn
    rw [signed, if_pos ⟨toString_ne_nil n, all_isDigit_toString n⟩, digitsValue_toString]
    exact if_neg (by omega)
  cases i with
  | ofNat n =>
    show parseSignedInt (toString n).toList = _
    rw [parseSignedInt_digits (all_isDigit_toString n), hsigned n false h]
    rfl
  | negSucc n =>
    have e : (toString (Int.negSucc n)).toList = '-' :: (toString (n + 1)).toList :=
      String.toList_append
    rw [e]
    exact (hsigned (n + 1) true h).trans (by simp [Int.negSucc_eq])

theorem isToken_toString_int (i : Int) : IsToken (toString i).toList := by
  cases i with
  | ofNat n => exact isToken_toString n
  | negSucc n =>
    have e : (toString (Int.negSucc n)).toList = '-' :: (toString (n + 1)).toList :=
      String.toList_append
    rw [e]
    refine ⟨List.cons_ne_nil _ _, fun c hc => ?_⟩
    rcases List.mem_cons.mp hc with rfl | hc
    · decide
    · exact (isToken_toString (n + 1)).2 c hc

/-! ## Commands -/

theorem isToken_of_all {t : Str} (hne : t ≠ []) (h : t.all (fun c => !isSpace c) = true) :
    IsToken t := ⟨hne, forall_mem_of_all h⟩

theorem pairUp_flatMap (pairs : List (Str × Str)) :
    pairUp (pairs.flatMap fun e => [e.1, e.2]) = pairs := by
  induction pairs with
  | nil => rfl
  | cons e pairs ih =>
    rw [List.flatMap_cons]
    exact congrArg (e :: ·) ih

theorem length_flatMap_pairs (pairs : List (Str × Str)) :
    (pairs.flatMap fun e => [e.1, e.2]).length = 2 * pairs.length := by
  induction pairs with
  | nil => rfl
  | cons e pairs ih =>
    have hcons : (e :: pairs).length = pairs.length + 1 := List.length_cons
    rw [List.flatMap_cons, List.length_append, ih, hcons]
    show 2 + 2 * pairs.length = _
    omega

end CommandParser

/-- The tokens behind the name of a command; `ex` is how the keyword of SET is spelled. -/
def Command.arguments (ex : Str) : Command → List Str
  | set key value none => [key, value]
  | set key value (some seconds) => [key, value, ex, (toString seconds).toList]
  | expire key seconds => [key, (toString seconds).toList]
  | lpush key values | rpush key values => key :: values
  | lrange key start stop => [key, (toString start).toList, (toString stop).toList]
  | hset key pairs => key :: pairs.flatMap fun e => [e.1, e.2]
  | hget key field => [key, field]
  | hdel key fields => key :: fields
  | get key | del key | lpop key | .exists key | ttl key | persist key | keys key | rpop key
  | llen key | hgetall key | hlen key | auth key => [key]
  | subscribe channels | unsubscribe channels => channels
  | publish channel message => [channel, message]
  | bgsave | bgrewriteaof | multi | exec | discard => []

namespace CommandParser

section

variable {ex : Str} {c : Command} (h : c.WF)

include h

theorem isToken_arguments (hex : IsToken ex) : ∀ u ∈ c.arguments ex, IsToken u := by
  have one : ∀ {t : Str}, IsToken t → ∀ u ∈ [t], IsToken u := fun ht u hu => by
    rwa [List.mem_singleton.mp hu]
  have more : ∀ {t : Str} {ts : List Str}, IsToken t → (∀ u ∈ ts, IsToken u) →
      ∀ u ∈ t :: ts, IsToken u := fun ht hts => List.forall_mem_cons.mpr ⟨ht, hts⟩
  cases c with
  | set key value seconds =>
    obtain ⟨hk, hv, -⟩ := h
    cases seconds with
    | none => exact more hk (one hv)
    | some n => exact more hk (more hv (more hex (one (isToken_toString n))))
  | expire key n => exact more h.1 (one (isToken_toString n))
  | lpush key values | rpush key values => exact more h.1 h.2.2
  | lrange key start stop =>
    exact more h.1 (more (isToken_toString_int start) (one (isToken_toString_int stop)))
  | hset key pairs =>
    refine more h.1 fun u hu => ?_
    obtain ⟨p, hp, hu⟩ := List.mem_flatMap.mp hu
    exact more (h.2.2 p hp).1 (one (h.2.2 p hp).2) u hu
  | hget key field => exact more h.1 (one h.2)
  | hdel key fields => exact more h.1 h.2.2
  | subscribe channels => exact h.2
  | unsubscribe channels => exact h
  | publish channel message => exact more h.1 (one h.2)
  | get | del | lpop | «exists» | ttl | persist | keys | rpop | llen | hgetall | hlen | auth =>
    exact one h
  | bgsave | bgrewriteaof | multi | exec | discard => exact fun u hu => absurd hu List.not_mem_nil

/-- The switch takes a command's name and its tokens back to the command. -/
theorem parseNamed_arguments (hex : toUpperCase ex = "EX".toList) (t : Str) :
    parseNamed c.name (t :: c.arguments ex) = .ok c := by
  cases c with
  | set key value seconds =>
    cases seconds with
    | none => rfl
    | some n =>
      obtain ⟨h1, h2⟩ := h.2.2 n rfl
      show parseSet [t, key, value, ex, (toString n).toList] = _
      simp only [parseSet, hex, ne_eq, not_true, if_false, parsePositiveInt_toString h1 h2]
  | expire key n =>
    show parseExpire [t, key, (toString n).toList] = _
    simp only [parseExpire, parsePositiveInt_toString h.2.1 h.2.2]
  | lpush key values =>
    obtain ⟨v, vs, rfl⟩ := List.exists_cons_of_ne_nil h.2.1
    rfl
  | rpush key values =>
    obtain ⟨v, vs, rfl⟩ := List.exists_cons_of_ne_nil h.2.1
    rfl
  | hdel key fields =>
    obtain ⟨v, vs, rfl⟩ := List.exists_cons_of_ne_nil h.2.1
    rfl
  | lrange key start stop =>
    show parseLrange [t, key, (toString start).toList, (toString stop).toList] = _
    simp only [parseLrange, parseSignedInt_toString h.2.1, parseSignedInt_toString h.2.2]
  | hset key pairs =>
    have hlen := length_flatMap_pairs pairs
    have hpos := List.length_pos_iff.mpr h.2.1
    show parseHset (t :: key :: pairs.flatMap fun e => [e.1, e.2]) = _
    rw [parseHset, if_neg (by omega), pairUp_flatMap]
  | subscribe channels =>
    obtain ⟨v, vs, rfl⟩ := List.exists_cons_of_ne_nil h.1
    rfl
  | _ => rfl

end

theorem parseCommand_join {t : Str} {ts : List Str} (h : ∀ u ∈ t :: ts, IsToken u) :
    parseCommand (join (t :: ts)) = parseNamed (toUpperCase t) (t :: ts) := by
  rw [parseCommand, tokens_join h]

def isCapital (c : Char) : Bool := 'A' ≤ c && c ≤ 'Z'

theorem isCapital_spec {c : Char} (h : isCapital c = true) :
    isSpace c = false ∧ upperChar c = [c] := by
  obtain ⟨h1, h2⟩ := Bool.and_eq_true_iff.mp h
  have h1 : 65 ≤ c.toNat := of_decide_eq_true h1
  have h2 : c.toNat ≤ 90 := of_decide_eq_true h2
  have hne : ∀ d : Char, 90 < d.toNat → c ≠ d := by
    rintro d hd rfl
    omega
  constructor
  · rw [Bool.eq_false_iff]
    intro hs
    simp only [isSpace, Bool.or_eq_true, Bool.and_eq_true, decide_eq_true_eq, beq_iff_eq] at hs
    omega
  · have hlow : ¬ ('a' ≤ c ∧ c ≤ 'z') := by
      rintro ⟨hl, -⟩
      have : 97 ≤ c.toNat := hl
      omega
    unfold upperChar
    rw [if_neg hlow, if_neg (hne _ (by decide)), if_neg (hne _ (by decide)),
      if_neg (hne _ (by decide)), if_neg (hne _ (by decide)), if_neg (hne _ (by decide)),
      if_neg (hne _ (by decide)), if_neg (hne _ (by decide)), if_neg (hne _ (by decide)),
      if_neg (hne _ (by decide)), if_neg (hne _ (by decide))]

theorem toUpperCase_capitals : ∀ {s : Str}, (∀ c ∈ s, isCapital c = true) → toUpperCase s = s
  | [], _ => rfl
  | c :: s, h => by
    show upperChar c ++ toUpperCase s = _
    rw [(isCapital_spec (h c List.mem_cons_self)).2,
      toUpperCase_capitals fun d hd => h d (List.mem_cons_of_mem _ hd)]
    rfl

theorem isCapital_name (c : Command) : c.name ≠ [] ∧ c.name.all isCapital = true := by
  cases c <;> exact ⟨List.cons_ne_nil _ _, rfl⟩

theorem name_spec (c : Command) : IsToken c.name ∧ toUpperCase c.name = c.name := by
  obtain ⟨hne, hall⟩ := isCapital_name c
  have hall := List.all_eq_true.mp hall
  exact ⟨⟨hne, fun d hd => (isCapital_spec (hall d hd)).1⟩, toUpperCase_capitals hall⟩

/-- The name and the tokens of a well-formed command, with spaces between them. -/
theorem parse_arguments {c : Command} (h : c.WF) :
    parseCommand (join (c.name :: c.arguments "EX".toList)) = .ok c := by
  have hex : IsToken "EX".toList := isToken_of_all (by decide) (by decide)
  rw [parseCommand_join (List.forall_mem_cons.mpr ⟨(name_spec c).1, isToken_arguments h hex⟩),
    (name_spec c).2]
  exact parseNamed_arguments h (by decide) c.name

section

variable {key : Str} (hk : IsToken key)

include hk

theorem parse_set {value : Str} (hv : IsToken value) :
    parseCommand (join ["SET".toList, key, value]) = .ok (.set key value none) :=
  parse_arguments (c := .set key value none) ⟨hk, hv, fun _ h => by cases h⟩

theorem parse_set_ex {value : Str} (hv : IsToken value) {n : Nat} (h1 : 1 ≤ n)
    (h2 : n ≤ maxTtlSeconds) :
    parseCommand (join ["SET".toList, key, value, "EX".toList, (toString n).toList]) =
      .ok (.set key value (some n)) :=
  parse_arguments (c := .set key value (some n)) ⟨hk, hv, fun _ h => by cases h; exact ⟨h1, h2⟩⟩

theorem parse_expire {n : Nat} (h1 : 1 ≤ n) (h2 : n ≤ maxTtlSeconds) :
    parseCommand (join ["EXPIRE".toList, key, (toString n).toList]) = .ok (.expire key n) :=
  parse_arguments (c := .expire key n) ⟨hk, h1, h2⟩

theorem parse_rpush {values : List Str} (hne : values ≠ []) (hv : ∀ v ∈ values, IsToken v) :
    parseCommand (join ("RPUSH".toList :: key :: values)) = .ok (.rpush key values) :=
  parse_arguments (c := .rpush key values) ⟨hk, hne, hv⟩

theorem parse_hset {pairs : List (Str × Str)} (hne : pairs ≠ [])
    (hp : ∀ p ∈ pairs, IsToken p.1 ∧ IsToken p.2) :
    parseCommand (join ("HSET".toList :: key :: pairs.flatMap fun e => [e.1, e.2])) =
      .ok (.hset key pairs) :=
  parse_arguments (c := .hset key pairs) ⟨hk, hne, hp⟩

end

end CommandParser

end MiniStore
