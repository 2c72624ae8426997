import MiniStore.Protocol.Printing
import MiniStore.Protocol.Replies

/-!
# The reply grammar

A reply is a line that starts with `+`, `-`, `:` or `$`, or it is a header `*N` followed by
`N` replies. `Replies n` are the texts of `n` replies, one after the other; the text
determines `n` (`Replies.unique`). Every call of a builder whose payload has no line break
makes one reply (`ReplyCall.replies_text`).
-/

namespace MiniStore

open Text

/-- The text has neither CR nor LF. -/
def Unbroken (s : Str) : Prop := ∀ c ∈ s, isBreak c = false

theorem unbroken_of_isToken {t : Str} (h : IsToken t) : Unbroken t := isBreak_of_token h

theorem Unbroken.append {s t : Str} (hs : Unbroken s) (ht : Unbroken t) : Unbroken (s ++ t) :=
  fun c hc => (List.mem_append.mp hc).elim (hs c) (ht c)

theorem Unbroken.cons {c : Char} {s : Str} (hc : isBreak c = false) (hs : Unbroken s) :
    Unbroken (c :: s) := List.forall_mem_cons.mpr ⟨hc, hs⟩

theorem unbroken_toString (n : Nat) : Unbroken (toString n).toList :=
  unbroken_of_isToken (CommandParser.isToken_toString n)

theorem toList_toString_negSucc (n : Nat) :
    (toString (Int.negSucc n)).toList = '-' :: (toString (n + 1)).toList := by
  have h : toString (Int.negSucc n) = "-" ++ toString (n + 1) := rfl
  rw [h, String.toList_append]
  rfl

theorem unbroken_toString_int : ∀ n : Int, Unbroken (toString n).toList
  | .ofNat n => unbroken_toString n
  | .negSucc n => by
    rw [toList_toString_negSucc]
    exact (unbroken_toString (n + 1)).cons rfl

namespace Reply

/-- A line ends at its CRLF. -/
theorem line_inj {u v x y : Str} (hu : Unbroken u) (hv : Unbroken v)
    (h : u ++ (crlf ++ x) = v ++ (crlf ++ y)) : u = v ∧ x = y := by
  induction u generalizing v with
  | nil =>
    cases v with
    | nil =>
      have h : crlf ++ x = crlf ++ y := h
      exact ⟨rfl, List.append_cancel_left h⟩
    | cons d v =>
      obtain ⟨rfl, -⟩ := List.cons.inj h
      exact absurd (hv _ List.mem_cons_self) (by decide)
  | cons c u ih =>
    cases v with
    | nil =>
      obtain ⟨rfl, -⟩ := List.cons.inj h
      exact absurd (hu _ List.mem_cons_self) (by decide)
    | cons d v =>
      obtain ⟨hcd, htail⟩ := List.cons.inj h
      obtain ⟨huv, hxy⟩ := ih (fun c hc => hu c (List.mem_cons_of_mem _ hc))
        (fun c hc => hv c (List.mem_cons_of_mem _ hc)) htail
      exact ⟨by rw [hcd, huv], hxy⟩

/-! ## The grammar -/

def header (n : Nat) : Str := '*' :: (toString n).toList

theorem rawArray_eq (replies : List Str) :
    rawArray replies = header replies.length ++ (crlf ++ replies.flatten) := by
  rw [← List.append_assoc]
  rfl

theorem unbroken_header (n : Nat) : Unbroken (header n) := (unbroken_toString n).cons rfl

theorem header_inj {m n : Nat} (h : header m = header n) : m = n := by
  have hd := congrArg CommandParser.digitsValue (List.cons.inj h).2
  rwa [CommandParser.digitsValue_toString, CommandParser.digitsValue_toString] at hd

/-- What a line that is a reply starts with. -/
def isPrefix (c : Char) : Bool := c == '+' || c == '-' || c == ':' || c == '$'

/-- `n` replies, one after the other. -/
inductive Replies : Nat → Str → Prop
  | none : Replies 0 []
  | line {n : Nat} {c : Char} {body rest : Str} : isPrefix c = true → Unbroken (c :: body) →
      Replies n rest → Replies (n + 1) (c :: body ++ (crlf ++ rest))
  | array {m n : Nat} {inner rest : Str} : Replies m inner → Replies n rest →
      Replies (n + 1) (header m ++ (crlf ++ (inner ++ rest)))

theorem Replies.append {m n : Nat} {s t : Str} (hs : Replies m s) (ht : Replies n t) :
    Replies (m + n) (s ++ t) := by
  induction hs with
  | none => rwa [Nat.zero_add]
  | @line m c body rest hc hb _ ih =>
    have h := Replies.line hc hb ih
    rw [Nat.add_right_comm, List.append_assoc (c :: body), List.append_assoc crlf]
    exact h
  | @array k m inner rest hinner _ _ ih =>
    have h := Replies.array hinner ih
    rw [Nat.add_right_comm, List.append_assoc (header k), List.append_assoc crlf,
      List.append_assoc inner]
    exact h

theorem Replies.eq_zero {n : Nat} (h : Replies n []) : n = 0 := by
  generalize e : ([] : Str) = s at h
  cases h with
  | none => rfl
  | line => cases e
  | array => cases e

theorem isPrefix_ne_header {c : Char} (hc : isPrefix c = true) {body : Str} {n : Nat} :
    c :: body ≠ header n := by
  rintro h
  obtain ⟨rfl, -⟩ := List.cons.inj h
  cases hc

/-- Of a text of replies, the first ones can be taken off in only one way. -/
theorem Replies.cancel {n : Nat} {s : Str} (hs : Replies n s) : ∀ {m : Nat} {t : Str},
    Replies m (s ++ t) → ∃ k, m = n + k ∧ Replies k t := by
  induction hs with
  | none => exact fun {m t} h => ⟨m, (Nat.zero_add m).symm, h⟩
  | @line n c body rest hc hb _ ih =>
    intro m t h
    generalize e : (c :: body ++ (crlf ++ rest)) ++ t = x at h
    rw [List.append_assoc (c :: body), List.append_assoc crlf] at e
    cases h with
    | none => cases e
    | line hc' hb' hrest =>
      obtain ⟨-, htail⟩ := line_inj hb hb' e
      rw [← htail] at hrest
      obtain ⟨k, hk, h⟩ := ih hrest
      exact ⟨k, by omega, h⟩
    | array _ _ => exact absurd (line_inj hb (unbroken_header _) e).1 (isPrefix_ne_header hc)
  | @array a n inner rest hinner _ ih1 ih2 =>
    intro m t h
    generalize e : (header a ++ (crlf ++ (inner ++ rest))) ++ t = x at h
    rw [List.append_assoc (header a), List.append_assoc crlf, List.append_assoc inner] at e
    cases h with
    | none => cases e
    | line hc' hb' _ =>
      exact absurd (line_inj (unbroken_header a) hb' e).1.symm (isPrefix_ne_header hc')
    | array hinner' hrest' =>
      obtain ⟨ha, htail⟩ := line_inj (unbroken_header a) (unbroken_header _) e
      obtain rfl := header_inj ha
      have h := hinner'.append hrest'
      rw [← htail] at h
      obtain ⟨k, hk, h⟩ := ih1 h
      obtain rfl := Nat.add_left_cancel hk
      obtain ⟨k, hk, h⟩ := ih2 h
      exact ⟨k, by omega, h⟩

/-- A text is made of replies in only one way. -/
theorem Replies.unique {m n : Nat} {s : Str} (hm : Replies m s) (hn : Replies n s) : m = n := by
  obtain ⟨k, hk, h⟩ := hm.cancel (t := []) (by rwa [List.append_nil])
  have hz := h.eq_zero
  omega

end Reply

/-! ## The builders -/

/-- A call of one of the builders. -/
inductive ReplyCall where
  | ok (message : Str)
  | value (v : Str)
  | nil
  | integer (n : Int)
  | array (items : List Str)
  | error (message : Str)
  | wrongType
  deriving DecidableEq

namespace ReplyCall

def text : ReplyCall → Str
  | ok message => Reply.okWith message
  | value v => Reply.value v
  | nil => Reply.nil
  | integer n => Reply.integer n
  | array items => Reply.array items
  | error message => Reply.error message
  | wrongType => Reply.wrongType

def lines : ReplyCall → List Str
  | ok message => ['+' :: message]
  | value v => ['$' :: v]
  | nil => ["$(nil)".toList]
  | integer n => [':' :: (toString n).toList]
  | array items => Reply.header items.length :: items.map ('$' :: ·)
  | error message => ["-ERR ".toList ++ message]
  | wrongType => ["-WRONGTYPE Operation against a key holding the wrong kind of value".toList]

/-- The payload has no line break. -/
def Sendable : ReplyCall → Prop
  | ok s | value s | error s => Unbroken s
  | array items => ∀ i ∈ items, Unbroken i
  | nil | integer _ | wrongType => True

def ofLines (ls : List Str) : Str := ls.flatMap (· ++ Reply.crlf)

theorem text_eq (c : ReplyCall) : c.text = ofLines c.lines := by
  have hone : ∀ s : Str, ofLines [s] = s ++ Reply.crlf := fun s => by simp [ofLines]
  cases c with
  | array items =>
    have hitems : (items.map Reply.value).flatten = ofLines (items.map ('$' :: ·)) := by
      rw [ofLines, List.flatMap_map, List.flatMap_def]
      rfl
    rw [text, Reply.array, Reply.rawArray_eq, List.length_map, hitems, ← List.append_assoc]
    rfl
  | ok | value | integer => exact (hone _).symm
  | error message => exact (hone _).symm
  | nil | wrongType => exact (hone _).symm

theorem texts_eq (calls : List ReplyCall) :
    calls.flatMap text = ofLines (calls.flatMap lines) := by
  rw [ofLines, List.flatMap_assoc]
  exact List.flatMap_congr fun c _ => c.text_eq

theorem unbroken_lines {c : ReplyCall} (h : c.Sendable) : ∀ l ∈ c.lines, Unbroken l := by
  have hone : ∀ {s : Str}, Unbroken s → ∀ l ∈ [s], Unbroken l := fun hs l hl =>
    List.mem_singleton.mp hl ▸ hs
  cases c with
  | ok | value => exact hone (Unbroken.cons rfl h)
  | nil | wrongType => exact hone (forall_mem_of_all (by decide))
  | integer n => exact hone ((unbroken_toString_int n).cons rfl)
  | error => exact hone (Unbroken.append (forall_mem_of_all (by decide)) h)
  | array items =>
    refine List.forall_mem_cons.mpr ⟨Reply.unbroken_header _, fun l hl => ?_⟩
    obtain ⟨i, hi, rfl⟩ := List.mem_map.mp hl
    exact (h i hi).cons rfl

theorem ne_nil_of_mem_lines {c : ReplyCall} {l : Str} (h : l ∈ c.lines) : l ≠ [] := by
  cases c with
  | array items =>
    rcases List.mem_cons.mp h with rfl | h
    · exact List.cons_ne_nil _ _
    · obtain ⟨i, -, rfl⟩ := List.mem_map.mp h
      exact List.cons_ne_nil _ _
  | ok | value | integer => exact List.mem_singleton.mp h ▸ List.cons_ne_nil _ _
  | nil | error | wrongType => exact List.mem_singleton.mp h ▸ List.cons_ne_nil _ _

theorem unbroken_flatMap_lines {calls : List ReplyCall} (h : ∀ c ∈ calls, c.Sendable) :
    ∀ l ∈ calls.flatMap lines, Unbroken l := by
  intro l hl
  obtain ⟨c, hc, hl⟩ := List.mem_flatMap.mp hl
  exact unbroken_lines (h c hc) l hl

theorem replies_bulk {items : List Str} (h : ∀ i ∈ items, Unbroken i) :
    Reply.Replies items.length (ofLines (items.map ('$' :: ·))) := by
  induction items with
  | nil => exact .none
  | cons i items ih =>
    obtain ⟨hi, hrest⟩ := List.forall_mem_cons.mp h
    have hreplies := Reply.Replies.line (c := '$') rfl (hi.cons rfl) (ih hrest)
    rw [← List.append_assoc] at hreplies
    exact hreplies

theorem replies_text {c : ReplyCall} (h : c.Sendable) : Reply.Replies 1 c.text := by
  have hone : ∀ {d : Char} {s : Str}, Reply.isPrefix d = true → Unbroken (d :: s) →
      Reply.Replies 1 (ofLines [d :: s]) := by
    intro d s hd hs
    have hreplies := Reply.Replies.line hd hs .none
    rw [List.append_nil] at hreplies
    rw [ofLines, List.flatMap_singleton]
    exact hreplies
  have hlines := unbroken_lines h
  rw [text_eq]
  cases c with
  | array items =>
    have hreplies := Reply.Replies.array (replies_bulk h) .none
    rw [List.append_nil, ← List.append_assoc] at hreplies
    exact hreplies
  | ok | value | integer => exact hone rfl (hlines _ List.mem_cons_self)
  | nil | wrongType => exact hone rfl (hlines _ List.mem_cons_self)
  | error => exact hone rfl (hlines _ List.mem_cons_self)

theorem replies_texts {calls : List ReplyCall} (h : ∀ c ∈ calls, c.Sendable) :
    Reply.Replies calls.length (calls.flatMap text) := by
  induction calls with
  | nil => exact .none
  | cons c calls ih =>
    obtain ⟨hc, hrest⟩ := List.forall_mem_cons.mp h
    have hreplies := (replies_text hc).append (ih hrest)
    rw [Nat.add_comm] at hreplies
    exact hreplies

end ReplyCall

/-! ## Error texts of the parser -/

namespace CommandParser

/-- An error text of the result has no line break. -/
def ErrorUnbroken (r : ParseResult) : Prop := ∀ message, r = .error message → Unbroken message

theorem errorUnbroken_ok (c : Command) : ErrorUnbroken (.ok c) := fun _ h => nomatch h

theorem errorUnbroken_err {message : Str} (h : Unbroken message) : ErrorUnbroken (err message) :=
  fun _ he => Except.error.inj he ▸ h

theorem errorUnbroken_arity {command : String} (h : Unbroken command.toList) :
    ErrorUnbroken (arityError command) :=
  errorUnbroken_err
    ((Unbroken.append (forall_mem_of_all (by decide)) h).append (forall_mem_of_all (by decide)))

theorem errorUnbroken_ite {p : Prop} [Decidable p] {a b : ParseResult} (ha : ErrorUnbroken a)
    (hb : ErrorUnbroken b) : ErrorUnbroken (if p then a else b) := by
  split
  · exact ha
  · exact hb

section

variable {tokens : List Str} {command : String} (hc : Unbroken command.toList)

include hc

theorem errorUnbroken_bare (make : Command) : ErrorUnbroken (parseBare tokens command make) := by
  unfold parseBare
  split
  · exact errorUnbroken_ok _
  · exact errorUnbroken_arity hc

theorem errorUnbroken_unary (make : Str → Command) :
    ErrorUnbroken (parseUnary tokens command make) := by
  unfold parseUnary
  split
  · exact errorUnbroken_ok _
  · exact errorUnbroken_arity hc

theorem errorUnbroken_binary (make : Str → Str → Command) :
    ErrorUnbroken (parseBinary tokens command make) := by
  unfold parseBinary
  split
  · exact errorUnbroken_ok _
  · exact errorUnbroken_arity hc

theorem errorUnbroken_variadic (make : Str → List Str → Command) :
    ErrorUnbroken (parseVariadic tokens command make) := by
  unfold parseVariadic
  split
  · exact errorUnbroken_ok _
  · exact errorUnbroken_arity hc

end

theorem errorUnbroken_set {tokens : List Str} (ht : ∀ t ∈ tokens, IsToken t) :
    ErrorUnbroken (parseSet tokens) := by
  unfold parseSet
  split
  · exact errorUnbroken_ok _
  · next key value ex secs =>
    have hex : Unbroken ex := unbroken_of_isToken (ht ex (by simp))
    refine errorUnbroken_ite (errorUnbroken_err ?_) ?_
    · exact (Unbroken.append (forall_mem_of_all (by decide)) hex).append
        (forall_mem_of_all (by decide))
    · split
      · exact errorUnbroken_err (forall_mem_of_all (by decide))
      · exact errorUnbroken_ok _
  · exact errorUnbroken_arity (forall_mem_of_all (by decide))

theorem errorUnbroken_expire (tokens : List Str) : ErrorUnbroken (parseExpire tokens) := by
  unfold parseExpire
  split
  · split
    · exact errorUnbroken_err (forall_mem_of_all (by decide))
    · exact errorUnbroken_ok _
  · exact errorUnbroken_arity (forall_mem_of_all (by decide))

theorem errorUnbroken_lrange (tokens : List Str) : ErrorUnbroken (parseLrange tokens) := by
  unfold parseLrange
  split
  · split
    · exact errorUnbroken_ok _
    · exact errorUnbroken_err (forall_mem_of_all (by decide))
  · exact errorUnbroken_arity (forall_mem_of_all (by decide))

theorem errorUnbroken_hset (tokens : List Str) : ErrorUnbroken (parseHset tokens) := by
  unfold parseHset
  split
  · exact errorUnbroken_ite (errorUnbroken_arity (forall_mem_of_all (by decide)))
      (errorUnbroken_ok _)
  · exact errorUnbroken_arity (forall_mem_of_all (by decide))

theorem errorUnbroken_subscribe (tokens : List Str) : ErrorUnbroken (parseSubscribe tokens) := by
  unfold parseSubscribe
  split
  · exact errorUnbroken_ok _
  · exact errorUnbroken_arity (forall_mem_of_all (by decide))

theorem errorUnbroken_named {tokens : List Str} (ht : ∀ t ∈ tokens, IsToken t) (name : Str) :
    ErrorUnbroken (parseNamed name tokens) := by
  have hunknown : Unbroken (tokens.headD []) := by
    cases tokens with
    | nil => exact fun _ h => absurd h List.not_mem_nil
    | cons t _ => exact unbroken_of_isToken (ht t List.mem_cons_self)
  unfold parseNamed
  repeat' apply errorUnbroken_ite
  any_goals first
    | exact errorUnbroken_unary (forall_mem_of_all (by decide)) _
    | exact errorUnbroken_bare (forall_mem_of_all (by decide)) _
    | exact errorUnbroken_binary (forall_mem_of_all (by decide)) _
    | exact errorUnbroken_variadic (forall_mem_of_all (by decide)) _
  · exact errorUnbroken_set ht
  · exact errorUnbroken_expire tokens
  · exact errorUnbroken_lrange tokens
  · exact errorUnbroken_hset tokens
  · exact errorUnbroken_subscribe tokens
  · exact errorUnbroken_ok _
  · exact errorUnbroken_err ((Unbroken.append (forall_mem_of_all (by decide)) hunknown).append
      (forall_mem_of_all (by decide)))

end CommandParser

/-- No error text of the parser has a line break. -/
theorem unbroken_of_parseCommand {line message : Str} (h : parseCommand line = .error message) :
    Unbroken message := by
  unfold parseCommand at h
  split at h
  · exact Except.error.inj h ▸ forall_mem_of_all (by decide)
  · next t ts hts =>
    exact CommandParser.errorUnbroken_named
      (fun u hu => isToken_of_mem_tokens (s := line) (hts ▸ hu)) _ message h

end MiniStore
