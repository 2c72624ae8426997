import MiniStore.Lib.Trace
import MiniStore.Store.SweepCoverage

/-!
# The deadline table over whole runs

The calls of the table in any order keep its three structures in bijection (`Raw.Bijection`), and
with them hold the places where the source asserts that an array access or a lookup is not
undefined. `Raw.clearChecked` and `Raw.collectExpiredChecked` are the two methods with these
accesses made partial; they are always defined and do what the methods do
(`table_stays_bijective`).
-/

namespace MiniStore

namespace ExpiryManager

open RoundRobin DenseIndex

/-- The calls that write the table. -/
inductive Call where
  | set (key : Str) (expiresAtMs : Int)
  | clear (key : Str)
  | collectExpired (nowMs limit : Int)
  deriving DecidableEq

def Call.deadline (key : Str) (before : Option Int) : Call → Option Int
  | set k expiresAtMs => if k = key then some expiresAtMs else before
  | clear k => if k = key then none else before
  | collectExpired _ _ => before

/-- The deadline last set for a key, unless it was cleared since. -/
def lastDeadline (calls : List Call) (key : Str) : Option Int :=
  calls.foldl (Call.deadline key) none

namespace Raw

def call (t : Raw) : Call → Raw
  | .set key expiresAtMs => t.set key expiresAtMs
  | .clear key => (t.clear key).1
  | .collectExpired nowMs limit => (t.collectExpired nowMs limit).1

def run (t : Raw) (calls : List Call) : Raw := calls.foldl call t

/-! ## The accesses asserted to be defined -/

/-- `clear`, undefined where `#keys[lastIdx]` is. -/
def clearChecked (t : Raw) (key : Str) : Option (Raw × Bool) :=
  match t.pos.get? key with
  | none => some (t, false)
  | some idx => do
    let expiresAt := t.expiresAt.delete key
    let pos := t.pos.delete key
    let lastIdx := t.keys.length - 1
    let lastKey ← t.keys[lastIdx]?
    if idx ≠ lastIdx then
      let keys := t.keys.set idx lastKey
      some ({ t with expiresAt, pos := pos.set lastKey idx, keys := keys.dropLast }, true)
    else
      some ({ t with expiresAt, pos, keys := t.keys.dropLast }, true)

/-- The sampling loop, undefined where `#keys[#cursor]` or `#expiresAt.get(key)` is. -/
def collectLoopChecked (nowMs : Int) : Nat → Raw → List Str → Option (Raw × List Str)
  | 0, t, expired => some (t, expired)
  | n + 1, t, expired => do
    let cursor := if t.cursor ≥ t.keys.length then 0 else t.cursor
    let key ← t.keys[cursor]?
    let exp ← t.expiresAt.get? key
    let expired := if nowMs ≥ exp then expired ++ [key] else expired
    collectLoopChecked nowMs n { t with cursor := cursor + 1 } expired

def collectExpiredChecked (t : Raw) (nowMs limit : Int) : Option (Raw × List Str) :=
  let n := t.keys.length
  if n = 0 ∨ limit ≤ 0 then some (t, [])
  else do
    let (t, expired) ← collectLoopChecked nowMs (min limit.toNat n) t []
    some ({ t with cursor := t.cursor % n }, expired)

section

variable {t : Raw} (h : t.WF)

include h

/-- A key that has a position has a last key behind it. -/
theorem WF.clearChecked (key : Str) : t.clearChecked key = some (t.clear key) := by
  unfold Raw.clearChecked Raw.clear swapRemove
  cases hp : t.pos.get? key with
  | none => rfl
  | some idx =>
    have hlt := (List.getElem?_eq_some_iff.mp ((h.indexed key idx).mp hp)).1
    have hlast : t.keys[t.keys.length - 1]? = some (t.keys.getD (t.keys.length - 1) key) := by
      rw [List.getD_eq_getElem?_getD, List.getElem?_eq_getElem (by omega)]
      rfl
    simp only [hlast, Option.bind_eq_bind, Option.bind_some]
    split <;> rfl

/-- Where an iteration looks there is a key, and the key has a deadline. -/
theorem WF.defined_start (hn : 0 < t.keys.length) :
    ∃ key exp, t.keys[t.start]? = some key ∧ t.expiresAt.get? key = some exp := by
  have hkey := List.getElem?_eq_getElem (start_lt hn)
  obtain ⟨exp, hexp⟩ := OrdMap.has_iff.mp ((h.mem _).mp (List.mem_of_getElem? hkey))
  exact ⟨_, exp, hkey, hexp⟩

theorem WF.moved (cursor : Nat) : ({ t with cursor } : Raw).WF := ⟨h.indexed, h.mem⟩

omit h in
theorem collectLoopChecked_eq (now : Int) : ∀ (n : Nat) {t : Raw} (acc : List Str), t.WF →
    0 < t.keys.length → collectLoopChecked now n t acc = some (collectLoop now n t acc)
  | 0, _, _, _, _ => rfl
  | n + 1, t, acc, h, hn => by
    obtain ⟨key, exp, hkey, hexp⟩ := h.defined_start hn
    unfold start at hkey
    have ih := fun acc => collectLoopChecked_eq now n acc (h.moved (t.start + 1)) hn
    unfold start at ih
    have hx : t.isExpired key now = decide (exp ≤ now) := by rw [isExpired, hexp]
    simp only [collectLoopChecked, collectLoop, hkey, hexp, hx, Option.bind_eq_bind,
      Option.bind_some, ih, decide_eq_true_eq, ge_iff_le]

theorem WF.collectExpiredChecked (now limit : Int) :
    t.collectExpiredChecked now limit = some (t.collectExpired now limit) := by
  unfold Raw.collectExpiredChecked Raw.collectExpired
  simp only
  split
  · rfl
  · next hgo =>
    rw [collectLoopChecked_eq now _ [] h (by omega)]
    rfl

/-! ## The three structures -/

theorem WF.has_pos (k : Str) : t.pos.has k = t.expiresAt.has k := by
  rw [Bool.eq_iff_iff, OrdMap.has_iff, ← h.indexed.mem_iff, h.mem]

theorem WF.call (c : Call) : (t.call c).WF := by
  cases c with
  | set key d => exact h.set key d
  | clear key => exact h.clear key
  | collectExpired now limit => exact h.collectExpired now limit

theorem WF.get?_call (c : Call) (k : Str) :
    (t.call c).expiresAt.get? k = c.deadline k (t.expiresAt.get? k) := by
  cases c with
  | set key d => exact (get?_set t key k d).trans (if_congr eq_comm rfl rfl)
  | clear key => exact (get?_clear h key k).trans (if_congr eq_comm rfl rfl)
  | collectExpired now limit =>
    exact congrArg (OrdMap.get? · k) (collectExpired_fields t now limit).1

end

/-- The table is well formed and has the deadlines the calls so far have set. -/
structure Agrees (past : List Call) (t : Raw) : Prop where
  wf : t.WF
  deadline : ∀ k, t.expiresAt.get? k = lastDeadline past k

theorem Agrees.call {past : List Call} {t : Raw} (h : Agrees past t) (c : Call) :
    Agrees (past ++ [c]) (t.call c) := by
  refine ⟨h.wf.call c, fun k => ?_⟩
  rw [h.wf.get?_call, h.deadline, lastDeadline, lastDeadline, List.foldl_append]
  rfl

theorem agrees_run (calls : List Call) : Agrees calls (empty.run calls) :=
  Trace.history_rule (fun c h => h.call c) ⟨wf_empty, fun _ => rfl⟩ calls

/-- Array, index and map carry the same keys, and the map has the deadlines given. -/
structure Bijection (deadlines : Str → Option Int) (t : Raw) : Prop where
  nodup : t.keys.Nodup
  pos : ∀ k i, t.pos.get? k = some i ↔ t.keys[i]? = some k
  expiresAt : t.expiresAt.keys.Perm t.keys
  deadline : ∀ k, t.expiresAt.get? k = deadlines k

/-- A key has the same deadline in both tables, and both or none of them tracks it. -/
structure SameFor (k : Str) (t t' : Raw) : Prop where
  deadline : t'.expiresAt.get? k = t.expiresAt.get? k
  listed : k ∈ t'.keys ↔ k ∈ t.keys
  placed : t'.pos.has k = t.pos.has k

/-- `clear` is about its key only, though it moves another one in the array. -/
theorem WF.sameFor_clear {t : Raw} (h : t.WF) {key k : Str} (hne : k ≠ key) :
    SameFor k t (t.clear key).1 := by
  have hget := (get?_clear h key k).trans (if_neg hne)
  have hhas : (t.clear key).1.expiresAt.has k = t.expiresAt.has k := congrArg Option.isSome hget
  refine ⟨hget, ?_, ?_⟩
  · rw [(h.clear key).mem, h.mem, hhas]
  · rw [(h.clear key).has_pos, h.has_pos, hhas]

end Raw

/-- After every sequence of calls, whatever their times and limits: the array, the index and the
map carry the same keys, each once and with the deadline last set for it; the accesses asserted
to be defined are; clearing a key leaves every other key's deadline and place among the tracked
keys; and a sample holds distinct keys that are expired. -/
theorem table_stays_bijective (calls : List Call) :
    Raw.Bijection (lastDeadline calls) (Raw.empty.run calls) ∧
    (∀ key, (Raw.empty.run calls).clearChecked key = some ((Raw.empty.run calls).clear key)) ∧
    (∀ now limit, (Raw.empty.run calls).collectExpiredChecked now limit =
      some ((Raw.empty.run calls).collectExpired now limit)) ∧
    (∀ key k, k ≠ key →
      Raw.SameFor k (Raw.empty.run calls) ((Raw.empty.run calls).clear key).1) ∧
    ∀ now limit, ((Raw.empty.run calls).collectExpired now limit).2.Nodup ∧
      ∀ k ∈ ((Raw.empty.run calls).collectExpired now limit).2,
        ∃ d, lastDeadline calls k = some d ∧ d ≤ now := by
  obtain ⟨h, hget⟩ := Raw.agrees_run calls
  refine ⟨⟨h.indexed.nodup, h.indexed, h.perm, hget⟩, h.clearChecked, h.collectExpiredChecked,
    fun key k hne => h.sameFor_clear hne, fun now limit => ⟨h.nodup_collectExpired now limit, ?_⟩⟩
  intro k hk
  have hx := collectExpired_expired ⟨Raw.empty.run calls, h⟩ now limit k hk
  obtain ⟨d, hd, hle⟩ := (isExpired_eq _ k now).mp hx
  exact ⟨d, (hget k).symm.trans hd, hle⟩

/-- Clearing the first of three keys moves the last one to its place. -/
example : (Raw.empty.run [.set ['a'] 1, .set ['b'] 2, .set ['c'] 3, .collectExpired 0 2,
    .clear ['a']]).keys = [['c'], ['b']] := by decide

end ExpiryManager

end MiniStore
