import MiniStore.Lib.Trace
import MiniStore.Store.Lockstep

/-!
# What a key is to its operations

A list at a key is a deque and a hash at a key is a finite map that remembers the order of
insertion. A `KeyObject` says so once: its states, its requests and their answers, which
operations of the store are requests to it, and which cell stands for a state. Its `correct`
field is the proof for one operation; `KeyObject.run` follows a run of the store in which
operations on other keys come between, as long as they leave the key alone.
-/

namespace MiniStore

open InMemoryStore

structure KeyObject where
  State : Type
  Request : Type
  next : State → Request → State × OpResult
  asks : Str → Op → Option Request
  holds : State → Option Cell → Prop
  correct : ∀ {s : InMemoryStore} {key : Str} {op : Op} {r : Request} {x : State} (now : Clock),
    s.Lockstep → op.HasArguments → asks key op = some r → holds x (s.cell key) →
      (op.run s now).2 = (next x r).2 ∧ holds (next x r).1 ((op.run s now).1.cell key)

namespace KeyObject

variable (o : KeyObject)

/-- The state and the answers after some requests. -/
def serve (x : o.State) : List o.Request → o.State × List OpResult
  | [] => (x, [])
  | r :: rs =>
    match o.next x r with
    | (x, answer) =>
      match serve x rs with
      | (x, answers) => (x, answer :: answers)

/-- What the operations on the key return, in a run of the store. -/
def results (key : Str) : InMemoryStore → List (Op × Clock) → List OpResult
  | _, [] => []
  | s, (op, now) :: ops =>
    match op.run s now with
    | (s, result) =>
      match o.asks key op with
      | some _ => result :: results key s ops
      | none => results key s ops

def requests (key : Str) (ops : List (Op × Clock)) : List o.Request :=
  ops.filterMap fun e => o.asks key e.1

/-- Every operation is a request with its arguments, or leaves the key as it is: it does not
expire, evict or change it. -/
def Undisturbed (key : Str) (s : InMemoryStore) (ops : List (Op × Clock)) : Prop :=
  Trace.Along (fun s e => (e.1.run s e.2).1) (fun s e =>
    match o.asks key e.1 with
    | some _ => e.1.HasArguments
    | none => (e.1.run s e.2).1.cell key = s.cell key) s ops

/-- In a run that leaves the key to its requests, they are answered as the object does, and
the key holds its state. -/
theorem run (key : Str) : ∀ (ops : List (Op × Clock)) {s : InMemoryStore} {x : o.State},
    s.Lockstep → o.holds x (s.cell key) → o.Undisturbed key s ops →
      o.results key s ops = (o.serve x (o.requests key ops)).2 ∧
        o.holds (o.serve x (o.requests key ops)).1 ((runAll s ops).cell key) := by
  intro ops
  induction ops with
  | nil => exact fun _ hx _ => ⟨rfl, hx⟩
  | cons e ops ih =>
    intro s x h hx hu
    obtain ⟨op, now⟩ := e
    obtain ⟨hop, hrest⟩ := hu
    have hnext := h.run op now
    cases ha : o.asks key op with
    | none =>
      simp only [ha] at hop
      have hx' : o.holds x ((op.run s now).1.cell key) := by rwa [hop]
      obtain ⟨hres, hstate⟩ := ih hnext hx' hrest
      have e : o.requests key ((op, now) :: ops) = o.requests key ops :=
        List.filterMap_cons_none ha
      rw [e]
      refine ⟨?_, hstate⟩
      simp only [results, ha]
      exact hres
    | some r =>
      simp only [ha] at hop
      obtain ⟨hres, hx'⟩ := o.correct now h hop ha hx
      obtain ⟨hresults, hstate⟩ := ih hnext hx' hrest
      have e : o.requests key ((op, now) :: ops) = r :: o.requests key ops :=
        List.filterMap_cons_some ha
      rw [e]
      refine ⟨?_, hstate⟩
      simp only [results, ha, serve, hres, hresults]

end KeyObject

theorem InMemoryStore.Lockstep.perform_self {α : Type} {s : InMemoryStore} (h : s.Lockstep)
    {key : Str} (hx : Cell.Permanent (s.cell key)) (now : Clock)
    (f : Option Cell → Effect × α) :
    (s.perform key now f).2 = (f (s.cell key)).2 ∧
      (s.perform key now f).1.cell key = (f (s.cell key)).1.action.onCell (s.cell key) := by
  rw [h.perform_snd, h.cell_perform_self, liveAt_permanent hx]
  exact ⟨rfl, rfl⟩

/-! ## Lists -/

inductive DequeRequest where
  | lpush (values : List Str)
  | rpush (values : List Str)
  | lpop
  | rpop
  | lrange (start stop : Int)
  | llen
  deriving DecidableEq

namespace Deque

def asks (key : Str) : Op → Option DequeRequest
  | .lpush k values => if k = key then some (.lpush values) else none
  | .rpush k values => if k = key then some (.rpush values) else none
  | .lpop k => if k = key then some .lpop else none
  | .rpop k => if k = key then some .rpop else none
  | .lrange k start stop => if k = key then some (.lrange start stop) else none
  | .llen k => if k = key then some .llen else none
  | _ => none

/-- An index that counts from the end when negative. -/
def norm (length : Nat) (i : Int) : Int := if i < 0 then length + i else i

/-- The elements with an index in the range, in order. -/
def between (start stop : Int) (l : List Str) : List Str :=
  (l.zipIdx.filter fun e => norm l.length start ≤ e.2 ∧ e.2 ≤ norm l.length stop).map Prod.fst

def next (l : List Str) : DequeRequest → List Str × OpResult
  | .lpush values => (values.reverse ++ l, .count (.ok (values.length + l.length)))
  | .rpush values => (l ++ values, .count (.ok (l.length + values.length)))
  | .lpop => (l.tail, .item (.ok l.head?))
  | .rpop => (l.dropLast, .item (.ok l.getLast?))
  | .lrange start stop => (l, .items (.ok (between start stop l)))
  | .llen => (l, .count (.ok l.length))

/-- An empty deque is no key at all. -/
def cell (l : List Str) : Option Cell := if l = [] then none else some ⟨.list l, none⟩

theorem permanent_cell (l : List Str) : Cell.Permanent (cell l) := by
  unfold cell
  split
  · exact Cell.permanent_none
  · exact Cell.permanent_some.mpr rfl

theorem cell_of_ne_nil {l : List Str} (h : l ≠ []) : cell l = some ⟨.list l, none⟩ := if_neg h

theorem filter_zipIdx (a b : Int) : ∀ (l : List Str) (n : Nat),
    ((l.zipIdx n).filter fun e => a ≤ e.2 ∧ e.2 ≤ b).map Prod.fst =
      (l.take (b + 1 - n).toNat).drop (a - n).toNat
  | [], n => by simp
  | v :: l, n => by
    have ih := filter_zipIdx a b l (n + 1)
    rw [List.zipIdx_cons, List.filter_cons]
    by_cases hb : (n : Int) ≤ b
    · have htake : (b + 1 - n).toNat = (b + 1 - (n + 1 : Nat)).toNat + 1 := by omega
      rw [htake, List.take_succ_cons]
      by_cases ha : a ≤ n
      · have h0 : (a - n).toNat = 0 := by omega
        have h1 : (a - (n + 1 : Nat)).toNat = 0 := by omega
        rw [if_pos (by simpa using ⟨ha, hb⟩), List.map_cons, ih, h0, h1]
        rfl
      · have h1 : (a - n).toNat = (a - (n + 1 : Nat)).toNat + 1 := by omega
        rw [if_neg (by simpa using fun h => absurd h ha), ih, h1, List.drop_succ_cons]
    · have h0 : (b + 1 - n).toNat = 0 := by omega
      have h1 : (b + 1 - (n + 1 : Nat)).toNat = 0 := by omega
      rw [if_neg (by simpa using fun _ => by omega), ih, h0, h1]
      simp

/-- The index arithmetic of `lrange` picks the elements between the two indices. -/
theorem slice_eq (start stop : Int) (l : List Str) : slice start stop l = between start stop l := by
  have hb : between start stop l =
      (l.take (norm l.length stop + 1).toNat).drop (norm l.length start).toNat := by
    rw [between, filter_zipIdx, Int.natCast_zero, Int.sub_zero, Int.sub_zero]
  have htake : ∀ n : Int, (l.take (n + 1).toNat) =
      l.take ((if n ≥ l.length then (l.length : Int) - 1 else n) + 1).toNat := by
    intro n
    split
    · rw [List.take_of_length_le (by omega), List.take_of_length_le (by omega)]
    · rfl
  -- the clamped end reaches as far
  obtain ⟨last, hlast, hs⟩ : ∃ last : Int,
      l.take (norm l.length stop + 1).toNat = l.take (last + 1).toNat ∧
        slice start stop l =
          if max 0 (norm l.length start) > last then []
          else (l.take (last + 1).toNat).drop (max 0 (norm l.length start)).toNat :=
    ⟨_, htake _, rfl⟩
  have hdrop : (norm l.length start).toNat = (max 0 (norm l.length start)).toNat := by omega
  rw [hs, hb, hlast, hdrop]
  split
  · refine (List.drop_of_length_le ?_).symm
    rw [List.length_take]
    omega
  · rfl

section

variable {s : InMemoryStore} {key : Str} {l : List Str}

theorem push_correct (now : Clock) (h : s.Lockstep) (hc : s.cell key = cell l)
    (addAll : List Str → List Str → List Str) (values : List Str) (hne : addAll l values ≠ []) :
    (s.perform key now (pushCell addAll values)).2 = .ok (addAll l values).length ∧
      (s.perform key now (pushCell addAll values)).1.cell key = cell (addAll l values) := by
  obtain ⟨hres, hcell⟩ := h.perform_self (hc ▸ permanent_cell l) now (pushCell addAll values)
  rw [hres, hcell, hc, cell_of_ne_nil hne]
  unfold cell
  split
  · next hl =>
    subst hl
    exact ⟨rfl, rfl⟩
  · exact ⟨rfl, rfl⟩

theorem pop_correct (now : Clock) (h : s.Lockstep) (hc : s.cell key = cell l)
    (take : List Str → Option Str × List Str) (hnil : take [] = (none, [])) :
    (s.perform key now (popCell take)).2 = .ok (take l).1 ∧
      (s.perform key now (popCell take)).1.cell key = cell (take l).2 := by
  obtain ⟨hres, hcell⟩ := h.perform_self (hc ▸ permanent_cell l) now (popCell take)
  rw [hres, hcell, hc]
  by_cases hl : l = []
  · subst hl
    rw [hnil]
    exact ⟨rfl, rfl⟩
  · rw [cell_of_ne_nil hl]
    simp only [popCell]
    split
    · next he =>
      rw [he]
      exact ⟨rfl, rfl⟩
    · next he =>
      rw [cell_of_ne_nil he]
      exact ⟨rfl, rfl⟩

theorem read_correct (now : Clock) (h : s.Lockstep) (hc : s.cell key = cell l) {α : Type}
    (absent : α) (read : List Str → α) (hnil : read [] = absent) :
    (s.perform key now (readCell StoredValue.asList absent read)).2 = .ok (read l) ∧
      (s.perform key now (readCell StoredValue.asList absent read)).1.cell key = cell l := by
  obtain ⟨hres, hcell⟩ :=
    h.perform_self (hc ▸ permanent_cell l) now (readCell StoredValue.asList absent read)
  rw [hres, hcell, hc]
  by_cases hl : l = []
  · subst hl
    rw [hnil]
    exact ⟨rfl, rfl⟩
  · rw [cell_of_ne_nil hl]
    exact ⟨rfl, rfl⟩

theorem correct {op : Op} {r : DequeRequest} (now : Clock) (h : s.Lockstep)
    (ha : op.HasArguments) (hr : asks key op = some r) (hc : s.cell key = cell l) :
    (op.run s now).2 = (next l r).2 ∧ (op.run s now).1.cell key = cell (next l r).1 := by
  cases op with
  | lpush k values =>
    obtain ⟨rfl, rfl⟩ : k = key ∧ .lpush values = r := by simpa [asks] using hr
    obtain ⟨hres, hcell⟩ := push_correct now h hc unshiftAll values (unshiftAll_ne_nil ha l)
    rw [← lpush_eq h, unshiftAll_eq] at hres hcell
    rw [List.length_append, List.length_reverse] at hres
    exact ⟨congrArg OpResult.count hres, hcell⟩
  | rpush k values =>
    obtain ⟨rfl, rfl⟩ : k = key ∧ .rpush values = r := by simpa [asks] using hr
    obtain ⟨hres, hcell⟩ := push_correct now h hc pushAll values (pushAll_ne_nil ha l)
    rw [← rpush_eq h, pushAll_eq] at hres hcell
    rw [List.length_append] at hres
    exact ⟨congrArg OpResult.count hres, hcell⟩
  | lpop k =>
    obtain ⟨rfl, rfl⟩ : k = key ∧ .lpop = r := by simpa [asks] using hr
    obtain ⟨hres, hcell⟩ := pop_correct now h hc shift rfl
    rw [← lpop_eq] at hres hcell
    exact ⟨congrArg OpResult.item hres, hcell⟩
  | rpop k =>
    obtain ⟨rfl, rfl⟩ : k = key ∧ .rpop = r := by simpa [asks] using hr
    obtain ⟨hres, hcell⟩ := pop_correct now h hc pop rfl
    rw [← rpop_eq] at hres hcell
    exact ⟨congrArg OpResult.item hres, hcell⟩
  | lrange k start stop =>
    obtain ⟨rfl, rfl⟩ : k = key ∧ .lrange start stop = r := by simpa [asks] using hr
    obtain ⟨hres, hcell⟩ := read_correct now h hc [] (slice start stop) (by simp [slice])
    rw [← readAs_eq] at hres hcell
    rw [slice_eq] at hres
    exact ⟨congrArg OpResult.items hres, hcell⟩
  | llen k =>
    obtain ⟨rfl, rfl⟩ : k = key ∧ .llen = r := by simpa [asks] using hr
    obtain ⟨hres, hcell⟩ := read_correct now h hc 0 List.length rfl
    rw [← readAs_eq] at hres hcell
    exact ⟨congrArg OpResult.count hres, hcell⟩
  | _ => cases hr

end

def object : KeyObject where
  State := List Str
  Request := DequeRequest
  next := next
  asks := asks
  holds l c := c = cell l
  correct now h ha hr hc := correct now h ha hr hc

end Deque

/-! ## Hashes -/

inductive FieldRequest where
  | hset (pairs : List (Str × Str))
  | hdel (fields : List Str)
  | hget (field : Str)
  | hgetall
  | hlen
  deriving DecidableEq

/-- A finite map: its fields, in the order in which they were last newly added, and what they
are mapped to. -/
structure FieldMap where
  fields : List Str
  value : Str → Option Str

namespace FieldMap

def empty : FieldMap := ⟨[], fun _ => none⟩

def put (m : FieldMap) (pair : Str × Str) : FieldMap where
  fields := if pair.1 ∈ m.fields then m.fields else m.fields ++ [pair.1]
  value f := if f = pair.1 then some pair.2 else m.value f

def remove (m : FieldMap) (field : Str) : FieldMap where
  fields := m.fields.erase field
  value f := if f = field then none else m.value f

def asks (key : Str) : Op → Option FieldRequest
  | .hset k pairs => if k = key then some (.hset pairs) else none
  | .hdel k fields => if k = key then some (.hdel fields) else none
  | .hget k field => if k = key then some (.hget field) else none
  | .hgetall k => if k = key then some .hgetall else none
  | .hlen k => if k = key then some .hlen else none
  | _ => none

/-- HSET answers by how much the map grows, HDEL by how much it shrinks. -/
def next (m : FieldMap) : FieldRequest → FieldMap × OpResult
  | .hset pairs =>
    let m' := pairs.foldl put m
    (m', .count (.ok (m'.fields.length - m.fields.length)))
  | .hdel fields =>
    let m' := fields.foldl remove m
    (m', .count (.ok (m.fields.length - m'.fields.length)))
  | .hget field => (m, .item (.ok (m.value field)))
  | .hgetall => (m, .items (.ok (m.fields.flatMap fun f => [f, (m.value f).getD []])))
  | .hlen => (m, .count (.ok m.fields.length))

/-- The map of a hash. -/
structure Of (m : FieldMap) (map : OrdMap Str Str) : Prop where
  fields : map.keys = m.fields
  value : ∀ f, map.get? f = m.value f

/-- An empty map is no key at all. -/
def holds (m : FieldMap) (c : Option Cell) : Prop :=
  c = none ∧ m.Of OrdMap.empty ∨
    ∃ map, c = some ⟨.hash map, none⟩ ∧ m.Of map ∧ map.size ≠ 0

section

variable {m : FieldMap} {map : OrdMap Str Str} (h : m.Of map)

include h

theorem Of.mem_iff {f : Str} : f ∈ m.fields ↔ map.has f = true := by
  rw [← h.fields, OrdMap.mem_keys_iff_has]

theorem Of.size : map.size = m.fields.length := by rw [← h.fields, OrdMap.length_keys]

theorem Of.put (pair : Str × Str) : (m.put pair).Of (map.set pair.1 pair.2) := by
  refine ⟨?_, fun f => ?_⟩
  · unfold FieldMap.put
    cases hf : map.has pair.1 with
    | true => rw [OrdMap.keys_set_of_has hf, if_pos (h.mem_iff.mpr hf), h.fields]
    | false =>
      have hn : pair.1 ∉ m.fields := fun hm => by simp [h.mem_iff.mp hm] at hf
      rw [OrdMap.keys_set_of_new hf, if_neg hn, h.fields]
  · rw [OrdMap.get?_set, h.value]
    rfl

theorem Of.remove (field : Str) : (m.remove field).Of (map.delete field) := by
  refine ⟨by rw [OrdMap.keys_delete, h.fields]; rfl, fun f => ?_⟩
  rw [OrdMap.get?_delete, h.value]
  rfl

omit h in
theorem of_setPairs : ∀ (pairs : List (Str × Str)) {m : FieldMap} {map : OrdMap Str Str},
    m.Of map → (pairs.foldl FieldMap.put m).Of (setPairs map pairs).1
  | [], _, _, h => h
  | pair :: pairs, m, map, h => by
    rw [setPairs_cons]
    exact of_setPairs pairs (h.put pair)

omit h in
theorem of_deleteFields : ∀ (fields : List Str) {m : FieldMap} {map : OrdMap Str Str},
    m.Of map → (fields.foldl FieldMap.remove m).Of (deleteFields map fields).1
  | [], _, _, h => h
  | field :: fields, m, map, h => by
    rw [deleteFields_cons]
    exact of_deleteFields fields (h.remove field)

theorem Of.entries : (map.entries.flatMap fun e => [e.1, e.2]) =
    m.fields.flatMap fun f => [f, (m.value f).getD []] := by
  rw [← h.fields, OrdMap.keys, List.flatMap_map]
  refine List.flatMap_congr fun e he => ?_
  rw [← h.value, OrdMap.mem_entries_iff.mp he]
  rfl

end

theorem size_deleteFields (fields : List Str) : ∀ map : OrdMap Str Str,
    (deleteFields map fields).1.size + (deleteFields map fields).2 = map.size := by
  induction fields with
  | nil => intro map; rfl
  | cons f fields ih =>
    intro map
    rw [deleteFields_cons]
    have hrest := ih (map.delete f)
    cases hf : map.has f with
    | false =>
      rw [OrdMap.delete_of_not_has hf] at hrest ⊢
      simpa using hrest
    | true =>
      have hmem : f ∈ map.keys := OrdMap.mem_keys_iff_has.mpr hf
      have hpos := List.length_pos_of_mem hmem
      have hlen : (map.delete f).size = map.size - 1 := by
        rw [← OrdMap.length_keys, OrdMap.keys_delete, List.length_erase_of_mem hmem,
          OrdMap.length_keys]
      rw [OrdMap.length_keys] at hpos
      simp only [if_true]
      omega

theorem Of.of_size {m : FieldMap} {map : OrdMap Str Str} (h : m.Of map) (hs : map.size = 0) :
    m.Of OrdMap.empty := by
  have e : map = OrdMap.empty := OrdMap.ext (List.length_eq_zero_iff.mp hs)
  rwa [← e]

theorem permanent_of_holds {m : FieldMap} {c : Option Cell} (h : m.holds c) :
    Cell.Permanent c := by
  rcases h with ⟨rfl, -⟩ | ⟨map, rfl, -⟩
  · exact Cell.permanent_none
  · exact Cell.permanent_some.mpr rfl

section

variable {s : InMemoryStore} {key : Str} {m : FieldMap}

theorem hset_correct (now : Clock) (h : s.Lockstep) (hc : m.holds (s.cell key))
    {pairs : List (Str × Str)} (hne : pairs ≠ []) :
    (s.hset key pairs now).2 =
        .ok ((pairs.foldl put m).fields.length - m.fields.length) ∧
      (pairs.foldl put m).holds ((s.hset key pairs now).1.cell key) := by
  obtain ⟨hres, hcell⟩ := h.perform_self (permanent_of_holds hc) now (hsetCell pairs)
  obtain ⟨map, b, hm, e⟩ : ∃ map b, m.Of map ∧ hsetCell pairs (s.cell key) =
      (.put (.hash (setPairs map pairs).1) none b, .ok (setPairs map pairs).2) := by
    rcases hc with ⟨hc, hm⟩ | ⟨map, hc, hm, -⟩
    · exact ⟨OrdMap.empty, _, hm, by rw [hc]; rfl⟩
    · exact ⟨map, _, hm, by rw [hc]; rfl⟩
  have hof := of_setPairs pairs hm
  have hsize := size_setPairs pairs map
  rw [hset_eq h, hres, hcell, e]
  refine ⟨?_, .inr ⟨_, rfl, hof, size_setPairs_pos hne⟩⟩
  rw [← hof.size, ← hm.size, hsize, Nat.add_sub_cancel_left]

theorem hdel_correct (now : Clock) (h : s.Lockstep) (hc : m.holds (s.cell key))
    (fields : List Str) :
    (s.hdel key fields now).2 =
        .ok (m.fields.length - (fields.foldl remove m).fields.length) ∧
      (fields.foldl remove m).holds ((s.hdel key fields now).1.cell key) := by
  obtain ⟨hres, hcell⟩ := h.perform_self (permanent_of_holds hc) now (hdelCell fields)
  rw [hdel_eq, hres, hcell]
  rcases hc with ⟨hc, hm⟩ | ⟨map, hc, hm, hpos⟩
  · have hof := of_deleteFields fields hm
    have hsize := size_deleteFields fields OrdMap.empty
    have hzero : m.fields.length = 0 := hm.size.symm
    rw [OrdMap.size_empty] at hsize
    rw [hc, hzero, Nat.zero_sub]
    exact ⟨rfl, .inl ⟨rfl, hof.of_size (by omega)⟩⟩
  · have hof := of_deleteFields fields hm
    have hsize := size_deleteFields fields map
    have hcount : (deleteFields map fields).2 =
        m.fields.length - (fields.foldl remove m).fields.length := by
      rw [← hof.size, ← hm.size]
      omega
    rw [hc, ← hcount]
    simp only [hdelCell]
    split
    · next hs => exact ⟨rfl, .inl ⟨rfl, hof.of_size hs⟩⟩
    · next hs =>
      split
      · exact ⟨rfl, .inr ⟨_, rfl, hof, hs⟩⟩
      · next hn =>
        have e := deleteFields_of_zero fields (Nat.eq_zero_of_not_pos hn)
        rw [e] at hof
        exact ⟨rfl, .inr ⟨map, rfl, hof, hpos⟩⟩

theorem read_correct (now : Clock) (h : s.Lockstep) (hc : m.holds (s.cell key)) {α : Type}
    (absent : α) (read : OrdMap Str Str → α) (value : α)
    (hvalue : ∀ map, m.Of map → read map = value) (habsent : read OrdMap.empty = absent) :
    (readAs StoredValue.asHash absent read s key now).2 = .ok value ∧
      m.holds ((readAs StoredValue.asHash absent read s key now).1.cell key) := by
  obtain ⟨hres, hcell⟩ := h.perform_self (permanent_of_holds hc) now
    (readCell StoredValue.asHash absent read)
  rw [readAs_eq, hres, hcell]
  rcases hc with ⟨hc, hm⟩ | ⟨map, hc, hm, hpos⟩
  · rw [hc, ← hvalue _ hm, habsent]
    exact ⟨rfl, .inl ⟨rfl, hm⟩⟩
  · rw [hc, ← hvalue _ hm]
    exact ⟨rfl, .inr ⟨map, rfl, hm, hpos⟩⟩

theorem correct {op : Op} {r : FieldRequest} (now : Clock) (h : s.Lockstep)
    (ha : op.HasArguments) (hr : asks key op = some r) (hc : m.holds (s.cell key)) :
    (op.run s now).2 = (m.next r).2 ∧ (m.next r).1.holds ((op.run s now).1.cell key) := by
  cases op with
  | hset k pairs =>
    obtain ⟨rfl, rfl⟩ : k = key ∧ .hset pairs = r := by simpa [asks] using hr
    obtain ⟨hres, hcell⟩ := hset_correct now h hc ha
    exact ⟨congrArg OpResult.count hres, hcell⟩
  | hdel k fields =>
    obtain ⟨rfl, rfl⟩ : k = key ∧ .hdel fields = r := by simpa [asks] using hr
    obtain ⟨hres, hcell⟩ := hdel_correct now h hc fields
    exact ⟨congrArg OpResult.count hres, hcell⟩
  | hget k field =>
    obtain ⟨rfl, rfl⟩ : k = key ∧ .hget field = r := by simpa [asks] using hr
    obtain ⟨hres, hcell⟩ := read_correct now h hc none (fun map => map.get? field)
      (m.value field) (fun _ hm => hm.value field) rfl
    exact ⟨congrArg OpResult.item hres, hcell⟩
  | hgetall k =>
    obtain ⟨rfl, rfl⟩ : k = key ∧ .hgetall = r := by simpa [asks] using hr
    obtain ⟨hres, hcell⟩ := read_correct now h hc []
      (fun map => map.entries.flatMap fun e => [e.1, e.2])
      (m.fields.flatMap fun f => [f, (m.value f).getD []]) (fun _ hm => hm.entries) rfl
    exact ⟨congrArg OpResult.items hres, hcell⟩
  | hlen k =>
    obtain ⟨rfl, rfl⟩ : k = key ∧ .hlen = r := by simpa [asks] using hr
    obtain ⟨hres, hcell⟩ := read_correct now h hc 0 OrdMap.size m.fields.length
      (fun _ hm => hm.size) rfl
    exact ⟨congrArg OpResult.count hres, hcell⟩
  | _ => cases hr

end

def object : KeyObject where
  State := FieldMap
  Request := FieldRequest
  next := next
  asks := asks
  holds := holds
  correct now h ha hr hc := correct now h ha hr hc

end FieldMap

namespace InMemoryStore

/-- For every store and every key that is absent in it, through every run of operations in
which the key is left to the list operations (with a value for every push), each at any time:
they return what a deque that starts empty returns, in order, and the key is there exactly
while the deque is not empty, with its elements. -/
theorem list_deque (s : InMemoryStore) (h : s.Lockstep) (key : Str) (habsent : s.cell key = none)
    (ops : List (Op × Clock)) (hu : Deque.object.Undisturbed key s ops) :
    ∃ l : List Str, ∃ answers : List OpResult,
      Deque.object.serve ([] : List Str) (Deque.object.requests key ops) = (l, answers) ∧
        Deque.object.results key s ops = answers ∧
        ((runAll s ops).values.has key = true ↔ l ≠ []) ∧
        (runAll s ops).cell key = Deque.cell l := by
  have hempty : Deque.object.holds ([] : List Str) (s.cell key) := habsent
  obtain ⟨hres, hcell⟩ := Deque.object.run key ops h hempty hu
  refine ⟨_, _, rfl, hres, ?_, hcell⟩
  rw [has_iff_cell]
  constructor
  · intro hne hl
    exact hne (hcell.trans (if_pos hl))
  · intro hl hnone
    have hsome := hcell.trans (Deque.cell_of_ne_nil hl)
    rw [hnone] at hsome
    cases hsome

/-- Pushes at both ends, reads with negative indices, pops until the key is gone; another key
is written in between. -/
theorem list_deque_both_ends :
    Deque.object.results ['l'] (create 2 (by decide))
      [(.lpush ['l'] [['a'], ['b']], Clock.still 0), (.rpush ['l'] [['c']], Clock.still 5),
        (.set ['x'] ['y'] none, Clock.still 5), (.lrange ['l'] (-2) 9, Clock.still 6),
        (.rpop ['l'], Clock.still 7), (.lpop ['l'], Clock.still 8), (.llen ['l'], Clock.still 8),
        (.lpop ['l'], Clock.still 9), (.lpop ['l'], Clock.still 9)] =
      [.count (.ok 2), .count (.ok 3), .items (.ok [['a'], ['c']]), .item (.ok (some ['c'])),
        .item (.ok (some ['b'])), .count (.ok 1), .item (.ok (some ['a'])), .item (.ok none)] := by
  have hkeep : (runAll (create 2 (by decide)) [(.lpush ['l'] [['a'], ['b']], Clock.still 0),
        (.rpush ['l'] [['c']], Clock.still 5), (.set ['x'] ['y'] none, Clock.still 5)]).cell ['l'] =
      (runAll (create 2 (by decide)) [(.lpush ['l'] [['a'], ['b']], Clock.still 0),
        (.rpush ['l'] [['c']], Clock.still 5)]).cell ['l'] := by decide
  obtain ⟨l, answers, hserve, hres, -⟩ := list_deque (create 2 (by decide))
    (lockstep_create 2 (by decide)) ['l'] rfl
    [(.lpush ['l'] [['a'], ['b']], Clock.still 0), (.rpush ['l'] [['c']], Clock.still 5),
      (.set ['x'] ['y'] none, Clock.still 5), (.lrange ['l'] (-2) 9, Clock.still 6),
      (.rpop ['l'], Clock.still 7), (.lpop ['l'], Clock.still 8), (.llen ['l'], Clock.still 8),
      (.lpop ['l'], Clock.still 9), (.lpop ['l'], Clock.still 9)]
    ⟨List.cons_ne_nil _ _, List.cons_ne_nil _ _, hkeep, trivial, trivial, trivial, trivial,
      trivial, trivial, trivial⟩
  rw [hres]
  exact (congrArg Prod.snd hserve).symm

/-- For every store and every key that is absent in it, through every run of operations in
which the key is left to the hash operations (with a pair or a field for every HSET or HDEL),
each at any time: they return what an insertion-ordered finite map that starts empty returns,
in order, and the key is there exactly while the map has a field, with its fields and values. -/
theorem hash_map (s : InMemoryStore) (h : s.Lockstep) (key : Str) (habsent : s.cell key = none)
    (ops : List (Op × Clock)) (hu : FieldMap.object.Undisturbed key s ops) :
    ∃ m : FieldMap, ∃ answers : List OpResult,
      FieldMap.object.serve FieldMap.empty (FieldMap.object.requests key ops) = (m, answers) ∧
        FieldMap.object.results key s ops = answers ∧
        ((runAll s ops).values.has key = true ↔ m.fields ≠ []) ∧
        m.holds ((runAll s ops).cell key) := by
  have hempty : FieldMap.object.holds FieldMap.empty (s.cell key) :=
    .inl ⟨habsent, rfl, fun _ => rfl⟩
  obtain ⟨hres, hcell⟩ := FieldMap.object.run key ops h hempty hu
  refine ⟨_, _, rfl, hres, ?_, hcell⟩
  rw [has_iff_cell, ← List.length_pos_iff]
  rcases hcell with ⟨hc, hm⟩ | ⟨map, hc, hm, hpos⟩
  · have hsize := hm.size
    rw [hc, ← hsize]
    simp
  · have hsize := hm.size
    rw [hc, ← hsize]
    simp only [ne_eq, reduceCtorEq, not_false_eq_true, true_iff]
    omega

/-- A field given twice in one call, overwritten, removed and added again. -/
theorem hash_map_readded :
    FieldMap.object.results ['h'] (create 1 (by decide))
      [(.hset ['h'] [(['a'], ['1']), (['b'], ['2']), (['a'], ['3'])], Clock.still 0),
        (.hdel ['h'] [['a'], ['a'], ['z']], Clock.still 1),
        (.hset ['h'] [(['b'], ['4']), (['a'], ['5'])], Clock.still 2),
        (.hgetall ['h'], Clock.still 2), (.hlen ['h'], Clock.still 3),
        (.hdel ['h'] [['a'], ['b']], Clock.still 3), (.hget ['h'] ['a'], Clock.still 4)] =
      [.count (.ok 2), .count (.ok 1), .count (.ok 1), .items (.ok [['b'], ['4'], ['a'], ['5']]),
        .count (.ok 2), .count (.ok 2), .item (.ok none)] := by
  obtain ⟨m, answers, hserve, hres, -⟩ := hash_map (create 1 (by decide))
    (lockstep_create 1 (by decide)) ['h'] rfl
    [(.hset ['h'] [(['a'], ['1']), (['b'], ['2']), (['a'], ['3'])], Clock.still 0),
      (.hdel ['h'] [['a'], ['a'], ['z']], Clock.still 1),
      (.hset ['h'] [(['b'], ['4']), (['a'], ['5'])], Clock.still 2),
      (.hgetall ['h'], Clock.still 2), (.hlen ['h'], Clock.still 3),
      (.hdel ['h'] [['a'], ['b']], Clock.still 3), (.hget ['h'] ['a'], Clock.still 4)]
    ⟨List.cons_ne_nil _ _, List.cons_ne_nil _ _, List.cons_ne_nil _ _, trivial, trivial,
      List.cons_ne_nil _ _, trivial, trivial⟩
  rw [hres]
  exact (congrArg Prod.snd hserve).symm

end InMemoryStore

end MiniStore
