import MiniStore.Recovery.Replay

/-!
# Replaying a whole log onto a restored store

The log starts with the run, the dump was saved later: a replay onto the restored
store runs the commands before the save twice. SET and DEL forget what was there, so
the key is right from then on (`Settled`). A list that is only pushed and popped
stays longer than the live one by what the dump held.

The restored keys no line has touched yet are the least recently used ones of the
replayed store, so they go first when it runs full (`Onto.order`).
-/

namespace MiniStore

open InMemoryStore Engine CommandHandler

/-- SET without EX, DEL, and the commands on lists. -/
def Command.onPlainValues : Command → Bool
  | .set _ _ none | .del _ | .lpush .. | .rpush .. | .lpop _ | .rpop _ => true
  | _ => false

def Command.resets (k : Str) : Command → Bool
  | .set key _ _ | .del key => key == k
  | _ => false

def Command.edits (k : Str) : Command → Bool
  | .lpush key _ | .rpush key _ | .lpop key | .rpop key => key == k
  | _ => false

namespace Recovery

/-- The line is a command that satisfies `p`. -/
def lineIs (p : Command → Bool) (line : Str) : Bool :=
  match parseCommand line with
  | .ok c => p c
  | .error _ => false

def resetIn (log : List Str) (k : Str) : Bool := log.any (lineIs (Command.resets k))

def editedIn (log : List Str) (k : Str) : Bool := log.any (lineIs (Command.edits k))

/-! ## Plain cells -/

/-- Nothing, a string or a list with an element, and no deadline. -/
def Plain : Option Cell → Prop
  | none => True
  | some ⟨.string _, d⟩ => d = none
  | some ⟨.list l, d⟩ => l ≠ [] ∧ d = none
  | some ⟨.hash _, _⟩ => False

def isString : Option Cell → Bool
  | some ⟨.string _, _⟩ => true
  | _ => false

def listLength : Option Cell → Nat
  | some ⟨.list l, _⟩ => l.length
  | _ => 0

theorem plain_cases {x : Option Cell} (h : Plain x) :
    x = none ∨ (∃ v, x = some ⟨.string v, none⟩) ∨ ∃ l, l ≠ [] ∧ x = some ⟨.list l, none⟩ := by
  rcases x with _ | ⟨v | l | m, d⟩
  · exact .inl rfl
  · exact .inr (.inl ⟨v, by rw [show d = none from h]⟩)
  · exact .inr (.inr ⟨l, h.1, by rw [h.2]⟩)
  · exact h.elim

theorem Plain.permanent {x : Option Cell} (h : Plain x) : Cell.Permanent x := by
  rcases plain_cases h with rfl | ⟨v, rfl⟩ | ⟨l, -, rfl⟩
  · exact Cell.permanent_none
  · exact Cell.permanent_some.mpr rfl
  · exact Cell.permanent_some.mpr rfl

theorem Plain.eq_none {x : Option Cell} (h : Plain x) (hs : isString x = false)
    (hl : listLength x = 0) : x = none := by
  rcases plain_cases h with rfl | ⟨v, rfl⟩ | ⟨l, hne, rfl⟩
  · rfl
  · cases hs
  · exact absurd (List.length_eq_zero_iff.mp hl) hne

/-! ## What the commands do to plain cells -/

/-- What such a command does to a plain cell: it writes or deletes it (`reset`), or, if
it holds no string, adds `n` elements or takes one away. -/
inductive Does (f : Option Cell → Effect × Bool) : Bool → Prop
  | set (v : Str) (h : ∀ x, f x = (.put (.string v) none true, true)) : Does f true
  | del (h : f = delCell) : Does f true
  | push (n : Nat) (string : ∀ v d, f (some ⟨.string v, d⟩) = (.keep, false))
      (new : ∃ l b, f none = (.put (.list l) none b, true) ∧ l.length = n)
      (list : ∀ l d, ∃ l', f (some ⟨.list l, d⟩) = (.put (.list l') d true, true) ∧
        l'.length = l.length + n) (pos : 0 < n) : Does f false
  | pop (string : ∀ v d, f (some ⟨.string v, d⟩) = (.keep, false)) (none : f none = (.keep, false))
      (list : ∀ l d, l ≠ [] → ∃ l', l'.length + 1 = l.length ∧
        f (some ⟨.list l, d⟩) = (if l' = [] then .remove else .put (.list l') d true, true)) :
      Does f false

theorem does_of_push {addAll : List Str → List Str → List Str} {vs : List Str} (hvs : vs ≠ [])
    (hadd : ∀ l, (addAll l vs).length = l.length + vs.length) :
    Does (loggedBy (tookCount fun _ => true) (pushCell addAll vs)) false :=
  .push vs.length (fun _ _ => rfl) ⟨_, _, rfl, by rw [hadd]; exact Nat.zero_add _⟩
    (fun l _ => ⟨_, rfl, hadd l⟩) (List.length_pos_iff.mpr hvs)

theorem does_of_pop {take : List Str → Option Str × List Str}
    (htake : ∀ l, l ≠ [] → (take l).1.isSome = true ∧ (take l).2.length + 1 = l.length) :
    Does (loggedBy tookItem (popCell take)) false := by
  refine .pop (fun _ _ => rfl) rfl fun l d hl => ⟨(take l).2, (htake l hl).2, ?_⟩
  have hsome : tookItem (.ok (take l).1) = true := (htake l hl).1
  simp only [loggedBy, popCell]
  split
  · rw [hsome]
  · rw [hsome]

theorem does_of_mutation {c : Command} (hc : c.WF) (hp : c.onPlainValues = true) {now : Clock}
    {key : Str} {f : Option Cell → Effect × Bool} (hm : c.mutation now = some (key, f)) :
    ∃ reset, Does f reset ∧ ∀ k, c.resets k = (reset && key == k) ∧ c.edits k = (!reset && key == k) := by
  cases c with
  | set k v n =>
    cases hm
    cases n with
    | none => exact ⟨true, .set v fun _ => rfl, fun _ => ⟨rfl, rfl⟩⟩
    | some n => cases hp
  | del k => cases hm; exact ⟨true, .del rfl, fun _ => ⟨rfl, rfl⟩⟩
  | lpush k vs =>
    cases hm
    refine ⟨false, does_of_push hc.2.1 fun l => ?_, fun _ => ⟨rfl, rfl⟩⟩
    rw [unshiftAll_eq, List.length_append, List.length_reverse, Nat.add_comm]
  | rpush k vs =>
    cases hm
    refine ⟨false, does_of_push hc.2.1 fun l => ?_, fun _ => ⟨rfl, rfl⟩⟩
    rw [pushAll_eq, List.length_append]
  | lpop k =>
    cases hm
    refine ⟨false, does_of_pop fun l hl => ⟨shift_isSome hl, ?_⟩, fun _ => ⟨rfl, rfl⟩⟩
    cases l with
    | nil => exact absurd rfl hl
    | cons => rfl
  | rpop k =>
    cases hm
    refine ⟨false, does_of_pop fun l hl => ⟨pop_isSome hl, ?_⟩, fun _ => ⟨rfl, rfl⟩⟩
    have := List.length_pos_iff.mpr hl
    show l.dropLast.length + 1 = l.length
    rw [List.length_dropLast]
    omega
  | _ => cases hp

section

variable {f : Option Cell → Effect × Bool} {reset : Bool} (hf : Does f reset)

include hf

theorem Does.plain {x : Option Cell} (hx : Plain x) : Plain ((f x).1.action.onCell x) := by
  cases hf with
  | set v h => rw [h]; rfl
  | del h => rw [h]; cases x <;> trivial
  | push n string new list pos =>
    rcases plain_cases hx with rfl | ⟨v, rfl⟩ | ⟨l, hl, rfl⟩
    · obtain ⟨l, b, e, hn⟩ := new
      rw [e]
      exact ⟨List.length_pos_iff.mp (by omega), rfl⟩
    · rw [string]; exact hx
    · obtain ⟨l', e, hn⟩ := list l none
      rw [e]
      exact ⟨List.length_pos_iff.mp (by omega), rfl⟩
  | pop string none list =>
    rcases plain_cases hx with rfl | ⟨v, rfl⟩ | ⟨l, hl, rfl⟩
    · rw [none]; trivial
    · rw [string]; exact hx
    · obtain ⟨l', hn, e⟩ := list l Option.none hl
      rw [e]
      dsimp only
      split
      · trivial
      · next hne => exact ⟨hne, rfl⟩

/-- A command that is not logged does nothing. -/
theorem Does.unlogged {x : Option Cell} (hx : Plain x) (hlog : (f x).2 = false) :
    (f x).1.action.onCell x = x := by
  cases hf with
  | set v h => rw [h] at hlog; cases hlog
  | del h => rw [h] at hlog ⊢; cases x <;> first | rfl | cases hlog
  | push n string new list pos =>
    rcases plain_cases hx with rfl | ⟨v, rfl⟩ | ⟨l, hl, rfl⟩
    · obtain ⟨l, b, e, -⟩ := new; rw [e] at hlog; cases hlog
    · rw [string]; rfl
    · obtain ⟨l', e, -⟩ := list l none; rw [e] at hlog; cases hlog
  | pop string none list =>
    rcases plain_cases hx with rfl | ⟨v, rfl⟩ | ⟨l, hl, rfl⟩
    · rw [none]; rfl
    · rw [string]; rfl
    · obtain ⟨l', -, e⟩ := list l Option.none hl; rw [e] at hlog; cases hlog

end

/-- On cells that hold no string, a push or a pop is a function of the length. -/
theorem Does.lengths {f : Option Cell → Effect × Bool} (hf : Does f false) :
    ∃ g : Nat → Nat, (∀ m n, m ≤ n → g m ≤ g n) ∧ ∀ x, Plain x → isString x = false →
      isString ((f x).1.action.onCell x) = false ∧
        listLength ((f x).1.action.onCell x) = g (listLength x) ∧
        ((f x).2 = true → ∀ n, g (n + listLength x) = n + g (listLength x)) := by
  cases hf with
  | push n string new list pos =>
    refine ⟨(· + n), fun _ _ h => Nat.add_le_add_right h n, fun x hx hs => ?_⟩
    rcases plain_cases hx with rfl | ⟨v, rfl⟩ | ⟨l, hl, rfl⟩
    · obtain ⟨l, b, e, hn⟩ := new
      rw [e]
      exact ⟨rfl, hn.trans (Nat.zero_add n).symm, fun _ _ => Nat.add_assoc ..⟩
    · cases hs
    · obtain ⟨l', e, hn⟩ := list l none
      rw [e]
      exact ⟨rfl, hn, fun _ _ => Nat.add_assoc ..⟩
  | pop string none list =>
    refine ⟨(· - 1), fun _ _ h => Nat.sub_le_sub_right h 1, fun x hx hs => ?_⟩
    rcases plain_cases hx with rfl | ⟨v, rfl⟩ | ⟨l, hl, rfl⟩
    · rw [none]
      exact ⟨rfl, rfl, fun h => absurd h Bool.false_ne_true⟩
    · cases hs
    · obtain ⟨l', hn, e⟩ := list l Option.none hl
      have hpos : 1 ≤ listLength (some ⟨.list l, Option.none⟩) := List.length_pos_iff.mpr hl
      rw [e]
      refine ⟨?_, ?_, fun _ n => Nat.add_sub_assoc hpos n⟩
      · split <;> rfl
      · show _ = l.length - 1
        split
        · next h0 =>
          rw [h0] at hn
          show 0 = _
          rw [← hn]; rfl
        · show l'.length = _
          omega

/-! ## The live cell and the replayed one -/

/-- The live cell `s` and the replayed one `r` of a key that `b` was restored for. Once
the key is `settled` they are the same. Until then no SET has reached it: a string stays
as it was restored, unless it is evicted, and a list is `b` and the live one together,
if the store is `roomy`. -/
inductive Tie (roomy : Prop) (b : Option Cell) : Bool → Option Cell → Option Cell → Prop
  | settled (s : Option Cell) : Tie roomy b true s s
  | string {s r : Option Cell} (hb : isString b = true) (hs : isString s = false)
      (hr : r = b ∨ isString r = false ∧ listLength r ≤ listLength s) : Tie roomy b false s r
  | list {s r : Option Cell} (hb : isString b = false) (hs : isString s = false)
      (hr : isString r = false) (hl : roomy → listLength r = listLength b + listLength s) :
      Tie roomy b false s r

/-- Why the replay may hold the key `r` among those used since the restore. -/
inductive Busy (b : Option Cell) (settled edited : Bool) (r : Option Cell) : Prop
  | settled (h : settled = true)
  | string (hb : isString b = true) (hr : isString r = false)
  | list (hb : isString b = false) (h : edited = true)

section

variable {f : Option Cell → Effect × Bool} {reset : Bool} (hf : Does f reset) {roomy : Prop}
  {b s r : Option Cell} {settled : Bool} (h : Tie roomy b settled s r)

include hf

/-- SET and DEL leave the same whatever there was. -/
theorem Does.onCell_congr (hr : reset = true) (x y : Option Cell) :
    (f x).1.action.onCell x = (f y).1.action.onCell y := by
  cases hf with
  | set v h => rw [h, h]; rfl
  | del h => rw [h]; cases x <;> cases y <;> rfl
  | push => cases hr
  | pop => cases hr

/-- A string refuses a push or a pop. -/
theorem Does.keep_of_isString (hn : reset = false) {x : Option Cell} (hx : Plain x)
    (hs : isString x = true) : (f x).1 = .keep := by
  obtain ⟨v, rfl⟩ : ∃ v, x = some ⟨.string v, none⟩ := by
    rcases plain_cases hx with rfl | ⟨v, rfl⟩ | ⟨l, -, rfl⟩
    · cases hs
    · exact ⟨v, rfl⟩
    · cases hs
  cases hf with
  | set => cases hn
  | del => cases hn
  | push n string => rw [string]
  | pop string => rw [string]

/-- A reset passes over an absent key only. -/
theorem Does.eq_none_of_keep (hr : reset = true) {x : Option Cell}
    (hk : (f x).1.action = .keep) : x = none := by
  cases hf with
  | set v h => rw [h] at hk; cases hk
  | del h =>
    rw [h] at hk
    cases x with
    | none => rfl
    | some c => cases hk
  | push => cases hr
  | pop => cases hr

include h

theorem Tie.logged (hs : Plain s) (hr : Plain r) (hlog : (f s).2 = true) :
    Tie roomy b (settled || reset) ((f s).1.action.onCell s) ((f r).1.action.onCell r) := by
  cases reset with
  | true =>
    rw [Bool.or_true, hf.onCell_congr rfl r s]
    exact .settled _
  | false =>
    rw [Bool.or_false]
    obtain ⟨g, hmono, hg⟩ := hf.lengths
    cases h with
    | settled => exact .settled _
    | string hb hns h =>
      obtain ⟨hs1, hs2, -⟩ := hg s hs hns
      refine .string hb hs1 ?_
      rcases h with rfl | ⟨hnr, hle⟩
      · rw [hf.keep_of_isString rfl hr hb]
        exact .inl rfl
      · obtain ⟨hr1, hr2, -⟩ := hg r hr hnr
        exact .inr ⟨hr1, by rw [hr2, hs2]; exact hmono _ _ hle⟩
    | list hb hns hnr hl =>
      obtain ⟨hs1, hs2, hs3⟩ := hg s hs hns
      obtain ⟨hr1, hr2, -⟩ := hg r hr hnr
      exact .list hb hs1 hr1 fun hro => by rw [hr2, hl hro, hs3 hlog, hs2]

/-- A key that the command uses on the replayed side is busy. -/
theorem Tie.busy (hr : Plain r) {edited : Bool} (hu : (f r).1.action.Uses) :
    Busy b (settled || reset) (edited || !reset) ((f r).1.action.onCell r) := by
  cases reset with
  | true => exact .settled (Bool.or_true _)
  | false =>
    cases h with
    | settled => exact .settled rfl
    | string hb hns h =>
      rcases h with rfl | ⟨hnr, -⟩
      · rw [hf.keep_of_isString rfl hr hb] at hu
        exact hu.elim
      · obtain ⟨g, -, hg⟩ := hf.lengths
        exact .string hb (hg r hr hnr).1
    | list hb => exact .list hb (Bool.or_true _)

end

theorem Busy.mono {b r r' : Option Cell} {settled settled' edited edited' : Bool}
    (h : Busy b settled edited r) (hs : settled = true → settled' = true)
    (he : edited = true → edited' = true) (hr : r' = r ∨ r' = none) :
    Busy b settled' edited' r' := by
  cases h with
  | settled h => exact .settled (hs h)
  | string hb h =>
    refine .string hb ?_
    rcases hr with rfl | rfl
    · exact h
    · rfl
  | list hb h => exact .list hb (he h)

theorem Tie.evicted {roomy : Prop} {b s r : Option Cell} (h : Tie roomy b false s r)
    (hr : ¬roomy) : Tie roomy b false s none := by
  cases h with
  | string hb hs => exact .string hb hs (.inr ⟨rfl, Nat.zero_le _⟩)
  | list hb hs => exact .list hb hs rfl fun h => absurd h hr

/-- A busy key that the live store does not hold is an edited list. -/
theorem Busy.edited {roomy : Prop} {b s r : Option Cell} {settled edited : Bool}
    (h : Busy b settled edited r) (ht : Tie roomy b settled s r) (hr : Plain r) (hn : r ≠ none)
    (hs : s = none) : settled = false ∧ isString b = false ∧ edited = true := by
  subst hs
  cases ht with
  | settled => exact absurd rfl hn
  | string hb _ hor =>
    cases h with
    | settled h => cases h
    | string _ hnr =>
      rcases hor with rfl | ⟨-, hle⟩
      · rw [hb] at hnr; cases hnr
      · exact absurd (hr.eq_none hnr (Nat.le_zero.mp hle)) hn
    | list hb' => rw [hb] at hb'; cases hb'
  | list hb =>
    cases h with
    | settled h => cases h
    | string hb' => rw [hb] at hb'; cases hb'
    | list _ he => exact ⟨rfl, hb, he⟩

/-! ## The live store and the replayed one -/

/-- The replay no longer depends on what was restored under the key. -/
def settledIn (base : Option Cell) (log : List Str) (k : Str) : Bool := base.isNone || resetIn log k

/-- Of the lists, those a replay of the log may hold while the store does not. -/
def staleIn (lists : List Str) (log : List Str) (s : InMemoryStore) : List Str :=
  lists.filter fun k => (s.cell k).isNone && editedIn log k && !resetIn log k

/-- Of the keys, those the store does not hold. -/
def missingIn (keys : List Str) (s : InMemoryStore) : List Str :=
  keys.filter fun k => (s.cell k).isNone

/-- The store after the log, and the replay of the log onto a store of the cells
`base`: cell by cell they are tied, and of the replayed keys the busy ones were used
last, before any key that is not settled. -/
structure Onto (base : Str → Option Cell) (roomy : Prop) (log : List Str)
    (live replayed : InMemoryStore) : Prop where
  livePlain : ∀ k, Plain (live.cell k)
  plain : ∀ k, Plain (replayed.cell k)
  tie : ∀ k, Tie roomy (base k) (settledIn (base k) log k) (live.cell k) (replayed.cell k)
  order : ∃ new old, replayed.view.order = new ++ old ∧
    (∀ k ∈ new, Busy (base k) (settledIn (base k) log k) (editedIn log k) (replayed.cell k)) ∧
    ∀ k ∈ old, settledIn (base k) log k = false

theorem onto_restored {maxKeys : Nat} {hm : 1 ≤ maxKeys} {r : InMemoryStore} (roomy : Prop)
    (hp : ∀ k, Plain (r.cell k)) (hr : r.Lockstep) :
    Onto r.cell roomy [] (InMemoryStore.create maxKeys hm) r := by
  refine ⟨fun _ => trivial, hp, fun k => ?_, [], r.view.order, rfl, List.forall_mem_nil _,
    fun k hk => ?_⟩
  · rw [cell_create]
    rcases plain_cases (hp k) with e | ⟨v, e⟩ | ⟨l, -, e⟩ <;> rw [e]
    · exact .settled none
    · exact .string rfl rfl (.inl rfl)
    · exact .list rfl rfl rfl fun _ => rfl
  · have hne : r.cell k ≠ none := (hr.view_wf.mem k).mp hk
    have hsome := Option.isSome_iff_ne_none.mpr hne
    simpa [settledIn, resetIn] using hsome

section

variable {base : Str → Option Cell} {roomy : Prop} {log : List Str} {s r : InMemoryStore}
  (h : Onto base roomy log s r) (hr : r.Lockstep)

include h hr

omit hr in
/-- The busy keys are live or stale. -/
theorem Onto.length_busy {lists : List Str}
    (hl : ∀ k, base k ≠ none → isString (base k) = false → k ∈ lists) {new : List Str}
    (hn : new.Nodup) (hne : ∀ k ∈ new, r.cell k ≠ none)
    (hb : ∀ k ∈ new, Busy (base k) (settledIn (base k) log k) (editedIn log k) (r.cell k)) :
    new.length ≤ s.size + (staleIn lists log s).length := by
  have hsub : ∀ k ∈ new, k ∈ s.values.keys ++ staleIn lists log s := by
    intro k hk
    by_cases hs : s.cell k = none
    · obtain ⟨hset, hstr, hed⟩ := (hb k hk).edited (h.tie k) (h.plain k) (hne k hk) hs
      obtain ⟨hbase, hres⟩ := Bool.or_eq_false_iff.mp hset
      have hbase : base k ≠ none := fun e => by rw [e] at hbase; cases hbase
      exact List.mem_append_right _ (List.mem_filter.mpr
        ⟨hl k hbase hstr, by simp [hs, hed, hres]⟩)
    · exact List.mem_append_left _ (OrdMap.mem_keys_iff_has.mpr (has_iff_cell.mpr hs))
  have := (List.subperm_of_subset hn hsub).length_le
  rwa [List.length_append, OrdMap.length_keys] at this

theorem Onto.size_le {keys : List Str} (hk : ∀ k, base k ≠ none → k ∈ keys) :
    r.size ≤ s.size + (missingIn keys s).length := by
  have hsub : ∀ k, r.cell k ≠ none → k ∈ s.values.keys ++ missingIn keys s := by
    intro k hrk
    by_cases hs : s.cell k = none
    · refine List.mem_append_right _ (List.mem_filter.mpr ⟨hk k fun hb => ?_, by simp [hs]⟩)
      have ht := h.tie k
      rw [hb, hs] at ht
      generalize r.cell k = x at ht hrk
      cases ht with
      | settled => exact hrk rfl
    · exact List.mem_append_left _ (OrdMap.mem_keys_iff_has.mpr (has_iff_cell.mpr hs))
  have := hr.size_le_of_subset hsub
  rwa [List.length_append, OrdMap.length_keys] at this

/-- With room for the stale lists, the replay evicts keys only that are not settled. -/
theorem Onto.victim {lists keys : List Str}
    (hl : ∀ k, base k ≠ none → isString (base k) = false → k ∈ lists)
    (hk : ∀ k, base k ≠ none → k ∈ keys)
    (hroom : s.size + (staleIn lists log s).length < r.maxKeys)
    (hroomy : roomy → s.size + (missingIn keys s).length < r.maxKeys) {key v : Str}
    (hv : r.view.victim r.maxKeys key = some v) : settledIn (base v) log v = false ∧ ¬roomy := by
  obtain ⟨-, -, hfull⟩ := LruCache.victim_mem hv
  obtain ⟨new, old, ho, hnew, hold⟩ := h.order
  refine ⟨hold v (LruCache.victim_mem_old ho (fun he => ?_) hv), fun hro => ?_⟩
  · -- the busy keys alone do not fill the store
    have ho' : r.view.order = new := by rw [ho, he, List.append_nil]
    have hlen := h.length_busy hl (ho' ▸ hr.view_wf.nodup)
      (fun k hkn => (hr.view_wf.mem k).mp (ho' ▸ hkn)) hnew
    rw [ho'] at hfull
    omega
  · have hsize := h.size_le hr hk
    have hlen : r.view.order.length = r.size := hr.length_order
    have := hroomy hro
    omega

end

theorem Onto.congr_live {base : Str → Option Cell} {roomy : Prop} {log : List Str}
    {s s' r : InMemoryStore} (h : Onto base roomy log s r) (hc : ∀ k, s'.cell k = s.cell k) :
    Onto base roomy log s' r :=
  ⟨fun k => hc k ▸ h.livePlain k, h.plain, fun k => hc k ▸ h.tie k, h.order⟩

section

variable {base : Str → Option Cell} {roomy : Prop} {log log' : List Str} {s r : InMemoryStore}
  (h : Onto base roomy log s r) (hr : r.Lockstep) {key : Str}
  (hvic : ∀ v, r.view.victim r.maxKeys key = some v → settledIn (base v) log v = false ∧ ¬roomy)
  {f : Option Cell → Effect × Bool} {reset : Bool} (hf : Does f reset)
  (hres : ∀ k, resetIn log' k = (resetIn log k || (reset && key == k)))
  (hed : ∀ k, editedIn log' k = (editedIn log k || (!reset && key == k))) (now' : Clock)

include hres in
theorem settledIn_logged (x : Option Cell) (k : Str) :
    settledIn x log' k = (settledIn x log k || (reset && key == k)) := by
  unfold settledIn
  rw [hres, Bool.or_assoc]

include hres in
theorem settledIn_self (x : Option Cell) :
    settledIn x log' key = (settledIn x log key || reset) := by
  rw [settledIn_logged hres, beq_self_eq_true, Bool.and_true]

include hres in
theorem settledIn_other (x : Option Cell) {k : Str} (hk : k ≠ key) :
    settledIn x log' k = settledIn x log k := by
  rw [settledIn_logged hres, beq_eq_false_iff_ne.mpr hk.symm, Bool.and_false, Bool.or_false]

include h hr

theorem Onto.cell_self (f : Option Cell → Effect × Bool) : (r.perform key now' f).1.cell key =
    (f (r.cell key)).1.action.onCell (r.cell key) :=
  (congrArg (LruCache.cell · key) (hr.view_perform_permanent now' f (h.plain key).permanent)).trans
    (LruCache.cell_commit_self _)

include hvic

theorem Onto.cell_other (f : Option Cell → Effect × Bool) {k : Str} (hk : k ≠ key) :
    (r.perform key now' f).1.cell k = r.cell k ∨
      (settledIn (base k) log k = false ∧ ¬roomy) ∧ (r.perform key now' f).1.cell k = none := by
  have hview := hr.view_perform_permanent now' f (h.plain key).permanent
  have hcommit : (r.view.commit r.maxKeys key (f (r.cell key)).1.action).cell k = _ ∨ _ :=
    LruCache.cell_commit_other hk _
  rcases hcommit with e | ⟨-, hv, e⟩
  · exact .inl ((congrArg (LruCache.cell · k) hview).trans e)
  · exact .inr ⟨hvic k hv, (congrArg (LruCache.cell · k) hview).trans e⟩

include hf hres hed

/-- The keys in use stay ahead of those that are not settled. -/
theorem Onto.order_logged : ∃ new old, (r.perform key now' f).1.view.order = new ++ old ∧
    (∀ k ∈ new, Busy (base k) (settledIn (base k) log' k) (editedIn log' k)
      ((r.perform key now' f).1.cell k)) ∧ ∀ k ∈ old, settledIn (base k) log' k = false := by
  have hview := hr.view_perform_permanent now' f (h.plain key).permanent
  have hself : (r.perform key now' f).1.cell key = _ := h.cell_self hr now' f
  obtain ⟨new, old, ho, hnew, hold⟩ := h.order
  obtain ⟨new', old', ho', hnew', hold'⟩ : ∃ new' old',
      (r.view.commit r.maxKeys key (f (r.cell key)).1.action).order = new' ++ old' ∧ _ :=
    LruCache.order_commit_split hr.view_wf.nodup ho _
  have hbusy : (f (r.cell key)).1.action.Uses → Busy (base key) (settledIn (base key) log' key)
      (editedIn log' key) ((r.perform key now' f).1.cell key) := by
    intro hu
    rw [settledIn_self hres, hed, beq_self_eq_true, Bool.and_true, hself]
    exact (h.tie key).busy hf (h.plain key) hu
  refine ⟨new', old', by rw [hview, ho'], fun k hk => ?_, fun k hk => ?_⟩
  · rcases hnew' k hk with ⟨rfl, hu⟩ | hk
    · exact hbusy hu
    · have hmono : ∀ {x}, x = r.cell k ∨ x = none → Busy (base k) (settledIn (base k) log' k)
          (editedIn log' k) x :=
        fun hx => (hnew k hk).mono (fun e => by rw [settledIn_logged hres, e, Bool.true_or])
          (fun e => by rw [hed, e, Bool.true_or]) hx
      by_cases e : k = key
      · subst e
        rcases (f (r.cell k)).1.action.uses_or (r.cell k) with hu | hx
        · exact hbusy hu
        · rw [hself]
          exact hmono hx
      · exact hmono ((h.cell_other hr hvic now' f e).imp_right And.right)
  · obtain ⟨hk, hkeep⟩ := hold' k hk
    by_cases e : k = key
    · subst e
      rw [settledIn_self hres, hold k hk, Bool.false_or]
      -- a reset would have removed the key
      have hne : r.cell k ≠ none := (hr.view_wf.mem k).mp (ho ▸ List.mem_append_right _ hk)
      cases reset with
      | true => exact absurd (hf.eq_none_of_keep rfl (hkeep rfl)) hne
      | false => rfl
    · rw [settledIn_other hres _ e]
      exact hold k hk

theorem Onto.logged (hs : s.Lockstep) (hsize : s.size < s.maxKeys)
    (hlog : (f (s.cell key)).2 = true) (now : Clock) :
    Onto base roomy log' (s.perform key now f).1 (r.perform key now' f).1 := by
  have hlive : ∀ k, (s.perform key now f).1.cell k = _ :=
    hs.cell_perform_permanent (h.livePlain key).permanent hsize
  refine ⟨fun k => ?_, fun k => ?_, fun k => ?_, h.order_logged hr hvic hf hres hed now'⟩
  · rw [hlive]
    split
    · exact hf.plain (h.livePlain key)
    · exact h.livePlain k
  · by_cases hk : k = key
    · rw [hk, h.cell_self hr]
      exact hf.plain (h.plain key)
    · rcases h.cell_other hr hvic now' f hk with e | ⟨-, e⟩ <;> rw [e]
      · exact h.plain k
      · trivial
  · by_cases hk : k = key
    · subst hk
      rw [hlive, if_pos rfl, h.cell_self hr, settledIn_self hres]
      exact (h.tie k).logged hf (h.livePlain k) (h.plain k) hlog
    · rw [hlive, if_neg hk, settledIn_other hres _ hk]
      rcases h.cell_other hr hvic now' f hk with e | ⟨⟨hu, hro⟩, e⟩ <;> rw [e]
      · exact h.tie k
      · have ht := h.tie k
        rw [hu] at ht ⊢
        exact ht.evicted hro

end

/-! ## Runs -/

/-- The line adds its command's resets and edits to the log. -/
theorem lineIs_of_parse {line : Str} {c : Command} (hp : parseCommand line = .ok c)
    (p : Command → Bool) : lineIs p (Text.trim line) = p c := by
  rw [lineIs, parseCommand_trim, hp]

theorem resetIn_append (log l : List Str) (k : Str) :
    resetIn (log ++ l) k = (resetIn log k || resetIn l k) := List.any_append

theorem editedIn_append (log l : List Str) (k : Str) :
    editedIn (log ++ l) k = (editedIn log k || editedIn l k) := List.any_append

/-- What a mutating command on plain values is. -/
theorem does_of_runsOnly {m : Moment} (hr : m.runsOnly Command.onPlainValues = true)
    {item : QueuedCommand} (hi : m.item = some item)
    (hp : parseCommand item.line = .ok item.command) {now : Clock} {key : Str}
    {f : Option Cell → Effect × Bool} (hm : item.command.mutation now = some (key, f)) :
    (∀ now', item.command.mutation now' = some (key, f)) ∧ ∃ reset, Does f reset ∧
      ∀ k, resetIn [Text.trim item.line] k = (reset && key == k) ∧
        editedIn [Text.trim item.line] k = (!reset && key == k) := by
  have hc := Moment.command_of_runsOnly hr hi hm
  obtain ⟨reset, hf, hk⟩ := does_of_mutation (wf_of_parseCommand hp) hc hm
  have ht : item.command.timeless = true := by
    generalize item.command = c at hc
    cases c with
    | set k v n =>
      cases n with
      | none => rfl
      | some n => cases hc
    | expire => cases hc
    | _ => rfl
  refine ⟨fun now' => (Command.mutation_timeless ht now' now).trans hm, reset, hf, fun k => ?_⟩
  unfold resetIn editedIn
  simp only [List.any_cons, List.any_nil, Bool.or_false, lineIs_of_parse hp]
  exact hk k

/-- The room a run leaves at a moment: for the stale lists, and for every restored key
if the replay is to be `roomy`. -/
def LeavesRoom (maxKeys : Nat) (lists keys : List Str) (roomy : Prop) (m : Moment) : Prop :=
  m.store.size + (staleIn lists m.log m.store).length < maxKeys ∧
    (roomy → m.store.size + (missingIn keys m.store).length < maxKeys)

/-- Along a run of commands on plain values that leaves room, the replay of the log onto
a restored store stays tied to the live store. -/
theorem onto_steps {maxKeys : Nat} {hm : 1 ≤ maxKeys} {h0 : Engine} (h0f : Fresh maxKeys hm h0)
    {r : InMemoryStore} (hr : r.Lockstep) (hmax : r.maxKeys = maxKeys)
    (hp : ∀ k, Plain (r.cell k)) {lists keys : List Str}
    (hl : ∀ k, r.cell k ≠ none → isString (r.cell k) = false → k ∈ lists)
    (hk : ∀ k, r.cell k ≠ none → k ∈ keys) (roomy : Prop) (clocks : Nat → Nat → Clocks)
    {ms : List Moment} {h : Engine} (hs : Engine.Steps h0 ms h)
    (ha : ∀ m ∈ ms, m.runsOnly Command.onPlainValues = true ∧ LeavesRoom maxKeys lists keys roomy m) :
    Onto r.cell roomy h.lines h.store (replay r h.lines clocks) := by
  refine steps_rule (P := fun _ s log => Onto r.cell roomy log s (replay r log clocks))
    h0f.sound ?_ ?_ ?_ hs (along_of_forall ha)
  · rw [h0f.lines, h0f.store]
    exact onto_restored roomy hp hr
  · intro ms h item clk key f hS ih ⟨hro, hstale, hmissing⟩ hpl hmu
    obtain ⟨hmu', reset, hf, hline⟩ := does_of_runsOnly hro rfl hpl hmu
    have hperm := (ih.livePlain key).permanent
    have hsize : h.store.size < h.store.maxKeys := by
      rw [hS.maxKeys]
      exact Nat.lt_of_le_of_lt (Nat.le_add_right _ _) hstale
    rw [liveAt_permanent hperm,
      replay_logged hr hS.logged clocks hpl (hmu' (clocks h.lines.length 0 0))]
    cases hlog : (f (h.store.cell key)).2 with
    | true =>
      have hrmax : (replay r h.lines clocks).maxKeys = maxKeys :=
        (maxKeys_replay hr hS.logged clocks).trans hmax
      have hlr := lockstep_replay hr hS.logged clocks
      rw [if_pos rfl, if_pos rfl]
      refine ih.logged hlr (fun v hv => ?_) hf (fun k => ?_) (fun k => ?_) _ hS.lockstep hsize hlog _
      · exact ih.victim hlr hl hk (hrmax ▸ hstale) (fun hro => hrmax ▸ hmissing hro) hv
      · rw [resetIn_append, (hline k).1]
      · rw [editedIn_append, (hline k).2]
    | false =>
      have hcell : ∀ k, (h.store.perform key (clk 0) f).1.cell k = h.store.cell k := by
        intro k
        rw [hS.lockstep.cell_perform_permanent hperm hsize]
        split
        · next e => rw [e]; exact hf.unlogged (ih.livePlain key) hlog
        · rfl
      rw [if_neg Bool.false_ne_true, if_neg Bool.false_ne_true, List.append_nil]
      exact ih.congr_live hcell
  · intro ms h item clk s' _ ih _ _ hd
    exact ih.congr_live fun k => hd.cell_eq (ih.livePlain k).permanent

end Recovery

end MiniStore
