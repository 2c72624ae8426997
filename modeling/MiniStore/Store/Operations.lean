import MiniStore.Store.Keyspace

/-!
# The operations as effects on cells

Each operation on one key is `perform` of a function from the cell of the key to
an effect and a result (`get_eq`, `set_eq`, …). The functions `getCell`,
`setCell`, … say what the command does to a cell, with no store in sight; every
later result about a run of commands goes through them. `keys` and
`sweepExpired` only drop keys that are due (`Decays`).
-/

namespace MiniStore

open InMemoryStore

/-! ## What an operation does to a cell -/

def getCell : Option Cell → Effect × Option Str
  | some ⟨.string value, _⟩ => (.touch, some value)
  | _ => (.keep, none)

def setCell (value : Str) (deadline : Option Int) (_ : Option Cell) : Effect × Unit :=
  (.put (.string value) deadline true, ())

def delCell : Option Cell → Effect × Bool
  | some _ => (.remove, true)
  | none => (.keep, false)

def expireCell (deadline : Int) : Option Cell → Effect × Bool
  | some c => (.put c.value (some deadline) true, true)
  | none => (.keep, false)

def existsCell (c : Option Cell) : Effect × Bool := (.keep, c.isSome)

def ttlCell (now : Int) : Option Cell → Effect × Int
  | none => (.keep, -2)
  | some ⟨_, none⟩ => (.keep, -1)
  | some ⟨_, some d⟩ => (.keep, max 0 (ceilSeconds (max 0 (d - now))))

def persistCell : Option Cell → Effect × Bool
  | some ⟨value, some _⟩ => (.put value none true, true)
  | _ => (.keep, false)

def keyTypeCell (c : Option Cell) : Effect × Option ValueType :=
  (.keep, c.map fun c => c.value.type)

def pushCell (addAll : List Str → List Str → List Str) (values : List Str) :
    Option Cell → Effect × StoreResult Nat
  | none => (.put (.list (addAll [] values)) none false, .ok (addAll [] values).length)
  | some ⟨.list l, d⟩ => (.put (.list (addAll l values)) d true, .ok (addAll l values).length)
  | some _ => (.keep, .error .WRONGTYPE)

def popCell (take : List Str → Option Str × List Str) :
    Option Cell → Effect × StoreResult (Option Str)
  | none => (.keep, .ok none)
  | some ⟨.list l, d⟩ =>
    if (take l).2 = [] then (.remove, .ok (take l).1)
    else (.put (.list (take l).2) d true, .ok (take l).1)
  | some _ => (.keep, .error .WRONGTYPE)

def readCell {α β : Type} (payload : StoredValue → Option β) (absent : α) (read : β → α) :
    Option Cell → Effect × StoreResult α
  | none => (.keep, .ok absent)
  | some c =>
    match payload c.value with
    | none => (.keep, .error .WRONGTYPE)
    | some v => (.touch, .ok (read v))

def hsetCell (pairs : List (Str × Str)) : Option Cell → Effect × StoreResult Nat
  | none =>
    (.put (.hash (setPairs OrdMap.empty pairs).1) none (decide (pairs.length > 0)),
      .ok (setPairs OrdMap.empty pairs).2)
  | some ⟨.hash m, d⟩ =>
    (.put (.hash (setPairs m pairs).1) d (decide (pairs.length > 0)), .ok (setPairs m pairs).2)
  | some _ => (.keep, .error .WRONGTYPE)

def hdelCell (fields : List Str) : Option Cell → Effect × StoreResult Nat
  | none => (.keep, .ok 0)
  | some ⟨.hash m, d⟩ =>
    if (deleteFields m fields).1.size = 0 then (.remove, .ok (deleteFields m fields).2)
    else if (deleteFields m fields).2 > 0 then
      (.put (.hash (deleteFields m fields).1) d true, .ok (deleteFields m fields).2)
    else (.keep, .ok (deleteFields m fields).2)
  | some _ => (.keep, .error .WRONGTYPE)

namespace InMemoryStore

/-- Pass the gate, then act on the key as its cell demands. -/
def perform {α : Type} (s : InMemoryStore) (key : Str) (now : Clock)
    (f : Option Cell → Effect × α) : InMemoryStore × α :=
  let p := s.purge key (now 0)
  (p.commit key (now 1) (f (p.cell key)).1, (f (p.cell key)).2)

section

variable {s : InMemoryStore} (h : s.Lockstep) (key : Str) (now : Clock)

/-! ## Effects on a key as the source spells them -/

theorem reserveSlotFor_of_has {s : InMemoryStore} {key : Str} (hk : s.values.has key = true)
    (t : Int) : s.reserveSlotFor key t = s := by simp [reserveSlotFor, hk]

theorem put_of_get? {s : InMemoryStore} {key : Str} {v : StoredValue}
    (hv : s.values.get? key = some v) : s.put key v = s := by
  unfold put; rw [OrdMap.set_of_get? hv]

/-- Replacing the value of a present key keeps its deadline. -/
theorem commit_put_same {v v' : StoredValue} {t : Int} {key : Str} {d : Option Int}
    (hc : s.cell key = some ⟨v, d⟩) (b : Bool) :
    s.commit key t (.put v' d b) =
      if b then ((s.put key v').touch key).markDirty else (s.put key v').touch key := by
  obtain ⟨-, hd⟩ := get?_of_cell hc
  have hr : s.reserveSlotFor key t = s := reserveSlotFor_of_has (has_iff_cell.mpr (by simp [hc])) t
  have he : s.expiry.assign key d = s.expiry := ExpiryManager.assign_of_deadline hd
  simp only [commit, hr]
  cases b <;> simp [put, touch, markDirty, he]

theorem Lockstep.commit_put_new {v : StoredValue} {t : Int} {key : Str} (h : s.Lockstep)
    (hc : s.cell key = none) (b : Bool) :
    s.commit key t (.put v none b) =
      if b then (((s.reserveSlotFor key t).put key v).touch key).markDirty
      else ((s.reserveSlotFor key t).put key v).touch key := by
  have hr := h.reserveSlotFor key t
  have hn : (s.reserveSlotFor key t).cell key = none := h.cell_reserveSlotFor_self hc t
  have he : (s.reserveSlotFor key t).expiry.assign key none = (s.reserveSlotFor key t).expiry :=
    ExpiryManager.assign_of_deadline (hr.deadline_none (cell_eq_none.mp hn))
  cases b <;> simp [InMemoryStore.commit, put, touch, markDirty, he]

theorem removeKey_put {key : Str} {v : StoredValue} (hk : s.values.has key = true) :
    (s.put key v).removeKey key = s.removeKey key := by
  have hk' : (s.values.set key v).has key = true := by simp [OrdMap.has_set]
  simp [removeKey, put, markDirty, hk, hk']

theorem deleteFields_foldl (fields : List Str) : ∀ (m : OrdMap Str Str) (n : Nat),
    fields.foldl (fun (m, removed) field =>
      (m.delete field, if m.has field then removed + 1 else removed)) (m, n) =
        ((deleteFields m fields).1, n + (deleteFields m fields).2) := by
  induction fields with
  | nil => intro m n; rfl
  | cons f fs ih =>
    intro m n
    unfold deleteFields
    simp only [List.foldl_cons]
    rw [ih, ih]
    split
    · simp; omega
    · simp

theorem deleteFields_cons (m : OrdMap Str Str) (f : Str) (fs : List Str) :
    deleteFields m (f :: fs) =
      ((deleteFields (m.delete f) fs).1,
        (if m.has f then 1 else 0) + (deleteFields (m.delete f) fs).2) := by
  rw [deleteFields, List.foldl_cons, deleteFields_foldl]

theorem deleteFields_of_zero (fields : List Str) : ∀ {m : OrdMap Str Str},
    (deleteFields m fields).2 = 0 → (deleteFields m fields).1 = m := by
  induction fields with
  | nil => intro m _; rfl
  | cons f fs ih =>
    intro m hz
    rw [deleteFields_cons] at hz ⊢
    cases hf : m.has f with
    | true => simp [hf] at hz
    | false =>
      rw [OrdMap.delete_of_not_has hf] at hz ⊢
      exact ih (by simpa [hf] using hz)

/-! ## Every operation on a key is a `perform` -/

theorem cell_of_get? {s : InMemoryStore} {key : Str} {v : StoredValue}
    (hv : s.values.get? key = some v) : s.cell key = some ⟨v, s.expiry.deadline key⟩ := by
  simp [cell, hv]

theorem get_eq (s : InMemoryStore) : s.get key now = s.perform key now getCell := by
  unfold get perform
  generalize hp : s.purge key (now 0) = p
  rcases s.gate key (now 0) with hg | ⟨hg, hn⟩
  · rw [hg, hp]
    cases hv : p.values.get? key with
    | none => simp [hv, cell, getCell, commit]
    | some v => cases v <;> simp [hv, cell, getCell, commit]
  · rw [hp] at hg hn
    simp [hg, hn, cell, getCell, commit]

theorem set_eq (s : InMemoryStore) (value : Str) (ttlSeconds : Option Nat) :
    s.set key value ttlSeconds now =
      (s.perform key now (setCell value (ttlSeconds.map fun n => now 2 + n * 1000))).1 := by
  cases ttlSeconds <;> rfl

theorem del_eq (s : InMemoryStore) : s.del key now = s.perform key now delCell := by
  unfold del perform purge
  generalize (s.expireIfNeeded key (now 0)).1 = p
  simp only
  cases hc : p.cell key with
  | none => simp [OrdMap.has_eq_false_iff.mpr (cell_eq_none.mp hc), delCell, commit]
  | some c => simp [has_iff_cell.mpr (show p.cell key ≠ none by simp [hc]), delCell, commit]

theorem expire_eq (s : InMemoryStore) (seconds : Nat) :
    s.expire key seconds now = s.perform key now (expireCell (now 1 + seconds * 1000)) := by
  unfold expire perform
  generalize hp : s.purge key (now 0) = p
  rcases s.gate key (now 0) with hg | ⟨hg, hn⟩
  · rw [hg, hp]
    cases hv : p.values.get? key with
    | none => simp [OrdMap.has_eq_false_iff.mpr hv, hv, cell, expireCell, commit]
    | some v =>
      have hk := OrdMap.has_of_get? hv
      simp only [hk, if_true, cell_of_get? hv, expireCell, commit, reserveSlotFor_of_has hk,
        put_of_get? hv]
      rfl
  · rw [hp] at hg hn
    simp [hg, hn, cell, expireCell, commit]

theorem exists_eq (s : InMemoryStore) : s.exists key now = s.perform key now existsCell := by
  unfold InMemoryStore.exists perform
  generalize hp : s.purge key (now 0) = p
  rcases s.gate key (now 0) with hg | ⟨hg, hn⟩
  · rw [hg, hp]
    simp [existsCell, commit, cell, OrdMap.has]
  · rw [hp] at hg hn
    simp [hg, hn, cell, existsCell, commit]

theorem ttl_eq (s : InMemoryStore) : s.ttl key now = s.perform key now (ttlCell (now 1)) := by
  unfold ttl perform
  generalize hp : s.purge key (now 0) = p
  rcases s.gate key (now 0) with hg | ⟨hg, hn⟩
  · rw [hg, hp]
    cases hv : p.values.get? key with
    | none => simp [OrdMap.has_eq_false_iff.mpr hv, hv, cell, ttlCell, commit]
    | some v =>
      simp only [OrdMap.has_of_get? hv, cell_of_get? hv, ExpiryManager.remainingMs_eq]
      cases p.expiry.deadline key <;> simp [ttlCell, commit]
  · rw [hp] at hg hn
    simp [hg, hn, cell, ttlCell, commit]

theorem persist_eq (s : InMemoryStore) : s.persist key now = s.perform key now persistCell := by
  unfold persist perform
  generalize hp : s.purge key (now 0) = p
  rcases s.gate key (now 0) with hg | ⟨hg, hn⟩
  · rw [hg, hp]
    cases hv : p.values.get? key with
    | none => simp [OrdMap.has_eq_false_iff.mpr hv, hv, cell, persistCell, commit]
    | some v =>
      have hk := OrdMap.has_of_get? hv
      have hc := cell_of_get? hv
      cases hd : p.expiry.deadline key with
      | none => simp [persistCell, commit, hc, hd, hk, ExpiryManager.has_eq]
      | some d =>
        simp only [persistCell, commit, hc, hd, hk, ExpiryManager.has_eq,
          reserveSlotFor_of_has hk, put_of_get? hv]
        rfl
  · rw [hp] at hg hn
    simp [hg, hn, cell, persistCell, commit]

theorem keyType_eq (s : InMemoryStore) : s.keyType key now = s.perform key now keyTypeCell := by
  unfold keyType perform
  generalize hp : s.purge key (now 0) = p
  rcases s.gate key (now 0) with hg | ⟨hg, hn⟩
  · rw [hg, hp]
    cases hv : p.values.get? key <;> simp [hv, cell, keyTypeCell, commit]
  · rw [hp] at hg hn
    simp [hg, hn, cell, keyTypeCell, commit]

theorem readAs_eq {α β : Type} (payload : StoredValue → Option β) (absent : α) (read : β → α)
    (s : InMemoryStore) :
    readAs payload absent read s key now = s.perform key now (readCell payload absent read) := by
  unfold readAs perform
  generalize hp : s.purge key (now 0) = p
  rcases s.gate key (now 0) with hg | ⟨hg, hn⟩
  · rw [hg, hp]
    cases hv : p.values.get? key with
    | none => simp [hv, cell, readCell, commit]
    | some v =>
      simp only [hv, cell_of_get? hv, readCell]
      cases payload v <;> simp [commit]
  · rw [hp] at hg hn
    simp [hg, hn, cell, readCell, commit]

include h

theorem pushNew_eq (list : List Str) (hc : s.cell key = none) (t : Int) :
    s.pushNew key list t = (s.commit key t (.put (.list list) none false), .ok list.length) := by
  rw [h.commit_put_new hc]; rfl

theorem pushWith_eq
    {create : InMemoryStore → Str → List Str → Int → InMemoryStore × StoreResult Nat}
    {addAll : List Str → List Str → List Str} {values : List Str}
    (hcreate : ∀ s t, create s key values t = s.pushNew key (addAll [] values) t) :
    pushWith create addAll s key values now = s.perform key now (pushCell addAll values) := by
  have h' := h.purge key (now 0)
  unfold pushWith perform
  simp only [hcreate]
  generalize hp : s.purge key (now 0) = p at h'
  rcases s.gate key (now 0) with hg | ⟨hg, hn⟩
  · rw [hg, hp]
    cases hv : p.values.get? key with
    | none => simp only [hv, cell_eq_none.mpr hv, pushCell, pushNew_eq h' key _ (cell_eq_none.mpr hv)]
    | some v =>
      have hc := cell_of_get? hv
      cases v with
      | list l => simp only [hv, hc, pushCell, commit_put_same hc, if_true]
      | string _ => simp only [hv, hc, pushCell, commit]
      | hash _ => simp only [hv, hc, pushCell, commit]
  · rw [hp] at hg hn
    simp only [hg, cell_eq_none.mpr hn, pushCell, pushNew_eq h' key _ (cell_eq_none.mpr hn)]

theorem lpush_eq (values : List Str) :
    s.lpush key values now = s.perform key now (pushCell unshiftAll values) :=
  pushWith_eq h key now fun _ _ => rfl

theorem rpush_eq (values : List Str) :
    s.rpush key values now = s.perform key now (pushCell pushAll values) :=
  pushWith_eq h key now fun _ _ => rfl

omit h in
theorem popWith_eq (s : InMemoryStore) (take : List Str → Option Str × List Str) :
    popWith take s key now = s.perform key now (popCell take) := by
  unfold popWith perform
  generalize hp : s.purge key (now 0) = p
  rcases s.gate key (now 0) with hg | ⟨hg, hn⟩
  · rw [hg, hp]
    cases hv : p.values.get? key with
    | none => simp only [hv, cell_eq_none.mpr hv, popCell, commit]
    | some v =>
      have hc := cell_of_get? hv
      cases v with
      | list l =>
        simp only [hv, hc, popCell]
        by_cases he : (take l).2 = []
        · simp only [he, if_true, commit, removeKey_put (OrdMap.has_of_get? hv)]
        · simp only [he, if_false, commit_put_same hc, if_true]
      | string _ => simp only [hv, hc, popCell, commit]
      | hash _ => simp only [hv, hc, popCell, commit]
  · rw [hp] at hg hn
    simp only [hg, cell_eq_none.mpr hn, popCell, commit]

omit h in
theorem lpop_eq (s : InMemoryStore) : s.lpop key now = s.perform key now (popCell shift) :=
  popWith_eq key now s shift

omit h in
theorem rpop_eq (s : InMemoryStore) : s.rpop key now = s.perform key now (popCell pop) :=
  popWith_eq key now s pop

theorem hset_eq (pairs : List (Str × Str)) :
    s.hset key pairs now = s.perform key now (hsetCell pairs) := by
  have h' := h.purge key (now 0)
  have new : ∀ {p : InMemoryStore}, p.Lockstep → p.values.get? key = none →
      (p.createHash key (now 1)).hsetFill key OrdMap.empty pairs =
        (p.commit key (now 1) (hsetCell pairs none).1, (hsetCell pairs none).2) := by
    intro p h' hn
    simp only [hsetCell, h'.commit_put_new (cell_eq_none.mpr hn)]
    by_cases hl : pairs.length > 0 <;>
      simp [hsetFill, createHash, put, touch, markDirty, hl]
  unfold hset perform
  generalize hp : s.purge key (now 0) = p at h'
  rcases s.gate key (now 0) with hg | ⟨hg, hn⟩
  · rw [hg, hp]
    cases hv : p.values.get? key with
    | none => simpa [hv, cell_eq_none.mpr hv] using new h' hv
    | some v =>
      have hc := cell_of_get? hv
      cases v with
      | hash m =>
        simp only [hv, hc, hsetCell, commit_put_same hc, Bool.false_eq_true, if_false]
        by_cases hl : pairs.length > 0 <;> simp [hsetFill, hl]
      | string _ => simp [hv, hc, hsetCell, commit]
      | list _ => simp [hv, hc, hsetCell, commit]
  · rw [hp] at hg hn
    simpa [hg, cell_eq_none.mpr hn] using new h' hn

omit h in
theorem hdel_eq (s : InMemoryStore) (fields : List Str) :
    s.hdel key fields now = s.perform key now (hdelCell fields) := by
  unfold hdel perform
  generalize hp : s.purge key (now 0) = p
  rcases s.gate key (now 0) with hg | ⟨hg, hn⟩
  · rw [hg, hp]
    cases hv : p.values.get? key with
    | none => simp only [hv, cell_eq_none.mpr hv, hdelCell, commit]
    | some v =>
      have hc := cell_of_get? hv
      cases v with
      | hash m =>
        simp only [hv, hc, hdelCell]
        by_cases he : (deleteFields m fields).1.size = 0
        · simp only [he, if_true, commit, removeKey_put (OrdMap.has_of_get? hv)]
        · by_cases hr : (deleteFields m fields).2 > 0
          · simp only [he, hr, if_false, if_true, commit_put_same hc]
          · have hm := deleteFields_of_zero fields (Nat.eq_zero_of_not_pos hr)
            have hput : p.put key (.hash m) = p := put_of_get? hv
            simp only [hr, if_false, commit]
            rw [hm] at he ⊢
            simp only [he, if_false, hput]
      | string _ => simp only [hv, hc, hdelCell, commit]
      | list _ => simp only [hv, hc, hdelCell, commit]
  · rw [hp] at hg hn
    simp only [hg, cell_eq_none.mpr hn, hdelCell, commit]

end

/-! ## What `perform` does to the cells -/

section

variable {α : Type} {s : InMemoryStore} (h : s.Lockstep) {key : Str} {now : Clock}
  {f : Option Cell → Effect × α}

include h

theorem Lockstep.perform (hf : ∀ c, (f c).1.Fits c) : (s.perform key now f).1.Lockstep :=
  (h.purge key (now 0)).commit (now 1) (hf _)

@[simp] theorem Lockstep.maxKeys_perform : (s.perform key now f).1.maxKeys = s.maxKeys :=
  (maxKeys_commit (h.purge key (now 0)) ..).trans (maxKeys_purge ..)

theorem Lockstep.perform_snd : (s.perform key now f).2 = (f (liveAt (now 0) (s.cell key))).2 := by
  unfold InMemoryStore.perform; simp only [h.cell_purge_self]

theorem Lockstep.cell_perform_self : (s.perform key now f).1.cell key =
    (f (liveAt (now 0) (s.cell key))).1.action.onCell (liveAt (now 0) (s.cell key)) := by
  unfold InMemoryStore.perform
  simp only [(h.purge key (now 0)).cell_commit_self, h.cell_purge_self]

theorem Lockstep.cell_perform_other {k : Str} (hk : k ≠ key) :
    (s.perform key now f).1.cell k = s.cell k ∨ (s.perform key now f).1.cell k = none := by
  have hp : (s.purge key (now 0)).cell k = s.cell k := by rw [h.cell_purge, if_neg hk]
  have hv := (h.purge key (now 0)).view_commit key (now 1)
    (f ((s.purge key (now 0)).cell key)).1
  have hc := congrArg (LruCache.cell · k) hv
  rcases LruCache.cell_commit_other hk (f ((s.purge key (now 0)).cell key)).1.action with e | e
  · exact .inl ((hc.trans e).trans hp)
  · exact .inr (hc.trans e.2.2)

/-- With the key live or a slot free, every other key keeps its cell. -/
theorem Lockstep.cell_perform_of_room
    (hroom : (s.purge key (now 0)).cell key ≠ none ∨ (s.purge key (now 0)).size < s.maxKeys)
    {k : Str} (hk : k ≠ key) : (s.perform key now f).1.cell k = s.cell k := by
  refine ((h.purge key (now 0)).cell_commit_of_room (now 1) (by rwa [maxKeys_purge]) _ k).trans ?_
  rw [if_neg hk, h.cell_purge, if_neg hk]

variable (now f) in
/-- On a key without a deadline, an operation is the action its cell function says. -/
theorem Lockstep.view_perform_permanent (hx : Cell.Permanent (s.cell key)) :
    (s.perform key now f).1.view = s.view.commit s.maxKeys key (f (s.cell key)).1.action := by
  have hp : s.purge key (now 0) = s := purge_of_live (liveAt_permanent hx (now 0))
  unfold InMemoryStore.perform
  simp only [hp]
  exact h.view_commit ..

variable (key now f) in
/-- With a slot free, an operation does to its key what the cell function says of the
live cell, and nothing to any other key. -/
theorem Lockstep.cell_perform_free (hroom : s.size < s.maxKeys) (k : Str) :
    (s.perform key now f).1.cell k =
      if k = key then (f (liveAt (now 0) (s.cell key))).1.action.onCell (liveAt (now 0) (s.cell key))
      else s.cell k := by
  have hsize : (s.purge key (now 0)).size ≤ s.values.keys.length := by
    refine (h.purge key (now 0)).size_le_of_subset fun j hj => ?_
    rw [h.cell_purge] at hj
    rw [OrdMap.mem_keys_iff_has, has_iff_cell]
    split at hj
    · next e => rw [e]; exact fun hn => hj (by rw [hn]; rfl)
    · exact hj
  rw [OrdMap.length_keys] at hsize
  by_cases hk : k = key
  · rw [if_pos hk, hk, h.cell_perform_self]
  · rw [if_neg hk, h.cell_perform_of_room (.inr (Nat.lt_of_le_of_lt hsize hroom)) hk]

theorem Lockstep.cell_perform_permanent (hx : Cell.Permanent (s.cell key))
    (hroom : s.size < s.maxKeys) (k : Str) : (s.perform key now f).1.cell k =
      if k = key then (f (s.cell key)).1.action.onCell (s.cell key) else s.cell k := by
  rw [h.cell_perform_free key now f hroom, liveAt_permanent hx]

end

/-! ## Dropping keys -/

/-- A removal reported as an expiry. -/
def drop (s : InMemoryStore) (key : Str) : InMemoryStore := (s.removeKey key).onExpired key

theorem purge_cases (s : InMemoryStore) (key : Str) (now : Int) :
    s.purge key now = s ∨ s.purge key now = s.drop key ∧ liveAt now (s.cell key) = none := by
  rcases expireIfNeeded_cases s key now with ⟨-, hp, -⟩ | ⟨-, hp, c, hc, he⟩
  · exact .inl hp
  · exact .inr ⟨hp, by rw [hc, liveAt_some, if_pos he]⟩

theorem Lockstep.drop {s : InMemoryStore} (h : s.Lockstep) (key : Str) : (s.drop key).Lockstep :=
  (h.removeKey key).congr rfl rfl rfl rfl

theorem Lockstep.cell_drop {s : InMemoryStore} (h : s.Lockstep) (key k : Str) :
    (s.drop key).cell k = if k = key then none else s.cell k := h.cell_removeKey key k

/-- `s'` is `s` without some keys, each of which was reported. -/
structure Dropped (ks : List Str) (s s' : InMemoryStore) : Prop where
  lockstep : s'.Lockstep
  maxKeys : s'.maxKeys = s.maxKeys
  cell : ∀ k, s'.cell k = if k ∈ ks then none else s.cell k
  deadline : ∀ k, s'.expiry.deadline k = if k ∈ ks then none else s.expiry.deadline k
  order : s'.lru.order = s.lru.order.filter fun k => k ∉ ks
  keys : s'.values.keys = s.values.keys.filter fun k => k ∉ ks
  notified : s'.notified = s.notified ++ ks.map .expired

theorem Lockstep.dropped : ∀ (ks : List Str) {s : InMemoryStore}, s.Lockstep →
    Dropped ks s (ks.foldl InMemoryStore.drop s)
  | [], s, h => ⟨h, rfl, fun k => by simp, fun k => by simp, by simp, by simp, by simp⟩
  | key :: ks, s, h => by
    have hrest := (h.drop key).dropped ks
    have hmem : ∀ {α : Type} (k : Str) (x : Option α),
        (if k ∈ ks then none else if k = key then none else x) =
          if k ∈ key :: ks then none else x := by
      intro α k x
      by_cases h1 : k ∈ ks <;> by_cases h2 : k = key <;> simp [h1, h2]
    have hfilter : ∀ l : List Str, l.Nodup → (l.erase key).filter (fun k => k ∉ ks) =
        l.filter fun k => k ∉ key :: ks := by
      intro l hn
      rw [hn.erase_eq_filter, List.filter_filter]
      refine List.filter_congr fun k _ => ?_
      by_cases h1 : k ∈ ks <;> by_cases h2 : k = key <;> simp [h1, h2]
    rw [List.foldl_cons]
    refine ⟨hrest.lockstep, hrest.maxKeys.trans (maxKeys_removeKey s key), fun k => ?_, fun k => ?_,
      ?_, ?_, ?_⟩
    · rw [hrest.cell, h.cell_drop, hmem]
    · rw [hrest.deadline, ← hmem]
      show (if k ∈ ks then none else (s.removeKey key).expiry.deadline k) = _
      rw [h.expiry_removeKey, ExpiryManager.deadline_clear]
    · rw [hrest.order, ← hfilter _ s.lru.nodup_order]
      exact congrArg _ (h.order_removeKey key)
    · rw [hrest.keys, ← hfilter _ s.values.keys_nodup]
      exact congrArg _ (keys_removeKey s key)
    · rw [hrest.notified]
      show (s.removeKey key).notified ++ [Notification.expired key] ++ _ = _
      rw [notified_removeKey, List.append_assoc, List.map_cons, List.singleton_append]

def sample (s : InMemoryStore) (sampleSize : Int) (now : Int) : InMemoryStore :=
  { s with expiry := (s.expiry.collectExpired now sampleSize).1 }

theorem cell_sample (s : InMemoryStore) (n t : Int) (k : Str) : (s.sample n t).cell k = s.cell k := by
  simp only [cell, sample, ExpiryManager.deadline_collectExpired]

theorem Lockstep.sample {s : InMemoryStore} (h : s.Lockstep) (n t : Int) :
    (s.sample n t).Lockstep :=
  ⟨h.tracked, fun k d hd => h.deadlines k d (by simpa [InMemoryStore.sample] using hd), h.size_le⟩

theorem sweepExpired_fst (s : InMemoryStore) (n : Int) (now : Clock) :
    (s.sweepExpired n now).1 =
      (s.expiry.collectExpired (now 0) n).2.foldl InMemoryStore.drop (s.sample n (now 0)) := rfl

/-- `s'` is a store in lockstep that lacks, of the keys of `s`, some that were due
at one of the times `T`. -/
structure Decays (T : Int → Prop) (s s' : InMemoryStore) : Prop where
  lockstep : s'.Lockstep
  maxKeys : s'.maxKeys = s.maxKeys
  cell : ∀ k, s'.cell k = s.cell k ∨ s'.cell k = none ∧ ∃ t, T t ∧ liveAt t (s.cell k) = none

variable {T : Int → Prop}

theorem Lockstep.decays_refl {s : InMemoryStore} (h : s.Lockstep) : Decays T s s :=
  ⟨h, rfl, fun _ => .inl rfl⟩

theorem Decays.mono {T' : Int → Prop} {s s' : InMemoryStore} (h : Decays T s s')
    (ht : ∀ t, T t → T' t) : Decays T' s s' :=
  ⟨h.lockstep, h.maxKeys, fun k => (h.cell k).imp_right fun ⟨h1, t, h2, h3⟩ =>
    ⟨h1, t, ht t h2, h3⟩⟩

theorem Decays.trans {s s' s'' : InMemoryStore} (h : Decays T s s') (h' : Decays T s' s'') :
    Decays T s s'' := by
  refine ⟨h'.lockstep, h'.maxKeys.trans h.maxKeys, fun k => ?_⟩
  rcases h'.cell k with e' | ⟨e', t, ht, hl'⟩
  · rw [e']; exact h.cell k
  · rcases h.cell k with e | ⟨-, hl⟩
    · exact .inr ⟨e', t, ht, e ▸ hl'⟩
    · exact .inr ⟨e', hl⟩

theorem Decays.cell_ne_none {s s' : InMemoryStore} (h : Decays T s s') {k : Str}
    (hk : s'.cell k ≠ none) : s.cell k ≠ none := by
  rcases h.cell k with e | ⟨e, -⟩
  · rwa [← e]
  · exact absurd e hk

/-- From the times of the decay on, the same is left. -/
theorem Decays.liveAt_eq {s s' : InMemoryStore} (h : Decays T s s') {t : Int}
    (ht : ∀ u, T u → u ≤ t) (k : Str) : liveAt t (s'.cell k) = liveAt t (s.cell k) := by
  rcases h.cell k with e | ⟨e, u, hu, hl⟩
  · rw [e]
  · rw [e, ← liveAt_liveAt (ht u hu) (s.cell k), hl]

theorem Decays.cell_eq {s s' : InMemoryStore} (h : Decays T s s') {k : Str}
    (hk : ∀ c, s.cell k = some c → c.deadline = none) : s'.cell k = s.cell k := by
  rcases h.cell k with e | ⟨e, t, -, hl⟩
  · exact e
  · cases hc : s.cell k with
    | none => exact e
    | some c =>
      obtain ⟨v, d⟩ := c
      obtain rfl : d = none := hk _ hc
      rw [hc] at hl
      cases hl

theorem Lockstep.decays_drop {s : InMemoryStore} (h : s.Lockstep) {key : Str} {t : Int} (ht : T t)
    (hk : liveAt t (s.cell key) = none) : Decays T s (s.drop key) := by
  refine ⟨h.drop key, maxKeys_removeKey s key, fun k => ?_⟩
  rw [h.cell_drop]
  by_cases e : k = key
  · exact .inr ⟨if_pos e, t, ht, e ▸ hk⟩
  · exact .inl (if_neg e)

theorem Lockstep.decays_purge {s : InMemoryStore} (h : s.Lockstep) (key : Str) {t : Int}
    (ht : T t) : Decays T s (s.purge key t) := by
  rcases purge_cases s key t with hp | ⟨hp, hl⟩
  · rw [hp]; exact h.decays_refl
  · rw [hp]; exact h.decays_drop ht hl

theorem decays_keysLoop (test : Str → Bool) {now : Clock} (ht : ∀ i, T (now i)) :
    ∀ (ks : List Str) (i : Nat) {s : InMemoryStore}, s.Lockstep →
      Decays T s (keysLoop test now ks i s).1
  | [], _, _, h => h.decays_refl
  | key :: ks, i, _, h =>
    (h.decays_purge key (ht i)).trans
      (decays_keysLoop test ht ks (i + 1) (h.purge key (now i)))

theorem Lockstep.decays_keys {s : InMemoryStore} (h : s.Lockstep) (pattern : Str) {now : Clock}
    (ht : ∀ i, T (now i)) : Decays T s (s.keys pattern now).1 :=
  decays_keysLoop _ ht _ 0 h

theorem decays_foldl_drop {t : Int} (ht : T t) (ks : List Str) {s : InMemoryStore}
    (h : s.Lockstep) (hks : ∀ k ∈ ks, liveAt t (s.cell k) = none) :
    Decays T s (ks.foldl InMemoryStore.drop s) := by
  have hdrop := h.dropped ks
  refine ⟨hdrop.lockstep, hdrop.maxKeys, fun k => ?_⟩
  by_cases hk : k ∈ ks
  · exact .inr ⟨(hdrop.cell k).trans (if_pos hk), t, ht, hks k hk⟩
  · exact .inl ((hdrop.cell k).trans (if_neg hk))

theorem Lockstep.decays_sweepExpired {s : InMemoryStore} (h : s.Lockstep) (n : Int) {now : Clock}
    (ht : T (now 0)) : Decays T s (s.sweepExpired n now).1 := by
  have hs : Decays T s (s.sample n (now 0)) :=
    ⟨h.sample n (now 0), rfl, fun k => .inl (cell_sample s n (now 0) k)⟩
  rw [sweepExpired_fst]
  refine hs.trans (decays_foldl_drop ht _ hs.lockstep fun k hk => ?_)
  have hx := ExpiryManager.collectExpired_expired _ _ _ k hk
  rw [cell_sample]
  cases hc : s.cell k with
  | none => rfl
  | some c => rw [isExpired_eq hc] at hx; rw [liveAt_some, if_pos hx]

/-! ## Reading -/

theorem reads_getCell (c : Option Cell) : (getCell c).1 = .keep ∨ (getCell c).1 = .touch := by
  rcases c with _ | ⟨_ | _ | _, _⟩ <;> simp [getCell]

theorem reads_ttlCell (now : Int) (c : Option Cell) :
    (ttlCell now c).1 = .keep ∨ (ttlCell now c).1 = .touch := by
  rcases c with _ | ⟨_, _ | _⟩ <;> exact .inl rfl

theorem reads_readCell {α β : Type} (payload : StoredValue → Option β) (absent : α) (read : β → α)
    (c : Option Cell) : (readCell payload absent read c).1 = .keep ∨
      (readCell payload absent read c).1 = .touch := by
  cases c with
  | none => exact .inl rfl
  | some c => simp only [readCell]; split <;> simp

theorem Lockstep.decays_read {α : Type} {s : InMemoryStore} (h : s.Lockstep) (key : Str)
    {now : Clock} {f : Option Cell → Effect × α} (hf : ∀ c, (f c).1.Fits c)
    (hr : ∀ c, (f c).1 = .keep ∨ (f c).1 = .touch) (ht : T (now 0)) :
    Decays T s (s.perform key now f).1 := by
  have hp : Decays T s (s.purge key (now 0)) := h.decays_purge key ht
  refine hp.trans ⟨h.perform hf, maxKeys_commit hp.lockstep .., fun k => .inl ?_⟩
  unfold InMemoryStore.perform
  rcases hr ((s.purge key (now 0)).cell key) with e | e <;> simp only [e] <;> rfl

end InMemoryStore

end MiniStore
