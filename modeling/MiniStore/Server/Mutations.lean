import MiniStore.Server.CommandHandler
import MiniStore.Store.Extraction

/-!
# What a command does to the store

`Command.mutation` gives, for the ten mutating commands, the key and the function
on its cell, together with the command's own decision whether to log its line.
`executeCommand_mutation` says that executing such a command is `perform` of that
function followed by `finish`; `executeCommand_read` says that every other
command at most touches keys and drops keys that are due.
-/

namespace MiniStore

open InMemoryStore CommandHandler

/-! ## Mutating commands -/

/-- Keep of a cell function the effect and whether the line is logged. -/
def loggedBy {α : Type} (took : α → Bool) (f : Option Cell → Effect × α) (c : Option Cell) :
    Effect × Bool := ((f c).1, took (f c).2)

/-- Of a mutating command, the key, what it does to the cell, and whether it logs. -/
def Command.mutation (now : Clock) : Command → Option (Str × (Option Cell → Effect × Bool))
  | .set key value ttlSeconds =>
    some (key, loggedBy (fun _ => true)
      (setCell value (ttlSeconds.map fun n => now 2 + n * 1000)))
  | .del key => some (key, delCell)
  | .expire key seconds => some (key, expireCell (now 1 + seconds * 1000))
  | .persist key => some (key, persistCell)
  | .lpush key values =>
    some (key, loggedBy (tookCount fun _ => true) (pushCell unshiftAll values))
  | .rpush key values => some (key, loggedBy (tookCount fun _ => true) (pushCell pushAll values))
  | .lpop key => some (key, loggedBy tookItem (popCell shift))
  | .rpop key => some (key, loggedBy tookItem (popCell pop))
  | .hset key pairs => some (key, loggedBy (tookCount fun n => n > 0) (hsetCell pairs))
  | .hdel key fields => some (key, loggedBy (tookCount fun n => n > 0) (hdelCell fields))
  | _ => none

def Command.mutates : Command → Bool
  | .set .. | .del _ | .expire .. | .persist _ | .lpush .. | .rpush .. | .lpop _ | .rpop _
  | .hset .. | .hdel .. => true
  | _ => false

theorem Command.mutates_iff {c : Command} {now : Clock} :
    c.mutates = true ↔ ∃ key f, c.mutation now = some (key, f) := by
  cases c <;> simp [mutates, mutation]

theorem Command.mutation_eq_none {c : Command} {now : Clock} :
    c.mutation now = none ↔ c.mutates = false := by
  cases c <;> simp [mutates, mutation]

theorem Command.isToken_of_mutation {c : Command} (hc : c.WF) {now : Clock} {key : Str}
    {f : Option Cell → Effect × Bool} (h : c.mutation now = some (key, f)) : Text.IsToken key := by
  cases c with
  | del | persist | lpop | rpop => cases h; exact hc
  | set | expire | lpush | rpush | hset | hdel => cases h; exact hc.1
  | _ => cases h

theorem Command.mutation_fits {c : Command} {now : Clock} {key : Str}
    {f : Option Cell → Effect × Bool} (h : c.mutation now = some (key, f)) (x : Option Cell) :
    (f x).1.Fits x := by
  cases c with
  | set => cases h; trivial
  | del => cases h; exact fits_delCell x
  | expire => cases h; exact fits_expireCell x
  | persist => cases h; exact fits_persistCell x
  | lpush => cases h; exact fits_pushCell x
  | rpush => cases h; exact fits_pushCell x
  | lpop => cases h; exact fits_popCell x
  | rpop => cases h; exact fits_popCell x
  | hset => cases h; exact fits_hsetCell x
  | hdel => cases h; exact fits_hdelCell x
  | _ => cases h

theorem Command.mutation_full {c : Command} (hc : c.WF) {now : Clock} {key : Str}
    {f : Option Cell → Effect × Bool} (h : c.mutation now = some (key, f)) {x : Option Cell}
    (hx : Cell.NonEmpty x) : (f x).1.Full := by
  cases c with
  | set => cases h; trivial
  | del => cases h; exact full_delCell x
  | expire => cases h; exact full_expireCell hx
  | persist => cases h; exact full_persistCell hx
  | lpush => cases h; exact full_pushCell (unshiftAll_ne_nil hc.2.1) x
  | rpush => cases h; exact full_pushCell (pushAll_ne_nil hc.2.1) x
  | lpop => cases h; exact full_popCell x
  | rpop => cases h; exact full_popCell x
  | hset => cases h; exact full_hsetCell hc.2.1 x
  | hdel => cases h; exact full_hdelCell x
  | _ => cases h

theorem Command.mutation_key {c : Command} {now : Clock} {key : Str}
    {f : Option Cell → Effect × Bool} (h : c.mutation now = some (key, f)) (now' : Clock) :
    ∃ f', c.mutation now' = some (key, f') := by
  cases c <;> cases h <;> exact ⟨_, rfl⟩

/-- The commands whose effect does not depend on the clock. -/
def Command.timeless : Command → Bool
  | .set _ _ (some _) | .expire .. => false
  | _ => true

theorem Command.mutation_timeless {c : Command} (hc : c.timeless = true) (now now' : Clock) :
    c.mutation now = c.mutation now' := by
  cases c with
  | set key value ttlSeconds =>
    cases ttlSeconds with
    | none => rfl
    | some n => cases hc
  | expire => cases hc
  | _ => rfl

/-- The deadline SET with EX and EXPIRE give their key. -/
def Command.newDeadline (now : Clock) : Command → Option Int
  | .set _ _ (some n) => some (now 2 + n * 1000)
  | .expire _ n => some (now 1 + n * 1000)
  | _ => none

/-- What a command leaves under its key has no deadline, the command's own, or the
one that was there. -/
theorem Command.deadline_onCell {c : Command} {now : Clock} {key : Str}
    {f : Option Cell → Effect × Bool} (h : c.mutation now = some (key, f)) {x : Option Cell}
    {y : Cell} (hy : (f x).1.action.onCell x = some y) :
    y.deadline = none ∨ y.deadline = c.newDeadline now ∨ ∃ y' ∈ x, y.deadline = y'.deadline := by
  -- an effect that keeps the cell, or its deadline
  have kept : ∀ {v d}, x = some ⟨v, d⟩ → ∀ {e : Effect}, e.action.onCell x = some y →
      (e = .keep ∨ ∃ v' b, e = .put v' d b) → ∃ y' ∈ x, y.deadline = y'.deadline := by
    rintro v d rfl e he (rfl | ⟨v', b, rfl⟩)
    · exact ⟨y, he, rfl⟩
    · cases he; exact ⟨_, rfl, rfl⟩
  cases c with
  | set k v n =>
    cases h
    cases n with
    | none => cases hy; exact .inl rfl
    | some n => cases hy; exact .inr (.inl rfl)
  | expire k n =>
    cases h
    cases x with
    | none => cases hy
    | some c => cases hy; exact .inr (.inl rfl)
  | del k => cases h; cases x <;> cases hy
  | persist k =>
    cases h
    rcases x with _ | ⟨v, _ | d⟩
    · cases hy
    · exact .inr (.inr (kept rfl hy (.inl rfl)))
    · cases hy; exact .inl rfl
  | lpush | rpush =>
    cases h
    rcases x with _ | ⟨_ | l | m, d⟩
    · cases hy; exact .inl rfl
    · exact .inr (.inr (kept rfl hy (.inl rfl)))
    · exact .inr (.inr (kept rfl hy (.inr ⟨_, _, rfl⟩)))
    · exact .inr (.inr (kept rfl hy (.inl rfl)))
  | lpop | rpop =>
    cases h
    rcases x with _ | ⟨_ | l | m, d⟩
    · cases hy
    · exact .inr (.inr (kept rfl hy (.inl rfl)))
    · simp only [loggedBy, popCell] at hy
      split at hy
      · cases hy
      · exact .inr (.inr (kept rfl hy (.inr ⟨_, _, rfl⟩)))
    · exact .inr (.inr (kept rfl hy (.inl rfl)))
  | hset =>
    cases h
    rcases x with _ | ⟨_ | l | m, d⟩
    · cases hy; exact .inl rfl
    · exact .inr (.inr (kept rfl hy (.inl rfl)))
    · exact .inr (.inr (kept rfl hy (.inl rfl)))
    · exact .inr (.inr (kept rfl hy (.inr ⟨_, _, rfl⟩)))
  | hdel =>
    cases h
    rcases x with _ | ⟨_ | l | m, d⟩
    · cases hy
    · exact .inr (.inr (kept rfl hy (.inl rfl)))
    · exact .inr (.inr (kept rfl hy (.inl rfl)))
    · simp only [loggedBy, hdelCell] at hy
      split at hy
      · cases hy
      · split at hy
        · exact .inr (.inr (kept rfl hy (.inr ⟨_, _, rfl⟩)))
        · exact .inr (.inr (kept rfl hy (.inl rfl)))
  | _ => cases h

theorem Command.string_onCell {c : Command} {now : Clock} {key : Str}
    {f : Option Cell → Effect × Bool} (h : c.mutation now = some (key, f)) {x : Option Cell}
    {v : Str} {d : Option Int} (hy : (f x).1.action.onCell x = some ⟨.string v, d⟩) :
    (∃ d', x = some ⟨.string v, d'⟩) ∨ ∃ n, c = .set key v n := by
  cases c with
  | set k v' n => cases h; cases hy; exact .inr ⟨n, rfl⟩
  | del => cases h; cases x <;> cases hy
  | expire =>
    cases h
    rcases x with _ | ⟨v', d'⟩
    · cases hy
    · cases hy; exact .inl ⟨_, rfl⟩
  | persist =>
    cases h
    rcases x with _ | ⟨v', _ | d'⟩
    · cases hy
    · cases hy; exact .inl ⟨_, rfl⟩
    · cases hy; exact .inl ⟨_, rfl⟩
  | lpush | rpush | hset =>
    cases h
    rcases x with _ | ⟨_ | l | m, d'⟩
    · cases hy
    · cases hy; exact .inl ⟨_, rfl⟩
    · cases hy
    · cases hy
  | lpop | rpop =>
    cases h
    rcases x with _ | ⟨_ | l | m, d'⟩
    · cases hy
    · cases hy; exact .inl ⟨_, rfl⟩
    · simp only [loggedBy, popCell] at hy
      split at hy <;> cases hy
    · cases hy
  | hdel =>
    cases h
    rcases x with _ | ⟨_ | l | m, d'⟩
    · cases hy
    · cases hy; exact .inl ⟨_, rfl⟩
    · cases hy
    · simp only [loggedBy, hdelCell] at hy
      split at hy
      · cases hy
      · split at hy <;> cases hy
  | _ => cases h

/-- A command that does not depend on the clock gives no deadline to a cell that has none. -/
theorem Command.permanent_of_timeless {c : Command} (hc : c.timeless = true) {now : Clock}
    {key : Str} {f : Option Cell → Effect × Bool} (h : c.mutation now = some (key, f))
    {x : Option Cell} (hx : Cell.Permanent x) : Cell.Permanent ((f x).1.action.onCell x) := by
  intro y hy
  have hnew : c.newDeadline now = none := by
    cases c with
    | set k v n =>
      cases n with
      | none => rfl
      | some n => cases hc
    | expire => cases hc
    | _ => rfl
  rcases Command.deadline_onCell h hy with e | e | ⟨y', hy', e⟩
  · exact e
  · exact e.trans hnew
  · exact e.trans (hx y' hy')

theorem popCell_unlogged {take : List Str → Option Str × List Str}
    (ht : ∀ l, l ≠ [] → (take l).1.isSome = true) {x : Option Cell} (hx : Cell.NonEmpty x)
    (hl : tookItem (popCell take x).2 = false) : (popCell take x).1 = .keep := by
  rcases x with _ | ⟨_ | l | _, d⟩
  · rfl
  · rfl
  · have hne : l ≠ [] := hx _ rfl
    have := ht l hne
    simp only [popCell] at hl
    split at hl <;> simp [tookItem, this] at hl
  · rfl

theorem hdelCell_unlogged {fields : List Str} {x : Option Cell} (hx : Cell.NonEmpty x)
    (hl : tookCount (fun n => n > 0) (hdelCell fields x).2 = false) :
    (hdelCell fields x).1 = .keep := by
  rcases x with _ | ⟨_ | _ | m, d⟩
  · rfl
  · rfl
  · rfl
  · have hne : m.size ≠ 0 := hx _ rfl
    have hz : (deleteFields m fields).2 = 0 := by
      simp only [hdelCell] at hl
      split at hl
      · simpa [tookCount] using hl
      · split at hl <;> simpa [tookCount] using hl
    have hm := deleteFields_of_zero fields hz
    simp only [hdelCell]
    rw [hm, if_neg hne, if_neg (by omega)]

theorem shift_isSome {l : List Str} (h : l ≠ []) : (shift l).1.isSome = true := by
  cases l with
  | nil => exact absurd rfl h
  | cons => rfl

theorem pop_isSome {l : List Str} (h : l ≠ []) : (pop l).1.isSome = true := by
  rw [pop, List.getLast?_eq_some_getLast h]; rfl

/-- A command that does not log leaves its key as it was, unless it is an HSET
that adds no field. -/
theorem Command.onCell_of_unlogged {c : Command} (hc : c.WF) {now : Clock} {key : Str}
    {f : Option Cell → Effect × Bool} (h : c.mutation now = some (key, f)) {x : Option Cell}
    (hx : Cell.NonEmpty x) (hl : (f x).2 = false) :
    (f x).1.action.onCell x = x ∨
      ∃ pairs m d, c = .hset key pairs ∧ x = some ⟨.hash m, d⟩ ∧ (setPairs m pairs).2 = 0 ∧
        (f x).1.action.onCell x = some ⟨.hash (setPairs m pairs).1, d⟩ := by
  have keep : (f x).1 = .keep → (f x).1.action.onCell x = x := fun e => by rw [e]; rfl
  cases c with
  | set => cases h; cases hl
  | del =>
    cases h
    cases x with
    | none => exact .inl rfl
    | some c => cases hl
  | expire =>
    cases h
    cases x with
    | none => exact .inl rfl
    | some c => cases hl
  | persist =>
    cases h
    rcases x with _ | ⟨v, _ | d⟩
    · exact .inl rfl
    · exact .inl rfl
    · cases hl
  | lpush | rpush =>
    cases h
    rcases x with _ | ⟨_ | l | m, d⟩
    · cases hl
    · exact .inl rfl
    · cases hl
    · exact .inl rfl
  | lpop => cases h; exact .inl (keep (popCell_unlogged (fun _ => shift_isSome) hx hl))
  | rpop => cases h; exact .inl (keep (popCell_unlogged (fun _ => pop_isSome) hx hl))
  | hset k pairs =>
    cases h
    rcases x with _ | ⟨_ | l | m, d⟩
    · -- a new hash gets at least one field
      have hz : (setPairs OrdMap.empty pairs).2 = 0 := by
        simpa [loggedBy, hsetCell, tookCount] using hl
      have hs := size_setPairs pairs OrdMap.empty
      rw [hz] at hs
      exact absurd hs (size_setPairs_pos hc.2.1)
    · exact .inl rfl
    · exact .inl rfl
    · exact .inr ⟨pairs, m, d, rfl, rfl, by simpa [loggedBy, hsetCell, tookCount] using hl, rfl⟩
  | hdel => cases h; exact .inl (keep (hdelCell_unlogged hx hl))
  | _ => cases h

namespace CommandHandler

variable {W : Type} [AofSink W]

/-- A mutating command performs its cell function and logs as that says. -/
theorem executeCommand_mutation {h : CommandHandler W} (hs : h.store.Lockstep) {c : Command}
    {clocks : Clocks} {key : Str} {f : Option Cell → Effect × Bool}
    (hm : c.mutation (clocks 0) = some (key, f)) (line : Str) (connection : ClientConnection) :
    ∃ reply, h.executeCommand c line connection clocks =
      h.finish (h.store.perform key (clocks 0) f).1 (h.store.perform key (clocks 0) f).2 line
        reply := by
  cases c with
  | set key value ttlSeconds =>
    cases hm; exact ⟨_, by simp only [executeCommand, set_eq]; rfl⟩
  | del key => cases hm; exact ⟨_, by simp only [executeCommand, del_eq]; rfl⟩
  | expire key seconds => cases hm; exact ⟨_, by simp only [executeCommand, expire_eq]; rfl⟩
  | persist key => cases hm; exact ⟨_, by simp only [executeCommand, persist_eq]; rfl⟩
  | lpush key values => cases hm; exact ⟨_, by simp only [executeCommand, lpush_eq hs]; rfl⟩
  | rpush key values => cases hm; exact ⟨_, by simp only [executeCommand, rpush_eq hs]; rfl⟩
  | lpop key => cases hm; exact ⟨_, by simp only [executeCommand, lpop_eq]; rfl⟩
  | rpop key => cases hm; exact ⟨_, by simp only [executeCommand, rpop_eq]; rfl⟩
  | hset key pairs => cases hm; exact ⟨_, by simp only [executeCommand, hset_eq hs]; rfl⟩
  | hdel key fields => cases hm; exact ⟨_, by simp only [executeCommand, hdel_eq]; rfl⟩
  | _ => cases hm

/-- The command is answered, keeps the log, and only drops keys that are due. -/
structure Observes (h : CommandHandler W) (c : Command) (clocks : Clocks)
    (result : CommandHandler W × Option Str) : Prop where
  store : Decays clocks.Reads h.store result.1.store
  log : result.1.aofWriter = h.aofWriter
  persistence : c ≠ .bgsave → result.1.persistenceManager = h.persistenceManager
  answered : result.2.isSome = true

/-- The other commands, BGREWRITEAOF apart. -/
theorem executeCommand_read {h : CommandHandler W} (hs : h.store.Lockstep) {c : Command}
    (hc : c.mutates = false) (hlog : c ≠ .bgrewriteaof) (line : Str)
    (connection : ClientConnection) (clocks : Clocks) :
    Observes h c clocks (h.executeCommand c line connection clocks) := by
  have ht : ∀ i j, clocks.Reads (clocks i j) := fun i j => ⟨i, j, rfl⟩
  have idle : Decays clocks.Reads h.store h.store := hs.decays_refl
  cases c with
  | set | del | expire | persist | lpush | rpush | lpop | rpop | hset | hdel => cases hc
  | get key =>
    have h1 := hs.decays_keyType key (ht 0 0)
    simp only [executeCommand]
    split
    · exact ⟨h1, rfl, fun _ => rfl, rfl⟩
    · have h2 := h1.trans (h1.lockstep.decays_get key (ht 1 0))
      rcases hg : (h.store.keyType key (clocks 0)).1.get key (clocks 1) with ⟨s2, _ | v⟩ <;>
        rw [hg] at h2 <;> exact ⟨h2, rfl, fun _ => rfl, rfl⟩
  | «exists» key => exact ⟨hs.decays_exists key (ht 0 0), rfl, fun _ => rfl, rfl⟩
  | ttl key => exact ⟨hs.decays_ttl key (ht 0 0), rfl, fun _ => rfl, rfl⟩
  | keys pattern => exact ⟨hs.decays_keys pattern (ht 0), rfl, fun _ => rfl, rfl⟩
  | lrange key _ _ => exact ⟨hs.decays_readAs key (ht 0 0) .., rfl, fun _ => rfl, rfl⟩
  | llen key => exact ⟨hs.decays_readAs key (ht 0 0) .., rfl, fun _ => rfl, rfl⟩
  | hget key _ => exact ⟨hs.decays_readAs key (ht 0 0) .., rfl, fun _ => rfl, rfl⟩
  | hgetall key => exact ⟨hs.decays_readAs key (ht 0 0) .., rfl, fun _ => rfl, rfl⟩
  | hlen key => exact ⟨hs.decays_readAs key (ht 0 0) .., rfl, fun _ => rfl, rfl⟩
  | bgsave =>
    simp only [executeCommand]
    split
    · exact ⟨idle, rfl, fun _ => rfl, rfl⟩
    · next pm _ => exact ⟨hs.decays_save ht pm, rfl, fun he => absurd rfl he, rfl⟩
  | bgrewriteaof => exact absurd rfl hlog
  | subscribe =>
    simp only [executeCommand]
    split <;> exact ⟨idle, rfl, fun _ => rfl, rfl⟩
  | unsubscribe =>
    simp only [executeCommand]
    split <;> exact ⟨idle, rfl, fun _ => rfl, rfl⟩
  | publish =>
    simp only [executeCommand]
    split <;> exact ⟨idle, rfl, fun _ => rfl, rfl⟩
  | auth | multi | exec | discard => exact ⟨idle, rfl, fun _ => rfl, rfl⟩

/-- What a command leaves of the store: its operation on its key, or fewer keys that are due. -/
theorem execute_store {h : CommandHandler AofWriter} (hL : h.store.Lockstep) (c : Command)
    (line : Str) (connection : ClientConnection) (clocks : Clocks) :
    (∃ key f, c.mutation (clocks 0) = some (key, f) ∧
      (h.executeCommand c line connection clocks).1.store =
        (h.store.perform key (clocks 0) f).1) ∨
      Decays clocks.Reads h.store (h.executeCommand c line connection clocks).1.store := by
  cases hmut : c.mutates with
  | true =>
    obtain ⟨key, f, hf⟩ := Command.mutates_iff.mp hmut
    obtain ⟨reply, he⟩ := executeCommand_mutation hL hf line connection
    obtain ⟨w, hw⟩ := h.finish_fst (h.store.perform key (clocks 0) f).1
      (h.store.perform key (clocks 0) f).2 line reply
    refine .inl ⟨key, f, hf, ?_⟩
    rw [he, hw]
  | false =>
    refine .inr ?_
    by_cases hrewrite : c = .bgrewriteaof
    · rw [hrewrite]
      simp only [executeCommand, answer]
      split
      · exact hL.decays_refl
      · next w _ => exact hL.decays_rewrite (fun i j => ⟨i, j, rfl⟩) w
    · exact (executeCommand_read hL hmut hrewrite line connection clocks).store

theorem lockstep_execute {h : CommandHandler AofWriter} (hL : h.store.Lockstep) (c : Command)
    (line : Str) (connection : ClientConnection) (clocks : Clocks) :
    (h.executeCommand c line connection clocks).1.store.Lockstep := by
  rcases execute_store hL c line connection clocks with ⟨key, f, hf, e⟩ | hd
  · rw [e]
    exact hL.perform (Command.mutation_fits hf)
  · exact hd.lockstep

end CommandHandler

end MiniStore
