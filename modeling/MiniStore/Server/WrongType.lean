import MiniStore.Server.CommandHandler
import MiniStore.Store.Recency

/-!
# WRONGTYPE

Every list and hash operation passes the gate, looks at the kind and then acts. `Guards` says
of a cell function that it refuses exactly the cells of another kind, and keeps those as they
are. An operation with such a function reports WRONGTYPE exactly on a live key of another kind
and leaves the store as it was (`Guards.perform`), and so does its command with the handler.
-/

namespace MiniStore

open InMemoryStore

/-- The key and the kind that a list or hash operation needs. -/
def Op.needs : Op → Option (Str × ValueType)
  | .lpush key _ | .lpop key | .lrange key _ _ | .rpush key _ | .rpop key | .llen key =>
    some (key, .list)
  | .hset key _ | .hget key _ | .hdel key _ | .hgetall key | .hlen key => some (key, .hash)
  | _ => none

def OpResult.isWrongType : OpResult → Bool
  | .count (.error .WRONGTYPE) | .item (.error .WRONGTYPE) | .items (.error .WRONGTYPE) => true
  | _ => false

/-- The key and the kind that GET or a list or hash command needs. -/
def Command.needs : Command → Option (Str × ValueType)
  | .get key => some (key, .string)
  | .lpush key _ | .lpop key | .lrange key _ _ | .rpush key _ | .rpop key | .llen key =>
    some (key, .list)
  | .hset key _ | .hget key _ | .hdel key _ | .hgetall key | .hlen key => some (key, .hash)
  | _ => none

namespace InMemoryStore

/-- The key is live and holds another kind. -/
def HoldsOther (s : InMemoryStore) (t : Int) (key : Str) (kind : ValueType) : Prop :=
  ∃ c, s.cell key = some c ∧ c.expired t = false ∧ c.value.type ≠ kind

theorem holdsOther_iff {s : InMemoryStore} {t : Int} {key : Str} {kind : ValueType} :
    s.HoldsOther t key kind ↔ ∃ c ∈ liveAt t (s.cell key), c.value.type ≠ kind := by
  refine exists_congr fun c => ?_
  rw [Option.mem_def, liveAt_eq_some, and_assoc]

/-! ## Cell functions -/

/-- Refuses the cells that hold another kind, and does nothing to them. -/
structure Guards {α : Type} (kind : ValueType) (f : Option Cell → Effect × StoreResult α) :
    Prop where
  refused : ∀ c : Cell, c.value.type ≠ kind → f (some c) = (.keep, .error .WRONGTYPE)
  accepted : ∀ c : Option Cell, (∀ x ∈ c, x.value.type = kind) → ∃ a, (f c).2 = .ok a

theorem guards_list {α : Type} {f : Option Cell → Effect × StoreResult α}
    (hnone : ∃ a, (f none).2 = .ok a) (hlist : ∀ l d, ∃ a, (f (some ⟨.list l, d⟩)).2 = .ok a)
    (hstring : ∀ v d, f (some ⟨.string v, d⟩) = (.keep, .error .WRONGTYPE))
    (hhash : ∀ m d, f (some ⟨.hash m, d⟩) = (.keep, .error .WRONGTYPE)) : Guards .list f := by
  refine ⟨fun ⟨v, d⟩ hc => ?_, fun c hc => ?_⟩
  · cases v with
    | string v => exact hstring v d
    | list => cases hc rfl
    | hash m => exact hhash m d
  · rcases c with _ | ⟨v, d⟩
    · exact hnone
    · cases v with
      | list l => exact hlist l d
      | string | hash => cases hc _ rfl

theorem guards_hash {α : Type} {f : Option Cell → Effect × StoreResult α}
    (hnone : ∃ a, (f none).2 = .ok a) (hhash : ∀ m d, ∃ a, (f (some ⟨.hash m, d⟩)).2 = .ok a)
    (hstring : ∀ v d, f (some ⟨.string v, d⟩) = (.keep, .error .WRONGTYPE))
    (hlist : ∀ l d, f (some ⟨.list l, d⟩) = (.keep, .error .WRONGTYPE)) : Guards .hash f := by
  refine ⟨fun ⟨v, d⟩ hc => ?_, fun c hc => ?_⟩
  · cases v with
    | string v => exact hstring v d
    | list l => exact hlist l d
    | hash => cases hc rfl
  · rcases c with _ | ⟨v, d⟩
    · exact hnone
    · cases v with
      | hash m => exact hhash m d
      | string | list => cases hc _ rfl

theorem guards_pushCell (addAll : List Str → List Str → List Str) (values : List Str) :
    Guards .list (pushCell addAll values) :=
  guards_list ⟨_, rfl⟩ (fun _ _ => ⟨_, rfl⟩) (fun _ _ => rfl) fun _ _ => rfl

theorem guards_popCell (take : List Str → Option Str × List Str) :
    Guards .list (popCell take) := by
  refine guards_list ⟨_, rfl⟩ (fun l d => ?_) (fun _ _ => rfl) fun _ _ => rfl
  rw [popCell]
  split <;> exact ⟨_, rfl⟩

theorem guards_hsetCell (pairs : List (Str × Str)) : Guards .hash (hsetCell pairs) :=
  guards_hash ⟨_, rfl⟩ (fun _ _ => ⟨_, rfl⟩) (fun _ _ => rfl) fun _ _ => rfl

theorem guards_hdelCell (fields : List Str) : Guards .hash (hdelCell fields) := by
  refine guards_hash ⟨_, rfl⟩ (fun m d => ?_) (fun _ _ => rfl) fun _ _ => rfl
  rw [hdelCell]
  split_ifs <;> exact ⟨_, rfl⟩

theorem guards_readCell {α β : Type} {kind : ValueType} {payload : StoredValue → Option β}
    (hp : ∀ v, (payload v).isSome = true ↔ v.type = kind) (absent : α) (read : β → α) :
    Guards kind (readCell payload absent read) := by
  refine ⟨fun c hc => ?_, fun c hc => ?_⟩
  · have hn : payload c.value = none := by
      rw [← Option.not_isSome_iff_eq_none, hp]
      exact hc
    simp only [readCell, hn]
  · cases c with
    | none => exact ⟨_, rfl⟩
    | some c =>
      obtain ⟨v, hv⟩ := Option.isSome_iff_exists.mp ((hp c.value).mpr (hc c rfl))
      simp only [readCell, hv]
      exact ⟨_, rfl⟩

theorem isSome_asList (v : StoredValue) : v.asList.isSome = true ↔ v.type = .list := by
  cases v <;> simp [StoredValue.asList, StoredValue.type]

theorem isSome_asHash (v : StoredValue) : v.asHash.isSome = true ↔ v.type = .hash := by
  cases v <;> simp [StoredValue.asHash, StoredValue.type]

/-! ## Operations -/

/-- Reports WRONGTYPE exactly when it should, and then leaves the store as it was. -/
structure Exact {α : Type} (s : InMemoryStore) (t : Int) (key : Str) (kind : ValueType)
    (r : InMemoryStore × StoreResult α) : Prop where
  refused : s.HoldsOther t key kind → r = (s, .error .WRONGTYPE)
  accepted : ¬ s.HoldsOther t key kind → ∃ a, r.2 = .ok a

section

variable {α : Type} {s : InMemoryStore} {key : Str} {now : Clock} {kind : ValueType}

theorem Guards.perform {f : Option Cell → Effect × StoreResult α} (hf : Guards kind f)
    (h : s.Lockstep) : Exact s (now 0) key kind (s.perform key now f) := by
  refine ⟨?_, fun hno => ?_⟩
  · rintro ⟨c, hc, hl, hk⟩
    have hlive : liveAt (now 0) (s.cell key) = s.cell key := by
      rw [hc, liveAt_eq_some.mpr ⟨rfl, hl⟩]
    simp only [InMemoryStore.perform, purge_of_live hlive, hc, hf.refused c hk, commit]
  · rw [h.perform_snd]
    refine hf.accepted _ fun c hc => ?_
    by_contra hk
    exact hno (holdsOther_iff.mpr ⟨c, hc, hk⟩)

theorem Exact.report {r : InMemoryStore × StoreResult α} (hr : Exact s (now 0) key kind r)
    {mk : StoreResult α → OpResult}
    (hmk : ∀ x, (mk x).isWrongType = true ↔ x = .error .WRONGTYPE) :
    ((mk r.2).isWrongType = true ↔ s.HoldsOther (now 0) key kind) ∧
      (s.HoldsOther (now 0) key kind → r.1 = s) := by
  refine ⟨(hmk r.2).trans ⟨fun he => ?_, fun hh => by rw [hr.refused hh]⟩,
    fun hh => by rw [hr.refused hh]⟩
  by_contra hno
  obtain ⟨a, ha⟩ := hr.accepted hno
  rw [ha] at he
  cases he

end

end InMemoryStore

section

variable {s : InMemoryStore} {op : Op} {key : Str} {kind : ValueType}

theorem OpResult.isWrongType_count (x : StoreResult Nat) :
    (OpResult.count x).isWrongType = true ↔ x = .error .WRONGTYPE := by
  rcases x with ⟨⟨⟩⟩ | n <;> simp [isWrongType]

theorem OpResult.isWrongType_item (x : StoreResult (Option Str)) :
    (OpResult.item x).isWrongType = true ↔ x = .error .WRONGTYPE := by
  rcases x with ⟨⟨⟩⟩ | v <;> simp [isWrongType]

theorem OpResult.isWrongType_items (x : StoreResult (List Str)) :
    (OpResult.items x).isWrongType = true ↔ x = .error .WRONGTYPE := by
  rcases x with ⟨⟨⟩⟩ | vs <;> simp [isWrongType]

theorem Op.wrongType (h : s.Lockstep) (hn : op.needs = some (key, kind)) (now : Clock) :
    ((op.run s now).2.isWrongType = true ↔ s.HoldsOther (now 0) key kind) ∧
      (s.HoldsOther (now 0) key kind → (op.run s now).1 = s) := by
  have exact_of : ∀ {α : Type} {f : Option Cell → Effect × StoreResult α}
      {r : InMemoryStore × StoreResult α}, Guards kind f → r = s.perform key now f →
      Exact s (now 0) key kind r := fun hf e => e ▸ hf.perform h
  cases op with
  | lpush =>
    cases hn
    exact (exact_of (guards_pushCell ..) (lpush_eq h ..)).report OpResult.isWrongType_count
  | rpush =>
    cases hn
    exact (exact_of (guards_pushCell ..) (rpush_eq h ..)).report OpResult.isWrongType_count
  | lpop =>
    cases hn
    exact (exact_of (guards_popCell _) (lpop_eq ..)).report OpResult.isWrongType_item
  | rpop =>
    cases hn
    exact (exact_of (guards_popCell _) (rpop_eq ..)).report OpResult.isWrongType_item
  | lrange =>
    cases hn
    exact (exact_of (guards_readCell isSome_asList ..) (readAs_eq ..)).report
      OpResult.isWrongType_items
  | llen =>
    cases hn
    exact (exact_of (guards_readCell isSome_asList ..) (readAs_eq ..)).report
      OpResult.isWrongType_count
  | hset =>
    cases hn
    exact (exact_of (guards_hsetCell _) (hset_eq h ..)).report OpResult.isWrongType_count
  | hdel =>
    cases hn
    exact (exact_of (guards_hdelCell _) (hdel_eq ..)).report OpResult.isWrongType_count
  | hget =>
    cases hn
    exact (exact_of (guards_readCell isSome_asHash ..) (readAs_eq ..)).report
      OpResult.isWrongType_item
  | hgetall =>
    cases hn
    exact (exact_of (guards_readCell isSome_asHash ..) (readAs_eq ..)).report
      OpResult.isWrongType_items
  | hlen =>
    cases hn
    exact (exact_of (guards_readCell isSome_asHash ..) (readAs_eq ..)).report
      OpResult.isWrongType_count
  | _ => cases hn

end

/-! ## Commands -/

def Command.op : Command → Option Op
  | .lpush key values => some (.lpush key values)
  | .lpop key => some (.lpop key)
  | .lrange key start stop => some (.lrange key start stop)
  | .rpush key values => some (.rpush key values)
  | .rpop key => some (.rpop key)
  | .llen key => some (.llen key)
  | .hset key pairs => some (.hset key pairs)
  | .hget key field => some (.hget key field)
  | .hdel key fields => some (.hdel key fields)
  | .hgetall key => some (.hgetall key)
  | .hlen key => some (.hlen key)
  | _ => none

def OpResult.reply : OpResult → Str
  | .count r => CommandHandler.countReply r
  | .item r => CommandHandler.itemReply r
  | .items r => CommandHandler.itemsReply r
  | _ => []

/-- Only the reply to an error begins with a minus sign. -/
theorem Reply.ne_wrongType {reply : Str} (h : reply.head? ≠ some '-') :
    reply ≠ Reply.wrongType := by
  rintro rfl
  exact h rfl

theorem OpResult.reply_eq_wrongType {r : OpResult} :
    r.reply = Reply.wrongType ↔ r.isWrongType = true := by
  cases r with
  | count x =>
    rcases x with ⟨⟨⟩⟩ | n
    · exact iff_of_true rfl rfl
    · refine iff_of_false (Reply.ne_wrongType ?_) Bool.false_ne_true
      simp [reply, CommandHandler.countReply, Reply.integer]
  | item x =>
    rcases x with ⟨⟨⟩⟩ | _ | v
    · exact iff_of_true rfl rfl
    · exact iff_of_false (Reply.ne_wrongType (by decide)) Bool.false_ne_true
    · refine iff_of_false (Reply.ne_wrongType ?_) Bool.false_ne_true
      simp [reply, CommandHandler.itemReply, Reply.value]
  | items x =>
    rcases x with ⟨⟨⟩⟩ | vs
    · exact iff_of_true rfl rfl
    · refine iff_of_false (Reply.ne_wrongType ?_) Bool.false_ne_true
      simp [reply, CommandHandler.itemsReply, Reply.array, Reply.rawArray]
  | done | found | flag | number | kind | names =>
    exact iff_of_false (Reply.ne_wrongType (by simp [reply])) Bool.false_ne_true

namespace CommandHandler

variable {W : Type} [AofSink W]

section

variable (h : CommandHandler W) (line : Str) (connection : ClientConnection) (clocks : Clocks)

theorem finish_snd {h : CommandHandler W} {s : InMemoryStore} {logged : Bool} {line reply r : Str}
    (hr : (h.finish s logged line reply).2 = some r) : reply = r := by
  cases logged with
  | false => exact Option.some.inj hr
  | true =>
    revert hr
    rw [finish, if_pos rfl]
    rcases writeAof { h with store := s } line with ⟨h', _ | _⟩
    · exact fun hr => nomatch hr
    · exact fun hr => Option.some.inj hr

/-- A list or hash command is its operation; what WRONGTYPE refuses is not logged. -/
theorem executeCommand_op {c : Command} {op : Op} (hop : c.op = some op) :
    ∃ logged, ((op.run h.store (clocks 0)).2.isWrongType = true → logged = false) ∧
      h.executeCommand c line connection clocks =
        h.finish (op.run h.store (clocks 0)).1 logged line (op.run h.store (clocks 0)).2.reply := by
  have hcount : ∀ {took : Nat → Bool} {x : StoreResult Nat},
      (OpResult.count x).isWrongType = true → tookCount took x = false := by
    intro took x hx
    rw [(OpResult.isWrongType_count x).mp hx]
    rfl
  have hitem : ∀ {x : StoreResult (Option Str)},
      (OpResult.item x).isWrongType = true → tookItem x = false := by
    intro x hx
    rw [(OpResult.isWrongType_item x).mp hx]
    rfl
  cases c with
  | lpush | rpush | hset | hdel => cases hop; exact ⟨_, hcount, rfl⟩
  | lpop | rpop => cases hop; exact ⟨_, hitem, rfl⟩
  | lrange | llen | hget | hgetall | hlen => cases hop; exact ⟨false, fun _ => rfl, rfl⟩
  | _ => cases hop

end

section

variable {h : CommandHandler W} {line : Str} {connection : ClientConnection} {clocks : Clocks}

theorem executeCommand_op_wrongType (hs : h.store.Lockstep) {c : Command} {op : Op} {key : Str}
    {kind : ValueType} (hop : c.op = some op) (hn : op.needs = some (key, kind)) :
    ((h.executeCommand c line connection clocks).2 = some Reply.wrongType ↔
        h.store.HoldsOther (clocks 0 0) key kind) ∧
      (h.store.HoldsOther (clocks 0 0) key kind →
        (h.executeCommand c line connection clocks).1 = h) := by
  obtain ⟨hiff, hsame⟩ := Op.wrongType hs hn (clocks 0)
  obtain ⟨logged, hlog, e⟩ := executeCommand_op h line connection clocks hop
  -- a refused operation is not logged, and leaves the handler as it was
  have hrefused : h.store.HoldsOther (clocks 0 0) key kind →
      h.executeCommand c line connection clocks = (h, some Reply.wrongType) := by
    intro hh
    have hw := hiff.mpr hh
    rw [e, hlog hw, hsame hh, OpResult.reply_eq_wrongType.mpr hw]
    rfl
  refine ⟨⟨fun hr => ?_, fun hh => by rw [hrefused hh]⟩, fun hh => by rw [hrefused hh]⟩
  rw [e] at hr
  exact hiff.mp (OpResult.reply_eq_wrongType.mp (finish_snd hr))

theorem executeCommand_get_wrongType (hs : h.store.Lockstep) (key : Str) :
    ((h.executeCommand (.get key) line connection clocks).2 = some Reply.wrongType ↔
        h.store.HoldsOther (clocks 0 0) key .string) ∧
      (h.store.HoldsOther (clocks 0 0) key .string →
        (h.executeCommand (.get key) line connection clocks).1 = h) := by
  have hkind : (h.store.keyType key (clocks 0)).2 =
      (liveAt (clocks 0 0) (h.store.cell key)).map fun c => c.value.type := by
    rw [keyType_eq, hs.perform_snd]
    rfl
  have hrefused : h.store.HoldsOther (clocks 0 0) key .string →
      h.executeCommand (.get key) line connection clocks = (h, some Reply.wrongType) := by
    rintro ⟨c, hc, hl, hk⟩
    have hlive : liveAt (clocks 0 0) (h.store.cell key) = h.store.cell key := by
      rw [hc, liveAt_eq_some.mpr ⟨rfl, hl⟩]
    have hstore : (h.store.keyType key (clocks 0)).1 = h.store := by
      rw [keyType_eq, InMemoryStore.perform, purge_of_live hlive]
      rfl
    rw [hlive, hc] at hkind
    have hwrong : (h.store.keyType key (clocks 0)).2 ≠ none ∧
        (h.store.keyType key (clocks 0)).2 ≠ some .string := by simp [hkind, hk]
    simp only [executeCommand, if_pos hwrong, hstore]
    rfl
  refine ⟨⟨fun hr => ?_, fun hh => by rw [hrefused hh]⟩, fun hh => by rw [hrefused hh]⟩
  by_contra hno
  have hright : ¬ ((h.store.keyType key (clocks 0)).2 ≠ none ∧
      (h.store.keyType key (clocks 0)).2 ≠ some .string) := by
    rintro ⟨h1, h2⟩
    rw [hkind] at h1 h2
    obtain ⟨type, htype⟩ := Option.ne_none_iff_exists'.mp h1
    obtain ⟨c, hc, -⟩ := Option.map_eq_some_iff.mp htype
    exact hno (holdsOther_iff.mpr ⟨c, hc, fun hk => h2 (by simp [hc, hk])⟩)
  simp only [executeCommand, if_neg hright] at hr
  revert hr
  rcases (h.store.keyType key (clocks 0)).1.get key (clocks 1) with ⟨s, _ | found⟩
  · exact fun hr => Reply.ne_wrongType (by decide) (Option.some.inj hr)
  · exact fun hr => Reply.ne_wrongType (by simp [Reply.value]) (Option.some.inj hr)

end

/-- For every store in lockstep and every clock: a list or hash operation, its command, and GET
report WRONGTYPE exactly if the key is live and holds another kind than they need, and then
the store is as it was, and with the handler the log too. -/
theorem wrongType_exact (h : CommandHandler W) (hs : h.store.Lockstep) :
    (∀ (op : Op) (key : Str) (kind : ValueType) (now : Clock), op.needs = some (key, kind) →
        ((op.run h.store now).2.isWrongType = true ↔ h.store.HoldsOther (now 0) key kind) ∧
          (h.store.HoldsOther (now 0) key kind → (op.run h.store now).1 = h.store)) ∧
      ∀ (c : Command) (key : Str) (kind : ValueType) (line : Str) (connection : ClientConnection)
        (clocks : Clocks), c.needs = some (key, kind) →
          ((h.executeCommand c line connection clocks).2 = some Reply.wrongType ↔
              h.store.HoldsOther (clocks 0 0) key kind) ∧
            (h.store.HoldsOther (clocks 0 0) key kind →
              (h.executeCommand c line connection clocks).1 = h) := by
  refine ⟨fun op key kind now hn => Op.wrongType hs hn now,
    fun c key kind line connection clocks hn => ?_⟩
  cases c with
  | get key => cases hn; exact executeCommand_get_wrongType hs key
  | lpush | rpush | lpop | rpop | lrange | llen | hset | hget | hdel | hgetall | hlen =>
    exact executeCommand_op_wrongType hs rfl hn
  | _ => cases hn

def withList : CommandHandler AofWriter :=
  create (runAll (InMemoryStore.create 1 Nat.one_pos) [(.rpush ['l'] [['a']], Clock.still 0)])
    none none none none []

theorem wrongType_exact_list :
    ((Op.hset ['l'] [(['f'], ['v'])]).run withList.store (Clock.still 0)).1 = withList.store ∧
      (withList.executeCommand (.get ['l']) "GET l".toList ⟨0, ['c']⟩ (Clocks.still 0)).2 =
        some Reply.wrongType := by
  have hexact := wrongType_exact withList ((lockstep_create 1 Nat.one_pos).runAll _)
  have hlist : ∀ kind, kind ≠ .list → withList.store.HoldsOther 0 ['l'] kind :=
    fun kind hk => ⟨⟨.list [['a']], none⟩, by decide, rfl, fun e => hk e.symm⟩
  exact ⟨(hexact.1 _ _ _ _ rfl).2 (hlist .hash (by decide)),
    (hexact.2 _ _ _ _ _ _ rfl).1.mpr (hlist .string (by decide))⟩

end CommandHandler

end MiniStore
