import MiniStore.Protocol.ReplyGrammar
import MiniStore.Server.Process
import MiniStore.Server.Spelling

/-!
# What commands are answered

Everything a reply can quote is a token (`Quotable`), so a command's reply is what calls of
the builders make: one call for each command but SUBSCRIBE and UNSUBSCRIBE, which confirm
each channel (`executeCommand_calls`). Handlers stay quotable whatever happens to them
(`quotable_move`).
-/

namespace MiniStore

open InMemoryStore Text

namespace PubSubManager

/-! ## Confirmations -/

/-- All channels a connection is subscribed to are tokens. -/
def Named (m : PubSubManager) : Prop :=
  ∀ connection channels, m.connections.get? connection = some channels →
    ∀ c ∈ channels, IsToken c

theorem Named.channelsOf {m : PubSubManager} (h : m.Named) (connection : ClientConnection) :
    ∀ c ∈ m.channelsOf connection, IsToken c := by
  intro c hc
  unfold PubSubManager.channelsOf at hc
  cases hm : m.connections.get? connection with
  | none =>
    rw [hm] at hc
    cases hc
  | some channels =>
    rw [hm] at hc
    exact h connection channels hm c hc

theorem Named.set {m m' : PubSubManager} (h : m.Named) {connection : ClientConnection}
    {channels : List Str} (hc : ∀ c ∈ channels, IsToken c)
    (he : m'.connections = m.connections.set connection channels) : m'.Named := by
  intro other channels' ho
  rw [he, OrdMap.get?_set] at ho
  split at ho
  · cases ho
    exact hc
  · exact h other channels' ho

theorem Named.delete {m m' : PubSubManager} (h : m.Named) {connection : ClientConnection}
    (he : m'.connections = m.connections.delete connection) : m'.Named := by
  intro other channels ho
  rw [he, OrdMap.get?_delete] at ho
  split at ho
  · cases ho
  · exact h other channels ho

section

variable (connection : ClientConnection)

theorem subscribeLoop_spec : ∀ (channels : List Str) {m : PubSubManager}, m.Named →
    (∀ c ∈ channels, IsToken c) →
    (subscribeLoop connection channels m).1.Named ∧
      List.Forall₂ (fun channel reply => ∃ n, reply = Reply.subscribe channel n) channels
        (subscribeLoop connection channels m).2
  | [], _, h, _ => ⟨h, .nil⟩
  | channel :: channels, m, h, hc => by
    obtain ⟨hchannel, hrest⟩ := List.forall_mem_cons.mp hc
    have h1 : (subscribeOne connection m channel).Named := by
      refine h.set (fun c hc => ?_) rfl
      unfold setAdd at hc
      split at hc
      · exact h.channelsOf connection c hc
      · rcases List.mem_append.mp hc with hc | hc
        · exact h.channelsOf connection c hc
        · exact List.mem_singleton.mp hc ▸ hchannel
    obtain ⟨h2, hreplies⟩ := subscribeLoop_spec channels h1 hrest
    exact ⟨h2, .cons ⟨_, rfl⟩ hreplies⟩

theorem subscribe_spec {m : PubSubManager} (h : m.Named) {channels : List Str}
    (hc : ∀ c ∈ channels, IsToken c) :
    (m.subscribe connection channels).1.Named ∧
      List.Forall₂ (fun channel reply => ∃ n, reply = Reply.subscribe channel n) channels
        (m.subscribe connection channels).2 :=
  subscribeLoop_spec connection channels (h.set (h.channelsOf connection) rfl) hc

theorem unsubscribeLoop_spec : ∀ (channels : List Str) {m : PubSubManager}, m.Named →
    (unsubscribeLoop connection channels m).1.Named ∧
      List.Forall₂ (fun channel reply => ∃ n, reply = Reply.unsubscribe channel n) channels
        (unsubscribeLoop connection channels m).2
  | [], _, h => ⟨h, .nil⟩
  | channel :: channels, m, h => by
    have hleft : ∀ c ∈ setDelete (m.channelsOf connection) channel, IsToken c := fun c hc =>
      h.channelsOf connection c (List.mem_filter.mp hc).1
    have h1 : (leave connection { m with
        connections := m.connections.set connection (setDelete (m.channelsOf connection) channel) }
          channel).Named := h.set hleft (connections_leave connection _ channel)
    obtain ⟨h2, hreplies⟩ := unsubscribeLoop_spec channels h1
    exact ⟨h2, .cons ⟨_, rfl⟩ hreplies⟩

theorem unsubscribe_spec {m : PubSubManager} (h : m.Named) (channels : List Str) :
    (m.unsubscribe connection channels).1.Named ∧
      List.Forall₂ (fun channel reply => ∃ n, reply = Reply.unsubscribe channel n)
        (m.targets connection channels) (m.unsubscribe connection channels).2 := by
  unfold unsubscribe targets channelsOf
  cases hm : m.connections.get? connection with
  | none =>
    refine ⟨h, ?_⟩
    have htargets : (if channels.length > 0 then channels else (none : Option (List Str)).getD []) =
        channels := by
      cases channels <;> rfl
    rw [htargets, List.forall₂_map_right_iff]
    exact List.forall₂_same.mpr fun _ _ => ⟨0, rfl⟩
  | some connChannels =>
    obtain ⟨h1, hreplies⟩ := unsubscribeLoop_spec connection
      (if channels.length > 0 then channels else connChannels) h
    have hdone : ∀ {m' : PubSubManager}, m'.Named →
        (if ((m'.connections.get? connection).getD []).length = 0 then
          { m' with connections := m'.connections.delete connection } else m').Named := by
      intro m' h'
      split
      · exact h'.delete rfl
      · exact h'
    exact ⟨hdone h1, hreplies⟩

theorem named_removeConnection {m : PubSubManager} (h : m.Named) :
    (m.removeConnection connection).Named := by
  unfold removeConnection
  cases m.connections.get? connection with
  | none => exact h
  | some channels =>
    exact h.delete (congrArg (·.delete connection) (connections_foldl_leave connection channels m))

end

end PubSubManager

/-! ## What a store can be quoted with -/

namespace InMemoryStore

/-- Keys and values are tokens. -/
structure Quotable (s : InMemoryStore) : Prop where
  lockstep : s.Lockstep
  keys : ∀ k, s.cell k ≠ none → IsToken k
  spelled : Spelled s.cell

theorem Quotable.decays {T : Int → Prop} {s s' : InMemoryStore} (h : s.Quotable)
    (hd : Decays T s s') : s'.Quotable :=
  ⟨hd.lockstep, fun k hk => h.keys k (hd.cell_ne_none hk), hd.spelled h.spelled⟩

theorem Quotable.perform {s : InMemoryStore} (h : s.Quotable) {c : Command} (hc : c.WF)
    {now : Clock} {key : Str} {f : Option Cell → Effect × Bool}
    (hm : c.mutation now = some (key, f)) : (s.perform key now f).1.Quotable :=
  ⟨h.lockstep.perform (Command.mutation_fits hm), Engine.isToken_perform h.lockstep h.keys hc hm,
    spelled_perform h.lockstep h.spelled hc hm⟩

theorem quotable_create (n : Nat) (hn : 1 ≤ n) : (create n hn).Quotable :=
  ⟨lockstep_create n hn, fun _ hk => absurd rfl hk, fun _ _ hc => nomatch hc⟩

theorem readCell_ok {α β : Type} {payload : StoredValue → Option β} {absent : α} {read : β → α}
    {x : Option Cell} {a : α} (h : (readCell payload absent read x).2 = .ok a) :
    a = absent ∨ ∃ c ∈ x, ∃ b, payload c.value = some b ∧ a = read b := by
  cases x with
  | none => exact .inl (Except.ok.inj h).symm
  | some c =>
    simp only [readCell] at h
    split at h
    · cases h
    · next b hb => exact .inr ⟨c, rfl, b, hb, (Except.ok.inj h).symm⟩

theorem popCell_ok {take : List Str → Option Str × List Str} {x : Option Cell} {v : Str}
    (h : (popCell take x).2 = .ok (some v)) :
    ∃ l d, x = some ⟨.list l, d⟩ ∧ (take l).1 = some v := by
  rcases x with _ | ⟨_ | l | m, d⟩
  · cases h
  · cases h
  · refine ⟨l, d, rfl, ?_⟩
    simp only [popCell] at h
    split at h <;> exact Except.ok.inj h
  · cases h

theorem mem_of_mem_slice {start stop : Int} {l : List Str} {v : Str} (h : v ∈ slice start stop l) :
    v ∈ l := by
  have hpart : ∀ (p : Prop) [Decidable p] (m n : Nat),
      v ∈ (if p then [] else (l.take m).drop n) → v ∈ l := by
    intro p _ m n h
    split at h
    · cases h
    · exact List.mem_of_mem_take (List.mem_of_mem_drop h)
  exact hpart _ _ _ h

theorem mem_keysLoop (test : Str → Bool) (now : Clock) {k : Str} : ∀ (keys : List Str) (i : Nat)
    (s : InMemoryStore), k ∈ (keysLoop test now keys i s).2 → k ∈ keys
  | [], _, _, h => h
  | key :: keys, i, s, h => by
    simp only [keysLoop] at h
    split at h
    · rcases List.mem_cons.mp h with rfl | h
      · exact List.mem_cons_self
      · exact List.mem_cons_of_mem _ (mem_keysLoop test now keys (i + 1) _ h)
    · exact List.mem_cons_of_mem _ (mem_keysLoop test now keys (i + 1) _ h)

/-! ## What commands read -/

def Holds (x : Str) : StoredValue → Prop
  | .string v => x = v
  | .list l => x ∈ l
  | .hash m => ∃ f v, m.get? f = some v ∧ (x = f ∨ x = v)

/-- A key, or a string kept under one. -/
def Stores (s : InMemoryStore) (x : Str) : Prop :=
  ∃ k c, s.cell k = some c ∧ (x = k ∨ Holds x c.value)

theorem Quotable.isToken {s : InMemoryStore} (H : s.Quotable) {x : Str} (h : s.Stores x) :
    IsToken x := by
  obtain ⟨k, c, hc, rfl | hx⟩ := h
  · exact H.keys x (by rw [hc]; exact Option.some_ne_none c)
  · have hs := H.spelled k c hc
    obtain ⟨v, d⟩ := c
    cases v with
    | string v => exact hx ▸ hs
    | list l => exact hs x hx
    | hash m =>
      obtain ⟨f, v, hm, rfl | rfl⟩ := hx
      · exact (hs x v hm).1
      · exact (hs f x hm).2

section

variable {s : InMemoryStore} (L : s.Lockstep) {key : Str} {now : Clock}

theorem stores_of_live {t : Int} {c : Cell} (hc : c ∈ liveAt t (s.cell key)) {x : Str}
    (hx : Holds x c.value) : s.Stores x := ⟨key, c, (liveAt_eq_some.mp hc).1, .inr hx⟩

theorem stores_keys {pattern : Str} : ∀ k ∈ (s.keys pattern now).2, s.Stores k := fun k hk => by
  obtain ⟨c, hc⟩ := Option.ne_none_iff_exists'.mp
    (mem_keys.mp (mem_keysLoop _ now _ 0 s hk) : s.cell k ≠ none)
  exact ⟨k, c, hc, .inl rfl⟩

include L

theorem stores_get {v : Str} (h : (s.get key now).2 = some v) : s.Stores v := by
  rw [get_eq, L.perform_snd] at h
  cases hx : liveAt (now 0) (s.cell key) with
  | none =>
    rw [hx] at h
    cases h
  | some c =>
    have hstores : ∀ {x}, Holds x c.value → s.Stores x := stores_of_live hx
    rw [hx] at h
    rcases c with ⟨_ | _ | _, d⟩ <;> cases h
    exact hstores rfl

theorem stores_pop {take : List Str → Option Str × List Str}
    (ht : ∀ l v, (take l).1 = some v → v ∈ l) {v : Str}
    (h : (s.perform key now (popCell take)).2 = .ok (some v)) : s.Stores v := by
  rw [L.perform_snd] at h
  obtain ⟨l, d, hx, hv⟩ := popCell_ok h
  exact stores_of_live hx (ht l v hv)

theorem stores_readAs {α β : Type} {payload : StoredValue → Option β} {absent : α} {read : β → α}
    {a : α} (h : (readAs payload absent read s key now).2 = .ok a) : a = absent ∨
      ∃ v b, (∀ x, Holds x v → s.Stores x) ∧ payload v = some b ∧ a = read b := by
  rw [readAs_eq, L.perform_snd] at h
  rcases readCell_ok h with rfl | ⟨c, hc, b, hb, rfl⟩
  · exact .inl rfl
  · exact .inr ⟨c.value, b, fun x hx => stores_of_live hc hx, hb, rfl⟩

theorem stores_lrange {start stop : Int} {vs : List Str}
    (h : (s.lrange key start stop now).2 = .ok vs) : ∀ v ∈ vs, s.Stores v := by
  rcases stores_readAs L h with rfl | ⟨_ | l | _, b, hs, hb, rfl⟩
  · exact fun _ hv => absurd hv List.not_mem_nil
  · cases hb
  · cases hb
    exact fun v hv => hs v (mem_of_mem_slice hv)
  · cases hb

theorem stores_hget {field : Str} {v : Str} (h : (s.hget key field now).2 = .ok (some v)) :
    s.Stores v := by
  rcases stores_readAs L h with hv | ⟨_ | _ | m, b, hs, hb, hv⟩
  · cases hv
  · cases hb
  · cases hb
  · cases hb
    exact hs v ⟨field, v, hv.symm, .inr rfl⟩

theorem stores_hgetall {vs : List Str} (h : (s.hgetall key now).2 = .ok vs) :
    ∀ v ∈ vs, s.Stores v := by
  rcases stores_readAs L h with rfl | ⟨_ | _ | m, b, hs, hb, rfl⟩
  · exact fun _ hv => absurd hv List.not_mem_nil
  · cases hb
  · cases hb
  · cases hb
    intro v hv
    obtain ⟨e, he, hv⟩ := List.mem_flatMap.mp hv
    refine hs v ⟨e.1, e.2, OrdMap.mem_entries_iff.mp he, ?_⟩
    rcases List.mem_cons.mp hv with rfl | hv
    · exact .inl rfl
    · exact .inr (List.mem_singleton.mp hv)

end

end InMemoryStore

namespace CommandHandler

/-! ## Replies as calls of the builders -/

/-- The reply is made by one call, and has one line exactly when `items` is empty. -/
def IsCall (items : List Str) (reply : Str) : Prop :=
  ∃ call : ReplyCall, reply = call.text ∧ call.Sendable ∧ (call.lines.length = 1 ↔ items = [])

theorem isCall_line (call : ReplyCall) (hs : call.Sendable) (hl : call.lines.length = 1) :
    IsCall [] call.text := ⟨call, rfl, hs, iff_of_true hl rfl⟩

theorem isCall_wrongType : IsCall [] Reply.wrongType := isCall_line .wrongType trivial rfl

theorem isCall_nil : IsCall [] Reply.nil := isCall_line .nil trivial rfl

theorem isCall_okWith {message : Str} (h : Unbroken message) :
    IsCall [] (Reply.okWith message) := isCall_line (.ok message) h rfl

theorem isCall_ok : IsCall [] Reply.ok := isCall_okWith (forall_mem_of_all (by decide))

theorem isCall_integer (n : Int) : IsCall [] (Reply.integer n) :=
  isCall_line (.integer n) trivial rfl

theorem isCall_value {v : Str} (h : IsToken v) : IsCall [] (Reply.value v) :=
  isCall_line (.value v) (unbroken_of_isToken h) rfl

theorem isCall_error {message : Str} (h : Unbroken message) : IsCall [] (Reply.error message) :=
  isCall_line (.error message) h rfl

theorem isCall_array {items : List Str} (h : ∀ i ∈ items, IsToken i) :
    IsCall items (Reply.array items) := by
  refine ⟨.array items, rfl, fun i hi => unbroken_of_isToken (h i hi), ?_⟩
  rw [ReplyCall.lines, List.length_cons, List.length_map, ← List.length_eq_zero_iff]
  omega

theorem isCall_flagReply (b : Bool) : IsCall [] (flagReply b) := isCall_integer _

theorem isCall_countReply (r : StoreResult Nat) : IsCall [] (countReply r) := by
  cases r with
  | ok n => exact isCall_integer n
  | error _ => exact isCall_wrongType

theorem isCall_itemReply {r : StoreResult (Option Str)} (h : ∀ v, r = .ok (some v) → IsToken v) :
    IsCall [] (itemReply r) := by
  rcases r with _ | _ | v
  · exact isCall_wrongType
  · exact isCall_nil
  · exact isCall_value (h v rfl)

def itemsOf : StoreResult (List Str) → List Str
  | .ok items => items
  | .error _ => []

theorem isCall_itemsReply {r : StoreResult (List Str)}
    (h : ∀ vs, r = .ok vs → ∀ v ∈ vs, IsToken v) : IsCall (itemsOf r) (itemsReply r) := by
  cases r with
  | ok items => exact isCall_array (h items rfl)
  | error _ => exact isCall_wrongType

/-- The items a command lists: LRANGE, HGETALL and KEYS reply with an array. -/
def listed (s : InMemoryStore) (now : Clock) : Command → List Str
  | .lrange key start stop => itemsOf (s.lrange key start stop now).2
  | .hgetall key => itemsOf (s.hgetall key now).2
  | .keys pattern => (s.keys pattern now).2
  | _ => []

theorem stores_listed {s : InMemoryStore} (L : s.Lockstep) (now : Clock) (c : Command) :
    ∀ x ∈ listed s now c, s.Stores x := by
  have hitems : ∀ {r : StoreResult (List Str)}, (∀ vs, r = .ok vs → ∀ v ∈ vs, s.Stores v) →
      ∀ x ∈ itemsOf r, s.Stores x := by
    intro r hr
    cases r with
    | ok items => exact hr items rfl
    | error _ => exact fun _ hx => absurd hx List.not_mem_nil
  cases c with
  | lrange => exact hitems fun vs hvs => stores_lrange L hvs
  | hgetall => exact hitems fun vs hvs => stores_hgetall L hvs
  | keys => exact stores_keys
  | _ => exact fun _ hx => absurd hx List.not_mem_nil

variable {W : Type} [AofSink W]

theorem finish_reply {h : CommandHandler W} {s : InMemoryStore} {logged : Bool}
    {line made reply : Str} (he : (h.finish s logged line made).2 = some reply) : reply = made := by
  unfold finish at he
  split at he
  · split at he
    · exact (Option.some.inj he).symm
    · cases he
  · exact (Option.some.inj he).symm

theorem unbroken_unhandled (c : Command) :
    Unbroken ("unhandled command \x7b\"name\":\"".toList ++ c.name ++ "\"\x7d".toList) := by
  have hname : Unbroken c.name := by
    cases c <;> exact forall_mem_of_all rfl
  exact ((show Unbroken _ from forall_mem_of_all (by decide)).append hname).append
    (forall_mem_of_all (by decide))

/-- GET answers with an error, with nothing, or with the value it finds. -/
theorem isCall_get {h : CommandHandler W} (H : h.store.Quotable) {key line : Str}
    {connection : ClientConnection} {clocks : Clocks} {reply : Str}
    (he : (h.executeCommand (.get key) line connection clocks).2 = some reply) :
    IsCall [] reply := by
  simp only [executeCommand] at he
  split at he
  · exact Option.some.inj he ▸ isCall_wrongType
  · have H' : (h.store.keyType key (clocks 0)).1.Quotable :=
      H.decays (T := fun _ => True) (H.lockstep.decays_keyType key trivial)
    rcases hg : (h.store.keyType key (clocks 0)).1.get key (clocks 1) with ⟨s, _ | v⟩
    · rw [hg] at he
      exact Option.some.inj he ▸ isCall_nil
    · rw [hg] at he
      have hv : ((h.store.keyType key (clocks 0)).1.get key (clocks 1)).2 = some v := by rw [hg]
      exact Option.some.inj he ▸ isCall_value (H'.isToken (stores_get H'.lockstep hv))

/-- Every command but SUBSCRIBE and UNSUBSCRIBE is answered by one call of a builder. -/
theorem executeCommand_isCall {h : CommandHandler W} (H : h.store.Quotable) {c : Command}
    (hc : isSubscriptionCommand c = false) (line : Str) (connection : ClientConnection)
    (clocks : Clocks) {reply : Str}
    (he : (h.executeCommand c line connection clocks).2 = some reply) :
    IsCall (listed h.store (clocks 0) c) reply := by
  have hreply : ∀ {made : Str} {items : List Str}, some made = some reply → IsCall items made →
      IsCall items reply := fun e hm => Option.some.inj e ▸ hm
  cases c with
  | set => exact finish_reply he ▸ isCall_ok
  | get key => exact isCall_get H he
  | del | expire | persist => exact finish_reply he ▸ isCall_flagReply _
  | lpush | rpush | hset | hdel => exact finish_reply he ▸ isCall_countReply _
  | lpop key =>
    refine finish_reply he ▸ isCall_itemReply fun v hv => ?_
    have hv : (h.store.lpop key (clocks 0)).2 = .ok (some v) := hv
    rw [lpop_eq] at hv
    exact H.isToken (stores_pop H.lockstep (fun l v hl => List.mem_of_mem_head? hl) hv)
  | rpop key =>
    refine finish_reply he ▸ isCall_itemReply fun v hv => ?_
    have hv : (h.store.rpop key (clocks 0)).2 = .ok (some v) := hv
    rw [rpop_eq] at hv
    exact H.isToken (stores_pop H.lockstep (fun l v hl => List.mem_of_mem_getLast? hl) hv)
  | «exists» => exact hreply he (isCall_flagReply _)
  | ttl => exact hreply he (isCall_integer _)
  | keys => exact hreply he (isCall_array fun k hk => H.isToken (stores_keys k hk))
  | lrange =>
    exact hreply he
      (isCall_itemsReply fun vs hvs v hv => H.isToken (stores_lrange H.lockstep hvs v hv))
  | hget => exact hreply he (isCall_itemReply fun v hv => H.isToken (stores_hget H.lockstep hv))
  | hgetall =>
    exact hreply he
      (isCall_itemsReply fun vs hvs v hv => H.isToken (stores_hgetall H.lockstep hvs v hv))
  | llen | hlen => exact hreply he (isCall_countReply _)
  | bgsave =>
    simp only [executeCommand] at he
    split at he
    · exact hreply he (isCall_error (forall_mem_of_all (by decide)))
    · exact hreply he isCall_ok
  | bgrewriteaof =>
    simp only [executeCommand] at he
    split at he
    · exact hreply he (isCall_error (forall_mem_of_all (by decide)))
    · exact hreply he isCall_ok
  | subscribe | unsubscribe => cases hc
  | publish =>
    simp only [executeCommand] at he
    split at he
    · exact hreply he (isCall_error (forall_mem_of_all (by decide)))
    · exact hreply he (isCall_integer _)
  | auth => exact hreply he isCall_ok
  | multi | exec | discard => exact hreply he (isCall_error (unbroken_unhandled _))

/-- The answer to a command without confirmations: the list, or one line. -/
theorem executeCommand_answer {h : CommandHandler W} (H : h.store.Quotable) {c : Command}
    (hc : isSubscriptionCommand c = false) (line : Str) (connection : ClientConnection)
    (clocks : Clocks) {reply : Str}
    (he : (h.executeCommand c line connection clocks).2 = some reply) :
    ∃ call : ReplyCall, reply = call.text ∧ call.Sendable ∧
      (call = .array (listed h.store (clocks 0) c) ∨
        listed h.store (clocks 0) c = [] ∧ call.lines.length = 1) := by
  have harray : ∀ {items : List Str}, (∀ i ∈ items, h.store.Stores i) →
      ∃ call : ReplyCall, Reply.array items = call.text ∧ call.Sendable ∧
        (call = .array items ∨ items = [] ∧ call.lines.length = 1) := fun {items} hi =>
    ⟨.array items, rfl, fun i hm => unbroken_of_isToken (H.isToken (hi i hm)), .inl rfl⟩
  have hitems : ∀ {r : StoreResult (List Str)}, (∀ x ∈ itemsOf r, h.store.Stores x) →
      ∃ call : ReplyCall, itemsReply r = call.text ∧ call.Sendable ∧
        (call = .array (itemsOf r) ∨ itemsOf r = [] ∧ call.lines.length = 1) := by
    intro r hr
    cases r with
    | ok items => exact harray hr
    | error _ => exact ⟨.wrongType, rfl, trivial, .inr ⟨rfl, rfl⟩⟩
  have hother : listed h.store (clocks 0) c = [] → ∃ call : ReplyCall, reply = call.text ∧
      call.Sendable ∧ (call = .array (listed h.store (clocks 0) c) ∨
        listed h.store (clocks 0) c = [] ∧ call.lines.length = 1) := by
    intro hl
    obtain ⟨call, hreply, hs, hone⟩ := executeCommand_isCall H hc line connection clocks he
    exact ⟨call, hreply, hs, .inr ⟨hl, hone.mpr hl⟩⟩
  cases c with
  | lrange key start stop =>
    obtain rfl := Option.some.inj he
    exact hitems (stores_listed H.lockstep (clocks 0) (.lrange key start stop))
  | hgetall key =>
    obtain rfl := Option.some.inj he
    exact hitems (stores_listed H.lockstep (clocks 0) (.hgetall key))
  | keys pattern =>
    obtain rfl := Option.some.inj he
    exact harray stores_keys
  | _ => exact hother rfl

/-! ## Confirmations as calls -/

def Arrays (n : Nat) (text : Str) : Prop :=
  ∃ frames : List Str, frames.length = n ∧ text = frames.flatten ∧
    ∀ frame ∈ frames, frame.head? = some '*' ∧ Reply.Replies 1 frame

omit [AofSink W] in
theorem calls_of_confirmations (kind : Str) (hk : Unbroken kind) {make : Str → Nat → Str}
    (hmake : ∀ channel n, make channel n =
      (ReplyCall.array [kind, channel, (toString n).toList]).text)
    {channels replies : List Str}
    (h : List.Forall₂ (fun channel reply => ∃ n, reply = make channel n) channels replies)
    (hc : ∀ c ∈ channels, IsToken c) :
    ∃ calls : List ReplyCall, replies = calls.map ReplyCall.text ∧ calls.length = channels.length ∧
      ∀ call ∈ calls, call.Sendable ∧ ∃ channel count, call = .array [kind, channel, count] := by
  induction h with
  | nil => exact ⟨[], rfl, rfl, fun _ h => absurd h List.not_mem_nil⟩
  | @cons channel reply channels replies hreply _ ih =>
    obtain ⟨n, rfl⟩ := hreply
    obtain ⟨hchannel, hrest⟩ := List.forall_mem_cons.mp hc
    obtain ⟨calls, rfl, hlen, hcalls⟩ := ih hrest
    refine ⟨.array [kind, channel, (toString n).toList] :: calls, by rw [hmake]; rfl, ?_, ?_⟩
    · rw [List.length_cons, List.length_cons, hlen]
    · refine List.forall_mem_cons.mpr ⟨⟨?_, _, _, rfl⟩, hcalls⟩
      show ∀ i ∈ [kind, channel, (toString n).toList], Unbroken i
      simp only [List.forall_mem_cons]
      exact ⟨hk, unbroken_of_isToken hchannel, unbroken_toString n,
        fun _ h => absurd h List.not_mem_nil⟩

omit [AofSink W] in
theorem subscribe_calls (connection : ClientConnection) {m : PubSubManager} (hm : m.Named)
    {channels : List Str} (hc : ∀ c ∈ channels, IsToken c) :
    ∃ calls : List ReplyCall, (m.subscribe connection channels).2 = calls.map ReplyCall.text ∧
      calls.length = channels.length ∧ ∀ call ∈ calls, call.Sendable ∧
        ∃ channel count, call = .array ["subscribe".toList, channel, count] :=
  calls_of_confirmations "subscribe".toList (forall_mem_of_all (by decide)) (fun _ _ => rfl)
    (PubSubManager.subscribe_spec connection hm hc).2 hc

omit [AofSink W] in
theorem unsubscribe_calls (connection : ClientConnection) {m : PubSubManager} (hm : m.Named)
    {channels : List Str} (hc : ∀ c ∈ channels, IsToken c) :
    ∃ calls : List ReplyCall, (m.unsubscribe connection channels).2 = calls.map ReplyCall.text ∧
      calls.length = (m.targets connection channels).length ∧ ∀ call ∈ calls, call.Sendable ∧
        ∃ channel count, call = .array ["unsubscribe".toList, channel, count] := by
  have htargets : ∀ c ∈ m.targets connection channels, IsToken c := by
    unfold PubSubManager.targets
    split
    · exact hc
    · exact hm.channelsOf connection
  exact calls_of_confirmations "unsubscribe".toList (forall_mem_of_all (by decide))
    (fun _ _ => rfl) (PubSubManager.unsubscribe_spec connection hm channels).2 htargets

theorem arrays_of_calls {calls : List ReplyCall}
    (h : ∀ call ∈ calls, call.Sendable ∧ ∃ items, call = .array items) :
    Arrays calls.length (calls.flatMap ReplyCall.text) := by
  refine ⟨calls.map ReplyCall.text, List.length_map .., List.flatMap_def .., fun frame hf => ?_⟩
  obtain ⟨call, hcall, rfl⟩ := List.mem_map.mp hf
  obtain ⟨hs, items, rfl⟩ := h call hcall
  exact ⟨rfl, ReplyCall.replies_text hs⟩

/-! ## Quotable handlers -/

/-- What is stored is tokens, and what is queued was parsed. -/
structure Clean (h : CommandHandler W) : Prop where
  store : h.store.Quotable
  parsed : h.Parsed

/-- Whatever a reply can quote is a token. -/
structure Quotable (h : CommandHandler W) : Prop where
  store : h.store.Quotable
  parsed : h.Parsed
  manager : ∃ m, h.pubSubManager = some m ∧ m.Named

/-- The number of replies a command gives. -/
def frames (m : PubSubManager) (connection : ClientConnection) : Command → Nat
  | .subscribe channels => channels.length
  | .unsubscribe channels => (m.targets connection channels).length
  | _ => 1

theorem executeCommand_manager {h : CommandHandler W} {m : PubSubManager}
    (hm : h.pubSubManager = some m) (c : Command) (line : Str) (connection : ClientConnection)
    (clocks : Clocks) : (h.executeCommand c line connection clocks).1.pubSubManager =
      some (subscriptions m connection c) := by
  rw [(h.executeCommand_executes c line connection clocks).pubSubManager, hm, Option.map_some]

/-- The reply of a command is the text of the calls, as many as it has frames. -/
structure AnsweredBy (m : PubSubManager) (connection : ClientConnection) (c : Command)
    (reply : Str) (calls : List ReplyCall) : Prop where
  text : reply = calls.flatMap ReplyCall.text
  count : calls.length = frames m connection c
  sendable : ∀ call ∈ calls, call.Sendable
  arrays : isSubscriptionCommand c = true → ∀ call ∈ calls, ∃ items, call = .array items

theorem executeCommand_calls {h : CommandHandler W} (H : h.Quotable) {m : PubSubManager}
    (hm : h.pubSubManager = some m) {c : Command} (hc : c.WF) (line : Str)
    (connection : ClientConnection) (clocks : Clocks) {reply : Str}
    (he : (h.executeCommand c line connection clocks).2 = some reply) :
    ∃ calls, AnsweredBy m connection c reply calls := by
  have hnamed : m.Named := by
    obtain ⟨m', hm', hn⟩ := H.manager
    rwa [Option.some.inj (hm.symm.trans hm')]
  have hone : isSubscriptionCommand c = false → frames m connection c = 1 →
      ∃ calls, AnsweredBy m connection c reply calls := by
    intro hs hf
    obtain ⟨call, rfl, hcall, -⟩ := executeCommand_isCall H.store hs line connection clocks he
    refine ⟨[call], (List.flatMap_singleton _ _).symm, hf.symm,
      List.forall_mem_singleton.mpr hcall, fun hs' => ?_⟩
    rw [hs] at hs'
    cases hs'
  have hmany : ∀ {kind : Str} {replies : List Str} {calls : List ReplyCall},
      some replies.flatten = some reply → replies = calls.map ReplyCall.text →
      calls.length = frames m connection c →
      (∀ call ∈ calls, call.Sendable ∧ ∃ channel count, call = .array [kind, channel, count]) →
      ∃ calls, AnsweredBy m connection c reply calls := by
    rintro kind replies calls hreply rfl hlen hcalls
    refine ⟨calls, ?_, hlen, fun call hc => (hcalls call hc).1, fun _ call hc => ?_⟩
    · rw [← Option.some.inj hreply, List.flatMap_def]
    · obtain ⟨-, channel, count, e⟩ := hcalls call hc
      exact ⟨_, e⟩
  cases c with
  | subscribe channels =>
    obtain ⟨calls, hcalls, hlen, harrays⟩ := subscribe_calls connection hnamed hc.2
    simp only [executeCommand, hm, answer] at he
    exact hmany he hcalls hlen harrays
  | unsubscribe channels =>
    obtain ⟨calls, hcalls, hlen, harrays⟩ := unsubscribe_calls connection hnamed hc
    simp only [executeCommand, hm, answer] at he
    exact hmany he hcalls hlen harrays
  | _ => exact hone rfl rfl

end CommandHandler

namespace Server

open CommandHandler

/-! ## Handlers stay quotable -/

theorem clean_execute {h : CommandHandler AofWriter} (H : h.Clean) {item : QueuedCommand}
    (hp : parseCommand item.line = .ok item.command) (connection : ClientConnection)
    (clocks : Clocks) :
    (h.executeCommand item.command item.line connection clocks).1.Clean := by
  have htransactions :=
    (h.executeCommand_executes item.command item.line connection clocks).transactions
  refine ⟨?_, fun id queue hq => H.parsed id queue (htransactions ▸ hq)⟩
  rcases execute_store H.store.lockstep item.command item.line connection clocks with
    ⟨key, f, hf, e⟩ | hd
  · rw [e]
    exact H.store.perform (wf_of_parseCommand hp) hf
  · exact H.store.decays hd

theorem clean_route {h : CommandHandler AofWriter} (H : h.Clean) (line : Str)
    (connection : ClientConnection) : (h.route line connection).1.Clean := by
  obtain ⟨hstore, -, -, -⟩ := h.route_data line connection
  exact ⟨hstore ▸ H.store, (route_parsed H.parsed line connection).1⟩

theorem clean_move {h h' : CommandHandler AofWriter} (hm : Move h h') (H : h.Clean) :
    h'.Clean := by
  cases hm with
  | line text connection clocks =>
    rw [(h.handleLine_executed text connection clocks).1]
    exact executeQueue_rule (P := Clean)
      (fun clocks H hp => clean_execute H hp connection clocks) clocks _ 0
      (clean_route H text connection) (route_parsed H.parsed text connection).2
  | sweep n now =>
    exact ⟨H.store.decays (H.store.lockstep.decays_sweepExpired (T := fun _ => True) n trivial),
      H.parsed⟩
  | save clocks =>
    have ht : ∀ i j, clocks.Reads (clocks i j) := fun i j => ⟨i, j, rfl⟩
    unfold startSave
    split
    · exact H
    · next pm _ => exact ⟨H.store.decays (H.store.lockstep.decays_save ht pm), H.parsed⟩
  | saved | log | close => exact ⟨H.store, H.parsed⟩

theorem clean_of_quotable {h : CommandHandler AofWriter} (H : h.Quotable) : h.Clean :=
  ⟨H.store, H.parsed⟩

theorem quotable_of_clean {h : CommandHandler AofWriter} (H : h.Clean)
    (hm : ∃ m, h.pubSubManager = some m ∧ m.Named) : h.Quotable := ⟨H.store, H.parsed, hm⟩

theorem quotable_execute {h : CommandHandler AofWriter} (H : h.Quotable) {item : QueuedCommand}
    (hp : parseCommand item.line = .ok item.command) (connection : ClientConnection)
    (clocks : Clocks) :
    (h.executeCommand item.command item.line connection clocks).1.Quotable := by
  obtain ⟨m, hm, hnamed⟩ := H.manager
  have hc := wf_of_parseCommand hp
  have hsubscriptions : (subscriptions m connection item.command).Named := by
    unfold subscriptions
    split
    · next channels e =>
      rw [e] at hc
      exact (PubSubManager.subscribe_spec connection hnamed hc.2).1
    · exact (PubSubManager.unsubscribe_spec connection hnamed _).1
    · exact hnamed
  exact quotable_of_clean (clean_execute (clean_of_quotable H) hp connection clocks)
    ⟨_, executeCommand_manager hm item.command item.line connection clocks, hsubscriptions⟩

theorem quotable_route {h : CommandHandler AofWriter} (H : h.Quotable) (line : Str)
    (connection : ClientConnection) : (h.route line connection).1.Quotable := by
  obtain ⟨-, -, -, hmanager⟩ := h.route_data line connection
  exact quotable_of_clean (clean_route (clean_of_quotable H) line connection) (hmanager ▸ H.manager)

theorem quotable_move {h h' : CommandHandler AofWriter} (hm : Move h h') (H : h.Quotable) :
    h'.Quotable := by
  have hclean := clean_move hm (clean_of_quotable H)
  cases hm with
  | line text connection clocks =>
    rw [(h.handleLine_executed text connection clocks).1]
    exact executeQueue_rule (P := CommandHandler.Quotable)
      (fun clocks H hp => quotable_execute H hp connection clocks) clocks _ 0
      (quotable_route H text connection) (route_parsed H.parsed text connection).2
  | save clocks =>
    refine quotable_of_clean hclean ?_
    unfold startSave
    split <;> exact H.manager
  | sweep | saved | log => exact quotable_of_clean hclean H.manager
  | close connection =>
    obtain ⟨m, hm, hn⟩ := H.manager
    refine quotable_of_clean hclean ⟨m.removeConnection connection, ?_,
      PubSubManager.named_removeConnection connection hn⟩
    simp only [hm, Option.map_some]

end Server

end MiniStore
