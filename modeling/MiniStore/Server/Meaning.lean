import MiniStore.Server.Answers
import MiniStore.Server.Semantics

/-!
# What the handler does is what the commands mean

A cell stands for an entry (`entryOf`). `Command.acts` gives, for every command on one key but
GET, the function on its cell together with the reply; `acts_means` compares it with the
meaning of the command, kind by kind (`lists_meets`, `mappings_meets`). GET looks at its key
twice (`get_means`).
-/

namespace MiniStore

open InMemoryStore CommandHandler

namespace Semantics

/-! ## Entries -/

def valueOf : StoredValue → Value
  | .string text => .string text
  | .list items => .list items
  | .hash map => .mapping map.get?

def entryOf (c : Cell) : Entry := ⟨valueOf c.value, c.deadline⟩

theorem present_map_entryOf (t : Int) (x : Option Cell) :
    present t (x.map entryOf) = (liveAt t x).map entryOf := by
  rcases x with _ | ⟨v, _ | d⟩
  · rfl
  · rfl
  · rw [liveAt_some]
    by_cases hd : t < d
    · have hx : Cell.expired ⟨v, some d⟩ t = false := decide_eq_false (by omega)
      simp [present, entryOf, Option.filter, hd, hx]
    · have hx : Cell.expired ⟨v, some d⟩ t = true := decide_eq_true (by omega)
      simp [present, entryOf, Option.filter, hd, hx]

/-! ## Mappings -/

theorem support_get? (m : OrdMap Str Str) : support m.get? = m.keys.toFinset := by
  ext f
  rw [support, Set.mem_ofPred_eq, Finset.mem_coe, List.mem_toFinset, ne_eq,
    OrdMap.get?_eq_none_iff, not_not]

theorem finite_support (m : OrdMap Str Str) : (support m.get?).Finite := by
  rw [support_get?]
  exact m.keys.toFinset.finite_toSet

theorem ncard_support (m : OrdMap Str Str) : (support m.get?).ncard = m.size := by
  rw [support_get?, Set.ncard_coe_finset, List.toFinset_card_of_nodup m.keys_nodup,
    OrdMap.length_keys]

theorem get?_ne_empty {m : OrdMap Str Str} (h : m.size ≠ 0) : m.get? ≠ mappings.empty := by
  intro he
  have hcard := ncard_support m
  have hnone : support mappings.empty = ∅ := Set.eq_empty_of_forall_notMem fun _ hf => hf rfl
  rw [he, hnone, Set.ncard_empty] at hcard
  exact h hcard.symm

theorem get?_eq_empty {m : OrdMap Str Str} (h : m.size = 0) : m.get? = mappings.empty := by
  have he : m = OrdMap.empty := OrdMap.ext (List.length_eq_zero_iff.mp h)
  rw [he]
  rfl

theorem get?_setPairs (pairs : List (Str × Str)) : ∀ m : OrdMap Str Str,
    (setPairs m pairs).1.get? = assign m.get? pairs := by
  induction pairs with
  | nil => exact fun _ => rfl
  | cons p pairs ih =>
    intro m
    have hset : (m.set p.1 p.2).get? = Function.update m.get? p.1 (some p.2) := by
      funext f
      rw [OrdMap.get?_set, Function.update_apply]
    rw [setPairs_cons, ih, hset]
    rfl

theorem get?_deleteFields (fields : List Str) : ∀ m : OrdMap Str Str,
    (deleteFields m fields).1.get? = without m.get? fields := by
  induction fields with
  | nil => exact fun _ => funext fun _ => rfl
  | cons f fields ih =>
    intro m
    rw [deleteFields_cons, ih]
    funext g
    simp only [without, OrdMap.get?_delete, List.mem_cons]
    by_cases hg : g = f <;> by_cases hm : g ∈ fields <;> simp [hg, hm]

theorem support_assign (pairs : List (Str × Str)) : ∀ field : Str → Option Str,
    support field ⊆ support (assign field pairs) := by
  induction pairs with
  | nil => exact fun _ => Set.Subset.rfl
  | cons p pairs ih =>
    intro field
    refine Set.Subset.trans (fun f hf => ?_) (ih (Function.update field p.1 (some p.2)))
    by_cases he : f = p.1
    · simp [support, he]
    · simpa [support, Function.update_apply, he] using hf

theorem support_without (field : Str → Option Str) (fields : List Str) :
    support (without field fields) ⊆ support field := by
  intro f hf hn
  refine hf ?_
  simp only [without, hn, ite_self]

theorem ncard_assign (m : OrdMap Str Str) (pairs : List (Str × Str)) :
    (support (assign m.get? pairs) \ support m.get?).ncard = (setPairs m pairs).2 := by
  have hsize := size_setPairs pairs m
  rw [Set.ncard_sdiff (support_assign pairs m.get?) (finite_support m), ← get?_setPairs,
    ncard_support, ncard_support]
  omega

theorem ncard_without (m : OrdMap Str Str) (fields : List Str) :
    (support m.get? \ support (without m.get? fields)).ncard = (deleteFields m fields).2 := by
  have hsize := FieldMap.size_deleteFields fields m
  have hsub := support_without m.get? fields
  rw [← get?_deleteFields] at hsub ⊢
  rw [Set.ncard_sdiff hsub (finite_support _), ncard_support, ncard_support]
  omega

theorem entries_mem_listings (m : OrdMap Str Str) :
    Reply.array (m.entries.flatMap fun e => [e.1, e.2]) ∈ listings m.get? := by
  have hentries := (⟨rfl, fun _ => rfl⟩ : FieldMap.Of ⟨m.keys, m.get?⟩ m).entries
  refine ⟨m.keys, m.keys_nodup, fun f => ?_, congrArg _ hentries⟩
  rw [support_get?, Finset.mem_coe, List.mem_toFinset]

/-! ## Cell functions -/

/-- Keep of a cell function the effect and the reply it is answered with. -/
def repliedBy {α : Type} (render : α → Str) (f : Option Cell → Effect × α) (c : Option Cell) :
    Effect × Str := ((f c).1, render (f c).2)

/-- The function does to the cell what is meant, and its reply is right. -/
def Meets (m : Option Entry → Meaning) (f : Option Cell → Effect × Str) : Prop :=
  ∀ x : Option Cell, Cell.NonEmpty x → (f x).2 ∈ (m (x.map entryOf)).answers ∧
    (m (x.map entryOf)).left = ((f x).1.action.onCell x).map entryOf

theorem leave_ne {α : Type} {kind : Kind α} {value : α} (h : value ≠ kind.empty)
    (d : Option Int) : kind.leave d value = some ⟨kind.wrap value, d⟩ := if_neg h

theorem leave_empty {α : Type} (kind : Kind α) (d : Option Int) :
    kind.leave d kind.empty = none := if_pos rfl

section

variable {f : Option Cell → Effect × Str}

/-- A command on lists, by what it does without the key, to a list, and to the other kinds. -/
theorem lists_meets {g : List Str → Set Str × List Str}
    (habsent : (f none).2 ∈ (g []).1 ∧
      lists.leave none (g []).2 = ((f none).1.action.onCell none).map entryOf)
    (hlist : ∀ l d, l ≠ [] → (f (some ⟨.list l, d⟩)).2 ∈ (g l).1 ∧ lists.leave d (g l).2 =
      ((f (some ⟨.list l, d⟩)).1.action.onCell (some ⟨.list l, d⟩)).map entryOf)
    (hother : ∀ c, c.value.asList = none → f (some c) = (.keep, Reply.wrongType)) :
    Meets (lists.meaning g) f := by
  intro x hx
  rcases x with _ | ⟨_ | l | m, d⟩
  · exact habsent
  · rw [hother _ rfl]
    exact ⟨rfl, rfl⟩
  · exact hlist l d (hx _ rfl)
  · rw [hother _ rfl]
    exact ⟨rfl, rfl⟩

theorem mappings_meets {g : (Str → Option Str) → Set Str × (Str → Option Str)}
    (habsent : (f none).2 ∈ (g mappings.empty).1 ∧
      mappings.leave none (g mappings.empty).2 = ((f none).1.action.onCell none).map entryOf)
    (hhash : ∀ m d, m.size ≠ 0 → (f (some ⟨.hash m, d⟩)).2 ∈ (g m.get?).1 ∧
      mappings.leave d (g m.get?).2 =
        ((f (some ⟨.hash m, d⟩)).1.action.onCell (some ⟨.hash m, d⟩)).map entryOf)
    (hother : ∀ c, c.value.asHash = none → f (some c) = (.keep, Reply.wrongType)) :
    Meets (mappings.meaning g) f := by
  intro x hx
  rcases x with _ | ⟨_ | l | m, d⟩
  · exact habsent
  · rw [hother _ rfl]
    exact ⟨rfl, rfl⟩
  · rw [hother _ rfl]
    exact ⟨rfl, rfl⟩
  · exact hhash m d (hx _ rfl)

end

theorem push_meets (addAll : List Str → List Str → List Str) (values : List Str)
    (hne : ∀ l, addAll l values ≠ []) :
    Meets (lists.meaning fun items =>
      ({Reply.integer (addAll items values).length}, addAll items values))
      (repliedBy countReply (pushCell addAll values)) := by
  refine lists_meets ⟨rfl, leave_ne (hne []) none⟩ (fun l d _ => ⟨rfl, leave_ne (hne l) d⟩) ?_
  rintro ⟨_ | _ | _, d⟩ ho
  · rfl
  · cases ho
  · rfl

theorem pop_meets (take : List Str → Option Str × List Str) (hnil : take [] = (none, [])) :
    Meets (lists.meaning fun items => ({item (take items).1}, (take items).2))
      (repliedBy itemReply (popCell take)) := by
  refine lists_meets ?_ (fun l d _ => ?_) ?_
  · rw [hnil]
    exact ⟨rfl, leave_empty lists none⟩
  · have hitem : ∀ v, itemReply (.ok v) = item v := fun v => by cases v <;> rfl
    simp only [repliedBy, popCell]
    split
    · next he =>
      rw [he]
      exact ⟨hitem _, leave_empty lists d⟩
    · next he => exact ⟨hitem _, leave_ne he d⟩
  · rintro ⟨_ | _ | _, d⟩ ho
    · rfl
    · cases ho
    · rfl

theorem readList_meets {α : Type} {absent : α} (read : List Str → α)
    (render : StoreResult α → Str) (hnil : read [] = absent)
    (herror : ∀ e, render (.error e) = Reply.wrongType) :
    Meets (lists.meaning fun items => ({render (.ok (read items))}, items))
      (repliedBy render (readCell StoredValue.asList absent read)) := by
  refine lists_meets ?_ (fun l d hl => ⟨rfl, leave_ne hl d⟩) fun c ho => ?_
  · rw [hnil]
    exact ⟨rfl, leave_empty lists none⟩
  · simp only [repliedBy, readCell, ho, herror]

theorem readHash_meets {α : Type} {absent : α} (read : OrdMap Str Str → α)
    (render : StoreResult α → Str) {answers : (Str → Option Str) → Set Str}
    (habsent : read OrdMap.empty = absent) (hread : ∀ m, render (.ok (read m)) ∈ answers m.get?)
    (herror : ∀ e, render (.error e) = Reply.wrongType) :
    Meets (mappings.meaning fun field => (answers field, field))
      (repliedBy render (readCell StoredValue.asHash absent read)) := by
  refine mappings_meets ?_ (fun m d hm => ⟨hread m, leave_ne (get?_ne_empty hm) d⟩) fun c ho => ?_
  · rw [← habsent]
    exact ⟨hread OrdMap.empty, leave_empty mappings none⟩
  · simp only [repliedBy, readCell, ho, herror]

theorem hset_meets {pairs : List (Str × Str)} (hp : pairs ≠ []) :
    Meets (mappings.meaning fun field =>
        ({Reply.integer (support (assign field pairs) \ support field).ncard},
          assign field pairs))
      (repliedBy countReply (hsetCell pairs)) := by
  have hmap : ∀ (m : OrdMap Str Str) (d : Option Int),
      countReply (.ok (setPairs m pairs).2) ∈
          ({Reply.integer (support (assign m.get? pairs) \ support m.get?).ncard} : Set Str) ∧
        mappings.leave d (assign m.get? pairs) =
          some (entryOf ⟨.hash (setPairs m pairs).1, d⟩) := by
    intro m d
    rw [ncard_assign, ← get?_setPairs]
    exact ⟨rfl, leave_ne (get?_ne_empty (size_setPairs_pos hp)) d⟩
  refine mappings_meets (hmap OrdMap.empty none) (fun m d _ => hmap m d) ?_
  rintro ⟨_ | _ | _, d⟩ ho
  · rfl
  · rfl
  · cases ho

theorem hdel_meets (fields : List Str) :
    Meets (mappings.meaning fun field =>
        ({Reply.integer (support field \ support (without field fields)).ncard},
          without field fields))
      (repliedBy countReply (hdelCell fields)) := by
  have hreply : ∀ m : OrdMap Str Str, countReply (.ok (deleteFields m fields).2) ∈
      ({Reply.integer (support m.get? \ support (without m.get? fields)).ncard} : Set Str) := by
    intro m
    rw [ncard_without]
    rfl
  refine mappings_meets ?_ (fun m d hm => ?_) ?_
  · have hnone : without mappings.empty fields = mappings.empty := funext fun _ => ite_self _
    rw [hnone, Set.sdiff_self, Set.ncard_empty]
    exact ⟨rfl, leave_empty mappings none⟩
  · have hkept := get?_deleteFields fields m
    have hr := hreply m
    rw [← hkept] at hr ⊢
    simp only [repliedBy, hdelCell]
    split
    · next hz =>
      rw [get?_eq_empty hz] at hr ⊢
      exact ⟨hr, leave_empty mappings d⟩
    · next hz =>
      split
      · exact ⟨hr, leave_ne (get?_ne_empty hz) d⟩
      · next hn =>
        have he := deleteFields_of_zero fields (Nat.eq_zero_of_not_pos hn)
        refine ⟨hr, ?_⟩
        rw [he]
        exact leave_ne (get?_ne_empty hm) d
  · rintro ⟨_ | _ | _, d⟩ ho
    · rfl
    · rfl
    · cases ho

theorem ceilSeconds_eq (x : Int) : ceilSeconds x = ⌈((x : Int) : ℚ) / 1000⌉ := by
  have h := Rat.floor_intCast_div_natCast (-x) 1000
  have hneg : (((-x : Int) : ℚ) / (1000 : ℕ)) = -((x : ℚ) / 1000) := by push_cast; ring
  rw [hneg, Int.floor_neg] at h
  rw [ceilSeconds]
  omega

theorem ttl_meets (now : Clock) :
    Meets (fun found => ⟨{Reply.integer (remaining (now 1) found)}, found⟩)
      (repliedBy Reply.integer (ttlCell (now 1))) := by
  intro x _
  rcases x with _ | ⟨v, _ | d⟩
  · exact ⟨rfl, rfl⟩
  · exact ⟨rfl, rfl⟩
  · refine ⟨congrArg Reply.integer ?_, rfl⟩
    show max 0 (ceilSeconds (max 0 (d - now 1))) = max 0 ⌈((d - now 1 : Int) : ℚ) / 1000⌉
    rw [← ceilSeconds_eq]
    unfold ceilSeconds
    omega

/-! ## Commands -/

/-- A command on one key, with the instant from which a deadline counts, the function on its cell
and its reply. -/
def acts (now : Clock) : Command → Option (Str × Int × (Option Cell → Effect × Str))
  | .set key value ttlSeconds =>
    some (key, now 2, repliedBy (fun _ => Reply.ok)
      (setCell value (ttlSeconds.map fun n => now 2 + n * 1000)))
  | .del key => some (key, now 1, repliedBy flagReply delCell)
  | .exists key => some (key, now 1, repliedBy flagReply existsCell)
  | .expire key seconds =>
    some (key, now 1, repliedBy flagReply (expireCell (now 1 + seconds * 1000)))
  | .persist key => some (key, now 1, repliedBy flagReply persistCell)
  | .ttl key => some (key, now 1, repliedBy Reply.integer (ttlCell (now 1)))
  | .lpush key values => some (key, now 1, repliedBy countReply (pushCell unshiftAll values))
  | .rpush key values => some (key, now 1, repliedBy countReply (pushCell pushAll values))
  | .lpop key => some (key, now 1, repliedBy itemReply (popCell shift))
  | .rpop key => some (key, now 1, repliedBy itemReply (popCell pop))
  | .lrange key start stop =>
    some (key, now 1, repliedBy itemsReply (readCell StoredValue.asList [] (slice start stop)))
  | .llen key =>
    some (key, now 1, repliedBy countReply (readCell StoredValue.asList 0 List.length))
  | .hset key pairs => some (key, now 1, repliedBy countReply (hsetCell pairs))
  | .hdel key fields => some (key, now 1, repliedBy countReply (hdelCell fields))
  | .hget key field =>
    some (key, now 1, repliedBy itemReply (readCell StoredValue.asHash none (·.get? field)))
  | .hgetall key =>
    some (key, now 1, repliedBy itemsReply
      (readCell StoredValue.asHash [] fun map => map.entries.flatMap fun e => [e.1, e.2]))
  | .hlen key =>
    some (key, now 1, repliedBy countReply (readCell StoredValue.asHash 0 OrdMap.size))
  | _ => none

section

variable {c : Command} {now : Clock} {key : Str} {t : Int} {f : Option Cell → Effect × Str}

theorem fits_acts (hm : acts now c = some (key, t, f)) (x : Option Cell) : (f x).1.Fits x := by
  cases c with
  | del => cases hm; exact fits_delCell x
  | expire => cases hm; exact fits_expireCell x
  | persist => cases hm; exact fits_persistCell x
  | ttl => cases hm; exact fits_ttlCell x
  | lpush | rpush => cases hm; exact fits_pushCell x
  | lpop | rpop => cases hm; exact fits_popCell x
  | hset => cases hm; exact fits_hsetCell x
  | hdel => cases hm; exact fits_hdelCell x
  | lrange | llen | hget | hgetall | hlen => cases hm; exact fits_readCell x
  | set | «exists» => cases hm; trivial
  | _ => cases hm

theorem acts_means (hc : c.WF) (hm : acts now c = some (key, t, f)) :
    (t = now 1 ∨ t = now 2) ∧ ∃ m, meaning t c = some (key, m) ∧ Meets m f := by
  cases c with
  | set =>
    cases hm
    refine ⟨.inr rfl, _, rfl, fun x _ => ⟨rfl, rfl⟩⟩
  | del =>
    cases hm
    refine ⟨.inl rfl, _, rfl, fun x _ => ?_⟩
    cases x <;> exact ⟨rfl, rfl⟩
  | «exists» =>
    cases hm
    refine ⟨.inl rfl, _, rfl, fun x _ => ?_⟩
    cases x <;> exact ⟨rfl, rfl⟩
  | expire =>
    cases hm
    refine ⟨.inl rfl, _, rfl, fun x _ => ?_⟩
    cases x <;> exact ⟨rfl, rfl⟩
  | persist =>
    cases hm
    refine ⟨.inl rfl, _, rfl, fun x _ => ?_⟩
    rcases x with _ | ⟨v, _ | d⟩ <;> exact ⟨rfl, rfl⟩
  | ttl =>
    cases hm
    exact ⟨.inl rfl, _, rfl, ttl_meets now⟩
  | lpush k values =>
    cases hm
    have hmeets := push_meets unshiftAll values (unshiftAll_ne_nil hc.2.1)
    simp only [unshiftAll_eq, List.length_append, List.length_reverse] at hmeets
    exact ⟨.inl rfl, _, rfl, hmeets⟩
  | rpush k values =>
    cases hm
    have hmeets := push_meets pushAll values (pushAll_ne_nil hc.2.1)
    simp only [pushAll_eq, List.length_append] at hmeets
    exact ⟨.inl rfl, _, rfl, hmeets⟩
  | lpop =>
    cases hm
    exact ⟨.inl rfl, _, rfl, pop_meets shift rfl⟩
  | rpop =>
    cases hm
    exact ⟨.inl rfl, _, rfl, pop_meets pop rfl⟩
  | lrange k start stop =>
    cases hm
    have hnil : slice start stop [] = [] := by simp [slice]
    have hmeets := readList_meets (slice start stop) itemsReply hnil fun _ => rfl
    refine ⟨.inl rfl, _, rfl, ?_⟩
    simp only [← Deque.slice_eq]
    exact hmeets
  | llen =>
    cases hm
    exact ⟨.inl rfl, _, rfl, readList_meets List.length countReply rfl fun _ => rfl⟩
  | hset =>
    cases hm
    exact ⟨.inl rfl, _, rfl, hset_meets hc.2.1⟩
  | hdel =>
    cases hm
    exact ⟨.inl rfl, _, rfl, hdel_meets _⟩
  | hget k field =>
    cases hm
    refine ⟨.inl rfl, _, rfl, readHash_meets (·.get? field) itemReply rfl (fun m => ?_) fun _ => rfl⟩
    cases m.get? field <;> rfl
  | hgetall =>
    cases hm
    exact ⟨.inl rfl, _, rfl, readHash_meets _ itemsReply rfl entries_mem_listings fun _ => rfl⟩
  | hlen =>
    cases hm
    refine ⟨.inl rfl, _, rfl, readHash_meets OrdMap.size countReply rfl (fun m => ?_) fun _ => rfl⟩
    rw [ncard_support]
    rfl
  | _ => cases hm

end

end Semantics

namespace CommandHandler

open Semantics

variable {W : Type} [AofSink W]

/-- Executing a command on one key performs its cell function, which says what is replied; the cell
says whether the line is logged. -/
theorem executeCommand_finish {c : Command} {clocks : Clocks} {key : Str} {t : Int}
    {f : Option Cell → Effect × Str} (hm : acts (clocks 0) c = some (key, t, f)) (line : Str)
    (connection : ClientConnection) :
    ∃ logged : Option Cell → Bool, ∀ {h : CommandHandler W}, h.store.Lockstep →
      h.executeCommand c line connection clocks = h.finish (h.store.perform key (clocks 0) f).1
        (logged (liveAt (clocks 0 0) (h.store.cell key))) line
        (f (liveAt (clocks 0 0) (h.store.cell key))).2 := by
  have hmade : ∀ {α : Type} {key : Str} {g : Option Cell → Effect × α} (took : α → Bool)
      {reply : α → Str}, (∀ {h : CommandHandler W}, h.store.Lockstep →
        h.executeCommand c line connection clocks = h.finish (h.store.perform key (clocks 0) g).1
          (took (h.store.perform key (clocks 0) g).2) line
          (reply (h.store.perform key (clocks 0) g).2)) →
      ∃ logged : Option Cell → Bool, ∀ {h : CommandHandler W}, h.store.Lockstep →
        h.executeCommand c line connection clocks =
          h.finish (h.store.perform key (clocks 0) (repliedBy reply g)).1
            (logged (liveAt (clocks 0 0) (h.store.cell key))) line
            (repliedBy reply g (liveAt (clocks 0 0) (h.store.cell key))).2 := by
    intro α key g took reply he
    refine ⟨fun c => took (g c).2, fun hs => ?_⟩
    rw [he hs, hs.perform_snd]
    rfl
  cases c with
  | set => cases hm; exact hmade (fun _ => true) fun _ => by simp only [executeCommand, set_eq]
  | del => cases hm; exact hmade id fun _ => by simp only [executeCommand, del_eq]; rfl
  | expire => cases hm; exact hmade id fun _ => by simp only [executeCommand, expire_eq]; rfl
  | persist => cases hm; exact hmade id fun _ => by simp only [executeCommand, persist_eq]; rfl
  | lpush => cases hm; exact hmade _ fun hs => by simp only [executeCommand, lpush_eq hs]; rfl
  | rpush => cases hm; exact hmade _ fun hs => by simp only [executeCommand, rpush_eq hs]; rfl
  | lpop => cases hm; exact hmade _ fun _ => by simp only [executeCommand, lpop_eq]; rfl
  | rpop => cases hm; exact hmade _ fun _ => by simp only [executeCommand, rpop_eq]; rfl
  | hset => cases hm; exact hmade _ fun hs => by simp only [executeCommand, hset_eq hs]; rfl
  | hdel => cases hm; exact hmade _ fun _ => by simp only [executeCommand, hdel_eq]; rfl
  | «exists» =>
    cases hm
    exact hmade (fun _ => false) fun _ => by
      simp only [executeCommand, InMemoryStore.exists_eq]
      rfl
  | ttl => cases hm; exact hmade (fun _ => false) fun _ => by simp only [executeCommand, ttl_eq]; rfl
  | lrange | llen | hget | hgetall | hlen =>
    cases hm
    exact hmade (fun _ => false) fun _ => by
      simp only [executeCommand, lrange, llen, hget, hgetall, hlen, readAs_eq]
      rfl
  | _ => cases hm

section

variable {h : CommandHandler W} (hs : h.store.Lockstep) {c : Command} {clocks : Clocks}

include hs

theorem executeCommand_acts {key : Str} {t : Int} {f : Option Cell → Effect × Str}
    (hm : acts (clocks 0) c = some (key, t, f)) (line : Str) (connection : ClientConnection) :
    (h.executeCommand c line connection clocks).1.store =
        (h.store.perform key (clocks 0) f).1 ∧
      ∀ r ∈ (h.executeCommand c line connection clocks).2,
        r = (h.store.perform key (clocks 0) f).2 := by
  obtain ⟨logged, hfinish⟩ := executeCommand_finish (W := W) hm line connection
  rw [hfinish hs, hs.perform_snd]
  obtain ⟨w, hw⟩ := h.finish_fst (h.store.perform key (clocks 0) f).1
    (logged (liveAt (clocks 0 0) (h.store.cell key))) line
    (f (liveAt (clocks 0 0) (h.store.cell key))).2
  exact ⟨congrArg CommandHandler.store hw, fun r hr => finish_reply hr⟩

/-- GET reads the kind of its key and then the value: it is right at the first of the two instants
if it finds another kind, and at the second otherwise. -/
theorem executeCommand_get (key line : Str) (connection : ClientConnection)
    (hle : clocks 0 0 ≤ clocks 1 0) :
    ∃ seen, (seen = clocks 0 0 ∨ seen = clocks 1 0) ∧
      ∀ r ∈ (h.executeCommand (.get key) line connection clocks).2,
        r ∈ (lookup ((liveAt seen (h.store.cell key)).map entryOf)).answers := by
  have hkind : (h.store.keyType key (clocks 0)).2 =
      (liveAt (clocks 0 0) (h.store.cell key)).map fun c => c.value.type := by
    rw [keyType_eq, hs.perform_snd]
    rfl
  have hvalue : ((h.store.keyType key (clocks 0)).1.get key (clocks 1)).2 =
      (getCell (liveAt (clocks 1 0) (h.store.cell key))).2 := by
    have hL : (h.store.keyType key (clocks 0)).1.Lockstep :=
      (hs.decays_keyType (T := fun _ => True) key trivial).lockstep
    have hcell : (h.store.keyType key (clocks 0)).1.cell key =
        liveAt (clocks 0 0) (h.store.cell key) := by
      rw [keyType_eq, hs.cell_perform_self]
      rfl
    rw [get_eq, hL.perform_snd, hcell, liveAt_liveAt hle]
  by_cases hw : (h.store.keyType key (clocks 0)).2 ≠ none ∧
      (h.store.keyType key (clocks 0)).2 ≠ some .string
  · refine ⟨_, .inl rfl, fun r hr => ?_⟩
    simp only [executeCommand, if_pos hw] at hr
    obtain rfl : Reply.wrongType = r := Option.some.inj hr
    rw [hkind] at hw
    generalize liveAt (clocks 0 0) (h.store.cell key) = x at hw ⊢
    rcases x with _ | ⟨_ | _ | _, d⟩
    · exact absurd rfl hw.1
    · exact absurd rfl hw.2
    · rfl
    · rfl
  · refine ⟨_, .inr rfl, fun r hr => ?_⟩
    simp only [executeCommand, if_neg hw] at hr
    have hother : ∀ c, liveAt (clocks 1 0) (h.store.cell key) = some c → c.value.type = .string := by
      intro c hc
      rw [← liveAt_liveAt hle] at hc
      have hfirst := (liveAt_eq_some.mp hc).1
      rw [hkind, hfirst] at hw
      by_contra hne
      exact hw ⟨Option.some_ne_none _, fun he => hne (Option.some.inj he)⟩
    generalize (h.store.keyType key (clocks 0)).1.get key (clocks 1) = got at hr hvalue
    obtain ⟨s, v⟩ := got
    obtain rfl : v = (getCell (liveAt (clocks 1 0) (h.store.cell key))).2 := hvalue
    generalize liveAt (clocks 1 0) (h.store.cell key) = x at hr hother ⊢
    rcases x with _ | ⟨_ | _ | _, d⟩
    · exact (Option.some.inj hr).symm
    · exact (Option.some.inj hr).symm
    · exact ValueType.noConfusion (hother _ rfl : ValueType.list = .string)
    · exact ValueType.noConfusion (hother _ rfl : ValueType.hash = .string)

end

end CommandHandler

end MiniStore
