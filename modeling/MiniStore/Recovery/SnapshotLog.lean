import MiniStore.Recovery.Onto
import MiniStore.Store.Snapshot

/-!
# Snapshot and log together

`main` restores the last dump and replays the whole log onto it, also the lines from
before the save. What the dump holds is plain, and its strings have been SET in the
log (`PlainDump`), so a restored string is settled at the end of the replay. A
restored list is, exactly if the log resets it (`startup_exact`).
-/

namespace MiniStore

open InMemoryStore Engine PersistenceManager

/-- The last dump whose rename succeeded. -/
def Engine.dumpFile (h : Engine) : Option Dump := h.persistenceManager.bind (·.dumpFile)

/-- `type: 'list'`. -/
def SerializedValue.isList : SerializedValue → Bool
  | .list _ => true
  | _ => false

namespace Recovery

def dumpedKeys (file : Option Dump) : List Str :=
  (file.getD PlainObject.empty).entries.map Prod.fst

def dumpedLists (file : Option Dump) : List Str :=
  ((file.getD PlainObject.empty).entries.filter fun e => e.2.value.isList).map Prod.fst

/-! ## What the live store holds -/

/-- Only plain cells, and strings that the log has set. -/
def PlainStore (log : List Str) (s : InMemoryStore) : Prop :=
  ∀ k, Plain (s.cell k) ∧ (isString (s.cell k) = true → resetIn log k = true)

/-- A string was there before, or a SET has been logged. -/
theorem Does.of_isString {f : Option Cell → Effect × Bool} {reset : Bool} (hf : Does f reset)
    {x : Option Cell} (hx : Plain x) (hs : isString ((f x).1.action.onCell x) = true) :
    isString x = true ∨ (f x).2 = true ∧ reset = true := by
  cases reset with
  | true =>
    cases hf with
    | set v h => exact .inr ⟨by rw [h], rfl⟩
    | del h => rw [h] at hs; cases x <;> cases hs
  | false =>
    refine .inl (by_contra fun hn => ?_)
    obtain ⟨g, -, hg⟩ := hf.lengths
    rw [(hg x hx (by simpa using hn)).1] at hs
    cases hs

theorem plainStore_steps {maxKeys : Nat} {hm : 1 ≤ maxKeys} {h0 : Engine}
    (h0f : Fresh maxKeys hm h0) {ms : List Moment} {h : Engine} (hs : Engine.Steps h0 ms h)
    (ha : Along (fun _ m => m.runsOnly Command.onPlainValues = true) ms) :
    PlainStore h.lines h.store := by
  refine steps_rule (P := fun _ s log => PlainStore log s) h0f.sound ?_ ?_ ?_ hs ha
  · rw [h0f.store]
    exact fun _ => ⟨trivial, fun h => nomatch h⟩
  · intro ms h item clk key f hS ih hro hp hmu k
    obtain ⟨-, reset, hf, hline⟩ := does_of_runsOnly hro rfl hp hmu
    have hplain := (ih key).1
    rw [liveAt_permanent hplain.permanent, resetIn_append]
    by_cases hk : k = key
    · subst hk
      rw [hS.lockstep.cell_perform_self, liveAt_permanent hplain.permanent]
      refine ⟨hf.plain hplain, fun hstr => ?_⟩
      rcases hf.of_isString hplain hstr with hstr | ⟨hlog, rfl⟩
      · rw [(ih k).2 hstr, Bool.true_or]
      · rw [if_pos hlog, (hline k).1, beq_self_eq_true, Bool.and_self, Bool.or_true]
    · have hother : (h.store.perform key (clk 0) f).1.cell k = h.store.cell k ∨ _ :=
        hS.lockstep.cell_perform_other hk
      rcases hother with e | e <;> rw [e]
      · exact ⟨(ih k).1, fun hstr => by rw [(ih k).2 hstr, Bool.true_or]⟩
      · exact ⟨trivial, fun hstr => nomatch hstr⟩
  · intro ms h item clk s' _ ih _ _ hd k
    rw [hd.cell_eq (ih k).1.permanent]
    exact ih k

/-! ## What a dump holds -/

/-- The entries of plain cells, the strings of which the log has set. -/
structure PlainDump (maxKeys : Nat) (log : List Str) (dump : Dump) : Prop where
  length_le : dump.entries.length ≤ maxKeys
  entry : ∀ k e, dump.get? k = some e → ∃ c, Plain (some c) ∧ (∀ now, e = serialize now c) ∧
    (isString (some c) = true → resetIn log k = true)

theorem restored_serialize {c : Cell} (hc : Plain (some c)) (now now' : Int) :
    restored now' (serialize now c) = c ∧ (serialize now c).ttl = none ∧
      (serialize now c).value.isList = !isString (some c) := by
  rcases plain_cases hc with e | ⟨v, e⟩ | ⟨l, -, e⟩ <;> cases e <;> exact ⟨rfl, rfl, rfl⟩

theorem plainDump_extract {maxKeys : Nat} {h : Engine} (hS : Sound maxKeys h)
    (hp : PlainStore h.lines h.store) (clocks : Clocks) :
    PlainDump maxKeys h.lines (extract h.store clocks).2 := by
  have hd : Describes clocks.Reads h.store.cell (extract h.store clocks).2 :=
    describes_extract_permanent hS.lockstep (fun k hk => oneLine_of_isToken (hS.spelled k hk))
      fun k => (hp k).1.permanent
  refine ⟨?_, fun k e he => ?_⟩
  · refine Nat.le_trans (hd.length_le fun _ hk => hk) ?_
    rw [← hS.maxKeys]
    exact hS.lockstep.size_le
  · cases hc : h.store.cell k with
    | none => rw [hd.absent k (.inl hc)] at he; cases he
    | some c =>
      have hk : k ≠ PlainObject.protoKey := fun e' => by
        rw [hd.absent k (.inr e')] at he; cases he
      obtain ⟨now, -, he'⟩ := hd.present k c hc hk
      obtain ⟨hpc, hstr⟩ := hp k
      rw [hc] at hpc hstr
      refine ⟨c, hpc, fun now' => ?_, hstr⟩
      rw [he'] at he
      cases he
      rcases plain_cases hpc with e | ⟨v, e⟩ | ⟨l, -, e⟩ <;> cases e <;> rfl

theorem plainDump_steps {maxKeys : Nat} {hm : 1 ≤ maxKeys} {h0 : Engine}
    (h0f : Fresh maxKeys hm h0) (h0p : h0.persistenceManager = some (PersistenceManager.create none))
    {ms : List Moment} {h : Engine} (hs : Engine.Steps h0 ms h)
    (ha : Along (fun _ m => m.runsOnly Command.onPlainValues = true) ms) :
    ∀ dump ∈ h.dumpFile, PlainDump maxKeys h.lines dump := by
  have hd : Dumps (PlainDump maxKeys) h := by
    refine dumps_rule h0f.sound ?_ ?_ ?_ hs ha
    · intro pm hpm
      rw [h0p] at hpm
      cases hpm
      exact ⟨fun dump hf => (nomatch hf), fun p hp => (nomatch hp)⟩
    · intro log l dump hq
      refine ⟨hq.length_le, fun k e he => ?_⟩
      obtain ⟨c, hc, hser, hstr⟩ := hq.entry k e he
      exact ⟨c, hc, hser, fun hs => by rw [resetIn_append, hstr hs, Bool.true_or]⟩
    · intro ms h clocks hs ha
      exact plainDump_extract (h0f.sound.steps hs) (plainStore_steps h0f hs ha) clocks
  intro dump hf
  obtain ⟨pm, hpm, hf⟩ := Option.bind_eq_some_iff.mp hf
  exact (hd pm hpm).1 dump hf

/-! ## What a restore makes of it -/

/-- The restored store: in lockstep, with plain cells, the strings set in the log, the
lists those of the dump. -/
structure Restored (maxKeys : Nat) (log : List Str) (file : Option Dump) (r : InMemoryStore) :
    Prop where
  lockstep : r.Lockstep
  maxKeys : r.maxKeys = maxKeys
  plain : PlainStore log r
  keys : ∀ k, r.cell k ≠ none → k ∈ dumpedKeys file
  lists : ∀ k, k ∈ dumpedLists file ↔ r.cell k ≠ none ∧ isString (r.cell k) = false

theorem restored_of_plainDump {maxKeys : Nat} (hm : 1 ≤ maxKeys) {log : List Str}
    {file : Option Dump} (hf : ∀ dump ∈ file, PlainDump maxKeys log dump) (clocks : Clocks) :
    Restored maxKeys log file
      ((PersistenceManager.create file).restore (InMemoryStore.create maxKeys hm) clocks).2.1 := by
  cases file with
  | none =>
    refine ⟨lockstep_create maxKeys hm, rfl, fun _ => ⟨trivial, fun h => nomatch h⟩,
      fun k hk => absurd rfl hk, fun k => ⟨fun hk => (nomatch hk), fun hk => absurd rfl hk.1⟩⟩
  | some dump =>
    have hd := hf dump rfl
    obtain ⟨hL, hmax, -, habs, hpres⟩ := restore_spec (PersistenceManager.create (some dump)) rfl
      maxKeys hm clocks hd.length_le fun k e he ttl ht => by
        obtain ⟨c, hc, hser, -⟩ := hd.entry k e he
        rw [hser 0, (restored_serialize hc 0 0).2.1] at ht
        cases ht
    generalize ((PersistenceManager.create (some dump)).restore _ clocks).2.1 = r
      at hL hmax habs hpres ⊢
    have hmem : ∀ k e, (k, e) ∈ ((some dump).getD PlainObject.empty).entries ↔
        dump.get? k = some e := fun _ _ => PlainObject.mem_entries
    -- each key has no entry and no cell, or the entry of its cell
    have hkey : ∀ k, (dump.get? k = none ∧ r.cell k = none) ∨ ∃ c, Plain (some c) ∧
        dump.get? k = some (serialize 0 c) ∧ r.cell k = some c ∧
        (isString (some c) = true → resetIn log k = true) := by
      intro k
      cases he : dump.get? k with
      | none => exact .inl ⟨rfl, habs k he⟩
      | some e =>
        obtain ⟨c, hc, hser, hstr⟩ := hd.entry k e he
        obtain ⟨now, -, hcell⟩ := hpres k e he
        refine .inr ⟨c, hc, by rw [hser 0], ?_, hstr⟩
        rw [hcell, hser 0, (restored_serialize hc 0 now).1]
    refine ⟨hL, hmax, fun k => ?_, fun k hk => ?_, fun k => ?_⟩
    · rcases hkey k with ⟨-, e⟩ | ⟨c, hc, -, e, hstr⟩ <;> rw [e]
      · exact ⟨trivial, fun h => nomatch h⟩
      · exact ⟨hc, hstr⟩
    · rcases hkey k with ⟨-, e⟩ | ⟨c, -, he, -, -⟩
      · exact absurd e hk
      · exact List.mem_map.mpr ⟨(k, _), (hmem k _).mpr he, rfl⟩
    · rcases hkey k with ⟨he, e⟩ | ⟨c, hc, he, e, -⟩ <;> rw [e]
      · refine ⟨fun hk => ?_, fun h => absurd rfl h.1⟩
        obtain ⟨⟨k', e'⟩, hk', rfl⟩ := List.mem_map.mp hk
        rw [(hmem k' e').mp (List.mem_filter.mp hk').1] at he
        cases he
      · have hlist := (restored_serialize hc 0 0).2.2
        constructor
        · intro hk
          obtain ⟨⟨k', e'⟩, hk', rfl⟩ := List.mem_map.mp hk
          obtain ⟨hm', hl'⟩ := List.mem_filter.mp hk'
          rw [(hmem k' e').mp hm'] at he
          cases he
          rw [hlist] at hl'
          exact ⟨Option.some_ne_none c, by simpa using hl'⟩
        · intro h
          refine List.mem_map.mpr ⟨(k, _), List.mem_filter.mpr ⟨(hmem k _).mpr he, ?_⟩, rfl⟩
          rw [hlist, h.2]
          rfl

/-! ## Starting up -/

/-- The store `main` serves from is tied to the one that crashed. -/
theorem onto_startup {maxKeys : Nat} {hm : 1 ≤ maxKeys} {h0 : Engine} (h0f : Fresh maxKeys hm h0)
    (h0p : h0.persistenceManager = some (PersistenceManager.create none)) {ms : List Moment}
    {h : Engine} (hs : Engine.Steps h0 ms h) (restoreClocks : Clocks)
    (clocks : Nat → Nat → Clocks) (roomy : Prop)
    (hcmd : ∀ m ∈ ms, m.runsOnly Command.onPlainValues = true)
    (hroom : ∀ m ∈ ms,
      LeavesRoom maxKeys (dumpedLists h.dumpFile) (dumpedKeys h.dumpFile) roomy m) :
    ∃ r, Restored maxKeys h.lines h.dumpFile r ∧ Onto r.cell roomy h.lines h.store
      (startup maxKeys hm h.dumpFile h.lines restoreClocks clocks) := by
  have hr := restored_of_plainDump hm
    (plainDump_steps h0f h0p hs (along_of_forall hcmd)) restoreClocks
  exact ⟨_, hr, onto_steps h0f hr.lockstep hr.maxKeys (fun k => (hr.plain k).1)
    (fun k hn hstr => (hr.lists k).mpr ⟨hn, hstr⟩) hr.keys roomy clocks hs
    fun m hm => ⟨hcmd m hm, hroom m hm⟩⟩

section

variable {maxKeys : Nat} {log : List Str} {file : Option Dump} {r live replayed : InMemoryStore}
  {roomy : Prop} (hr : Restored maxKeys log file r) (ho : Onto r.cell roomy log live replayed)

include hr ho

/-- With every restored list reset, every key is settled. -/
theorem Restored.cell_eq (hreset : ∀ k ∈ dumpedLists file, resetIn log k = true) (k : Str) :
    replayed.cell k = live.cell k := by
  have hset : settledIn (r.cell k) log k = true := by
    by_cases hk : r.cell k = none
    · rw [settledIn, hk]; rfl
    · have hres : resetIn log k = true := by
        cases hstr : isString (r.cell k) with
        | true => exact (hr.plain k).2 hstr
        | false => exact hreset k ((hr.lists k).mpr ⟨hk, hstr⟩)
      rw [settledIn, hres, Bool.or_true]
  have ht := ho.tie k
  rw [hset] at ht
  generalize replayed.cell k = x at ht ⊢
  cases ht with
  | settled => rfl

/-- In a roomy replay, a list that is not reset is longer than the live one. -/
theorem Restored.reset_of_cell_eq (hroomy : roomy) (hall : ∀ k, replayed.cell k = live.cell k) :
    ∀ k ∈ dumpedLists file, resetIn log k = true := by
  intro k hk
  obtain ⟨hne, hstr⟩ := (hr.lists k).mp hk
  refine by_contra fun hn => ?_
  have hset : settledIn (r.cell k) log k = false :=
    Bool.or_eq_false_iff.mpr ⟨Option.isNone_eq_false_iff.mpr (Option.isSome_iff_ne_none.mpr hne),
      by simpa using hn⟩
  have ht := ho.tie k
  rw [hset, hall k] at ht
  cases ht with
  | string hb => rw [hstr] at hb; cases hb
  | list _ _ _ hl =>
    have := hl hroomy
    exact hne ((hr.plain k).1.eq_none hstr (by omega))

end

/-- For every capacity and every run of lines of any connections, saves at any points
among them, whose mutating commands are SETs without EX, DELs, pushes and pops: if the
stored keys and the stale lists never fill the store, and every list of the last dump is
reset in the log, then a restart gives the keys, kinds and values of the live store. If
the stored keys and the dumped ones never fill it, a restart gives them only then. -/
theorem startup_exact (maxKeys : Nat) (hm : 1 ≤ maxKeys) (pubSub : Option PubSubManager)
    (requirepass : Option Str) (disabledCommands : List Str) (events : List Event)
    (restoreClocks : Clocks) (clocks : Nat → Nat → Clocks) (h0 h : Engine)
    (h0e : h0 = Engine.boot maxKeys hm (some (PersistenceManager.create none)) pubSub requirepass
      disabledCommands) (he : h = h0.run events)
    (hcmd : ∀ m ∈ h0.runMoments events, m.runsOnly Command.onPlainValues = true)
    (hroom : ∀ m ∈ h0.runMoments events,
      m.store.size + (staleIn (dumpedLists h.dumpFile) m.log m.store).length < maxKeys) :
    ((∀ k ∈ dumpedLists h.dumpFile, resetIn h.lines k = true) →
      ∀ k, (startup maxKeys hm h.dumpFile h.lines restoreClocks clocks).cell k = h.store.cell k) ∧
    ((∀ m ∈ h0.runMoments events,
        m.store.size + (missingIn (dumpedKeys h.dumpFile) m.store).length < maxKeys) →
      (∀ k, (startup maxKeys hm h.dumpFile h.lines restoreClocks clocks).cell k = h.store.cell k) →
        ∀ k ∈ dumpedLists h.dumpFile, resetIn h.lines k = true) := by
  have h0f : Fresh maxKeys hm h0 := by rw [h0e]; exact fresh_boot ..
  have h0p : h0.persistenceManager = some (PersistenceManager.create none) := by rw [h0e]; rfl
  have hs : Engine.Steps h0 (h0.runMoments events) h := by rw [he, h0e]; exact steps_boot ..
  constructor
  · intro hreset k
    obtain ⟨r, hr, ho⟩ := onto_startup h0f h0p hs restoreClocks clocks False hcmd fun m hmm =>
      ⟨hroom m hmm, False.elim⟩
    exact hr.cell_eq ho hreset k
  · intro hroomy hall
    obtain ⟨r, hr, ho⟩ := onto_startup h0f h0p hs restoreClocks clocks True hcmd fun m hmm =>
      ⟨hroom m hmm, fun _ => hroomy m hmm⟩
    exact hr.reset_of_cell_eq ho trivial hall

def saveBetween (before after : List (String × Int)) : List Event :=
  timedLines before ++ [.save (Clocks.still 0), .saveDone] ++ timedLines after

theorem startup_exact_reset :
    (startup 3 (by decide)
      ((Engine.boot 3 (by decide) (some (PersistenceManager.create none)) none none []).run
        (saveBetween [("RPUSH l a", 0), ("SET s v", 0)] [("LPOP l", 0), ("SET l w", 0)])).dumpFile
      ((Engine.boot 3 (by decide) (some (PersistenceManager.create none)) none none []).run
        (saveBetween [("RPUSH l a", 0), ("SET s v", 0)] [("LPOP l", 0), ("SET l w", 0)])).lines
      (Clocks.still 0) fun _ _ => Clocks.still 0).cell ['l'] =
    ((Engine.boot 3 (by decide) (some (PersistenceManager.create none)) none none []).run
      (saveBetween [("RPUSH l a", 0), ("SET s v", 0)] [("LPOP l", 0), ("SET l w", 0)])).store.cell ['l'] :=
  (startup_exact 3 (by decide) none none [] _ _ _ _ _ rfl rfl (by decide) (by decide)).1
    (by decide) ['l']

/-- A list that is in the dump and in the log comes back twice as long. -/
theorem dumped_list_doubled :
    (∀ m ∈ (Engine.boot 2 (by decide) (some (PersistenceManager.create none)) none none []).runMoments
      (saveBetween [("RPUSH l a", 0)] []),
        m.runsOnly Command.onPlainValues = true ∧ m.store.size < 2) ∧
    ((Engine.boot 2 (by decide) (some (PersistenceManager.create none)) none none []).run
      (saveBetween [("RPUSH l a", 0)] [])).store.cell ['l'] = some ⟨.list [['a']], none⟩ ∧
    (startup 2 (by decide)
      ((Engine.boot 2 (by decide) (some (PersistenceManager.create none)) none none []).run
        (saveBetween [("RPUSH l a", 0)] [])).dumpFile
      ((Engine.boot 2 (by decide) (some (PersistenceManager.create none)) none none []).run
        (saveBetween [("RPUSH l a", 0)] [])).lines
      (Clocks.still 0) fun _ _ => Clocks.still 0).cell ['l'] =
      some ⟨.list [['a'], ['a']], none⟩ := by
  decide

end Recovery

end MiniStore
