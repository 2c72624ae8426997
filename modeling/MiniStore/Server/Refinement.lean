import MiniStore.Server.Meaning
import MiniStore.Server.Process
import MiniStore.Store.Evicted
import MiniStore.Store.VolatileDump

/-!
# The server is the database

Every command that the server executes, for any connection and inside of a transaction or not, is
observed with the instants it reads, the keys it evicts and its reply. On every run whose clock
does not go back, these observations are those of one database that knows nothing but what the
commands mean, and the store holds what the database does (`refines_semantics`).
-/

namespace MiniStore

open InMemoryStore PersistenceManager CommandHandler Semantics

/-! ## What a command evicts -/

def evictedSince (s s' : InMemoryStore) : List Str :=
  (evictedKeys s').drop (evictedKeys s).length

/-- A command on `key` loses at most one other key, to create its own in a full store, and reports
it unless it was due. -/
structure Losses (key : Str) (now : Clock) (s s' : InMemoryStore) : Prop where
  one : (evictedSince s s').length ≤ 1
  other : key ∉ evictedSince s s'
  full : evictedSince s s' ≠ [] →
    liveAt (now 0) (s.cell key) = none ∧ s'.cell key ≠ none ∧ s.maxKeys ≤ s.size
  lost : ∀ k ∈ evictedSince s s', s'.cell k = none
  kept : ∀ k, k ≠ key → k ∉ evictedSince s s' →
    s'.cell k = s.cell k ∨ s'.cell k = none ∧ liveAt (now 1) (s.cell k) = none

namespace InMemoryStore

theorem size_purge_le {s : InMemoryStore} (h : s.Lockstep) (key : Str) (t : Int) :
    (s.purge key t).size ≤ s.size := by
  have hsize := (h.purge key t).size_le_of_subset (l := s.values.keys) fun k hk => by
    rw [OrdMap.mem_keys_iff_has, has_iff_cell]
    exact (h.decays_purge (T := fun _ => True) key trivial).cell_ne_none hk
  rwa [OrdMap.length_keys] at hsize

theorem evictedSince_of_append {s s' : InMemoryStore} {lost : List Str}
    (h : evictedKeys s' = evictedKeys s ++ lost) : evictedSince s s' = lost := by
  rw [evictedSince, h, List.drop_left]

section

variable {α : Type} {s : InMemoryStore} (h : s.Lockstep) (key : Str) (now : Clock)
  (f : Option Cell → Effect × α)

include h

theorem evictedKeys_perform : evictedKeys (s.perform key now f).1 = evictedKeys s ++
    (((s.purge key (now 0)).view.evicted s.maxKeys key
      (f (liveAt (now 0) (s.cell key))).1.action).filter fun v =>
        (liveAt (now 1) ((s.purge key (now 0)).cell v)).isSome).toList := by
  have hcommit := evictedKeys_commit (h.purge key (now 0)) key (now 1)
    (f ((s.purge key (now 0)).cell key)).1
  rw [evictedKeys_purge, maxKeys_purge] at hcommit
  rw [← h.cell_purge_self]
  exact hcommit

theorem evictedKeys_read (hr : ∀ c, (f c).1 = .keep ∨ (f c).1 = .touch) :
    evictedKeys (s.perform key now f).1 = evictedKeys s := by
  rw [evictedKeys_perform h]
  rcases hr (liveAt (now 0) (s.cell key)) with e | e
  · rw [e]
    exact List.append_nil _
  · rw [e]
    exact List.append_nil _

theorem cell_perform_ne {k : Str} (hk : k ≠ key) : (s.perform key now f).1.cell k =
    if (s.purge key (now 0)).view.evicted s.maxKeys key
      (f (liveAt (now 0) (s.cell key))).1.action = some k then none else s.cell k := by
  have hcell := congrArg (LruCache.cell · k) ((h.purge key (now 0)).view_commit key (now 1)
    (f ((s.purge key (now 0)).cell key)).1)
  rw [h.cell_purge_self, maxKeys_purge] at hcell
  have hother : (s.purge key (now 0)).view.cell k = s.cell k := (h.cell_purge ..).trans (if_neg hk)
  rw [← hother, ← LruCache.cell_commit_ne hk, ← hcell, ← h.cell_purge_self]
  rfl

theorem losses_perform : Losses key now s (s.perform key now f).1 := by
  have hsince := evictedSince_of_append (evictedKeys_perform h key now f)
  have hself : (s.perform key now f).1.cell key =
      (f (liveAt (now 0) (s.cell key))).1.action.onCell (liveAt (now 0) (s.cell key)) :=
    h.cell_perform_self
  have hne := fun k => cell_perform_ne h key now f (k := k)
  have hpurged : (s.purge key (now 0)).view.cell key = liveAt (now 0) (s.cell key) :=
    h.cell_purge_self ..
  have hwf := (h.purge key (now 0)).view_wf
  generalize (f (liveAt (now 0) (s.cell key))).1.action = a at hsince hself hne
  generalize hev : (s.purge key (now 0)).view.evicted s.maxKeys key a = ev at hsince hne
  -- a victim is another key, and the store was full
  have hvictim : ∀ u, ev = some u → (∃ x, a = .put x) ∧ u ≠ key ∧
      liveAt (now 0) (s.cell key) = none ∧ s.maxKeys ≤ s.size := by
    rintro u rfl
    obtain ⟨hput, hu⟩ := LruCache.evicted_eq hev
    obtain ⟨hmem, hnew, hfull⟩ := LruCache.victim_mem hu
    refine ⟨hput, fun e => hnew (e ▸ hmem), ?_, ?_⟩
    · rw [hwf.mem, not_not, hpurged] at hnew
      exact hnew
    · have hlen : (s.purge key (now 0)).view.order.length = (s.purge key (now 0)).size :=
        (h.purge key (now 0)).length_order
      exact Nat.le_trans hfull (hlen ▸ size_purge_le h key (now 0))
  have hmem : ∀ k, k ∈ evictedSince s (s.perform key now f).1 ↔
      ev = some k ∧ (liveAt (now 1) ((s.purge key (now 0)).cell k)).isSome = true := fun k => by
    rw [hsince, Option.mem_toList, Option.filter_eq_some_iff]
  refine ⟨?_, fun hk => ?_, fun hsome => ?_, fun k hk => ?_, fun k hk hnot => ?_⟩
  · rw [hsince]
    exact Option.length_toList_le
  · exact (hvictim key ((hmem key).mp hk).1).2.1 rfl
  · obtain ⟨u, hu⟩ := List.exists_mem_of_ne_nil _ hsome
    obtain ⟨⟨x, rfl⟩, -, hnone, hfull⟩ := hvictim u ((hmem u).mp hu).1
    refine ⟨hnone, ?_, hfull⟩
    rw [hself]
    exact Option.some_ne_none x
  · have hk' := ((hmem k).mp hk).1
    rw [hne k (hvictim k hk').2.1, if_pos hk']
  · rw [hne k hk]
    by_cases he : ev = some k
    · rw [if_pos he]
      refine .inr ⟨rfl, ?_⟩
      have hdue := fun hl => hnot ((hmem k).mpr ⟨he, hl⟩)
      rw [h.cell_purge, if_neg hk] at hdue
      exact Option.not_isSome_iff_eq_none.mp hdue
    · exact .inl (if_neg he)

end

/-! ## KEYS at a moving clock -/

theorem mem_listedAt {test : Str → Bool} {now : Clock} {cells : Str → Option Cell} {k : Str} :
    ∀ {keys : List Str} {i : Nat}, k ∈ listedAt test now cells keys i →
      test k = true ∧ ∃ j, (liveAt (now j) (cells k)).isSome = true
  | key :: keys, i, hk => by
    unfold listedAt at hk
    split at hk
    · next hl =>
      rcases List.mem_cons.mp hk with rfl | hk
      · obtain ⟨hlive, htest⟩ := Bool.and_eq_true_iff.mp hl
        exact ⟨htest, i, hlive⟩
      · exact mem_listedAt hk
    · exact mem_listedAt hk

theorem mem_listedAt_of_live {test : Str → Bool} {now : Clock} {cells : Str → Option Cell}
    {k : Str} (ht : test k = true) (hl : ∀ j, (liveAt (now j) (cells k)).isSome = true) :
    ∀ {keys : List Str} {i : Nat}, k ∈ keys → k ∈ listedAt test now cells keys i
  | key :: keys, i, hk => by
    unfold listedAt
    rcases List.mem_cons.mp hk with rfl | hk
    · rw [if_pos (Bool.and_eq_true_iff.mpr ⟨hl i, ht⟩)]
      exact List.mem_cons_self
    · have ih := mem_listedAt_of_live ht hl (i := i + 1) hk
      split
      · exact List.mem_cons_of_mem _ ih
      · exact ih

theorem NoEmpty.liveAt {s : InMemoryStore} (h : NoEmpty s) (t : Int) (k : Str) :
    Cell.NonEmpty (liveAt t (s.cell k)) := fun c hc => h k c (liveAt_eq_some.mp hc).1

end InMemoryStore

/-! ## Observations -/

/-- What can be seen of a command that is executed for a connection. -/
def observe (connection : ClientConnection) (e : Execution) : Observed :=
  let done := e.handler.executeCommand e.item.command e.item.line connection e.clocks
  { command := e.item.command
    clocks := e.clocks
    room := e.handler.store.size < e.handler.store.maxKeys
    evicted := evictedSince e.handler.store done.1.store
    reply := done.2 }

/-- The clock does not go back during a command. -/
structure Clocks.Within (lo hi : Int) (clocks : Clocks) : Prop where
  bounds : ∀ i j, lo ≤ clocks i j ∧ clocks i j ≤ hi
  forward : ∀ i {j k}, j ≤ k → clocks i j ≤ clocks i k
  onward : ∀ i j k, clocks i j ≤ clocks (i + 1) k

/-- From `lo` on, the store holds what the database does. -/
def Shows (lo : Int) (db : Contents) (s : InMemoryStore) : Prop :=
  ∀ t, lo ≤ t → ∀ k, present t (db k) = (liveAt t (s.cell k)).map entryOf

theorem shows_entries (lo : Int) (s : InMemoryStore) :
    Shows lo (fun k => (s.cell k).map entryOf) s := fun t _ _ => present_map_entryOf t _

theorem Shows.mono {lo lo' : Int} {db : Contents} {s : InMemoryStore} (h : Shows lo db s)
    (hle : lo ≤ lo') : Shows lo' db s := fun t ht => h t (Int.le_trans hle ht)

theorem Shows.decays {lo hi : Int} {db : Contents} {s s' : InMemoryStore} (h : Shows lo db s)
    {T : Int → Prop} (hd : Decays T s s') (hT : ∀ u, T u → u ≤ hi) (hle : lo ≤ hi) :
    Shows hi db s' := by
  intro t ht k
  rw [h t (Int.le_trans hle ht) k, hd.liveAt_eq (fun u hu => Int.le_trans (hT u hu) ht)]

section

variable {h : CommandHandler AofWriter} {item : QueuedCommand} {clocks : Clocks} {lo hi : Int}
  {db : Contents}

theorem Clocks.Within.le (hw : clocks.Within lo hi) : lo ≤ hi :=
  Int.le_trans (hw.bounds 0 0).1 (hw.bounds 0 0).2

theorem Clocks.Within.reads_le (hw : clocks.Within lo hi) {u : Int} (hu : clocks.Reads u) :
    lo ≤ u ∧ u ≤ hi := by
  obtain ⟨i, j, rfl⟩ := hu
  exact hw.bounds i j

/-! ## One command -/

theorem noEmpty_execute (hL : h.store.Lockstep) (hn : NoEmpty h.store)
    (hp : parseCommand item.line = .ok item.command) (connection : ClientConnection)
    (clocks : Clocks) :
    NoEmpty (h.executeCommand item.command item.line connection clocks).1.store := by
  rcases execute_store hL item.command item.line connection clocks with ⟨key, f, hf, e⟩ | hd
  · rw [e]
    exact Engine.noEmpty_perform hL hn (wf_of_parseCommand hp) hf
  · exact hd.noEmpty hn

theorem evictedSince_get (hL : h.store.Lockstep) (key line : Str) (connection : ClientConnection)
    (clocks : Clocks) :
    evictedSince h.store (h.executeCommand (.get key) line connection clocks).1.store = [] := by
  have hkind : evictedKeys (h.store.keyType key (clocks 0)).1 = evictedKeys h.store := by
    rw [keyType_eq]
    exact evictedKeys_read hL key _ _ fun _ => .inl rfl
  have hL' : (h.store.keyType key (clocks 0)).1.Lockstep :=
    (hL.decays_keyType (T := fun _ => True) key trivial).lockstep
  have hget : evictedKeys ((h.store.keyType key (clocks 0)).1.get key (clocks 1)).1 =
      evictedKeys h.store := by
    rw [get_eq, evictedKeys_read hL' key _ _ reads_getCell, hkind]
  refine evictedSince_of_append ?_
  rw [List.append_nil]
  simp only [executeCommand]
  split
  · exact hkind
  · generalize (h.store.keyType key (clocks 0)).1.get key (clocks 1) = got at hget ⊢
    rcases got with ⟨s, _ | v⟩ <;> exact hget

theorem lookup_left (found : Option Entry) : (lookup found).left = found := by
  rcases found with _ | ⟨_ | _ | _, d⟩ <;> rfl

theorem step_get (hL : h.store.Lockstep) (hw : clocks.Within lo hi) (hs : Shows lo db h.store)
    {key : Str} (hc : item.command = .get key) (connection : ClientConnection) :
    ∃ db', Step db (observe connection ⟨h, item, clocks⟩) db' ∧
      Shows hi db' (h.executeCommand item.command item.line connection clocks).1.store := by
  obtain ⟨seen, hseen, hright⟩ :=
    executeCommand_get hL key item.line connection (hw.onward 0 0 0)
  have hreads : clocks.Reads seen := by
    rcases hseen with rfl | rfl
    · exact ⟨0, 0, rfl⟩
    · exact ⟨1, 0, rfl⟩
  obtain ⟨hlo, hhi⟩ := hw.reads_le hreads
  have hfound : present seen (db key) = (liveAt seen (h.store.cell key)).map entryOf :=
    hs seen hlo key
  have hnone : (observe connection ⟨h, item, clocks⟩).evicted = [] := by
    show evictedSince h.store
      (h.executeCommand item.command item.line connection clocks).1.store = []
    rw [hc]
    exact evictedSince_get hL key item.line connection clocks
  have hdecays := (executeCommand_read hL (c := .get key) rfl (by simp) item.line connection
    clocks).store
  rw [← hc] at hright hdecays
  refine ⟨_, .onKey seen seen hreads hreads (Int.le_refl seen)
    (congrArg (meaning seen) hc) (fun r hr => ?_) ?_, fun t ht k => ?_⟩
  · rw [hfound]
    exact hright r hr
  · refine ⟨by rw [hnone]; exact Nat.zero_le 1, by rw [hnone]; exact List.not_mem_nil,
      fun hsome => absurd hnone hsome⟩
  · have hshows := hs.decays hdecays (fun u hu => (hw.reads_le hu).2) hw.le t ht k
    rw [hnone, lookup_left, ← hshows]
    by_cases hk : k = key
    · rw [if_pos hk, hk, present_present (Int.le_trans hhi ht)]
    · rw [if_neg hk, if_neg List.not_mem_nil]

theorem step_keys (H : h.Clean) (hw : clocks.Within lo hi) (hs : Shows lo db h.store)
    {pattern : Str} (hc : item.command = .keys pattern) (connection : ClientConnection) :
    ∃ db', Step db (observe connection ⟨h, item, clocks⟩) db' ∧
      Shows hi db' (h.executeCommand item.command item.line connection clocks).1.store := by
  have hL := H.store.lockstep
  have hdecays := (executeCommand_read hL (c := .keys pattern) rfl (by simp) item.line connection
    clocks).store
  rw [← hc] at hdecays
  have hcells : ∀ k ∈ h.store.values.keys, h.store.cell k ≠ none := fun k hk => mem_keys.mp hk
  obtain ⟨hlisted, -⟩ := keysLoop_listedAt (globMatch pattern) (clocks 0) h.store.values.keys 0
    hL h.store.values.keys_nodup hcells
  have hsub := listedAt_sublist (globMatch pattern) (clocks 0) h.store.cell h.store.values.keys 0
  -- a key is there at an instant of the command for the database as for the store
  have hthere : ∀ i k, present (clocks 0 i) (db k) ≠ none ↔
      (liveAt (clocks 0 i) (h.store.cell k)).isSome = true := fun i k => by
    rw [hs _ (hw.bounds 0 i).1 k, Option.isSome_iff_ne_none, ne_eq, Option.map_eq_none_iff]
  have hglob : ∀ k ∈ h.store.values.keys, globMatch pattern k = true ↔ Glob pattern k :=
    fun k hk => globMatch_iff (oneLine_of_isToken (H.store.keys k (hcells k hk)))
  refine ⟨db, .listing hc fun r hr => ⟨_, ?_, hsub.nodup h.store.values.keys_nodup,
    fun k hk => ?_, fun k hg hall => ?_⟩,
    hs.decays hdecays (fun u hu => (hw.reads_le hu).2) hw.le⟩
  · have hkeys : some (Reply.array (h.store.keys pattern (clocks 0)).2) = some r := by
      rw [← hr]
      show _ = (h.executeCommand item.command item.line connection clocks).2
      rw [hc]
      rfl
    rw [← hlisted]
    exact (Option.some.inj hkeys).symm
  · obtain ⟨htest, j, hlive⟩ := mem_listedAt hk
    exact ⟨(hglob k (hsub.subset hk)).mp htest, clocks 0 j, ⟨0, j, rfl⟩, (hthere j k).mpr hlive⟩
  · have hlive : ∀ j, (liveAt (clocks 0 j) (h.store.cell k)).isSome = true := fun j =>
      (hthere j k).mp (hall _ ⟨0, j, rfl⟩)
    have hmem : k ∈ h.store.values.keys := by
      refine mem_keys.mpr fun hnone => ?_
      have hfirst := hlive 0
      rw [hnone] at hfirst
      cases hfirst
    exact mem_listedAt_of_live ((hglob k hmem).mpr hg) hlive hmem

theorem step_acts (hL : h.store.Lockstep) (hn : NoEmpty h.store)
    (hp : parseCommand item.line = .ok item.command) (hw : clocks.Within lo hi)
    (hs : Shows lo db h.store) {key : Str} {t : Int} {f : Option Cell → Effect × Str}
    (hm : acts (clocks 0) item.command = some (key, t, f)) (connection : ClientConnection) :
    ∃ db', Step db (observe connection ⟨h, item, clocks⟩) db' ∧
      Shows hi db' (h.executeCommand item.command item.line connection clocks).1.store := by
  obtain ⟨ht, m, hmeaning, hmeets⟩ := acts_means (wf_of_parseCommand hp) hm
  obtain ⟨hstore, hreply⟩ := executeCommand_acts hL hm item.line connection
  have hloss := losses_perform hL key (clocks 0) f
  have hfound : present (clocks 0 0) (db key) =
      (liveAt (clocks 0 0) (h.store.cell key)).map entryOf := hs _ (hw.bounds 0 0).1 key
  obtain ⟨hright, hleft⟩ := hmeets _ (hn.liveAt (clocks 0 0) key)
  rw [← hfound] at hright hleft
  have hself : (h.store.perform key (clocks 0) f).1.cell key = _ := hL.cell_perform_self
  rw [← hstore] at hloss hself
  have hreads : clocks.Reads t ∧ clocks 0 0 ≤ t := by
    rcases ht with rfl | rfl
    · exact ⟨⟨0, 1, rfl⟩, hw.forward 0 (Nat.zero_le 1)⟩
    · exact ⟨⟨0, 2, rfl⟩, hw.forward 0 (Nat.zero_le 2)⟩
  refine ⟨_, .onKey (clocks 0 0) t ⟨0, 0, rfl⟩ hreads.1 hreads.2 hmeaning (fun r hr => ?_) ?_,
    fun u hu k => ?_⟩
  · rw [hreply r hr, hL.perform_snd]
    exact hright
  · refine ⟨hloss.one, hloss.other, fun hsome => ?_⟩
    obtain ⟨hnone, hput, hfull⟩ := hloss.full hsome
    refine ⟨?_, ?_, decide_eq_false (Nat.not_lt.mpr hfull)⟩
    · rw [hfound, hnone]
      rfl
    · rw [hleft, ← hself]
      exact fun hnil => hput (Option.map_eq_none_iff.mp hnil)
  · have hu' : lo ≤ u := Int.le_trans hw.le hu
    by_cases hk : k = key
    · rw [if_pos hk, hk, hleft, ← hself, present_map_entryOf]
    · rw [if_neg hk]
      by_cases hev : k ∈ (observe connection ⟨h, item, clocks⟩).evicted
      · rw [if_pos hev, hloss.lost k hev]
        rfl
      · rw [if_neg hev, hs u hu' k]
        rcases hloss.kept k hk hev with e | ⟨e, hdue⟩
        · rw [e]
        · rw [e, ← liveAt_liveAt (Int.le_trans (hw.bounds 0 1).2 hu) (h.store.cell k), hdue]

theorem acts_eq_none {now : Clock} {c : Command} (h : acts now c = none) :
    (∃ key, c = .get key) ∨ (∃ pattern, c = .keys pattern) ∨
      c.mutates = false ∧ (∀ t, meaning t c = none) ∧ ∀ pattern, c ≠ .keys pattern := by
  cases c with
  | get key => exact .inl ⟨key, rfl⟩
  | keys pattern => exact .inr (.inl ⟨pattern, rfl⟩)
  | bgsave | bgrewriteaof | subscribe | unsubscribe | publish | auth | multi | exec | discard =>
    exact .inr (.inr ⟨rfl, fun _ => rfl, fun _ => Command.noConfusion⟩)
  | _ => cases h

/-- A command that is executed is a step of the database. -/
theorem step_execute (H : h.Clean) (hn : NoEmpty h.store)
    (hp : parseCommand item.line = .ok item.command) (hw : clocks.Within lo hi)
    (hs : Shows lo db h.store) (connection : ClientConnection) :
    ∃ db', Step db (observe connection ⟨h, item, clocks⟩) db' ∧
      Shows hi db' (h.executeCommand item.command item.line connection clocks).1.store := by
  have hL := H.store.lockstep
  cases hm : acts (clocks 0) item.command with
  | some a =>
    obtain ⟨key, t, f⟩ := a
    exact step_acts hL hn hp hw hs hm connection
  | none =>
    rcases acts_eq_none hm with ⟨key, hc⟩ | ⟨pattern, hc⟩ | ⟨hmut, hnone, hkeys⟩
    · exact step_get hL hw hs hc connection
    · exact step_keys H hw hs hc connection
    · refine ⟨db, .unrelated hnone hkeys, ?_⟩
      rcases execute_store hL item.command item.line connection clocks with ⟨key, f, hf, -⟩ | hd
      · exact absurd (Command.mutates_iff.mpr ⟨key, f, hf⟩) (by simp [hmut])
      · exact hs.decays hd (fun u hu => (hw.reads_le hu).2) hw.le

end

/-! ## Runs -/

/-- The clock does not go back during an event. -/
def ServerEvent.Within (lo hi : Int) : ServerEvent → Prop
  | .line _ _ clocks => ∃ ends : Nat → Int, lo ≤ ends 0 ∧ (∀ i, ends i ≤ hi) ∧
      ∀ i, (clocks i).Within (ends i) (ends (i + 1))
  | e => lo ≤ hi ∧ ∀ t, Server.Reads e t → lo ≤ t ∧ t ≤ hi

/-- Nor from one event to the next. -/
abbrev Timely : Int → Int → List ServerEvent → Prop := Trace.InTurn ServerEvent.Within

namespace Server

def observationsOf (st : Server) : ServerEvent → List Observed
  | .line text connection clocks =>
    (st.executionsOf (.line text connection clocks)).map (observe connection)
  | _ => []

def observations : Server → List ServerEvent → List Observed
  | _, [] => []
  | st, e :: es => st.observationsOf e ++ observations (st.next e) es

theorem explained_queue (connection : ClientConnection) {clocks : Nat → Clocks} {ends : Nat → Int}
    (hw : ∀ i, (clocks i).Within (ends i) (ends (i + 1))) {hi : Int} (hhi : ∀ i, ends i ≤ hi) :
    ∀ (items : List QueuedCommand) (i : Nat) {h : CommandHandler AofWriter} {db : Contents},
      h.Clean → NoEmpty h.store → Shows (ends i) db h.store →
      (∀ item ∈ items, parseCommand item.line = .ok item.command) →
      NoEmpty (h.executeQueue connection clocks items i).1.store ∧
      ∃ db', Explained db ((executions connection clocks h items i).map (observe connection)) db' ∧
        Shows hi db' (h.executeQueue connection clocks items i).1.store
  | [], i, h, db, _, hn, hs, _ => ⟨hn, db, .nil db, hs.mono (hhi i)⟩
  | item :: items, i, h, db, H, hn, hs, hp => by
    obtain ⟨hitem, hrest⟩ := List.forall_mem_cons.mp hp
    have H1 := clean_execute H hitem connection (clocks i)
    have hn1 := noEmpty_execute H.store.lockstep hn hitem connection (clocks i)
    obtain ⟨db1, hstep, hs1⟩ := step_execute H hn hitem (hw i) hs connection
    rw [executions, CommandHandler.executeQueue, List.map_cons]
    generalize h.executeCommand item.command item.line connection (clocks i) = executed
      at H1 hn1 hs1 ⊢
    rcases executed with ⟨h', _ | reply⟩
    · exact ⟨hn1, db1, .cons hstep (.nil db1), hs1.mono (hhi (i + 1))⟩
    · obtain ⟨hn2, db2, htail, hs2⟩ :=
        explained_queue connection hw hhi items (i + 1) H1 hn1 hs1 hrest
      exact ⟨hn2, db2, .cons hstep htail, hs2⟩

theorem clean_next {st : Server} (H : st.handler.Clean) (e : ServerEvent) :
    (st.next e).handler.Clean := next_rule (fun hm H => clean_move hm H) H e

theorem explained_next {st : Server} (H : st.handler.Clean) (hn : NoEmpty st.handler.store)
    {lo hi : Int} {db : Contents} (hs : Shows lo db st.handler.store) {e : ServerEvent}
    (hw : e.Within lo hi) :
    NoEmpty (st.next e).handler.store ∧
    ∃ db', Explained db (st.observationsOf e) db' ∧ Shows hi db' (st.next e).handler.store := by
  by_cases he : ∃ text connection clocks, e = .line text connection clocks
  · obtain ⟨text, connection, clocks, rfl⟩ := he
    obtain ⟨ends, hlo, hhi, hclocks⟩ := hw
    cases hl : st.listening with
    | false =>
      have hnone : st.observationsOf (.line text connection clocks) = [] := by
        simp only [observationsOf, executionsOf, hl]
        rfl
      rw [next_deaf hl, hnone]
      exact ⟨hn, db, .nil db, hs.mono (Int.le_trans hlo (hhi 0))⟩
    | true =>
      obtain ⟨hstore, -, -, -⟩ := st.handler.route_data text connection
      have hsome : st.observationsOf (.line text connection clocks) =
          (executions connection clocks (st.handler.route text connection).1
            (st.handler.executed text connection) 0).map (observe connection) := by
        simp only [observationsOf, executionsOf, hl]
        rfl
      rw [(next_line hl text connection clocks).1,
        (st.handler.handleLine_executed text connection clocks).1, hsome]
      rw [← hstore] at hn hs
      exact explained_queue connection hclocks hhi _ 0 (clean_route H text connection) hn
        (hs.mono hlo) (route_parsed H.parsed text connection).2
  · have hother : ∀ text connection clocks, e ≠ .line text connection clocks :=
      fun text connection clocks h => he ⟨text, connection, clocks, h⟩
    have hd := decays_next H.store.lockstep hother
    obtain ⟨hle, hreads⟩ : lo ≤ hi ∧ ∀ t, Reads e t → lo ≤ t ∧ t ≤ hi := by
      cases e with
      | line text connection clocks => exact absurd rfl (hother text connection clocks)
      | _ => exact hw
    have hnone : st.observationsOf e = [] := by
      cases e with
      | line text connection clocks => exact absurd rfl (hother text connection clocks)
      | _ => rfl
    rw [hnone]
    exact ⟨hd.noEmpty hn, db, .nil db, hs.decays hd (fun u hu => (hreads u hu).2) hle⟩

theorem explained_run : ∀ (events : List ServerEvent) {st : Server} {lo hi : Int} {db : Contents},
    st.handler.Clean → NoEmpty st.handler.store → Shows lo db st.handler.store →
    Timely lo hi events →
    ∃ db', Explained db (st.observations events) db' ∧ Shows hi db' (st.run events).handler.store
  | [], _, _, _, db, _, _, hs, ht => ⟨db, .nil db, hs.mono ht⟩
  | e :: es, st, lo, hi, db, H, hn, hs, ⟨mid, hw, ht⟩ => by
    obtain ⟨hn1, db1, hfirst, hs1⟩ := explained_next H hn hs hw
    obtain ⟨db2, hrest, hs2⟩ := explained_run es (clean_next H e) hn1 hs1 ht
    exact ⟨db2, hfirst.append hrest, hs2⟩

/-- On every run from a store that commands can leave, with a clock that does not go back: the
commands executed, each at instants it reads, and their replies and evictions are those of a
database that starts with the entries of the store, and what the store holds at the end is what the
database does. -/
theorem refines_semantics (st : Server) (H : st.handler.Clean) (hn : NoEmpty st.handler.store)
    (lo hi : Int) (events : List ServerEvent) (ht : Timely lo hi events) :
    ∃ db, Explained (fun k => (st.handler.store.cell k).map entryOf) (st.observations events) db ∧
      ∀ t, hi ≤ t → ∀ k, present t (db k) =
        (liveAt t ((st.run events).handler.store.cell k)).map entryOf :=
  explained_run events H hn (shows_entries lo st.handler.store) ht

def expiring : List ServerEvent :=
  [sendAt 0 "RPUSH l a", sendAt 0 "EXPIRE l 1", sendAt 1000 "RPUSH l b"]

theorem within_sendAt {lo t : Int} (hle : lo ≤ t) (text : String) : (sendAt t text).Within lo t :=
  ⟨fun _ => t, hle, fun _ => Int.le_refl t, fun _ =>
    ⟨fun _ _ => ⟨Int.le_refl t, Int.le_refl t⟩, fun _ _ _ _ => Int.le_refl t,
      fun _ _ _ => Int.le_refl t⟩⟩

theorem refines_semantics_expiring :
    ∃ db, Explained (fun k => (booted.handler.store.cell k).map entryOf)
        (booted.observations expiring) db ∧
      present 1000 (db ['l']) = some ⟨.list [['b']], none⟩ := by
  have htimely : Timely 0 1000 expiring :=
    ⟨0, within_sendAt (by decide) _, 0, within_sendAt (by decide) _, 1000,
      within_sendAt (by decide) _, Int.le_refl 1000⟩
  have hclean : booted.handler.Clean := ⟨quotable_create 2 _, fun _ _ hq => nomatch hq⟩
  obtain ⟨db, hrun, hdb⟩ := refines_semantics booted hclean (fun _ _ hc => nomatch hc) 0 1000
    expiring htimely
  refine ⟨db, hrun, (hdb 1000 (Int.le_refl 1000) ['l']).trans ?_⟩
  have hcell : (booted.run expiring).handler.store.cell ['l'] = some ⟨.list [['b']], none⟩ := by
    decide
  rw [hcell]
  rfl

end Server

end MiniStore
