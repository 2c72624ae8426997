import MiniStore.Server.StatsServer
import MiniStore.Store.KeyedRuns

/-!
# Background work on the store

Sweeps, the snapshots of the dashboard and the read-outs of saves and rewrites walk over the
store. Whatever the clock reads, all that such a walk does is to drop keys that are due, to touch
keys and to move the cursor of the sweep (`Walk`). Two stores that differ by walks have the same
left at any later time, in the same order (`Alike`). While there is room for all the keys that
are named, they answer alike and stay so (`Alike.perform`, `Alike.keysOp`).
-/

namespace MiniStore

namespace InMemoryStore

/-- What a walk over `s` at the times `T` has made of it. -/
inductive Walk (T : Int → Prop) (s : InMemoryStore) : InMemoryStore → Prop
  | start : Walk T s s
  | drop {s' : InMemoryStore} {key : Str} {t : Int} (h : Walk T s s') (ht : T t)
      (hk : liveAt t (s'.cell key) = none) : Walk T s (s'.drop key)
  | touch {s' : InMemoryStore} {key : Str} (h : Walk T s s') (hk : s'.cell key ≠ none) :
      Walk T s (s'.touch key)
  | sample {s' : InMemoryStore} (n t : Int) (h : Walk T s s') : Walk T s (s'.sample n t)

/-! ## What walks over the store -/

section

variable {T : Int → Prop} {s0 s : InMemoryStore} (h : Walk T s0 s)

include h

theorem Walk.purge (key : Str) {t : Int} (ht : T t) : Walk T s0 (s.purge key t) := by
  rcases purge_cases s key t with e | ⟨e, hl⟩
  · rw [e]
    exact h
  · rw [e]
    exact h.drop ht hl

theorem Walk.read {α : Type} (key : Str) {now : Clock} {f : Option Cell → Effect × α}
    (hf : ∀ c, (f c).1.Fits c) (hr : ∀ c, (f c).1 = .keep ∨ (f c).1 = .touch) (ht : T (now 0)) :
    Walk T s0 (s.perform key now f).1 := by
  have hp := h.purge key ht
  have hfits := hf ((s.purge key (now 0)).cell key)
  unfold InMemoryStore.perform
  rcases hr ((s.purge key (now 0)).cell key) with e | e
  · simp only [e]
    exact hp
  · rw [e] at hfits
    simp only [e]
    exact hp.touch hfits

variable (key : Str) {now : Clock} (ht : T (now 0))

include ht

theorem Walk.keyType : Walk T s0 (s.keyType key now).1 := by
  rw [keyType_eq]
  exact h.read key (fun _ => trivial) (fun _ => .inl rfl) ht

theorem Walk.ttl : Walk T s0 (s.ttl key now).1 := by
  rw [ttl_eq]
  exact h.read key fits_ttlCell (reads_ttlCell _) ht

theorem Walk.get : Walk T s0 (s.get key now).1 := by
  rw [get_eq]
  exact h.read key fits_getCell reads_getCell ht

theorem Walk.readAs {α β : Type} (payload : StoredValue → Option β) (absent : α) (read : β → α) :
    Walk T s0 (readAs payload absent read s key now).1 := by
  rw [readAs_eq]
  exact h.read key fits_readCell (reads_readCell payload absent read) ht

end

section

variable {T : Int → Prop} {s0 : InMemoryStore} {clocks : Clocks}

theorem Walk.keysLoop (test : Str → Bool) {now : Clock} (ht : ∀ i, T (now i)) :
    ∀ (ks : List Str) (i : Nat) {s : InMemoryStore}, Walk T s0 s →
      Walk T s0 (keysLoop test now ks i s).1
  | [], _, _, h => h
  | key :: ks, i, _, h => Walk.keysLoop test ht ks (i + 1) (h.purge key (ht i))

theorem Walk.keys {s : InMemoryStore} (h : Walk T s0 s) (pattern : Str) {now : Clock}
    (ht : ∀ i, T (now i)) : Walk T s0 (s.keys pattern now).1 :=
  Walk.keysLoop _ ht _ 0 h

theorem Walk.readValue {s : InMemoryStore} (h : Walk T s0 s) (key : Str) {now : Clock}
    (ht : T (now 0)) (type : ValueType) :
    Walk T s0 (PersistenceManager.readValue s key now type).1 := by
  obtain ⟨_, f, hfits, hreads, e⟩ := readValue_reads s key now type
  rw [e]
  exact h.read key hfits hreads ht

variable (ht : ∀ i j, T (clocks i j))

include ht

theorem Walk.saveKey {s : InMemoryStore} (h : Walk T s0 s) (i : Nat) (key : Str) (dump : Dump) :
    Walk T s0 (PersistenceManager.saveKey clocks i key s dump).1 := by
  have h1 := h.keyType key (ht i 0)
  unfold PersistenceManager.saveKey
  generalize s.keyType key (clocks i) = typed at h1 ⊢
  rcases typed with ⟨s1, _ | type⟩
  · exact h1
  · have h2 := h1.readValue key (ht (i + 1) 0) type
    dsimp only at h2 ⊢
    generalize PersistenceManager.readValue s1 key (clocks (i + 1)) type = found at h2 ⊢
    rcases found with ⟨s2, _ | value⟩
    · exact h2
    · exact h2.ttl key (ht (i + 2) 0)

theorem Walk.saveLoop : ∀ (keys : List Str) (i : Nat) {s : InMemoryStore} (dump : Dump),
    Walk T s0 s → Walk T s0 (PersistenceManager.saveLoop clocks keys i s dump).1
  | [], _, _, _, h => h
  | key :: keys, i, _, dump, h => Walk.saveLoop keys (i + 3) _ (h.saveKey ht i key dump)

theorem Walk.save {s : InMemoryStore} (h : Walk T s0 s) (pm : PersistenceManager) :
    Walk T s0 (pm.save s clocks).2.1 := by
  unfold PersistenceManager.save
  split
  · exact h
  · exact Walk.saveLoop ht _ 1 _ (h.keys ['*'] (ht 0))

theorem Walk.rewriteKey {s : InMemoryStore} (h : Walk T s0 s) (i : Nat) (key : Str) :
    Walk T s0 (AofWriter.rewriteKey clocks i key s).1 := by
  have h1 := h.keyType key (ht i 0)
  unfold AofWriter.rewriteKey
  generalize s.keyType key (clocks i) = typed at h1 ⊢
  rcases typed with ⟨s1, _ | type⟩
  · exact h1
  · have h2 := h1.ttl key (ht (i + 1) 0)
    dsimp only at h2 ⊢
    generalize s1.ttl key (clocks (i + 1)) = timed at h2 ⊢
    obtain ⟨s2, ttl⟩ := timed
    cases type with
    | string =>
      have h3 := h2.get key (ht (i + 2) 0)
      dsimp only at h3 ⊢
      generalize s2.get key (clocks (i + 2)) = found at h3 ⊢
      rcases found with ⟨s3, _ | value⟩
      · exact h3
      · dsimp only
        split <;> exact h3
    | list =>
      have h3 := h2.readAs key (ht (i + 2) 0) StoredValue.asList [] (slice 0 (-1))
      dsimp only [lrange] at h3 ⊢
      generalize InMemoryStore.readAs StoredValue.asList [] (slice 0 (-1)) s2 key (clocks (i + 2)) =
        found at h3 ⊢
      rcases found with ⟨s3, _ | value⟩ <;> exact h3
    | hash =>
      have h3 := h2.readAs key (ht (i + 2) 0) StoredValue.asHash []
        fun map => map.entries.flatMap fun e => [e.1, e.2]
      dsimp only [hgetall] at h3 ⊢
      generalize InMemoryStore.readAs StoredValue.asHash []
        (fun map => map.entries.flatMap fun e => [e.1, e.2]) s2 key (clocks (i + 2)) =
        found at h3 ⊢
      rcases found with ⟨s3, _ | value⟩ <;> exact h3

theorem Walk.rewriteLoop : ∀ (keys : List Str) (i : Nat) {s : InMemoryStore}, Walk T s0 s →
    Walk T s0 (AofWriter.rewriteLoop clocks keys i s).1
  | [], _, _, h => h
  | key :: keys, i, _, h => Walk.rewriteLoop keys (i + 3) (h.rewriteKey ht i key)

theorem Walk.rewrite {s : InMemoryStore} (h : Walk T s0 s) (w : AofWriter) :
    Walk T s0 (w.rewrite s clocks).2 := by
  unfold AofWriter.rewrite
  split
  · exact h
  · exact Walk.rewriteLoop ht _ 1 (h.keys ['*'] (ht 0))

theorem Walk.snapshotKey {s : InMemoryStore} (h : Walk T s0 s) (i : Nat) (key : Str) :
    Walk T s0 (StatsServer.snapshotKey clocks i key s).1 := by
  have h1 := (h.keyType key (ht (i + 1) 0)).ttl key (ht (i + 2) 0)
  unfold StatsServer.snapshotKey
  dsimp only
  split <;> exact h1

theorem Walk.keysMRULoop {α : Type} {body : Nat → Str → InMemoryStore → InMemoryStore × List α}
    (hbody : ∀ i key {s : InMemoryStore}, Walk T s0 s → Walk T s0 (body i key s).1) :
    ∀ (fuel : Nat) (current : Option Nat) (i : Nat) {s : InMemoryStore}, Walk T s0 s →
      ∀ done ∈ keysMRULoop clocks body fuel current i s, Walk T s0 done.1
  | 0, none, _, _, h, _, rfl => h
  | _ + 1, none, _, _, h, _, rfl => h
  | 0, some _, _, _, _, _, hd => by cases hd
  | fuel + 1, some current, i, s, h, done, hd => by
    rw [InMemoryStore.keysMRULoop] at hd
    split at hd
    · cases hd
    · next key _ =>
      have h1 := h.purge key (ht i 0)
      have hgate : (s.expireIfNeeded key (clocks i 0)).1 = s.purge key (clocks i 0) := rfl
      rw [← hgate] at h1
      generalize s.expireIfNeeded key (clocks i 0) = gated at h1 hd
      obtain ⟨s1, expired⟩ := gated
      have h2 : Walk T s0 (if expired then (s1, []) else body i key s1).1 := by
        split
        · exact h1
        · exact hbody i key h1
      dsimp only at hd
      generalize (if expired then (s1, []) else body i key s1) = yielded at h2 hd
      obtain ⟨s2, out⟩ := yielded
      obtain ⟨rest, hrest, rfl⟩ := Option.map_eq_some_iff.mp hd
      exact Walk.keysMRULoop hbody fuel _ (i + 3) h2 rest hrest

theorem Walk.buildSnapshot {s : InMemoryStore} (h : Walk T s0 s) (recentActivity : List Str) :
    ∀ done ∈ StatsServer.buildSnapshot s recentActivity clocks, Walk T s0 done.1 := by
  intro done hd
  obtain ⟨walked, hwalked, rfl⟩ := Option.map_eq_some_iff.mp hd
  exact Walk.keysMRULoop ht (fun i key _ h => h.snapshotKey ht i key) _ _ 0 h walked hwalked

end

/-! ## What a walk leaves -/

/-- `s'` lacks some keys that were due; the others are as they were, in the same order. -/
structure Thins (T : Int → Prop) (s s' : InMemoryStore) : Prop extends Decays T s s' where
  keys : s'.values.keys = s.values.keys.filter fun k => (s'.cell k).isSome

section

variable {T : Int → Prop} {s s' : InMemoryStore}

theorem Thins.drop (h : Thins T s s') {key : Str} {t : Int} (ht : T t)
    (hk : liveAt t (s'.cell key) = none) : Thins T s (s'.drop key) := by
  refine ⟨h.toDecays.trans (h.lockstep.decays_drop ht hk), ?_⟩
  rw [keys_drop h.lockstep, h.keys, List.filter_filter]
  refine List.filter_congr fun k _ => ?_
  rw [h.lockstep.cell_drop]
  split
  · rfl
  · exact Bool.and_self _

theorem Walk.thins (h0 : s.Lockstep) (h : Walk T s s') : Thins T s s' := by
  induction h with
  | start =>
    refine ⟨h0.decays_refl, (List.filter_eq_self.mpr fun k hk => ?_).symm⟩
    exact Option.isSome_iff_ne_none.mpr (mem_keys.mp hk)
  | drop _ ht hk ih => exact ih.drop ht hk
  | touch _ hk ih =>
    obtain ⟨c, hc⟩ := Option.ne_none_iff_exists'.mp hk
    exact ⟨⟨PersistenceManager.lockstep_touch ih.lockstep hc, ih.maxKeys, ih.cell⟩, ih.keys⟩
  | @sample s' n t _ ih =>
    have hcell : (s'.sample n t).cell = s'.cell := funext (cell_sample s' n t)
    refine ⟨⟨ih.lockstep.sample n t, ih.maxKeys, ?_⟩, ?_⟩
    · rw [hcell]
      exact ih.cell
    · rw [hcell]
      exact ih.keys

section

variable (h : Thins T s s') {t : Int} (ht : ∀ u, T u → u ≤ t)

include h ht

theorem Thins.live_eq : s'.live t = s.live t := funext fun k => by
  rw [live, live, h.liveAt_eq ht]

/-- The keys that are left stay in order. -/
theorem Thins.keys_live : s'.values.keys.filter (s'.live t) = s.values.keys.filter (s.live t) := by
  rw [h.keys, List.filter_filter, ← h.live_eq ht]
  refine List.filter_congr fun k _ => ?_
  rw [live]
  cases s'.cell k <;> simp [liveAt_none]

end

theorem Walk.sweepExpired (h0 : s.Lockstep) (h : Walk T s s') (n : Int) {now : Clock}
    (ht : T (now 0)) : Walk T s (s'.sweepExpired n now).1 := by
  have hdrops : ∀ (ks : List Str) {s' : InMemoryStore}, Walk T s s' →
      (∀ k ∈ ks, liveAt (now 0) (s'.cell k) = none) →
      Walk T s (ks.foldl InMemoryStore.drop s') := by
    intro ks
    induction ks with
    | nil => exact fun h _ => h
    | cons key ks ih =>
      intro s' h hks
      refine ih (h.drop ht (hks key List.mem_cons_self)) fun k hk => ?_
      rw [(h.thins h0).lockstep.cell_drop]
      split
      · rfl
      · exact hks k (List.mem_cons_of_mem _ hk)
  rw [sweepExpired_fst]
  refine hdrops _ (h.sample n (now 0)) fun k hk => ?_
  have hx := ExpiryManager.collectExpired_expired _ _ _ k hk
  rw [cell_sample]
  cases hc : s'.cell k with
  | none => rfl
  | some c =>
    rw [isExpired_eq hc] at hx
    rw [liveAt_some, if_pos hx]

end

/-! ## The keys that are left -/

/-- An effect on a key acts on the keys that are left as it acts on all. -/
theorem Effect.onKeys_filter (e : Effect) {key : Str} {keys : List Str} (hd : keys.Nodup)
    {left : Str → Bool} (hkey : key ∈ keys → left key = true) (b : Bool) :
    (e.onKeys key keys).filter (fun k => if k = key then b else left k) =
      (e.onKeys key (keys.filter left)).filter fun k => if k = key then b else true := by
  have hsame : keys.filter (fun k => if k = key then b else left k) =
      (keys.filter left).filter fun k => if k = key then b else true := by
    rw [List.filter_filter]
    refine List.filter_congr fun k hk => ?_
    split
    · next e => rw [e, hkey (e ▸ hk), Bool.and_true]
    · exact (Bool.true_and _).symm
  cases e with
  | keep => exact hsame
  | touch => exact hsame
  | remove =>
    show (keys.erase key).filter _ = ((keys.filter left).erase key).filter _
    rw [hd.erase_eq_filter, (hd.filter left).erase_eq_filter, List.filter_comm, hsame,
      List.filter_comm]
  | put =>
    have hmem : key ∈ keys.filter left ↔ key ∈ keys :=
      List.mem_filter.trans (and_iff_left_of_imp hkey)
    simp only [Effect.onKeys, hmem]
    split
    · exact hsame
    · rw [List.filter_append, List.filter_append, hsame]
      simp only [List.filter_singleton, if_true]

/-- What acts on a key at `t` leaves, of the keys, what it makes of those that were left. -/
theorem HasRoom.keys_perform {names : List Str} {s : InMemoryStore} (h : HasRoom names s)
    {key : Str} (hn : key ∈ names) {t : Int} {α : Type} {f : Option Cell → Effect × α} :
    (s.perform key (Clock.still t) f).1.values.keys.filter
        ((s.perform key (Clock.still t) f).1.live t) =
      ((f (liveAt t (s.cell key))).1.onKeys key (s.values.keys.filter (s.live t))).filter fun k =>
        if k = key then
          (liveAt t ((f (liveAt t (s.cell key))).1.action.onCell (liveAt t (s.cell key)))).isSome
        else true := by
  have hnow : ∀ u, u = t → u ≤ t := fun _ => Int.le_of_eq
  have hpurged := (Walk.start.purge (T := (· = t)) key rfl).thins h.lockstep
  have hkeys : (s.perform key (Clock.still t) f).1.values.keys =
      (f (liveAt t (s.cell key))).1.onKeys key (s.purge key t).values.keys := by
    rw [← h.lockstep.cell_purge_self]
    exact keys_commit hpurged.lockstep (h.no_victim (Clock.still t) hn _)
  have hlive := hpurged.live_eq hnow
  rw [hkeys, ← hpurged.keys_live hnow, hlive,
    ← Effect.onKeys_filter _ (s.purge key t).values.keys_nodup ?_]
  · refine List.filter_congr fun k _ => ?_
    rw [live, h.cell_perform _ hn]
    split <;> rfl
  · intro hk
    rw [← hlive, live, h.lockstep.cell_purge_self, liveAt_liveAt (Int.le_refl t)]
    rw [mem_keys, h.lockstep.cell_purge_self] at hk
    exact Option.isSome_iff_ne_none.mpr hk

/-! ## Two stores that differ by walks -/

/-- Both stores have room for all the names, and at `t` they have the same left, in the same
order. -/
structure Alike (names : List Str) (t : Int) (s s' : InMemoryStore) : Prop where
  room : HasRoom names s
  room' : HasRoom names s'
  left : ∀ k, liveAt t (s'.cell k) = liveAt t (s.cell k)
  keys : s'.values.keys.filter (s'.live t) = s.values.keys.filter (s.live t)

theorem Alike.refl {names : List Str} {s : InMemoryStore} (h : HasRoom names s) (t : Int) :
    Alike names t s s := ⟨h, h, fun _ => rfl, rfl⟩

section

variable {names : List Str} {t : Int} {s s' : InMemoryStore} (h : Alike names t s s')

include h

theorem Alike.symm : Alike names t s' s := ⟨h.room', h.room, fun k => (h.left k).symm, h.keys.symm⟩

theorem Alike.mono {t' : Int} (ht : t ≤ t') : Alike names t' s s' := by
  have hleft : ∀ k, liveAt t' (s'.cell k) = liveAt t' (s.cell k) := fun k => by
    rw [← liveAt_liveAt ht, h.left, liveAt_liveAt ht]
  have hthrough : ∀ s : InMemoryStore, s.values.keys.filter (s.live t') =
      (s.values.keys.filter (s.live t)).filter (s.live t') := by
    intro s
    rw [List.filter_filter]
    refine List.filter_congr fun k _ => ?_
    rw [live, live, ← liveAt_liveAt ht (s.cell k)]
    cases liveAt t (s.cell k) <;> simp [liveAt_none]
  refine ⟨h.room, h.room', hleft, ?_⟩
  rw [hthrough, hthrough, h.keys]
  refine List.filter_congr fun k _ => ?_
  rw [live, live, hleft]

theorem Alike.thins {T : Int → Prop} {s'' : InMemoryStore} (hd : Thins T s' s'')
    (hT : ∀ u, T u → u ≤ t) : Alike names t s s'' := by
  have hleft := hd.liveAt_eq hT
  refine ⟨h.room, ⟨hd.lockstep, ?_, fun k hk => h.room'.held k (hd.cell_ne_none hk)⟩,
    fun k => (hleft k).trans (h.left k), ?_⟩
  · rw [hd.maxKeys]
    exact h.room'.room
  · exact (hd.keys_live hT).trans h.keys

theorem Alike.walk_right {T : Int → Prop} {s'' : InMemoryStore} (hw : Walk T s' s'')
    (hT : ∀ u, T u → u ≤ t) : Alike names t s s'' := h.thins (hw.thins h.room'.lockstep) hT

theorem Alike.walks {T : Int → Prop} {s1 s1' : InMemoryStore} (hw : Walk T s s1)
    (hw' : Walk T s' s1') (hT : ∀ u, T u → u ≤ t) : Alike names t s1 s1' :=
  ((h.walk_right hw' hT).symm.walk_right hw hT).symm

theorem Alike.keysOp (pattern : Str) :
    (s'.keys pattern (Clock.still t)).2 = (s.keys pattern (Clock.still t)).2 ∧
      Alike names t (s.keys pattern (Clock.still t)).1 (s'.keys pattern (Clock.still t)).1 := by
  have hlisted : ∀ s : InMemoryStore, (s.values.keys.filter fun k =>
      (liveAt t (s.cell k)).isSome && globMatch pattern k) =
        (s.values.keys.filter (s.live t)).filter (globMatch pattern) := by
    intro s
    rw [List.filter_filter]
    exact List.filter_congr fun k _ => Bool.and_comm ..
  constructor
  · rw [(keys_still h.room'.lockstep pattern t).2, (keys_still h.room.lockstep pattern t).2,
      hlisted, hlisted, h.keys]
  · have ht : ∀ i, (· = t) (Clock.still t i) := fun _ => rfl
    exact h.walks (Walk.start.keys pattern ht) (Walk.start.keys pattern ht) fun u hu =>
      Int.le_of_eq hu

variable {key : Str} (hn : key ∈ names) {α : Type} {f : Option Cell → Effect × α}
  (hf : ∀ c, (f c).1.Fits c)

include hn hf

theorem Alike.perform : (s'.perform key (Clock.still t) f).2 = (s.perform key (Clock.still t) f).2 ∧
    Alike names t (s.perform key (Clock.still t) f).1 (s'.perform key (Clock.still t) f).1 := by
  have hleft := h.left key
  refine ⟨?_, h.room.perform _ hn hf, h.room'.perform _ hn hf, fun k => ?_, ?_⟩
  · rw [h.room'.lockstep.perform_snd, h.room.lockstep.perform_snd]
    exact congrArg (fun c => (f c).2) hleft
  · rw [h.room'.cell_perform _ hn, h.room.cell_perform _ hn]
    split
    · exact congrArg (fun c => liveAt t ((f c).1.action.onCell c)) hleft
    · exact h.left k
  · rw [h.room'.keys_perform hn, h.room.keys_perform hn, h.keys]
    exact congrArg (fun c => ((f c).1.onKeys key _).filter fun k =>
      if k = key then (liveAt t ((f c).1.action.onCell c)).isSome else true) hleft

end

end InMemoryStore

end MiniStore
