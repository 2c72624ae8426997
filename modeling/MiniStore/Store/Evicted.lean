import MiniStore.Store.Lockstep

/-!
# Evictions

A commit evicts the victim of the view, unless that is due (`evictedKeys_commit`). A run
that fills a store with new keys leaves as many of the old keys as there is room for, and
of those that are gone the live ones have been evicted (`filled_runAll`): so it shows how
many live keys stand at the end of the order.
-/

namespace MiniStore

open InMemoryStore

/-! ## Evictions -/

def Notification.evictedKey : Notification → Option Str
  | .evicted key => some key
  | .expired _ => none

def evictedKeys (s : InMemoryStore) : List Str := s.notified.filterMap Notification.evictedKey

theorem evictedKeys_drop (s : InMemoryStore) (key : Str) :
    evictedKeys (s.drop key) = evictedKeys s := by
  show ((s.removeKey key).notified ++ [Notification.expired key]).filterMap _ = _
  rw [List.filterMap_append, notified_removeKey]
  exact List.append_nil _

theorem evictedKeys_purge (s : InMemoryStore) (key : Str) (now : Int) :
    evictedKeys (s.purge key now) = evictedKeys s := by
  rcases purge_cases s key now with e | ⟨e, -⟩
  · rw [e]
  · rw [e, evictedKeys_drop]

theorem evictedKeys_dropAll : ∀ (ks : List Str) (s : InMemoryStore),
    evictedKeys (ks.foldl InMemoryStore.drop s) = evictedKeys s
  | [], _ => rfl
  | key :: ks, s => (evictedKeys_dropAll ks (s.drop key)).trans (evictedKeys_drop s key)

theorem evictedKeys_sweep (s : InMemoryStore) (n : Int) (now : Clock) :
    evictedKeys (s.sweepExpired n now).1 = evictedKeys s := evictedKeys_dropAll _ _

theorem evictedKeys_keysLoop (test : Str → Bool) (now : Clock) : ∀ (ks : List Str) (i : Nat)
    (s : InMemoryStore), evictedKeys (keysLoop test now ks i s).1 = evictedKeys s
  | [], _, _ => rfl
  | key :: ks, i, s =>
    (evictedKeys_keysLoop test now ks (i + 1) _).trans (evictedKeys_purge s key (now i))

/-- A commit evicts the victim of the view, unless that is due. -/
theorem evictedKeys_commit {s : InMemoryStore} (h : s.Lockstep) (key : Str) (now : Int)
    (e : Effect) : evictedKeys (s.commit key now e) = evictedKeys s ++
      ((s.view.evicted s.maxKeys key e.action).filter fun v =>
        (liveAt now (s.cell v)).isSome).toList := by
  cases e with
  | keep => exact (List.append_nil _).symm
  | touch => exact (List.append_nil _).symm
  | remove =>
    show (s.removeKey key).notified.filterMap _ = _
    rw [notified_removeKey]
    exact (List.append_nil _).symm
  | put v d b =>
    show (s.commit key now (.put v d b)).notified.filterMap _ =
      _ ++ ((s.view.victim s.maxKeys key).filter _).toList
    rw [notified_commit_put]
    rcases h.reserveSlotFor_cases key now with ⟨hv, e⟩ | ⟨u, hv, hu, e⟩
    · rw [hv, e]
      exact (List.append_nil _).symm
    · obtain ⟨c, hc⟩ := Option.ne_none_iff_exists'.mp (has_iff_cell.mp hu)
      rw [hv, e, isExpired_eq hc, Option.filter_some, hc, liveAt_some]
      cases hx : c.expired now with
      | true => exact (evictedKeys_drop s u).trans (List.append_nil _).symm
      | false =>
        show ((s.removeKey u).notified ++ [Notification.evicted u]).filterMap _ = _
        rw [List.filterMap_append, notified_removeKey]
        rfl

/-! ## Filling a store -/

/-- SET of each of the keys, all at `t`. -/
def fill (t : Int) (keys : List Str) : List (Op × Clock) :=
  keys.map fun k => (.set k [] none, Clock.still t)

section

variable {s : InMemoryStore} (h : s.Lockstep) {key : Str} (hk : s.cell key = none) (t : Int)
  (ttl : Option Nat)

include h hk

theorem run_set_new : ((Op.set key [] ttl).run s (Clock.still t)).1 =
    s.commit key t (.put (.string []) (ttl.map fun n => t + n * 1000) true) := by
  have hp : s.purge key t = s := purge_of_live (by rw [hk]; rfl)
  have he : (Op.set key [] ttl).effect (Clock.still t) =
      some (key, fun _ => .put (.string []) (ttl.map fun n => t + n * 1000) true) := rfl
  rw [Op.run_effect h he]
  show (s.purge key t).commit key t _ = _
  rw [hp]

theorem set_new_spec :
    ((Op.set key [] ttl).run s (Clock.still t)).1.lru.order =
        key :: (s.view.makeRoom s.maxKeys key).order.erase key ∧
      (∀ k, k ≠ key → ((Op.set key [] ttl).run s (Clock.still t)).1.cell k =
        if s.view.victim s.maxKeys key = some k then none else s.cell k) ∧
      evictedKeys ((Op.set key [] ttl).run s (Clock.still t)).1 = evictedKeys s ++
        ((s.view.victim s.maxKeys key).filter fun v => (liveAt t (s.cell v)).isSome).toList := by
  have hview := h.view_commit key t (.put (.string []) (ttl.map fun n => t + n * 1000) true)
  rw [run_set_new h hk]
  exact ⟨congrArg LruCache.order hview,
    fun k hne => (congrArg (LruCache.cell · k) hview).trans (LruCache.cell_put_other _ hne),
    evictedKeys_commit h key t _⟩

theorem set_new_free (hroom : s.lru.order.length < s.maxKeys) :
    ((Op.set key [] ttl).run s (Clock.still t)).1.lru.order = key :: s.lru.order ∧
      (∀ k, k ≠ key → ((Op.set key [] ttl).run s (Clock.still t)).1.cell k = s.cell k) ∧
      evictedKeys ((Op.set key [] ttl).run s (Clock.still t)).1 = evictedKeys s := by
  have hv : s.view.victim s.maxKeys key = none :=
    (LruCache.victim_eq_none s.maxKeys_pos).mpr (.inr hroom)
  have hmake : s.view.makeRoom s.maxKeys key = s.view := by rw [LruCache.makeRoom, hv]
  have hnew : key ∉ s.lru.order := fun hm => absurd hk ((h.view_wf.mem key).mp hm)
  obtain ⟨horder, hcell, hev⟩ := set_new_spec h hk t ttl
  rw [hmake] at horder
  rw [hv] at hev
  refine ⟨horder.trans (congrArg _ (List.erase_of_not_mem hnew)), fun k hne => ?_,
    hev.trans (List.append_nil _)⟩
  rw [hcell k hne, hv, if_neg (by simp)]

theorem set_new_full {front : List Str} {u : Str} (hlast : s.lru.order = front ++ [u])
    (hfull : ¬ s.lru.order.length < s.maxKeys) :
    ((Op.set key [] ttl).run s (Clock.still t)).1.lru.order = key :: front ∧
      (∀ k ∈ front, ((Op.set key [] ttl).run s (Clock.still t)).1.cell k = s.cell k) ∧
      evictedKeys ((Op.set key [] ttl).run s (Clock.still t)).1 = evictedKeys s ++
        if (liveAt t (s.cell u)).isSome then [u] else [] := by
  have hnew : key ∉ s.lru.order := fun hm => absurd hk ((h.view_wf.mem key).mp hm)
  have hv : s.view.victim s.maxKeys key = some u := by
    refine (if_neg (not_or.mpr ⟨hnew, hfull⟩)).trans ?_
    show s.lru.order.getLast? = some u
    rw [hlast]
    exact List.getLast?_concat
  have hnd := s.lru.nodup_order
  rw [hlast] at hnd
  have hu : u ∉ front := fun hm =>
    (List.nodup_append.mp hnd).2.2 u hm u (List.mem_singleton.mpr rfl) rfl
  have hnot : key ∉ front := fun hm => hnew (hlast ▸ List.mem_append_left _ hm)
  have hmake : (s.view.makeRoom s.maxKeys key).order = front := by
    rw [LruCache.makeRoom, hv]
    show s.lru.order.erase u = _
    rw [hlast, List.erase_append_right _ hu]
    simp
  obtain ⟨horder, hcell, hev⟩ := set_new_spec h hk t ttl
  rw [hmake, List.erase_of_not_mem hnot] at horder
  refine ⟨horder, fun k hm => ?_, ?_⟩
  · have hne : k ≠ key := fun e => hnot (e ▸ hm)
    have hku : u ≠ k := fun e => hu (e ▸ hm)
    rw [hcell k hne, hv, if_neg fun e => hku (Option.some.inj e)]
  · rw [hev, hv, Option.filter_some]
    cases (liveAt t (s.cell u)).isSome <;> rfl

end

/-- `s'` is `s` filled with `keys`: as many of the old keys are left as there is room
for, and of those that are gone the live ones have been evicted. -/
structure Filled (t : Int) (keys : List Str) (s s' : InMemoryStore) : Prop where
  lockstep : s'.Lockstep
  maxKeys : s'.maxKeys = s.maxKeys
  order : s'.lru.order = keys.reverse ++ s.lru.order.take (s.maxKeys - keys.length)
  cell : ∀ k ∈ s.lru.order.take (s.maxKeys - keys.length), s'.cell k = s.cell k
  evicted : (evictedKeys s').length = (evictedKeys s).length +
    ((s.lru.order.drop (s.maxKeys - keys.length)).filter fun k =>
      (liveAt t (s.cell k)).isSome).length

theorem filled_nil {t : Int} {s : InMemoryStore} (h : s.Lockstep) : Filled t [] s s := by
  have hle : s.lru.order.length ≤ s.maxKeys - 0 := h.length_order ▸ h.size_le
  refine ⟨h, rfl, ?_, fun _ _ => rfl, ?_⟩
  · exact (List.take_of_length_le hle).symm
  · rw [List.length_nil, List.drop_of_length_le hle]
    rfl

theorem Filled.set {t : Int} {keys : List Str} {s s' : InMemoryStore} (h : Filled t keys s s')
    {key : Str} (hk : s'.cell key = none) (hlt : keys.length < s.maxKeys) :
    Filled t (keys ++ [key]) s ((Op.set key [] none).run s' (Clock.still t)).1 := by
  have hL := h.lockstep
  obtain ⟨n, hn⟩ : ∃ n, s.maxKeys - keys.length = n + 1 := ⟨s.maxKeys - keys.length - 1, by omega⟩
  have hn' : s.maxKeys - (keys ++ [key]).length = n := by
    rw [List.length_append, List.length_singleton]
    omega
  have hnew : key ∉ s'.lru.order := fun hm => absurd hk ((hL.view_wf.mem key).mp hm)
  have horder := h.order
  have hcells := h.cell
  have hevicted := h.evicted
  rw [hn] at horder hcells hevicted
  have hL' := hL.run (.set key [] none) (Clock.still t)
  have hmax := (maxKeys_run hL (.set key [] none) (Clock.still t)).trans h.maxKeys
  have hlen : s'.lru.order.length = keys.length + min (n + 1) s.lru.order.length := by
    rw [horder, List.length_append, List.length_reverse, List.length_take]
  have hreverse : (keys ++ [key]).reverse = key :: keys.reverse := List.reverse_append
  have hm := h.maxKeys
  by_cases hfull : s.lru.order.length ≤ n
  · obtain ⟨hord, hcell, hev⟩ := set_new_free hL hk t none (by omega)
    have htake : s.lru.order.take (n + 1) = s.lru.order.take n := by
      rw [List.take_of_length_le hfull, List.take_of_length_le (by omega)]
    have hdrop : s.lru.order.drop (n + 1) = s.lru.order.drop n := by
      rw [List.drop_of_length_le hfull, List.drop_of_length_le (by omega)]
    refine ⟨hL', hmax, ?_, fun k hm => ?_, ?_⟩
    · rw [hord, hn', hreverse, horder, htake]
      rfl
    · rw [hn', ← htake] at hm
      have hne : k ≠ key := fun e => hnew (e ▸ horder ▸ List.mem_append_right _ hm)
      rw [hcell k hne, hcells k hm]
    · rw [hev, hn', ← hdrop, hevicted]
  -- the last of the old keys goes
  · have hlt' : n < s.lru.order.length := by omega
    have htake : s.lru.order.take (n + 1) = s.lru.order.take n ++ [s.lru.order[n]] :=
      (List.take_append_getElem hlt').symm
    have hdrop : s.lru.order.drop n = s.lru.order[n] :: s.lru.order.drop (n + 1) :=
      List.drop_eq_getElem_cons hlt'
    rw [htake] at horder hcells
    generalize s.lru.order[n] = u at htake hdrop horder hcells
    rw [← List.append_assoc] at horder
    obtain ⟨hord, hcell, hev⟩ := set_new_full hL hk t none horder (by omega)
    refine ⟨hL', hmax, ?_, fun k hm => ?_, ?_⟩
    · rw [hord, hn', hreverse]
      rfl
    · rw [hn'] at hm
      rw [hcell k (List.mem_append_right _ hm), hcells k (List.mem_append_left _ hm)]
    · have hcu : s'.cell u = s.cell u :=
        hcells u (List.mem_append_right _ (List.mem_singleton.mpr rfl))
      rw [hev, hn', hdrop, hcu, List.length_append, hevicted, List.filter_cons]
      cases (liveAt t (s.cell u)).isSome with
      | true => exact Nat.add_assoc ..
      | false => rfl

theorem filled_runAll {t : Int} {s : InMemoryStore} (h : s.Lockstep) (keys : List Str) :
    keys.Nodup → (∀ k ∈ keys, s.cell k = none) → keys.length ≤ s.maxKeys →
      Filled t keys s (runAll s (fill t keys)) := by
  induction keys using List.reverseRecOn with
  | nil => exact fun _ _ _ => filled_nil h
  | append_singleton keys key ih =>
    intro hnd hnew hlen
    obtain ⟨hnd', -, hne⟩ := List.nodup_append.mp hnd
    rw [List.length_append, List.length_singleton] at hlen
    have hf := ih hnd' (fun k hk => hnew k (List.mem_append_left _ hk)) (by omega)
    have e : fill t (keys ++ [key]) = fill t keys ++ [(.set key [] none, Clock.still t)] :=
      List.map_append
    rw [e, runAll_append]
    refine hf.set ?_ hlen
    -- the key is neither an old one nor one of those before it
    have hold : key ∉ s.lru.order := fun hm =>
      (h.view_wf.mem key).mp hm (hnew key (List.mem_append_right _ (List.mem_singleton.mpr rfl)))
    have hnot : key ∉ (runAll s (fill t keys)).lru.order := by
      rw [hf.order, List.mem_append, List.mem_reverse, not_or]
      exact ⟨fun hm => hne key hm key (List.mem_singleton.mpr rfl) rfl,
        fun hm => hold (List.mem_of_mem_take hm)⟩
    by_contra hc
    exact hnot ((hf.lockstep.view_wf.mem key).mpr hc)

/-- There are always enough keys that are not in use. -/
theorem exists_fresh (used : List Str) (n : Nat) :
    ∃ keys : List Str, keys.Nodup ∧ keys.length = n ∧ ∀ k ∈ keys, k ∉ used := by
  -- keys longer than all that are in use
  let longKey := fun i : Nat => List.replicate (used.flatten.length + 1 + i) 'x'
  have hlen : ∀ i, (longKey i).length = used.flatten.length + 1 + i := fun i =>
    List.length_replicate
  have hinj : Function.Injective longKey := fun i j h => by
    have := congrArg List.length h
    rw [hlen, hlen] at this
    omega
  refine ⟨(List.range n).map longKey, List.nodup_range.map hinj, ?_, fun k hk hu => ?_⟩
  · rw [List.length_map, List.length_range]
  · obtain ⟨i, -, rfl⟩ := List.mem_map.mp hk
    have := (List.sublist_flatten_of_mem hu).length_le
    rw [hlen] at this
    omega

end MiniStore
