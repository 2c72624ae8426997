import MiniStore.Store.ReadOut
import MiniStore.Store.SweepTurn

/-!
# Does a read-out disturb eviction?

A read-out touches every key it lists, in the order of insertion, and drops what is due.
So it leaves the order of the live keys alone just when they are in the reverse of that
order already, and later evictions just when besides nothing is due
(`extraction_keeps_eviction_iff`): a due key that is dropped early leaves the cursor of the
sweep elsewhere than one that is swept away. With one slot only there is nothing to tell.
-/

namespace MiniStore

open InMemoryStore

/-! ## The condition -/

/-- The keys of `s` that are live at `t`, the one used last first. -/
def liveOrder (t : Int) (s : InMemoryStore) : List Str :=
  s.lru.order.filter fun k => (liveAt t (s.cell k)).isSome

/-- The order of the live keys of `s` is that of `s'`, and whatever clients and the sweep do
from `t` on, the same keys are evicted. -/
structure KeepsEviction (t : Int) (s s' : InMemoryStore) : Prop where
  order : liveOrder t s' = liveOrder t s
  evicts : ∀ later : List (Op × Clock), (∀ o ∈ later, ∀ i, t ≤ o.2 i) →
    evictedKeys (runAll s' later) = evictedKeys (runAll s later)

/-- Nothing that is stored is due, and the keys that KEYS lists were used last, in the order
of insertion. -/
structure UsedInOrder (t : Int) (s : InMemoryStore) : Prop where
  order : liveOrder t s =
    (listed t s).reverse ++ (liveOrder t s).filter fun k => decide (k ∉ listed t s)
  live : ∀ k ∈ s.lru.order, s.expiry.isExpired k t = false

section

variable {t : Int} {s s' : InMemoryStore} (h : s.Lockstep) (hr : ReadOut t s s')

include hr

theorem ReadOut.order_eq : s'.lru.order =
    (listed t s).reverse ++ (liveOrder t s).filter fun k => decide (k ∉ listed t s) := by
  rw [hr.order, liveOrder, List.filter_filter]
  exact congrArg _ (List.filter_congr fun k _ => Bool.and_comm ..)

theorem ReadOut.liveOrder_eq : liveOrder t s' = s'.lru.order := by
  refine List.filter_eq_self.mpr fun k hk => ?_
  have hne := (hr.lockstep.view_wf.mem k).mp hk
  rw [hr.cell, liveAt_liveAt (Int.le_refl t), ← hr.cell]
  exact Option.isSome_iff_ne_none.mpr hne

theorem ReadOut.order_iff : liveOrder t s' = liveOrder t s ↔ liveOrder t s =
    (listed t s).reverse ++ (liveOrder t s).filter fun k => decide (k ∉ listed t s) := by
  rw [hr.liveOrder_eq, hr.order_eq]
  exact eq_comm

include h

/-- With room for two keys a read-out of a store that holds a due key is not without effect:
delete all the others, and the two stores come apart. -/
theorem ReadOut.exists_parting (hev : evictedKeys s' = evictedKeys s)
    (hcursor : s'.expiry.raw.cursor = s.expiry.raw.cursor) (hroom : 2 ≤ s.maxKeys) {x : Str}
    (hx : s.expiry.isExpired x t = true) :
    ∃ later : List (Op × Clock), (∀ o ∈ later, ∀ i, t ≤ o.2 i) ∧
      evictedKeys (runAll s' later) ≠ evictedKeys (runAll s later) := by
  obtain ⟨d, hd, hdue⟩ := (ExpiryManager.isExpired_eq ..).mp hx
  have hcx := h.stored_of_expired hx
  have hgone : s'.cell x = none := by
    obtain ⟨c, hc⟩ := Option.ne_none_iff_exists'.mp hcx
    rw [isExpired_eq hc] at hx
    rw [hr.cell, hc, liveAt_some, if_pos hx]
  let others := s.lru.order.filter fun k => k ≠ x
  have hothers : ∀ k, k ≠ x → s.cell k ≠ none → k ∈ others := fun k hk hc =>
    List.mem_filter.mpr ⟨(h.view_wf.mem k).mpr hc, by simpa using hk⟩
  have hw := deleted_runAll t others h
  have hw' := deleted_runAll t others hr.lockstep
  have honly : ∀ k, k ≠ x → (runAll s (deleteAll t others)).cell k = none := fun k hk => by
    rw [hw.cell]
    split
    · rfl
    · next hm => exact by_contra fun hc => hm (hothers k hk hc)
  have hnone : ∀ k, (runAll s' (deleteAll t others)).cell k = none := fun k => by
    rw [hw'.cell]
    split
    · rfl
    · next hm =>
      by_contra hc
      have hk : k ≠ x := fun e => hc (e ▸ hgone)
      rw [hr.cell] at hc
      exact hm (hothers k hk fun e => hc (by rw [e]; rfl))
  have hdx : (runAll s (deleteAll t others)).expiry.deadline x = some d := by
    have hkeep := hw.cell x
    rw [if_neg (by simp [others])] at hkeep
    obtain ⟨c, hc⟩ := Option.ne_none_iff_exists'.mp hcx
    rw [(get?_of_cell (hkeep.trans hc)).2, ← (get?_of_cell hc).2, hd]
  obtain ⟨later, hlater, hne⟩ := InMemoryStore.exists_parting hw.lockstep hw'.lockstep
    (by rw [hw'.maxKeys, hr.maxKeys, hw.maxKeys]) (by rw [hw.maxKeys]; exact hroom)
    (by rw [hw'.cursor, hcursor, hw.cursor]) (by rw [hw'.evicted, hev, hw.evicted]) hdx hdue honly
    hnone
  refine ⟨deleteAll t others ++ later, fun o ho i => ?_, ?_⟩
  · rcases List.mem_append.mp ho with ho | ho
    · obtain ⟨k, -, rfl⟩ := List.mem_map.mp ho
      exact Int.le_refl t
    · exact hlater o ho i
  · rw [runAll_append, runAll_append]
    exact hne

end

/-! ## One slot -/

/-- Two stores with one slot that from `t` on hold the same. -/
structure OneSlot (t : Int) (s s' : InMemoryStore) : Prop where
  lockstep : s.Lockstep
  lockstep' : s'.Lockstep
  maxKeys : s.maxKeys = 1
  maxKeys' : s'.maxKeys = 1
  cell : ∀ u, t ≤ u → ∀ k, liveAt u (s'.cell k) = liveAt u (s.cell k)
  evicted : evictedKeys s' = evictedKeys s

section

variable {s : InMemoryStore} (h : s.Lockstep) (hm : s.maxKeys = 1)

include h hm

theorem InMemoryStore.Lockstep.eq_of_one {k j : Str} (hk : s.cell k ≠ none)
    (hj : s.cell j ≠ none) : k = j := by
  have hlen : s.lru.order.length ≤ 1 := by
    rw [h.length_order, ← hm]
    exact h.size_le
  have hk := (h.view_wf.mem k).mpr hk
  have hj := (h.view_wf.mem j).mpr hj
  match hl : s.lru.order, hlen with
  | [], _ => exact absurd (hl ▸ hk : k ∈ []) List.not_mem_nil
  | [v], _ =>
    rw [List.mem_singleton.mp (hl ▸ hk : k ∈ [v]), List.mem_singleton.mp (hl ▸ hj : j ∈ [v])]

/-- The live key that makes way for a new one is the only one there is. -/
theorem InMemoryStore.Lockstep.victim_one (key : Str) (u : Int) (v : Str) :
    (s.view.victim 1 key).filter (fun v => (liveAt u (s.cell v)).isSome) = some v ↔
      v ≠ key ∧ (liveAt u (s.cell v)).isSome = true := by
  rw [Option.filter_eq_some_iff]
  refine and_congr_left fun hl => ⟨fun hv hvk => ?_, fun hvk => ?_⟩
  · exact (LruCache.victim_mem hv).2.1 (hvk ▸ (LruCache.victim_mem hv).1)
  · have hc : s.cell v ≠ none := fun e => by rw [e] at hl; cases hl
    have hin := (h.view_wf.mem v).mpr hc
    cases hv : s.view.victim 1 key with
    | none =>
      rcases (LruCache.victim_eq_none (Nat.le_refl 1)).mp hv with hkey | hroom
      · exact absurd (h.eq_of_one hm hc ((h.view_wf.mem key).mp hkey)) hvk
      · rw [List.length_eq_zero_iff.mp (Nat.lt_one_iff.mp hroom)] at hin
        cases hin
    | some w =>
      have hw := (h.view_wf.mem w).mp (LruCache.victim_mem hv).1
      rw [h.eq_of_one hm hc hw]

end

theorem InMemoryStore.Lockstep.keys_one {s : InMemoryStore} (h : s.Lockstep) (hm : s.maxKeys = 1)
    (pattern : Str) (now : Clock) (k : Str) :
    (s.keys pattern now).1.cell k = liveAt (now 0) (s.cell k) := by
  show (keysLoop (globMatch pattern) now s.values.keys 0 s).1.cell k = _
  have hlen : s.values.keys.length ≤ 1 := by
    rw [OrdMap.length_keys, ← hm]
    exact h.size_le
  match hks : s.values.keys, hlen with
  | [], _ =>
    have hnone : s.cell k = none := by
      by_contra hc
      exact List.not_mem_nil (hks ▸ mem_keys.mpr hc : k ∈ [])
    exact hnone.trans (by rw [hnone]; rfl)
  | [key], _ =>
    refine (h.cell_purge key (now 0) k).trans ?_
    by_cases hk : k = key
    · rw [if_pos hk, hk]
    · have hnone : s.cell k = none := by
        by_contra hc
        exact hk (List.mem_singleton.mp (hks ▸ mem_keys.mpr hc : k ∈ [key]))
      rw [if_neg hk, hnone]
      rfl

/-- With one slot a sweep that may take a key takes what is due. -/
theorem InMemoryStore.Lockstep.sweep_one {s : InMemoryStore} (h : s.Lockstep) (hm : s.maxKeys = 1)
    (n : Int) (now : Clock) (k : Str) : (s.sweepExpired n now).1.cell k =
      if 1 ≤ n then liveAt (now 0) (s.cell k) else s.cell k := by
  by_cases hn : 1 ≤ n
  · obtain ⟨size, rfl⟩ : ∃ size : Nat, n = size := ⟨n.toNat, by omega⟩
    have hsize : 1 ≤ size := by omega
    have htracks : Tracks 1 s := by
      refine ⟨h, ?_⟩
      rw [← ExpiryManager.length_keys]
      have hsub : s.expiry.raw.keys ⊆ s.lru.order := fun j hj => by
        obtain ⟨d, hd⟩ := (ExpiryManager.mem_keys _).mp hj
        exact (h.view_wf.mem j).mpr (has_iff_cell.mp (h.deadlines j d hd))
      refine Nat.le_trans (s.expiry.wf.indexed.nodup.subperm hsub).length_le ?_
      rw [h.length_order, ← hm]
      exact h.size_le
    have hround : 1 * (1 ⌈/⌉ size) ≤ 1 := by
      rw [Nat.one_mul]
      exact (ceilDiv_le_iff_le_mul (by omega)).mpr (by omega)
    have hdrained := htracks.drained (t := now 0) hsize hround
    have hL : (s.sweepExpired size now).1.Lockstep := h.run (.sweepExpired size) now
    have hdecays : Decays (fun u => u = now 0) s (s.sweepExpired size now).1 :=
      h.decays_sweepExpired size rfl
    rw [if_pos hn]
    rcases hdecays.cell k with he | ⟨he, _, rfl, hl⟩
    · rw [he, eq_comm]
      cases hc : s.cell k with
      | none => rfl
      | some c =>
        refine liveAt_eq_some.mpr ⟨rfl, Bool.eq_false_iff.mpr fun hx => ?_⟩
        rw [← isExpired_eq (he.trans hc)] at hx
        exact absurd hdrained (Nat.ne_of_gt (List.length_pos_of_mem (hL.mem_expiredKeys.mpr hx)))
    · rw [he, hl]
  · have hnone : s.expiry.collectExpired (now 0) n = (s.expiry, []) := by
      have hraw : s.expiry.raw.collectExpired (now 0) n = (s.expiry.raw, []) :=
        if_pos (.inr (by omega))
      unfold ExpiryManager.collectExpired
      simp only [hraw]
    rw [if_neg hn, sweepExpired_fst, hnone, InMemoryStore.sample, hnone]
    rfl

section

variable {t : Int} {s s' : InMemoryStore} (h : OneSlot t s s')

include h

theorem OneSlot.purge (key : Str) {u : Int} (hu : t ≤ u) :
    OneSlot t (s.purge key u) (s'.purge key u) ∧
      (s'.purge key u).cell key = (s.purge key u).cell key := by
  have hcell := h.cell u hu key
  refine ⟨⟨h.lockstep.purge key u, h.lockstep'.purge key u, ?_, ?_, fun w hw k => ?_, ?_⟩, ?_⟩
  · rw [maxKeys_purge, h.maxKeys]
  · rw [maxKeys_purge, h.maxKeys']
  · rw [h.lockstep.cell_purge, h.lockstep'.cell_purge, hcell]
    split
    · rfl
    · exact h.cell w hw k
  · rw [evictedKeys_purge, evictedKeys_purge, h.evicted]
  · rw [h.lockstep.cell_purge_self, h.lockstep'.cell_purge_self, hcell]

theorem OneSlot.commit {key : Str} (hc : s'.cell key = s.cell key) {u : Int} (hu : t ≤ u)
    {e : Effect} (hf : e.Fits (s.cell key)) :
    OneSlot t (s.commit key u e) (s'.commit key u e) := by
  have hs := h.lockstep
  have hs' := h.lockstep'
  have hL := hs.commit u hf
  have hL' : (s'.commit key u e).Lockstep := hs'.commit u (by rwa [hc])
  have hm := (maxKeys_commit hs key u e).trans h.maxKeys
  have hm' := (maxKeys_commit hs' key u e).trans h.maxKeys'
  refine ⟨hL, hL', hm, hm', fun w hw k => ?_, ?_⟩
  · by_cases hk : k = key
    · rw [hk, hs.cell_commit_self, hs'.cell_commit_self, hc]
    · cases e with
      | keep => exact h.cell w hw k
      | touch => exact h.cell w hw k
      | remove =>
        show liveAt w ((s'.removeKey key).cell k) = liveAt w ((s.removeKey key).cell k)
        rw [hs.cell_removeKey, hs'.cell_removeKey, if_neg hk, if_neg hk]
        exact h.cell w hw k
      | put v d b =>
        -- the key that is written takes the only slot
        have hkey : (s.commit key u (.put v d b)).cell key ≠ none := by
          rw [hs.cell_commit_self]
          exact Option.some_ne_none _
        have hkey' : (s'.commit key u (.put v d b)).cell key ≠ none := by
          rw [hs'.cell_commit_self]
          exact Option.some_ne_none _
        rw [show (s.commit key u (.put v d b)).cell k = none from
            by_contra fun hj => hk (hL.eq_of_one hm hj hkey),
          show (s'.commit key u (.put v d b)).cell k = none from
            by_contra fun hj => hk (hL'.eq_of_one hm' hj hkey')]
  · rw [evictedKeys_commit hs, evictedKeys_commit hs', h.evicted, h.maxKeys, h.maxKeys']
    cases e with
    | keep | touch | remove => rfl
    | put v d b =>
      refine congrArg (fun o => evictedKeys s ++ Option.toList o) (Option.ext fun w => ?_)
      exact (hs'.victim_one h.maxKeys' key u w).trans
        (by rw [h.cell u hu w]; exact (hs.victim_one h.maxKeys key u w).symm)

theorem OneSlot.run (op : Op) {now : Clock} (hnow : ∀ i, t ≤ now i) :
    OneSlot t (op.run s now).1 (op.run s' now).1 := by
  cases hk : op.key with
  | some key =>
    obtain ⟨f, he⟩ := Op.effect_of_key hk now
    obtain ⟨hp, hc⟩ := h.purge key (hnow 0)
    rw [Op.run_effect h.lockstep he, Op.run_effect h.lockstep' he, hc]
    exact hp.commit hc (hnow 1) (Op.effect_fits he _)
  | none =>
    have hs := h.lockstep
    have hs' := h.lockstep'
    refine ⟨hs.run op now, hs'.run op now, (maxKeys_run hs op now).trans h.maxKeys,
      (maxKeys_run hs' op now).trans h.maxKeys', fun w hw k => ?_, ?_⟩
    · cases op with
      | keys pattern =>
        refine (congrArg (liveAt w) (hs'.keys_one h.maxKeys' pattern now k)).trans ?_
        rw [h.cell _ (hnow 0)]
        exact (congrArg (liveAt w) (hs.keys_one h.maxKeys pattern now k)).symm
      | sweepExpired n =>
        refine (congrArg (liveAt w) (hs'.sweep_one h.maxKeys' n now k)).trans ?_
        refine Eq.trans ?_ (congrArg (liveAt w) (hs.sweep_one h.maxKeys n now k)).symm
        split
        · rw [h.cell _ (hnow 0)]
        · exact h.cell w hw k
      | _ => cases hk
    · cases op with
      | keys pattern =>
        exact (evictedKeys_keysLoop _ _ _ 0 s').trans
          (h.evicted.trans (evictedKeys_keysLoop _ _ _ 0 s).symm)
      | sweepExpired n =>
        exact (evictedKeys_sweep s' n now).trans (h.evicted.trans (evictedKeys_sweep s n now).symm)
      | _ => cases hk

end

theorem OneSlot.runs {t : Int} : ∀ (ops : List (Op × Clock)) {s s' : InMemoryStore},
    OneSlot t s s' → (∀ o ∈ ops, ∀ i, t ≤ o.2 i) → OneSlot t (runAll s ops) (runAll s' ops)
  | [], _, _, h, _ => h
  | o :: ops, _, _, h, hops =>
    OneSlot.runs ops (h.run o.1 (hops o List.mem_cons_self)) fun p hp =>
      hops p (List.mem_cons_of_mem _ hp)

/-- With one slot a read-out changes nothing that can be seen later. -/
theorem ReadOut.oneSlot {t : Int} {s s' : InMemoryStore} (h : s.Lockstep) (hr : ReadOut t s s')
    (hev : evictedKeys s' = evictedKeys s) (hm : s.maxKeys = 1) : OneSlot t s s' :=
  ⟨h, hr.lockstep, hm, hr.maxKeys.trans hm,
    fun u hu k => by rw [hr.cell, liveAt_liveAt hu], hev⟩

theorem OneSlot.liveOrder_eq {t : Int} {s s' : InMemoryStore} (h : OneSlot t s s') :
    liveOrder t s' = liveOrder t s := by
  have hmem : ∀ {x : InMemoryStore}, x.Lockstep → ∀ k,
      k ∈ liveOrder t x ↔ (liveAt t (x.cell k)).isSome = true := fun {x} hx k => by
    refine List.mem_filter.trans (and_iff_right_of_imp fun hl => (hx.view_wf.mem k).mpr fun e => ?_)
    rw [show x.cell k = none from e] at hl
    cases hl
  have hshort : (liveOrder t s).length ≤ 1 := by
    refine Nat.le_trans (List.length_filter_le ..) ?_
    rw [h.lockstep.length_order, ← h.maxKeys]
    exact h.lockstep.size_le
  have hperm : (liveOrder t s').Perm (liveOrder t s) :=
    (List.perm_ext_iff_of_nodup (s'.lru.nodup_order.filter _) (s.lru.nodup_order.filter _)).mpr
      fun k => (hmem h.lockstep' k).trans
        (by rw [h.cell t (Int.le_refl t)]; exact (hmem h.lockstep k).symm)
  match hl : liveOrder t s, hshort with
  | [], _ => exact List.perm_nil.mp (hl ▸ hperm)
  | [v], _ => exact List.perm_singleton.mp (hl ▸ hperm)

/-! ## Stores that differ in the nodes of the list only -/

/-- The same entries, deadlines and order. -/
structure Twin (s s' : InMemoryStore) : Prop where
  values : s'.values = s.values
  expiry : s'.expiry = s.expiry
  order : s'.lru.order = s.lru.order
  maxKeys : s'.maxKeys = s.maxKeys
  evicted : evictedKeys s' = evictedKeys s

section

variable {s s' : InMemoryStore} (h : Twin s s')

include h

theorem Twin.lockstep (hs : s.Lockstep) : s'.Lockstep :=
  hs.congr h.values h.order h.expiry h.maxKeys

theorem Twin.cell (k : Str) : s'.cell k = s.cell k := by
  unfold InMemoryStore.cell
  rw [h.values, h.expiry]

theorem Twin.touch (key : Str) : Twin (s.touch key) (s'.touch key) := by
  refine ⟨h.values, h.expiry, ?_, h.maxKeys, h.evicted⟩
  show (s'.lru.touch key).order = (s.lru.touch key).order
  rw [LRUTracker.order_touch, LRUTracker.order_touch, h.order]

theorem Twin.removeKey (key : Str) : Twin (s.removeKey key) (s'.removeKey key) := by
  have hev : evictedKeys (s'.removeKey key) = evictedKeys (s.removeKey key) := by
    unfold evictedKeys
    rw [notified_removeKey, notified_removeKey]
    exact h.evicted
  refine ⟨?_, ?_, ?_, ?_, hev⟩
  · rw [values_removeKey, values_removeKey, h.values]
  · unfold InMemoryStore.removeKey
    rw [h.values]
    split
    · show s'.expiry.clear key = s.expiry.clear key
      rw [h.expiry]
    · exact h.expiry
  · unfold InMemoryStore.removeKey
    rw [h.values]
    split
    · show (s'.lru.delete key).order = (s.lru.delete key).order
      rw [LRUTracker.order_delete, LRUTracker.order_delete, h.order]
    · exact h.order
  · rw [maxKeys_removeKey, maxKeys_removeKey, h.maxKeys]

theorem Twin.drop (key : Str) : Twin (s.drop key) (s'.drop key) := by
  have hr := h.removeKey key
  refine ⟨hr.values, hr.expiry, hr.order, hr.maxKeys, ?_⟩
  rw [evictedKeys_drop, evictedKeys_drop, h.evicted]

theorem Twin.purge (key : Str) (now : Int) : Twin (s.purge key now) (s'.purge key now) := by
  unfold InMemoryStore.purge expireIfNeeded
  rw [h.values, h.expiry]
  split
  · split
    · exact h.drop key
    · exact h
  · exact h

theorem Twin.reserveSlotFor (key : Str) (now : Int) :
    Twin (s.reserveSlotFor key now) (s'.reserveSlotFor key now) := by
  unfold InMemoryStore.reserveSlotFor makeRoomForNewKey
  rw [h.values, h.maxKeys, LRUTracker.peekLRU_eq, LRUTracker.peekLRU_eq, h.order, h.expiry]
  split
  · split
    · exact h
    · next v _ =>
      split
      · exact h.drop v
      · have hr := h.removeKey v
        refine ⟨hr.values, hr.expiry, hr.order, hr.maxKeys, ?_⟩
        show ((s'.removeKey v).notified ++ [Notification.evicted v]).filterMap _ =
          ((s.removeKey v).notified ++ [Notification.evicted v]).filterMap _
        rw [List.filterMap_append, List.filterMap_append, notified_removeKey, notified_removeKey]
        exact congrArg (· ++ _) h.evicted
  · exact h

theorem Twin.commit (key : Str) (now : Int) (e : Effect) :
    Twin (s.commit key now e) (s'.commit key now e) := by
  cases e with
  | keep => exact h
  | touch => exact h.touch key
  | remove => exact h.removeKey key
  | put v d b =>
    have hr := h.reserveSlotFor key now
    have hp : Twin ((s.reserveSlotFor key now).put key v) ((s'.reserveSlotFor key now).put key v) :=
      ⟨congrArg (·.set key v) hr.values, hr.expiry, hr.order, hr.maxKeys, hr.evicted⟩
    have ht := hp.touch key
    have hx := congrArg (·.assign key d) ht.expiry
    cases b <;> exact ⟨ht.values, hx, ht.order, ht.maxKeys, ht.evicted⟩

theorem Twin.run (hs : s.Lockstep) (op : Op) (now : Clock) :
    Twin (op.run s now).1 (op.run s' now).1 := by
  cases hk : op.key with
  | some key =>
    obtain ⟨f, he⟩ := Op.effect_of_key hk now
    have hp := h.purge key (now 0)
    rw [Op.run_effect hs he, Op.run_effect (h.lockstep hs) he, hp.cell]
    exact hp.commit key (now 1) _
  | none =>
    cases op with
    | keys pattern =>
      have hloop : ∀ (ks : List Str) (i : Nat) {s s' : InMemoryStore}, Twin s s' →
          Twin (keysLoop (globMatch pattern) now ks i s).1
            (keysLoop (globMatch pattern) now ks i s').1 := by
        intro ks
        induction ks with
        | nil => exact fun _ _ _ h => h
        | cons key ks ih => exact fun i _ _ h => ih (i + 1) (h.purge key (now i))
      show Twin (keysLoop _ now s.values.keys 0 s).1 (keysLoop _ now s'.values.keys 0 s').1
      rw [h.values]
      exact hloop _ 0 h
    | sweepExpired n =>
      have hdrop : ∀ (ks : List Str) {s s' : InMemoryStore}, Twin s s' →
          Twin (ks.foldl InMemoryStore.drop s) (ks.foldl InMemoryStore.drop s') := by
        intro ks
        induction ks with
        | nil => exact fun h => h
        | cons key ks ih => exact fun h => ih (h.drop key)
      show Twin (s.sweepExpired n now).1 (s'.sweepExpired n now).1
      rw [sweepExpired_fst, sweepExpired_fst, h.expiry]
      refine hdrop _ ⟨h.values, ?_, h.order, h.maxKeys, h.evicted⟩
      show (s'.expiry.collectExpired (now 0) n).1 = (s.expiry.collectExpired (now 0) n).1
      rw [h.expiry]
    | _ => cases hk

end

theorem Twin.runs : ∀ (ops : List (Op × Clock)) {s s' : InMemoryStore}, Twin s s' → s.Lockstep →
    Twin (runAll s ops) (runAll s' ops)
  | [], _, _, h, _ => h
  | (op, now) :: ops, _, _, h, hs =>
    Twin.runs ops (h.run hs op now) (hs.run op now)

theorem keysLoop_of_live (test : Str → Bool) (now : Clock) {s : InMemoryStore}
    (hl : ∀ i k, liveAt (now i) (s.cell k) = s.cell k) : ∀ (ks : List Str) (i : Nat),
    (keysLoop test now ks i s).1 = s
  | [], _ => rfl
  | key :: ks, i => by
    show (keysLoop test now ks (i + 1) (s.purge key (now i))).1 = s
    rw [purge_of_live (hl i key)]
    exact keysLoop_of_live test now hl ks (i + 1)

theorem evictedKeys_touchAll (ks : List Str) (s : InMemoryStore) :
    evictedKeys (touchAll ks s) = evictedKeys s := by
  rw [touchAll_eq]
  rfl

theorem cursor_touchAll (ks : List Str) (s : InMemoryStore) :
    (touchAll ks s).expiry.raw.cursor = s.expiry.raw.cursor := by
  rw [touchAll_eq]

/-- With nothing due, a read-out of keys used in order leaves the store as it was. -/
theorem twin_touchAll {t : Int} {s : InMemoryStore} (h : s.Lockstep) (hc : UsedInOrder t s) :
    Twin s (touchAll (listed t s) (s.keys ['*'] (Clock.still t)).1) := by
  have hl : ∀ k, liveAt t (s.cell k) = s.cell k := fun k => by
    cases hk : s.cell k with
    | none => rfl
    | some c =>
      have hne : s.cell k ≠ none := by rw [hk]; exact Option.some_ne_none c
      have hx := hc.live k ((h.view_wf.mem k).mpr hne)
      rw [isExpired_eq hk] at hx
      exact liveAt_eq_some.mpr ⟨rfl, hx⟩
  have hkeys : (s.keys ['*'] (Clock.still t)).1 = s := keysLoop_of_live _ _ (fun _ => hl) _ 0
  have hr := readOut_touchAll h t
  have hlive : liveOrder t s = s.lru.order := by
    refine List.filter_eq_self.mpr fun k hk => ?_
    rw [hl]
    exact Option.isSome_iff_ne_none.mpr ((h.view_wf.mem k).mp hk)
  have horder := hr.order_eq
  rw [← hc.order, hlive] at horder
  rw [hkeys] at horder ⊢
  refine ⟨?_, ?_, horder, ?_, evictedKeys_touchAll _ s⟩ <;> rw [touchAll_eq]

/-! ## Saves and rewrites -/

/-- The read-out that saves and rewrites make leaves eviction alone just under the condition. -/
theorem keepsEviction_touchAll {t : Int} {s : InMemoryStore} (h : s.Lockstep) :
    KeepsEviction t s (touchAll (listed t s) (s.keys ['*'] (Clock.still t)).1) ↔
      s.maxKeys = 1 ∨ UsedInOrder t s := by
  have hr := readOut_touchAll h t
  have hev : evictedKeys (touchAll (listed t s) (s.keys ['*'] (Clock.still t)).1) =
      evictedKeys s :=
    (evictedKeys_touchAll _ _).trans (evictedKeys_keysLoop _ _ _ 0 s)
  have hcursor : (touchAll (listed t s) (s.keys ['*'] (Clock.still t)).1).expiry.raw.cursor =
      s.expiry.raw.cursor :=
    (cursor_touchAll _ _).trans (cursor_keysLoop _ _ _ 0 s)
  constructor
  · intro hk
    refine or_iff_not_imp_left.mpr fun hm => ⟨hr.order_iff.mp hk.order, fun x _ => ?_⟩
    have hroom : 2 ≤ s.maxKeys := by
      have := s.maxKeys_pos
      omega
    refine Bool.eq_false_iff.mpr fun hx => ?_
    obtain ⟨later, hlater, hne⟩ := hr.exists_parting h hev hcursor hroom hx
    exact hne (hk.evicts later hlater)
  · rintro (hm | hc)
    · have hone := hr.oneSlot h hev hm
      exact ⟨hone.liveOrder_eq, fun later hlater => (hone.runs later hlater).evicted⟩
    · exact ⟨hr.order_iff.mpr hc.order, fun later _ =>
        (Twin.runs later (twin_touchAll h hc) h).evicted⟩

/-- For every reachable store and every time, the extraction of a save and that of a
rewrite each leave the order of the live keys and all later evictions as they are just
when there is one slot only, or nothing is due and the keys were used in order; in the
latter case whatever the clocks of the later run read. -/
theorem extraction_keeps_eviction_iff (maxKeys : Nat) (hm : 1 ≤ maxKeys)
    (past : List (Op × Clock)) (t : Int) (s : InMemoryStore)
    (hs : s = runAll (create maxKeys hm) past) :
    (KeepsEviction t s (PersistenceManager.extract s (Clocks.still t)).1 ↔
      maxKeys = 1 ∨ UsedInOrder t s) ∧
    (KeepsEviction t s (AofWriter.rewriteCommands s (Clocks.still t)).1 ↔
      maxKeys = 1 ∨ UsedInOrder t s) ∧
    (UsedInOrder t s → ∀ later : List (Op × Clock),
      evictedKeys (runAll (PersistenceManager.extract s (Clocks.still t)).1 later) =
        evictedKeys (runAll s later) ∧
      evictedKeys (runAll (AofWriter.rewriteCommands s (Clocks.still t)).1 later) =
        evictedKeys (runAll s later)) := by
  have h : s.Lockstep := hs ▸ (lockstep_create maxKeys hm).runAll past
  have hmax : s.maxKeys = maxKeys := hs ▸ maxKeys_runAll (lockstep_create maxKeys hm) past
  rw [rewriteCommands_still h, extract_still h, ← hmax]
  have hiff := keepsEviction_touchAll (t := t) h
  refine ⟨hiff, hiff, fun hc later => ?_⟩
  have ht := (Twin.runs later (twin_touchAll h hc) h).evicted
  exact ⟨ht, ht⟩

def usedInOrder : List (Op × Clock) :=
  [(.set ['a'] ['x'] none, Clock.still 0), (.rpush ['b'] [['x']], Clock.still 1)]

theorem extraction_keeps_eviction_in_order :
    KeepsEviction 2 (runAll (create 2 (by decide)) usedInOrder)
      (PersistenceManager.extract (runAll (create 2 (by decide)) usedInOrder) (Clocks.still 2)).1 :=
  (extraction_keeps_eviction_iff 2 (by decide) usedInOrder 2 _ rfl).1.mpr
    (.inr ⟨by decide, by decide⟩)

/-- Two keys, of which the first was read last. -/
def readLast : List (Op × Clock) := usedInOrder ++ [(.get ['a'], Clock.still 2)]

/-- A save or a rewrite makes the next creation evict `a`, not `b`. -/
theorem extraction_changes_victim :
    evictedKeys (runAt (runAll (create 2 (by decide)) readLast) [(.set ['c'] ['x'] none, 3)]) =
      [['b']] ∧
    evictedKeys (runAt (PersistenceManager.extract (runAll (create 2 (by decide)) readLast)
      (Clocks.still 3)).1 [(.set ['c'] ['x'] none, 3)]) = [['a']] ∧
    evictedKeys (runAt (AofWriter.rewriteCommands (runAll (create 2 (by decide)) readLast)
      (Clocks.still 3)).1 [(.set ['c'] ['x'] none, 3)]) = [['a']] := by
  decide

end MiniStore
