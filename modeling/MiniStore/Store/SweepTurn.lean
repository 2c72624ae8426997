import MiniStore.Store.Evicted
import MiniStore.Store.SweepCoverage

/-!
# A stored key that is due turns the sweep

The sweep examines the tracked keys in turn, so what it finds depends on what else was tracked
when it came by. Of two stores with room for two keys, one that holds a due key and nothing else
and one that holds nothing, a later run evicts a key from one of them only (`exists_parting`):
SET `p` with a distant deadline, let the sweep take the due key, and the cursor stands on `p` in
the store that was empty and behind it in the other. So when a second key `q` falls due the next
tick takes it from one store only, and in the other it fills a slot.
-/

namespace MiniStore

open InMemoryStore RoundRobin

namespace ExpiryManager

theorem cursor_clear (t : ExpiryManager) (key : Str) : (t.clear key).raw.cursor = t.raw.cursor := by
  show (t.raw.clear key).1.cursor = _
  unfold Raw.clear
  split <;> rfl

theorem cursor_assign (t : ExpiryManager) (key : Str) (d : Option Int) :
    (t.assign key d).raw.cursor = t.raw.cursor := by
  cases d with
  | none => exact cursor_clear t key
  | some d =>
    show (t.raw.set key d).cursor = _
    unfold Raw.set
    split <;> rfl

/-- A key that is not tracked goes to the end of the array. -/
theorem keys_set_new {t : ExpiryManager} {key : Str} (h : t.deadline key = none) (d : Int) :
    (t.set key d).raw.keys = t.raw.keys ++ [key] := by
  have hno : t.raw.expiresAt.has key = false := OrdMap.has_eq_false_iff.mpr h
  show (t.raw.set key d).keys = _
  rw [Raw.set, if_neg (by simp [hno])]

/-- A sample of one examines the key at the cursor. -/
theorem collectExpired_one {t : ExpiryManager} {key : Str} (now : Int)
    (hkey : t.raw.keys[t.raw.start]? = some key) :
    (t.collectExpired now 1).1.raw.cursor = (t.raw.start + 1) % t.raw.keys.length ∧
      (t.collectExpired now 1).1.raw.keys = t.raw.keys ∧
      (t.collectExpired now 1).2 = if t.isExpired key now then [key] else [] := by
  have hlt := (List.getElem?_eq_some_iff.mp hkey).1
  have hn : 0 < t.raw.keys.length := by omega
  have hw : t.raw.collectExpired now 1 = _ := Raw.collectExpired_window hn (Nat.le_refl 1)
  have hone : min 1 t.raw.keys.length = 1 := Nat.min_eq_left hn
  have hturn : window t.raw.keys.length t.raw.start 1 = [t.raw.start] := by
    rw [window_succ, Nat.mod_eq_of_lt hlt]
    rfl
  rw [hone, hturn] at hw
  have hfound : t.raw.expiredAt now [t.raw.start] = if t.isExpired key now then [key] else [] := by
    rw [Raw.expiredAt, List.filterMap_cons_some hkey]
    cases hx : t.isExpired key now with
    | true => exact List.filter_cons_of_pos hx
    | false => exact List.filter_cons_of_neg (Bool.eq_false_iff.mp hx)
  exact ⟨congrArg (fun r => r.1.cursor) hw, congrArg (fun r => r.1.keys) hw,
    (congrArg Prod.snd hw).trans hfound⟩

end ExpiryManager

namespace InMemoryStore

/-! ## What leaves the cursor alone -/

theorem cursor_removeKey (s : InMemoryStore) (key : Str) :
    (s.removeKey key).expiry.raw.cursor = s.expiry.raw.cursor := by
  unfold removeKey
  split
  · exact ExpiryManager.cursor_clear s.expiry key
  · rfl

theorem cursor_purge (s : InMemoryStore) (key : Str) (now : Int) :
    (s.purge key now).expiry.raw.cursor = s.expiry.raw.cursor := by
  rcases purge_cases s key now with e | ⟨e, -⟩
  · rw [e]
  · rw [e]
    exact cursor_removeKey s key

theorem cursor_dropAll : ∀ (ks : List Str) (s : InMemoryStore),
    (ks.foldl InMemoryStore.drop s).expiry.raw.cursor = s.expiry.raw.cursor
  | [], _ => rfl
  | key :: ks, s => (cursor_dropAll ks (s.drop key)).trans (cursor_removeKey s key)

theorem cursor_keysLoop (test : Str → Bool) (now : Clock) : ∀ (ks : List Str) (i : Nat)
    (s : InMemoryStore), (keysLoop test now ks i s).1.expiry.raw.cursor = s.expiry.raw.cursor
  | [], _, _ => rfl
  | key :: ks, i, s =>
    (cursor_keysLoop test now ks (i + 1) _).trans (cursor_purge s key (now i))

/-! ## Deleting keys -/

/-- `s'` is `s` without `ks`, which a client deleted. -/
structure Deleted (ks : List Str) (s s' : InMemoryStore) : Prop where
  lockstep : s'.Lockstep
  maxKeys : s'.maxKeys = s.maxKeys
  cell : ∀ k, s'.cell k = if k ∈ ks then none else s.cell k
  cursor : s'.expiry.raw.cursor = s.expiry.raw.cursor
  evicted : evictedKeys s' = evictedKeys s

def deleteAll (t : Int) (ks : List Str) : List (Op × Clock) :=
  ks.map fun k => (.del k, Clock.still t)

theorem deleted_del {s : InMemoryStore} (h : s.Lockstep) (key : Str) (t : Int) :
    Deleted [key] s ((Op.del key).run s (Clock.still t)).1 := by
  have hp := h.purge key t
  have he : (Op.del key).effect (Clock.still t) = some (key, fun c => (delCell c).1) := rfl
  have hrun : ((Op.del key).run s (Clock.still t)).1 =
      (s.purge key t).commit key t (delCell ((s.purge key t).cell key)).1 := Op.run_effect h he
  have hcell : ∀ k, k ≠ key → (s.purge key t).cell k = s.cell k := fun k hk => by
    rw [h.cell_purge, if_neg hk]
  refine ⟨h.run _ _, maxKeys_run h _ _, fun k => ?_, ?_, ?_⟩ <;> rw [hrun]
  · cases hc : (s.purge key t).cell key with
    | none =>
      by_cases hk : k = key
      · subst hk
        exact hc.trans (if_pos (List.mem_singleton.mpr rfl)).symm
      · rw [if_neg (fun hm => hk (List.mem_singleton.mp hm))]
        exact hcell k hk
    | some c =>
      show ((s.purge key t).removeKey key).cell k = _
      rw [hp.cell_removeKey]
      by_cases hk : k = key
      · rw [if_pos hk, if_pos (List.mem_singleton.mpr hk)]
      · rw [if_neg hk, if_neg (fun hm => hk (List.mem_singleton.mp hm)), hcell k hk]
  · cases (s.purge key t).cell key with
    | none => exact cursor_purge s key t
    | some c => exact (cursor_removeKey _ key).trans (cursor_purge s key t)
  · rw [evictedKeys_commit hp, evictedKeys_purge]
    cases (s.purge key t).cell key <;> exact List.append_nil _

theorem deleted_runAll (t : Int) : ∀ (ks : List Str) {s : InMemoryStore}, s.Lockstep →
    Deleted ks s (runAll s (deleteAll t ks))
  | [], s, h => ⟨h, rfl, fun k => by simp [deleteAll, runAll], rfl, rfl⟩
  | key :: ks, s, h => by
    have h1 := deleted_del h key t
    have hrest := deleted_runAll t ks h1.lockstep
    refine ⟨hrest.lockstep, hrest.maxKeys.trans h1.maxKeys, fun k => (hrest.cell k).trans ?_,
      hrest.cursor.trans h1.cursor, hrest.evicted.trans h1.evicted⟩
    rw [h1.cell]
    by_cases hk : k ∈ ks <;> by_cases e : k = key <;> simp [hk, e]

/-! ## Stages of a run -/

/-- A store in which every key carries a deadline, that of `deadline`. -/
structure Arranged (deadline : Str → Int) (m : Nat) (e used track : List Str) (place : Nat)
    (s : InMemoryStore) : Prop where
  lockstep : s.Lockstep
  maxKeys : s.maxKeys = m
  evicted : evictedKeys s = e
  order : s.lru.order = used
  tracked : s.expiry.raw.keys = track
  cursor : s.expiry.raw.cursor = place
  due : ∀ k ∈ used, s.expiry.deadline k = some (deadline k)

theorem eq_singleton_of_mem {l : List Str} (hn : l.Nodup) {x : Str} (h : ∀ k, k ∈ l ↔ k = x) :
    l = [x] :=
  List.perm_singleton.mp ((List.perm_ext_iff_of_nodup hn (List.nodup_singleton x)).mpr fun k =>
    (h k).trans List.mem_singleton.symm)

section

variable {deadline : Str → Int} {m : Nat} {e used track : List Str} {place : Nat}
  {s : InMemoryStore}

theorem arranged_nil (h : s.Lockstep) (hc : ∀ k, s.cell k = none) :
    Arranged deadline s.maxKeys (evictedKeys s) [] [] s.expiry.raw.cursor s := by
  refine ⟨h, rfl, rfl, ?_, ?_, rfl, fun k hk => absurd hk List.not_mem_nil⟩
  · refine List.eq_nil_iff_forall_not_mem.mpr fun k hk => ?_
    exact (h.view_wf.mem k).mp hk (hc k)
  · refine List.eq_nil_iff_forall_not_mem.mpr fun k hk => ?_
    obtain ⟨d, hd⟩ := (ExpiryManager.mem_keys _).mp hk
    exact has_iff_cell.mp (h.deadlines k d hd) (hc k)

theorem arranged_single (h : s.Lockstep) {x : Str} (hx : s.expiry.deadline x = some (deadline x))
    (hc : ∀ k, k ≠ x → s.cell k = none) :
    Arranged deadline s.maxKeys (evictedKeys s) [x] [x] s.expiry.raw.cursor s := by
  have hcx : s.cell x ≠ none := has_iff_cell.mp (h.deadlines x _ hx)
  have honly : ∀ k, s.cell k ≠ none ↔ k = x := fun k =>
    ⟨fun hk => by_contra fun hne => hk (hc k hne), fun hk => hk ▸ hcx⟩
  have hdx : ∀ k, k ∈ s.expiry.raw.keys ↔ k = x := fun k => by
    rw [ExpiryManager.mem_keys]
    refine ⟨fun ⟨d, hd⟩ => ?_, fun hk => ⟨_, hk ▸ hx⟩⟩
    exact (honly k).mp (has_iff_cell.mp (h.deadlines k d hd))
  refine ⟨h, rfl, rfl, ?_, ?_, rfl, fun k hk => List.mem_singleton.mp hk ▸ hx⟩
  · exact eq_singleton_of_mem s.lru.nodup_order fun k => (h.view_wf.mem k).trans (honly k)
  · exact eq_singleton_of_mem s.expiry.wf.indexed.nodup hdx

variable (h : Arranged deadline m e used track place s)

include h

theorem Arranged.isExpired {k : Str} (hk : k ∈ used) (u : Int) :
    s.expiry.isExpired k u = decide (deadline k ≤ u) := by
  rw [Bool.eq_iff_iff, ExpiryManager.isExpired_eq, h.due k hk, decide_eq_true_iff]
  exact ⟨fun ⟨d, hd, hle⟩ => Option.some.inj hd ▸ hle, fun hle => ⟨_, rfl, hle⟩⟩

theorem Arranged.start_eq :
    s.expiry.raw.start = if place ≥ track.length then 0 else place := by
  rw [ExpiryManager.Raw.start, h.tracked, h.cursor]

theorem Arranged.set {key : Str} (hnew : key ∉ used) (hroom : used.length < m) {t : Int} {n : Nat}
    (hd : deadline key = t + n * 1000) :
    Arranged deadline m e (key :: used) (track ++ [key]) place
      ((Op.set key [] (some n)).run s (Clock.still t)).1 := by
  have hL := h.lockstep
  have hk : s.cell key = none := by
    by_contra hc
    exact hnew (h.order ▸ (hL.view_wf.mem key).mpr hc)
  have hroom' : s.lru.order.length < s.maxKeys := by rwa [h.order, h.maxKeys]
  have hkd : s.expiry.deadline key = none := hL.deadline_none (cell_eq_none.mp hk)
  obtain ⟨horder, -, hev⟩ := set_new_free hL hk t (some n) hroom'
  have hmake : s.reserveSlotFor key t = s := by
    rcases hL.reserveSlotFor_cases key t with ⟨-, hsame⟩ | ⟨v, hv, -⟩
    · exact hsame
    · rw [(LruCache.victim_eq_none s.maxKeys_pos).mpr (.inr hroom')] at hv
      cases hv
  have hexpiry : ((Op.set key [] (some n)).run s (Clock.still t)).1.expiry =
      s.expiry.set key (deadline key) := by
    rw [run_set_new hL hk, hd, ← congrArg InMemoryStore.expiry hmake]
    rfl
  refine ⟨hL.run _ _, (maxKeys_run hL _ _).trans h.maxKeys, hev.trans h.evicted, ?_, ?_, ?_,
    fun k hm => ?_⟩
  · rw [horder, h.order]
  · rw [hexpiry, ExpiryManager.keys_set_new hkd, h.tracked]
  · rw [hexpiry]
    exact (ExpiryManager.cursor_assign s.expiry key (some (deadline key))).trans h.cursor
  · rw [hexpiry, ExpiryManager.deadline_set]
    by_cases hkey : k = key
    · rw [if_pos hkey, hkey]
    · rw [if_neg hkey]
      exact h.due k (List.mem_of_ne_of_mem hkey hm)

theorem Arranged.tick {key : Str} (hkey : track[s.expiry.raw.start]? = some key) (u : Int) :
    Reclaims 1 u s (if s.expiry.isExpired key u then [key] else [])
        ((s.sweepExpired 1 (Clock.still u))) ∧
      (s.tick 1 u).expiry.raw.cursor = (s.expiry.raw.start + 1) % track.length ∧
      (s.tick 1 u).maxKeys = m ∧ evictedKeys (s.tick 1 u) = e := by
  have hL := h.lockstep
  rw [← h.tracked] at hkey
  obtain ⟨hcursor, -, hfound⟩ := ExpiryManager.collectExpired_one u hkey
  have hr := hL.reclaims u (Nat.le_refl 1)
  refine ⟨?_, ?_, (maxKeys_run hL (.sweepExpired 1) (Clock.still u)).trans h.maxKeys,
    (evictedKeys_sweep s _ _).trans h.evicted⟩
  · rw [← hfound]
    exact hr
  · rw [InMemoryStore.tick, sweepExpired_fst, cursor_dropAll, ← h.tracked]
    exact hcursor

/-- A tick over a key that is not due moves the cursor. -/
theorem Arranged.tick_live {key : Str} (hkey : track[s.expiry.raw.start]? = some key) {u : Int}
    (hmem : key ∈ used) (hlive : u < deadline key) :
    Arranged deadline m e used track ((s.expiry.raw.start + 1) % track.length) (s.tick 1 u) := by
  obtain ⟨hr, hcursor, hmax, hev⟩ := h.tick hkey u
  have hx : s.expiry.isExpired key u = false := by
    rw [h.isExpired hmem, decide_eq_false_iff_not]
    omega
  rw [if_neg (by simp [hx])] at hr
  have htracked : (s.tick 1 u).expiry.raw.keys = s.expiry.raw.keys := by
    obtain ⟨-, hkeys, hfound⟩ := ExpiryManager.collectExpired_one u (h.tracked ▸ hkey)
    rw [if_neg (by simp [hx])] at hfound
    have hsame : s.tick 1 u = s.sample 1 u := by
      show (s.expiry.collectExpired u 1).2.foldl InMemoryStore.drop (s.sample 1 u) = _
      rw [hfound]
      rfl
    rw [hsame]
    exact hkeys
  refine ⟨h.lockstep.tick u, hmax, hev, ?_, htracked.trans h.tracked, hcursor, fun k hk => ?_⟩
  · exact hr.order.trans (by simp [h.order])
  · exact (hr.deadline k).trans (by simp [h.due k hk])

theorem Arranged.tick_due {key y : Str} (hkey : track[s.expiry.raw.start]? = some key) {u : Int}
    (hmem : key ∈ used) (hdue : deadline key ≤ u)
    (hleft : (used.filter fun k => k ≠ key) = [y]) :
    Arranged deadline m e [y] [y] ((s.expiry.raw.start + 1) % track.length) (s.tick 1 u) := by
  obtain ⟨hr, hcursor, hmax, hev⟩ := h.tick hkey u
  have hx : s.expiry.isExpired key u = true := by
    rw [h.isExpired hmem]
    exact decide_eq_true hdue
  rw [if_pos hx] at hr
  obtain ⟨hyo, hyk⟩ : y ∈ used ∧ y ≠ key := by
    have hy : y ∈ used.filter fun k => k ≠ key := hleft ▸ List.mem_singleton.mpr rfl
    simpa using hy
  have hL' : (s.tick 1 u).Lockstep := h.lockstep.tick u
  have horder : (s.tick 1 u).lru.order = [y] := by
    refine hr.order.trans ?_
    rw [h.order, ← hleft]
    exact List.filter_congr fun k _ => by simp
  have hyd : (s.tick 1 u).expiry.deadline y = some (deadline y) := by
    refine (hr.deadline y).trans ?_
    rw [if_neg (fun hm => hyk (List.mem_singleton.mp hm)), h.due y hyo]
  have harranged : Arranged deadline _ _ _ _ _ _ := arranged_single hL' hyd fun k hk => by
    by_contra hc
    have hin := (hL'.view_wf.mem k).mpr hc
    exact hk (List.mem_singleton.mp (horder ▸ hin))
  rw [hmax, hev, hcursor] at harranged
  exact harranged

end

/-! ## Two runs that come apart -/

variable {deadline : Str → Int} {m : Nat} {e : List Str} {p q x : Str} {t : Int}
  {s s' : InMemoryStore}

def sweeps (t : Int) (n : Nat) : List (Op × Clock) :=
  List.replicate n (.sweepExpired 1, Clock.still t)

/-- A tick over `p` alone puts the cursor on it again. -/
theorem Arranged.sweeps_alone (hp : t < deadline p) : ∀ (n : Nat) {place : Nat}
    {s : InMemoryStore}, Arranged deadline m e [p] [p] place s →
      Arranged deadline m e [p] [p] 0 (runAll s (sweeps t (n + 1)))
  | n, place, s, h => by
    have hstart : s.expiry.raw.start = 0 := by
      rw [h.start_eq, List.length_singleton]
      split <;> omega
    have hkey : [p][s.expiry.raw.start]? = some p := by rw [hstart]; rfl
    have h1 := h.tick_live hkey (List.mem_singleton.mpr rfl) hp
    have hback : (0 + 1) % [p].length = 0 := Nat.mod_self 1
    rw [hstart, hback] at h1
    cases n with
    | zero => exact h1
    | succ n => exact Arranged.sweeps_alone hp n h1

/-- One tick or two take the key that is due and leave the cursor behind `p`. -/
theorem Arranged.sweeps_due (hne : p ≠ x) (hx : deadline x ≤ t) (hp : t < deadline p)
    {place : Nat} (h : Arranged deadline m e [p, x] [x, p] place s) :
    ∃ n, Arranged deadline m e [p] [p] 1 (runAll s (sweeps t (n + 1))) := by
  have htake : ∀ {place : Nat} {s : InMemoryStore},
      Arranged deadline m e [p, x] [x, p] place s → s.expiry.raw.start = 0 →
        Arranged deadline m e [p] [p] 1 (s.tick 1 t) := by
    intro place s h hstart
    have hkey : [x, p][s.expiry.raw.start]? = some x := by rw [hstart]; rfl
    have h1 := h.tick_due (y := p) hkey (by simp) hx (by simp [hne])
    rwa [hstart] at h1
  by_cases hplace : s.expiry.raw.start = 0
  · exact ⟨0, htake h hplace⟩
  -- the cursor is on `p`: the first tick puts it back
  · have hstart : s.expiry.raw.start = 1 := by
      have hlt := ExpiryManager.Raw.start_lt (t := s.expiry.raw) (by simp [h.tracked])
      rw [h.tracked, List.length_cons, List.length_singleton] at hlt
      omega
    have hkey : [x, p][s.expiry.raw.start]? = some p := by rw [hstart]; rfl
    have h1 := h.tick_live hkey (by simp) hp
    have hback : (1 + 1) % [x, p].length = 0 := Nat.mod_self 2
    rw [hstart, hback] at h1
    have h2 := htake h1 (h1.start_eq.trans (ite_self 0))
    exact ⟨1, h2⟩

/-- SET of a second key, a tick when that is due, and as many new keys as there is room for
besides one. -/
def probe (t : Int) (q : Str) (keys : List Str) : List (Op × Clock) :=
  (.set q [] (some 1), Clock.still t) :: (.sweepExpired 1, Clock.still (t + 1000)) ::
    fill (t + 1000) keys

/-- With the cursor on `p` the tick misses the second key, so `p` is evicted. -/
theorem Arranged.probe {place : Nat} (h : Arranged deadline m e [p] [p] place s)
    (hplace : place < 2) (hp : t + 1000 < deadline p) (hq : deadline q = t + 1000) {keys : List Str}
    (hnd : keys.Nodup) (hkeys : ∀ k ∈ keys, k ≠ p ∧ k ≠ q) (hm : keys.length + 1 = m)
    (hpos : 0 < keys.length) :
    (evictedKeys (runAll s (probe t q keys))).length = e.length + if place = 0 then 1 else 0 := by
  have hne : q ≠ p := fun hqp => by
    rw [← hqp, hq] at hp
    exact absurd hp (Int.lt_irrefl _)
  have h1 : Arranged deadline m e [q, p] _ _ ((Op.set q [] (some 1)).run s (Clock.still t)).1 :=
    h.set (by simpa using hne) (by simp; omega) (by simp [hq])
  show (evictedKeys (runAll (((Op.set q [] (some 1)).run s (Clock.still t)).1.tick 1 (t + 1000))
    (fill (t + 1000) keys))).length = _
  generalize ((Op.set q [] (some 1)).run s (Clock.still t)).1 = s1 at h1 ⊢
  have hstart := h1.start_eq
  -- the keys left by the tick
  obtain ⟨used, track, c, h2, hused⟩ : ∃ used track c,
      Arranged deadline m e used track c (s1.tick 1 (t + 1000)) ∧
        used = if place = 0 then [q, p] else [p] := by
    by_cases h0 : place = 0
    · have hkey : [p, q][s1.expiry.raw.start]? = some p := by rw [hstart, h0]; rfl
      exact ⟨_, _, _, h1.tick_live hkey (by simp) hp, (if_pos h0).symm⟩
    · have hone : place = 1 := by omega
      have hkey : [p, q][s1.expiry.raw.start]? = some q := by rw [hstart, hone]; rfl
      have hleft : ([q, p].filter fun k => k ≠ q) = [p] := by simp [hne.symm]
      exact ⟨_, _, _, h1.tick_due hkey (by simp) (Int.le_of_eq hq) hleft, (if_neg h0).symm⟩
  generalize s1.tick 1 (t + 1000) = s2 at h2 ⊢
  have hfresh : ∀ k ∈ keys, s2.cell k = none := fun k hk => by
    by_contra hc
    have hin := (h2.lockstep.view_wf.mem k).mpr hc
    have hin : k ∈ used := h2.order ▸ hin
    rw [hused] at hin
    have := hkeys k hk
    split at hin <;> simp_all
  have hlive : p ∈ used → (liveAt (t + 1000) (s2.cell p)).isSome = true := fun hin => by
    have hc := has_iff_cell.mp (h2.lockstep.deadlines p _ (h2.due p hin))
    obtain ⟨c, hc⟩ := Option.ne_none_iff_exists'.mp hc
    have hx := isExpired_eq hc (t + 1000)
    rw [h2.isExpired hin, decide_eq_false (by omega)] at hx
    rw [hc, liveAt_some, ← hx]
    rfl
  have hf := (filled_runAll (t := t + 1000) h2.lockstep keys hnd hfresh
    (by rw [h2.maxKeys]; omega)).evicted
  have hone : m - keys.length = 1 := by omega
  rw [h2.evicted, h2.maxKeys, hone, h2.order] at hf
  rw [hf]
  by_cases h0 : place = 0
  · rw [if_pos h0] at hused
    have hpl := hlive (by simp [hused])
    have hleft : ([p].filter fun k => (liveAt (t + 1000) (s2.cell k)).isSome) = [p] :=
      List.filter_cons_of_pos hpl
    rw [hused, if_pos h0, List.drop_one, List.tail_cons, hleft, List.length_singleton]
  · rw [if_neg h0] at hused
    rw [hused, if_neg h0]
    rfl

/-- The deadlines in the run that tells the stores apart. -/
def plan (t : Int) (p q : Str) (d : Int) (k : Str) : Int :=
  if k = p then t + 9 * 1000 else if k = q then t + 1000 else d

/-- A store that holds a due key and nothing else and one that holds nothing, with their cursors at
one place and room for two keys, come apart in some later run. -/
theorem exists_parting (h : s.Lockstep) (h' : s'.Lockstep) (hm : s'.maxKeys = s.maxKeys)
    (hroom : 2 ≤ s.maxKeys) (hcursor : s'.expiry.raw.cursor = s.expiry.raw.cursor)
    (he : evictedKeys s' = evictedKeys s) {d : Int} (hx : s.expiry.deadline x = some d)
    (hd : d ≤ t) (honly : ∀ k, k ≠ x → s.cell k = none) (hnone : ∀ k, s'.cell k = none) :
    ∃ later : List (Op × Clock), (∀ o ∈ later, ∀ i, t ≤ o.2 i) ∧
      evictedKeys (runAll s' later) ≠ evictedKeys (runAll s later) := by
  obtain ⟨names, hnd, hlen, hnew⟩ := exists_fresh [x] (s.maxKeys + 1)
  obtain ⟨p, q, keys, rfl⟩ : ∃ p q keys, names = p :: q :: keys := by
    match names, hlen with
    | [_], hlen => exact absurd hlen (by simp; omega)
    | p :: q :: keys, _ => exact ⟨p, q, keys, rfl⟩
  have hpx : p ≠ x := fun e => hnew p (by simp) (by simp [e])
  have hqx : q ≠ x := fun e => hnew q (by simp) (by simp [e])
  have hpq : p ≠ q := by simp at hnd; tauto
  have hkeys : ∀ k ∈ keys, k ≠ p ∧ k ≠ q := by
    intro k hk
    simp at hnd
    exact ⟨fun e => hnd.1.2 (e ▸ hk), fun e => hnd.2.1 (e ▸ hk)⟩
  have hcount : keys.length + 1 = s.maxKeys := by simpa using hlen
  have hdp : plan t p q d p = t + 9 * 1000 := if_pos rfl
  have hdq : plan t p q d q = t + 1000 := (if_neg hpq.symm).trans (if_pos rfl)
  have hdx : plan t p q d x = d := (if_neg hpx.symm).trans (if_neg hqx.symm)
  have h0 : Arranged (plan t p q d) _ _ _ _ _ s := arranged_single h (by rw [hdx, hx]) honly
  have h0' : Arranged (plan t p q d) _ _ _ _ _ s' := arranged_nil h' hnone
  rw [hm, he, hcursor] at h0'
  -- SET `p`, then the ticks that take the due key
  have h1 := h0.set (n := 9) (by simpa using hpx) (by simp; omega) hdp
  have h1' := h0'.set (n := 9) (by simp) (by simp; omega) hdp
  obtain ⟨n, h2⟩ := h1.sweeps_due (t := t) hpx (by omega) (by omega)
  have h2' := Arranged.sweeps_alone (t := t) (by omega) n h1'
  have hleft := h2.probe (q := q) (t := t) (by omega) (by omega) hdq
    ((hnd.of_cons).of_cons) hkeys hcount (by omega)
  have hright := h2'.probe (q := q) (t := t) (by omega) (by omega) hdq
    ((hnd.of_cons).of_cons) hkeys hcount (by omega)
  refine ⟨(.set p [] (some 9), Clock.still t) :: (sweeps t (n + 1) ++ probe t q keys), ?_, ?_⟩
  · have hfill : ∀ o ∈ fill (t + 1000) keys, ∀ i, t ≤ o.2 i := fun o ho i => by
      obtain ⟨k, -, rfl⟩ := List.mem_map.mp ho
      exact Int.le_add_of_nonneg_right (by decide)
    have hsweeps : ∀ o ∈ sweeps t (n + 1), ∀ i, t ≤ o.2 i := fun o ho i => by
      rw [List.eq_of_mem_replicate ho]
      exact Int.le_refl t
    have hlate : t ≤ t + 1000 := by omega
    simp only [probe, List.mem_cons, List.mem_append]
    rintro o (rfl | ho | rfl | rfl | ho) i
    · exact Int.le_refl t
    · exact hsweeps o ho i
    · exact Int.le_refl t
    · exact hlate
    · exact hfill o ho i
  · intro hsame
    have hrun : ∀ s : InMemoryStore,
        runAll s ((.set p [] (some 9), Clock.still t) :: (sweeps t (n + 1) ++ probe t q keys)) =
          runAll (runAll ((Op.set p [] (some 9)).run s (Clock.still t)).1 (sweeps t (n + 1)))
            (probe t q keys) := fun s => runAll_append ..
    rw [hrun, hrun] at hsame
    rw [hsame, hleft] at hright
    simp at hright

end InMemoryStore

end MiniStore
