import MiniStore.Store.AofWriter

/-!
# Extraction changes no live key

`save` and `rewrite` read the whole store through its own operations. Reading
drops keys that are due and touches others (`Decays`); nothing else.
-/

namespace MiniStore

open InMemoryStore

def Clocks.Reads (clocks : Clocks) (t : Int) : Prop := ∃ i j, clocks i j = t

namespace InMemoryStore

section

variable {T : Int → Prop} {s : InMemoryStore} (h : s.Lockstep) (key : Str) {now : Clock}
  (ht : T (now 0))

include h ht

theorem Lockstep.decays_get : Decays T s (s.get key now).1 := by
  rw [get_eq]
  exact h.decays_read key fits_getCell reads_getCell ht

theorem Lockstep.decays_keyType : Decays T s (s.keyType key now).1 := by
  rw [keyType_eq]
  exact h.decays_read key (fun _ => trivial) (fun _ => .inl rfl) ht

theorem Lockstep.decays_exists : Decays T s (s.exists key now).1 := by
  rw [InMemoryStore.exists_eq]
  exact h.decays_read key (fun _ => trivial) (fun _ => .inl rfl) ht

theorem Lockstep.decays_ttl : Decays T s (s.ttl key now).1 := by
  rw [ttl_eq]
  exact h.decays_read key fits_ttlCell (reads_ttlCell _) ht

theorem Lockstep.decays_readAs {α β : Type} (payload : StoredValue → Option β) (absent : α)
    (read : β → α) : Decays T s (readAs payload absent read s key now).1 := by
  rw [readAs_eq]
  exact h.decays_read key fits_readCell (reads_readCell payload absent read) ht

end

variable {T : Int → Prop} {clocks : Clocks}

/-- The value of a key is read by one reading operation. -/
theorem readValue_reads (s : InMemoryStore) (key : Str) (now : Clock) (type : ValueType) :
    ∃ (α : Type) (f : Option Cell → Effect × α), (∀ c, (f c).1.Fits c) ∧
      (∀ c, (f c).1 = .keep ∨ (f c).1 = .touch) ∧
      (PersistenceManager.readValue s key now type).1 = (s.perform key now f).1 := by
  cases type with
  | string => exact ⟨_, getCell, fits_getCell, reads_getCell, by rw [← get_eq]; rfl⟩
  | list =>
    refine ⟨_, _, fits_readCell, reads_readCell StoredValue.asList [] (slice 0 (-1)), ?_⟩
    rw [← readAs_eq, PersistenceManager.readValue, lrange]
    split
    · next hr => rw [hr]
    · next hr => rw [hr]
  | hash =>
    refine ⟨_, _, fits_readCell, reads_readCell StoredValue.asHash []
      (fun map => map.entries.flatMap fun e => [e.1, e.2]), ?_⟩
    rw [← readAs_eq, PersistenceManager.readValue, hgetall]
    split
    · next hr => rw [hr]
    · next hr => rw [hr]

theorem decays_readValue {s : InMemoryStore} (h : s.Lockstep) (key : Str) {now : Clock}
    (ht : T (now 0)) (type : ValueType) :
    Decays T s (PersistenceManager.readValue s key now type).1 := by
  obtain ⟨_, f, hfits, hreads, e⟩ := readValue_reads s key now type
  rw [e]
  exact h.decays_read key hfits hreads ht

theorem decays_saveKey {s : InMemoryStore} (h : s.Lockstep) (ht : ∀ i j, T (clocks i j)) (i : Nat)
    (key : Str) (dump : Dump) :
    Decays T s (PersistenceManager.saveKey clocks i key s dump).1 := by
  have h1 := h.decays_keyType key (ht i 0)
  unfold PersistenceManager.saveKey
  rcases hk : s.keyType key (clocks i) with ⟨s1, _ | type⟩
  · rw [hk] at h1; exact h1
  · rw [hk] at h1
    have h2 := decays_readValue h1.lockstep key (ht (i + 1) 0) type
    simp only
    rcases hv : PersistenceManager.readValue s1 key (clocks (i + 1)) type with ⟨s2, _ | value⟩
    · rw [hv] at h2; exact h1.trans h2
    · rw [hv] at h2
      exact (h1.trans h2).trans (h2.lockstep.decays_ttl key (ht (i + 2) 0))

theorem decays_saveLoop (ht : ∀ i j, T (clocks i j)) : ∀ (keys : List Str) (i : Nat)
    {s : InMemoryStore} (dump : Dump), s.Lockstep →
      Decays T s (PersistenceManager.saveLoop clocks keys i s dump).1
  | [], _, _, _, h => h.decays_refl
  | key :: keys, i, _, dump, h =>
    have h1 := decays_saveKey h ht i key dump
    h1.trans (decays_saveLoop ht keys (i + 3) _ h1.lockstep)

theorem Lockstep.decays_extract {s : InMemoryStore} (h : s.Lockstep)
    (ht : ∀ i j, T (clocks i j)) : Decays T s (PersistenceManager.extract s clocks).1 := by
  have h1 := h.decays_keys ['*'] (ht 0)
  exact h1.trans (decays_saveLoop ht _ 1 _ h1.lockstep)

theorem Lockstep.decays_save {s : InMemoryStore} (h : s.Lockstep) (ht : ∀ i j, T (clocks i j))
    (pm : PersistenceManager) : Decays T s (pm.save s clocks).2.1 := by
  unfold PersistenceManager.save
  split
  · exact h.decays_refl
  · exact h.decays_extract ht

theorem decays_rewriteKey {s : InMemoryStore} (h : s.Lockstep) (ht : ∀ i j, T (clocks i j))
    (i : Nat) (key : Str) : Decays T s (AofWriter.rewriteKey clocks i key s).1 := by
  have h1 := h.decays_keyType key (ht i 0)
  unfold AofWriter.rewriteKey
  rcases hk : s.keyType key (clocks i) with ⟨s1, _ | type⟩
  · rw [hk] at h1; exact h1
  · rw [hk] at h1
    have h2 := h1.trans (h1.lockstep.decays_ttl key (ht (i + 1) 0))
    simp only
    rcases hv : s1.ttl key (clocks (i + 1)) with ⟨s2, ttl⟩
    rw [hv] at h2
    simp only
    cases type with
    | string =>
      have h3 := h2.trans (h2.lockstep.decays_get key (ht (i + 2) 0))
      simp only
      rcases hg : s2.get key (clocks (i + 2)) with ⟨s3, _ | v⟩
      · rw [hg] at h3; exact h3
      · rw [hg] at h3; simp only; split <;> exact h3
    | list =>
      have h3 := h2.trans (h2.lockstep.decays_readAs key (ht (i + 2) 0) StoredValue.asList []
        (slice 0 (-1)))
      simp only [lrange]
      rcases hg : readAs StoredValue.asList [] (slice 0 (-1)) s2 key (clocks (i + 2)) with
        ⟨s3, _ | v⟩ <;> rw [hg] at h3 <;> exact h3
    | hash =>
      have h3 := h2.trans (h2.lockstep.decays_readAs key (ht (i + 2) 0) StoredValue.asHash []
        (fun map => map.entries.flatMap fun e => [e.1, e.2]))
      simp only [hgetall]
      rcases hg : readAs StoredValue.asHash [] (fun map => map.entries.flatMap fun e => [e.1, e.2])
        s2 key (clocks (i + 2)) with ⟨s3, _ | v⟩ <;> rw [hg] at h3 <;> exact h3

theorem decays_rewriteLoop (ht : ∀ i j, T (clocks i j)) : ∀ (keys : List Str) (i : Nat)
    {s : InMemoryStore}, s.Lockstep → Decays T s (AofWriter.rewriteLoop clocks keys i s).1
  | [], _, _, h => h.decays_refl
  | key :: keys, i, _, h =>
    have h1 := decays_rewriteKey h ht i key
    h1.trans (decays_rewriteLoop ht keys (i + 3) h1.lockstep)

theorem Lockstep.decays_rewriteCommands {s : InMemoryStore} (h : s.Lockstep)
    (ht : ∀ i j, T (clocks i j)) : Decays T s (AofWriter.rewriteCommands s clocks).1 := by
  have h1 := h.decays_keys ['*'] (ht 0)
  exact h1.trans (decays_rewriteLoop ht _ 1 h1.lockstep)

theorem Lockstep.decays_rewrite {s : InMemoryStore} (h : s.Lockstep)
    (ht : ∀ i j, T (clocks i j)) (w : AofWriter) : Decays T s (w.rewrite s clocks).2 := by
  unfold AofWriter.rewrite
  split
  · exact h.decays_refl
  · exact h.decays_rewriteCommands ht

end InMemoryStore

end MiniStore
