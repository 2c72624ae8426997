import MiniStore.Server.Invariants

/-!
# What clients can spell

Commands are made of tokens, so along every run the strings, elements, fields and values
in the store are tokens: not empty and free of white space (`spelled_steps`).
-/

namespace MiniStore

open InMemoryStore Text Engine

/-- All text in the value is made of tokens. -/
def StoredValue.Spelled : StoredValue → Prop
  | .string v => IsToken v
  | .list l => ∀ v ∈ l, IsToken v
  | .hash m => ∀ f v, m.get? f = some v → IsToken f ∧ IsToken v

def Spelled (cells : Str → Option Cell) : Prop := ∀ k c, cells k = some c → c.value.Spelled

namespace InMemoryStore

theorem get?_setPairs_cases {f v : Str} : ∀ (pairs : List (Str × Str)) {m : OrdMap Str Str},
    (setPairs m pairs).1.get? f = some v → m.get? f = some v ∨ (f, v) ∈ pairs
  | [], _, h => .inl h
  | (g, w) :: pairs, m, h => by
    rw [setPairs_cons] at h
    rcases get?_setPairs_cases pairs h with h | h
    · rw [OrdMap.get?_set] at h
      split at h
      · next e =>
        subst e
        cases h
        exact .inr List.mem_cons_self
      · exact .inl h
    · exact .inr (List.mem_cons_of_mem _ h)

theorem get?_of_deleteFields {f v : Str} : ∀ (fields : List Str) {m : OrdMap Str Str},
    (deleteFields m fields).1.get? f = some v → m.get? f = some v
  | [], _, h => h
  | g :: fields, m, h => by
    rw [deleteFields_cons] at h
    have h := get?_of_deleteFields fields h
    rw [OrdMap.get?_delete] at h
    split at h
    · cases h
    · exact h

end InMemoryStore

section

variable {x : Option Cell} (hx : ∀ c ∈ x, c.value.Spelled) {c : Cell}

include hx

theorem spelled_pushCell {addAll : List Str → List Str → List Str} {values : List Str}
    (ha : ∀ l, ∀ v ∈ addAll l values, v ∈ l ∨ v ∈ values) (hv : ∀ v ∈ values, IsToken v)
    (h : (pushCell addAll values x).1.action.onCell x = some c) : c.value.Spelled := by
  rcases x with _ | ⟨_ | l | _, d⟩
  · cases h
    exact fun v hm => hv v ((ha [] v hm).resolve_left List.not_mem_nil)
  · cases h
    exact hx _ rfl
  · cases h
    intro v hm
    rcases ha l v hm with hm | hm
    · exact hx _ rfl v hm
    · exact hv v hm
  · cases h
    exact hx _ rfl

theorem spelled_popCell {take : List Str → Option Str × List Str}
    (ht : ∀ l, ∀ v ∈ (take l).2, v ∈ l)
    (h : (popCell take x).1.action.onCell x = some c) : c.value.Spelled := by
  rcases x with _ | ⟨_ | l | _, d⟩
  · cases h
  · cases h
    exact hx _ rfl
  · simp only [popCell] at h
    split at h
    · cases h
    · cases h
      exact fun v hm => hx _ rfl v (ht l v hm)
  · cases h
    exact hx _ rfl

theorem spelled_hsetCell {pairs : List (Str × Str)}
    (hp : ∀ p ∈ pairs, IsToken p.1 ∧ IsToken p.2)
    (h : (hsetCell pairs x).1.action.onCell x = some c) : c.value.Spelled := by
  rcases x with _ | ⟨_ | _ | m, d⟩
  · cases h
    intro f v hm
    rcases get?_setPairs_cases pairs hm with hm | hm
    · cases hm
    · exact hp _ hm
  · cases h
    exact hx _ rfl
  · cases h
    exact hx _ rfl
  · cases h
    intro f v hm
    rcases get?_setPairs_cases pairs hm with hm | hm
    · exact hx _ rfl f v hm
    · exact hp _ hm

theorem spelled_hdelCell {fields : List Str}
    (h : (hdelCell fields x).1.action.onCell x = some c) : c.value.Spelled := by
  rcases x with _ | ⟨_ | _ | m, d⟩
  · cases h
  · cases h
    exact hx _ rfl
  · cases h
    exact hx _ rfl
  · have hrest : ∀ f v, (deleteFields m fields).1.get? f = some v → IsToken f ∧ IsToken v :=
      fun f v hm => hx _ rfl f v (get?_of_deleteFields fields hm)
    simp only [hdelCell] at h
    split at h
    · cases h
    · split at h
      · cases h
        exact hrest
      · cases h
        exact hx _ rfl

theorem Command.mutation_spelled {cmd : Command} (hc : cmd.WF) {now : Clock} {key : Str}
    {f : Option Cell → Effect × Bool} (hm : cmd.mutation now = some (key, f))
    (h : (f x).1.action.onCell x = some c) : c.value.Spelled := by
  cases cmd with
  | set => cases hm; cases h; exact hc.2.1
  | del =>
    cases hm
    cases x with
    | none => cases h
    | some _ => cases h
  | expire =>
    cases hm
    cases x with
    | none => cases h
    | some c' => cases h; exact hx c' rfl
  | persist =>
    cases hm
    rcases x with _ | ⟨v, _ | d⟩
    · cases h
    · cases h; exact hx _ rfl
    · cases h; exact hx ⟨v, some d⟩ rfl
  | lpush =>
    cases hm
    refine spelled_pushCell hx (fun l v hv => ?_) hc.2.2 h
    rw [unshiftAll_eq, List.mem_append, List.mem_reverse] at hv
    exact hv.symm
  | rpush =>
    cases hm
    refine spelled_pushCell hx (fun l v hv => ?_) hc.2.2 h
    rwa [pushAll_eq, List.mem_append] at hv
  | lpop =>
    cases hm
    exact spelled_popCell hx (fun l v hv => List.mem_of_mem_tail hv) h
  | rpop =>
    cases hm
    exact spelled_popCell hx (fun l v hv => (List.dropLast_sublist l).subset hv) h
  | hset => cases hm; exact spelled_hsetCell hx hc.2.2 h
  | hdel => cases hm; exact spelled_hdelCell hx h
  | _ => cases hm

end

theorem spelled_perform {s : InMemoryStore} (hL : s.Lockstep) (hs : Spelled s.cell) {cmd : Command}
    (hc : cmd.WF) {now : Clock} {key : Str} {f : Option Cell → Effect × Bool}
    (hm : cmd.mutation now = some (key, f)) : Spelled (s.perform key now f).1.cell := by
  intro k c hk
  by_cases e : k = key
  · rw [e, hL.cell_perform_self] at hk
    exact Command.mutation_spelled (fun c' hc' => hs key c' (liveAt_eq_some.mp hc').1) hc hm hk
  · rcases hL.cell_perform_other e with e' | e'
    · exact hs k c (e' ▸ hk)
    · rw [e'] at hk
      cases hk

theorem InMemoryStore.Decays.spelled {T : Int → Prop} {s s' : InMemoryStore} (hd : Decays T s s')
    (hs : Spelled s.cell) : Spelled s'.cell := by
  intro k c hc
  rcases hd.cell k with e | ⟨e, -⟩
  · exact hs k c (e ▸ hc)
  · rw [e] at hc
    cases hc

/-! ## What commands leave -/

namespace InMemoryStore

/-- Nothing is empty, and all is spelled. -/
structure Legible (maxKeys : Nat) (s : InMemoryStore) : Prop where
  lockstep : s.Lockstep
  maxKeys : s.maxKeys = maxKeys
  noEmpty : NoEmpty s
  token : ∀ k, s.cell k ≠ none → IsToken k
  spelled : Spelled s.cell

theorem legible_create (maxKeys : Nat) (hm : 1 ≤ maxKeys) : Legible maxKeys (create maxKeys hm) :=
  ⟨lockstep_create maxKeys hm, rfl, fun _ _ hc => (nomatch hc), fun _ hk => absurd rfl hk,
    fun _ _ hc => nomatch hc⟩

section

variable {maxKeys : Nat} {s : InMemoryStore} (H : Legible maxKeys s)

include H

theorem Legible.decays {T : Int → Prop} {s' : InMemoryStore} (hd : Decays T s s') :
    Legible maxKeys s' :=
  ⟨hd.lockstep, hd.maxKeys.trans H.maxKeys, hd.noEmpty H.noEmpty,
    fun k hk => H.token k (hd.cell_ne_none hk), hd.spelled H.spelled⟩

theorem Legible.perform {c : Command} (hc : c.WF) {now : Clock} {key : Str}
    {f : Option Cell → Effect × Bool} (hm : c.mutation now = some (key, f)) :
    Legible maxKeys (s.perform key now f).1 :=
  ⟨H.lockstep.perform (Command.mutation_fits hm), H.lockstep.maxKeys_perform.trans H.maxKeys,
    noEmpty_perform H.lockstep H.noEmpty hc hm, isToken_perform H.lockstep H.token hc hm,
    spelled_perform H.lockstep H.spelled hc hm⟩

end

end InMemoryStore

namespace Engine

theorem spelled_steps {maxKeys : Nat} {h0 : Engine} (h0s : Sound maxKeys h0)
    (hstart : Spelled h0.store.cell) {ms : List Moment} {h : Engine}
    (hs : Engine.Steps h0 ms h) : Spelled h.store.cell :=
  steps_rule (P := fun _ s _ => Spelled s.cell) (φ := fun _ _ => True) h0s hstart
    (fun _ _ _ _ _ _ hS hP _ hp hm => spelled_perform hS.lockstep hP (wf_of_parseCommand hp) hm)
    (fun _ _ _ _ _ _ hP _ _ hd => hd.spelled hP) hs fun _ _ _ _ => trivial

end Engine

end MiniStore
