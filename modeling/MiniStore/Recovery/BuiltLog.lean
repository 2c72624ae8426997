import Mathlib.Data.List.Infix
import MiniStore.Recovery.Replay

/-!
# What a log builds

The commands of a log one after the other, all at one instant, on a map without bound (`built`). A
line matters to its own key only, so what is built under a key depends on the lines of the key
(`get?_built_filter`). As long as there are never more keys than slots, a replay holds just what
the log builds (`cell_replay_built`).
-/

namespace MiniStore

open InMemoryStore Engine

namespace Recovery

def buildLine (t : Int) (cells : OrdMap Str Cell) (line : Str) : OrdMap Str Cell :=
  match parseCommand line with
  | .error _ => cells
  | .ok command =>
    match command.mutation (Clock.still t) with
    | none => cells
    | some (key, f) =>
      match (f (cells.get? key)).1.action.onCell (cells.get? key) with
      | none => cells.delete key
      | some c => cells.set key c

def built (t : Int) (lines : List Str) : OrdMap Str Cell :=
  lines.foldl (buildLine t) OrdMap.empty

/-- The log never builds more than `n` keys at a time. -/
def BuildsAtMost (n : Nat) (t : Int) (lines : List Str) : Prop :=
  ∀ past, past <+: lines → (built t past).size ≤ n

instance (n : Nat) (t : Int) (lines : List Str) : Decidable (BuildsAtMost n t lines) :=
  decidable_of_iff (∀ past ∈ lines.inits, (built t past).size ≤ n)
    ⟨fun h past hp => h past ((List.mem_inits past lines).mpr hp),
      fun h past hp => h past ((List.mem_inits past lines).mp hp)⟩

theorem built_append_singleton (t : Int) (lines : List Str) (line : Str) :
    built t (lines ++ [line]) = buildLine t (built t lines) line := List.foldl_append

/-! ## Key by key -/

def buildCell (t : Int) (k : Str) (x : Option Cell) (line : Str) : Option Cell :=
  match parseCommand line with
  | .error _ => x
  | .ok command =>
    match command.mutation (Clock.still t) with
    | none => x
    | some (key, f) => if key = k then (f x).1.action.onCell x else x

theorem buildCell_command {t : Int} {line : Str} {c : Command} (hp : parseCommand line = .ok c)
    {key : Str} {f : Option Cell → Effect × Bool} (hm : c.mutation (Clock.still t) = some (key, f))
    (k : Str) (x : Option Cell) :
    buildCell t k x line = if key = k then (f x).1.action.onCell x else x := by
  simp only [buildCell, hp, hm]

theorem get?_buildLine (t : Int) (cells : OrdMap Str Cell) (line k : Str) :
    (buildLine t cells line).get? k = buildCell t k (cells.get? k) line := by
  unfold buildLine buildCell
  cases parseCommand line with
  | error => rfl
  | ok command =>
    dsimp only
    cases command.mutation (Clock.still t) with
    | none => rfl
    | some action =>
      obtain ⟨key, f⟩ := action
      dsimp only
      by_cases hk : key = k
      · subst hk
        rw [if_pos rfl]
        cases (f (cells.get? key)).1.action.onCell (cells.get? key) with
        | none => rw [OrdMap.get?_delete, if_pos rfl]
        | some c => rw [OrdMap.get?_set, if_pos rfl]
      · rw [if_neg hk]
        cases (f (cells.get? key)).1.action.onCell (cells.get? key) with
        | none => rw [OrdMap.get?_delete, if_neg (Ne.symm hk)]
        | some c => rw [OrdMap.get?_set, if_neg (Ne.symm hk)]

theorem get?_built (t : Int) (lines : List Str) (k : Str) :
    (built t lines).get? k = lines.foldl (buildCell t k) none := by
  induction lines using List.reverseRecOn with
  | nil => rfl
  | append_singleton lines line ih =>
    rw [built_append_singleton, get?_buildLine, ih, List.foldl_append]
    rfl

def isOn (k line : Str) : Bool :=
  match parseCommand line with
  | .error _ => false
  | .ok command => (command.mutation (Clock.still 0)).any fun action => action.1 = k

theorem isOn_command {line : Str} {c : Command} (hp : parseCommand line = .ok c) {now : Clock}
    {key : Str} {f : Option Cell → Effect × Bool} (hm : c.mutation now = some (key, f)) (k : Str) :
    isOn k line = decide (key = k) := by
  obtain ⟨f', hm'⟩ := Command.mutation_key hm (Clock.still 0)
  simp only [isOn, hp, hm', Option.any_some]

theorem buildCell_of_not_isOn {k line : Str} (h : isOn k line = false) (t : Int)
    (x : Option Cell) : buildCell t k x line = x := by
  cases hp : parseCommand line with
  | error => simp only [buildCell, hp]
  | ok c =>
    cases hm : c.mutation (Clock.still t) with
    | none => simp only [buildCell, hp, hm]
    | some action =>
      rw [isOn_command hp hm, decide_eq_false_iff_not] at h
      rw [buildCell_command hp hm, if_neg h]

theorem foldl_filter_of_fixes {α β : Type} {step : β → α → β} {p : α → Bool}
    (h : ∀ b a, p a = false → step b a = b) : ∀ (l : List α) (b : β),
      (l.filter p).foldl step b = l.foldl step b
  | [], _ => rfl
  | a :: l, b => by
    rw [List.foldl_cons]
    cases hp : p a with
    | true =>
      rw [List.filter_cons_of_pos hp, List.foldl_cons]
      exact foldl_filter_of_fixes h l _
    | false =>
      rw [List.filter_cons_of_neg (by simp [hp]), h b a hp]
      exact foldl_filter_of_fixes h l b

theorem get?_built_filter (t : Int) (lines : List Str) (k : Str) :
    (built t (lines.filter (isOn k))).get? k = (built t lines).get? k := by
  rw [get?_built, get?_built]
  exact foldl_filter_of_fixes (fun x _ h => buildCell_of_not_isOn h t x) lines none

/-! ## In a store with as many slots -/

/-- An operation after which the key is absent evicts nothing. -/
theorem cell_perform_of_absent {s : InMemoryStore} (h : s.Lockstep) {key : Str} {now : Clock}
    {f : Option Cell → Effect × Bool} (hn : (s.perform key now f).1.cell key = none) {k : Str}
    (hk : k ≠ key) : (s.perform key now f).1.cell k = s.cell k := by
  have hp := h.purge key (now 0)
  have hview := hp.view_commit key (now 1) (f ((s.purge key (now 0)).cell key)).1
  have hcell : (s.perform key now f).1.cell k =
      ((s.purge key (now 0)).view.commit (s.purge key (now 0)).maxKeys key
        (f ((s.purge key (now 0)).cell key)).1.action).cell k := congrArg (LruCache.cell · k) hview
  have hpurged : (s.purge key (now 0)).cell k = s.cell k := by
    rw [h.cell_purge, if_neg hk]
  rcases LruCache.cell_commit_other hk (f ((s.purge key (now 0)).cell key)).1.action with e | e
  · exact (hcell.trans e).trans hpurged
  · -- only a put evicts, and it leaves its key
    obtain ⟨⟨c, hput⟩, -, -⟩ := e
    have hself : (s.perform key now f).1.cell key = some c := by
      show ((s.purge key (now 0)).commit key (now 1) _).cell key = _
      rw [hp.cell_commit_self, hput]
      rfl
    rw [hn] at hself
    cases hself

theorem BuildsAtMost.init {n : Nat} {t : Int} {lines : List Str} {line : Str}
    (h : BuildsAtMost n t (lines ++ [line])) : BuildsAtMost n t lines :=
  fun past hp => h past (hp.trans (List.prefix_append lines [line]))

/-- For every log of mutating commands that never builds more keys than the store has slots: a
replay of the log at one instant leaves just what the log builds. -/
theorem cell_replay_built {maxKeys : Nat} (hm : 1 ≤ maxKeys) (t : Int) (lines : List Str) :
    (∀ l ∈ lines, Mutating l) → BuildsAtMost maxKeys t lines →
      ∀ k, (replay (create maxKeys hm) lines fun _ _ => Clocks.still t).cell k =
        (built t lines).get? k := by
  have h0 := lockstep_create maxKeys hm
  induction lines using List.reverseRecOn with
  | nil => exact fun _ _ _ => rfl
  | append_singleton lines line ih =>
    intro hl hfit k
    have hl' : ∀ l ∈ lines, Mutating l := fun l h => hl l (List.mem_append_left _ h)
    have ih := ih hl' hfit.init
    obtain ⟨c, hp, hc⟩ := hl line (List.mem_append_right _ (List.mem_singleton.mpr rfl))
    obtain ⟨key, f, hmu⟩ : ∃ key f, c.mutation (Clock.still t) = some (key, f) :=
      Command.mutates_iff.mp hc
    have hr := lockstep_replay h0 hl' fun _ _ => Clocks.still t
    have hmax := maxKeys_replay h0 hl' fun _ _ => Clocks.still t
    have hlive := liveAt_replay t h0 (fun _ => rfl) lines hl'
    rw [replay_snoc h0 hl' _ hp hmu, built_append_singleton, get?_buildLine,
      buildCell_command hp hmu]
    generalize replay (create maxKeys hm) lines (fun _ _ => Clocks.still t) = s at *
    have hself : (s.perform key (Clock.still t) f).1.cell key =
        (f (s.cell key)).1.action.onCell (s.cell key) := by
      have hperform : (s.perform key (Clock.still t) f).1.cell key =
          (f (liveAt t (s.cell key))).1.action.onCell (liveAt t (s.cell key)) :=
        hr.cell_perform_self
      rwa [hlive key] at hperform
    by_cases hk : key = k
    · subst hk
      rw [if_pos rfl, ← ih key]
      exact hself
    · rw [if_neg hk, ← ih k]
      cases hnew : (s.perform key (Clock.still t) f).1.cell key with
      | none => exact cell_perform_of_absent hr hnew (Ne.symm hk)
      | some new =>
        -- a key that was absent makes one more, and there is a slot for it
        refine hr.cell_perform_of_room ?_ (Ne.symm hk)
        have hpurge : s.purge key (Clocks.still t 0 0) = s := purge_of_live (hlive key)
        rw [hpurge]
        refine or_iff_not_imp_left.mpr fun hn => ?_
        have habsent : s.cell key = none := by
          by_contra hne
          exact hn hne
        have hadds : buildLine t (built t lines) line = (built t lines).set key new := by
          simp only [buildLine, hp, hmu, ← ih key, ← hself, hnew]
        have hsize : ((built t lines).set key new).size = (built t lines).size + 1 :=
          OrdMap.size_set_of_new (OrdMap.has_eq_false_iff.mpr (by rw [← ih key, habsent]))
        have hbound := hfit _ List.prefix_rfl
        rw [built_append_singleton, hadds, hsize] at hbound
        have hle := hr.size_le_of_subset (l := (built t lines).keys) fun j hj => by
          obtain ⟨c', hc'⟩ := Option.ne_none_iff_exists'.mp hj
          exact OrdMap.mem_keys_iff.mpr ⟨c', by rw [← ih j, hc']⟩
        rw [OrdMap.length_keys] at hle
        have hslots : s.maxKeys = maxKeys := hmax
        omega

end Recovery

end MiniStore
