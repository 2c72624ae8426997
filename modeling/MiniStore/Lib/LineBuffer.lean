import MiniStore.Lib.Text

/-!
# A text cut at its line feeds

`splitLf` cuts a text at its first LF. `lfLines` are all lines that end in one, with the
rest after the last; a text that comes in chunks has the lines of what is left of the
earlier chunks and the next one (`lfLines_append`). `units` is the length in UTF-16 code
units.
-/

namespace Text

/-- The length in UTF-16 code units. -/
def units : Str → Nat
  | [] => 0
  | c :: s => (if c.toNat < 0x10000 then 1 else 2) + units s

@[simp] theorem units_append (s t : Str) : units (s ++ t) = units s + units t := by
  induction s with
  | nil => exact (Nat.zero_add _).symm
  | cons c s ih => rw [List.cons_append, units, units, ih, Nat.add_assoc]

/-- What is before the first LF, and what is after it. -/
def splitLf : Str → Option (Str × Str)
  | [] => none
  | c :: s =>
    if c = '\n' then some ([], s) else (splitLf s).map fun split => (c :: split.1, split.2)

/-- The lines that end in LF, and the text after the last. -/
def lfLines : Str → List Str × Str
  | [] => ([], [])
  | c :: s =>
    if c = '\n' then ([] :: (lfLines s).1, (lfLines s).2)
    else
      match (lfLines s).1 with
      | [] => ([], c :: (lfLines s).2)
      | line :: lines => ((c :: line) :: lines, (lfLines s).2)

theorem splitLf_none {s : Str} : splitLf s = none ↔ '\n' ∉ s := by
  induction s with
  | nil => simp [splitLf]
  | cons c s ih =>
    by_cases hc : c = '\n'
    · simp [splitLf, hc]
    · simp [splitLf, hc, ih, Ne.symm hc]

theorem splitLf_some {s line rest : Str} :
    splitLf s = some (line, rest) ↔ s = line ++ '\n' :: rest ∧ '\n' ∉ line := by
  induction s generalizing line with
  | nil => simp [splitLf]
  | cons c s ih =>
    rw [splitLf]
    by_cases hc : c = '\n'
    · rw [if_pos hc]
      constructor
      · intro h
        cases h
        exact ⟨by rw [hc]; rfl, List.not_mem_nil⟩
      · rintro ⟨e, hn⟩
        cases line with
        | nil => rw [(List.cons.inj e).2]
        | cons d line =>
          obtain rfl := (List.cons.inj e).1
          exact absurd (hc ▸ List.mem_cons_self) hn
    · rw [if_neg hc, Option.map_eq_some_iff]
      constructor
      · rintro ⟨⟨line', rest'⟩, hs, e⟩
        cases e
        obtain ⟨rfl, hn⟩ := ih.mp hs
        exact ⟨rfl, fun hm => by
          rcases List.mem_cons.mp hm with e | hm
          · exact hc e.symm
          · exact hn hm⟩
      · rintro ⟨e, hn⟩
        cases line with
        | nil => exact absurd (List.cons.inj e).1 hc
        | cons d line =>
          obtain ⟨rfl, he⟩ := List.cons.inj e
          exact ⟨(line, rest), ih.mpr ⟨he, fun hm => hn (List.mem_cons_of_mem _ hm)⟩, rfl⟩

theorem lfLines_of_not_mem {s : Str} (h : '\n' ∉ s) : lfLines s = ([], s) := by
  induction s with
  | nil => rfl
  | cons c s ih =>
    have hc : c ≠ '\n' := fun e => h (e ▸ List.mem_cons_self)
    rw [lfLines, if_neg hc, ih fun hm => h (List.mem_cons_of_mem _ hm)]

theorem lfLines_line {line : Str} (h : '\n' ∉ line) (rest : Str) :
    lfLines (line ++ '\n' :: rest) = (line :: (lfLines rest).1, (lfLines rest).2) := by
  induction line with
  | nil => rw [List.nil_append, lfLines, if_pos rfl]
  | cons c line ih =>
    have hc : c ≠ '\n' := fun e => h (e ▸ List.mem_cons_self)
    rw [List.cons_append, lfLines, if_neg hc, ih fun hm => h (List.mem_cons_of_mem _ hm)]

/-- The text is its first line and the others, or has no lines. -/
theorem lf_cases (s : Str) :
    ('\n' ∉ s ∧ splitLf s = none) ∨
      ∃ line rest, '\n' ∉ line ∧ s = line ++ '\n' :: rest ∧ splitLf s = some (line, rest) := by
  cases h : splitLf s with
  | none => exact .inl ⟨splitLf_none.mp h, rfl⟩
  | some split =>
    obtain ⟨e, hn⟩ := splitLf_some.mp h
    exact .inr ⟨split.1, split.2, hn, e, rfl⟩

theorem lf_induction {P : Str → Prop} (tail : ∀ s, '\n' ∉ s → P s)
    (line : ∀ line rest, '\n' ∉ line → P rest → P (line ++ '\n' :: rest)) : ∀ s, P s := by
  intro s
  induction h : s.length using Nat.strongRecOn generalizing s with
  | _ n ih =>
    rcases lf_cases s with ⟨hn, -⟩ | ⟨l, rest, hl, rfl, -⟩
    · exact tail s hn
    · refine line l rest hl (ih rest.length ?_ rest rfl)
      rw [List.length_append, List.length_cons] at h
      omega

theorem not_mem_lfLines_snd : ∀ s : Str, '\n' ∉ (lfLines s).2 := by
  refine lf_induction (fun s h => ?_) fun line rest h ih => ?_
  · rw [lfLines_of_not_mem h]
    exact h
  · rw [lfLines_line h]
    exact ih

theorem lfLines_append (t : Str) : ∀ s : Str, lfLines (s ++ t) =
    ((lfLines s).1 ++ (lfLines ((lfLines s).2 ++ t)).1, (lfLines ((lfLines s).2 ++ t)).2) := by
  refine lf_induction (fun s h => ?_) fun line rest h ih => ?_
  · rw [lfLines_of_not_mem h]
    rfl
  · rw [List.append_assoc, List.cons_append, lfLines_line h, lfLines_line h, ih]
    rfl

/-- Every line of a text, with its LF, and the rest are no longer than the text. -/
theorem units_lfLines : ∀ s : Str,
    (∀ line ∈ (lfLines s).1, units line + 1 ≤ units s) ∧ units (lfLines s).2 ≤ units s := by
  refine lf_induction (fun s h => ?_) fun line rest h ih => ?_
  · rw [lfLines_of_not_mem h]
    exact ⟨fun _ hl => absurd hl List.not_mem_nil, Nat.le_refl _⟩
  · have hu : units (line ++ '\n' :: rest) = units line + 1 + units rest := by
      rw [units_append, units, if_pos (by decide), Nat.add_assoc]
    rw [lfLines_line h, hu]
    refine ⟨List.forall_mem_cons.mpr ⟨by omega, fun l hl => ?_⟩, ?_⟩
    · have hle := ih.1 l hl
      omega
    · have hle := ih.2
      dsimp only
      omega

end Text
