import MiniStore.Lib.Text

/-!
# Regular expressions

The regular expressions made of literals, escaped literals, `.*` and the two anchors, from
their source text (`parse`). `Matches` says what a sequence of terms matches between two
positions of the input, `run` looks for it with backtracking (`run_iff`), and `test` looks
from every position of the input on (`test_iff`). `dot` are the characters that `.` matches.
-/

namespace RegExp

/-- One piece of a regular expression. -/
inductive Term where
  | char (c : Char)
  | dots
  | start
  | stop
  deriving DecidableEq

/-- The characters that mean themselves only behind a backslash. -/
def isSyntax (c : Char) : Bool := "^$\\.*+?()[]\x7b\x7d|".toList.contains c

/-- `none` is a source text outside this fragment, or one that is no regular expression. -/
def parse : List Char → Option (List Term)
  | [] => some []
  | c :: source =>
    if c = '\\' then
      match source with
      | [] => none
      | d :: source => if isSyntax d then (parse source).map (.char d :: ·) else none
    else if c = '.' then
      match source with
      | [] => none
      | d :: source => if d = '*' then (parse source).map (.dots :: ·) else none
    else if c = '^' then (parse source).map (.start :: ·)
    else if c = '$' then (parse source).map (.stop :: ·)
    else if isSyntax c then none
    else (parse source).map (.char c :: ·)

@[simp] theorem parse_start (source : List Char) :
    parse ('^' :: source) = (parse source).map (.start :: ·) := by
  cases source <;> rfl

@[simp] theorem parse_dots (source : List Char) :
    parse ('.' :: '*' :: source) = (parse source).map (.dots :: ·) := rfl

theorem parse_escaped {c : Char} (h : isSyntax c = true) (source : List Char) :
    parse ('\\' :: c :: source) = (parse source).map (.char c :: ·) := by
  rw [parse, if_pos rfl, if_pos h]

theorem parse_char {c : Char} (h : isSyntax c = false) (source : List Char) :
    parse (c :: source) = (parse source).map (.char c :: ·) := by
  have hne : ∀ d, isSyntax d = true → c ≠ d := by
    rintro d hd rfl
    rw [h] at hd
    cases hd
  have hback := hne '\\' (by decide)
  have hdot := hne '.' (by decide)
  have hstart := hne '^' (by decide)
  have hstop := hne '$' (by decide)
  cases source <;> simp [parse, hback, hdot, hstart, hstop, h]

/-- The terms match a piece that begins behind `before` and ahead of `after`. -/
inductive Matches (dot : Char → Bool) : List Term → Str → Str → Prop
  | nil {before after} : Matches dot [] before after
  | char {ts before c after} : Matches dot ts (before ++ [c]) after →
      Matches dot (.char c :: ts) before (c :: after)
  | dots {ts before w after} : (∀ c ∈ w, dot c = true) → Matches dot ts (before ++ w) after →
      Matches dot (.dots :: ts) before (w ++ after)
  | start {ts after} : Matches dot ts [] after → Matches dot (.start :: ts) [] after
  | stop {ts before} : Matches dot ts before [] → Matches dot (.stop :: ts) before []

/-- Try `rest` here, or else after one more character that `dot` allows. -/
def seek (dot : Char → Bool) (rest : Bool → Str → Bool) : Bool → Str → Bool
  | first, [] => rest first []
  | first, c :: s => rest first (c :: s) || (dot c && seek dot rest false s)

/-- The terms match from here on; `first` says whether this is the start of the input. -/
def run (dot : Char → Bool) : List Term → Bool → Str → Bool
  | [], _, _ => true
  | .char _ :: _, _, [] => false
  | .char c :: ts, _, d :: s => d == c && run dot ts false s
  | .dots :: ts, first, s => seek dot (run dot ts) first s
  | .start :: ts, first, s => first && run dot ts first s
  | .stop :: ts, first, s => s.isEmpty && run dot ts first s

/-- `regex.test(s)` -/
def test (dot : Char → Bool) (ts : List Term) (s : Str) : Bool :=
  seek (fun _ => true) (run dot ts) true s

section

variable {dot : Char → Bool} {ts : List Term} {before s : Str}

/-- What is skipped, and what `rest` accepts after it. -/
theorem seek_iff {rest : Bool → Str → Bool} {first : Bool} : seek dot rest first s = true ↔
    ∃ w after, s = w ++ after ∧ (∀ c ∈ w, dot c = true) ∧
      rest (first && w.isEmpty) after = true := by
  induction s generalizing first with
  | nil =>
    constructor
    · exact fun h => ⟨[], [], rfl, fun c hc => (nomatch hc), by simpa [seek] using h⟩
    · rintro ⟨w, after, e, -, h⟩
      obtain ⟨rfl, rfl⟩ := List.append_eq_nil_iff.mp e.symm
      simpa [seek] using h
  | cons c s ih =>
    rw [seek, Bool.or_eq_true, Bool.and_eq_true, ih]
    constructor
    · rintro (h | ⟨hc, w, after, rfl, hw, h⟩)
      · exact ⟨[], c :: s, rfl, fun c hc => (nomatch hc), by simpa using h⟩
      · exact ⟨c :: w, after, rfl, List.forall_mem_cons.mpr ⟨hc, hw⟩, by simpa using h⟩
    · rintro ⟨w, after, e, hw, h⟩
      cases w with
      | nil =>
        obtain rfl : c :: s = after := e
        exact .inl (by simpa using h)
      | cons d w =>
        obtain ⟨rfl, rfl⟩ := List.cons.inj e
        obtain ⟨hd, hw⟩ := List.forall_mem_cons.mp hw
        exact .inr ⟨hd, w, after, rfl, hw, by simpa using h⟩

theorem run_iff : run dot ts before.isEmpty s = true ↔ Matches dot ts before s := by
  induction ts generalizing before s with
  | nil => exact ⟨fun _ => .nil, fun _ => rfl⟩
  | cons t ts ih =>
    cases t with
    | char c =>
      have hpush : (before ++ [c]).isEmpty = false := by cases before <;> rfl
      cases s with
      | nil => exact ⟨fun h => (nomatch h), fun h => (nomatch h)⟩
      | cons d s =>
        rw [run, Bool.and_eq_true, beq_iff_eq, ← hpush, ih]
        constructor
        · rintro ⟨rfl, h⟩
          exact .char h
        · rintro (_ | h)
          exact ⟨rfl, h⟩
    | dots =>
      have happ : ∀ w : Str, (before.isEmpty && w.isEmpty) = (before ++ w).isEmpty :=
        fun w => by cases before <;> rfl
      rw [run, seek_iff]
      constructor
      · rintro ⟨w, after, rfl, hw, h⟩
        rw [happ, ih] at h
        exact .dots hw h
      · rintro (_ | _ | ⟨hw, h⟩)
        exact ⟨_, _, rfl, hw, by rw [happ, ih]; exact h⟩
    | start =>
      rw [run, Bool.and_eq_true, List.isEmpty_iff]
      constructor
      · rintro ⟨rfl, h⟩
        exact .start (ih.mp h)
      · rintro (_ | _ | _ | h)
        exact ⟨rfl, ih.mpr h⟩
    | stop =>
      rw [run, Bool.and_eq_true, List.isEmpty_iff, ih]
      constructor
      · rintro ⟨rfl, h⟩
        exact .stop h
      · rintro (_ | _ | _ | _ | h)
        exact ⟨rfl, h⟩

theorem test_iff : test dot ts s = true ↔ ∃ before after, s = before ++ after ∧
    Matches dot ts before after := by
  rw [test, seek_iff]
  refine exists_congr fun before => exists_congr fun after => ?_
  rw [Bool.true_and, run_iff]
  simp

/-- A regular expression that begins with `^` is looked for at the start only. -/
theorem test_start : test dot (.start :: ts) s = run dot ts true s := by
  have hrun : run dot ts ([] : Str).isEmpty s = true ↔ Matches dot ts [] s := run_iff
  rw [Bool.eq_iff_iff, test_iff]
  refine Iff.trans ?_ hrun.symm
  constructor
  · rintro ⟨_, after, rfl, _ | _ | _ | h⟩
    exact h
  · exact fun h => ⟨[], s, rfl, .start h⟩

end

end RegExp
