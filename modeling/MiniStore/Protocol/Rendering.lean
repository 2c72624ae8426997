import MiniStore.Protocol.Printing

/-!
# The text of a command

A command is written as its name and arguments in order, the name and the keyword EX in any
case, with white space between the tokens and around them (`Rendering`). The parser takes
every such text back to the command, and what it accepts it also accepts in the `canonical`
text (`parse_rendering`).
-/

namespace MiniStore

open Text CommandParser

/-- The capital of an ASCII letter. -/
def asciiUpper (c : Char) : Char :=
  if 'a' ≤ c ∧ c ≤ 'z' then Char.ofNat (c.toNat - 32) else c

/-- The same letters in some mix of ASCII case. -/
def SameLetters (t name : Str) : Prop := t.map asciiUpper = name

instance (t name : Str) : Decidable (SameLetters t name) :=
  inferInstanceAs (Decidable (_ = _))

def Rendering (c : Command) (line : Str) : Prop :=
  ∃ name ex lead rest, SameLetters name c.name ∧ SameLetters ex "EX".toList ∧ Blank lead ∧
    Spaced (name :: c.arguments ex) rest ∧ line = lead ++ rest

/-- The name in capitals, and one space between tokens. -/
def Command.canonical (c : Command) : Str := join (c.name :: c.arguments "EX".toList)

/-- A letter is no white space, and `toUpperCase` makes it a capital. -/
theorem letter_spec {c : Char} (h : isCapital (asciiUpper c) = true) :
    isSpace c = false ∧ upperChar c = [asciiUpper c] := by
  by_cases hl : 'a' ≤ c ∧ c ≤ 'z'
  · have h1 : 97 ≤ c.toNat := hl.1
    have h2 : c.toNat ≤ 122 := hl.2
    constructor
    · rw [Bool.eq_false_iff]
      intro hs
      simp only [isSpace, Bool.or_eq_true, Bool.and_eq_true, decide_eq_true_eq, beq_iff_eq] at hs
      omega
    · rw [upperChar, if_pos hl, asciiUpper, if_pos hl]
  · have e : asciiUpper c = c := if_neg hl
    rw [e] at h ⊢
    exact isCapital_spec h

theorem sameLetters_spec {t name : Str} (h : SameLetters t name) (hne : name ≠ [])
    (hname : name.all isCapital = true) : IsToken t ∧ toUpperCase t = name := by
  subst h
  have hcap : ∀ c ∈ t, isCapital (asciiUpper c) = true := fun c hc =>
    List.all_eq_true.mp hname _ (List.mem_map_of_mem hc)
  refine ⟨⟨fun e => hne (by rw [e]; rfl), fun c hc => (letter_spec (hcap c hc)).1⟩, ?_⟩
  rw [toUpperCase, List.map_eq_flatMap]
  exact List.flatMap_congr fun c hc => (letter_spec (hcap c hc)).2

theorem parse_of_rendering {c : Command} (h : c.WF) {line : Str} (hr : Rendering c line) :
    parseCommand line = .ok c := by
  obtain ⟨name, ex, lead, rest, hname, hex, hlead, hrest, rfl⟩ := hr
  obtain ⟨htoken, hupper⟩ := sameLetters_spec hname (isCapital_name c).1 (isCapital_name c).2
  obtain ⟨hex, hexUpper⟩ := sameLetters_spec hex (by decide) (by decide)
  have hargs := isToken_arguments h hex
  rw [parseCommand, tokens_spaced hlead hrest (List.forall_mem_cons.mpr ⟨htoken, hargs⟩)]
  show parseNamed (toUpperCase name) (name :: c.arguments ex) = _
  rw [hupper]
  exact parseNamed_arguments h hexUpper name

theorem rendering_canonical (c : Command) : Rendering c c.canonical := by
  have hupper : ∀ {s : Str}, s.all isCapital = true → SameLetters s s := by
    intro s hs
    refine (List.map_congr_left fun d hd => ?_).trans (List.map_id s)
    have hd : 'A' ≤ d ∧ d ≤ 'Z' := by simpa [isCapital] using List.all_eq_true.mp hs d hd
    refine if_neg fun hl => ?_
    have h1 : 97 ≤ d.toNat := hl.1
    have h2 : d.toNat ≤ 90 := hd.2
    omega
  exact ⟨c.name, "EX".toList, [], c.canonical, hupper (isCapital_name c).2, hupper (by decide),
    fun _ hc => absurd hc List.not_mem_nil, spaced_join _ _, rfl⟩

/-- Every text of a well-formed command, with its name and the keyword EX in any mix of ASCII
case, any white space between the tokens and around them, is parsed to the command; and an
accepted command is well formed and parsed again from its canonical text. -/
theorem parse_rendering :
    (∀ c : Command, c.WF → ∀ line, Rendering c line → parseCommand line = .ok c) ∧
      ∀ line c, parseCommand line = .ok c → c.WF ∧ parseCommand c.canonical = .ok c := by
  refine ⟨fun c h line hr => parse_of_rendering h hr, fun line c h => ?_⟩
  have hwf := wf_of_parseCommand h
  exact ⟨hwf, parse_of_rendering hwf (rendering_canonical c)⟩

/-- A key that is called EX, the keyword in mixed case, and odd white space. -/
theorem parse_rendering_set :
    parseCommand " seT\tEX  v eX 5\r".toList =
      .ok (.set "EX".toList "v".toList (some 5)) := by
  have blank : ∀ {s : Str}, s.all isSpace = true → Blank s := fun h => List.all_eq_true.mp h
  refine parse_rendering.1 (.set "EX".toList "v".toList (some 5)) ?_ _
    ⟨"seT".toList, "eX".toList, " ".toList, _, by decide, by decide,
      blank (by decide),
      .cons _ (List.cons_ne_nil '\t' []) (blank (by decide)) <|
      .cons _ (List.cons_ne_nil ' ' [' ']) (blank (by decide)) <|
      .cons _ (List.cons_ne_nil ' ' []) (blank (by decide)) <|
      .cons _ (List.cons_ne_nil ' ' []) (blank (by decide)) <|
      .last "5".toList (blank (s := ['\r']) (by decide)), rfl⟩
  exact ⟨isToken_of_all (by decide) (by decide), isToken_of_all (by decide) (by decide),
    fun n hn => by cases hn; decide⟩

end MiniStore
