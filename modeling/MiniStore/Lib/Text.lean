import Mathlib.Data.List.DropRight

/-!
# Text: white space, tokens, lines

Text is a list of characters. `isSpace` is the set that ECMAScript's `trim` and
the class `\s` share. `tokens` is `s.trim().split(/\s+/)` without its empty
pieces. `readLines` is the line reader of a text stream: LF, CRLF and a lone CR
each end a line, and text after the last terminator is a line of its own.
-/

/-- A string, as its sequence of characters. -/
abbrev Str := List Char

/-- Strings are compared by their decidable equality. -/
instance : BEq Str := instBEqOfDecidableEq

instance : LawfulBEq Str := inferInstanceAs (@LawfulBEq (List Char) instBEqOfDecidableEq)

namespace Text

/-- White space and line terminators of ECMAScript. -/
def isSpace (c : Char) : Bool :=
  let n := c.toNat
  (9 ≤ n && n ≤ 13) || n == 0x20 || n == 0xA0 || n == 0x1680 || (0x2000 ≤ n && n ≤ 0x200A) ||
    n == 0x2028 || n == 0x2029 || n == 0x202F || n == 0x205F || n == 0x3000 || n == 0xFEFF

def trim (s : Str) : Str := (s.dropWhile isSpace).rdropWhile isSpace

/-- Put a character in front of the first piece. -/
def prepend (c : Char) : List Str → List Str
  | [] => [[c]]
  | p :: ps => (c :: p) :: ps

/-- Split at every maximal run of white space; the flag says that the text
starts inside a run already split at. -/
def splitRuns : Bool → Str → List Str
  | _, [] => [[]]
  | true, c :: cs => if isSpace c then splitRuns true cs else prepend c (splitRuns false cs)
  | false, c :: cs => if isSpace c then [] :: splitRuns true cs else prepend c (splitRuns false cs)

/-- The non-empty pieces between white space. -/
def tokens (s : Str) : List Str := (splitRuns false (trim s)).filter fun t => t.length > 0

/-- Non-empty and free of white space. -/
def IsToken (t : Str) : Prop := t ≠ [] ∧ ∀ c ∈ t, isSpace c = false

/-! ## Trimming -/

theorem head_trim {s : Str} {c : Char} {cs : Str} (h : trim s = c :: cs) : isSpace c = false := by
  have hp : trim s <+: s.dropWhile isSpace := List.rdropWhile_prefix isSpace _
  rw [h] at hp
  obtain ⟨r, hr⟩ := hp
  have := List.head?_dropWhile_not isSpace s
  rw [← hr] at this
  simpa using this

theorem getLast_trim {s : Str} (h : trim s ≠ []) : isSpace ((trim s).getLast h) = false := by
  have := List.rdropWhile_last_not isSpace (s.dropWhile isSpace) h
  simpa [trim] using this

theorem trim_eq_self {s : Str} (hd : ∀ c cs, s = c :: cs → isSpace c = false)
    (hl : ∀ h : s ≠ [], isSpace (s.getLast h) = false) : trim s = s := by
  have h1 : s.dropWhile isSpace = s := by
    cases s with
    | nil => rfl
    | cons c cs => rw [List.dropWhile_cons_of_neg (by simp [hd c cs rfl])]
  unfold trim
  rw [h1]
  exact List.rdropWhile_eq_self_iff.mpr fun h => by simp [hl h]

@[simp] theorem trim_trim (s : Str) : trim (trim s) = trim s :=
  trim_eq_self (fun _ _ h => head_trim h) fun h => getLast_trim h

@[simp] theorem tokens_trim (s : Str) : tokens (trim s) = tokens s := by
  unfold tokens; rw [trim_trim]

/-! ## Tokens -/

theorem prepend_splitRuns (c : Char) (b : Bool) (s : Str) :
    ∃ p ps, splitRuns b s = p :: ps ∧ prepend c (splitRuns b s) = (c :: p) :: ps := by
  suffices h : ∃ p ps, splitRuns b s = p :: ps by
    obtain ⟨p, ps, e⟩ := h; exact ⟨p, ps, e, by rw [e]; rfl⟩
  induction s generalizing b with
  | nil => cases b <;> exact ⟨[], [], rfl⟩
  | cons d s ih =>
    have hpre : ∃ p ps, prepend d (splitRuns false s) = p :: ps := by
      obtain ⟨p, ps, e⟩ := ih false; exact ⟨d :: p, ps, by rw [e]; rfl⟩
    cases b <;> simp only [splitRuns] <;> split
    · exact ⟨_, _, rfl⟩
    · exact hpre
    · exact ih true
    · exact hpre

theorem mem_splitRuns : ∀ {b : Bool} {s t : Str}, t ∈ splitRuns b s → ∀ c ∈ t, isSpace c = false
  | b, [], t, h => by cases b <;> simp_all [splitRuns]
  | b, d :: s, t, h => by
    obtain ⟨p, ps, e, e'⟩ := prepend_splitRuns d false s
    have hpre : isSpace d = false → t ∈ prepend d (splitRuns false s) →
        ∀ c ∈ t, isSpace c = false := by
      intro hd ht
      rw [e'] at ht
      rcases List.mem_cons.mp ht with rfl | ht
      · intro c hc
        rcases List.mem_cons.mp hc with rfl | hc
        · exact hd
        · exact mem_splitRuns (b := false) (s := s) (e ▸ List.mem_cons_self) c hc
      · exact mem_splitRuns (b := false) (s := s) (e ▸ List.mem_cons_of_mem _ ht)
    cases b <;> simp only [splitRuns] at h <;> split at h
    · rcases List.mem_cons.mp h with rfl | h
      · simp
      · exact mem_splitRuns h
    · next hd => exact hpre (by simpa using hd) h
    · exact mem_splitRuns h
    · next hd => exact hpre (by simpa using hd) h

theorem isToken_of_mem_tokens {s t : Str} (h : t ∈ tokens s) : IsToken t := by
  obtain ⟨hm, hl⟩ := List.mem_filter.mp h
  refine ⟨fun e => ?_, mem_splitRuns hm⟩
  subst e; simp at hl

/-! ## Joined tokens -/

theorem splitRuns_token : ∀ {t : Str}, (∀ c ∈ t, isSpace c = false) → splitRuns false t = [t]
  | [], _ => rfl
  | c :: t, h => by
    rw [splitRuns, if_neg (by simp [h c List.mem_cons_self]),
      splitRuns_token fun d hd => h d (List.mem_cons_of_mem _ hd)]
    rfl

theorem splitRuns_append {c : Char} (hc : isSpace c = true) (rest : Str) : ∀ {t : Str},
    (∀ d ∈ t, isSpace d = false) → splitRuns false (t ++ c :: rest) = t :: splitRuns true rest
  | [], _ => if_pos hc
  | d :: t, h => by
    rw [List.cons_append, splitRuns, if_neg (by simp [h d List.mem_cons_self]),
      splitRuns_append hc rest fun e he => h e (List.mem_cons_of_mem _ he)]
    rfl

/-- After a space a token starts as it would at the start. -/
theorem splitRuns_true {s : Str} (h : ∀ c cs, s = c :: cs → isSpace c = false) :
    splitRuns true s = splitRuns false s := by
  cases s with
  | nil => rfl
  | cons c cs =>
    have hc := h c cs rfl
    rw [splitRuns, splitRuns, if_neg (by simp [hc]), if_neg (by simp [hc])]

def join (ts : List Str) : Str := List.intercalate [' '] ts

theorem join_cons_cons (t u : Str) (ts : List Str) :
    join (t :: u :: ts) = t ++ ' ' :: join (u :: ts) := by
  rw [join, join, List.intercalate_cons_cons, List.append_assoc, List.singleton_append]

theorem join_singleton (t : Str) : join [t] = t := List.intercalate_singleton

theorem head_join {t : Str} (ht : IsToken t) (ts : List Str) :
    ∀ c cs, join (t :: ts) = c :: cs → isSpace c = false := by
  obtain ⟨d, t, rfl⟩ := List.exists_cons_of_ne_nil ht.1
  intro c cs e
  cases ts with
  | nil =>
    rw [join_singleton] at e
    cases e
    exact ht.2 _ List.mem_cons_self
  | cons u ts =>
    rw [join_cons_cons] at e
    cases e
    exact ht.2 _ List.mem_cons_self

theorem splitRuns_join : ∀ {t : Str} {ts : List Str}, (∀ u ∈ t :: ts, IsToken u) →
    splitRuns false (join (t :: ts)) = t :: ts
  | t, [], h => by
    rw [join_singleton, splitRuns_token (h t List.mem_cons_self).2]
  | t, u :: ts, h => by
    have hu := h u (List.mem_cons_of_mem _ List.mem_cons_self)
    rw [join_cons_cons, splitRuns_append (by decide) _ (h t List.mem_cons_self).2,
      splitRuns_true (head_join hu ts),
      splitRuns_join fun v hv => h v (List.mem_cons_of_mem _ hv)]

theorem getLast_join : ∀ {t : Str} {ts : List Str}, (∀ u ∈ t :: ts, IsToken u) →
    ∀ h : join (t :: ts) ≠ [], isSpace ((join (t :: ts)).getLast h) = false
  | t, [], h => by
    simp only [join_singleton]
    exact fun hne => (h t List.mem_cons_self).2 _ (List.getLast_mem hne)
  | t, u :: ts, h => by
    have htail : ∀ v ∈ u :: ts, IsToken v := fun v hv => h v (List.mem_cons_of_mem _ hv)
    have hne : join (u :: ts) ≠ [] := by
      cases ts with
      | nil =>
        rw [join_singleton]
        exact (htail u List.mem_cons_self).1
      | cons v ts =>
        rw [join_cons_cons]
        simp
    intro _
    simp only [join_cons_cons]
    rw [List.getLast_append_of_ne_nil (by simp) (List.cons_ne_nil ' ' _), List.getLast_cons hne]
    exact getLast_join htail hne

theorem trim_join {ts : List Str} (h : ∀ t ∈ ts, IsToken t) : trim (join ts) = join ts := by
  cases ts with
  | nil => rfl
  | cons t ts => exact trim_eq_self (head_join (h t List.mem_cons_self) ts) (getLast_join h)

/-! ## Spaced tokens -/

def Blank (s : Str) : Prop := ∀ c ∈ s, isSpace c = true

/-- The tokens in order, each followed by white space, of which there is some between two. -/
inductive Spaced : List Str → Str → Prop
  | last (t : Str) {gap : Str} : Blank gap → Spaced [t] (t ++ gap)
  | cons (t : Str) {gap rest : Str} {ts : List Str} : gap ≠ [] → Blank gap → Spaced ts rest →
      Spaced (t :: ts) (t ++ (gap ++ rest))

/-- The non-empty pieces of a text that need not be trimmed. -/
def pieces (s : Str) : List Str := (splitRuns false s).filter fun t => t.length > 0

/-- Inside a run or not, the non-empty pieces are the same. -/
theorem filter_splitRuns (b : Bool) (s : Str) :
    (splitRuns b s).filter (fun t => t.length > 0) = pieces s := by
  cases b with
  | false => rfl
  | true =>
    cases s with
    | nil => rfl
    | cons c s =>
      simp only [pieces, splitRuns]
      split <;> rfl

theorem pieces_cons {c : Char} (hc : isSpace c = true) (s : Str) : pieces (c :: s) = pieces s := by
  rw [← filter_splitRuns true, splitRuns, if_pos hc, filter_splitRuns]

theorem pieces_append_left {u : Str} (hu : Blank u) (s : Str) : pieces (u ++ s) = pieces s := by
  induction u with
  | nil => rfl
  | cons c u ih =>
    rw [List.cons_append, pieces_cons (hu c List.mem_cons_self),
      ih fun d hd => hu d (List.mem_cons_of_mem _ hd)]

theorem splitRuns_append_blank {w : Str} (hw : Blank w) : ∀ (b : Bool) (s : Str),
    ∃ n, splitRuns b (s ++ w) = splitRuns b s ++ List.replicate n []
  | b, [] => by
    have htrue : ∀ {w : Str}, Blank w → splitRuns true w = [[]] := by
      intro w hw
      induction w with
      | nil => rfl
      | cons c w ih =>
        rw [splitRuns, if_pos (hw c List.mem_cons_self)]
        exact ih fun d hd => hw d (List.mem_cons_of_mem _ hd)
    cases b with
    | true => exact ⟨0, htrue hw⟩
    | false =>
      cases w with
      | nil => exact ⟨0, rfl⟩
      | cons c w =>
        have e : splitRuns false (c :: w) = [] :: splitRuns true w :=
          if_pos (hw c List.mem_cons_self)
        refine ⟨1, ?_⟩
        rw [List.nil_append, e, htrue fun d hd => hw d (List.mem_cons_of_mem _ hd)]
        rfl
  | b, c :: s => by
    have hpre : ∃ n, prepend c (splitRuns false (s ++ w)) =
        prepend c (splitRuns false s) ++ List.replicate n [] := by
      obtain ⟨n, e⟩ := splitRuns_append_blank hw false s
      obtain ⟨p, ps, e', -⟩ := prepend_splitRuns c false s
      exact ⟨n, by rw [e, e']; rfl⟩
    obtain ⟨n, e⟩ := splitRuns_append_blank hw true s
    cases b <;> simp only [List.cons_append, splitRuns] <;> split
    · exact ⟨n, by rw [e]; rfl⟩
    · exact hpre
    · exact ⟨n, e⟩
    · exact hpre

theorem pieces_append_right {w : Str} (hw : Blank w) (s : Str) : pieces (s ++ w) = pieces s := by
  obtain ⟨n, e⟩ := splitRuns_append_blank hw false s
  have hnil : (List.replicate n ([] : Str)).filter (fun t => t.length > 0) = [] :=
    List.filter_eq_nil_iff.mpr fun t ht => by
      rw [List.eq_of_mem_replicate ht]
      exact Bool.false_ne_true
  rw [pieces, e, List.filter_append, hnil, List.append_nil]
  rfl

/-- What `trim` cuts off is white space. -/
theorem exists_trim (s : Str) : ∃ u w, Blank u ∧ Blank w ∧ s = u ++ (trim s ++ w) := by
  have hleft : s = s.takeWhile isSpace ++ s.dropWhile isSpace :=
    List.takeWhile_append_dropWhile.symm
  have hright : ∀ x : Str, x = x.rdropWhile isSpace ++ x.rtakeWhile isSpace := by
    intro x
    have := congrArg List.reverse (List.takeWhile_append_dropWhile (p := isSpace) (l := x.reverse))
    rw [List.reverse_append, List.reverse_reverse] at this
    exact this.symm
  refine ⟨s.takeWhile isSpace, (s.dropWhile isSpace).rtakeWhile isSpace,
    fun c hc => List.mem_takeWhile_imp hc, fun c hc => List.mem_rtakeWhile_imp hc, ?_⟩
  rw [trim, ← hright]
  exact hleft

/-- Trimming loses no token. -/
theorem tokens_eq_pieces (s : Str) : tokens s = pieces s := by
  obtain ⟨u, w, hu, hw, e⟩ := exists_trim s
  have h : pieces (u ++ (trim s ++ w)) = pieces (trim s) := by
    rw [pieces_append_left hu, pieces_append_right hw]
  exact h.symm.trans (congrArg pieces e.symm)

theorem pieces_token {t : Str} (ht : IsToken t) : pieces t = [t] := by
  rw [pieces, splitRuns_token ht.2]
  exact List.filter_eq_self.mpr fun u hu => by
    rw [List.mem_singleton.mp hu]
    simpa using List.length_pos_iff.mpr ht.1

theorem pieces_token_append {t : Str} (ht : IsToken t) {gap : Str} (hne : gap ≠ [])
    (hg : Blank gap) (rest : Str) : pieces (t ++ (gap ++ rest)) = t :: pieces rest := by
  obtain ⟨c, gap, rfl⟩ := List.exists_cons_of_ne_nil hne
  have hpos : 0 < t.length := List.length_pos_iff.mpr ht.1
  rw [pieces, List.cons_append, splitRuns_append (hg c List.mem_cons_self) _ ht.2,
    List.filter_cons_of_pos (by simpa using hpos), filter_splitRuns,
    pieces_append_left fun d hd => hg d (List.mem_cons_of_mem _ hd)]

theorem tokens_spaced {lead : Str} (hl : Blank lead) {ts : List Str} {line : Str}
    (h : Spaced ts line) (ht : ∀ t ∈ ts, IsToken t) : tokens (lead ++ line) = ts := by
  rw [tokens_eq_pieces, pieces_append_left hl]
  induction h with
  | last t hg => rw [pieces_append_right hg, pieces_token (ht t List.mem_cons_self)]
  | cons t hne hg _ ih =>
    rw [pieces_token_append (ht t List.mem_cons_self) hne hg,
      ih fun u hu => ht u (List.mem_cons_of_mem _ hu)]

theorem spaced_join : ∀ (t : Str) (ts : List Str), Spaced (t :: ts) (join (t :: ts))
  | t, [] => by
    have hs : Spaced [t] (t ++ []) := .last t fun _ hc => absurd hc List.not_mem_nil
    rw [join_singleton]
    rwa [List.append_nil] at hs
  | t, u :: ts => by
    rw [join_cons_cons]
    refine Spaced.cons t (List.cons_ne_nil ' ' []) (fun c hc => ?_) (spaced_join u ts)
    rw [List.mem_singleton.mp hc]
    decide

theorem tokens_join {ts : List Str} (h : ∀ t ∈ ts, IsToken t) : tokens (join ts) = ts := by
  cases ts with
  | nil => rfl
  | cons t ts => exact tokens_spaced (fun _ hc => absurd hc List.not_mem_nil) (spaced_join t ts) h

/-- Put a text in front of the first piece. -/
def glue (p : Str) : List Str → List Str
  | [] => [p]
  | q :: qs => (p ++ q) :: qs

/-- Text that starts with no white space continues the last piece before it. -/
theorem splitRuns_glue {v : Str} (hv : ∀ c cs, v = c :: cs → isSpace c = false) :
    ∀ (b : Bool) (u : Str), ∃ ps p, splitRuns b u = ps ++ [p] ∧
      splitRuns b (u ++ v) = ps ++ glue p (splitRuns false v)
  | b, [] => by
    obtain ⟨q, qs, e, -⟩ := prepend_splitRuns ' ' false v
    have hb : splitRuns b v = splitRuns false v := by
      cases b with
      | false => rfl
      | true => exact splitRuns_true hv
    refine ⟨[], [], by cases b <;> rfl, ?_⟩
    show splitRuns b v = glue [] (splitRuns false v)
    rw [hb, e]
    rfl
  | b, c :: u => by
    have hpre : ∃ ps p, prepend c (splitRuns false u) = ps ++ [p] ∧
        prepend c (splitRuns false (u ++ v)) = ps ++ glue p (splitRuns false v) := by
      obtain ⟨ps, p, e, e'⟩ := splitRuns_glue hv false u
      obtain ⟨q, qs, ev, -⟩ := prepend_splitRuns ' ' false v
      cases ps with
      | nil => exact ⟨[], c :: p, by rw [e]; rfl, by rw [e', ev]; rfl⟩
      | cons r ps => exact ⟨(c :: r) :: ps, p, by rw [e]; rfl, by rw [e']; rfl⟩
    cases b with
    | false =>
      simp only [List.cons_append, splitRuns]
      split
      · obtain ⟨ps, p, e, e'⟩ := splitRuns_glue hv true u
        exact ⟨[] :: ps, p, by rw [e]; rfl, by rw [e']; rfl⟩
      · exact hpre
    | true =>
      simp only [List.cons_append, splitRuns]
      split
      · exact splitRuns_glue hv true u
      · exact hpre

/-- Tokens behind a text that starts with no white space: its last token, or nothing, runs
on into the first of them. -/
theorem tokens_glue {u : Str} (hu : ∀ c cs, u = c :: cs → isSpace c = false) (hne : u ≠ [])
    {t : Str} {ts : List Str} (ht : ∀ v ∈ t :: ts, IsToken v) :
    ∃ ps p, (ps ≠ [] ∨ p ≠ []) ∧ tokens (u ++ join (t :: ts)) = ps ++ (p ++ t) :: ts := by
  obtain ⟨d, u, rfl⟩ := List.exists_cons_of_ne_nil hne
  have hd : isSpace d = false := hu d u rfl
  have hlast := getLast_join ht
  have hj : join (t :: ts) ≠ [] := fun e => by
    have hs := splitRuns_join ht
    rw [e] at hs
    obtain ⟨rfl, -⟩ := List.cons.inj hs
    exact (ht [] List.mem_cons_self).1 rfl
  have htrim : trim (d :: u ++ join (t :: ts)) = d :: u ++ join (t :: ts) := by
    refine trim_eq_self (fun c cs e => ?_) fun h => ?_
    · cases e
      exact hd
    · rw [List.getLast_append_of_ne_nil h hj]
      exact hlast hj
  obtain ⟨ps, p, e, e'⟩ := splitRuns_glue (head_join (ht t List.mem_cons_self) ts) false (d :: u)
  rw [splitRuns_join ht] at e'
  have hfilter : ((p ++ t) :: ts).filter (fun v => v.length > 0) = (p ++ t) :: ts := by
    refine List.filter_eq_self.mpr fun v hv => ?_
    have hne : v ≠ [] := by
      rcases List.mem_cons.mp hv with rfl | hv
      · exact List.append_ne_nil_of_right_ne_nil p (ht t List.mem_cons_self).1
      · exact (ht v (List.mem_cons_of_mem _ hv)).1
    simpa using List.length_pos_iff.mpr hne
  refine ⟨ps.filter fun v => v.length > 0, p, ?_, ?_⟩
  · -- the first piece holds the first character
    obtain ⟨q, qs, eq, -⟩ := prepend_splitRuns d false u
    have hfirst : splitRuns false (d :: u) = (d :: q) :: qs := by
      rw [splitRuns, if_neg (by simp [hd]), eq]
      rfl
    rw [hfirst] at e
    cases ps with
    | nil =>
      cases e
      exact .inr (List.cons_ne_nil d q)
    | cons r ps =>
      obtain ⟨rfl, -⟩ := List.cons.inj e
      exact .inl (by simp)
  · rw [tokens, htrim, e', List.filter_append]
    show _ ++ ((p ++ t) :: ts).filter _ = _
    rw [hfilter]

theorem mem_join {c : Char} : ∀ {ts : List Str}, c ∈ join ts → c = ' ' ∨ ∃ t ∈ ts, c ∈ t
  | [], h => absurd h List.not_mem_nil
  | [t], h => .inr ⟨t, List.mem_singleton.mpr rfl, join_singleton t ▸ h⟩
  | t :: u :: ts, h => by
    rw [join_cons_cons, List.mem_append, List.mem_cons] at h
    rcases h with h | h | h
    · exact .inr ⟨t, List.mem_cons_self, h⟩
    · exact .inl h
    · exact (mem_join h).imp_right fun ⟨v, hv, hc⟩ => ⟨v, List.mem_cons_of_mem _ hv, hc⟩

/-! ## Lines -/

/-- The pieces between line terminators; the flag says that the text follows a
CR, whose line an immediate LF does not end again. -/
def piecesFrom : Bool → Str → List Str
  | _, [] => [[]]
  | cr, c :: s =>
    if c = '\n' then if cr then piecesFrom false s else [] :: piecesFrom false s
    else if c = '\r' then [] :: piecesFrom true s
    else prepend c (piecesFrom false s)

/-- The lines a reader emits: the last piece counts only when it is non-empty. -/
def readLines (s : Str) : List Str :=
  if (piecesFrom false s).getLast? = some [] then (piecesFrom false s).dropLast
  else piecesFrom false s

/-- CR and LF, the characters that end a line. -/
def isBreak (c : Char) : Bool := c == '\n' || c == '\r'

/-- Over the characters of a given text, a property can be tested. -/
theorem forall_mem_of_all {p : Char → Bool} {s : Str} (h : s.all (fun c => !p c) = true) :
    ∀ c ∈ s, p c = false := by
  simpa using h

theorem isSpace_of_isBreak {c : Char} (h : isBreak c = true) : isSpace c = true := by
  simp only [isBreak, Bool.or_eq_true, beq_iff_eq] at h
  rcases h with rfl | rfl <;> decide

theorem length_prepend {c : Char} {ps : List Str} (h : 1 ≤ ps.length) :
    (prepend c ps).length = ps.length := by
  cases ps with
  | nil => simp at h
  | cons p ps => rfl

theorem one_le_length_piecesFrom (cr : Bool) (s : Str) : 1 ≤ (piecesFrom cr s).length := by
  induction s generalizing cr with
  | nil => cases cr <;> simp [piecesFrom]
  | cons c s ih =>
    simp only [piecesFrom]
    split
    · split
      · exact ih false
      · simp
    · split
      · simp
      · rw [length_prepend (ih false)]; exact ih false

theorem piecesFrom_of_not_break {c : Char} (h : isBreak c = false) (cr : Bool) (s : Str) :
    piecesFrom cr (c :: s) = prepend c (piecesFrom false s) := by
  simp only [isBreak, Bool.or_eq_false_iff, beq_eq_false_iff_ne] at h
  rw [piecesFrom, if_neg h.1, if_neg h.2]

theorem piecesFrom_line {u : Str} (hu : ∀ c ∈ u, isBreak c = false) (v : Str) :
    piecesFrom false (u ++ '\n' :: v) = u :: piecesFrom false v := by
  induction u with
  | nil => simp [piecesFrom]
  | cons c u ih =>
    rw [List.cons_append, piecesFrom_of_not_break (hu c List.mem_cons_self),
      ih fun d hd => hu d (List.mem_cons_of_mem _ hd)]
    rfl

theorem two_le_length_piecesFrom (s : Str) : 2 ≤ (piecesFrom false (s ++ ['\n'])).length := by
  induction s with
  | nil => decide
  | cons c s ih =>
    simp only [List.cons_append, piecesFrom]
    have h1 := one_le_length_piecesFrom false (s ++ ['\n'])
    have h2 := one_le_length_piecesFrom true (s ++ ['\n'])
    split
    · simpa using h1
    · split
      · simpa using h2
      · rw [length_prepend h1]; exact ih

theorem getLast_prepend {c : Char} {ps : List Str} (h : 2 ≤ ps.length) :
    (prepend c ps).getLast? = ps.getLast? := by
  match ps, h with
  | p :: q :: ps, _ => simp [prepend, List.getLast?_cons_cons]

/-- A text that ends in LF has nothing after its last terminator. -/
theorem getLast_piecesFrom (cr : Bool) (s : Str) :
    (piecesFrom cr (s ++ ['\n'])).getLast? = some [] := by
  induction s generalizing cr with
  | nil => cases cr <;> decide
  | cons c s ih =>
    have hcons : ∀ b, ([] :: piecesFrom b (s ++ ['\n'])).getLast? = some [] := fun b => by
      have h1 := one_le_length_piecesFrom b (s ++ ['\n'])
      cases h : piecesFrom b (s ++ ['\n']) with
      | nil => simp [h] at h1
      | cons p ps => rw [List.getLast?_cons_cons, ← h]; exact ih b
    simp only [List.cons_append, piecesFrom]
    split
    · split
      · exact ih false
      · exact hcons false
    · split
      · exact hcons true
      · rw [getLast_prepend (two_le_length_piecesFrom s)]; exact ih false

theorem dropLast_prepend_append {c : Char} {ps qs : List Str} (h : 2 ≤ ps.length) :
    (prepend c ps).dropLast ++ qs = prepend c (ps.dropLast ++ qs) := by
  match ps, h with
  | p :: q :: ps, _ => rfl

theorem dropLast_cons_append {ps qs : List Str} (h : 1 ≤ ps.length) :
    (([] : Str) :: ps).dropLast ++ qs = [] :: (ps.dropLast ++ qs) := by
  match ps, h with
  | p :: ps, _ => rfl

/-- Text after an LF starts a new line. -/
theorem piecesFrom_append (cr : Bool) (s x : Str) :
    piecesFrom cr (s ++ '\n' :: x) =
      (piecesFrom cr (s ++ ['\n'])).dropLast ++ piecesFrom false x := by
  induction s generalizing cr with
  | nil => cases cr <;> simp [piecesFrom]
  | cons c s ih =>
    simp only [List.cons_append, piecesFrom]
    split
    · split
      · exact ih false
      · rw [ih, dropLast_cons_append (one_le_length_piecesFrom _ _)]
    · split
      · rw [ih, dropLast_cons_append (one_le_length_piecesFrom _ _)]
      · rw [ih, dropLast_prepend_append (two_le_length_piecesFrom s)]

theorem readLines_lf (s : Str) :
    readLines (s ++ ['\n']) = (piecesFrom false (s ++ ['\n'])).dropLast := by
  rw [readLines, if_pos (getLast_piecesFrom false s)]

/-- Reading a file made of complete lines and more text after them. -/
theorem readLines_append (s x : Str) :
    readLines (s ++ '\n' :: x) = readLines (s ++ ['\n']) ++ readLines x := by
  have hx := one_le_length_piecesFrom false x
  have hne : piecesFrom false x ≠ [] := fun e => by simp [e] at hx
  rw [readLines_lf, readLines, readLines, piecesFrom_append, List.getLast?_append]
  obtain ⟨z, hz⟩ : ∃ z, (piecesFrom false x).getLast? = some z :=
    ⟨_, List.getLast?_eq_some_getLast hne⟩
  rw [hz, Option.some_or]
  by_cases h : some z = some ([] : Str)
  · rw [if_pos h, if_pos h, List.dropLast_append_of_ne_nil hne]
  · rw [if_neg h, if_neg h]

theorem readLines_line {u : Str} (hu : ∀ c ∈ u, isBreak c = false) :
    readLines (u ++ ['\n']) = [u] := by
  rw [readLines_lf, piecesFrom_line hu]; rfl

theorem two_le_length_of_not_break {v : Str} (hv : ∃ c ∈ v, isBreak c = false) (cr : Bool) :
    2 ≤ (piecesFrom cr (v ++ ['\n'])).length := by
  cases cr with
  | false => exact two_le_length_piecesFrom v
  | true =>
    cases v with
    | nil => simp at hv
    | cons c v =>
      have h1 := one_le_length_piecesFrom true (v ++ ['\n'])
      have h2 := two_le_length_piecesFrom v
      simp only [List.cons_append, piecesFrom, if_true]
      split
      · exact h2
      · split
        · simpa using h1
        · rw [length_prepend (by omega)]; exact h2

/-- A terminator inside a text that does not end in one splits it into several lines. -/
theorem two_le_length_readLines {u v : Str} {c : Char} (hu : ∀ d ∈ u, isBreak d = false)
    (hc : isBreak c = true) (hv : ∃ d ∈ v, isBreak d = false) :
    2 ≤ (readLines (u ++ c :: v ++ ['\n'])).length := by
  have key : ∃ b, piecesFrom false (u ++ c :: v ++ ['\n']) = u :: piecesFrom b (v ++ ['\n']) := by
    simp only [isBreak, Bool.or_eq_true, beq_iff_eq] at hc
    refine ⟨c == '\r', ?_⟩
    rw [List.append_assoc, List.cons_append]
    induction u with
    | nil => rcases hc with rfl | rfl <;> simp [piecesFrom]
    | cons d u ih =>
      rw [List.cons_append, piecesFrom_of_not_break (hu d List.mem_cons_self),
        ih fun e he => hu e (List.mem_cons_of_mem _ he)]
      rfl
  obtain ⟨b, hb⟩ := key
  have := two_le_length_of_not_break hv b
  rw [readLines_lf, hb, List.length_dropLast, List.length_cons]
  omega

theorem readLines_of_not_break {u : Str} (hu : ∀ c ∈ u, isBreak c = false) (hne : u ≠ []) :
    readLines u = [u] := by
  have hp : piecesFrom false u = [u] := by
    clear hne
    induction u with
    | nil => rfl
    | cons c u ih =>
      rw [piecesFrom_of_not_break (hu c List.mem_cons_self),
        ih fun d hd => hu d (List.mem_cons_of_mem _ hd)]
      rfl
  have hlast : ¬ some u = some ([] : Str) := fun e => hne (Option.some.inj e)
  rw [readLines, hp]
  exact if_neg hlast

theorem isBreak_of_token {t : Str} (h : IsToken t) : ∀ c ∈ t, isBreak c = false :=
  fun c hc => by
  cases hb : isBreak c with
  | false => rfl
  | true => exact absurd (isSpace_of_isBreak hb) (by rw [h.2 c hc]; exact Bool.false_ne_true)

theorem isBreak_join {ts : List Str} (h : ∀ t ∈ ts, IsToken t) :
    ∀ c ∈ join ts, isBreak c = false := by
  intro c hc
  rcases mem_join hc with rfl | ⟨t, ht, hc⟩
  · rfl
  · exact isBreak_of_token (h t ht) c hc

/-! ## The first bytes of a file -/

/-- What a reader makes of the first `n` bytes: the whole characters, and U+FFFD for one
that is cut. -/
def firstBytes : Nat → Str → Str
  | _, [] => []
  | n, c :: cs =>
    if n = 0 then []
    else if n < c.utf8Size then ['\uFFFD']
    else c :: firstBytes (n - c.utf8Size) cs

theorem firstBytes_zero (s : Str) : firstBytes 0 s = [] := by
  cases s with
  | nil => rfl
  | cons c cs => exact if_pos rfl

theorem firstBytes_append (n : Nat) (u v : Str) :
    firstBytes n (u ++ v) = firstBytes n u ∨ ∃ m, firstBytes n (u ++ v) = u ++ firstBytes m v := by
  induction u generalizing n with
  | nil => exact .inr ⟨n, rfl⟩
  | cons c u ih =>
    simp only [List.cons_append, firstBytes]
    split
    · exact .inl rfl
    · split
      · exact .inl rfl
      · rcases ih (n - c.utf8Size) with e | ⟨m, e⟩
        · exact .inl (by rw [e])
        · exact .inr ⟨m, by rw [e]⟩

/-- Any prefix in whole characters is what some number of bytes reads as. -/
theorem firstBytes_prefix (u v : Str) : ∃ n, firstBytes n (u ++ v) = u := by
  induction u with
  | nil => exact ⟨0, firstBytes_zero v⟩
  | cons c u ih =>
    obtain ⟨n, e⟩ := ih
    have hpos := c.utf8Size_pos
    refine ⟨c.utf8Size + n, ?_⟩
    rw [List.cons_append, firstBytes, if_neg (by omega), if_neg (by omega), Nat.add_sub_cancel_left,
      e]

theorem mem_firstBytes {c : Char} : ∀ {n : Nat} {s : Str}, c ∈ firstBytes n s →
    c ∈ s ∨ c = '\uFFFD'
  | _, [], h => absurd h List.not_mem_nil
  | n, d :: s, h => by
    rw [firstBytes] at h
    split at h
    · exact absurd h List.not_mem_nil
    · split at h
      · exact .inr (List.mem_singleton.mp h)
      · rcases List.mem_cons.mp h with rfl | h
        · exact .inl List.mem_cons_self
        · exact (mem_firstBytes h).imp_left (List.mem_cons_of_mem _)

theorem head_firstBytes {n : Nat} {c d : Char} {s t : Str} (h : firstBytes n (c :: s) = d :: t) :
    d = c ∨ d = '\uFFFD' := by
  rw [firstBytes] at h
  split at h
  · cases h
  · split at h
    · cases h
      exact .inr rfl
    · cases h
      exact .inl rfl

/-- Of a line and its LF: both, or a text without terminators. -/
theorem firstBytes_line {line : Str} (h : ∀ c ∈ line, isBreak c = false) (n : Nat) :
    firstBytes n (line ++ ['\n']) = line ++ ['\n'] ∨
      ∀ c ∈ firstBytes n (line ++ ['\n']), isBreak c = false := by
  have hpart : ∀ c ∈ firstBytes n line, isBreak c = false := fun c hc => by
    rcases mem_firstBytes hc with hc | rfl
    · exact h c hc
    · decide
  rcases firstBytes_append n line ['\n'] with e | ⟨m, e⟩
  · exact .inr (e ▸ hpart)
  · by_cases hm : m = 0
    · rw [hm, firstBytes_zero, List.append_nil] at e
      exact .inr fun c hc => h c (by rwa [e] at hc)
    · have hsize : '\n'.utf8Size = 1 := by decide
      have hlf : firstBytes m ['\n'] = ['\n'] := by
        rw [firstBytes, if_neg hm, if_neg (by omega)]
        rfl
      exact .inl (e.trans (by rw [hlf]))

end Text
