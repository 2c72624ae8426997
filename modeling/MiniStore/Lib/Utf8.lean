import MiniStore.Lib.Text

/-!
# UTF-8

`encode` gives the bytes of a text. `decode` is the decoder of the Encoding Standard: it reads
one byte after the other, with what it has of a character as its state (`Pending`), and where
the bytes are no character it writes U+FFFD, once for each longest piece that begins one.

A text decoded in pieces is what it was with every character that a cut falls into spoilt
(`garbled_decode`), and is the text exactly if every piece is a text (`decode_pieces_iff`).
-/

namespace Utf8

def encode (s : Str) : List UInt8 := s.flatMap String.utf8EncodeChar

/-- U+FFFD. -/
def replacement : Char := '\uFFFD'

/-- What has been read of a character: its bits, the number of bytes to come, and the bounds of
the next. -/
structure Pending where
  bits : Nat
  more : Nat
  lower : Nat
  upper : Nat
  deriving DecidableEq

/-- A byte between two characters. -/
def first (b : Nat) : Str × Option Pending :=
  if b < 0x80 then ([Char.ofNat b], none)
  else if 0xC2 ≤ b ∧ b ≤ 0xDF then ([], some ⟨b - 0xC0, 1, 0x80, 0xBF⟩)
  else if 0xE0 ≤ b ∧ b ≤ 0xEF then
    ([], some ⟨b - 0xE0, 2, if b = 0xE0 then 0xA0 else 0x80, if b = 0xED then 0x9F else 0xBF⟩)
  else if 0xF0 ≤ b ∧ b ≤ 0xF4 then
    ([], some ⟨b - 0xF0, 3, if b = 0xF0 then 0x90 else 0x80, if b = 0xF4 then 0x8F else 0xBF⟩)
  else ([replacement], none)

/-- What a byte adds to the text, and the state after it. -/
def step : Option Pending → Nat → Str × Option Pending
  | none, b => first b
  | some p, b =>
    if p.lower ≤ b ∧ b ≤ p.upper then
      if p.more = 1 then ([Char.ofNat (p.bits * 64 + (b - 0x80))], none)
      else ([], some ⟨p.bits * 64 + (b - 0x80), p.more - 1, 0x80, 0xBF⟩)
    else (replacement :: (first b).1, (first b).2) -- the byte is read again

def feed : Option Pending → List UInt8 → Str × Option Pending
  | st, [] => ([], st)
  | st, b :: bs =>
    ((step st b.toNat).1 ++ (feed (step st b.toNat).2 bs).1, (feed (step st b.toNat).2 bs).2)

def flush : Option Pending → Str
  | none => []
  | some _ => [replacement]

/-- `buffer.toString()` -/
def decode (bs : List UInt8) : Str := (feed none bs).1 ++ flush (feed none bs).2

/-! ## Characters -/

/-- A byte that continues a character. -/
def isTail (b : UInt8) : Prop := 0x80 ≤ b.toNat ∧ b.toNat < 0xC0

/-- From the state, the bytes complete the character. -/
inductive Reads (c : Char) : Option Pending → List UInt8 → Prop
  | last {st b} : step st b.toNat = ([c], none) → Reads c st [b]
  | more {st b p bs} : step st b.toNat = ([], some p) → Reads c (some p) bs → Reads c st (b :: bs)

theorem toNat_ofNat (n : Nat) : (UInt8.ofNat n).toNat = n % 256 := rfl

theorem utf8EncodeChar_cases (c : Char) :
    (c.toNat ≤ 0x7F ∧ String.utf8EncodeChar c = [UInt8.ofNat c.toNat]) ∨
    (0x7F < c.toNat ∧ c.toNat ≤ 0x7FF ∧ String.utf8EncodeChar c =
      [UInt8.ofNat (c.toNat / 64 % 0x20 + 0xC0), UInt8.ofNat (c.toNat % 0x40 + 0x80)]) ∨
    (0x7FF < c.toNat ∧ c.toNat ≤ 0xFFFF ∧ String.utf8EncodeChar c =
      [UInt8.ofNat (c.toNat / 4096 % 0x10 + 0xE0), UInt8.ofNat (c.toNat / 64 % 0x40 + 0x80),
        UInt8.ofNat (c.toNat % 0x40 + 0x80)]) ∨
    (0xFFFF < c.toNat ∧ String.utf8EncodeChar c =
      [UInt8.ofNat (c.toNat / 262144 % 0x08 + 0xF0), UInt8.ofNat (c.toNat / 4096 % 0x40 + 0x80),
        UInt8.ofNat (c.toNat / 64 % 0x40 + 0x80), UInt8.ofNat (c.toNat % 0x40 + 0x80)]) := by
  have e : String.utf8EncodeChar c = if c.toNat ≤ 0x7F then [UInt8.ofNat c.toNat]
      else if c.toNat ≤ 0x7FF then
        [UInt8.ofNat (c.toNat / 64 % 0x20 + 0xC0), UInt8.ofNat (c.toNat % 0x40 + 0x80)]
      else if c.toNat ≤ 0xFFFF then
        [UInt8.ofNat (c.toNat / 4096 % 0x10 + 0xE0), UInt8.ofNat (c.toNat / 64 % 0x40 + 0x80),
          UInt8.ofNat (c.toNat % 0x40 + 0x80)]
      else
        [UInt8.ofNat (c.toNat / 262144 % 0x08 + 0xF0), UInt8.ofNat (c.toNat / 4096 % 0x40 + 0x80),
          UInt8.ofNat (c.toNat / 64 % 0x40 + 0x80), UInt8.ofNat (c.toNat % 0x40 + 0x80)] := rfl
  by_cases h1 : c.toNat ≤ 0x7F
  · exact .inl ⟨h1, by rw [e, if_pos h1]⟩
  by_cases h2 : c.toNat ≤ 0x7FF
  · exact .inr (.inl ⟨by omega, h2, by rw [e, if_neg h1, if_pos h2]⟩)
  by_cases h3 : c.toNat ≤ 0xFFFF
  · exact .inr (.inr (.inl ⟨by omega, h3, by rw [e, if_neg h1, if_neg h2, if_pos h3]⟩))
  · exact .inr (.inr (.inr ⟨by omega, by rw [e, if_neg h1, if_neg h2, if_neg h3]⟩))

/-- A Unicode scalar value is no surrogate. -/
theorem toNat_valid (c : Char) : c.toNat < 0xD800 ∨ 0xDFFF < c.toNat ∧ c.toNat < 0x110000 :=
  c.valid

theorem step_more {p : Pending} {b : Nat} (hl : p.lower ≤ b) (hu : b ≤ p.upper) (hm : p.more ≠ 1) :
    step (some p) b = ([], some ⟨p.bits * 64 + (b - 0x80), p.more - 1, 0x80, 0xBF⟩) := by
  rw [step, if_pos ⟨hl, hu⟩, if_neg hm]

theorem step_last {p : Pending} {b : Nat} {c : Char} (hl : p.lower ≤ b) (hu : b ≤ p.upper)
    (hm : p.more = 1) (hc : p.bits * 64 + (b - 0x80) = c.toNat) : step (some p) b = ([c], none) := by
  rw [step, if_pos ⟨hl, hu⟩, if_pos hm, hc, Char.ofNat_toNat]

theorem first_two {b : Nat} (h1 : 0xC2 ≤ b) (h2 : b ≤ 0xDF) :
    first b = ([], some ⟨b - 0xC0, 1, 0x80, 0xBF⟩) := by
  rw [first, if_neg (by omega), if_pos ⟨h1, h2⟩]

theorem first_three {b : Nat} (h1 : 0xE0 ≤ b) (h2 : b ≤ 0xEF) : first b =
    ([], some ⟨b - 0xE0, 2, if b = 0xE0 then 0xA0 else 0x80, if b = 0xED then 0x9F else 0xBF⟩) := by
  rw [first, if_neg (by omega), if_neg (by omega), if_pos ⟨h1, h2⟩]

theorem first_four {b : Nat} (h1 : 0xF0 ≤ b) (h2 : b ≤ 0xF4) : first b =
    ([], some ⟨b - 0xF0, 3, if b = 0xF0 then 0x90 else 0x80, if b = 0xF4 then 0x8F else 0xBF⟩) := by
  rw [first, if_neg (by omega), if_neg (by omega), if_neg (by omega), if_pos ⟨h1, h2⟩]

theorem reads_utf8EncodeChar (c : Char) : Reads c none (String.utf8EncodeChar c) := by
  have hv := toNat_valid c
  rcases utf8EncodeChar_cases c with ⟨h1, e⟩ | ⟨h1, h2, e⟩ | ⟨h1, h2, e⟩ | ⟨h1, e⟩
  · rw [e]
    refine .last ?_
    rw [toNat_ofNat, Nat.mod_eq_of_lt (by omega), step, first, if_pos (by omega), Char.ofNat_toNat]
  · rw [e]
    refine .more (first_two ?_ ?_) (.last (step_last ?_ ?_ rfl ?_))
    all_goals simp only [toNat_ofNat]; omega
  · rw [e]
    refine .more (first_three ?_ ?_) (.more (step_more ?_ ?_ ?_) (.last (step_last ?_ ?_ rfl ?_)))
    all_goals simp only [toNat_ofNat]
    all_goals first | omega | (split <;> omega)
  · rw [e]
    refine .more (first_four ?_ ?_) (.more (step_more ?_ ?_ ?_) (.more (step_more ?_ ?_ ?_)
      (.last (step_last ?_ ?_ rfl ?_))))
    all_goals simp only [toNat_ofNat]
    all_goals first | omega | (split <;> omega)

/-- A character of more than one byte is not in ASCII, and goes on with continuing bytes. -/
theorem utf8EncodeChar_tail (c : Char) : ∃ b tail, String.utf8EncodeChar c = b :: tail ∧
    (∀ x ∈ tail, isTail x) ∧ (tail ≠ [] → 0x80 ≤ c.toNat) := by
  have hmod : ∀ n, isTail (UInt8.ofNat (n % 0x40 + 0x80)) := by
    intro n
    rw [isTail, toNat_ofNat]
    omega
  rcases utf8EncodeChar_cases c with ⟨-, e⟩ | ⟨h1, -, e⟩ | ⟨h1, -, e⟩ | ⟨h1, e⟩
  · exact ⟨_, _, e, fun _ hx => (nomatch hx), fun hne => absurd rfl hne⟩
  all_goals
    refine ⟨_, _, e, ?_, fun _ => by omega⟩
    simp only [List.forall_mem_cons, hmod, true_and, List.not_mem_nil, false_imp_iff, implies_true]

/-! ## Decoding texts and pieces of characters -/

theorem feed_append (x y : List UInt8) : ∀ st, feed st (x ++ y) =
    ((feed st x).1 ++ (feed (feed st x).2 y).1, (feed (feed st x).2 y).2) := by
  induction x with
  | nil => exact fun st => rfl
  | cons b x ih =>
    intro st
    rw [List.cons_append, feed, ih, feed, List.append_assoc]

theorem Reads.feed {c : Char} {st : Option Pending} {bs : List UInt8} (h : Reads c st bs) :
    Utf8.feed st bs = ([c], none) := by
  induction h with
  | last h => rw [Utf8.feed, h]; rfl
  | more h _ ih => rw [Utf8.feed, h, ih]; rfl

theorem Reads.feed_first {c : Char} {q : List UInt8} (hq : q ≠ []) :
    ∀ {p : List UInt8} {st : Option Pending}, p ≠ [] → Reads c st (p ++ q) →
      ∃ pending, Utf8.feed st p = ([], some pending)
  | [], _, hp, _ => absurd rfl hp
  | [b], st, _, h => by
    generalize e : [b] ++ q = bs at h
    cases h with
    | last => exact absurd (List.cons.inj e).2 hq
    | more h _ =>
      obtain ⟨rfl, -⟩ := List.cons.inj e
      exact ⟨_, by rw [Utf8.feed, h]; rfl⟩
  | b :: b' :: p, st, _, h => by
    generalize e : b :: b' :: p ++ q = bs at h
    cases h with
    | last => cases (List.cons.inj e).2
    | more h hrest =>
      obtain ⟨rfl, rfl⟩ := List.cons.inj e
      obtain ⟨pending, hp⟩ := Reads.feed_first hq (List.cons_ne_nil b' p) hrest
      exact ⟨pending, by rw [Utf8.feed, h, hp]; rfl⟩

theorem decode_encode_append (s : Str) (bs : List UInt8) :
    decode (encode s ++ bs) = s ++ decode bs := by
  induction s with
  | nil => rfl
  | cons c s ih =>
    rw [decode] at ih ⊢
    rw [encode, List.flatMap_cons, List.append_assoc, feed_append, (reads_utf8EncodeChar c).feed]
    exact congrArg (c :: ·) ih

theorem decode_encode (s : Str) : decode (encode s) = s := by
  have h := decode_encode_append s []
  rwa [List.append_nil, show decode [] = [] from rfl, List.append_nil] at h

theorem decode_first {c : Char} {p q : List UInt8} (h : String.utf8EncodeChar c = p ++ q)
    (hp : p ≠ []) (hq : q ≠ []) : decode p = [replacement] := by
  obtain ⟨pending, hfeed⟩ := (h ▸ reads_utf8EncodeChar c).feed_first hq hp
  rw [decode, hfeed]
  rfl

/-- Three of the four bytes of a character. -/
example : decode [0xF0, 0x9F, 0x98] = [replacement] := by decide

theorem first_of_isTail {b : UInt8} (h : isTail b) : first b.toNat = ([replacement], none) := by
  obtain ⟨h1, h2⟩ := h
  rw [first, if_neg (by omega), if_neg (by omega), if_neg (by omega), if_neg (by omega)]

theorem decode_tail_append {q : List UInt8} (hq : ∀ b ∈ q, isTail b) (bs : List UInt8) :
    decode (q ++ bs) = List.replicate q.length replacement ++ decode bs := by
  induction q with
  | nil => rfl
  | cons b q ih =>
    obtain ⟨hb, hq⟩ := List.forall_mem_cons.mp hq
    have ih := ih hq
    rw [decode] at ih ⊢
    rw [List.cons_append, feed, step, first_of_isTail hb]
    exact congrArg (replacement :: ·) ih

/-! ## Cuts -/

theorem encode_eq_nil {s : Str} (h : encode s = []) : s = [] := by
  cases s with
  | nil => rfl
  | cons c s =>
    obtain ⟨b, tail, e, -⟩ := utf8EncodeChar_tail c
    rw [encode, List.flatMap_cons, e] at h
    cases h

/-- A cut falls between two characters or into one. -/
theorem cut_cases {s : Str} {b rest : List UInt8} (h : encode s = b ++ rest) :
    (∃ u v, s = u ++ v ∧ b = encode u ∧ rest = encode v) ∨
      ∃ u c v p q, s = u ++ c :: v ∧ b = encode u ++ p ∧ rest = q ++ encode v ∧
        String.utf8EncodeChar c = p ++ q ∧ p ≠ [] ∧ q ≠ [] := by
  induction s generalizing b with
  | nil =>
    obtain ⟨rfl, rfl⟩ := List.append_eq_nil_iff.mp h.symm
    exact .inl ⟨[], [], rfl, rfl, rfl⟩
  | cons c s ih =>
    have e : encode (c :: s) = String.utf8EncodeChar c ++ encode s := List.flatMap_cons
    rw [e] at h
    rcases List.append_eq_append_iff.mp h with ⟨a, rfl, hs⟩ | ⟨q, hc, rfl⟩
    · rcases ih hs with ⟨u, v, rfl, rfl, hv⟩ | ⟨u, d, v, p, q, rfl, rfl, hq, hd, hp, hq'⟩
      · exact .inl ⟨c :: u, v, rfl, rfl, hv⟩
      · exact .inr ⟨c :: u, d, v, p, q, rfl, (List.append_assoc ..).symm, hq, hd, hp, hq'⟩
    · by_cases hb : b = []
      · subst hb
        exact .inl ⟨[], c :: s, rfl, rfl, by rw [e, hc]; rfl⟩
      by_cases hq : q = []
      · subst hq
        refine .inl ⟨[c], s, rfl, ?_, rfl⟩
        rw [encode, List.flatMap_singleton, hc, List.append_nil]
      · exact .inr ⟨[], c, s, b, q, rfl, rfl, rfl, hc, hb, hq⟩

/-! ## Spoilt characters -/

def Ascii (s : Str) : Prop := ∀ c ∈ s, c.toNat < 0x80

/-- Some characters outside ASCII have become two or more replacement characters each. -/
inductive Garbled : Str → Str → Prop
  | nil : Garbled [] []
  | keep {s s'} (c : Char) : Garbled s s' → Garbled (c :: s) (c :: s')
  | spoil {s s'} {c : Char} (n : Nat) : 0x80 ≤ c.toNat → Garbled s s' →
      Garbled (c :: s) (List.replicate (n + 2) replacement ++ s')

theorem Garbled.refl : ∀ s : Str, Garbled s s
  | [] => .nil
  | c :: s => .keep c (Garbled.refl s)

theorem Garbled.append {s s' t t' : Str} (hs : Garbled s s') (ht : Garbled t t') :
    Garbled (s ++ t) (s' ++ t') := by
  induction hs with
  | nil => exact ht
  | keep c _ ih => exact .keep c ih
  | spoil n hc _ ih =>
    rw [List.append_assoc]
    exact .spoil n hc ih

theorem Garbled.split {s t x : Str} (h : Garbled (s ++ t) x) :
    ∃ s' t', x = s' ++ t' ∧ Garbled s s' ∧ Garbled t t' := by
  induction s generalizing x with
  | nil => exact ⟨[], x, rfl, .nil, h⟩
  | cons c s ih =>
    cases h with
    | keep _ h =>
      obtain ⟨s', t', rfl, hs, ht⟩ := ih h
      exact ⟨c :: s', t', rfl, .keep c hs, ht⟩
    | spoil n hc h =>
      obtain ⟨s', t', rfl, hs, ht⟩ := ih h
      exact ⟨_, t', (List.append_assoc ..).symm, .spoil n hc hs, ht⟩

theorem Garbled.length_le {s s' : Str} (h : Garbled s s') : s.length ≤ s'.length := by
  induction h with
  | nil => exact Nat.le_refl 0
  | keep c _ ih => exact Nat.succ_le_succ ih
  | spoil n _ _ ih =>
    rw [List.length_append, List.length_replicate, List.length_cons]
    omega

theorem Garbled.eq_of_ascii {s s' : Str} (h : Garbled s s') (hs : Ascii s) : s' = s := by
  induction h with
  | nil => rfl
  | keep c _ ih =>
    exact congrArg (c :: ·) (ih fun d hd => hs d (List.mem_cons_of_mem c hd))
  | spoil n hc _ _ =>
    have := hs _ List.mem_cons_self
    omega

/-- What is in ASCII has not been spoilt. -/
theorem Garbled.eq_of_ascii' {s s' : Str} (h : Garbled s s') (hs : Ascii s') : s' = s := by
  induction h with
  | nil => rfl
  | keep c _ ih =>
    exact congrArg (c :: ·) (ih fun d hd => hs d (List.mem_cons_of_mem c hd))
  | spoil n _ _ _ =>
    have := hs replacement (List.mem_append_left _ (by simp))
    exact absurd this (by decide)

/-- Pieces of the end of a character, and of the text after it. The end of the character gives
one replacement character a byte. -/
theorem decode_pieces : ∀ (pieces : List (List UInt8)) {q : List UInt8} {s : Str},
    (∀ b ∈ q, isTail b) → pieces.flatten = q ++ encode s →
    ∃ s', pieces.flatMap decode = List.replicate q.length replacement ++ s' ∧ Garbled s s' ∧
      (s' = s → q = [] → ∀ piece ∈ pieces, ∃ u, piece = encode u)
  | [], q, s, _, h => by
    obtain ⟨rfl, hs⟩ := List.append_eq_nil_iff.mp h.symm
    obtain rfl := encode_eq_nil hs
    exact ⟨[], rfl, .nil, fun _ _ _ hp => (nomatch hp)⟩
  | piece :: pieces, q, s, hq, h => by
    rw [List.flatten_cons] at h
    rcases List.append_eq_append_iff.mp h with ⟨q', rfl, hrest⟩ | ⟨bs, rfl, hs⟩
    · -- the piece ends within the character
      obtain ⟨htail, hq'⟩ := List.forall_mem_append.mp hq
      obtain ⟨s', e, hg, hall⟩ := decode_pieces pieces hq' hrest
      have hpiece := decode_tail_append htail []
      rw [List.append_nil, show decode [] = [] from rfl, List.append_nil] at hpiece
      refine ⟨s', ?_, hg, fun hs hnil => ?_⟩
      · rw [List.flatMap_cons, hpiece, e, List.length_append, List.replicate_add,
          List.append_assoc]
      · obtain ⟨rfl, rfl⟩ := List.append_eq_nil_iff.mp hnil
        exact List.forall_mem_cons.mpr ⟨⟨[], rfl⟩, hall hs rfl⟩
    rw [List.flatMap_cons, decode_tail_append hq]
    rcases cut_cases hs with ⟨u, v, rfl, rfl, hrest⟩ |
      ⟨u, c, v, p, q', rfl, rfl, hrest, hc, hp, hne⟩
    · -- it ends between two characters
      obtain ⟨v', e, hg, hall⟩ := decode_pieces pieces (q := []) (fun _ hb => (nomatch hb)) hrest
      have e : pieces.flatMap decode = v' := e
      refine ⟨u ++ v', ?_, (Garbled.refl u).append hg, fun hs hnil => ?_⟩
      · rw [decode_encode, e, List.append_assoc]
      · subst hnil
        exact List.forall_mem_cons.mpr ⟨⟨u, rfl⟩, hall (List.append_cancel_left hs) rfl⟩
    · -- it ends within a later character
      obtain ⟨b, tail, hb, htail, hascii⟩ := utf8EncodeChar_tail c
      obtain ⟨b', p, rfl⟩ := List.exists_cons_of_ne_nil hp
      obtain ⟨rfl, rfl⟩ := List.cons.inj (hb.symm.trans hc)
      have hq' : ∀ x ∈ q', isTail x := fun x hx => htail x (List.mem_append_right p hx)
      have hc' : 0x80 ≤ c.toNat := hascii fun e => hne (List.append_eq_nil_iff.mp e).2
      obtain ⟨v', e, hg, -⟩ := decode_pieces pieces hq' hrest
      obtain ⟨n, hn⟩ : ∃ n, q'.length = n + 1 :=
        ⟨q'.length - 1, by have := List.length_pos_iff.mpr hne; omega⟩
      have hspoilt : Garbled (u ++ c :: v) (u ++ (List.replicate (n + 2) replacement ++ v')) :=
        (Garbled.refl u).append (.spoil n hc' hg)
      refine ⟨_, ?_, hspoilt, fun hs _ => ?_⟩
      · rw [decode_encode_append, decode_first hc (List.cons_ne_nil _ _) hne, e, hn,
          List.append_assoc, List.append_assoc]
        rfl
      · have hlength := congrArg List.length hs
        have := hg.length_le
        simp only [List.length_append, List.length_replicate, List.length_cons] at hlength
        omega

theorem garbled_decode {pieces : List (List UInt8)} {s : Str} (h : pieces.flatten = encode s) :
    Garbled s (pieces.flatMap decode) := by
  obtain ⟨s', e, hg, -⟩ := decode_pieces pieces (q := []) (fun _ hb => (nomatch hb)) h
  have e : pieces.flatMap decode = s' := e
  rwa [e]

/-- Pieces that are texts are decoded to these texts, one after the other. -/
theorem decode_texts : ∀ {pieces : List (List UInt8)}, (∀ piece ∈ pieces, ∃ u, piece = encode u) →
    pieces.flatMap decode = decode pieces.flatten
  | [], _ => rfl
  | p :: ps, h => by
    obtain ⟨⟨u, rfl⟩, hrest⟩ := List.forall_mem_cons.mp h
    rw [List.flatMap_cons, List.flatten_cons, decode_encode, decode_encode_append,
      decode_texts hrest]

/-- A text in pieces comes out as it was exactly if no cut falls into a character. -/
theorem decode_pieces_iff {pieces : List (List UInt8)} {s : Str} (h : pieces.flatten = encode s) :
    pieces.flatMap decode = s ↔ ∀ piece ∈ pieces, ∃ u, piece = encode u := by
  constructor
  · obtain ⟨s', e, -, hall⟩ := decode_pieces pieces (q := []) (fun _ hb => (nomatch hb)) h
    have e : pieces.flatMap decode = s' := e
    exact fun hs => hall (e.symm.trans hs) rfl
  · intro hall
    rw [decode_texts hall, h, decode_encode]

end Utf8
