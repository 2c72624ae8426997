import MiniStore.Lib.Utf8
import MiniStore.Protocol.ReplyParser

/-!
# Replies that come in Buffers

The client hands every `Buffer` of its socket to the parser, and `append` decodes each on its
own. A character that a cut falls into is spoilt, and spoilt text keeps its lines, their
first characters and its length or becomes longer: what the parser emits is then different
(`feed_inj`), so the chunks make a difference exactly if a cut falls into a character
(`chunks_iff`).
-/

namespace MiniStore

open Utf8 (Garbled Ascii)

/-! ## Buffers -/

namespace ReplyParser

/-- `append(chunk)` of a `Buffer`. -/
def appendBuffer (p : ReplyParser) (chunk : List UInt8) : ReplyParser × List ParserEvent :=
  p.append (Utf8.decode chunk)

def appendBuffers : ReplyParser → List (List UInt8) → ReplyParser × List ParserEvent
  | p, [] => (p, [])
  | p, chunk :: chunks =>
    ((appendBuffers (p.appendBuffer chunk).1 chunks).1,
      (p.appendBuffer chunk).2 ++ (appendBuffers (p.appendBuffer chunk).1 chunks).2)

theorem append_nil (p : ReplyParser) (s : Str) :
    (p.append s).1.append [] = ((p.append s).1, []) := by
  have h := append_append p s []
  rw [List.append_nil] at h
  have hstate : (p.append s).1 = ((p.append s).1.append []).1 := (congrArg Prod.fst h :)
  have hevents : (p.append s).2 = (p.append s).2 ++ ((p.append s).1.append []).2 :=
    (congrArg Prod.snd h :)
  have hnone : ((p.append s).1.append []).2 = [] :=
    List.append_cancel_left (hevents.symm.trans (List.append_nil _).symm)
  exact Prod.ext hstate.symm hnone

theorem append_nil_fresh : fresh.append [] = (fresh, []) := pump_none rfl

/-- The Buffers are read like the one text they are decoded to. -/
theorem appendBuffers_eq : ∀ (chunks : List (List UInt8)) {p : ReplyParser}, p.append [] = (p, []) →
    p.appendBuffers chunks = p.append (chunks.flatMap Utf8.decode)
  | [], _, hp => hp.symm
  | chunk :: chunks, p, _ => by
    have ih : (p.appendBuffer chunk).1.appendBuffers chunks =
        (p.appendBuffer chunk).1.append (chunks.flatMap Utf8.decode) :=
      appendBuffers_eq chunks (append_nil p (Utf8.decode chunk))
    rw [List.flatMap_cons, append_append, appendBuffers, ih]
    rfl

end ReplyParser

/-! ## What the server sends -/

/-- A reply of one of the builders, or the replies to a queue under one header. -/
inductive ServerReply where
  | call (c : ReplyCall)
  | exec (results : List (List ReplyCall))

namespace ServerReply

def text : ServerReply → Str
  | call c => c.text
  | exec results => Reply.rawArray (results.map fun calls => calls.flatMap ReplyCall.text)

def lines : ServerReply → List Str
  | call c => c.lines
  | exec results =>
    Reply.header results.length :: results.flatMap fun calls => calls.flatMap ReplyCall.lines

/-- No payload has a line break, and a command of a queue has at least one reply. -/
def Sendable : ServerReply → Prop
  | call c => c.Sendable
  | exec results => ∀ calls ∈ results, calls ≠ [] ∧ ∀ c ∈ calls, c.Sendable

theorem text_eq (r : ServerReply) : r.text = ReplyCall.ofLines r.lines := by
  cases r with
  | call c => exact c.text_eq
  | exec results =>
    have htexts : (results.map fun calls => calls.flatMap ReplyCall.text).flatten =
        ReplyCall.ofLines (results.flatMap fun calls => calls.flatMap ReplyCall.lines) := by
      rw [ReplyCall.ofLines, List.flatMap_assoc, ← List.flatMap_def]
      exact List.flatMap_congr fun calls _ => ReplyCall.texts_eq calls
    rw [text, Reply.rawArray_eq, List.length_map, htexts, ← List.append_assoc]
    rfl

theorem texts_eq (replies : List ServerReply) :
    replies.flatMap text = ReplyCall.ofLines (replies.flatMap lines) := by
  rw [ReplyCall.ofLines, List.flatMap_assoc]
  exact List.flatMap_congr fun r _ => r.text_eq

theorem unbroken_lines {r : ServerReply} (h : r.Sendable) : ∀ l ∈ r.lines, Unbroken l := by
  cases r with
  | call c => exact ReplyCall.unbroken_lines h
  | exec results =>
    refine List.forall_mem_cons.mpr ⟨Reply.unbroken_header _, fun l hl => ?_⟩
    obtain ⟨calls, hc, hl⟩ := List.mem_flatMap.mp hl
    exact ReplyCall.unbroken_flatMap_lines (h calls hc).2 l hl

end ServerReply

/-! ## Lines -/

/-- The lines of the server's replies. -/
inductive WireLine : Str → Prop
  | status (body : Str) : WireLine ('+' :: body)
  | error (body : Str) : WireLine ('-' :: body)
  | bulk (body : Str) : WireLine ('$' :: body)
  | integer (n : Int) : WireLine (':' :: (toString n).toList)
  | header (n : Nat) : WireLine (Reply.header n)

theorem WireLine.cons {l : Str} (h : WireLine l) : ∃ c s, l = c :: s ∧ c.toNat < 0x80 := by
  cases h <;> exact ⟨_, _, rfl, by decide⟩

theorem ascii_toString (n : Nat) : Ascii (toString n).toList := by
  intro c hc
  have h := List.all_eq_true.mp (CommandParser.all_isDigit_toString n) c hc
  have hle : c ≤ '9' := of_decide_eq_true (Bool.and_eq_true_iff.mp h).2
  exact Nat.lt_of_le_of_lt hle (by decide)

theorem ascii_toString_int : ∀ n : Int, Ascii (toString n).toList
  | .ofNat n => ascii_toString n
  | .negSucc n => by
    rw [toList_toString_negSucc]
    exact List.forall_mem_cons.mpr ⟨by decide, ascii_toString (n + 1)⟩

theorem wireLine_lines (c : ReplyCall) : ∀ l ∈ c.lines, WireLine l := by
  have hone : ∀ {s : Str}, WireLine s → ∀ l ∈ [s], WireLine l := fun hs l hl =>
    List.mem_singleton.mp hl ▸ hs
  cases c with
  | ok message => exact hone (.status message)
  | value v => exact hone (.bulk v)
  | nil => exact hone (.bulk "(nil)".toList)
  | integer n => exact hone (.integer n)
  | error | wrongType => exact hone (.error _)
  | array items =>
    refine List.forall_mem_cons.mpr ⟨.header _, fun l hl => ?_⟩
    obtain ⟨i, -, rfl⟩ := List.mem_map.mp hl
    exact .bulk i

theorem ServerReply.wireLine_lines (r : ServerReply) : ∀ l ∈ r.lines, WireLine l := by
  cases r with
  | call c => exact MiniStore.wireLine_lines c
  | exec results =>
    refine List.forall_mem_cons.mpr ⟨.header _, fun l hl => ?_⟩
    obtain ⟨calls, -, hl⟩ := List.mem_flatMap.mp hl
    obtain ⟨c, -, hl⟩ := List.mem_flatMap.mp hl
    exact MiniStore.wireLine_lines c l hl

/-- Every header is followed by as many lines as it counts. -/
def Counts : List Str → Prop
  | [] => True
  | l :: ls => (∀ n, l = Reply.header n → n ≤ ls.length) ∧ Counts ls

theorem Counts.drop {ls : List Str} (h : Counts ls) : ∀ n, Counts (ls.drop n) := by
  induction ls with
  | nil => intro n; rw [List.drop_nil]; exact h
  | cons l ls ih =>
    rintro (_ | n)
    · exact h
    · exact ih h.2 n

theorem Counts.append {ls ms : List Str} (hl : Counts ls) (hm : Counts ms) : Counts (ls ++ ms) := by
  induction ls with
  | nil => exact hm
  | cons l ls ih =>
    refine ⟨fun n hn => ?_, ih hl.2⟩
    have := hl.1 n hn
    show n ≤ (ls ++ ms).length
    rw [List.length_append]
    omega

theorem counts_flatMap {α : Type} {f : α → List Str} {as : List α}
    (h : ∀ a ∈ as, Counts (f a)) : Counts (as.flatMap f) := by
  induction as with
  | nil => trivial
  | cons a as ih =>
    obtain ⟨ha, h⟩ := List.forall_mem_cons.mp h
    exact ha.append (ih h)

theorem counts_lines (c : ReplyCall) : Counts c.lines := by
  have hone : ∀ {b : Char} {s : Str}, b ≠ '*' → Counts [b :: s] := fun hb =>
    ⟨fun n hn => absurd (List.cons.inj hn).1 hb, trivial⟩
  cases c with
  | ok | value | nil | integer | error | wrongType => exact hone (by decide)
  | array items =>
    refine ⟨fun n hn => ?_, ?_⟩
    · rw [List.length_map]
      exact (Reply.header_inj hn).ge
    · clear hone
      induction items with
      | nil => trivial
      | cons i items ih => exact ⟨fun n hn => absurd (List.cons.inj hn).1 (by decide), ih⟩

theorem ServerReply.counts_lines {r : ServerReply} (h : r.Sendable) : Counts r.lines := by
  cases r with
  | call c => exact MiniStore.counts_lines c
  | exec results =>
    refine ⟨fun n hn => ?_, counts_flatMap fun calls _ => counts_flatMap fun c _ =>
      MiniStore.counts_lines c⟩
    rw [← Reply.header_inj hn]
    -- every result has a reply, and every reply has a line
    have hpos : ∀ calls ∈ results, 1 ≤ (calls.flatMap ReplyCall.lines).length := by
      intro calls hc
      obtain ⟨c, cs, rfl⟩ := List.exists_cons_of_ne_nil (h calls hc).1
      rw [List.flatMap_cons, List.length_append]
      have : 1 ≤ c.lines.length := by cases c <;> exact Nat.le_add_left 1 _
      omega
    clear h hn
    induction results with
    | nil => exact Nat.le_refl 0
    | cons calls results ih =>
      obtain ⟨h1, hpos⟩ := List.forall_mem_cons.mp hpos
      have := ih hpos
      rw [List.flatMap_cons, List.length_append, List.length_cons]
      omega

/-! ## Spoilt lines -/

theorem unbroken_garbled {s s' : Str} (h : Garbled s s') (hs : Unbroken s) : Unbroken s' := by
  induction h with
  | nil => exact hs
  | keep c _ ih =>
    obtain ⟨hc, hs⟩ := List.forall_mem_cons.mp hs
    exact (ih hs).cons hc
  | spoil n _ _ ih =>
    refine Unbroken.append (fun c hc => ?_) (ih (List.forall_mem_cons.mp hs).2)
    rw [(List.mem_replicate.mp hc).2]
    decide

/-- The first character stays, if it is in ASCII. -/
theorem garbled_cons {c : Char} {s x : Str} (hc : c.toNat < 0x80) (h : Garbled (c :: s) x) :
    ∃ s', x = c :: s' ∧ Garbled s s' := by
  cases h with
  | keep _ h => exact ⟨_, rfl, h⟩
  | spoil n hc' h => omega

theorem garbled_ofLines : ∀ {lines : List Str} {x : Str}, Garbled (ReplyCall.ofLines lines) x →
    ∃ lines', x = ReplyCall.ofLines lines' ∧ List.Forall₂ Garbled lines lines'
  | [], x, h => by
    cases h
    exact ⟨[], rfl, .nil⟩
  | line :: lines, x, h => by
    have hcrlf : Ascii Reply.crlf := by
      simp only [Ascii, Reply.crlf, List.forall_mem_cons]
      exact ⟨by decide, by decide, fun _ h => absurd h List.not_mem_nil⟩
    have e : ReplyCall.ofLines (line :: lines) = (line ++ Reply.crlf) ++ ReplyCall.ofLines lines :=
      List.flatMap_cons
    rw [e] at h
    obtain ⟨first, rest, rfl, hfirst, hrest⟩ := h.split
    obtain ⟨line', ending, rfl, hline, hending⟩ := hfirst.split
    obtain rfl := hending.eq_of_ascii hcrlf
    obtain ⟨lines', rfl, hlines⟩ := garbled_ofLines hrest
    exact ⟨line' :: lines', rfl, .cons hline hlines⟩

theorem unbroken_garbled_lines {lines lines' : List Str} (h : List.Forall₂ Garbled lines lines')
    (hl : ∀ l ∈ lines, Unbroken l) : ∀ l ∈ lines', Unbroken l := by
  induction h with
  | nil => exact hl
  | cons h _ ih =>
    obtain ⟨hline, hrest⟩ := List.forall_mem_cons.mp hl
    exact List.forall_mem_cons.mpr ⟨unbroken_garbled h hline, ih hrest⟩

namespace ReplyParser

/-- As an item, a line that begins in ASCII can be told from what it is spoilt to. -/
theorem parseBulkLine_inj {c : Char} {s l : Str} (hc : c.toNat < 0x80) (h : Garbled (c :: s) l)
    (e : parseBulkLine (c :: s) = parseBulkLine l) : l = c :: s := by
  have hascii : Ascii "$(nil)".toList := by
    rw [show "$(nil)".toList = ['$', '(', 'n', 'i', 'l', ')'] from rfl]
    simp [Ascii]
  by_cases hnil : c :: s = "$(nil)".toList
  · exact h.eq_of_ascii (hnil ▸ hascii)
  by_cases hnil' : l = "$(nil)".toList
  · exact h.eq_of_ascii' (hnil' ▸ hascii)
  obtain ⟨s', rfl, -⟩ := garbled_cons hc h
  rw [parseBulkLine, if_neg hnil, parseBulkLine, if_neg hnil'] at e
  exact congrArg (c :: ·) (Option.some.inj e).symm

theorem announce_inj {items items' : List (Option Str)} (h : announce items = announce items') :
    items = items' := by
  have hd := congrArg data h
  rw [data_announce, data_announce] at hd
  exact ParsedReply.array.inj (Option.some.inj hd)

theorem processLine_item (n : Option Int) (xs : List (Option Str)) (line : Str) :
    processLine ⟨[], true, n, xs⟩ line =
      if n = some ((xs ++ [parseBulkLine line]).length : Int) then
        (fresh, [announce (xs ++ [parseBulkLine line])])
      else (⟨[], true, n, xs ++ [parseBulkLine line]⟩, []) := rfl

theorem processLine_header (n : Nat) : fresh.processLine (Reply.header n) =
    if n = 0 then (fresh, [.reply (.array [])]) else (⟨[], true, some (n : Int), []⟩, []) := by
  have hiff : some (n : Int) = some 0 ↔ n = 0 := by simp
  simp only [processLine, fresh, Reply.header, parseInt_digits, hiff, Bool.false_eq_true, if_false]

/-- A line between two replies that is no header is a reply. -/
theorem processLine_reply {l l' : Str} (hl : WireLine l) (hh : ∀ n, l ≠ Reply.header n)
    (h : Garbled l l') : ∃ e e', fresh.processLine l = (fresh, [e]) ∧
      fresh.processLine l' = (fresh, [e']) ∧ (e = e' → l' = l) := by
  cases hl with
  | status body =>
    obtain ⟨body', rfl, -⟩ := garbled_cons (by decide) h
    refine ⟨_, _, rfl, rfl, fun e => ?_⟩
    cases e
    rfl
  | error body =>
    obtain ⟨body', rfl, -⟩ := garbled_cons (by decide) h
    refine ⟨_, _, rfl, rfl, fun e => ?_⟩
    cases e
    rfl
  | bulk body =>
    obtain ⟨body', rfl, -⟩ := garbled_cons (by decide) h
    refine ⟨_, _, rfl, rfl, fun e => parseBulkLine_inj (by decide) h ?_⟩
    exact ParsedReply.bulk.inj (ParserEvent.reply.inj e)
  | integer n =>
    obtain rfl := h.eq_of_ascii (List.forall_mem_cons.mpr ⟨by decide, ascii_toString_int n⟩)
    exact ⟨_, _, rfl, rfl, fun _ => rfl⟩
  | header n => exact absurd rfl (hh n)

/-- Lines in which every header counts no more than there are leave no array open. -/
theorem feed_counts : ∀ (n : Nat) {lines : List Str}, lines.length = n → Counts lines →
    (∀ l ∈ lines, WireLine l) → (feed fresh lines).1 = fresh := by
  intro n
  induction n using Nat.strongRecOn with
  | _ n ih =>
    rintro lines rfl hcounts hwire
    cases lines with
    | nil => rfl
    | cons l lines =>
      obtain ⟨hl, hrest⟩ := List.forall_mem_cons.mp hwire
      by_cases hh : ∃ m, l = Reply.header m
      · obtain ⟨m, rfl⟩ := hh
        -- the lines it counts complete the array
        have hm := hcounts.1 m rfl
        have e : Reply.header m :: lines =
            (Reply.header (lines.take m).length :: lines.take m) ++ lines.drop m := by
          rw [List.length_take_of_le hm, List.cons_append, List.take_append_drop]
        rw [e, feed_append, feed_array]
        refine ih (lines.drop m).length ?_ rfl (hcounts.2.drop m) fun l hl =>
          hrest l (List.mem_of_mem_drop hl)
        rw [List.length_drop, List.length_cons]
        omega
      · obtain ⟨e, -, he, -, -⟩ := processLine_reply hl (fun m hm => hh ⟨m, hm⟩) (Garbled.refl l)
        rw [feed, he]
        exact ih lines.length (by simp) rfl hcounts.2 hrest

/-- Two parsers between two replies, or at the same place of an array. -/
inductive Alike : ReplyParser → ReplyParser → Prop
  | between : Alike fresh fresh
  | inside {n : Option Int} {xs xs' : List (Option Str)} (h : xs.length = xs'.length) :
    Alike ⟨[], true, n, xs⟩ ⟨[], true, n, xs'⟩

theorem alike_header (n : Nat) :
    Alike (fresh.processLine (Reply.header n)).1 (fresh.processLine (Reply.header n)).1 := by
  rw [processLine_header]
  split
  · exact .between
  · exact .inside rfl

/-- A line and what it is spoilt to: the parsers stay alike, and what they emit and hold can be
told if the lines can be. -/
theorem processLine_inj {p p' : ReplyParser} (hp : Alike p p') {l l' : Str} (hline : WireLine l)
    (hl : Garbled l l') : Alike (p.processLine l).1 (p'.processLine l').1 ∧
      (p.processLine l).2.length = (p'.processLine l').2.length ∧
      ((p.processLine l).2 = (p'.processLine l').2 →
        (p.processLine l).1.arrayItems = (p'.processLine l').1.arrayItems →
          l' = l ∧ p.arrayItems = p'.arrayItems) := by
  cases hp with
  | between =>
    by_cases hh : ∃ n, l = Reply.header n
    · obtain ⟨n, rfl⟩ := hh
      have hascii : Ascii (Reply.header n) :=
        List.forall_mem_cons.mpr ⟨by decide, ascii_toString n⟩
      obtain rfl := hl.eq_of_ascii hascii
      exact ⟨alike_header n, rfl, fun _ _ => ⟨rfl, rfl⟩⟩
    · obtain ⟨e, e', he, he', hinj⟩ := processLine_reply hline (fun n hn => hh ⟨n, hn⟩) hl
      rw [he, he']
      exact ⟨.between, rfl, fun h _ => ⟨hinj (List.cons.inj h).1, rfl⟩⟩
  | @inside n xs xs' hlen =>
    obtain ⟨c, s, rfl, hc⟩ := hline.cons
    -- from equal items on, the lines are the same
    have hitem : xs ++ [parseBulkLine (c :: s)] = xs' ++ [parseBulkLine l'] →
        l' = c :: s ∧ xs = xs' := by
      intro h
      obtain ⟨hxs, hi⟩ := List.append_inj h hlen
      exact ⟨parseBulkLine_inj hc hl (List.cons.inj hi).1, hxs⟩
    have hlast : (xs ++ [parseBulkLine (c :: s)]).length =
        (xs' ++ [parseBulkLine l']).length := by
      rw [List.length_append, List.length_append, hlen]
      rfl
    rw [processLine_item, processLine_item, ← hlast]
    by_cases hn : n = some ((xs ++ [parseBulkLine (c :: s)]).length : Int)
    · rw [if_pos hn, if_pos hn]
      exact ⟨.between, rfl, fun h _ => hitem (announce_inj (List.cons.inj h).1)⟩
    · rw [if_neg hn, if_neg hn]
      exact ⟨.inside hlast, rfl, fun _ h => hitem h⟩

/-- Lines that leave no array open can be told from what they are spoilt to. In an array the
items so far can be told too. -/
theorem feed_inj {lines lines' : List Str} (h : List.Forall₂ Garbled lines lines') :
    (∀ l ∈ lines, WireLine l) → ∀ {p p' : ReplyParser}, Alike p p' →
      (feed p lines).1 = fresh → (feed p lines).2 = (feed p' lines').2 →
      lines' = lines ∧ p.arrayItems = p'.arrayItems := by
  induction h with
  | nil =>
    rintro - p p' hp hend -
    refine ⟨rfl, ?_⟩
    cases hp with
    | between => rfl
    | inside => cases hend
  | cons hl _ ih =>
    intro hwire p p' hp hend hevents
    obtain ⟨hline, hrest⟩ := List.forall_mem_cons.mp hwire
    obtain ⟨hnext, hlen, hstep⟩ := processLine_inj hp hline hl
    obtain ⟨hhead, htail⟩ := List.append_inj hevents hlen
    obtain ⟨rfl, hitems⟩ := ih hrest hnext hend htail
    obtain ⟨rfl, hsame⟩ := hstep hhead hitems
    exact ⟨rfl, hsame⟩

/-- Replies can be told from what they are spoilt to. -/
theorem append_inj {replies : List ServerReply} (hs : ∀ r ∈ replies, r.Sendable) {x : Str}
    (h : Garbled (replies.flatMap ServerReply.text) x)
    (e : (fresh.append (replies.flatMap ServerReply.text)).2 = (fresh.append x).2) :
    x = replies.flatMap ServerReply.text := by
  have hunbroken : ∀ l ∈ replies.flatMap ServerReply.lines, Unbroken l := by
    intro l hl
    obtain ⟨r, hr, hl⟩ := List.mem_flatMap.mp hl
    exact ServerReply.unbroken_lines (hs r hr) l hl
  have hwire : ∀ l ∈ replies.flatMap ServerReply.lines, WireLine l := by
    intro l hl
    obtain ⟨r, -, hl⟩ := List.mem_flatMap.mp hl
    exact r.wireLine_lines l hl
  have hcounts : Counts (replies.flatMap ServerReply.lines) :=
    counts_flatMap fun r hr => ServerReply.counts_lines (hs r hr)
  rw [ServerReply.texts_eq] at h e ⊢
  obtain ⟨lines', rfl, hlines⟩ := garbled_ofLines h
  rw [append_lines hunbroken, append_lines (unbroken_garbled_lines hlines hunbroken)] at e
  have hend := feed_counts _ rfl hcounts hwire
  rw [(feed_inj hlines hwire .between hend e).1]

/-- For all Buffers: if no cut falls into a character, that is, if every Buffer is a text, the
parser emits the same events for the Buffers as for all bytes at once. If they are the replies of a
server, in which every command of a transaction gives one, then only if. -/
theorem chunks_iff (chunks : List (List UInt8)) :
    ((∀ chunk ∈ chunks, ∃ s, chunk = Utf8.encode s) →
      (fresh.appendBuffers chunks).2 = (fresh.appendBuffer chunks.flatten).2) ∧
    ∀ replies : List ServerReply, (∀ r ∈ replies, r.Sendable) →
      chunks.flatten = Utf8.encode (replies.flatMap ServerReply.text) →
      ((fresh.appendBuffers chunks).2 = (fresh.appendBuffer chunks.flatten).2 ↔
        ∀ chunk ∈ chunks, ∃ s, chunk = Utf8.encode s) := by
  have hsufficient : (∀ chunk ∈ chunks, ∃ s, chunk = Utf8.encode s) →
      (fresh.appendBuffers chunks).2 = (fresh.appendBuffer chunks.flatten).2 := fun h => by
    rw [appendBuffers_eq chunks append_nil_fresh, Utf8.decode_texts h]
    rfl
  refine ⟨hsufficient, fun replies hs hc => ⟨fun e => ?_, hsufficient⟩⟩
  rw [appendBuffers_eq chunks append_nil_fresh, appendBuffer, hc, Utf8.decode_encode] at e
  exact (Utf8.decode_pieces_iff hc).mp (append_inj hs (Utf8.garbled_decode hc) e.symm)

def accent : ServerReply := .call (.value ['\u00e9'])

theorem sendable_accent : ∀ r ∈ [accent], r.Sendable :=
  List.forall_mem_singleton.mpr (List.forall_mem_singleton.mpr (by decide))

/-- The last Buffers are the header of a transaction whose one command has no reply. -/
theorem chunks_iff_accent :
    (fresh.appendBuffers [[0x24, 0xC3, 0xA9, 0x0D], [0x0A]]).2 =
        (fresh.appendBuffer [0x24, 0xC3, 0xA9, 0x0D, 0x0A]).2 ∧
      (fresh.appendBuffers [[0x24, 0xC3, 0xA9, 0x0D, 0x0A, 0x2A], [0x31, 0x0D, 0x0A]]).2 =
        (fresh.appendBuffer [0x24, 0xC3, 0xA9, 0x0D, 0x0A, 0x2A, 0x31, 0x0D, 0x0A]).2 := by
  refine ⟨((chunks_iff [[0x24, 0xC3, 0xA9, 0x0D], [0x0A]]).2 [accent] sendable_accent
    (by decide)).mpr ?_,
    (chunks_iff [[0x24, 0xC3, 0xA9, 0x0D, 0x0A, 0x2A], [0x31, 0x0D, 0x0A]]).1 ?_⟩
  · simp only [List.forall_mem_cons]
    exact ⟨⟨['$', '\u00e9', '\r'], by decide⟩, ⟨['\n'], by decide⟩, fun _ h => nomatch h⟩
  · simp only [List.forall_mem_cons]
    exact ⟨⟨['$', '\u00e9', '\r', '\n', '*'], by decide⟩, ⟨['1', '\r', '\n'], by decide⟩,
      fun _ h => nomatch h⟩

/-- The two bytes of `é` come in two Buffers, and each is a replacement character. -/
theorem cut_character :
    [[0x24, 0xC3], [0xA9, 0x0D, 0x0A]].flatten = Utf8.encode ([accent].flatMap ServerReply.text) ∧
      (fresh.appendBuffers [[0x24, 0xC3], [0xA9, 0x0D, 0x0A]]).2 =
        [.reply (.bulk (some ['\uFFFD', '\uFFFD']))] ∧
      (fresh.appendBuffer [[0x24, 0xC3], [0xA9, 0x0D, 0x0A]].flatten).2 =
        [.reply (.bulk (some ['\u00e9']))] := by
  have hread : ∀ s : Str, Unbroken s →
      (fresh.append ([ReplyCall.value s].flatMap ReplyCall.text)).2 = [event (.value s)] := by
    intro s hs
    have hsend : ∀ c ∈ [ReplyCall.value s], c.Sendable := List.forall_mem_singleton.mpr hs
    rw [append_texts hsend]
    rfl
  have hspoilt : [[0x24, 0xC3], [0xA9, 0x0D, 0x0A]].flatMap Utf8.decode =
      [ReplyCall.value ['\uFFFD', '\uFFFD']].flatMap ReplyCall.text := by decide
  have hwhole : Utf8.decode [[0x24, 0xC3], [0xA9, 0x0D, 0x0A]].flatten =
      [ReplyCall.value ['\u00e9']].flatMap ReplyCall.text := by decide
  refine ⟨by decide, ?_, ?_⟩
  · have hs : Unbroken ['\uFFFD', '\uFFFD'] := Unbroken.cons (by decide)
      (List.forall_mem_singleton.mpr (by decide))
    rw [appendBuffers_eq _ append_nil_fresh, hspoilt, hread _ hs]
    decide
  · rw [appendBuffer, hwhole, hread _ (List.forall_mem_singleton.mpr (by decide))]
    decide

end ReplyParser

end MiniStore
