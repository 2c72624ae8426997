import MiniStore.Lib.LineBuffer

/-!
# TcpServer

The framing of a connection. The data handler adds a chunk to the buffer, gives the
connection up when the buffer is too long, and then takes complete lines off it.

`framed` is what the stream as a whole calls for. The limit is tested on the buffer before
its complete lines are taken out, so a chunk of many short lines can end a connection that
`framed` keeps; `framing_iff` says exactly which cuts of a stream do no harm.
-/

namespace MiniStore

open Text

/-- How a call of the line handler ends. -/
inductive LineOutcome where
  | reply (text : Str)
  | nothing
  | threw
  deriving DecidableEq

/-- A line handler with the state it works on. -/
abbrev LineHandler (σ : Type) := σ → Str → σ × LineOutcome

/-- The socket of a connection: what has not been framed yet, whether the socket has been
destroyed, what has been written to it, and the state of the line handler. -/
structure TcpConnection (σ : Type) where
  buffer : Str
  destroyed : Bool
  written : Str
  handler : σ

namespace TcpServer

def lineTooLong : Str := "-ERR line too long\r\n".toList

def internalServerError : Str := "-ERR internal server error\r\n".toList

/-- A trailing CR is stripped. -/
def stripCr (line : Str) : Str := if line.getLast? = some '\r' then line.dropLast else line

section

variable {σ : Type}

/-- The body of the loop, for one line. -/
def takeLine (handleLine : LineHandler σ) (c : TcpConnection σ) (line : Str) : TcpConnection σ :=
  let line := stripCr line
  if line.length = 0 then c
  else
    match handleLine c.handler line with
    | (handler, .reply text) => { c with handler := handler, written := c.written ++ text }
    | (handler, .nothing) => { c with handler := handler }
    | (handler, .threw) =>
      { c with handler := handler, written := c.written ++ internalServerError }

theorem takeLine_buffer (handleLine : LineHandler σ) (c : TcpConnection σ) (line : Str) :
    (takeLine handleLine c line).buffer = c.buffer ∧
      (takeLine handleLine c line).destroyed = c.destroyed := by
  unfold takeLine
  dsimp only
  split
  · exact ⟨rfl, rfl⟩
  · split <;> exact ⟨rfl, rfl⟩

/-- `while ((newlineIndex = buffer.indexOf('\n')) !== -1)`. -/
def takeLines (handleLine : LineHandler σ) (c : TcpConnection σ) : TcpConnection σ :=
  match _h : splitLf c.buffer with
  | none => c
  | some (line, rest) => takeLines handleLine (takeLine handleLine { c with buffer := rest } line)
termination_by c.buffer.length
decreasing_by
  rw [(takeLine_buffer handleLine { c with buffer := rest } line).1, (splitLf_some.mp _h).1,
    List.length_append, List.length_cons]
  dsimp only
  omega

/-- The data handler. A destroyed socket has no more data. -/
def onData (maxLineBytes : Nat) (handleLine : LineHandler σ) (c : TcpConnection σ)
    (chunk : Str) : TcpConnection σ :=
  if c.destroyed then c
  else if units (c.buffer ++ chunk) > maxLineBytes then
    { c with
      buffer := c.buffer ++ chunk
      written := c.written ++ lineTooLong
      destroyed := true }
  else takeLines handleLine { c with buffer := c.buffer ++ chunk }

def onConnection (handler : σ) : TcpConnection σ := ⟨[], false, [], handler⟩

def receive (maxLineBytes : Nat) (handleLine : LineHandler σ) (c : TcpConnection σ)
    (chunks : List Str) : TcpConnection σ :=
  chunks.foldl (onData maxLineBytes handleLine) c

/-- The line handler, with the lines it has been given. -/
def noting (handleLine : LineHandler σ) : LineHandler (σ × List Str) := fun (st, lines) line =>
  match handleLine st line with
  | (st, outcome) => ((st, lines ++ [line]), outcome)

end

/-! ## The stream as a whole -/

def handled (lines : List Str) : List Str := (lines.map stripCr).filter fun line => line.length > 0

/-- With its LF the line is not too long. -/
def fits (maxLineBytes : Nat) (line : Str) : Bool := units line + 1 ≤ maxLineBytes

/-- The lines before the first that is too long, and whether there is such a line; the
unterminated text at the end counts as one. -/
def framed (maxLineBytes : Nat) (stream : Str) : List Str × Bool :=
  (handled ((lfLines stream).1.takeWhile (fits maxLineBytes)),
    !(lfLines stream).1.all (fits maxLineBytes) || maxLineBytes < units (lfLines stream).2)

/-- After short blank lines comes one that is too long. -/
def beginsOverlong (maxLineBytes : Nat) (text : Str) : Bool :=
  match (lfLines text).1.dropWhile (fun line => fits maxLineBytes line && stripCr line = []) with
  | [] => maxLineBytes < units (lfLines text).2
  | line :: _ => !fits maxLineBytes line

def unterminated (chunks : List Str) : Str := (lfLines chunks.flatten).2

/-- With the unterminated text before it the chunk is too long for the buffer. -/
def Overflows (maxLineBytes : Nat) (past : List Str) (chunk : Str) : Prop :=
  units (unterminated past ++ chunk) > maxLineBytes

/-- After the chunks of `past`, the first of the `chunks` to overflow makes a text, with the
unterminated text before it and all that follows, that begins with a line that is too long
anyway. -/
def Harmless (maxLineBytes : Nat) (past chunks : List Str) : Prop :=
  ∀ before chunk rest, chunks = before ++ chunk :: rest →
    Overflows maxLineBytes (past ++ before) chunk →
    (∀ p q r, before = p ++ q :: r → ¬ Overflows maxLineBytes (past ++ p) q) →
    beginsOverlong maxLineBytes (unterminated (past ++ before) ++ (chunk :: rest).flatten) = true

/-- The lines that reach the handler and the rejection are those of the stream. -/
def Faithful (maxLineBytes : Nat) (chunks : List Str) : Prop :=
  ∀ {σ : Type} (handleLine : LineHandler σ) (st : σ),
    let c := receive maxLineBytes (noting handleLine) (onConnection (st, [])) chunks
    (c.handler.2, c.destroyed) = framed maxLineBytes chunks.flatten

section

variable {maxLineBytes : Nat}

theorem handled_append (lines lines' : List Str) :
    handled (lines ++ lines') = handled lines ++ handled lines' := by
  rw [handled, List.map_append, List.filter_append]
  rfl

theorem handled_cons (line : Str) (lines : List Str) :
    handled (line :: lines) = handled [line] ++ handled lines := handled_append [line] lines

theorem framed_of_not_mem {s : Str} (h : '\n' ∉ s) :
    framed maxLineBytes s = ([], decide (maxLineBytes < units s)) := by
  rw [framed, lfLines_of_not_mem h]
  rfl

theorem framed_line {line : Str} (h : '\n' ∉ line) (rest : Str) :
    framed maxLineBytes (line ++ '\n' :: rest) =
      if fits maxLineBytes line then
        (handled [line] ++ (framed maxLineBytes rest).1, (framed maxLineBytes rest).2)
      else ([], true) := by
  rw [framed, lfLines_line h]
  by_cases hf : fits maxLineBytes line
  · rw [if_pos hf, List.takeWhile_cons_of_pos hf, handled_cons, List.all_cons, hf, Bool.true_and]
    rfl
  · rw [if_neg hf, List.takeWhile_cons_of_neg hf, List.all_cons, Bool.eq_false_iff.mpr hf]
    rfl

theorem framed_append (t : Str) : ∀ s : Str, (∀ line ∈ (lfLines s).1, fits maxLineBytes line) →
    framed maxLineBytes (s ++ t) =
      (handled (lfLines s).1 ++ (framed maxLineBytes ((lfLines s).2 ++ t)).1,
        (framed maxLineBytes ((lfLines s).2 ++ t)).2) := by
  refine lf_induction (fun s h _ => ?_) fun line rest h ih hfits => ?_
  · rw [lfLines_of_not_mem h]
    rfl
  · rw [lfLines_line h] at hfits ⊢
    obtain ⟨hf, hrest⟩ := List.forall_mem_cons.mp hfits
    dsimp only
    rw [List.append_assoc, List.cons_append, framed_line h, if_pos hf, ih hrest,
      handled_cons line (lfLines rest).1, List.append_assoc]

/-- The rejection comes first exactly if only short blank lines come before it. -/
theorem framed_eq_rejected : ∀ s : Str,
    framed maxLineBytes s = ([], true) ↔ beginsOverlong maxLineBytes s = true := by
  refine lf_induction (fun s h => ?_) fun line rest h ih => ?_
  · rw [framed_of_not_mem h, beginsOverlong, lfLines_of_not_mem h]
    simp
  · rw [framed_line h]
    by_cases hf : fits maxLineBytes line
    · by_cases hb : stripCr line = []
      · have hh : handled [line] = [] := by simp [handled, hb]
        have hbegins : beginsOverlong maxLineBytes (line ++ '\n' :: rest) =
            beginsOverlong maxLineBytes rest := by
          rw [beginsOverlong, lfLines_line h, List.dropWhile_cons_of_pos (by simp [hf, hb])]
          rfl
        rw [if_pos hf, hh, List.nil_append, hbegins]
        exact ih
      · have hh : handled [line] = [stripCr line] := by
          simpa [handled] using List.length_pos_iff.mpr hb
        rw [if_pos hf, hh, beginsOverlong, lfLines_line h,
          List.dropWhile_cons_of_neg (by simp [hb])]
        simp [hf]
    · rw [if_neg hf, beginsOverlong, lfLines_line h, List.dropWhile_cons_of_neg (by simp [hf])]
      simp [hf]

end

/-! ## Chunk by chunk -/

section

variable {σ : Type} {handleLine : LineHandler σ}

theorem takeLines_none {c : TcpConnection σ} (h : splitLf c.buffer = none) :
    takeLines handleLine c = c := by
  rw [takeLines]
  split
  · rfl
  · next hs =>
    rw [h] at hs
    cases hs

theorem takeLines_some {c : TcpConnection σ} {line rest : Str}
    (h : splitLf c.buffer = some (line, rest)) :
    takeLines handleLine c =
      takeLines handleLine (takeLine handleLine { c with buffer := rest } line) := by
  rw [takeLines]
  split
  · next hs =>
    rw [h] at hs
    cases hs
  · next hs =>
    obtain ⟨rfl, rfl⟩ := Prod.mk.inj (Option.some.inj (h.symm.trans hs))
    rfl

/-- A line reaches the handler unless it is blank. -/
theorem takeLine_noting (c : TcpConnection (σ × List Str)) (line : Str) :
    (takeLine (noting handleLine) c line).handler.2 = c.handler.2 ++ handled [line] := by
  unfold takeLine
  dsimp only
  by_cases h : (stripCr line).length = 0
  · have hh : handled [line] = [] := by simp [handled, List.length_eq_zero_iff.mp h]
    rw [if_pos h, hh, List.append_nil]
  · have hh : handled [line] = [stripCr line] := by
      simpa [handled] using Nat.pos_of_ne_zero h
    rw [if_neg h, hh]
    unfold noting
    dsimp only
    generalize handleLine c.handler.1 (stripCr line) = r
    obtain ⟨st, outcome⟩ := r
    cases outcome <;> rfl

theorem takeLines_noting (handleLine : LineHandler σ) :
    ∀ (b : Str) (c : TcpConnection (σ × List Str)), c.buffer = b →
      (takeLines (noting handleLine) c).buffer = (lfLines b).2 ∧
        (takeLines (noting handleLine) c).destroyed = c.destroyed ∧
        (takeLines (noting handleLine) c).handler.2 = c.handler.2 ++ handled (lfLines b).1 := by
  refine lf_induction (fun b h c hb => ?_) fun line rest h ih c hb => ?_
  · rw [takeLines_none (by rw [hb]; exact splitLf_none.mpr h), lfLines_of_not_mem h]
    exact ⟨hb, rfl, (List.append_nil _).symm⟩
  · obtain ⟨hbuffer, hdestroyed⟩ :=
      takeLine_buffer (noting handleLine) { c with buffer := rest } line
    obtain ⟨h1, h2, h3⟩ := ih _ hbuffer
    rw [takeLines_some (by rw [hb]; exact splitLf_some.mpr ⟨rfl, h⟩), lfLines_line h, handled_cons]
    refine ⟨h1, h2.trans hdestroyed, ?_⟩
    rw [h3, takeLine_noting, List.append_assoc]

theorem receive_destroyed {maxLineBytes : Nat} (chunks : List Str) {c : TcpConnection σ}
    (h : c.destroyed = true) : receive maxLineBytes handleLine c chunks = c := by
  induction chunks with
  | nil => rfl
  | cons chunk chunks ih =>
    have hstep : onData maxLineBytes handleLine c chunk = c := if_pos h
    rw [receive, List.foldl_cons, hstep]
    exact ih

/-- A connection that has taken the chunks, none of which overflowed. -/
structure Took (maxLineBytes : Nat) (past : List Str) (c : TcpConnection (σ × List Str)) : Prop where
  alive : c.destroyed = false
  buffer : c.buffer = unterminated past
  handled : c.handler.2 = handled (lfLines past.flatten).1
  fits : ∀ line ∈ (lfLines past.flatten).1, fits maxLineBytes line
  short : units (unterminated past) ≤ maxLineBytes

variable {maxLineBytes : Nat} {past : List Str} {c : TcpConnection (σ × List Str)}

theorem Took.onData (h : Took maxLineBytes past c) {chunk : Str}
    (ho : ¬ Overflows maxLineBytes past chunk) :
    Took maxLineBytes (past ++ [chunk]) (onData maxLineBytes (noting handleLine) c chunk) := by
  have hflat : (past ++ [chunk]).flatten = past.flatten ++ chunk := by simp
  have hlines := lfLines_append chunk past.flatten
  have hle : units (unterminated past ++ chunk) ≤ maxLineBytes := Nat.le_of_not_lt ho
  obtain ⟨hunits, hrest⟩ := units_lfLines (unterminated past ++ chunk)
  have e : TcpServer.onData maxLineBytes (noting handleLine) c chunk =
      takeLines (noting handleLine) { c with buffer := unterminated past ++ chunk } := by
    rw [TcpServer.onData, if_neg (by rw [h.alive]; exact Bool.false_ne_true), h.buffer]
    exact if_neg ho
  generalize hv : { c with buffer := unterminated past ++ chunk } = v at e
  have hbuffer : v.buffer = unterminated past ++ chunk := by rw [← hv]
  have halive : v.destroyed = false := by rw [← hv]; exact h.alive
  have hseen : v.handler.2 = TcpServer.handled (lfLines past.flatten).1 := by
    rw [← hv]
    exact h.handled
  obtain ⟨h1, h2, h3⟩ := takeLines_noting handleLine _ v hbuffer
  rw [e]
  refine ⟨h2.trans halive, ?_, ?_, ?_, ?_⟩
  · rw [h1, unterminated, unterminated, hflat, hlines]
  · rw [h3, hseen, hflat, hlines, handled_append]
    rfl
  · rw [hflat, hlines]
    intro line hl
    rcases List.mem_append.mp hl with hl | hl
    · exact h.fits line hl
    · exact decide_eq_true (Nat.le_trans (hunits line hl) hle)
  · rw [unterminated, hflat, hlines]
    exact Nat.le_trans hrest hle

/-- What is left of the stream decides, once the chunks are taken. -/
theorem Took.framed (h : Took maxLineBytes past c) (rest : Str) :
    framed maxLineBytes (past.flatten ++ rest) =
      (c.handler.2 ++ (TcpServer.framed maxLineBytes (unterminated past ++ rest)).1,
        (TcpServer.framed maxLineBytes (unterminated past ++ rest)).2) := by
  rw [h.handled]
  exact framed_append rest _ h.fits

/-- The next chunk, if it overflows: nothing more is handled. -/
theorem Took.overflow (handleLine : LineHandler σ) (h : Took maxLineBytes past c) {chunk : Str}
    (ho : Overflows maxLineBytes past chunk) :
    (TcpServer.onData maxLineBytes (noting handleLine) c chunk).destroyed = true ∧
      (TcpServer.onData maxLineBytes (noting handleLine) c chunk).handler = c.handler := by
  have e : TcpServer.onData maxLineBytes (noting handleLine) c chunk =
      { c with
        buffer := unterminated past ++ chunk
        written := c.written ++ lineTooLong
        destroyed := true } := by
    rw [TcpServer.onData, if_neg (by rw [h.alive]; exact Bool.false_ne_true), h.buffer]
    exact if_pos ho
  rw [e]
  exact ⟨rfl, rfl⟩

end

section

variable {maxLineBytes : Nat} {past : List Str} {chunk : Str} {chunks : List Str}

theorem harmless_nil : Harmless maxLineBytes past [] := fun before chunk rest e => by
  cases before <;> cases e

theorem harmless_overflow (ho : Overflows maxLineBytes past chunk) :
    Harmless maxLineBytes past (chunk :: chunks) ↔
      beginsOverlong maxLineBytes (unterminated past ++ (chunk :: chunks).flatten) = true := by
  have hpast : past ++ [] = past := List.append_nil past
  constructor
  · intro h
    have hfirst := h [] chunk chunks rfl (by rw [hpast]; exact ho) fun p q r e => by
      cases p <;> cases e
    rwa [hpast] at hfirst
  · rintro h before chunk' rest e - hfirst
    cases before with
    | nil =>
      obtain ⟨rfl, rfl⟩ := List.cons.inj e
      rwa [hpast]
    | cons q before =>
      obtain ⟨rfl, -⟩ := List.cons.inj e
      exact absurd (by rw [hpast]; exact ho) (hfirst [] chunk before rfl)

theorem harmless_cons (ho : ¬ Overflows maxLineBytes past chunk) :
    Harmless maxLineBytes past (chunk :: chunks) ↔
      Harmless maxLineBytes (past ++ [chunk]) chunks := by
  have hpast : ∀ before, past ++ [chunk] ++ before = past ++ chunk :: before := fun before => by
    rw [List.append_assoc, List.singleton_append]
  constructor
  · intro h before chunk' rest e hover hfirst
    rw [hpast] at hover ⊢
    refine h (chunk :: before) chunk' rest (by rw [e]; rfl) hover fun p q r e' => ?_
    cases p with
    | nil =>
      obtain ⟨rfl, -⟩ := List.cons.inj e'
      rwa [List.append_nil]
    | cons p ps =>
      obtain ⟨rfl, hps⟩ := List.cons.inj e'
      rw [← hpast]
      exact hfirst ps q r hps
  · intro h before chunk' rest e hover hfirst
    cases before with
    | nil =>
      obtain ⟨rfl, -⟩ := List.cons.inj e
      rw [List.append_nil] at hover
      exact absurd hover ho
    | cons q before =>
      obtain ⟨rfl, hrest⟩ := List.cons.inj e
      rw [← hpast] at hover ⊢
      refine h before chunk' rest hrest hover fun p q r e' => ?_
      rw [hpast]
      exact hfirst (chunk :: p) q r (by rw [e']; rfl)

/-- The chunks that follow are taken as the stream calls for, exactly if they are harmless. -/
theorem Took.receive {σ : Type} {handleLine : LineHandler σ} (chunks : List Str) :
    ∀ {past : List Str} {c : TcpConnection (σ × List Str)}, Took maxLineBytes past c →
      (((receive maxLineBytes (noting handleLine) c chunks).handler.2,
          (receive maxLineBytes (noting handleLine) c chunks).destroyed) =
        TcpServer.framed maxLineBytes (past ++ chunks).flatten ↔
        Harmless maxLineBytes past chunks) := by
  induction chunks with
  | nil =>
    intro past c h
    have htail : TcpServer.framed maxLineBytes (unterminated past) = ([], false) := by
      rw [unterminated, framed_of_not_mem (not_mem_lfLines_snd _)]
      exact congrArg (Prod.mk []) (decide_eq_false (Nat.not_lt.mpr h.short))
    have hframed := h.framed []
    rw [List.append_nil, List.append_nil, htail, List.append_nil] at hframed
    refine iff_of_true ?_ harmless_nil
    show (c.handler.2, c.destroyed) = _
    rw [List.append_nil, hframed, h.alive]
  | cons chunk chunks ih =>
    intro past c h
    by_cases ho : Overflows maxLineBytes past chunk
    · obtain ⟨hdestroyed, hhandler⟩ := h.overflow handleLine ho
      have hrun : TcpServer.receive maxLineBytes (noting handleLine) c (chunk :: chunks) =
          TcpServer.onData maxLineBytes (noting handleLine) c chunk := by
        rw [TcpServer.receive, List.foldl_cons]
        exact receive_destroyed chunks hdestroyed
      rw [hrun, hdestroyed, hhandler, List.flatten_append, h.framed, harmless_overflow ho,
        ← framed_eq_rejected, Prod.ext_iff, Prod.ext_iff]
      exact and_congr (by rw [List.self_eq_append_right]) eq_comm
    · have hflat : past ++ chunk :: chunks = past ++ [chunk] ++ chunks := by
        rw [List.append_assoc, List.singleton_append]
      rw [harmless_cons ho, hflat]
      exact ih (h.onData ho)

end

/-- For every limit and every cut of a stream into chunks: the lines that reach the handler,
whatever it does with them, and whether the connection is rejected are those of the stream,
exactly if the first chunk to overflow, when there is one, leaves a text that begins with a
line that is too long anyway. -/
theorem framing_iff (maxLineBytes : Nat) (chunks : List Str) :
    Faithful maxLineBytes chunks ↔ Harmless maxLineBytes [] chunks := by
  have hnew : ∀ {σ : Type} (st : σ),
      Took maxLineBytes [] (onConnection (st, ([] : List Str))) := fun st =>
    ⟨rfl, rfl, rfl, fun _ h => absurd h List.not_mem_nil, Nat.zero_le _⟩
  constructor
  · intro h
    exact (Took.receive chunks (hnew ())).mp (h (fun st _ => (st, .nothing)) ())
  · intro h σ handleLine st
    exact (Took.receive chunks (hnew st)).mpr h

/-- Three lines of two characters each, under a limit of four: in one packet they are
rejected. -/
theorem framing_packet :
    (∀ line ∈ (lfLines "a\nb\nc\n".toList).1, fits 4 line = true) ∧
      ¬ Faithful 4 ["a\nb\nc\n".toList] := by
  refine ⟨by decide, fun h => ?_⟩
  have hrun := h (fun st _ => (st, .nothing)) ()
  revert hrun
  decide

end TcpServer

end MiniStore
