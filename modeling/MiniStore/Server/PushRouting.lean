import MiniStore.Protocol.PushFrames
import MiniStore.Server.Gates
import MiniStore.Server.WellFormed

/-!
# Pushes and stored data

The client tells pushes from replies by what an array begins with. `framesOfLine` are the
replies a line makes the server write, each with whether `subscribe` or `unsubscribe` built
it; `RoutesPushes` says that the parser makes pushes of exactly those. A list that begins
with one of the three words is taken for a push, and so is the array of an EXEC; inside an
EXEC the confirmations are not told at all (`push_routing_iff`).
-/

namespace MiniStore

open InMemoryStore Text ReplyParser

namespace CommandHandler

variable {W : Type} [AofSink W]

/-! ## What the server builds -/

/-- The replies of a command, each with whether `subscribe` or `unsubscribe` built it. -/
def framesOf (h : CommandHandler W) (c : Command) (line : Str) (connection : ClientConnection)
    (clocks : Clocks) : List (Str × Bool) :=
  match h.pubSubManager, c with
  | some m, .subscribe channels => (m.subscribe connection channels).2.map (·, true)
  | some m, .unsubscribe channels => (m.unsubscribe connection channels).2.map (·, true)
  | _, _ => (h.executeCommand c line connection clocks).2.toList.map (·, false)

def framesOfQueue (connection : ClientConnection) (clocks : Nat → Clocks) :
    CommandHandler W → List QueuedCommand → Nat → List (Str × Bool)
  | _, [], _ => []
  | h, item :: items, i =>
    h.framesOf item.command item.line connection (clocks i) ++
      framesOfQueue connection clocks
        (h.executeCommand item.command item.line connection (clocks i)).1 items (i + 1)

def framesOfLine (h : CommandHandler W) (line : Str) (connection : ClientConnection)
    (clocks : Nat → Clocks) : List (Str × Bool) :=
  match h.route line connection with
  | (_, .answered reply) => [(reply, false)]
  | (h, .direct c) => h.framesOf c line connection (clocks 0)
  | (h, .queue items) => framesOfQueue connection clocks h items 0

/-- What comes before the frames: EXEC has a header. -/
def opening : Route → Str
  | .queue items => Reply.header items.length ++ Reply.crlf
  | _ => []

/-- The parser makes pushes of the frames that `subscribe` and `unsubscribe` built and of the
messages, and of nothing else. -/
structure RoutesPushes (h : CommandHandler W) (line : Str) (connection : ClientConnection)
    (clocks : Nat → Clocks) (reply : Str) : Prop where
  frames : ∀ past frame built rest,
    h.framesOfLine line connection clocks = past ++ (frame, built) :: rest →
    (EmittedAsPush (opening (h.route line connection).2 ++ (past.map Prod.fst).flatten) frame ↔
      built = true)
  header : ∀ items, (h.route line connection).2 = .queue items → ¬ FirstIsPush reply
  messages : ∃ sent, (h.handleLine line connection clocks).1.delivered = h.delivered ++ sent ∧
    ∀ d ∈ sent, EmittedAsPush [] d.2

/-! ## What the data may not say -/

def confirmations (h : CommandHandler W) (connection : ClientConnection) (c : Command) : Nat :=
  match h.pubSubManager, c with
  | some _, .subscribe channels => channels.length
  | some m, .unsubscribe channels => (m.targets connection channels).length
  | _, _ => 0

/-- The number of lines of a command's replies; a confirmation has four. -/
def lineCount (h : CommandHandler W) (connection : ClientConnection) (clocks : Clocks)
    (c : Command) : Nat :=
  match h.pubSubManager, c with
  | some _, .subscribe channels => 4 * channels.length
  | some m, .unsubscribe channels => 4 * (m.targets connection channels).length
  | _, _ => 1 + (listed h.store (clocks 0) c).length

/-- With `left` lines to come under the header of an EXEC, the command confirms nothing, or
there are none and it lists nothing that begins with a word. -/
def Clear (h : CommandHandler W) (connection : ClientConnection) (clocks : Clocks) (left : Nat)
    (c : Command) : Prop :=
  (0 < h.confirmations connection c → left = 0) ∧
    (Announced (listed h.store (clocks 0) c) → left ≠ 0)

def ClearQueue (connection : ClientConnection) (clocks : Nat → Clocks) :
    CommandHandler W → List QueuedCommand → Nat → Nat → Prop
  | _, [], _, _ => True
  | h, item :: items, i, left =>
    h.Clear connection (clocks i) left item.command ∧
      ClearQueue connection clocks
        (h.executeCommand item.command item.line connection (clocks i)).1 items (i + 1)
        (left - h.lineCount connection (clocks i) item.command)

def queueLines (connection : ClientConnection) (clocks : Nat → Clocks) :
    CommandHandler W → List QueuedCommand → Nat → Nat
  | _, [], _ => 0
  | h, item :: items, i =>
    h.lineCount connection (clocks i) item.command +
      queueLines connection clocks
        (h.executeCommand item.command item.line connection (clocks i)).1 items (i + 1)

/-- No list begins with one of the words where the parser looks, and no confirmation is under
the header of an EXEC. -/
def Unambiguous (h : CommandHandler W) (line : Str) (connection : ClientConnection)
    (clocks : Nat → Clocks) : Prop :=
  match h.route line connection with
  | (_, .answered _) => True
  | (h, .direct c) => ¬ Announced (listed h.store (clocks 0 0) c)
  | (h, .queue items) =>
    ClearQueue connection clocks h items 0 items.length ∧
      ¬ (items.length ≤ queueLines connection clocks h items 0 ∧
        OpensWithWord ((framesOfQueue connection clocks h items 0).map Prod.fst).flatten)

/-! ## Frames as calls -/

/-- A reply as a call, and whether `subscribe` or `unsubscribe` built it. -/
abbrev Frame := ReplyCall × Bool

def frameText (f : Frame) : Str × Bool := (f.1.text, f.2)

def linesOf (fs : List Frame) : Nat := (fs.flatMap (·.1.lines)).length

/-- Behind a header that counts `left` more lines, the frames are told apart. -/
def Told : Nat → List Frame → Prop
  | _, [] => True
  | left, f :: fs =>
    ((left = 0 ∧ Pushes f.1) ↔ f.2 = true) ∧ Told (left - f.1.lines.length) fs

theorem linesOf_cons (f : Frame) (fs : List Frame) :
    linesOf (f :: fs) = f.1.lines.length + linesOf fs := by
  rw [linesOf, List.flatMap_cons, List.length_append]
  rfl

theorem linesOf_append (fs fs' : List Frame) : linesOf (fs ++ fs') = linesOf fs + linesOf fs' := by
  rw [linesOf, List.flatMap_append, List.length_append]
  rfl

theorem told_append (fs' : List Frame) : ∀ (fs : List Frame) (left : Nat),
    Told left (fs ++ fs') ↔ Told left fs ∧ Told (left - linesOf fs) fs'
  | [], _ => (and_iff_right trivial).symm
  | f :: fs, left => by
    rw [List.cons_append, Told, Told, told_append fs' fs, and_assoc, linesOf_cons, Nat.sub_sub]

theorem told_iff (fs : List Frame) : ∀ left : Nat, Told left fs ↔
    ∀ past f rest, fs = past ++ f :: rest → ((left ≤ linesOf past ∧ Pushes f.1) ↔ f.2 = true) := by
  induction fs with
  | nil => exact fun left => iff_of_true trivial fun past f rest e => by cases past <;> cases e
  | cons f fs ih =>
    intro left
    rw [Told, ih]
    constructor
    · rintro ⟨hfirst, hrest⟩ past g rest e
      cases past with
      | nil =>
        obtain ⟨rfl, -⟩ := List.cons.inj e
        rw [← hfirst]
        exact and_congr_left fun _ => Nat.le_zero
      | cons g' past =>
        obtain ⟨rfl, hfs⟩ := List.cons.inj e
        rw [← hrest past g rest hfs, linesOf_cons]
        exact and_congr_left fun _ => Nat.sub_le_iff_le_add'.symm
    · intro h
      refine ⟨?_, fun past g rest e => ?_⟩
      · rw [← h [] f fs rfl]
        exact and_congr_left fun _ => Nat.le_zero.symm
      · rw [← h (f :: past) g rest (by rw [e]; rfl), linesOf_cons]
        exact and_congr_left fun _ => Nat.sub_le_iff_le_add'

/-- The frames are told apart exactly if each is emitted as what it was built as. -/
theorem routes_iff {before : Str} {n : Nat} {fs : List Frame} (hs : ∀ f ∈ fs, f.1.Sendable)
    (hemit : ∀ {calls : List ReplyCall}, (∀ c ∈ calls, c.Sendable) → ∀ {c : ReplyCall},
      c.Sendable → (EmittedAsPush (before ++ calls.flatMap ReplyCall.text) c.text ↔
        n ≤ (calls.flatMap ReplyCall.lines).length ∧ Pushes c)) :
    (∀ past frame built rest, fs.map frameText = past ++ (frame, built) :: rest →
      (EmittedAsPush (before ++ (past.map Prod.fst).flatten) frame ↔ built = true)) ↔
      Told n fs := by
  have hone : ∀ past f rest, fs = past ++ f :: rest →
      (EmittedAsPush (before ++ ((past.map frameText).map Prod.fst).flatten) f.1.text ↔
        n ≤ linesOf past ∧ Pushes f.1) := by
    rintro past f rest rfl
    have hpast : ∀ c ∈ past.map Prod.fst, c.Sendable := by
      intro c hc
      obtain ⟨g, hg, rfl⟩ := List.mem_map.mp hc
      exact hs g (List.mem_append_left _ hg)
    have hf := hs f (List.mem_append_right _ List.mem_cons_self)
    have htexts : ((past.map frameText).map Prod.fst).flatten =
        (past.map Prod.fst).flatMap ReplyCall.text := by
      rw [List.flatMap_map, List.map_map, List.flatMap_def]
      rfl
    have hlines : linesOf past = ((past.map Prod.fst).flatMap ReplyCall.lines).length := by
      rw [List.flatMap_map]
      rfl
    rw [htexts, hlines]
    exact hemit hpast hf
  rw [told_iff]
  constructor
  · intro h past f rest e
    rw [← hone past f rest e]
    exact h (past.map frameText) f.1.text f.2 (rest.map frameText) (by rw [e, List.map_append]; rfl)
  · intro h past frame built rest e
    obtain ⟨past', tail, rfl, rfl, htail⟩ := List.map_eq_append_iff.mp e
    obtain ⟨f, rest', rfl, hf, rfl⟩ := List.map_eq_cons_iff.mp htail
    obtain ⟨rfl, rfl⟩ := Prod.mk.inj hf
    rw [hone past' f rest' rfl]
    exact h past' f rest' rfl

/-! ## The frames of a command -/

theorem told_confirmations {kind : Str} (hk : PushWord kind) {calls : List ReplyCall}
    (hc : ∀ call ∈ calls, ∃ channel count, call = .array [kind, channel, count]) :
    linesOf (calls.map (·, true)) = 4 * calls.length ∧
      ∀ left, Told left (calls.map (·, true)) ↔ (0 < calls.length → left = 0) := by
  induction calls with
  | nil => exact ⟨rfl, fun left => iff_of_true trivial fun h => absurd h (Nat.lt_irrefl 0)⟩
  | cons call calls ih =>
    obtain ⟨⟨channel, count, rfl⟩, hrest⟩ := List.forall_mem_cons.mp hc
    obtain ⟨hlines, htold⟩ := ih hrest
    have hpush : Pushes (.array [kind, channel, count]) := ⟨kind, rfl, hk⟩
    refine ⟨?_, fun left => ?_⟩
    · rw [List.map_cons, linesOf_cons, hlines, List.length_cons]
      show 4 + _ = _
      omega
    · rw [List.map_cons, Told, htold, List.length_cons]
      constructor
      · rintro ⟨hfirst, -⟩ -
        exact (hfirst.mpr rfl).1
      · intro h
        have hleft := h (Nat.succ_pos _)
        exact ⟨iff_of_true ⟨hleft, hpush⟩ rfl, fun _ => by rw [hleft, Nat.zero_sub]⟩

theorem lines_of_answer {call : ReplyCall} {items : List Str}
    (h : call = .array items ∨ items = [] ∧ call.lines.length = 1) :
    call.lines.length = 1 + items.length ∧ (Pushes call ↔ Announced items) := by
  rcases h with rfl | ⟨rfl, hone⟩
  · rw [ReplyCall.lines, List.length_cons, List.length_map, Nat.add_comm]
    exact ⟨rfl, Iff.rfl⟩
  · exact ⟨hone, iff_of_false (not_pushes_of_line hone) not_announced_nil⟩

/-- What is needed of the frames of a command or of a queue. -/
structure Framed (frames : List (Str × Bool)) (text : Str) (lines : Nat) (clear : Nat → Prop)
    (fs : List Frame) : Prop where
  frames : frames = fs.map frameText
  sendable : ∀ f ∈ fs, f.1.Sendable
  text : text = fs.flatMap (·.1.text)
  lines : linesOf fs = lines
  told : ∀ left, Told left fs ↔ clear left

theorem framed_confirmations {kind reply : Str} {replies : List Str} {calls : List ReplyCall}
    (hk : PushWord kind) (hreply : some replies.flatten = some reply)
    (hreplies : replies = calls.map ReplyCall.text)
    (hcalls : ∀ call ∈ calls, call.Sendable ∧ ∃ channel count, call = .array [kind, channel, count]) :
    Framed (replies.map (·, true)) reply (4 * calls.length)
      (fun left => (0 < calls.length → left = 0) ∧ (Announced [] → left ≠ 0))
      (calls.map (·, true)) := by
  subst hreplies
  obtain ⟨hlines, htold⟩ := told_confirmations hk fun call hcall => (hcalls call hcall).2
  refine ⟨?_, fun f hf => ?_, ?_, hlines, fun left => ?_⟩
  · rw [List.map_map, List.map_map]
    rfl
  · obtain ⟨call, hcall, rfl⟩ := List.mem_map.mp hf
    exact (hcalls call hcall).1
  · rw [← Option.some.inj hreply, List.flatMap_map, List.flatMap_def]
  · rw [htold, and_iff_left (fun ha => absurd ha not_announced_nil)]

theorem framed_answer {h : CommandHandler W} (H : h.Quotable) {c : Command}
    (hs : isSubscriptionCommand c = false) (line : Str) (connection : ClientConnection)
    (clocks : Clocks) {reply : Str}
    (he : (h.executeCommand c line connection clocks).2 = some reply) :
    ∃ fs, Framed ((h.executeCommand c line connection clocks).2.toList.map (·, false)) reply
      (1 + (listed h.store (clocks 0) c).length)
      (fun left => (0 < 0 → left = 0) ∧ (Announced (listed h.store (clocks 0) c) → left ≠ 0))
      fs := by
  obtain ⟨call, rfl, hsend, hcall⟩ := executeCommand_answer H.store hs line connection clocks he
  obtain ⟨hlines, hpush⟩ := lines_of_answer hcall
  refine ⟨[(call, false)], ?_, List.forall_mem_singleton.mpr hsend,
    (List.flatMap_singleton _ _).symm, ?_, fun left => ?_⟩
  · rw [he]
    rfl
  · rw [linesOf, List.flatMap_singleton]
    exact hlines
  · rw [Told, Told, and_iff_left trivial, hpush]
    constructor
    · intro hno
      exact ⟨fun h => absurd h (Nat.lt_irrefl 0), fun ha hl =>
        Bool.false_ne_true (hno.mp ⟨hl, ha⟩)⟩
    · rintro ⟨-, hno⟩
      exact iff_of_false (fun ⟨hl, ha⟩ => hno ha hl) Bool.false_ne_true

theorem framesOf_framed {h : CommandHandler W} (H : h.Quotable) {c : Command} (hc : c.WF)
    (line : Str) (connection : ClientConnection) (clocks : Clocks) {reply : Str}
    (he : (h.executeCommand c line connection clocks).2 = some reply) :
    ∃ fs, Framed (h.framesOf c line connection clocks) reply
      (h.lineCount connection clocks c) (fun left => h.Clear connection clocks left c) fs := by
  obtain ⟨m, hm, hnamed⟩ := H.manager
  cases c with
  | subscribe channels =>
    obtain ⟨calls, hcalls, hlen, hsend⟩ := subscribe_calls connection hnamed hc.2
    simp only [executeCommand, hm, answer] at he
    simp only [framesOf, lineCount, Clear, confirmations, hm, listed, ← hlen]
    exact ⟨_, framed_confirmations (.inr (.inl rfl)) he hcalls hsend⟩
  | unsubscribe channels =>
    obtain ⟨calls, hcalls, hlen, hsend⟩ := unsubscribe_calls connection hnamed hc
    simp only [executeCommand, hm, answer] at he
    simp only [framesOf, lineCount, Clear, confirmations, hm, listed, ← hlen]
    exact ⟨_, framed_confirmations (.inr (.inr rfl)) he hcalls hsend⟩
  | _ =>
    simp only [framesOf, lineCount, Clear, confirmations, hm]
    exact framed_answer H rfl line connection clocks he

theorem Framed.append {frames frames' : List (Str × Bool)} {text text' : Str} {lines lines' : Nat}
    {clear clear' : Nat → Prop} {fs fs' : List Frame} (h : Framed frames text lines clear fs)
    (h' : Framed frames' text' lines' clear' fs') :
    Framed (frames ++ frames') (text ++ text') (lines + lines')
      (fun left => clear left ∧ clear' (left - lines)) (fs ++ fs') := by
  refine ⟨?_, fun f hf => ?_, ?_, ?_, fun left => ?_⟩
  · rw [h.frames, h'.frames, List.map_append]
  · exact (List.mem_append.mp hf).elim (h.sendable f) (h'.sendable f)
  · rw [h.text, h'.text, List.flatMap_append]
  · rw [linesOf_append, h.lines, h'.lines]
  · rw [told_append, h.told, h.lines, h'.told]

end CommandHandler

namespace Server

open CommandHandler

/-! ## The frames of a queue -/

theorem framesOfQueue_framed (connection : ClientConnection) (clocks : Nat → Clocks) :
    ∀ (items : List QueuedCommand) (i : Nat) {h : CommandHandler AofWriter}, h.Quotable →
      (∀ item ∈ items, parseCommand item.line = .ok item.command) → ∀ {results : List Str},
      (h.executeQueue connection clocks items i).2 = some results →
      results.length = items.length ∧
        ∃ fs, Framed (framesOfQueue connection clocks h items i) results.flatten
          (queueLines connection clocks h items i) (ClearQueue connection clocks h items i) fs
  | [], _, _, _, _, results, he => by
    obtain rfl := Option.some.inj he
    exact ⟨rfl, [], rfl, fun _ h => absurd h List.not_mem_nil, rfl, rfl, fun _ => Iff.rfl⟩
  | item :: items, i, h, H, hp, results, he => by
    obtain ⟨hitem, hrest⟩ := List.forall_mem_cons.mp hp
    have H1 := quotable_execute H hitem connection (clocks i)
    have hframed := @framesOf_framed _ _ h H _ (wf_of_parseCommand hitem) item.line connection
      (clocks i)
    rw [CommandHandler.executeQueue] at he
    unfold framesOfQueue queueLines
    have hclear : ClearQueue connection clocks h (item :: items) i = fun left =>
        h.Clear connection (clocks i) left item.command ∧ ClearQueue connection clocks
          (h.executeCommand item.command item.line connection (clocks i)).1 items (i + 1)
          (left - h.lineCount connection (clocks i) item.command) := rfl
    rw [hclear]
    generalize h.executeCommand item.command item.line connection (clocks i) = executed
      at H1 hframed he ⊢
    rcases executed with ⟨h', _ | reply⟩
    · cases he
    · obtain ⟨results', he', rfl⟩ := Option.map_eq_some_iff.mp he
      obtain ⟨hlen, fs', hfs'⟩ := framesOfQueue_framed connection clocks items (i + 1) H1 hrest he'
      obtain ⟨fs, hfs⟩ := hframed rfl
      exact ⟨by rw [List.length_cons, List.length_cons, hlen], _, hfs.append hfs'⟩

/-! ## Messages -/

/-- What is written to connections from one state of the handler to the next is pushes. -/
def Pushed (h h' : CommandHandler AofWriter) : Prop :=
  ∃ sent, h'.delivered = h.delivered ++ sent ∧ ∀ d ∈ sent, EmittedAsPush [] d.2

theorem Pushed.of_eq {h h' : CommandHandler AofWriter} (e : h'.delivered = h.delivered) :
    Pushed h h' :=
  ⟨[], by rw [e, List.append_nil], fun _ hd => absurd hd List.not_mem_nil⟩

theorem Pushed.trans {h h' h'' : CommandHandler AofWriter} (h1 : Pushed h h')
    (h2 : Pushed h' h'') : Pushed h h'' := by
  obtain ⟨sent, hsent, hpush⟩ := h1
  obtain ⟨sent', hsent', hpush'⟩ := h2
  refine ⟨sent ++ sent', by rw [hsent', hsent, List.append_assoc], fun d hd => ?_⟩
  exact (List.mem_append.mp hd).elim (hpush d) (hpush' d)

theorem executeCommand_messages (h : CommandHandler AofWriter) {c : Command} (hc : c.WF)
    (line : Str) (connection : ClientConnection) (clocks : Clocks) :
    Pushed h (h.executeCommand c line connection clocks).1 := by
  refine ⟨_, (h.executeCommand_executes c line connection clocks).delivered, fun d hd => ?_⟩
  cases hm : h.pubSubManager with
  | none =>
    rw [hm] at hd
    cases hd
  | some m =>
    rw [hm, Option.map_some, Option.getD_some] at hd
    cases c with
    | publish channel message =>
      have hs : (ReplyCall.array ["message".toList, channel, message]).Sendable := by
        show ∀ i ∈ ["message".toList, channel, message], Unbroken i
        simp only [List.forall_mem_cons]
        exact ⟨forall_mem_of_all (by decide), unbroken_of_isToken hc.1, unbroken_of_isToken hc.2,
          List.forall_mem_nil Unbroken⟩
      have hmessage : EmittedAsPush [] (Reply.pushMessage channel message) :=
        (emitted_between (List.forall_mem_nil ReplyCall.Sendable) hs).mpr
          ⟨"message".toList, rfl, .inl rfl⟩
      unfold published PubSubManager.publish at hd
      dsimp only at hd
      split at hd
      · cases hd
      · obtain ⟨conn, -, rfl⟩ := List.mem_map.mp hd
        exact hmessage
    | _ => cases hd

theorem handleLine_messages {h : CommandHandler AofWriter} (hq : h.Parsed) (line : Str)
    (connection : ClientConnection) (clocks : Nat → Clocks) :
    Pushed h (h.handleLine line connection clocks).1 := by
  have hroute : (h.route line connection).1.delivered = h.delivered := by
    have hr := h.route_routed line connection
    generalize h.route line connection = routed at hr ⊢
    cases hr <;> rfl
  rw [(h.handleLine_executed line connection clocks).1]
  refine executeQueue_rule (P := Pushed h) ?_ clocks _ 0 (.of_eq hroute)
    (route_parsed hq line connection).2
  intro h' item clocks H hp
  exact H.trans (executeCommand_messages h' (wf_of_parseCommand hp) item.line connection clocks)

/-! ## Every line -/

section

variable {h h' : CommandHandler AofWriter} (H : h.Quotable) {line : Str}
  {connection : ClientConnection} {clocks : Nat → Clocks} {reply : Str}
  (he : (h.handleLine line connection clocks).2 = some reply)

/-- What `routes_iff` asks where a text starts between two replies. -/
theorem emitted_first {calls : List ReplyCall} (hs : ∀ c ∈ calls, c.Sendable) {c : ReplyCall}
    (hc : c.Sendable) : EmittedAsPush ([] ++ calls.flatMap ReplyCall.text) c.text ↔
      0 ≤ (calls.flatMap ReplyCall.lines).length ∧ Pushes c := by
  rw [List.nil_append, emitted_between hs hc]
  exact (and_iff_right (Nat.zero_le _)).symm

include H

/-- A line that is answered without executing anything gets one line, which is no push. -/
theorem routes_answered {made : Str} (hr : h.route line connection = (h', .answered made)) :
    RoutesPushes h line connection clocks reply := by
  have hroute : (h.route line connection).2 = .answered made := by rw [hr]
  obtain ⟨call, rfl, hs, hone⟩ := isCall_route hroute
  have hframes : h.framesOfLine line connection clocks = [(call, false)].map frameText := by
    rw [framesOfLine, hr]
    rfl
  have htold : Told 0 [(call, false)] :=
    ⟨iff_of_false (fun hp => not_pushes_of_line (hone.mpr rfl) hp.2) Bool.false_ne_true, trivial⟩
  refine ⟨?_, fun items hq => ?_, handleLine_messages H.parsed line connection clocks⟩
  · rw [hframes, hr]
    exact (routes_iff (List.forall_mem_singleton.mpr hs) emitted_first).mpr htold
  · rw [hroute] at hq
    cases hq

include he

theorem routes_direct {c : Command} (hr : h.route line connection = (h', .direct c)) :
    RoutesPushes h line connection clocks reply ↔
      ¬ Announced (listed h'.store (clocks 0 0) c) := by
  have hroute : (h.route line connection).2 = .direct c := by rw [hr]
  have H1 := quotable_route H line connection
  rw [hr] at H1
  have hc := wf_of_parseCommand (parse_of_direct H.parsed hroute)
  rw [handleLine_direct hroute, hr] at he
  obtain ⟨fs, hfs⟩ := framesOf_framed H1 hc line connection (clocks 0) he
  have hframes : h.framesOfLine line connection clocks = fs.map frameText := by
    rw [framesOfLine, hr]
    exact hfs.frames
  have htold := hfs.told 0
  constructor
  · intro hroutes
    have hall := hroutes.frames
    rw [hframes, hr] at hall
    exact fun ha => (htold.mp ((routes_iff hfs.sendable emitted_first).mp hall)).2 ha rfl
  · intro ha
    refine ⟨?_, fun items hq => ?_, handleLine_messages H.parsed line connection clocks⟩
    · rw [hframes, hr]
      exact (routes_iff hfs.sendable emitted_first).mpr
        (htold.mpr ⟨fun _ => rfl, fun hl => absurd hl ha⟩)
    · rw [hroute] at hq
      cases hq

/-- The replies of an EXEC start under its header, which counts `items.length` lines. -/
theorem routes_queue {items : List QueuedCommand}
    (hr : h.route line connection = (h', .queue items)) :
    RoutesPushes h line connection clocks reply ↔
      ClearQueue connection clocks h' items 0 items.length ∧
        ¬ (items.length ≤ queueLines connection clocks h' items 0 ∧
          OpensWithWord ((framesOfQueue connection clocks h' items 0).map Prod.fst).flatten) := by
  have hroute : (h.route line connection).2 = .queue items := by rw [hr]
  have H1 := quotable_route H line connection
  rw [hr] at H1
  rw [handleLine_queue hroute, hr] at he
  obtain ⟨results, hresults, rfl⟩ := Option.map_eq_some_iff.mp he
  obtain ⟨hlen, fs, hfs⟩ := framesOfQueue_framed connection clocks items 0 H1
    (parse_of_queue H.parsed hroute) hresults
  have hframes : h.framesOfLine line connection clocks = fs.map frameText := by
    rw [framesOfLine, hr]
    exact hfs.frames
  have hbehind : ∀ {calls : List ReplyCall}, (∀ c ∈ calls, c.Sendable) → ∀ {c : ReplyCall},
      c.Sendable → (EmittedAsPush (opening (.queue items) ++ calls.flatMap ReplyCall.text)
        c.text ↔ items.length ≤ (calls.flatMap ReplyCall.lines).length ∧ Pushes c) := by
    intro calls hs c hc
    rw [opening, List.append_assoc, emitted_behind hs hc]
  have hfirst : FirstIsPush (Reply.rawArray results) ↔
      items.length ≤ queueLines connection clocks h' items 0 ∧
        OpensWithWord ((framesOfQueue connection clocks h' items 0).map Prod.fst).flatten := by
    have hcalls : ∀ c ∈ fs.map Prod.fst, c.Sendable := fun c hc => by
      obtain ⟨f, hf, rfl⟩ := List.mem_map.mp hc
      exact hfs.sendable f hf
    have htexts : results.flatten = (fs.map Prod.fst).flatMap ReplyCall.text := by
      rw [hfs.text, List.flatMap_map]
    have hsame : ((framesOfQueue connection clocks h' items 0).map Prod.fst).flatten =
        (fs.map Prod.fst).flatMap ReplyCall.text := by
      rw [hfs.frames, List.map_map, List.flatMap_map, List.flatMap_def]
      rfl
    have hlines : queueLines connection clocks h' items 0 =
        ((fs.map Prod.fst).flatMap ReplyCall.lines).length := by
      rw [← hfs.lines, linesOf, List.flatMap_map]
    rw [Reply.rawArray_eq, hlen, htexts, first_isPush hcalls, hsame, hlines]
    refine and_iff_right_of_imp fun ⟨_, c, word, rest, _, hopen⟩ hzero => ?_
    -- an empty queue answers nothing
    obtain rfl := List.length_eq_zero_iff.mp hzero
    have hnil := hsame.symm
    rw [hopen] at hnil
    cases hnil
  constructor
  · intro hroutes
    have hall := hroutes.frames
    rw [hframes, hr] at hall
    exact ⟨(hfs.told _).mp ((routes_iff hfs.sendable hbehind).mp hall),
      fun hopen => hroutes.header items hroute (hfirst.mpr hopen)⟩
  · rintro ⟨hclear, hopen⟩
    refine ⟨?_, fun _ _ hpush => hopen (hfirst.mp hpush),
      handleLine_messages H.parsed line connection clocks⟩
    rw [hframes, hr]
    exact (routes_iff hfs.sendable hbehind).mpr ((hfs.told _).mpr hclear)

end

/-- In every state of the process, and for every line it answers: the parser makes pushes of
what `subscribe`, `unsubscribe` and `pushMessage` built and of nothing else, exactly if no
list that the line reads begins with one of the three words where the parser looks, no
confirmation is under the header of an EXEC and what an EXEC answers does not open with one
of the words. -/
theorem push_routing_iff (h0 : CommandHandler AofWriter) (H0 : h0.Quotable) (path : Str)
    (fsyncPolicy : FsyncPolicy) (fs : Fs) (events : List ServerEvent) (line : Str)
    (connection : ClientConnection) (clocks : Nat → Clocks) (reply : Str)
    (he : (((main h0 path fsyncPolicy fs).run events).handler.handleLine line connection
      clocks).2 = some reply) :
    RoutesPushes ((main h0 path fsyncPolicy fs).run events).handler line connection clocks reply ↔
      Unambiguous ((main h0 path fsyncPolicy fs).run events).handler line connection clocks := by
  have H : ((main h0 path fsyncPolicy fs).run events).handler.Quotable :=
    run_rule quotable_move events ⟨H0.store, H0.parsed, H0.manager⟩
  generalize ((main h0 path fsyncPolicy fs).run events).handler = h at H he ⊢
  unfold Unambiguous
  cases hr : h.route line connection with
  | mk h' route =>
    cases route with
    | answered made => exact iff_of_true (routes_answered H hr) trivial
    | direct c => exact routes_direct H he hr
    | queue items => exact routes_queue H he hr

/-- A list whose second element is one of the words, read from its first. -/
theorem push_routing_listing :
    RoutesPushes (booted.run [send "RPUSH l a message"]).handler "LRANGE l 0 -1".toList
      ⟨1, "tcp".toList⟩ (fun _ => Clocks.still 0) "*2\r\n$a\r\n$message\r\n".toList :=
  (push_routing_iff vacant (quotable_fresh 2 (Nat.le_succ 1) _ none []) "aof".toList .no Fs.empty
    [send "RPUSH l a message"] _ _ _ _ (by decide)).mpr (by decide : ¬ Announced _)

/-- A list that begins with one of the words is answered by a push. -/
theorem push_routing_confused :
    ((booted.run [send "RPUSH l message"]).handler.handleLine "LRANGE l 0 -1".toList
      ⟨1, "tcp".toList⟩ fun _ => Clocks.still 0).2 = some "*1\r\n$message\r\n".toList ∧
    fresh.append "*1\r\n$message\r\n".toList =
      (fresh, [.push (.array [some "message".toList])]) ∧
    ¬ RoutesPushes (booted.run [send "RPUSH l message"]).handler "LRANGE l 0 -1".toList
      ⟨1, "tcp".toList⟩ (fun _ => Clocks.still 0) "*1\r\n$message\r\n".toList := by
  have hevents : fresh.append "*1\r\n$message\r\n".toList =
      (fresh, [.push (.array [some "message".toList])]) := by
    have hs : (ReplyCall.array ["message".toList]).Sendable :=
      List.forall_mem_singleton.mpr (forall_mem_of_all (by decide))
    exact (append_text hs).trans (by decide)
  refine ⟨by decide, hevents, fun h => ?_⟩
  have hframe := h.frames [] "*1\r\n$message\r\n".toList false [] (by decide)
  have hbefore : opening ((booted.run [send "RPUSH l message"]).handler.route "LRANGE l 0 -1".toList
      ⟨1, "tcp".toList⟩).2 ++ (List.map Prod.fst ([] : List (Str × Bool))).flatten = [] := by decide
  rw [hbefore] at hframe
  exact Bool.false_ne_true (hframe.mp ⟨congrArg Prod.fst (pump_none rfl), _, hevents, _, rfl⟩)

end Server

end MiniStore
