import MiniStore.Protocol.PushFrames

/-!
# Client

The client of the CLI. `send` queues the resolver of its promise, and every `reply` the
parser emits resolves the oldest one waiting; a push resolves none.

A promise is named by the number of the `send` that made it. As long as there are no more
replies than promises waiting, each takes the next of them (`onEvents_spec`).
-/

namespace MiniStore

open Text ReplyParser

/-- The fields of the class: the parser and the promises waiting. `sent` is the number of
promises made, `resolved` are those resolved, each with its reply, and `pushed` what was
emitted to the listeners of pushes. -/
structure Client where
  parser : ReplyParser
  pendingResolvers : List Nat
  sent : Nat
  resolved : List (Nat × ParsedReply)
  pushed : List ParsedReply
  /-- The parser has emitted an error, which nobody listens to. -/
  crashed : Bool
  deriving DecidableEq

namespace Client

def create : Client := ⟨fresh, [], 0, [], [], false⟩

/-- `send(commandLine)`, and what it writes to the socket. -/
def send (c : Client) (commandLine : Str) : Client × Str :=
  ({ c with pendingResolvers := c.pendingResolvers ++ [c.sent], sent := c.sent + 1 },
    commandLine ++ Reply.crlf)

/-- The listeners of the parser. -/
def onEvent (c : Client) : ParserEvent → Client
  | .reply reply =>
    match c.pendingResolvers with
    | [] => c
    | id :: rest => { c with pendingResolvers := rest, resolved := c.resolved ++ [(id, reply)] }
  | .push reply => { c with pushed := c.pushed ++ [reply] }
  | .error _ => { c with crashed := true }

def onData (c : Client) (data : Str) : Client :=
  match c.parser.append data with
  | (parser, events) => events.foldl onEvent { c with parser := parser }

def repliesOf (events : List ParserEvent) : List ParsedReply :=
  events.filterMap fun e =>
    match e with
    | .reply r => some r
    | _ => none

/-- Nothing but replies and pushes. -/
def Sound (events : List ParserEvent) : Prop := ∀ e ∈ events, ∀ c, e ≠ .error c

theorem repliesOf_append (events events' : List ParserEvent) :
    repliesOf (events ++ events') = repliesOf events ++ repliesOf events' :=
  List.filterMap_append

/-- Replies resolve the promises waiting, in order; nothing else does. -/
theorem onEvents_spec (events : List ParserEvent) (hs : Sound events) : ∀ {c : Client},
    (repliesOf events).length ≤ c.pendingResolvers.length →
    (events.foldl onEvent c).parser = c.parser ∧
      (events.foldl onEvent c).sent = c.sent ∧
      (events.foldl onEvent c).crashed = c.crashed ∧
      (events.foldl onEvent c).pendingResolvers =
        c.pendingResolvers.drop (repliesOf events).length ∧
      (events.foldl onEvent c).resolved = c.resolved ++
        (c.pendingResolvers.take (repliesOf events).length).zip (repliesOf events) := by
  induction events with
  | nil =>
    intro c _
    exact ⟨rfl, rfl, rfl, rfl, (List.append_nil _).symm⟩
  | cons e events ih =>
    intro c hle
    obtain ⟨he, hrest⟩ := List.forall_mem_cons.mp hs
    cases e with
    | error k => exact absurd rfl (he k)
    | push r => exact ih hrest (c := { c with pushed := c.pushed ++ [r] }) hle
    | reply r =>
      have hreplies : repliesOf (.reply r :: events) = r :: repliesOf events := rfl
      rw [hreplies, List.length_cons] at hle
      rw [hreplies, List.length_cons]
      cases hp : c.pendingResolvers with
      | nil =>
        rw [hp] at hle
        exact absurd hle (Nat.not_succ_le_zero _)
      | cons id rest =>
        rw [hp, List.length_cons] at hle
        have hstep : c.onEvent (.reply r) = { c with
            pendingResolvers := rest
            resolved := c.resolved ++ [(id, r)] } := by
          simp only [onEvent, hp]
        obtain ⟨h1, h2, h3, h4, h5⟩ := ih hrest (c := { c with
          pendingResolvers := rest
          resolved := c.resolved ++ [(id, r)] }) (Nat.le_of_succ_le_succ hle)
        rw [List.foldl_cons, hstep]
        refine ⟨h1, h2, h3, h4, ?_⟩
        rw [h5, List.append_assoc]
        rfl

end Client

end MiniStore
