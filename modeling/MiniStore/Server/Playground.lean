import MiniStore.Server.NetworkRuns

/-!
# The playground

Messages of a playground connection become lines at a limited rate: at most twenty in a window
of a second, so forty in any second and a bit (`rate_limited`). A client that sends no more than
twenty messages in any second, each short enough, gets every line through (`unhurried_heard`).
-/

namespace MiniStore

open InMemoryStore Text FixedWindow PubSubManager

namespace Network

/-- The message of a playground connection, with its time. -/
def messageOf (connection : ClientConnection) : NetworkEvent → Option (Str × Int)
  | .message c text now _ => if c = connection then some (text, now) else none
  | _ => none

def messagesOf (connection : ClientConnection) (events : List NetworkEvent) : List (Str × Int) :=
  events.filterMap (messageOf connection)

/-- The message is neither blank nor too long. -/
def Proper (text : Str) : Prop := units (trim text) ≤ 1024 ∧ (trim text).length ≠ 0

instance (text : Str) : Decidable (Proper text) := inferInstanceAs (Decidable (_ ∧ _))

def passed (m : (Str × Int) × Bool) : Option Str :=
  if m.2 ∧ Proper m.1.1 then some (trim m.1.1) else none

theorem transport_writeAll (p : Option Peer) (os : List Output) :
    (p.map (·.writeAll os)).map Peer.transport = p.map Peer.transport := by
  rw [Option.map_map]
  refine congrFun (congrArg Option.map (funext fun p => ?_)) p
  show (p.writeAll os).transport = p.transport
  unfold Peer.writeAll
  split <;> rfl

section

variable {config : NetworkConfig} {net : Network} {c : ClientConnection}

theorem transport_onMessage {window : Window} {text : Str} {now : Int} {clocks : Nat → Clocks}
    (hup : (net.onMessage c window text now clocks).up = true) :
    ((net.onMessage c window text now clocks).peers c).map Peer.transport =
      (net.peers c).map fun _ => .playground (window.ask 20 1000 now).1 := by
  have hset : ∀ w : Window, ((net.modify c fun p => { p with transport := .playground w }).peers
      c).map Peer.transport = (net.peers c).map fun _ => .playground w := by
    intro w
    show (if c = c then (net.peers c).map _ else _).map _ = _
    rw [if_pos rfl, Option.map_map]
    rfl
  have hrefused : ∀ (w : Window) (o : Output),
      (((net.modify c fun p => { p with transport := .playground w }).write c o).peers c).map
        Peer.transport = (net.peers c).map fun _ => .playground w := by
    intro w o
    refine Eq.trans ?_ (hset w)
    show (if c = c then Option.map _ _ else _).map _ = _
    rw [if_pos rfl]
    exact transport_writeAll _ [o]
  unfold onMessage at hup ⊢
  generalize window.ask 20 1000 now = admitted at hup ⊢
  rcases admitted with ⟨w, _ | _⟩
  · exact hrefused w _
  dsimp only at hup ⊢
  rw [Bool.not_true, if_neg Bool.false_ne_true] at hup ⊢
  split
  · exact hrefused w _
  next hlong =>
  rw [if_neg hlong] at hup
  split
  · exact hset w
  next hblank =>
  rw [if_neg hblank] at hup
  split
  · next hthrows =>
    -- an exception takes the process down
    rw [if_pos hthrows] at hup
    have hfalse : (_ && false) = true := hup
    rw [Bool.and_false] at hfalse
    cases hfalse
  · obtain ⟨-, -, hpeers⟩ := handleLine_spec (net.modify c fun p =>
      { p with transport := .playground w }) c (trim text) clocks
    rw [hpeers c, transport_writeAll]
    exact hset w

theorem step_message {w : Window} (hw : (net.peers c).map Peer.transport = some (.playground w))
    {text : Str} {now : Int} {clocks : Nat → Clocks}
    (hup : (net.step config (.message c text now clocks)).up = true) :
    linesOf c (net.serverEvents config (.message c text now clocks)) =
        (passed ((text, now), (w.ask 20 1000 now).2)).toList ∧
      ((net.step config (.message c text now clocks)).peers c).map Peer.transport =
        some (.playground (w.ask 20 1000 now).1) := by
  obtain ⟨⟨transport, writable, written⟩, hp, ht⟩ := Option.map_eq_some_iff.mp hw
  obtain rfl : transport = .playground w := ht
  simp only [step, serverEvents, hp] at hup ⊢
  refine ⟨?_, (transport_onMessage hup).trans ?_⟩
  · unfold passed Proper
    split
    · exact List.filterMap_cons_some (if_pos rfl)
    · rfl
  · rw [hp, Option.map_some]

theorem step_not_message {w : Window}
    (hw : (net.peers c).map Peer.transport = some (.playground w)) {e : NetworkEvent}
    (hm : messageOf c e = none) (hclosed : e ≠ .closed c)
    (hup : (net.step config e).up = true) :
    linesOf c (net.serverEvents config e) = [] ∧
      ((net.step config e).peers c).map Peer.transport = some (.playground w) := by
  by_cases hsource : e.source = some c
  · obtain ⟨⟨transport, writable, written⟩, hp, ht⟩ := Option.map_eq_some_iff.mp hw
    obtain rfl : transport = .playground w := ht
    have hconnect : ∀ transport, net.connect c transport = net := by
      intro transport
      rw [connect, hp]
      exact if_neg fun h => Option.some_ne_none _ h.2
    cases e with
    | accepted connection =>
      obtain rfl := Option.some.inj hsource
      exact ⟨rfl, by rw [step, hconnect]; exact hw⟩
    | upgraded connection token now =>
      obtain rfl := Option.some.inj hsource
      exact ⟨rfl, by rw [step, hconnect, ite_self]; exact hw⟩
    | data connection chunk clocks =>
      obtain rfl := Option.some.inj hsource
      simp only [step, serverEvents, hp]
      exact ⟨rfl, rfl⟩
    | message connection text now clocks =>
      obtain rfl := Option.some.inj hsource
      rw [messageOf, if_pos rfl] at hm
      cases hm
    | lost connection =>
      obtain rfl := Option.some.inj hsource
      refine ⟨rfl, ?_⟩
      show (if connection = connection then (net.peers connection).map Peer.shut else _).map _ = _
      rw [if_pos rfl, hp]
      rfl
    | closed connection => exact absurd (congrArg _ (Option.some.inj hsource)) hclosed
    | own e => cases hsource
  · refine ⟨linesOf_serverEvents hsource, ?_⟩
    rw [step_other hsource hup, transport_writeAll]
    exact hw

/-- The messages of a connection, run through its window. -/
theorem lines_playground (events : List NetworkEvent) : ∀ {net : Network} {w : Window},
    (net.peers c).map Peer.transport = some (.playground w) →
    (net.run config events).up = true → (∀ e ∈ events, e ≠ .closed c) →
    linesOf c (net.trace config events) =
      ((messagesOf c events).zip (admitted 20 1000 w ((messagesOf c events).map Prod.snd))).filterMap
        passed := by
  induction events with
  | nil => exact fun _ _ _ => rfl
  | cons e events ih =>
    intro net w hw hup hopen
    obtain ⟨hclosed, hrest⟩ := List.forall_mem_cons.mp hopen
    have hup1 : (net.next config e).up = true := up_of_run _ hup
    have hcrashed : net.crashed = false := by
      have h := up_of_next hup1
      rw [up, Bool.and_eq_true] at h
      simpa using h.2
    have hnext : net.next config e = net.step config e := by
      rw [next, hcrashed, if_neg Bool.false_ne_true]
    rw [trace, hcrashed, if_neg Bool.false_ne_true, linesOf_append]
    rw [hnext] at hup1
    cases hm : messageOf c e with
    | none =>
      obtain ⟨hlines, htransport⟩ := step_not_message hw hm hclosed hup1
      rw [← hnext] at htransport
      rw [hlines, List.nil_append, messagesOf, List.filterMap_cons_none hm]
      exact ih htransport hup hrest
    | some m =>
      cases e with
      | message connection text now clocks =>
        obtain ⟨rfl, rfl⟩ : connection = c ∧ (text, now) = m := by
          rw [messageOf] at hm
          split at hm
          · next h => exact ⟨h, Option.some.inj hm⟩
          · cases hm
        obtain ⟨hlines, htransport⟩ := step_message hw hup1
        rw [← hnext] at htransport
        have hmessages : messagesOf connection (.message connection text now clocks :: events) =
            (text, now) :: messagesOf connection events := List.filterMap_cons_some hm
        rw [hlines, ih htransport hup hrest, hmessages, List.map_cons, admitted_cons,
          List.zip_cons_cons, List.filterMap_cons]
        cases passed ((text, now), (w.ask 20 1000 now).2) <;> rfl
      | _ => cases hm

end

/-! ## The limit -/

theorem length_passed_le : ∀ (ms : List (Str × Int)) (bs : List Bool),
    ((ms.zip bs).filterMap passed).length ≤ bs.count true
  | [], _ => by
    rw [List.zip_nil_left]
    exact Nat.zero_le _
  | _ :: _, [] => Nat.zero_le _
  | m :: ms, b :: bs => by
    have ih := length_passed_le ms bs
    rw [List.zip_cons_cons]
    cases b with
    | false =>
      have hnone : passed (m, false) = none := if_neg fun h => Bool.false_ne_true h.1
      rw [List.filterMap_cons_none hnone, List.count_cons_of_ne Bool.false_ne_true]
      exact ih
    | true =>
      rw [List.count_cons_self]
      refine Nat.le_trans ?_ (Nat.succ_le_succ ih)
      rw [List.filterMap_cons]
      split
      · exact Nat.le_succ _
      · exact Nat.le_refl _

/-- For every playground connection and every run of the network while it is open: the messages
that come within `d` milliseconds, by whatever clock, bring at most twenty lines for each second
and a bit, and forty more. -/
theorem rate_limited (config : NetworkConfig) (net : Network) (c : ClientConnection) (w : Window)
    (hw : (net.peers c).map Peer.transport = some (.playground w)) (events : List NetworkEvent)
    (hup : (net.run config events).up = true) (hopen : ∀ e ∈ events, e ≠ .closed c) (a : Int)
    (d : Nat) (hspan : ∀ m ∈ messagesOf c events, a ≤ m.2 ∧ m.2 ≤ a + d) :
    (linesOf c (net.trace config events)).length ≤ 20 * (d / 1001 + 2) := by
  have htimes : ∀ t ∈ (messagesOf c events).map Prod.snd, a ≤ t ∧ t ≤ a + d := by
    intro t ht
    obtain ⟨m, hm, rfl⟩ := List.mem_map.mp ht
    exact hspan m hm
  rw [lines_playground events hw hup hopen]
  exact Nat.le_trans (length_passed_le _ _) (count_admitted_le 20 1000 htimes w)

/-- A playground client that is in a hurry: fifty messages in less than a second, of two windows. -/
def hurried : List NetworkEvent :=
  (List.range 50).map fun i =>
    .message ⟨1, "web".toList⟩ " GET k ".toList (500 + 20 * i) fun _ => Clocks.still (500 + 20 * i)

theorem rate_limited_hurried :
    (messagesOf ⟨1, "web".toList⟩ hurried).length = 50 ∧
      (linesOf ⟨1, "web".toList⟩ ((booted.next ⟨64, none⟩
        (.upgraded ⟨1, "web".toList⟩ [] 0)).trace ⟨64, none⟩ hurried)).length ≤ 40 :=
  ⟨by decide, rate_limited ⟨64, none⟩ (booted.next ⟨64, none⟩ (.upgraded ⟨1, "web".toList⟩ [] 0))
    ⟨1, "web".toList⟩ ⟨0, 0⟩ rfl hurried (by decide +kernel) (by unfold hurried; simp) 500 980
    (by unfold hurried; decide)⟩

theorem filterMap_passed : ∀ (ms : List (Str × Int)) (bs : List Bool), bs.length = ms.length →
    (∀ b ∈ bs, b = true) → (ms.zip bs).filterMap passed =
      (ms.filter fun m => Proper m.1).map fun m => trim m.1
  | [], _, _, _ => by rw [List.zip_nil_left]; rfl
  | _ :: _, [], h, _ => by cases h
  | m :: ms, b :: bs, hlen, hall => by
    obtain ⟨rfl, hrest⟩ := List.forall_mem_cons.mp hall
    have ih := filterMap_passed ms bs (Nat.succ.inj hlen) hrest
    rw [List.zip_cons_cons]
    by_cases hm : Proper m.1
    · have hsome : passed (m, true) = some (trim m.1) := if_pos ⟨rfl, hm⟩
      rw [List.filterMap_cons_some hsome, List.filter_cons_of_pos (by simpa using hm), List.map_cons,
        ih]
    · have hnone : passed (m, true) = none := if_neg fun h => hm h.2
      rw [List.filterMap_cons_none hnone, List.filter_cons_of_neg (by simpa using hm), ih]

/-- For every playground connection and every run of the network from its upgrade on: if its
messages come in order and no twenty-one of them within a second, the process gets the line of
each that is neither blank nor too long. -/
theorem unhurried_heard (config : NetworkConfig) (net : Network) (c : ClientConnection)
    (token : Str) (now : Int) (hnew : net.peers c = none)
    (htoken : config.dashboardPassword = none ∨ some token = config.dashboardPassword)
    (events : List NetworkEvent)
    (hup : (net.run config (.upgraded c token now :: events)).up = true)
    (hopen : ∀ e ∈ events, e ≠ .closed c)
    (hsorted : (now :: (messagesOf c events).map Prod.snd).Pairwise (· ≤ ·))
    (hspaced : Spaced 20 1000 ((messagesOf c events).map Prod.snd)) :
    linesOf c ((net.next config (.upgraded c token now)).trace config events) =
      ((messagesOf c events).filter fun m => Proper m.1).map fun m => trim m.1 := by
  obtain ⟨hstart, hsorted⟩ := List.pairwise_cons.mp hsorted
  have hup0 := up_of_next (up_of_run events hup)
  rw [up, Bool.and_eq_true] at hup0
  have hw : ((net.next config (.upgraded c token now)).peers c).map Peer.transport =
      some (.playground ⟨0, now⟩) := by
    have hguard : ¬(config.dashboardPassword ≠ none ∧ some token ≠ config.dashboardPassword) :=
      fun h => htoken.elim h.1 h.2
    rw [next, if_neg (by simpa using hup0.2), step, if_neg hguard, connect, if_pos ⟨hup0.1, hnew⟩]
    show Option.map _ (if c = c then _ else _) = _
    rw [if_pos rfl]
    rfl
  rw [lines_playground events hw hup hopen]
  refine filterMap_passed _ _ ?_ ?_
  · rw [admitted, Trace.length_answered, List.length_map]
  · exact admits_spaced (by decide) _ [] ⟨0, now⟩ (counts_fresh [] now) hstart hsorted hspaced

/-- A playground client that takes its time, and sends a blank message once. -/
def unhurried : List NetworkEvent :=
  (List.range 30).map fun i =>
    .message ⟨1, "web".toList⟩ (if i = 7 then "  " else " GET k ").toList (60 * i) fun _ =>
      Clocks.still (60 * i)

theorem unhurried_heard_unhurried :
    linesOf ⟨1, "web".toList⟩ ((booted.next ⟨64, none⟩ (.upgraded ⟨1, "web".toList⟩ [] 0)).trace
      ⟨64, none⟩ unhurried) = List.replicate 29 "GET k".toList := by
  have htimes : (messagesOf ⟨1, "web".toList⟩ unhurried).map Prod.snd =
      (List.range 30).map fun i : Nat => 60 * (i : Int) := by decide
  have hspaced : Spaced 20 1000 ((messagesOf ⟨1, "web".toList⟩ unhurried).map Prod.snd) := by
    rw [htimes]
    intro i t u ht hu
    rw [List.getElem?_map, Option.map_eq_some_iff] at ht hu
    obtain ⟨a, ha, rfl⟩ := ht
    obtain ⟨b, hb, rfl⟩ := hu
    obtain ⟨-, rfl⟩ := List.getElem?_eq_some_iff.mp ha
    obtain ⟨-, rfl⟩ := List.getElem?_eq_some_iff.mp hb
    rw [List.getElem_range, List.getElem_range]
    omega
  exact (unhurried_heard ⟨64, none⟩ booted ⟨1, "web".toList⟩ [] 0 rfl (.inl rfl) unhurried
    (by decide +kernel) (by unfold unhurried; simp) (by decide) hspaced).trans (by decide)

end Network

end MiniStore
