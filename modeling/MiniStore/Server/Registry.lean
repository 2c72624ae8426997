import MiniStore.Lib.SetMap
import MiniStore.Server.PubSubManager

/-!
# The registry of subscriptions

What the two maps are for: which connection wants which channel. That is decided by the calls
alone (`Subscribed`: the last call that concerns the two is a subscribe). The maps are two
views of it after any calls (`tracks_run`), and deliveries and counts are read off it.
-/

namespace MiniStore

namespace PubSubManager

/-- The calls that servers make; a subscribe has at least one channel. -/
inductive Call where
  | subscribe (connection : ClientConnection) (channel : Str) (channels : List Str)
  | unsubscribe (connection : ClientConnection) (channels : List Str)
  | publish (channel message : Str)
  | removeConnection (connection : ClientConnection)
  deriving DecidableEq

def step (m : PubSubManager) : Call → PubSubManager
  | .subscribe connection channel channels => (m.subscribe connection (channel :: channels)).1
  | .unsubscribe connection channels => (m.unsubscribe connection channels).1
  | .publish _ _ => m
  | .removeConnection connection => m.removeConnection connection

def run (calls : List Call) : PubSubManager := calls.foldl step empty

/-- What a call is to a connection and a channel: a subscribe, the end of one, or nothing. -/
def Call.event (connection : ClientConnection) (channel : Str) : Call → Option Bool
  | .subscribe c ch channels =>
    if c = connection ∧ channel ∈ ch :: channels then some true else none
  | .unsubscribe c channels =>
    if c = connection ∧ (channels = [] ∨ channel ∈ channels) then some false else none
  | .publish _ _ => none
  | .removeConnection c => if c = connection then some false else none

/-- The last event of the connection for the channel is a subscribe. -/
def Subscribed (calls : List Call) (connection : ClientConnection) (channel : Str) : Prop :=
  (calls.filterMap (Call.event connection channel)).getLast? = some true

instance (calls : List Call) (connection : ClientConnection) (channel : Str) :
    Decidable (Subscribed calls connection channel) :=
  inferInstanceAs (Decidable (_ = _))

theorem not_subscribed_nil (connection : ClientConnection) (channel : Str) :
    ¬ Subscribed [] connection channel := fun h => by cases h

theorem subscribed_of_none {calls : List Call} {call : Call} {connection : ClientConnection}
    {channel : Str} (h : call.event connection channel = none) :
    Subscribed (calls ++ [call]) connection channel ↔ Subscribed calls connection channel := by
  simp [Subscribed, List.filterMap_append, h]

theorem subscribed_of_some {calls : List Call} {call : Call} {connection : ClientConnection}
    {channel : Str} {b : Bool} (h : call.event connection channel = some b) :
    Subscribed (calls ++ [call]) connection channel ↔ b = true := by
  simp [Subscribed, List.filterMap_append, h]

theorem subscribed_subscribe {calls : List Call} {c connection : ClientConnection}
    {ch channel : Str} {channels : List Str} :
    Subscribed (calls ++ [.subscribe c ch channels]) connection channel ↔
      Subscribed calls connection channel ∨ connection = c ∧ channel ∈ ch :: channels := by
  by_cases h : c = connection ∧ channel ∈ ch :: channels
  · have he : (Call.subscribe c ch channels).event connection channel = some true := if_pos h
    exact iff_of_true ((subscribed_of_some he).mpr rfl) (.inr ⟨h.1.symm, h.2⟩)
  · have he : (Call.subscribe c ch channels).event connection channel = none := if_neg h
    rw [subscribed_of_none he]
    exact (or_iff_left fun hr => h ⟨hr.1.symm, hr.2⟩).symm

theorem subscribed_unsubscribe {calls : List Call} {c connection : ClientConnection}
    {channel : Str} {channels : List Str} :
    Subscribed (calls ++ [.unsubscribe c channels]) connection channel ↔
      Subscribed calls connection channel ∧
        ¬(connection = c ∧ (channels = [] ∨ channel ∈ channels)) := by
  by_cases h : c = connection ∧ (channels = [] ∨ channel ∈ channels)
  · have he : (Call.unsubscribe c channels).event connection channel = some false := if_pos h
    rw [subscribed_of_some he]
    exact iff_of_false Bool.false_ne_true fun hr => hr.2 ⟨h.1.symm, h.2⟩
  · have he : (Call.unsubscribe c channels).event connection channel = none := if_neg h
    rw [subscribed_of_none he]
    exact (and_iff_left fun hr => h ⟨hr.1.symm, hr.2⟩).symm

theorem subscribed_removeConnection {calls : List Call} {c connection : ClientConnection}
    {channel : Str} :
    Subscribed (calls ++ [.removeConnection c]) connection channel ↔
      Subscribed calls connection channel ∧ connection ≠ c := by
  by_cases h : c = connection
  · have he : (Call.removeConnection c).event connection channel = some false := if_pos h
    rw [subscribed_of_some he]
    exact iff_of_false Bool.false_ne_true fun hr => hr.2 h.symm
  · have he : (Call.removeConnection c).event connection channel = none := if_neg h
    rw [subscribed_of_none he]
    exact (and_iff_left (Ne.symm h)).symm

/-! ## Two views of one relation -/

/-- Both maps hold the relation, and no channel without connections is kept. -/
structure Views (m : PubSubManager) (R : ClientConnection → Str → Prop) : Prop where
  connections : m.connections.Represents R
  channels : m.channels.Represents fun channel connection => R connection channel
  populated : m.channels.Populated

/-- No connection without channels is kept either. -/
structure Tracks (m : PubSubManager) (R : ClientConnection → Str → Prop) : Prop extends
    Views m R where
  listed : m.connections.Populated

theorem nodup_setAdd {α : Type} [DecidableEq α] {s : List α} (h : s.Nodup) (a : α) :
    (setAdd s a).Nodup := by
  unfold setAdd
  split
  · exact h
  · next ha =>
    refine List.nodup_append.mpr ⟨h, List.nodup_singleton a, fun b hb c hc => ?_⟩
    rw [List.mem_singleton.mp hc]
    exact fun e => ha (e ▸ hb)

theorem mem_setAdd {α : Type} [DecidableEq α] {s : List α} {a b : α} :
    b ∈ setAdd s a ↔ b ∈ s ∨ b = a := by
  unfold setAdd
  split
  · next ha => exact (or_iff_left_of_imp fun e => e ▸ ha).symm
  · rw [List.mem_append, List.mem_singleton]

theorem mem_setDelete {α : Type} [DecidableEq α] {s : List α} {a b : α} :
    b ∈ setDelete s a ↔ b ∈ s ∧ b ≠ a := by
  rw [setDelete, List.mem_filter, decide_eq_true_iff]

theorem channelsOf_eq (m : PubSubManager) (connection : ClientConnection) :
    m.channelsOf connection = m.connections.elems connection := rfl

/-- Each target is confirmed, in order, with the number of channels held by then. -/
def Confirms (make : Str → Nat → Str) (targets replies : List Str) (held : Nat → Set Str) : Prop :=
  replies.length = targets.length ∧ ∀ i channel, targets[i]? = some channel →
    ∃ n : Nat, replies[i]? = some (make channel n) ∧ (held i).encard = n

theorem confirms_nil (make : Str → Nat → Str) (held : Nat → Set Str) : Confirms make [] [] held :=
  ⟨rfl, fun _ _ h => by cases h⟩

theorem Confirms.cons {make : Str → Nat → Str} {targets replies : List Str} {held : Nat → Set Str}
    (h : Confirms make targets replies fun i => held (i + 1)) {channel : Str} {n : Nat}
    (hn : (held 0).encard = n) :
    Confirms make (channel :: targets) (make channel n :: replies) held := by
  refine ⟨by rw [List.length_cons, List.length_cons, h.1], fun i ch hi => ?_⟩
  cases i with
  | zero => exact ⟨n, by rw [← Option.some.inj hi]; rfl, hn⟩
  | succ i => exact h.2 i ch hi

theorem Confirms.congr {make : Str → Nat → Str} {targets replies : List Str}
    {held held' : Nat → Set Str} (h : Confirms make targets replies held)
    (he : ∀ i, i < targets.length → held' i = held i) : Confirms make targets replies held' := by
  refine ⟨h.1, fun i channel hi => ?_⟩
  obtain ⟨n, hreply, hn⟩ := h.2 i channel hi
  exact ⟨n, hreply, (he i (List.getElem?_eq_some_iff.mp hi).1) ▸ hn⟩

section

variable {m : PubSubManager} {R : ClientConnection → Str → Prop} (connection : ClientConnection)

def joined (R : ClientConnection → Str → Prop) (connection : ClientConnection)
    (channels : List Str) : ClientConnection → Str → Prop :=
  fun c ch => R c ch ∨ c = connection ∧ ch ∈ channels

def parted (R : ClientConnection → Str → Prop) (connection : ClientConnection)
    (channels : List Str) : ClientConnection → Str → Prop :=
  fun c ch => R c ch ∧ ¬(c = connection ∧ ch ∈ channels)

theorem joined_cons (channel : Str) (channels : List Str) :
    joined (joined R connection [channel]) connection channels =
      joined R connection (channel :: channels) := by
  funext c ch
  simp only [joined, List.mem_cons, List.not_mem_nil, or_false, and_or_left, or_assoc]

theorem parted_cons (channel : Str) (channels : List Str) :
    parted (parted R connection [channel]) connection channels =
      parted R connection (channel :: channels) := by
  funext c ch
  simp only [parted, List.mem_cons, List.not_mem_nil, or_false, and_or_left, not_or, and_assoc]

/-! ## Subscribing -/

theorem views_subscribeOne (h : m.Views R) (channel : Str) :
    (subscribeOne connection m channel).Views (joined R connection [channel]) := by
  have hne : setAdd ((m.channels.get? channel).getD []) connection ≠ [] :=
    List.ne_nil_of_mem (mem_setAdd.mpr (.inr rfl))
  refine ⟨h.connections.set (nodup_setAdd (h.connections connection).1 channel) ?_ ?_,
    h.channels.set (nodup_setAdd (h.channels channel).1 connection) ?_ ?_, h.populated.set hne⟩
  · intro ch
    rw [mem_setAdd, channelsOf_eq, (h.connections connection).2]
    simp only [joined, List.mem_singleton, true_and]
  · intro c ch hc
    exact or_iff_left fun hr => hc hr.1
  · intro c
    rw [mem_setAdd]
    refine or_congr ((h.channels channel).2 c) ?_
    simp only [List.mem_singleton, and_true]
  · intro ch c hch
    exact or_iff_left fun hr => hch (List.mem_singleton.mp hr.2)

theorem subscribeLoop_views : ∀ (channels : List Str) {m : PubSubManager}
    {R : ClientConnection → Str → Prop}, m.Views R →
    (subscribeLoop connection channels m).1.Views (joined R connection channels) ∧
      Confirms Reply.subscribe channels (subscribeLoop connection channels m).2 fun i =>
        {ch | joined R connection (channels.take (i + 1)) connection ch}
  | [], m, R, h => by
    have hR : joined R connection [] = R := by
      funext c ch
      simp only [joined, List.not_mem_nil, and_false, or_false]
    exact ⟨hR.symm ▸ h, confirms_nil _ _⟩
  | channel :: channels, m, R, h => by
    have h1 := views_subscribeOne connection h channel
    obtain ⟨h2, hreplies⟩ := subscribeLoop_views channels h1
    rw [joined_cons] at h2
    refine ⟨h2, Confirms.cons (hreplies.congr fun i _ => ?_) h1.connections.encard⟩
    rw [List.take_succ_cons, joined_cons]

theorem subscribeLoop_get? : ∀ (channels : List Str) (m : PubSubManager),
    (∀ c, c ≠ connection → (subscribeLoop connection channels m).1.connections.get? c =
      m.connections.get? c) ∧
    (m.connections.get? connection ≠ some [] ∨ channels ≠ [] →
      (subscribeLoop connection channels m).1.connections.get? connection ≠ some [])
  | [], m => ⟨fun _ _ => rfl, fun h => h.resolve_right fun h => h rfl⟩
  | channel :: channels, m => by
    obtain ⟨hother, hown⟩ := subscribeLoop_get? channels (subscribeOne connection m channel)
    refine ⟨fun c hc => (hother c hc).trans ?_, fun _ => hown (.inl ?_)⟩
    · rw [subscribeOne, OrdMap.get?_set, if_neg hc]
    · rw [subscribeOne, OrdMap.get?_set_self, ne_eq, Option.some.injEq]
      exact List.ne_nil_of_mem (mem_setAdd.mpr (.inr rfl))

theorem tracks_subscribe (h : m.Tracks R) (channel : Str) (channels : List Str) :
    (m.subscribe connection (channel :: channels)).1.Tracks
        (joined R connection (channel :: channels)) ∧
      Confirms Reply.subscribe (channel :: channels)
        (m.subscribe connection (channel :: channels)).2 fun i =>
          {ch | joined R connection (channel :: channels.take i) connection ch} := by
  have h0 : Views { m with
      connections := m.connections.set connection (m.channelsOf connection) } R :=
    ⟨h.connections.set (h.connections connection).1 (h.connections connection).2
      fun _ _ _ => Iff.rfl, h.channels, h.populated⟩
  obtain ⟨h1, hreplies⟩ := subscribeLoop_views connection (channel :: channels) h0
  obtain ⟨hother, hown⟩ := subscribeLoop_get? connection (channel :: channels)
    { m with connections := m.connections.set connection (m.channelsOf connection) }
  refine ⟨⟨h1, fun c => ?_⟩, hreplies⟩
  by_cases hc : c = connection
  · exact hc ▸ hown (.inr (List.cons_ne_nil _ _))
  · refine (hother c hc).trans_ne ?_
    rw [OrdMap.get?_set, if_neg hc]
    exact h.listed c

/-! ## Unsubscribing -/

theorem channels_leave (h : m.channels.Represents fun channel c => R c channel)
    (hp : m.channels.Populated) (channel : Str) :
    ((leave connection m channel).channels.Represents fun ch c =>
      parted R connection [channel] c ch) ∧ (leave connection m channel).channels.Populated := by
  have hother : ∀ ch c, ch ≠ channel → (parted R connection [channel] c ch ↔ R c ch) :=
    fun ch c hch => and_iff_left fun hr => hch (List.mem_singleton.mp hr.2)
  have hown : ∀ c, parted R connection [channel] c channel ↔ R c channel ∧ c ≠ connection := by
    intro c
    simp only [parted, List.mem_singleton, and_true, ne_eq]
  unfold leave
  cases hs : m.channels.get? channel with
  | none =>
    have hnone := (h.get?_eq_none_iff hp).mp hs
    refine ⟨h.congr fun ch c => ?_, hp⟩
    by_cases hch : ch = channel
    · rw [hch]
      exact iff_of_false (fun hr => hnone c hr.1) (hnone c)
    · exact hother ch c hch
  | some conns =>
    have hmem : ∀ c, c ∈ setDelete conns connection ↔ parted R connection [channel] c channel := by
      intro c
      have hc := (h channel).2 c
      rw [OrdMap.elems_of_get? hs] at hc
      rw [mem_setDelete, hown]
      exact and_congr_left' hc
    have hnodup : (setDelete conns connection).Nodup :=
      (OrdMap.elems_of_get? hs ▸ (h channel).1).filter _
    dsimp only
    split
    · next hempty =>
      refine ⟨h.delete (fun c hc => ?_) hother, hp.delete⟩
      have hin := (hmem c).mpr hc
      rw [List.length_eq_zero_iff.mp hempty] at hin
      cases hin
    · next hfull =>
      exact ⟨h.set hnodup hmem hother, hp.set fun he => hfull (he ▸ rfl)⟩

theorem unsubscribeLoop_views : ∀ (channels : List Str) {m : PubSubManager}
    {R : ClientConnection → Str → Prop}, m.Views R →
    (unsubscribeLoop connection channels m).1.Views (parted R connection channels) ∧
      Confirms Reply.unsubscribe channels (unsubscribeLoop connection channels m).2 fun i =>
        {ch | parted R connection (channels.take (i + 1)) connection ch}
  | [], m, R, h => by
    have hR : parted R connection [] = R := by
      funext c ch
      simp only [parted, List.not_mem_nil, and_false, not_false_eq_true, and_true]
    exact ⟨hR.symm ▸ h, confirms_nil _ _⟩
  | channel :: channels, m, R, h => by
    have hset : (m.connections.set connection
        (setDelete (m.channelsOf connection) channel)).Represents
          (parted R connection [channel]) := by
      refine h.connections.set ((h.connections connection).1.filter _) (fun ch => ?_) fun c ch hc =>
        and_iff_left fun hr => hc hr.1
      rw [mem_setDelete, channelsOf_eq, (h.connections connection).2]
      simp only [parted, List.mem_singleton, true_and, ne_eq]
    have hleave := @channels_leave { m with
      connections := m.connections.set connection (setDelete (m.channelsOf connection) channel) }
        R connection h.channels h.populated channel
    have h1 : Views (leave connection { m with
        connections := m.connections.set connection (setDelete (m.channelsOf connection) channel) }
          channel) (parted R connection [channel]) :=
      ⟨(connections_leave connection _ channel).symm ▸ hset, hleave.1, hleave.2⟩
    obtain ⟨h2, hreplies⟩ := unsubscribeLoop_views channels h1
    rw [parted_cons] at h2
    refine ⟨h2, Confirms.cons (hreplies.congr fun i _ => ?_) ?_⟩
    · rw [List.take_succ_cons, parted_cons]
    · have hcount := hset.encard (k := connection)
      rw [OrdMap.elems_set, if_pos rfl] at hcount
      exact hcount

theorem unsubscribeLoop_get? {c : ClientConnection} (hc : c ≠ connection) :
    ∀ (channels : List Str) (m : PubSubManager),
      (unsubscribeLoop connection channels m).1.connections.get? c = m.connections.get? c
  | [], _ => rfl
  | channel :: channels, m => by
    refine (unsubscribeLoop_get? hc channels (leave connection { m with
      connections := m.connections.set connection (setDelete (m.channelsOf connection) channel) }
        channel)).trans ?_
    rw [connections_leave, OrdMap.get?_set, if_neg hc]

theorem channels_foldl_leave : ∀ (channels : List Str) {m : PubSubManager}
    {R : ClientConnection → Str → Prop}, (m.channels.Represents fun channel c => R c channel) →
    m.channels.Populated →
    ((channels.foldl (leave connection) m).channels.Represents fun channel c =>
      parted R connection channels c channel) ∧
      (channels.foldl (leave connection) m).channels.Populated
  | [], _, R, h, hp => by
    refine ⟨h.congr fun channel c => ?_, hp⟩
    simp only [parted, List.not_mem_nil, and_false, not_false_eq_true, and_true]
  | channel :: channels, _, R, h, hp => by
    obtain ⟨h1, hp1⟩ := channels_leave connection h hp channel
    obtain ⟨h2, hp2⟩ := channels_foldl_leave channels h1 hp1
    rw [parted_cons] at h2
    exact ⟨h2, hp2⟩

theorem targets_of_none (hm : m.connections.get? connection = none) (channels : List Str) :
    m.targets connection channels = channels := by
  unfold targets channelsOf
  rw [hm]
  cases channels with
  | nil => rfl
  | cons channel channels => exact if_pos (Nat.succ_pos _)

theorem tracks_unsubscribe (h : m.Tracks R) (channels : List Str) :
    (m.unsubscribe connection channels).1.Tracks
        (parted R connection (m.targets connection channels)) ∧
      Confirms Reply.unsubscribe (m.targets connection channels)
        (m.unsubscribe connection channels).2 fun i =>
          {ch | parted R connection ((m.targets connection channels).take (i + 1)) connection ch} := by
  cases hm : m.connections.get? connection with
  | none =>
    have hnone := (h.connections.get?_eq_none_iff h.listed).mp hm
    have hparted : ∀ channels, parted R connection channels = R := by
      intro channels
      funext c ch
      exact propext (and_iff_left_of_imp fun hr he => hnone ch (he.1 ▸ hr))
    have hcount : (Set.encard {ch | R connection ch}) = (0 : Nat) := by
      rw [h.connections.encard, OrdMap.elems_of_none hm, List.length_nil]
    simp only [unsubscribe, hm, targets_of_none connection hm, hparted]
    refine ⟨h, by rw [List.length_map], fun i channel hi => ⟨0, ?_, hcount⟩⟩
    rw [List.getElem?_map, hi, Option.map_some]
  | some connChannels =>
    have htargets : (if channels.length > 0 then channels else connChannels) =
        m.targets connection channels := by
      unfold targets channelsOf
      rw [hm, Option.getD_some]
    obtain ⟨h1, hreplies⟩ :=
      unsubscribeLoop_views connection (m.targets connection channels) h.toViews
    have hother : ∀ c, c ≠ connection → (unsubscribeLoop connection
        (m.targets connection channels) m).1.connections.get? c ≠ some [] := fun c hc =>
      (unsubscribeLoop_get? connection hc _ m).trans_ne (h.listed c)
    simp only [unsubscribe, hm, htargets]
    refine ⟨?_, hreplies⟩
    split
    · next hempty =>
      refine ⟨⟨h1.connections.delete (fun ch hch => ?_) fun _ _ _ => Iff.rfl, h1.channels,
        h1.populated⟩, fun c => ?_⟩
      · have hin := ((h1.connections connection).2 ch).mpr hch
        rw [← channelsOf_eq, List.length_eq_zero_iff.mp hempty] at hin
        cases hin
      · show (OrdMap.delete _ connection).get? c ≠ some []
        rw [OrdMap.get?_delete]
        split
        · exact Option.some_ne_none _ |>.symm
        · next hc => exact hother c hc
    · next hfull =>
      refine ⟨h1, fun c => ?_⟩
      by_cases hc : c = connection
      · subst hc
        intro hnil
        exact hfull (by rw [channelsOf_eq, OrdMap.elems_of_get? hnil, List.length_nil])
      · exact hother c hc

/-! ## Closing -/

theorem tracks_removeConnection (h : m.Tracks R) :
    (m.removeConnection connection).Tracks fun c ch => R c ch ∧ c ≠ connection := by
  unfold removeConnection
  cases hm : m.connections.get? connection with
  | none =>
    have hnone := (h.connections.get?_eq_none_iff h.listed).mp hm
    have hR : (fun c ch => R c ch ∧ c ≠ connection) = R := by
      funext c ch
      exact propext (and_iff_left_of_imp fun hr he => hnone ch (he ▸ hr))
    exact hR.symm ▸ h
  | some connChannels =>
    have hown : ∀ c ch, (R c ch ∧ c ≠ connection) ↔ parted R connection connChannels c ch := by
      intro c ch
      refine and_congr_right fun hr => not_congr ⟨fun hc => ⟨hc, ?_⟩, fun hc => hc.1⟩
      have hin := ((h.connections connection).2 ch).mpr (hc ▸ hr)
      rwa [OrdMap.elems_of_get? hm] at hin
    obtain ⟨h1, hp⟩ := channels_foldl_leave connection connChannels h.channels h.populated
    refine ⟨⟨?_, h1.congr fun ch c => hown c ch, hp⟩, ?_⟩
    · show (OrdMap.delete _ connection).Represents _
      rw [connections_foldl_leave]
      exact h.connections.delete (fun _ hr => hr.2 rfl) fun _ _ hc => and_iff_left hc
    · show (OrdMap.delete _ connection).Populated
      rw [connections_foldl_leave]
      exact h.listed.delete

end

/-! ## Runs -/

theorem run_snoc (calls : List Call) (call : Call) :
    run (calls ++ [call]) = (run calls).step call := by
  rw [run, List.foldl_append]
  rfl

/-- What unsubscribing from the targets leaves is what the call leaves. -/
theorem subscribed_targets {m : PubSubManager} {calls : List Call} (h : m.Tracks (Subscribed calls))
    (connection : ClientConnection) (channels : List Str) :
    Subscribed (calls ++ [.unsubscribe connection channels]) =
      parted (Subscribed calls) connection (m.targets connection channels) := by
  funext c ch
  rw [subscribed_unsubscribe]
  refine propext (and_congr_right fun hr => not_congr (and_congr_right fun hc => ?_))
  cases channels with
  | nil =>
    have hin : ch ∈ m.connections.elems connection := ((h.connections connection).2 ch).mpr (hc ▸ hr)
    exact iff_of_true (.inl rfl) hin
  | cons channel channels => exact or_iff_right (List.cons_ne_nil _ _)

theorem tracks_run (calls : List Call) : (run calls).Tracks (Subscribed calls) := by
  induction calls using List.reverseRecOn with
  | nil =>
    have hR : Subscribed [] = fun _ _ => False := by
      funext c ch
      exact eq_false (not_subscribed_nil c ch)
    rw [hR]
    exact ⟨⟨OrdMap.represents_empty, OrdMap.represents_empty, OrdMap.populated_empty⟩,
      OrdMap.populated_empty⟩
  | append_singleton calls call ih =>
    rw [run_snoc]
    cases call with
    | subscribe connection channel channels =>
      have hR : Subscribed (calls ++ [.subscribe connection channel channels]) =
          joined (Subscribed calls) connection (channel :: channels) := by
        funext c ch
        exact propext subscribed_subscribe
      exact hR ▸ (tracks_subscribe connection ih channel channels).1
    | unsubscribe connection channels =>
      rw [subscribed_targets ih]
      exact (tracks_unsubscribe connection ih channels).1
    | publish channel message =>
      have hR : Subscribed (calls ++ [.publish channel message]) = Subscribed calls := by
        funext c ch
        exact propext (subscribed_of_none rfl)
      exact hR ▸ ih
    | removeConnection connection =>
      have hR : Subscribed (calls ++ [.removeConnection connection]) =
          fun c ch => Subscribed calls c ch ∧ c ≠ connection := by
        funext c ch
        exact propext subscribed_removeConnection
      exact hR ▸ tracks_removeConnection connection ih

/-- The message is written once to each connection subscribed to the channel, to no one else,
and the result is their number. -/
def Delivers (calls : List Call) (channel message : Str)
    (published : List (ClientConnection × Str) × Nat) : Prop :=
  (∀ connection, published.1.filter (fun sent => sent.1 = connection) =
    if Subscribed calls connection channel then [(connection, Reply.pushMessage channel message)]
    else []) ∧
  Set.encard {connection | Subscribed calls connection channel} = published.2

def Absent (m : PubSubManager) (connection : ClientConnection) : Prop :=
  m.connections.get? connection = none ∧
    ∀ channel conns, m.channels.get? channel = some conns → connection ∉ conns

theorem filter_eq_of_nodup {α : Type} [DecidableEq α] {s : List α} (h : s.Nodup) (a : α) :
    s.filter (fun b => b = a) = if a ∈ s then [a] else [] := by
  rw [List.filter_eq, List.Nodup.count h]
  split
  · rfl
  · rfl

theorem publish_delivers {m : PubSubManager} {calls : List Call} (h : m.Tracks (Subscribed calls))
    (channel message : Str) : Delivers calls channel message (m.publish channel message) := by
  have hsent : m.publish channel message =
      ((m.channels.elems channel).map fun conn => (conn, Reply.pushMessage channel message),
        (m.channels.elems channel).length) := by
    unfold publish OrdMap.elems
    cases m.channels.get? channel with
    | none => rfl
    | some conns => rfl
  rw [hsent]
  refine ⟨fun connection => ?_, h.channels.encard⟩
  rw [List.filter_map]
  show List.map _ ((m.channels.elems channel).filter fun conn => conn = connection) = _
  rw [filter_eq_of_nodup (h.channels channel).1]
  simp only [(h.channels channel).2]
  split
  · rfl
  · rfl

theorem absent_of_tracks {m : PubSubManager} {R : ClientConnection → Str → Prop} (h : m.Tracks R)
    {connection : ClientConnection} (hnone : ∀ channel, ¬ R connection channel) :
    m.Absent connection := by
  refine ⟨(h.connections.get?_eq_none_iff h.listed).mpr hnone, fun channel conns hc hin => ?_⟩
  exact hnone channel (((h.channels channel).2 connection).mp (OrdMap.elems_of_get? hc ▸ hin))

/-- After any calls: the maps mirror each other and keep no empty set, a message goes to the
subscribed connections, each confirmation counts the channels held by then, and a connection
that holds none is in neither map. -/
theorem registry_exact (calls : List Call) :
    (∀ connection channel,
      (∃ conns, (run calls).channels.get? channel = some conns ∧ connection ∈ conns) ↔
        ∃ channels, (run calls).connections.get? connection = some channels ∧ channel ∈ channels) ∧
    (run calls).channels.Populated ∧ (run calls).connections.Populated ∧
    (∀ channel message, Delivers calls channel message ((run calls).publish channel message)) ∧
    (∀ connection channel channels, Confirms Reply.subscribe (channel :: channels)
      ((run calls).subscribe connection (channel :: channels)).2 fun i =>
        {ch | Subscribed (calls ++ [.subscribe connection channel (channels.take i)])
          connection ch}) ∧
    (∀ connection, ((run calls).targets connection []).Nodup ∧
      ∀ channel, channel ∈ (run calls).targets connection [] ↔
        Subscribed calls connection channel) ∧
    (∀ connection channels, Confirms Reply.unsubscribe ((run calls).targets connection channels)
      ((run calls).unsubscribe connection channels).2 fun i =>
        {ch | Subscribed (calls ++ [.unsubscribe connection
          (((run calls).targets connection channels).take (i + 1))]) connection ch}) ∧
    (∀ connection, (∀ channel, ¬ Subscribed calls connection channel) →
      (run calls).Absent connection) ∧
    (∀ connection, (run (calls ++ [.unsubscribe connection []])).Absent connection) ∧
    (∀ connection, (run (calls ++ [.removeConnection connection])).Absent connection) := by
  have h := tracks_run calls
  refine ⟨fun connection channel => ?_, h.populated, h.listed, publish_delivers h,
    fun connection channel channels => ?_, h.connections, fun connection channels => ?_,
    fun connection => absent_of_tracks h, fun connection => ?_, fun connection => ?_⟩
  · rw [← OrdMap.mem_elems_iff, ← OrdMap.mem_elems_iff, (h.connections connection).2,
      (h.channels channel).2]
  · refine (tracks_subscribe connection h channel channels).2.congr fun i _ => ?_
    ext ch
    exact subscribed_subscribe
  · refine (tracks_unsubscribe connection h channels).2.congr fun i hi => ?_
    have hne : ((run calls).targets connection channels).take (i + 1) ≠ [] := by
      intro hnil
      rw [List.take_eq_nil_iff] at hnil
      rcases hnil with hnil | hnil
      · cases hnil
      · rw [hnil] at hi
        cases hi
    ext ch
    refine subscribed_unsubscribe.trans (and_congr_right fun _ => not_congr ?_)
    exact and_congr_right fun _ => or_iff_right hne
  · exact absent_of_tracks (tracks_run _) fun channel hs =>
      (subscribed_unsubscribe.mp hs).2 ⟨rfl, .inl rfl⟩
  · exact absent_of_tracks (tracks_run _) fun channel hs =>
      (subscribed_removeConnection.mp hs).2 rfl

end PubSubManager

end MiniStore
