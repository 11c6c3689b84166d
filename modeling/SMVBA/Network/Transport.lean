import Mathlib.Algebra.BigOperators.Group.Finset.Piecewise
import Mathlib.Algebra.Order.BigOperators.Group.Finset
import Mathlib.Data.List.Nodup
import SMVBA.Node.Channel

/-!
# The transport of the consensus messages

What is between `Transimtor.Send` at one node and `RecvChannel` at another. The transmitor hands a
message to the sender with the addresses that it goes to. The sender keeps one connection for each
address, dials when there is none, and gives up on the address if that fails. A goroutine for each
connection writes what is in the connection's channel, and drops what it cannot write. At the other
end the receiver reads from all its connections into one channel, and the transmitor there passes
what it finds on to the core. Each of these goroutines takes its steps on its own.

`transport_refines` is what the network of the other modules assumes: a run of the nodes over this
transport is one of their runs, with the messages that are lost on the way still in the inboxes.
`link_fifo` is what the transport gives beyond that: a node reads from another one in the order in
which the other has sent, and without faults it misses nothing. A fault of a connection is for ever,
since the sender never dials again (`failed_link_silent`).
-/

namespace SMVBA

open MessagePassing

/-! ## The sender -/

section Sender

variable {Addr Msg : Type*} [DecidableEq Addr]

/-- `NetMessage`: a message and the addresses that it goes to, none of them twice. -/
structure NetMessage (Addr Msg : Type*) where
  msg : Msg
  address : List Addr
  nodup : address.Nodup

/-- The message, if it goes to the address. -/
def NetMessage.toward (a : Addr) (nm : NetMessage Addr Msg) : Option Msg :=
  if a ∈ nm.address then some nm.msg else none

/-- What a list of one message has for an address. -/
theorem NetMessage.filterMap_toward (a : Addr) (nm : NetMessage Addr Msg) :
    (some nm).toList.filterMap (NetMessage.toward a) = (nm.toward a).toList := by
  cases h : nm.toward a <;> simp [h]

/-- The next address of a message is not among the others. -/
theorem NetMessage.toward_cons {m : Msg} {a : Addr} {rest : List Addr} (h : (a :: rest).Nodup)
    (b : Addr) : (⟨m, a :: rest, h⟩ : NetMessage Addr Msg).toward b =
      if b = a then some m else (⟨m, rest, h.of_cons⟩ : NetMessage Addr Msg).toward b := by
  unfold NetMessage.toward
  by_cases hb : b = a <;> simp [hb]

theorem NetMessage.toward_rest {m : Msg} {a : Addr} {rest : List Addr} (h : (a :: rest).Nodup) :
    (⟨m, rest, h.of_cons⟩ : NetMessage Addr Msg).toward a = none :=
  if_neg (List.nodup_cons.mp h).1

/-- A connection that `connect` has established. -/
structure Conn (Msg : Type*) where
  /-- The channel of the goroutine that writes. -/
  queue : List Msg
  /-- What was written and not yet read at the other end. -/
  wire : List Msg
  /-- What was read at the other end so far. -/
  taken : List Msg
  /-- No write has failed. -/
  up : Bool

/-- The messages of a connection, in order. -/
def Conn.all (c : Conn Msg) : List Msg := c.taken ++ c.wire ++ c.queue

/-- `Sender`, with the message that the loop of `Run` is at and the addresses that are left of it.
-/
structure Sender (Addr Msg : Type*) where
  msgCh : List (NetMessage Addr Msg)
  current : Option (NetMessage Addr Msg)
  conns : Addr → Option (Conn Msg)

namespace Sender

variable (s : Sender Addr Msg)

/-- `NewSender`. -/
def new : Sender Addr Msg := ⟨[], none, fun _ => none⟩

/-- `Sender.Send`. -/
def send (nm : NetMessage Addr Msg) : Sender Addr Msg := { s with msgCh := s.msgCh ++ [nm] }

/-- The outer loop of `Sender.Run` goes on to the next message. -/
def next : Option (Sender Addr Msg) :=
  match s.current, s.msgCh with
  | none, nm :: rest => some { s with msgCh := rest, current := some nm }
  | _, _ => none

/-- The inner loop of `Sender.Run` deals with the next address, or ends. The flag says whether
`net.Dial` succeeds, if it is called. -/
def dispatch (dial : Bool) : Option (Sender Addr Msg) :=
  match s.current with
  | none => none
  | some ⟨_, [], _⟩ => some { s with current := none }
  | some ⟨m, a :: rest, h⟩ =>
    let s' := { s with current := some ⟨m, rest, h.of_cons⟩ }
    match s.conns a with
    | some conn => some { s' with
        conns := Function.update s.conns a (some { conn with queue := conn.queue ++ [m] }) }
    | none => some (if dial then
        { s' with conns := Function.update s.conns a (some ⟨[m], [], [], true⟩) } else s')

/-- The goroutine of a connection takes a message from its channel and writes it, or fails to. A
connection to which a write has failed takes no further one. -/
def write (a : Addr) (ok : Bool) : Option (Sender Addr Msg) :=
  match s.conns a with
  | some ⟨m :: queue, wire, taken, up⟩ =>
    if ok = false then
      some { s with conns := Function.update s.conns a (some ⟨queue, wire, taken, false⟩) }
    else if up then
      some { s with conns := Function.update s.conns a (some ⟨queue, wire ++ [m], taken, true⟩) }
    else none
  | _ => none

/-- The other end of a connection reads a message. -/
def read (a : Addr) : Option (Msg × Sender Addr Msg) :=
  match s.conns a with
  | some ⟨queue, m :: wire, taken, up⟩ => some (m,
      { s with conns := Function.update s.conns a (some ⟨queue, wire, taken ++ [m], up⟩) })
  | _ => none

/-- A connection breaks, and what was not yet read is lost. -/
def cut (a : Addr) : Sender Addr Msg :=
  { s with
    conns := Function.update s.conns a ((s.conns a).map fun c => ⟨c.queue, [], c.taken, false⟩) }

/-- The connection to an address. Where there is none, there is nothing in it. -/
def link (a : Addr) : Conn Msg := (s.conns a).getD ⟨[], [], [], true⟩

/-- All messages for an address, from those that were read at the other end to those in the channel
of the sender. -/
def flow (a : Addr) : List Msg :=
  (s.link a).all ++ s.current.toList.filterMap (NetMessage.toward a) ++
    s.msgCh.filterMap (NetMessage.toward a)

variable {s} {s' : Sender Addr Msg} {a b : Addr} {m : Msg}

theorem taken_prefix_flow : (s.link a).taken <+: s.flow a := by
  unfold flow Conn.all
  rw [List.append_assoc, List.append_assoc, List.append_assoc]
  exact List.prefix_append _ _

/-- Where the connection is as it was and nothing is taken from the channels, the flow is. -/
theorem flow_eq_of_link (hlink : s'.link b = s.link b)
    (hcurrent : s'.current.toList.filterMap (NetMessage.toward b) =
      s.current.toList.filterMap (NetMessage.toward b)) (hch : s'.msgCh = s.msgCh) :
    s'.flow b = s.flow b := by
  unfold flow
  rw [hlink, hcurrent, hch]

theorem flow_send (nm : NetMessage Addr Msg) :
    (s.send nm).flow a = s.flow a ++ (nm.toward a).toList := by
  unfold flow send link
  cases h : nm.toward a <;> simp [List.filterMap_append, h]

theorem flow_next (h : s.next = some s') : s'.flow a = s.flow a ∧ s'.link a = s.link a := by
  unfold next at h
  split at h
  case h_1 nm rest hc hm =>
    cases h
    refine ⟨?_, rfl⟩
    unfold flow link
    rw [hc, hm]
    cases hnm : nm.toward a <;> simp [hnm]
  case h_2 => cases h

/-- The connections after one of them has changed. -/
theorem link_update {c : Conn Msg} (hs : s'.conns = Function.update s.conns a (some c)) (b : Addr) :
    s'.link b = if b = a then c else s.link b := by
  unfold link
  rw [hs]
  by_cases hb : b = a
  · rw [hb, Function.update_self, if_pos rfl]
    rfl
  · rw [Function.update_of_ne hb, if_neg hb]

/-- `dispatch` moves a message from the loop to a connection, or drops it if it cannot dial. -/
theorem flow_dispatch {dial : Bool} (h : s.dispatch dial = some s') (b : Addr) :
    (s'.flow b = s.flow b ∨ dial = false ∧ (s'.flow b).Sublist (s.flow b)) ∧
      (s'.link b).taken = (s.link b).taken := by
  unfold dispatch at h
  split at h
  case h_1 => cases h
  case h_2 m hnil hc =>
    cases h
    refine ⟨.inl (flow_eq_of_link rfl ?_ rfl), rfl⟩
    simp [hc, NetMessage.toward]
  case h_3 m a rest hnodup hc =>
    have hrest := NetMessage.toward_rest (m := m) hnodup
    have hcons := NetMessage.toward_cons (m := m) hnodup b
    -- What the loop has left for an address other than the next one is the same.
    have hother : b ≠ a → (some (⟨m, rest, hnodup.of_cons⟩ : NetMessage Addr Msg)).toList.filterMap
        (NetMessage.toward b) = s.current.toList.filterMap (NetMessage.toward b) := by
      intro hb
      rw [hc, NetMessage.filterMap_toward, NetMessage.filterMap_toward, hcons, if_neg hb]
    -- And the message goes from the loop to the end of the connection.
    have hmove : ∀ {c : Conn Msg}, s'.conns = Function.update s.conns a (some c) →
        s'.current = some ⟨m, rest, hnodup.of_cons⟩ → s'.msgCh = s.msgCh →
        c.all = (s.link a).all ++ [m] → c.taken = (s.link a).taken →
        (s'.flow b = s.flow b ∨ dial = false ∧ (s'.flow b).Sublist (s.flow b)) ∧
          (s'.link b).taken = (s.link b).taken := by
      intro c hconns hcurrent hch hall htaken
      have hlink := link_update hconns b
      by_cases hb : b = a
      · subst hb
        rw [if_pos rfl] at hlink
        refine ⟨.inl ?_, by rw [hlink, htaken]⟩
        unfold flow
        rw [hlink, hall, hcurrent, hch, hc, NetMessage.filterMap_toward,
          NetMessage.filterMap_toward, hrest, hcons, if_pos rfl]
        simp
      · rw [if_neg hb] at hlink
        refine ⟨.inl (flow_eq_of_link hlink ?_ hch), by rw [hlink]⟩
        rw [hcurrent]
        exact hother hb
    dsimp only at h
    split at h
    case h_1 conn hconn =>
      cases h
      refine hmove rfl rfl rfl ?_ ?_
      · unfold link Conn.all
        rw [hconn, Option.getD_some, List.append_assoc _ conn.queue]
      · unfold link
        rw [hconn, Option.getD_some]
    case h_2 hconn =>
      cases dial with
      | true =>
        cases h
        refine hmove rfl rfl rfl ?_ ?_
        · unfold link Conn.all
          rw [hconn]
          rfl
        · unfold link
          rw [hconn]
          rfl
      | false =>
        cases h
        refine ⟨?_, rfl⟩
        by_cases hb : b = a
        · subst hb
          refine .inr ⟨rfl, ?_⟩
          unfold flow
          rw [if_neg Bool.false_ne_true, hc, NetMessage.filterMap_toward,
            NetMessage.filterMap_toward, hrest, hcons, if_pos rfl]
          refine List.Sublist.append_right (List.Sublist.append_left ?_ _) _
          exact List.nil_sublist _
        · exact .inl (flow_eq_of_link rfl (hother hb) rfl)

/-- A change of one connection alone. -/
theorem flow_link {c : Conn Msg} (hs : s' = { s with
    conns := Function.update s.conns a (some c) }) (b : Addr) :
    (b ≠ a → s'.flow b = s.flow b) ∧ (c.all = (s.link a).all → s'.flow b = s.flow b) ∧
      (c.all.Sublist (s.link a).all → (s'.flow b).Sublist (s.flow b)) := by
  have hlink := link_update (congrArg conns hs) b
  subst hs
  unfold flow
  by_cases hb : b = a
  · rw [if_pos hb] at hlink
    subst hb
    rw [hlink]
    refine ⟨fun hne => absurd rfl hne, fun heq => by rw [heq], fun hsub => ?_⟩
    exact List.Sublist.append_right (List.Sublist.append_right hsub _) _
  · rw [if_neg hb] at hlink
    rw [hlink]
    exact ⟨fun _ => rfl, fun _ => rfl, fun _ => List.Sublist.refl _⟩

omit [DecidableEq Addr] in
theorem link_eq_of_conns {c : Conn Msg} (h : s.conns a = some c) : s.link a = c := by
  unfold link
  rw [h, Option.getD_some]

/-- `write` moves a message along a connection, or drops it if it fails. -/
theorem flow_write {ok : Bool} (h : s.write a ok = some s') (b : Addr) :
    (s'.flow b = s.flow b ∨ ok = false ∧ (s'.flow b).Sublist (s.flow b)) ∧
      (s'.link b).taken = (s.link b).taken := by
  unfold write at h
  split at h
  case h_2 => cases h
  case h_1 m queue wire taken up hconn =>
    have hlink := link_eq_of_conns hconn
    have htaken : ∀ {c : Conn Msg}, s'.conns = Function.update s.conns a (some c) →
        c.taken = taken → (s'.link b).taken = (s.link b).taken := by
      intro c hconns heq
      rw [link_update hconns b]
      split_ifs with hb
      · rw [hb, hlink, heq]
      · rfl
    split_ifs at h with hok hup
    · cases h
      refine ⟨.inr ⟨hok, (flow_link rfl b).2.2 ?_⟩, htaken rfl rfl⟩
      rw [hlink]
      exact List.Sublist.append_left (List.sublist_cons_self m queue) _
    · cases h
      refine ⟨.inl ((flow_link rfl b).2.1 ?_), htaken rfl rfl⟩
      rw [hlink]
      simp [Conn.all]

/-- `read` takes the message that was written first. -/
theorem flow_read (h : s.read a = some (m, s')) (b : Addr) :
    s'.flow b = s.flow b ∧
      (s'.link b).taken = if b = a then (s.link b).taken ++ [m] else (s.link b).taken := by
  unfold read at h
  split at h
  case h_2 => cases h
  case h_1 queue m' wire taken up hconn =>
    have hlink := link_eq_of_conns hconn
    cases h
    refine ⟨(flow_link rfl b).2.1 ?_, ?_⟩
    · rw [hlink]
      simp [Conn.all]
    · rw [link_update rfl b]
      split_ifs with hb
      · rw [hb, hlink]
      · rfl

theorem flow_cut (a b : Addr) :
    ((s.cut a).flow b).Sublist (s.flow b) ∧ ((s.cut a).link b).taken = (s.link b).taken := by
  cases hconn : s.conns a with
  | none =>
    have hsame : s.cut a = s := by
      unfold cut
      rw [hconn, Option.map_none, ← hconn, Function.update_eq_self]
    rw [hsame]
    exact ⟨List.Sublist.refl _, rfl⟩
  | some c =>
    have hlink := link_eq_of_conns hconn
    have hcut : s.cut a = { s with
        conns := Function.update s.conns a (some ⟨c.queue, [], c.taken, false⟩) } := by
      unfold cut
      rw [hconn, Option.map_some]
    refine ⟨(flow_link hcut b).2.2 ?_, ?_⟩
    · rw [hlink]
      unfold Conn.all
      dsimp only
      rw [List.append_nil]
      exact List.Sublist.append_right (List.sublist_append_left _ _) _
    · rw [link_update (congrArg conns hcut) b]
      split_ifs with hb
      · rw [hb, hlink]
      · rfl

/-- A connection to which a write has failed, and what was written before. -/
structure Dead (s : Sender Addr Msg) (a : Addr) (written : List Msg) : Prop where
  down : (s.link a).up = false
  written : (s.link a).taken ++ (s.link a).wire <+: written

omit [DecidableEq Addr] in
/-- A failed connection is still there. -/
theorem Dead.exists_conn {written : List Msg} (h : s.Dead a written) :
    ∃ c, s.conns a = some c ∧ s.link a = c := by
  cases hconn : s.conns a with
  | none =>
    have hdown := h.down
    unfold link at hdown
    rw [hconn] at hdown
    cases hdown
  | some c => exact ⟨c, rfl, link_eq_of_conns hconn⟩

/-- A change of a connection leaves a failed one failed, if it brings nothing new. -/
theorem Dead.update {written : List Msg} {c : Conn Msg} (h : s.Dead a written)
    (hs : s'.conns = Function.update s.conns b (some c))
    (hup : a = b → (s.link a).up = false → c.up = false)
    (hnew : a = b → (s.link a).up = false →
      c.taken ++ c.wire <+: (s.link a).taken ++ (s.link a).wire) :
    s'.Dead a written := by
  have hlink := link_update hs a
  by_cases hab : a = b
  · rw [if_pos hab] at hlink
    refine ⟨?_, ?_⟩
    · rw [hlink]
      exact hup hab h.down
    · rw [hlink]
      exact (hnew hab h.down).trans h.written
  · rw [if_neg hab] at hlink
    exact ⟨hlink ▸ h.down, hlink ▸ h.written⟩

theorem Dead.dispatch {written : List Msg} {dial : Bool} (h : s.Dead a written)
    (hs : s.dispatch dial = some s') : s'.Dead a written := by
  unfold Sender.dispatch at hs
  split at hs
  case h_1 => cases hs
  case h_2 =>
    cases hs
    exact ⟨h.down, h.written⟩
  case h_3 m b rest hnodup hc =>
    dsimp only at hs
    split at hs
    case h_1 conn hconn =>
      cases hs
      have hlink := link_eq_of_conns hconn
      refine h.update rfl ?_ ?_
      · rintro rfl hdown
        rw [← hlink]
        exact hdown
      · rintro rfl -
        rw [hlink]
    case h_2 hconn =>
      cases dial with
      | false =>
        cases hs
        exact ⟨h.down, h.written⟩
      | true =>
        cases hs
        obtain ⟨conn, hsome, -⟩ := h.exists_conn
        have hab : a ≠ b := by
          rintro rfl
          rw [hconn] at hsome
          cases hsome
        exact h.update rfl (fun heq => absurd heq hab) fun heq => absurd heq hab

theorem Dead.write {written : List Msg} {good : Bool} (h : s.Dead a written)
    (hs : s.write b good = some s') : s'.Dead a written := by
  unfold Sender.write at hs
  split at hs
  case h_2 => cases hs
  case h_1 m queue wire taken up hconn =>
    have hlink := link_eq_of_conns hconn
    split_ifs at hs with hgood hup
    · cases hs
      refine h.update rfl (fun _ _ => rfl) ?_
      rintro rfl -
      rw [hlink]
    · cases hs
      -- A write that succeeds is to another connection.
      have hab : a ≠ b := by
        rintro rfl
        have hdown := h.down
        rw [hlink] at hdown
        exact absurd (hup.symm.trans hdown) (by decide)
      exact h.update rfl (fun heq => absurd heq hab) fun heq => absurd heq hab

theorem Dead.read {written : List Msg} (h : s.Dead a written) (hs : s.read b = some (m, s')) :
    s'.Dead a written := by
  unfold Sender.read at hs
  split at hs
  case h_2 => cases hs
  case h_1 queue m' wire taken up hconn =>
    have hlink := link_eq_of_conns hconn
    cases hs
    refine h.update rfl ?_ ?_
    · rintro rfl hdown
      rw [hlink] at hdown
      exact hdown
    · rintro rfl -
      rw [hlink, List.append_assoc]
      exact List.prefix_rfl

theorem Dead.cut {written : List Msg} (h : s.Dead a written) (b : Addr) :
    (s.cut b).Dead a written := by
  cases hconn : s.conns b with
  | none =>
    have hsame : s.cut b = s := by
      unfold Sender.cut
      rw [hconn, Option.map_none, ← hconn, Function.update_eq_self]
    rwa [hsame]
  | some c =>
    have hlink := link_eq_of_conns hconn
    have hcut : (s.cut b).conns =
        Function.update s.conns b (some ⟨c.queue, [], c.taken, false⟩) := by
      unfold Sender.cut
      rw [hconn, Option.map_some]
    refine h.update hcut (fun _ _ => rfl) ?_
    rintro rfl -
    rw [hlink, List.append_nil]
    exact List.prefix_append _ _

end Sender

end Sender

/-! ## The cluster -/

variable {Addr : Type*} [DecidableEq Addr] {S : Setup} {ok : Cond} {faults : Prop}

/-- The addresses of the nodes, as `Committee.Address` has them. The address of a member is nobody
else's. -/
structure Topology (S : Setup) (Addr : Type*) where
  address : NodeID → Addr
  address_inj : ∀ d ∈ S.committee.authorities, ∀ q, address q = address d → q = d

/-- An order in which a loop over the map of authorities goes through it. -/
structure Enumeration (S : Setup) where
  ids : List NodeID
  nodup : ids.Nodup
  mem_iff : ∀ q, q ∈ ids ↔ q ∈ S.committee.authorities

/-- `Committee.BroadCast`. -/
def Topology.broadCast (T : Topology S Addr) (o : Enumeration S) (id : NodeID) : List Addr :=
  (o.ids.filter (· ≠ id)).map T.address

omit [DecidableEq Addr] in
theorem Topology.nodup_broadCast (T : Topology S Addr) (o : Enumeration S) (id : NodeID) :
    (T.broadCast o id).Nodup := by
  refine List.Nodup.map_on ?_ (o.nodup.filter _)
  intro q _ d hd heq
  exact T.address_inj d ((o.mem_iff d).mp (List.mem_filter.mp hd).1) q heq

/-- The message that `Transmitor.Send` puts on `msgCh`. -/
def Topology.netMessage (T : Topology S Addr) (o : Enumeration S) (name dst : NodeID)
    (m : Message) : NetMessage Addr Message :=
  if dst = NONE then ⟨m, T.broadCast o name, T.nodup_broadCast o name⟩
  else ⟨m, [T.address dst], List.nodup_singleton _⟩

/-- What the outputs of a handler put on `msgCh`, each broadcast in an order of its own. -/
def Topology.sends (T : Topology S Addr) (name : NodeID) :
    (ℕ → Enumeration S) → List Output → List (NetMessage Addr Message)
  | _, [] => []
  | o, .send dst m :: outs =>
    T.netMessage (o 0) name dst m :: T.sends name (fun k => o (k + 1)) outs
  | o, .recv _ :: outs | o, .spawn _ :: outs | o, .create _ :: outs | o, .commit _ :: outs
  | o, .sync _ :: outs => T.sends name o outs

/-- The message that an output of `q` sends to `d` over the network. -/
def Output.wireTo (q d : NodeID) : Output → Option Message
  | .send dst m => if (if dst = NONE then d ≠ q else d = dst) then some m else none
  | _ => none

/-- A message is sent to the addresses of those that it is for. -/
theorem Topology.toward_netMessage (T : Topology S Addr) (o : Enumeration S) {name dst d : NodeID}
    (m : Message) (hd : d ∈ S.committee.authorities) :
    (T.netMessage o name dst m).toward (T.address d) = (Output.send dst m).wireTo name d := by
  unfold Topology.netMessage NetMessage.toward Output.wireTo
  by_cases hdst : dst = NONE
  · have hmem : T.address d ∈ T.broadCast o name ↔ d ≠ name := by
      unfold Topology.broadCast
      rw [List.mem_map]
      constructor
      · rintro ⟨q, hq, heq⟩
        rw [← T.address_inj d hd q heq]
        exact of_decide_eq_true (List.mem_filter.mp hq).2
      · intro hne
        exact ⟨d, List.mem_filter.mpr ⟨(o.mem_iff d).mpr hd, decide_eq_true hne⟩, rfl⟩
    simp only [if_pos hdst]
    exact if_congr hmem rfl rfl
  · have hmem : T.address d ∈ [T.address dst] ↔ d = dst := by
      rw [List.mem_singleton]
      exact ⟨fun heq => (T.address_inj d hd dst heq.symm).symm, fun heq => by rw [heq]⟩
    simp only [if_neg hdst]
    exact if_congr hmem rfl rfl

theorem Topology.filterMap_sends (T : Topology S Addr) (name : NodeID) (o : ℕ → Enumeration S)
    (outs : List Output) {d : NodeID} (hd : d ∈ S.committee.authorities) :
    (T.sends name o outs).filterMap (NetMessage.toward (T.address d)) =
      outs.filterMap (Output.wireTo name d) := by
  induction outs generalizing o with
  | nil => rfl
  | cons out outs ih =>
    cases out with
    | send dst m =>
      rw [Topology.sends, List.filterMap_cons, List.filterMap_cons, T.toward_netMessage _ m hd, ih]
    | _ => exact ih o

/-- What a node sends to another one goes over the network, and what it sends to itself may also go
straight to its channel. -/
theorem count_sentTo (q d : NodeID) (outs : List Output) (m : Message) :
    (outs.filterMap (Output.sentTo q d)).count m = (outs.filterMap (Output.wireTo q d)).count m +
      if d = q then (outs.filterMap Output.recv?).count m else 0 := by
  induction outs with
  | nil => simp
  | cons out outs ih =>
    cases out with
    | send dst m' =>
      have hsame : (Output.send dst m').sentTo q d = (Output.send dst m').wireTo q d := rfl
      have hnone : (Output.send dst m').recv? = none := rfl
      rw [List.filterMap_cons, List.filterMap_cons, List.filterMap_cons_none hnone, hsame]
      cases (Output.send dst m').wireTo q d with
      | none => exact ih
      | some m'' =>
        dsimp only
        rw [List.count_cons, List.count_cons, ih]
        omega
    | recv m' =>
      have hwire : (Output.recv m').wireTo q d = none := rfl
      have hrecv : (Output.recv m').recv? = some m' := rfl
      rw [List.filterMap_cons_none hwire, List.filterMap_cons_some hrecv]
      by_cases hq : d = q
      · have hsent : (Output.recv m').sentTo q d = some m' := if_pos hq
        rw [if_pos hq] at ih ⊢
        rw [List.filterMap_cons_some hsent, List.count_cons, List.count_cons, ih]
        omega
      · have hsent : (Output.recv m').sentTo q d = none := if_neg hq
        rw [if_neg hq] at ih ⊢
        rw [List.filterMap_cons_none hsent]
        exact ih
    | _ => exact ih

/-- The nodes with the transport between them. -/
structure Cluster (Addr : Type*) where
  nodes : NodeID → Hist
  /-- `msgCh` of the transmitor. -/
  msgCh : NodeID → List (NetMessage Addr Message)
  sender : NodeID → Sender Addr Message
  /-- `msg` of the receiver. -/
  received : NodeID → List Message
  /-- `recvCh` of the transmitor. -/
  recvCh : NodeID → List Message

/-- Nothing was sent yet. -/
def Cluster.start (Addr : Type*) : Cluster Addr :=
  ⟨Hist.init, fun _ => [], fun _ => .new, fun _ => [], fun _ => []⟩

/-- One step of one of the goroutines. Dials, writes and connections may fail if there are faults.
-/
inductive Cluster.Step (S : Setup) (ok : Cond) (T : Topology S Addr) (faults : Prop) :
    Cluster Addr → Cluster Addr → Prop
  /-- The core takes a message from `recvCh`, or runs a call, a loopback or its start. -/
  | node {c : Cluster Addr} {q : NodeID} {env : Env} {i : Input} {y : Hist} {outs : List Output}
      {rest : List Message} (o : ℕ → Enumeration S) (hq : q ∈ S.committee.authorities)
      (htake : c.recvCh q = i.msg?.toList ++ rest) (hreg : Regular (c.nodes q) env i)
      (hok : ok (c.nodes q) env i) (h : (c.nodes q).step S env i = some (y, outs)) :
      Step S ok T faults c { c with
        nodes := Function.update c.nodes q y
        recvCh := Function.update c.recvCh q (rest ++ outs.filterMap Output.recv?)
        msgCh := Function.update c.msgCh q
          (c.msgCh q ++ T.sends (c.nodes q).core.name o outs) }
  /-- The transmitor hands a message to the sender. -/
  | forward {c : Cluster Addr} {q : NodeID} {nm : NetMessage Addr Message}
      {rest : List (NetMessage Addr Message)} (h : c.msgCh q = nm :: rest) :
      Step S ok T faults c { c with
        msgCh := Function.update c.msgCh q rest
        sender := Function.update c.sender q ((c.sender q).send nm) }
  /-- The sender goes on to its next message. -/
  | next {c : Cluster Addr} {q : NodeID} {s : Sender Addr Message}
      (h : (c.sender q).next = some s) :
      Step S ok T faults c { c with sender := Function.update c.sender q s }
  /-- The sender deals with an address. -/
  | dispatch {c : Cluster Addr} {q : NodeID} {s : Sender Addr Message} {dial : Bool}
      (h : (c.sender q).dispatch dial = some s) (hfault : dial = false → faults) :
      Step S ok T faults c { c with sender := Function.update c.sender q s }
  /-- A connection is written to. -/
  | write {c : Cluster Addr} {q : NodeID} {s : Sender Addr Message} {a : Addr} {good : Bool}
      (h : (c.sender q).write a good = some s) (hfault : good = false → faults) :
      Step S ok T faults c { c with sender := Function.update c.sender q s }
  /-- A connection breaks. -/
  | cut {c : Cluster Addr} (q : NodeID) (a : Addr) (hfault : faults) :
      Step S ok T faults c { c with sender := Function.update c.sender q ((c.sender q).cut a) }
  /-- The receiver of a node reads from a connection to its address. -/
  | read {c : Cluster Addr} {q d : NodeID} {s : Sender Addr Message} {m : Message}
      (hq : q ∈ S.committee.authorities) (hd : d ∈ S.committee.authorities)
      (h : (c.sender q).read (T.address d) = some (m, s)) :
      Step S ok T faults c { c with
        sender := Function.update c.sender q s
        received := Function.update c.received d (c.received d ++ [m]) }
  /-- The transmitor passes a message on to the core. -/
  | route {c : Cluster Addr} {q : NodeID} {m : Message} {rest : List Message}
      (h : c.received q = m :: rest) :
      Step S ok T faults c { c with
        received := Function.update c.received q rest
        recvCh := Function.update c.recvCh q (c.recvCh q ++ [m]) }

/-- The states that the cluster reaches. -/
def Cluster.Runs (S : Setup) (ok : Cond) (T : Topology S Addr) (faults : Prop) (c : Cluster Addr) :
    Prop := Relation.ReflTransGen (Cluster.Step S ok T faults) (.start Addr) c

/-! ## What is under way -/

namespace Cluster

variable {T : Topology S Addr} {c c' : Cluster Addr}

/-- All messages that a node has sent to another one over the network and that were not lost, from
those that the other one has read to those in the channel of the transmitor. -/
def flow (T : Topology S Addr) (c : Cluster Addr) (q d : NodeID) : List Message :=
  (c.sender q).flow (T.address d) ++ (c.msgCh q).filterMap (NetMessage.toward (T.address d))

/-- What a node has read from another one. -/
def taken (T : Topology S Addr) (c : Cluster Addr) (q d : NodeID) : List Message :=
  ((c.sender q).link (T.address d)).taken

theorem taken_prefix_flow (q d : NodeID) : c.taken T q d <+: c.flow T q d :=
  Sender.taken_prefix_flow.trans (List.prefix_append _ _)

/-- The messages that a node has put on its own channel. -/
def own (c : Cluster Addr) (q : NodeID) : List Message := (c.nodes q).out.filterMap Output.recv?

/-- The messages that a node has sent to another one over the network. -/
def wired (c : Cluster Addr) (q d : NodeID) : List Message :=
  (c.nodes q).out.filterMap (Output.wireTo q d)

/-- What a step does to the messages from one node to another: it adds what the core sends, or it
loses some if there are faults. -/
theorem Step.flow_cases (h : Step S ok T faults c c') (hname : ∀ q, (c.nodes q).core.name = q)
    (q : NodeID) {d : NodeID} (hd : d ∈ S.committee.authorities) :
    ∃ new, c'.wired q d = c.wired q d ++ new ∧ (c'.flow T q d = c.flow T q d ++ new ∨
      new = [] ∧ faults ∧ (c'.flow T q d).Sublist (c.flow T q d)) := by
  -- A step of one sender, by what it does to the flow of the sender.
  have hsender : ∀ {p : NodeID} {s : Sender Addr Message}, c'.nodes = c.nodes →
      c'.msgCh = c.msgCh → c'.sender = Function.update c.sender p s →
      (s.flow (T.address d) = (c.sender p).flow (T.address d) ∨
        faults ∧ (s.flow (T.address d)).Sublist ((c.sender p).flow (T.address d))) →
      ∃ new, c'.wired q d = c.wired q d ++ new ∧ (c'.flow T q d = c.flow T q d ++ new ∨
        new = [] ∧ faults ∧ (c'.flow T q d).Sublist (c.flow T q d)) := by
    intro p s hnodes hch hs hflow
    unfold Cluster.flow Cluster.wired
    rw [hnodes, hch, hs]
    refine ⟨[], (List.append_nil _).symm, ?_⟩
    rw [List.append_nil]
    by_cases hq : q = p
    · subst hq
      rw [Function.update_self]
      rcases hflow with heq | ⟨hfault, hsub⟩
      · exact .inl (by rw [heq])
      · exact .inr ⟨rfl, hfault, hsub.append_right _⟩
    · rw [Function.update_of_ne hq]
      exact .inl rfl
  cases h with
  | @node p env i y outs rest o hp htake hreg hok h =>
    unfold Cluster.flow Cluster.wired
    dsimp only
    by_cases hq : q = p
    · subst hq
      rw [Function.update_self, Function.update_self, Hist.step_out h, hname q]
      refine ⟨outs.filterMap (Output.wireTo q d), List.filterMap_append, .inl ?_⟩
      rw [List.filterMap_append, T.filterMap_sends q o outs hd, List.append_assoc]
    · rw [Function.update_of_ne hq, Function.update_of_ne hq]
      exact ⟨[], (List.append_nil _).symm, .inl (List.append_nil _).symm⟩
  | @forward p nm rest h =>
    refine ⟨[], (List.append_nil _).symm, .inl ?_⟩
    unfold Cluster.flow
    dsimp only
    rw [List.append_nil]
    by_cases hq : q = p
    · subst hq
      rw [Function.update_self, Function.update_self, Sender.flow_send, h, List.append_assoc]
      cases hnm : nm.toward (T.address d) <;> simp [hnm]
    · rw [Function.update_of_ne hq, Function.update_of_ne hq]
  | next h => exact hsender rfl rfl rfl (.inl (Sender.flow_next h).1)
  | dispatch h hfault =>
    exact hsender rfl rfl rfl ((Sender.flow_dispatch h _).1.imp_right fun hlost =>
      ⟨hfault hlost.1, hlost.2⟩)
  | write h hfault =>
    exact hsender rfl rfl rfl ((Sender.flow_write h _).1.imp_right fun hlost =>
      ⟨hfault hlost.1, hlost.2⟩)
  | cut p a hfault => exact hsender rfl rfl rfl (.inr ⟨hfault, (Sender.flow_cut a _).1⟩)
  | read hp hd' h => exact hsender rfl rfl rfl (.inl (Sender.flow_read h _).1)
  | route h => exact ⟨[], (List.append_nil _).symm, .inl (List.append_nil _).symm⟩

/-- What has reached a node's core, or is at the node, is what it has put there itself and what it
has read. -/
structure Accounted (T : Topology S Addr) (c : Cluster Addr) : Prop where
  name : ∀ q, (c.nodes q).core.name = q
  count : ∀ d ∈ S.committee.authorities, ∀ m,
    (c.nodes d).handled.count m + (c.recvCh d).count m + (c.received d).count m =
      (c.own d).count m + ∑ q ∈ S.committee.authorities, (c.taken T q d).count m

omit [DecidableEq Addr] in
theorem Accounted.start (T : Topology S Addr) : Accounted T (.start Addr) where
  name q := rfl
  count d _ m := by
    simp [Cluster.start, Cluster.own, Cluster.taken, Hist.init, Sender.link, Sender.new]

theorem Accounted.step (h : Step S ok T faults c c') (hc : Accounted T c) : Accounted T c' := by
  -- A step that reads nothing and leaves the nodes and their channels alone.
  have hsame : c'.nodes = c.nodes → c'.received = c.received → c'.recvCh = c.recvCh →
      (∀ q d, c'.taken T q d = c.taken T q d) → Accounted T c' := by
    intro hnodes hreceived hch htaken
    refine ⟨by rw [hnodes]; exact hc.name, fun d hd m => ?_⟩
    have hcount := hc.count d hd m
    unfold Cluster.own at hcount ⊢
    simp only [hnodes, hreceived, hch, htaken]
    exact hcount
  have hsender : ∀ {p : NodeID} {s : Sender Addr Message}, c'.nodes = c.nodes →
      c'.received = c.received → c'.recvCh = c.recvCh →
      c'.sender = Function.update c.sender p s →
      (∀ a, (s.link a).taken = ((c.sender p).link a).taken) → Accounted T c' := by
    intro p s hnodes hreceived hch hs htaken
    refine hsame hnodes hreceived hch fun q d => ?_
    unfold Cluster.taken
    rw [hs]
    by_cases hq : q = p
    · rw [hq, Function.update_self, htaken]
    · rw [Function.update_of_ne hq]
  cases h with
  | @node p env i y outs rest o hp htake hreg hok h =>
    refine ⟨fun q => ?_, fun d hd m => ?_⟩
    · by_cases hq : q = p
      · subst hq
        dsimp only
        rw [Function.update_self]
        exact (step_invariant (I := fun z => z.core.name = q)
          (fun hrule hz => hrule.name_eq.trans hz) h (hc.name q))
      · dsimp only
        rw [Function.update_of_ne hq]
        exact hc.name q
    · have hcount := hc.count d hd m
      unfold Cluster.own Cluster.taken at hcount ⊢
      dsimp only
      by_cases hq : d = p
      · subst hq
        rw [Function.update_self, Function.update_self, Hist.step_handled h, Hist.step_out h,
          List.filterMap_append]
        rw [htake] at hcount
        simp only [List.count_append] at hcount ⊢
        omega
      · rw [Function.update_of_ne hq, Function.update_of_ne hq]
        exact hcount
  | forward h => exact hsender rfl rfl rfl rfl fun a => rfl
  | next h => exact hsender rfl rfl rfl rfl fun a => by rw [(Sender.flow_next h).2]
  | dispatch h hfault => exact hsender rfl rfl rfl rfl fun a => (Sender.flow_dispatch h a).2
  | write h hfault => exact hsender rfl rfl rfl rfl fun a => (Sender.flow_write h a).2
  | cut p a hfault => exact hsender rfl rfl rfl rfl fun b => (Sender.flow_cut a b).2
  | @read p d s m hp hd h =>
    refine ⟨hc.name, fun d' hd' m' => ?_⟩
    have hcount := hc.count d' hd' m'
    -- The reader has one message more, and so has what was read from the sender.
    have hread : ∀ q, Cluster.taken T { c with
          sender := Function.update c.sender p s
          received := Function.update c.received d (c.received d ++ [m]) } q d' =
        c.taken T q d' ++ if q = p ∧ d' = d then [m] else [] := by
      intro q
      unfold Cluster.taken
      dsimp only
      by_cases hq : q = p
      · subst hq
        rw [Function.update_self, (Sender.flow_read h _).2]
        by_cases hdd : d' = d
        · simp [hdd]
        · have hne : T.address d' ≠ T.address d := fun heq => hdd (T.address_inj d hd d' heq)
          simp [hdd, hne]
      · simp [hq]
    simp only [hread, List.count_append, Finset.sum_add_distrib]
    change _ + _ + (Function.update c.received d (c.received d ++ [m]) d').count m' =
      (c.own d').count m' + _
    by_cases hdd : d' = d
    · subst hdd
      have hone : ∑ q ∈ S.committee.authorities,
          (if q = p ∧ d' = d' then [m] else []).count m' = [m].count m' := by
        rw [Finset.sum_eq_single_of_mem p hp]
        · simp
        · intro q _ hq
          simp [hq]
      rw [Function.update_self, List.count_append, hone]
      omega
    · have hzero : ∑ q ∈ S.committee.authorities,
          (if q = p ∧ d' = d then [m] else []).count m' = 0 := by
        simp [hdd]
      rw [Function.update_of_ne hdd, hzero]
      omega
  | @route p m rest h =>
    refine ⟨hc.name, fun d hd m' => ?_⟩
    have hcount := hc.count d hd m'
    change (c.nodes d).handled.count m' +
      (Function.update c.recvCh p (c.recvCh p ++ [m]) d).count m' +
      (Function.update c.received p rest d).count m' = (c.own d).count m' +
        ∑ q ∈ S.committee.authorities, (c.taken T q d).count m'
    by_cases hd' : d = p
    · subst hd'
      rw [h, List.count_cons] at hcount
      rw [Function.update_self, Function.update_self, List.count_append, List.count_singleton]
      omega
    · rw [Function.update_of_ne hd', Function.update_of_ne hd']
      exact hcount

/-- No step revives a failed connection. -/
theorem Step.dead (h : Step S ok T faults c c') {q : NodeID} {a : Addr} {written : List Message}
    (hc : (c.sender q).Dead a written) : (c'.sender q).Dead a written := by
  have hsender : ∀ {p : NodeID} {s : Sender Addr Message},
      c'.sender = Function.update c.sender p s →
      ((c.sender p).Dead a written → s.Dead a written) → (c'.sender q).Dead a written := by
    intro p s hs hdead
    rw [hs]
    by_cases hq : q = p
    · subst hq
      rw [Function.update_self]
      exact hdead hc
    · rwa [Function.update_of_ne hq]
  cases h with
  | node o hq htake hreg hok h => exact hc
  | forward h => exact hsender rfl fun hdead => ⟨hdead.down, hdead.written⟩
  | next h =>
    refine hsender rfl fun hdead => ?_
    have hlink := (Sender.flow_next (a := a) h).2
    exact ⟨hlink ▸ hdead.down, hlink ▸ hdead.written⟩
  | dispatch h hfault => exact hsender rfl fun hdead => hdead.dispatch h
  | write h hfault => exact hsender rfl fun hdead => hdead.write h
  | cut p b hfault => exact hsender rfl fun hdead => hdead.cut b
  | read hp hd h => exact hsender rfl fun hdead => hdead.read h
  | route h => exact hc

theorem Runs.accounted (h : Runs S ok T faults c) : Accounted T c := by
  induction h with
  | refl => exact .start T
  | tail _ hstep ih => exact ih.step hstep

/-- What is under way from one node to another is what was sent, in order and without what was lost.
-/
theorem Runs.flow_sublist (h : Runs S ok T faults c) (q : NodeID) {d : NodeID}
    (hd : d ∈ S.committee.authorities) :
    (c.flow T q d).Sublist (c.wired q d) ∧ (¬ faults → c.flow T q d = c.wired q d) := by
  induction h with
  | refl => exact ⟨List.Sublist.refl _, fun _ => rfl⟩
  | @tail c c' hpath hstep ih =>
    have hname := (Runs.accounted hpath).name
    obtain ⟨new, hwired, hflow | ⟨hnil, hfault, hsub⟩⟩ := hstep.flow_cases hname q hd
    · rw [hwired, hflow]
      exact ⟨ih.1.append_right new, fun hreliable => by rw [ih.2 hreliable]⟩
    · rw [hwired, hnil, List.append_nil]
      exact ⟨hsub.trans ih.1, fun hreliable => absurd hfault hreliable⟩

/-- What was sent to a node is what it has put on its own channel and what was sent to it over the
network. -/
theorem Runs.sum_count_sentTo (h : Runs S ok T faults c) {d : NodeID}
    (hd : d ∈ S.committee.authorities) (m : Message) :
    ∑ q ∈ S.committee.authorities, ((c.nodes q).sentTo d).count m =
      (c.own d).count m + ∑ q ∈ S.committee.authorities, (c.wired q d).count m := by
  have hsent : ∀ q, ((c.nodes q).sentTo d).count m = (c.wired q d).count m +
      if d = q then (c.own q).count m else 0 := by
    intro q
    unfold Hist.sentTo
    rw [h.accounted.name q]
    exact count_sentTo q d (c.nodes q).out m
  simp only [hsent, Finset.sum_add_distrib]
  rw [Finset.sum_ite_eq, if_pos hd, add_comm]

/-- A node gets no message more often than it was sent to it. -/
theorem Runs.count_le (h : Runs S ok T faults c) {d : NodeID} (hd : d ∈ S.committee.authorities)
    (m : Message) : (c.nodes d).handled.count m + (c.recvCh d).count m ≤
      ∑ q ∈ S.committee.authorities, ((c.nodes q).sentTo d).count m := by
  have haccount := h.accounted.count d hd m
  have htaken : ∑ q ∈ S.committee.authorities, (c.taken T q d).count m ≤
      ∑ q ∈ S.committee.authorities, (c.wired q d).count m := by
    refine Finset.sum_le_sum fun q _ => ?_
    have hsub := (c.taken_prefix_flow q d).sublist.trans (h.flow_sublist q hd).1
    exact hsub.count_le m
  rw [h.sum_count_sentTo hd m]
  omega

end Cluster

/-! ## Replaying a run of the cluster -/

/-- One step of a schedule for the cluster. -/
inductive ClusterAct (Addr : Type*) where
  | node (q : NodeID) (env : Env) (i : Input)
  | forward (q : NodeID)
  | next (q : NodeID)
  | dispatch (q : NodeID) (dial : Bool)
  | write (q : NodeID) (a : Addr) (good : Bool)
  | cut (q : NodeID) (a : Addr)
  | read (q d : NodeID)
  | route (q : NodeID)

/-- The steps that are faults. -/
def ClusterAct.faulty : ClusterAct Addr → Bool
  | .dispatch _ dial => !dial
  | .write _ _ good => !good
  | .cut _ _ => true
  | _ => false

/-- A channel after a message was taken from it, or none. -/
def takeCh (ch : List Message) : Option Message → Option (List Message)
  | none => some ch
  | some m => if ch.head? = some m then some ch.tail else none

theorem takeCh_eq {ch rest : List Message} {m : Option Message} (h : takeCh ch m = some rest) :
    ch = m.toList ++ rest := by
  cases m with
  | none =>
    cases h
    rfl
  | some m =>
    obtain ⟨hhead, heq⟩ := Option.ite_none_right_eq_some.mp h
    cases heq
    exact (List.cons_head?_tail hhead).symm

namespace Cluster

variable (S : Setup) (ok : Cond) [∀ x env i, Decidable (ok x env i)] (T : Topology S Addr)
  (o : Enumeration S)

/-- The cluster with another sender at a node. -/
def setSender (c : Cluster Addr) (q : NodeID) (s : Sender Addr Message) : Cluster Addr :=
  { c with sender := Function.update c.sender q s }

/-- One action, with one order for all broadcasts. -/
def act (c : Cluster Addr) : ClusterAct Addr → Option (Cluster Addr)
  | .node q env i =>
    if q ∈ S.committee.authorities ∧ Regular (c.nodes q) env i ∧ ok (c.nodes q) env i then
      match takeCh (c.recvCh q) i.msg?, (c.nodes q).step S env i with
      | some rest, some (y, outs) => some { c with
          nodes := Function.update c.nodes q y
          recvCh := Function.update c.recvCh q (rest ++ outs.filterMap Output.recv?)
          msgCh := Function.update c.msgCh q
            (c.msgCh q ++ T.sends (c.nodes q).core.name (fun _ => o) outs) }
      | _, _ => none
    else none
  | .forward q => match c.msgCh q with
    | nm :: rest => some { c with
        msgCh := Function.update c.msgCh q rest
        sender := Function.update c.sender q ((c.sender q).send nm) }
    | [] => none
  | .next q => (c.sender q).next.map (c.setSender q)
  | .dispatch q dial => ((c.sender q).dispatch dial).map (c.setSender q)
  | .write q a good => ((c.sender q).write a good).map (c.setSender q)
  | .cut q a => some (c.setSender q ((c.sender q).cut a))
  | .read q d =>
    if q ∈ S.committee.authorities ∧ d ∈ S.committee.authorities then
      ((c.sender q).read (T.address d)).map fun ms => { c with
        sender := Function.update c.sender q ms.2
        received := Function.update c.received d (c.received d ++ [ms.1]) }
    else none
  | .route q => match c.received q with
    | m :: rest => some { c with
        received := Function.update c.received q rest
        recvCh := Function.update c.recvCh q (c.recvCh q ++ [m]) }
    | [] => none

/-- A whole schedule. -/
def run (c : Cluster Addr) : List (ClusterAct Addr) → Option (Cluster Addr)
  | [] => some c
  | a :: acts => match c.act S ok T o a with
    | some c' => c'.run acts
    | none => none

variable {S ok T o} {c c' : Cluster Addr}

/-- An action that replays is a step. -/
theorem step_of_act {a : ClusterAct Addr} (h : c.act S ok T o a = some c')
    (hfault : a.faulty = true → faults) : Step S ok T faults c c' := by
  cases a with
  | node q env i =>
    unfold act at h
    dsimp only at h
    split_ifs at h with hcond
    split at h
    case h_1 rest y outs htake hstep =>
      cases h
      exact .node (fun _ => o) hcond.1 (takeCh_eq htake) hcond.2.1 hcond.2.2 hstep
    case h_2 => cases h
  | forward q =>
    unfold act at h
    dsimp only at h
    split at h
    case h_1 nm rest hch =>
      cases h
      exact .forward hch
    case h_2 => cases h
  | next q =>
    obtain ⟨s, hs, rfl⟩ := Option.map_eq_some_iff.mp h
    exact .next hs
  | dispatch q dial =>
    obtain ⟨s, hs, rfl⟩ := Option.map_eq_some_iff.mp h
    exact .dispatch hs fun hdial => hfault (by rw [hdial]; rfl)
  | write q a good =>
    obtain ⟨s, hs, rfl⟩ := Option.map_eq_some_iff.mp h
    exact .write hs fun hgood => hfault (by rw [hgood]; rfl)
  | cut q a =>
    cases h
    exact .cut q a (hfault rfl)
  | read q d =>
    unfold act at h
    dsimp only at h
    split_ifs at h with hcond
    obtain ⟨⟨m, s⟩, hs, rfl⟩ := Option.map_eq_some_iff.mp h
    exact .read hcond.1 hcond.2 hs
  | route q =>
    unfold act at h
    dsimp only at h
    split at h
    case h_1 m rest hch =>
      cases h
      exact .route hch
    case h_2 => cases h

/-- A schedule that replays is a path of the cluster. -/
theorem path_of_run {acts : List (ClusterAct Addr)} (h : c.run S ok T o acts = some c')
    (hfault : ∀ a ∈ acts, a.faulty = true → faults) :
    Relation.ReflTransGen (Step S ok T faults) c c' := by
  induction acts generalizing c with
  | nil =>
    cases h
    exact .refl
  | cons a acts ih =>
    unfold run at h
    split at h
    case h_1 c₁ ha =>
      exact .head (step_of_act ha (hfault a List.mem_cons_self))
        (ih h fun b hb => hfault b (List.mem_cons_of_mem a hb))
    case h_2 => cases h

end Cluster

/-- Four nodes, with their ids for addresses. -/
def demoTopology : Topology (demo 4 1) NodeID := ⟨id, fun _ _ _ h => h⟩

/-- The order of the ids. -/
def demoOrder : Enumeration (demo 4 1) where
  ids := (List.range 4).map Int.ofNat
  nodup := List.nodup_range.map fun _ _ => Int.ofNat.inj
  mem_iff q := by
    constructor
    · intro hq
      obtain ⟨n, hn, rfl⟩ := List.mem_map.mp hq
      exact Finset.mem_map.mpr ⟨n, Finset.mem_range.mpr (List.mem_range.mp hn), rfl⟩
    · intro hq
      obtain ⟨n, hn, rfl⟩ := Finset.mem_map.mp hq
      exact List.mem_map.mpr ⟨n, List.mem_range.mpr (Finset.mem_range.mp hn), rfl⟩

/-- Node zero starts, its proposal gets through to node one and not to node two, and node one takes
it. -/
def firstProposal : List (ClusterAct NodeID) :=
  [.node 0 (fullEnv 0) .start, .node 1 (fullEnv 1) .start, .forward 0, .next 0, .dispatch 0 true,
    .dispatch 0 false, .write 0 1 true, .read 0 1, .route 1,
    .node 1 (fullEnv 1) (.msg (.spbProposal ⟨1, demoBlock 1 0, 0, 0, .one⟩)),
    .node 1 (fullEnv 1) (.msg (.spbProposal ⟨0, demoBlock 0 0, 0, 0, .one⟩))]

/-- Four nodes start, and their proposals get through to everybody and are taken. -/
def allProposals : List (ClusterAct NodeID) :=
  let ids : List NodeID := [0, 1, 2, 3]
  ids.map (fun q => .node q (fullEnv q) .start) ++
    ids.flatMap (fun q => [.forward q, .next q] ++ List.replicate 4 (.dispatch q true) ++
      (ids.erase q).flatMap fun d => [.write q d true, .read q d, .route d]) ++
    ids.flatMap fun d => (d :: ids.erase d).map fun q =>
      .node d (fullEnv d) (.msg (.spbProposal ⟨q, demoBlock q 0, 0, 0, .one⟩))

/-- Node zero votes for the proposal of `p`, and its vote goes on to the connection with `p`. -/
def votesFor (p : NodeID) : List (ClusterAct NodeID) :=
  [.node 0 (fullEnv 0) (.task (.processProposal ⟨p, demoBlock p 0, 0, 0, .one⟩)), .forward 0,
    .next 0, .dispatch 0 true]

/-- Node zero gets its proposal through to node two. It then takes that of node one, and votes for
it. -/
def voteAfterFailure : List (ClusterAct NodeID) :=
  [.dispatch 0 true, .write 0 2 true, .read 0 2, .dispatch 0 true, .dispatch 0 true,
    .node 1 (fullEnv 1) .start, .forward 1, .next 1, .dispatch 1 true, .write 1 0 true, .read 1 0,
    .route 0, .node 0 (fullEnv 0) (.msg (.spbProposal ⟨0, demoBlock 0 0, 0, 0, .one⟩)),
    .node 0 (fullEnv 0) (.msg (.spbProposal ⟨1, demoBlock 1 0, 0, 0, .one⟩))] ++ votesFor 1

/-- What holds at the end of a schedule of the cluster. -/
theorem exists_cluster (faults : Prop) (acts : List (ClusterAct NodeID))
    (P : Cluster NodeID → Bool) (hfault : ∀ a ∈ acts, a.faulty = true → faults)
    (h : (((Cluster.start NodeID).run (demo 4 1) Always demoTopology demoOrder acts).any P) =
      true) : ∃ c, Cluster.Runs (demo 4 1) Always demoTopology faults c ∧ P c = true := by
  cases hrun : (Cluster.start NodeID).run (demo 4 1) Always demoTopology demoOrder acts with
  | none => simp [hrun] at h
  | some c =>
    rw [hrun] at h
    exact ⟨c, Cluster.path_of_run hrun hfault, h⟩

/-! ## The properties of the transport -/

/-- The nodes over the transport run as the nodes of the network do: whatever is lost, delayed or
reordered on the way, their histories are those of a run of the network. -/
theorem transport_refines {T : Topology S Addr} {c : Cluster Addr}
    (h : Cluster.Runs S ok T faults c) : ∃ s, Run S ok s ∧ s.nodes = c.nodes := by
  refine Protocol.Reachable.of_layer (P := consensus S ok) (R := Cluster.Step S ok T faults)
    rfl ?_ h
  intro c c' hpath hstep
  cases hstep with
  | @node q env i y outs rest o hq htake hreg hok hy =>
    refine .inr ⟨q, hq, i.msg?, y, _, ⟨env, i, outs, rfl, hreg, hok, hy, rfl⟩, rfl, ?_⟩
    intro m hm
    -- The message is in the channel of the node, and was not taken from it yet.
    have hle := Cluster.Runs.count_le hpath hq m
    have hpos : 0 < (c.recvCh q).count m := by
      rw [htake, List.count_pos_iff]
      exact List.mem_append_left _ (Option.mem_toList.mpr hm)
    change (c.nodes q).handled.count m < ∑ a ∈ S.committee.authorities,
      ((c.nodes a).sentTo q).count m
    omega
  | _ => exact .inl rfl

/-- A run in which a dial fails: the node that is reached takes the proposal. -/
theorem transport_refines_first : ∃ (c : Cluster NodeID) (s : Net),
    Cluster.Runs (demo 4 1) Always demoTopology True c ∧ Run (demo 4 1) Always s ∧
    s.nodes = c.nodes ∧ .spbProposal ⟨0, demoBlock 0 0, 0, 0, .one⟩ ∈ (s.nodes 1).handled := by
  obtain ⟨c, hc, hP⟩ := exists_cluster True firstProposal
    (fun c => decide (.spbProposal ⟨0, demoBlock 0 0, 0, 0, .one⟩ ∈ (c.nodes 1).handled))
    (fun _ _ _ => trivial) (by decide +kernel)
  obtain ⟨s, hs, hnodes⟩ := transport_refines hc
  exact ⟨c, s, hc, hs, hnodes, hnodes ▸ of_decide_eq_true hP⟩

/-- A node reads from another one in the order in which the other one has sent, and without faults
it reads all that was sent first. -/
theorem link_fifo {T : Topology S Addr} {c : Cluster Addr} (h : Cluster.Runs S ok T faults c)
    (q : NodeID) {d : NodeID} (hd : d ∈ S.committee.authorities) :
    (c.taken T q d).Sublist (c.wired q d) ∧ (¬ faults → c.taken T q d <+: c.wired q d) := by
  obtain ⟨hsub, hreliable⟩ := h.flow_sublist q hd
  refine ⟨(c.taken_prefix_flow q d).sublist.trans hsub, fun hnot => ?_⟩
  rw [← hreliable hnot]
  exact c.taken_prefix_flow q d

/-- Node one has read what node zero has sent to it: its proposal, and then its vote for the
proposal of node one. -/
theorem link_fifo_vote : ∃ c : Cluster NodeID,
    Cluster.Runs (demo 4 1) Always demoTopology False c ∧
    c.taken demoTopology 0 1 = [.spbProposal ⟨0, demoBlock 0 0, 0, 0, .one⟩,
      .spbVote ⟨0, 1, demoHash 1, 0, 0, .one⟩] ∧
    c.taken demoTopology 0 1 <+: c.wired 0 1 := by
  obtain ⟨c, hc, hP⟩ := exists_cluster False
    (allProposals ++ votesFor 1 ++ [.dispatch 0 true, .write 0 1 true, .read 0 1])
    (fun c => decide (c.taken demoTopology 0 1 = [.spbProposal ⟨0, demoBlock 0 0, 0, 0, .one⟩,
      .spbVote ⟨0, 1, demoHash 1, 0, 0, .one⟩])) (by decide) (by decide +kernel)
  have hone : (1 : NodeID) ∈ (demo 4 1).committee.authorities := by decide
  exact ⟨c, hc, of_decide_eq_true hP, (link_fifo hc 0 hone).2 id⟩

/-- No message waits anywhere between the nodes. -/
def Cluster.Idle (T : Topology S Addr) (c : Cluster Addr) : Prop :=
  ∀ q ∈ S.committee.authorities, c.msgCh q = [] ∧ (c.sender q).msgCh = [] ∧
    (c.sender q).current = none ∧ c.received q = [] ∧ c.recvCh q = [] ∧
    ∀ d ∈ S.committee.authorities, ((c.sender q).link (T.address d)).wire = [] ∧
      ((c.sender q).link (T.address d)).queue = []

/-- Without faults, and when no message waits any more, every node has taken each message as often
as it was sent to it. -/
theorem delivered_when_idle {T : Topology S Addr} {c : Cluster Addr}
    (h : Cluster.Runs S ok T False c) (hidle : c.Idle T) {d : NodeID}
    (hd : d ∈ S.committee.authorities) (m : Message) :
    (c.nodes d).handled.count m =
      ∑ q ∈ S.committee.authorities, ((c.nodes q).sentTo d).count m := by
  have haccount := h.accounted.count d hd m
  have htaken : ∀ q ∈ S.committee.authorities, c.taken T q d = c.wired q d := by
    intro q hq
    obtain ⟨hch, hsender, hcurrent, -, -, hlinks⟩ := hidle q hq
    rw [← (h.flow_sublist q hd).2 id]
    unfold Cluster.taken Cluster.flow Sender.flow Conn.all
    rw [hch, hsender, hcurrent, (hlinks d hd).1, (hlinks d hd).2]
    simp
  obtain ⟨-, -, -, hreceived, hrecv, -⟩ := hidle d hd
  have hsum := Finset.sum_congr rfl fun q hq => congrArg (List.count m) (htaken q hq)
  rw [hreceived, hrecv, List.count_nil, hsum] at haccount
  rw [h.sum_count_sentTo hd m]
  omega

/-- The channels are empty once all proposals are taken. -/
theorem delivered_when_idle_all : ∃ c : Cluster NodeID,
    Cluster.Runs (demo 4 1) Always demoTopology False c ∧ c.Idle demoTopology ∧
    (c.nodes 1).handled.length = 4 ∧ ∀ m, (c.nodes 1).handled.count m =
      ∑ q ∈ (demo 4 1).committee.authorities, ((c.nodes q).sentTo 1).count m := by
  obtain ⟨c, hc, hP⟩ := exists_cluster False allProposals
    (fun c => decide ((∀ q ∈ (demo 4 1).committee.authorities, c.msgCh q = [] ∧
      (c.sender q).msgCh = [] ∧ (c.sender q).current = none ∧ c.received q = [] ∧
      c.recvCh q = [] ∧ ∀ d ∈ (demo 4 1).committee.authorities,
        ((c.sender q).link (demoTopology.address d)).wire = [] ∧
          ((c.sender q).link (demoTopology.address d)).queue = []) ∧
      (c.nodes 1).handled.length = 4)) (by decide) (by decide +kernel)
  obtain ⟨hidle, hlength⟩ := of_decide_eq_true hP
  have hone : (1 : NodeID) ∈ (demo 4 1).committee.authorities := by decide
  exact ⟨c, hc, hidle, hlength, delivered_when_idle hc hidle hone⟩

/-- A connection to which a write has failed is never used again: whatever happens from then on, the
other end reads no more than what was written before. -/
theorem failed_link_silent {T : Topology S Addr} {c c' : Cluster Addr}
    (h : Relation.ReflTransGen (Cluster.Step S ok T faults) c c') {q d : NodeID}
    (hdown : ((c.sender q).link (T.address d)).up = false) :
    c'.taken T q d <+: c.taken T q d ++ ((c.sender q).link (T.address d)).wire := by
  have hdead : (c'.sender q).Dead (T.address d)
      (c.taken T q d ++ ((c.sender q).link (T.address d)).wire) := by
    induction h with
    | refl => exact ⟨hdown, List.prefix_rfl⟩
    | tail _ hstep ih => exact hstep.dead ih
  exact (List.prefix_append _ _).trans hdead.written

/-- Node zero fails to write its proposal to node one, and goes on to node two, which reads it. Its
vote for the proposal of node one then waits at the failed connection. -/
theorem failed_link_silent_vote : ∃ c c' : Cluster NodeID,
    Relation.ReflTransGen (Cluster.Step (demo 4 1) Always demoTopology True) c c' ∧
    ((c.sender 0).link (demoTopology.address 1)).up = false ∧
    c'.taken demoTopology 0 2 = [.spbProposal ⟨0, demoBlock 0 0, 0, 0, .one⟩] ∧
    c'.wired 0 1 = [.spbProposal ⟨0, demoBlock 0 0, 0, 0, .one⟩,
      .spbVote ⟨0, 1, demoHash 1, 0, 0, .one⟩] ∧
    ((c'.sender 0).link (demoTopology.address 1)).queue =
      [.spbVote ⟨0, 1, demoHash 1, 0, 0, .one⟩] ∧ c'.taken demoTopology 0 1 = [] := by
  obtain ⟨c, -, hP⟩ := exists_cluster True
    [.node 0 (fullEnv 0) .start, .forward 0, .next 0, .dispatch 0 true, .write 0 1 false]
    (fun c => decide (((c.sender 0).link (demoTopology.address 1)).up = false ∧
      c.taken demoTopology 0 1 ++ ((c.sender 0).link (demoTopology.address 1)).wire = []) &&
      (c.run (demo 4 1) Always demoTopology demoOrder voteAfterFailure).any
        fun c' : Cluster NodeID => decide (
          c'.taken demoTopology 0 2 = [.spbProposal ⟨0, demoBlock 0 0, 0, 0, .one⟩] ∧
          c'.wired 0 1 = [.spbProposal ⟨0, demoBlock 0 0, 0, 0, .one⟩,
            .spbVote ⟨0, 1, demoHash 1, 0, 0, .one⟩] ∧
          ((c'.sender 0).link (demoTopology.address 1)).queue =
            [.spbVote ⟨0, 1, demoHash 1, 0, 0, .one⟩]))
    (fun _ _ _ => trivial) (by decide +kernel)
  rw [Bool.and_eq_true] at hP
  obtain ⟨hdown, hnil⟩ := of_decide_eq_true hP.1
  cases hrun : c.run (demo 4 1) Always demoTopology demoOrder voteAfterFailure with
  | none => simp [hrun] at hP
  | some c' =>
    rw [hrun] at hP
    obtain ⟨htwo, hwired, hqueue⟩ := of_decide_eq_true hP.2
    have hpath := Cluster.path_of_run hrun fun _ _ _ => trivial
    have hprefix := failed_link_silent hpath hdown
    rw [hnil] at hprefix
    exact ⟨c, c', hpath, hdown, htwo, hwired, hqueue, List.prefix_nil.mp hprefix⟩

end SMVBA
