import Tlpiexer.Constants
import Tlpiexer.Foundations.CString
import Tlpiexer.Foundations.Progress

/-!
# A server that forks on every wake-up

`src/imp/63-02-server.c`. One process watches a datagram socket and a listening socket with `epoll`.
For each event it forks: on the datagram socket a child that receives one datagram and sends it
back, on the listening socket a child that reads once from the new connection and writes that back.

The children of a kind are alike, so only their number or what they hold is kept. Messages are
taken by the children and not by the parent. A label gives the order in which things happen and the
outcome of `fork`, `accept`, `recvfrom`, `read`, and of the calls that send. That `epoll_wait`
fails, which ends the parent, is left out.

## Surplus children

`epoll` is level-triggered: until a child has received the datagram, every `epoll_wait` reports it
again and the parent forks again. The children that come too late stay in `recvfrom`.

## Full buffers

Both handlers store a NUL behind what they got, also when it fills the buffer. Such a child leaves
its buffer, and the model says nothing else about it.

## Main results

* `echoed_at_rest` — what has become of every datagram, connection and child
* `surplus_children` — one datagram can leave any number of children behind
-/

namespace Tlpiexer

namespace EchoMux

open CString Transition

/-! ### The server -/

/-- The two sockets. -/
inductive Proto
  | udp
  | tcp
  deriving DecidableEq

/-- What a child got, and from whom; on the listening socket a peer is a connection. -/
structure Msg where
  proto : Proto
  peer : ℕ
  data : Bytes
  deriving DecidableEq

/-- Where the parent is. -/
inductive Main
  /-- At `epoll_wait`. -/
  | wait
  /-- In front of an event. -/
  | events (evts : List Proto)
  /-- In `tcp_handle`, with events to follow. -/
  | accepted (peer : ℕ) (evts : List Proto)
  deriving DecidableEq

/-- The parent goes to the next event, or back to `epoll_wait`. -/
def Main.after : List Proto → Main
  | [] => .wait
  | e :: evts => .events (e :: evts)

/-- The server, its sockets and its children. -/
structure State where
  main : Main
  udpQueue : List Msg
  acceptQueue : List ℕ
  /-- How many children are in `recvfrom`. -/
  waiting : ℕ
  /-- How many children left because `recvfrom` failed. -/
  dead : ℕ
  /-- The connections of the children that are in `read`. -/
  reading : List ℕ
  /-- The connections of the children that left because `read` failed. -/
  dropped : List ℕ
  /-- The connections for which `fork` failed; they stay open. -/
  leaked : List ℕ
  /-- What the children hold that are at their `printf`. -/
  holding : List Msg
  /-- What the children hold that are at `sendto` or `write`. -/
  printed : List Msg
  replies : List Msg
  /-- What could not be sent back. -/
  lost : List Msg
  /-- What made a child leave its buffer. -/
  overran : List Msg
  /-- What the children printed. -/
  log : List (Proto × Bytes)
  /-- The datagrams that came, the connections, and the children forked for datagrams; no step
  depends on them. -/
  arrived : List Msg
  connected : List ℕ
  udpForks : ℕ

/-- What happens next. -/
inductive Label
  | datagram (peer : ℕ) (data : Bytes)
  | connect (peer : ℕ)
  /-- `epoll_wait` reports some of the sockets that are ready. -/
  | wake (evts : List Proto)
  | accept (ok : Bool)
  | fork (ok : Bool)
  | recv
  | recvFails
  | read (peer : ℕ) (data : Bytes)
  | readFails (peer : ℕ)
  | print (m : Msg)
  | reply (m : Msg) (ok : Bool)

/-- The steps of the server that need nothing from outside and do not fail by themselves. -/
def Label.internal : Label → Bool
  | .wake _ | .accept _ | .fork _ | .recv | .print _ | .reply _ _ => true
  | _ => false

/-- A socket that `epoll_wait` reports. -/
def State.Ready (s : State) : Proto → Prop
  | .udp => s.udpQueue ≠ []
  | .tcp => s.acceptQueue ≠ []

instance (s : State) : DecidablePred s.Ready
  | .udp => inferInstanceAs (Decidable (s.udpQueue ≠ []))
  | .tcp => inferInstanceAs (Decidable (s.acceptQueue ≠ []))

/-- There is room in `buf` for a NUL behind what is received. -/
def Msg.Fits (m : Msg) : Prop := (m.data.take bufSize).length < bufSize

instance (m : Msg) : Decidable m.Fits := inferInstanceAs (Decidable (_ < _))

/-- A child gets a message and stores a NUL behind it. -/
def State.take (s : State) (m : Msg) : State :=
  { s with
    holding := if m.Fits then m :: s.holding else s.holding
    overran := if m.Fits then s.overran else m :: s.overran }

/-- One step. -/
def State.step (s : State) : Label → Option State
  | .datagram peer data => some { s with
      udpQueue := s.udpQueue ++ [⟨.udp, peer, data⟩]
      arrived := s.arrived ++ [⟨.udp, peer, data⟩] }
  | .connect peer => some { s with
      acceptQueue := s.acceptQueue ++ [peer]
      connected := s.connected ++ [peer] }
  | .wake evts =>
    if s.main = .wait ∧ evts ≠ [] ∧ evts.Nodup ∧ ∀ e ∈ evts, s.Ready e then
      some { s with main := .events evts }
    else none
  | .accept ok =>
    match s.main, s.acceptQueue with
    | .events (.tcp :: evts), peer :: queue =>
      if ok then some { s with main := .accepted peer evts, acceptQueue := queue }
      else some { s with main := .after evts }
    | _, _ => none
  | .fork ok =>
    match s.main with
    | .events (.udp :: evts) =>
      if ok then some { s with
        main := .after evts
        waiting := s.waiting + 1
        udpForks := s.udpForks + 1 }
      else some { s with main := .after evts }
    | .accepted peer evts =>
      if ok then some { s with main := .after evts, reading := peer :: s.reading }
      else some { s with main := .after evts, leaked := peer :: s.leaked }
    | _ => none
  | .recv =>
    match s.udpQueue with
    | m :: queue =>
      if 0 < s.waiting then
        some (State.take { s with udpQueue := queue, waiting := s.waiting - 1 } m)
      else none
    | [] => none
  | .recvFails =>
    if 0 < s.waiting then some { s with waiting := s.waiting - 1, dead := s.dead + 1 } else none
  | .read peer data =>
    if peer ∈ s.reading ∧ data.length ≤ bufSize then
      some (State.take { s with reading := s.reading.erase peer } ⟨.tcp, peer, data⟩)
    else none
  | .readFails peer =>
    if peer ∈ s.reading then some { s with
      reading := s.reading.erase peer
      dropped := peer :: s.dropped }
    else none
  | .print m =>
    if m ∈ s.holding then some { s with
      holding := s.holding.erase m
      printed := m :: s.printed
      log := s.log ++ [(m.proto, cstr m.data)] }
    else none
  | .reply m ok =>
    if m ∈ s.printed then
      if ok then some { s with printed := s.printed.erase m, replies := m :: s.replies }
      else some { s with printed := s.printed.erase m, lost := m :: s.lost }
    else none

/-- The server in front of its loop. -/
def start : State where
  main := .wait
  udpQueue := []
  acceptQueue := []
  waiting := 0
  dead := 0
  reading := []
  dropped := []
  leaked := []
  holding := []
  printed := []
  replies := []
  lost := []
  overran := []
  log := []
  arrived := []
  connected := []
  udpForks := 0

/-- The server and whatever its peers do. -/
def machine : Machine State Label where
  init s := s = start
  step := State.step

/-- Nothing happens any more unless something comes from outside. -/
def State.Rest (s : State) : Prop := ∀ a : Label, a.internal = true → s.step a = none

/-! ### Steps -/

section Steps

variable {s s' : State} {a : Label}

/-- What a step does. -/
inductive Move (s : State) : State → Prop
  | datagram (peer : ℕ) (data : Bytes) :
      Move s { s with
        udpQueue := s.udpQueue ++ [⟨.udp, peer, data⟩]
        arrived := s.arrived ++ [⟨.udp, peer, data⟩] }
  | connect (peer : ℕ) :
      Move s { s with
        acceptQueue := s.acceptQueue ++ [peer]
        connected := s.connected ++ [peer] }
  | wake {evts : List Proto} (hmain : s.main = .wait) (hne : evts ≠ []) (hnodup : evts.Nodup)
      (hready : ∀ e ∈ evts, s.Ready e) : Move s { s with main := .events evts }
  | accept {evts : List Proto} {peer : ℕ} {queue : List ℕ}
      (hmain : s.main = .events (.tcp :: evts)) (hqueue : s.acceptQueue = peer :: queue) :
      Move s { s with main := .accepted peer evts, acceptQueue := queue }
  | acceptFails {evts : List Proto} (hmain : s.main = .events (.tcp :: evts)) :
      Move s { s with main := .after evts }
  | forkUdp {evts : List Proto} (hmain : s.main = .events (.udp :: evts)) :
      Move s { s with
        main := .after evts
        waiting := s.waiting + 1
        udpForks := s.udpForks + 1 }
  | forkUdpFails {evts : List Proto} (hmain : s.main = .events (.udp :: evts)) :
      Move s { s with main := .after evts }
  | forkTcp {evts : List Proto} {peer : ℕ} (hmain : s.main = .accepted peer evts) :
      Move s { s with main := .after evts, reading := peer :: s.reading }
  | forkTcpFails {evts : List Proto} {peer : ℕ} (hmain : s.main = .accepted peer evts) :
      Move s { s with main := .after evts, leaked := peer :: s.leaked }
  | recv {m : Msg} {queue : List Msg} (hqueue : s.udpQueue = m :: queue) (hwait : 0 < s.waiting) :
      Move s (State.take { s with udpQueue := queue, waiting := s.waiting - 1 } m)
  | recvFails (hwait : 0 < s.waiting) :
      Move s { s with waiting := s.waiting - 1, dead := s.dead + 1 }
  | read {peer : ℕ} {data : Bytes} (hpeer : peer ∈ s.reading) :
      Move s (State.take { s with reading := s.reading.erase peer } ⟨.tcp, peer, data⟩)
  | readFails {peer : ℕ} (hpeer : peer ∈ s.reading) :
      Move s { s with reading := s.reading.erase peer, dropped := peer :: s.dropped }
  | print {m : Msg} (hm : m ∈ s.holding) :
      Move s { s with
        holding := s.holding.erase m
        printed := m :: s.printed
        log := s.log ++ [(m.proto, cstr m.data)] }
  | reply {m : Msg} (hm : m ∈ s.printed) :
      Move s { s with printed := s.printed.erase m, replies := m :: s.replies }
  | replyFails {m : Msg} (hm : m ∈ s.printed) :
      Move s { s with printed := s.printed.erase m, lost := m :: s.lost }

theorem move_of_step (h : s.step a = some s') : Move s s' := by
  cases a with
  | datagram peer data => cases h; exact .datagram peer data
  | connect peer => cases h; exact .connect peer
  | wake evts =>
    obtain ⟨⟨hmain, hne, hnodup, hready⟩, ⟨⟩⟩ := Option.ite_none_right_eq_some.mp h
    exact .wake hmain hne hnodup hready
  | accept ok =>
    simp only [State.step] at h
    split at h
    case h_2 => cases h
    case h_1 evts peer queue hmain hqueue =>
      cases ok <;> cases h
      · exact .acceptFails hmain
      · exact .accept hmain hqueue
  | fork ok =>
    simp only [State.step] at h
    split at h
    case h_3 => cases h
    case h_1 evts hmain =>
      cases ok <;> cases h
      · exact .forkUdpFails hmain
      · exact .forkUdp hmain
    case h_2 peer evts hmain =>
      cases ok <;> cases h
      · exact .forkTcpFails hmain
      · exact .forkTcp hmain
  | recv =>
    simp only [State.step] at h
    split at h
    case h_2 => cases h
    case h_1 m queue hqueue =>
      obtain ⟨hwait, ⟨⟩⟩ := Option.ite_none_right_eq_some.mp h
      exact .recv hqueue hwait
  | recvFails =>
    obtain ⟨hwait, ⟨⟩⟩ := Option.ite_none_right_eq_some.mp h
    exact .recvFails hwait
  | read peer data =>
    obtain ⟨⟨hpeer, -⟩, ⟨⟩⟩ := Option.ite_none_right_eq_some.mp h
    exact .read hpeer
  | readFails peer =>
    obtain ⟨hpeer, ⟨⟩⟩ := Option.ite_none_right_eq_some.mp h
    exact .readFails hpeer
  | print m =>
    obtain ⟨hm, ⟨⟩⟩ := Option.ite_none_right_eq_some.mp h
    exact .print hm
  | reply m ok =>
    obtain ⟨hm, h⟩ := Option.ite_none_right_eq_some.mp h
    cases ok <;> cases h
    · exact .replyFails hm
    · exact .reply hm

end Steps

/-! ### What the children hold -/

section Taken

variable {s : State} {m : Msg} {l l' : List Msg}

/-- The messages that have been taken by a child. -/
def State.taken (s : State) : List Msg :=
  s.holding ++ (s.printed ++ (s.replies ++ (s.lost ++ s.overran)))

/-- The datagrams of a list. -/
def udpOf (l : List Msg) : List Msg := l.filter fun m => m.proto = .udp

/-- The connections of a list. -/
def tcpOf (l : List Msg) : List ℕ := (l.filter fun m => m.proto = .tcp).map Msg.peer

theorem udpOf_perm (h : l.Perm l') : (udpOf l).Perm (udpOf l') := h.filter _

theorem tcpOf_perm (h : l.Perm l') : (tcpOf l).Perm (tcpOf l') := (h.filter _).map _

/-- A message that a child gets is held by it. -/
theorem taken_take (s : State) (m : Msg) : (s.take m).taken.Perm (m :: s.taken) := by
  by_cases hm : m.Fits
  · simp [State.take, State.taken, hm]
  · simp only [State.take, State.taken, hm, if_false, ← List.append_assoc]
    exact List.perm_middle

theorem taken_take_udp (hm : m.proto = .udp) (s : State) :
    (udpOf (s.take m).taken).Perm (m :: udpOf s.taken) ∧
      (tcpOf (s.take m).taken).Perm (tcpOf s.taken) := by
  have hudp := udpOf_perm (taken_take s m)
  have htcp := tcpOf_perm (taken_take s m)
  rw [udpOf, udpOf, List.filter_cons_of_pos (by simpa using hm)] at hudp
  rw [tcpOf, tcpOf, List.filter_cons_of_neg (by simp [hm])] at htcp
  exact ⟨hudp, htcp⟩

theorem taken_take_tcp (peer : ℕ) (data : Bytes) (s : State) :
    (udpOf (s.take ⟨.tcp, peer, data⟩).taken).Perm (udpOf s.taken) ∧
      (tcpOf (s.take ⟨.tcp, peer, data⟩).taken).Perm (peer :: tcpOf s.taken) := by
  have hudp := udpOf_perm (taken_take s ⟨.tcp, peer, data⟩)
  have htcp := tcpOf_perm (taken_take s ⟨.tcp, peer, data⟩)
  exact ⟨hudp, htcp⟩

/-- One child moves on, and holds what it held. -/
theorem taken_print (hm : m ∈ s.holding) :
    (s.holding.erase m ++ (m :: s.printed ++ (s.replies ++ (s.lost ++ s.overran)))).Perm
      s.taken :=
  List.perm_middle.trans ((List.perm_cons_erase hm).symm.append_right _)

theorem taken_reply (hm : m ∈ s.printed) :
    (s.holding ++ (s.printed.erase m ++ (m :: s.replies ++ (s.lost ++ s.overran)))).Perm
      s.taken :=
  (List.perm_middle.trans ((List.perm_cons_erase hm).symm.append_right _)).append_left _

theorem taken_replyFails (hm : m ∈ s.printed) :
    (s.holding ++ (s.printed.erase m ++ (s.replies ++ (m :: s.lost ++ s.overran)))).Perm
      s.taken := by
  refine List.Perm.append_left _ (List.Perm.trans ?_
    ((List.perm_cons_erase hm).symm.append_right _))
  exact (List.perm_middle.append_left _).trans List.perm_middle

end Taken

/-! ### Datagrams -/

section Datagrams

variable {s s' : State}

/-- One more at the end of a queue. -/
theorem concat_perm {α : Type*} {l q r : List α} (h : l.Perm (q ++ r)) (x : α) :
    (l ++ [x]).Perm (q ++ [x] ++ r) := by
  refine (h.append_right _).trans ?_
  rw [List.append_assoc, List.append_assoc]
  exact List.perm_append_comm.append_left _

/-- Every datagram is in the socket or has been taken by a child, and these children and the
waiting ones are all that were forked. -/
structure UdpInv (s : State) : Prop where
  queue : ∀ m ∈ s.udpQueue, m.proto = .udp
  account : s.arrived.Perm (s.udpQueue ++ udpOf s.taken)
  workers : s.waiting + s.dead + (udpOf s.taken).length = s.udpForks

theorem UdpInv.of_taken (h : UdpInv s) {s' : State} (htaken : s'.taken.Perm s.taken)
    (hqueue : s'.udpQueue = s.udpQueue) (harrived : s'.arrived = s.arrived)
    (hwork : s'.waiting + s'.dead = s.waiting + s.dead) (hforks : s'.udpForks = s.udpForks) :
    UdpInv s' := by
  have hudp := udpOf_perm htaken
  refine ⟨hqueue ▸ h.queue, ?_, ?_⟩
  · rw [harrived, hqueue]
    exact h.account.trans (hudp.symm.append_left _)
  · rw [hudp.length_eq, hwork, hforks]
    exact h.workers

theorem UdpInv.of_move (h : UdpInv s) (hmove : Move s s') : UdpInv s' := by
  cases hmove with
  | datagram peer data =>
    refine ⟨?_, ?_, h.workers⟩
    · simp only [List.mem_append, List.mem_singleton]
      rintro m (hm | rfl)
      · exact h.queue m hm
      · rfl
    · exact concat_perm h.account _
  | forkUdp =>
    refine ⟨h.queue, h.account, ?_⟩
    have hworkers := h.workers
    simp only [State.taken] at hworkers ⊢
    omega
  | @recv m queue hqueue hwait =>
    have hproto : m.proto = .udp := h.queue m (by simp [hqueue])
    have hudp : (udpOf (State.take { s with udpQueue := queue, waiting := s.waiting - 1 }
        m).taken).Perm (m :: udpOf s.taken) := (taken_take_udp hproto _).1
    refine ⟨fun m' hm' => h.queue m' (by rw [hqueue]; exact List.mem_cons_of_mem m hm'), ?_, ?_⟩
    · have haccount := h.account
      rw [hqueue] at haccount
      exact haccount.trans (List.perm_middle.symm.trans (hudp.symm.append_left _))
    · have hworkers := h.workers
      rw [hudp.length_eq, List.length_cons]
      simp only [State.take]
      omega
  | recvFails hwait =>
    exact h.of_taken (.refl _) rfl rfl (by simp only; omega) rfl
  | @read peer data hpeer =>
    have hudp := (taken_take_tcp peer data { s with reading := s.reading.erase peer }).1
    refine ⟨h.queue, h.account.trans (hudp.symm.append_left _), ?_⟩
    rw [hudp.length_eq]
    exact h.workers
  | print hm => exact h.of_taken (taken_print hm) rfl rfl rfl rfl
  | reply hm => exact h.of_taken (taken_reply hm) rfl rfl rfl rfl
  | replyFails hm => exact h.of_taken (taken_replyFails hm) rfl rfl rfl rfl
  | _ => exact ⟨h.queue, h.account, h.workers⟩

end Datagrams

/-! ### Connections -/

section Connections

variable {s s' : State}

/-- The connection in the hands of the parent. -/
def Main.inHand : Main → List ℕ
  | .accepted peer _ => [peer]
  | _ => []

theorem Main.inHand_after (evts : List Proto) : (Main.after evts).inHand = [] := by
  cases evts <;> rfl

/-- The events the parent still has in front of it. -/
def Main.evts : Main → List Proto
  | .wait => []
  | .events evts => evts
  | .accepted _ evts => evts

theorem Main.evts_after (evts : List Proto) : (Main.after evts).evts = evts := by
  cases evts <;> rfl

/-- Where the connections are that have not been served. -/
def State.unserved (s : State) : List ℕ := s.main.inHand ++ (s.reading ++ (s.dropped ++ s.leaked))

/-- Every connection is waiting, in the hands of the parent or of a child, or has been served, and
`accept` is called for connections that are there. -/
structure TcpInv (s : State) : Prop where
  account : s.connected.Perm (s.acceptQueue ++ (s.unserved ++ tcpOf s.taken))
  nodup : s.main.evts.Nodup
  ready : .tcp ∈ s.main.evts → s.acceptQueue ≠ []
  once : s.main.inHand ≠ [] → .tcp ∉ s.main.evts
  busy : s.main ≠ .events []

/-- The connections move, and the parent does not. -/
theorem TcpInv.of_perm (h : TcpInv s) (hmain : s'.main = s.main)
    (hqueue : s'.acceptQueue = s.acceptQueue) (hconnected : s'.connected = s.connected)
    (hperm : (s'.unserved ++ tcpOf s'.taken).Perm (s.unserved ++ tcpOf s.taken)) : TcpInv s' := by
  refine ⟨?_, hmain ▸ h.nodup, hmain ▸ hqueue ▸ h.ready, hmain ▸ h.once, hmain ▸ h.busy⟩
  rw [hconnected, hqueue]
  exact h.account.trans (hperm.symm.append_left _)

/-- The parent goes to the next event. -/
theorem TcpInv.after (h : TcpInv s) {evts : List Proto} {reading leaked : List ℕ}
    {waiting udpForks : ℕ} (hsub : evts.Sublist s.main.evts)
    (hconn : (reading ++ (s.dropped ++ leaked)).Perm s.unserved) :
    TcpInv { s with
      main := .after evts
      reading := reading
      leaked := leaked
      waiting := waiting
      udpForks := udpForks } := by
  refine ⟨?_, ?_, fun hmem => ?_, ?_, by cases evts <;> simp [Main.after]⟩
  · refine h.account.trans (List.Perm.append_left _ (List.Perm.append_right _ ?_))
    simpa [State.unserved, Main.inHand_after] using hconn.symm
  · rw [Main.evts_after]
    exact h.nodup.sublist hsub
  · rw [Main.evts_after] at hmem
    exact h.ready (hsub.subset hmem)
  · simp [Main.inHand_after]

theorem TcpInv.of_move (h : TcpInv s) (hudp : UdpInv s) (hmove : Move s s') : TcpInv s' := by
  cases hmove with
  | datagram => exact ⟨h.account, h.nodup, h.ready, h.once, h.busy⟩
  | connect peer =>
    exact ⟨concat_perm h.account peer, h.nodup, fun _ => by simp, h.once, h.busy⟩
  | @wake evts hmain hne hnodup hready =>
    have haccount := h.account
    simp only [State.unserved, hmain] at haccount
    exact ⟨haccount, hnodup, fun hmem => hready _ hmem, by simp [Main.inHand], by simpa using hne⟩
  | @accept evts peer queue hmain hqueue =>
    have haccount := h.account
    have hnodup := h.nodup
    simp only [State.unserved, hmain, hqueue, Main.inHand] at haccount
    simp only [hmain, Main.evts, List.nodup_cons] at hnodup
    refine ⟨?_, hnodup.2, fun hmem => absurd hmem hnodup.1, fun _ => hnodup.1, by simp⟩
    exact haccount.trans List.perm_middle.symm
  | acceptFails hmain =>
    exact h.after (by simp [hmain, Main.evts]) (by simp [State.unserved, hmain, Main.inHand])
  | forkUdp hmain =>
    exact h.after (by simp [hmain, Main.evts]) (by simp [State.unserved, hmain, Main.inHand])
  | forkUdpFails hmain =>
    exact h.after (by simp [hmain, Main.evts]) (by simp [State.unserved, hmain, Main.inHand])
  | forkTcp hmain =>
    exact h.after (by simp [hmain, Main.evts]) (by simp [State.unserved, hmain, Main.inHand])
  | @forkTcpFails evts peer hmain =>
    refine h.after (by simp [hmain, Main.evts]) ?_
    simp only [State.unserved, hmain, Main.inHand, List.singleton_append]
    exact (List.perm_middle.append_left _).trans List.perm_middle
  | @recv m queue hqueue hwait =>
    have hproto : m.proto = .udp := hudp.queue m (by simp [hqueue])
    exact h.of_perm rfl rfl rfl ((taken_take_udp hproto _).2.append_left _)
  | recvFails => exact ⟨h.account, h.nodup, h.ready, h.once, h.busy⟩
  | @read peer data hpeer =>
    refine h.of_perm rfl rfl rfl (((taken_take_tcp peer data _).2.append_left _).trans ?_)
    have hreading : (peer :: (s.main.inHand ++ (s.reading.erase peer ++
        (s.dropped ++ s.leaked)))).Perm s.unserved :=
      List.perm_middle.symm.trans
        (((List.perm_cons_erase hpeer).symm.append_right _).append_left _)
    exact List.perm_middle.trans (hreading.append_right _)
  | @readFails peer hpeer =>
    refine h.of_perm rfl rfl rfl (List.Perm.append_right _ (List.Perm.append_left _ ?_))
    exact List.perm_middle.trans ((List.perm_cons_erase hpeer).symm.append_right _)
  | print hm => exact h.of_perm rfl rfl rfl ((tcpOf_perm (taken_print hm)).append_left _)
  | reply hm => exact h.of_perm rfl rfl rfl ((tcpOf_perm (taken_reply hm)).append_left _)
  | replyFails hm => exact h.of_perm rfl rfl rfl ((tcpOf_perm (taken_replyFails hm)).append_left _)

end Connections

/-! ### Buffers and lines -/

section Data

variable {s s' : State} {m : Msg}

theorem fits_iff : m.Fits ↔ m.data.length < bufSize := by
  rw [Msg.Fits, List.length_take]
  omega

/-- What a child prints. -/
def Msg.line (m : Msg) : Proto × Bytes := (m.proto, cstr m.data)

/-- The children that go on have what fits, and each prints one line. -/
structure DataInv (s : State) : Prop where
  fits : ∀ m ∈ s.holding ++ (s.printed ++ (s.replies ++ s.lost)), m.data.length < bufSize
  long : ∀ m ∈ s.overran, bufSize ≤ m.data.length
  log : s.log.Perm ((s.printed ++ (s.replies ++ s.lost)).map Msg.line)

theorem DataInv.take (h : DataInv s) (m : Msg) : DataInv (s.take m) := by
  by_cases hm : m.Fits
  · refine ⟨?_, by simpa [State.take, hm] using h.long, h.log⟩
    simp only [State.take, hm, if_true, List.cons_append, List.mem_cons]
    rintro m' (rfl | hm')
    · exact fits_iff.mp hm
    · exact h.fits m' hm'
  · refine ⟨by simpa [State.take, hm] using h.fits, ?_, h.log⟩
    simp only [State.take, hm, if_false, List.mem_cons]
    rintro m' (rfl | hm')
    · exact Nat.not_lt.mp (mt fits_iff.mpr hm)
    · exact h.long m' hm'

theorem DataInv.of_move (h : DataInv s) (hmove : Move s s') : DataInv s' := by
  cases hmove with
  | recv =>
    refine DataInv.take ?_ _
    exact ⟨h.fits, h.long, h.log⟩
  | read =>
    refine DataInv.take ?_ _
    exact ⟨h.fits, h.long, h.log⟩
  | @print m hm =>
    have hperm : (s.holding.erase m ++ (m :: s.printed ++ (s.replies ++ s.lost))).Perm
        (s.holding ++ (s.printed ++ (s.replies ++ s.lost))) :=
      List.perm_middle.trans ((List.perm_cons_erase hm).symm.append_right _)
    refine ⟨fun m' hm' => h.fits m' (hperm.mem_iff.mp hm'), h.long, ?_⟩
    exact (List.perm_append_singleton _ _).trans (h.log.cons m.line)
  | @reply m hm =>
    have hperm : (s.printed.erase m ++ (m :: s.replies ++ s.lost)).Perm
        (s.printed ++ (s.replies ++ s.lost)) :=
      List.perm_middle.trans ((List.perm_cons_erase hm).symm.append_right _)
    exact ⟨fun m' hm' => h.fits m' ((hperm.append_left _).mem_iff.mp hm'), h.long,
      h.log.trans (hperm.symm.map _)⟩
  | @replyFails m hm =>
    have hperm : (s.printed.erase m ++ (s.replies ++ m :: s.lost)).Perm
        (s.printed ++ (s.replies ++ s.lost)) :=
      ((List.perm_middle.append_left _).trans List.perm_middle).trans
        ((List.perm_cons_erase hm).symm.append_right _)
    exact ⟨fun m' hm' => h.fits m' ((hperm.append_left _).mem_iff.mp hm'), h.long,
      h.log.trans (hperm.symm.map _)⟩
  | _ => exact ⟨h.fits, h.long, h.log⟩

end Data

/-! ### Whole runs -/

section Runs

variable {s : State}

theorem inv_of_reachable (h : machine.Reachable s) : UdpInv s ∧ TcpInv s ∧ DataInv s := by
  refine h.invariant (I := fun s => UdpInv s ∧ TcpInv s ∧ DataInv s) ?_ ?_
  · rintro _ rfl
    exact ⟨⟨nofun, .nil, rfl⟩, ⟨.nil, .nil, nofun, nofun, nofun⟩, ⟨nofun, nofun, .nil⟩⟩
  · rintro s a s' ⟨hudp, htcp, hdata⟩ hstep
    have hmove := move_of_step hstep
    exact ⟨hudp.of_move hmove, htcp.of_move hudp hmove, hdata.of_move hmove⟩

/-- At rest the parent is in `epoll_wait`, and there is nothing left to be done. -/
theorem empty_of_rest (htcp : TcpInv s) (hrest : s.Rest) :
    s.main = .wait ∧ s.udpQueue = [] ∧ s.acceptQueue = [] ∧ s.holding = [] ∧ s.printed = [] := by
  have hmain : s.main = .wait := by
    cases hmain : s.main with
    | wait => rfl
    | accepted peer evts =>
      have hfork := hrest (.fork true) rfl
      simp [State.step, hmain] at hfork
    | events evts =>
      cases evts with
      | nil => exact absurd hmain htcp.busy
      | cons e evts =>
        cases e with
        | udp =>
          have hfork := hrest (.fork true) rfl
          simp [State.step, hmain] at hfork
        | tcp =>
          have haccept := hrest (.accept true) rfl
          cases hqueue : s.acceptQueue with
          | nil => exact absurd hqueue (htcp.ready (by simp [hmain, Main.evts]))
          | cons peer queue => simp [State.step, hmain, hqueue] at haccept
  refine ⟨hmain, ?_, ?_, ?_, ?_⟩
  · have hwake := hrest (.wake [.udp]) rfl
    simpa [State.step, hmain, State.Ready] using hwake
  · have hwake := hrest (.wake [.tcp]) rfl
    simpa [State.step, hmain, State.Ready] using hwake
  · refine List.eq_nil_iff_forall_not_mem.mpr fun m hm => ?_
    have hprint := hrest (.print m) rfl
    simp [State.step, hm] at hprint
  · refine List.eq_nil_iff_forall_not_mem.mpr fun m hm => ?_
    have hreply := hrest (.reply m true) rfl
    simp [State.step, hm] at hreply

/-- **What has become of everything.** Whenever the server has come to rest, every datagram that
leaves room for a NUL has been sent back once, or could not be sent; the longer ones made a child
leave its buffer. The children that are left over wait in `recvfrom`: as many as were forked beyond
the datagrams. Every connection is one that a child waits on, or that failed, or was served once,
and each message that was answered has been printed once. -/
theorem echoed_at_rest (h : machine.Reachable s) (hrest : s.Rest) :
    (udpOf (s.replies ++ s.lost)).Perm (s.arrived.filter fun m => m.data.length < 1024) ∧
      (udpOf s.overran).Perm (s.arrived.filter fun m => 1024 ≤ m.data.length) ∧
      s.waiting + s.dead + s.arrived.length = s.udpForks ∧
      s.connected.Perm (s.reading ++ (s.dropped ++ s.leaked) ++
        tcpOf (s.replies ++ (s.lost ++ s.overran))) ∧
      s.log.Perm ((s.replies ++ s.lost).map fun m => (m.proto, cstr m.data)) := by
  obtain ⟨hudp, htcp, hdata⟩ := inv_of_reachable h
  obtain ⟨hmain, hqueue, haccept, hholding, hprinted⟩ := empty_of_rest htcp hrest
  have htaken : s.taken = s.replies ++ (s.lost ++ s.overran) := by
    simp [State.taken, hholding, hprinted]
  have harrived : s.arrived.Perm (udpOf (s.replies ++ s.lost) ++ udpOf s.overran) := by
    have haccount := hudp.account
    rwa [hqueue, htaken, List.nil_append, ← List.append_assoc, udpOf, List.filter_append]
      at haccount
  have hshort : ∀ m ∈ udpOf (s.replies ++ s.lost), m.data.length < 1024 := fun m hm =>
    hdata.fits m (by simpa [hholding, hprinted] using (List.mem_filter.mp hm).1)
  have hlong : ∀ m ∈ udpOf s.overran, 1024 ≤ m.data.length := fun m hm =>
    hdata.long m (List.mem_filter.mp hm).1
  refine ⟨?_, ?_, ?_, ?_, ?_⟩
  · refine List.Perm.symm ((harrived.filter _).trans ?_)
    rw [List.filter_append, List.filter_eq_self.mpr (by simpa using hshort),
      List.filter_eq_nil_iff.mpr (by simpa using hlong), List.append_nil]
  · refine List.Perm.symm ((harrived.filter _).trans ?_)
    rw [List.filter_append, List.filter_eq_nil_iff.mpr (by simpa using hshort),
      List.filter_eq_self.mpr (by simpa using hlong), List.nil_append]
  · have hcount := hudp.account.length_eq
    rw [hqueue, List.nil_append] at hcount
    rw [hcount]
    exact hudp.workers
  · have haccount := htcp.account
    rwa [haccept, State.unserved, hmain, htaken] at haccount
  · have hlog := hdata.log
    rwa [hprinted] at hlog

/-- The server after `n` wake-ups for one datagram. -/
def storm (m : Msg) (n : ℕ) : State :=
  { start with udpQueue := [m], waiting := n, arrived := [m], udpForks := n }

theorem reachable_storm (peer : ℕ) (data : Bytes) (n : ℕ) :
    machine.Reachable (storm ⟨.udp, peer, data⟩ n) := by
  induction n with
  | zero => exact ⟨start, _, rfl, Machine.Run.nil.snoc (a := .datagram peer data) rfl⟩
  | succ n ih =>
    have hwake := ih.step (a := .wake [.udp])
      (t := { storm ⟨.udp, peer, data⟩ n with main := .events [.udp] })
      (by simp [machine, State.step, storm, start, State.Ready])
    exact hwake.step (a := .fork true) rfl

/-- The server after one of these children has done its work. -/
def afterStorm (m : Msg) (n : ℕ) : State :=
  { start with
    waiting := n
    replies := [m]
    log := [m.line]
    arrived := [m]
    udpForks := n + 1 }

theorem rest_afterStorm (m : Msg) (n : ℕ) : (afterStorm m n).Rest := by
  intro a ha
  cases a with
  | wake evts =>
    refine if_neg ?_
    rintro ⟨-, hne, -, hready⟩
    obtain ⟨e, he⟩ := List.exists_mem_of_ne_nil _ hne
    cases e <;> exact absurd rfl (hready _ he)
  | datagram | connect | recvFails | read | readFails => cases ha
  | accept | fork | recv | print | reply => rfl

theorem reachable_afterStorm (peer n : ℕ) {data : Bytes} (hlen : data.length < bufSize) :
    machine.Reachable (afterStorm ⟨.udp, peer, data⟩ n) := by
  have hfits : Msg.Fits ⟨.udp, peer, data⟩ := fits_iff.mpr hlen
  have hrecv := (reachable_storm peer data (n + 1)).step (a := .recv)
    (t := { storm ⟨.udp, peer, data⟩ (n + 1) with
      udpQueue := [], waiting := n, holding := [⟨.udp, peer, data⟩] })
    (by simp [machine, State.step, storm, start, State.take, hfits])
  have hprint := hrecv.step (a := .print ⟨.udp, peer, data⟩)
    (t := { storm ⟨.udp, peer, data⟩ (n + 1) with
      udpQueue := []
      waiting := n
      printed := [⟨.udp, peer, data⟩]
      log := [Msg.line ⟨.udp, peer, data⟩] })
    (by simp [machine, State.step, storm, start, Msg.line])
  exact hprint.step (a := .reply ⟨.udp, peer, data⟩ true)
    (by simp [machine, State.step, storm, start, afterStorm])

/-- One datagram, and two children too many. -/
theorem echoed_at_rest_twoTooMany :
    ∃ s, machine.Reachable s ∧ s.Rest ∧ s.waiting + s.dead + 1 = 3 ∧
      (udpOf (s.replies ++ s.lost)).Perm [⟨.udp, 7, [104, 105]⟩] := by
  have hreach := reachable_afterStorm 7 2 (show List.length [104, 105] < bufSize by decide)
  have hrest := rest_afterStorm ⟨.udp, 7, [104, 105]⟩ 2
  obtain ⟨hreplies, -, hforks, -⟩ := echoed_at_rest hreach hrest
  exact ⟨_, hreach, hrest, hforks, hreplies⟩

/-- **Surplus children.** For a single datagram the server can fork any number of children: one of
them answers, and the others are still waiting when it has come to rest. -/
theorem surplus_children (peer n : ℕ) {data : Bytes} (hlen : data.length < 1024) :
    ∃ s, machine.Reachable s ∧ s.Rest ∧ s.arrived = [⟨.udp, peer, data⟩] ∧
      s.udpForks = n + 1 ∧ s.replies = [⟨.udp, peer, data⟩] ∧ s.waiting = n :=
  ⟨_, reachable_afterStorm peer n hlen, rest_afterStorm _ n, rfl, rfl, rfl, rfl⟩

theorem surplus_children_three : ∃ s, machine.Reachable s ∧ s.Rest ∧
    s.arrived = [⟨.udp, 7, [104, 105]⟩] ∧ s.udpForks = 4 ∧
    s.replies = [⟨.udp, 7, [104, 105]⟩] ∧ s.waiting = 3 :=
  surplus_children 7 3 (by decide)

end Runs

end EchoMux

end Tlpiexer
