import Tlpiexer.Chat.Conversation

/-!
# The conversation inside the chat program

`Chat.Conversation` follows the lines of two processes, `Chat.Processes` the system calls of any
number of them. Here the two are put together: what the first says about queues and about leaving
is what the second says about processes 0 and 1.

A step that reads a line or displays one is not visible in the chat program. Leaving takes two
steps there, since the queue's name is removed by a call of its own. Every other step is one step.

## Main results

* `exec_of_move` — the steps of the chat program that make up a step of the conversation
* `reachable_embed` — the states of conversations are states of the chat program
-/

namespace Tlpiexer

namespace Chat

namespace Conversation

open CString Transition MessageQueue

/-- The process number, and the number of its queue. -/
def Side.num : Side → ℕ
  | .listener => 0
  | .invoker => 1

/-- A function of process numbers, given for the two processes. -/
def table {α : Type*} (f : Side → α) (none : α) : ℕ → α
  | 0 => f .listener
  | 1 => f .invoker
  | _ => none

section Table

variable {α : Type*} (f : Side → α) (z : α)

@[simp] theorem table_num (p : Side) : table f z p.num = f p := by cases p <;> rfl

theorem table_update (p : Side) (x : α) :
    table (Function.update f p x) z = Function.update (table f z) p.num x := by
  funext n
  obtain _ | _ | n := n <;> cases p <;> simp [table, Side.num, Function.update]

end Table

/-- Where the chat program is. -/
def Pc.embed : Pc → Chat.Pc
  | .waiting => .waiting
  | .reading | .sending | .overrun => .talking
  | .leaving => .leaving
  | .gone => .gone

/-- The receiving thread is there and has not been cancelled. -/
def Pc.receives : Pc → Bool
  | .reading | .sending | .overrun => true
  | .waiting | .leaving | .gone => false

/-- What the process learned during the handshake. -/
def handshake (user : Side → User) : Side → Pc → Option Msg
  | .listener, _ => some ⟨.start, user .invoker, Side.invoker.num⟩
  | .invoker, .waiting => none
  | .invoker, _ => some ⟨.accepted, user .listener, Side.listener.num⟩

/-- A process of the chat program. -/
def procOf (user : Side → User) (p : Side) (P : Peer) : Proc where
  user := user p
  role := match p with
    | .listener => .listener
    | .invoker => .invoker (user .listener)
  pc := P.pc.embed
  mqdListen := some p.num
  peer := match p with
    | .listener => some (user .invoker)
    | .invoker => none
  mqdPeer := some p.other.num
  got := handshake user p P.pc
  receiving := P.pc.receives
  entered := P.pc ≠ .waiting

/-- A message in the queue of `p`. -/
def msgOf (user : Side → User) (p : Side) (m : Text) : Msg := ⟨m.type, user p.other, p.other.num⟩

/-- The name of a queue is there until its process is gone. -/
def namesOf (user : Side → User) (peer : Side → Peer) (n : Bytes) : Option ℕ :=
  if n = mqUserName (user .listener) ∧ (peer .listener).pc ≠ .gone then some 0
  else if n = mqUserName (user .invoker) ∧ (peer .invoker).pc ≠ .gone then some 1
  else none

/-- The state of the chat program. -/
def State.embed (user : Side → User) (s : State) : Chat.State where
  procs := table (fun p => some (procOf user p (s.peer p))) none
  table :=
    { names := namesOf user s.peer
      qname := table (fun p => some (mqUserName (user p))) none
      msgs := table (fun p => (s.queue p).map (msgOf user p)) []
      next := 2 }

variable {user : Side → User} {lines : Side → List Bytes} {s s' : State} {a : Label} {p : Side}

/-! ### Updates -/

@[simp] theorem procs_embed : (s.embed user).procs p.num = some (procOf user p (s.peer p)) :=
  table_num (fun p => some (procOf user p (s.peer p))) none p

@[simp] theorem msgs_embed :
    (s.embed user).table.msgs p.num = (s.queue p).map (msgOf user p) :=
  table_num (fun p => (s.queue p).map (msgOf user p)) [] p

theorem namesOf_update {peer : Side → Peer} {P : Peer} (h : P.pc = .gone ↔ (peer p).pc = .gone) :
    namesOf user (Function.update peer p P) = namesOf user peer := by
  funext n
  cases p <;> simp [namesOf, h]

theorem namesOf_update_gone (huser : user .listener ≠ user .invoker) {peer : Side → Peer}
    {P : Peer} (h : P.pc = .gone) :
    namesOf user (Function.update peer p P) =
      Function.update (namesOf user peer) (mqUserName (user p)) none := by
  have hname : mqUserName (user .listener) ≠ mqUserName (user .invoker) :=
    mqUserName_injective.ne huser
  funext n
  cases p with
  | listener => by_cases hn : n = mqUserName (user .listener) <;> simp [namesOf, h, hn, hname]
  | invoker => by_cases hn : n = mqUserName (user .invoker) <;> simp [namesOf, h, hn, hname.symm]

theorem procs_embed_set {P : Peer} : ((s.set p P).embed user).procs =
    Function.update (s.embed user).procs p.num (some (procOf user p P)) := by
  have hprocs : (fun q => some (procOf user q ((s.set p P).peer q))) =
      Function.update (fun q => some (procOf user q (s.peer q))) p (some (procOf user p P)) := by
    funext q
    obtain rfl | rfl := p.eq_or_eq_other q <;> simp
  simp only [State.embed, hprocs, table_update]

theorem embed_set {P : Peer} (h : P.pc = .gone ↔ (s.peer p).pc = .gone) :
    (s.set p P).embed user = (s.embed user).set p.num (procOf user p P) := by
  have hnames : namesOf user (s.set p P).peer = namesOf user s.peer := namesOf_update h
  rw [Chat.State.set, ← procs_embed_set]
  simp only [State.embed, hnames, queue_set]

theorem embed_set_gone (huser : user .listener ≠ user .invoker) {P : Peer} (h : P.pc = .gone) :
    (s.set p P).embed user = { (s.embed user).set p.num (procOf user p P) with
      table := (s.embed user).table.unlink (mqUserName (user p)) } := by
  have hnames : namesOf user (s.set p P).peer =
      Function.update (namesOf user s.peer) (mqUserName (user p)) none :=
    namesOf_update_gone huser h
  rw [Chat.State.set, ← procs_embed_set]
  simp only [State.embed, Table.unlink, hnames, queue_set]

theorem embed_setQueue {q : List Text} :
    (s.setQueue p q).embed user = { s.embed user with
      table := { (s.embed user).table with
        msgs := Function.update (s.embed user).table.msgs p.num (q.map (msgOf user p)) } } := by
  have hmsgs : (fun r => ((s.setQueue p q).queue r).map (msgOf user r)) =
      Function.update (fun r => (s.queue r).map (msgOf user r)) p (q.map (msgOf user p)) := by
    funext r
    obtain rfl | rfl := p.eq_or_eq_other r <;> simp
  simp only [State.embed, hmsgs, table_update, peer_setQueue]

/-- A step that changes nothing the chat program has. -/
theorem embed_set_eq {P : Peer} (h : procOf user p P = procOf user p (s.peer p))
    (hgone : P.pc = .gone ↔ (s.peer p).pc = .gone) : (s.set p P).embed user = s.embed user := by
  rw [embed_set hgone, h, Chat.State.set, ← procs_embed (s := s), Function.update_eq_self]

/-! ### Steps of the chat program -/

section Chat

variable {S : Chat.State} {n q : ℕ} {P : Proc} {m : Msg} {ms : List Msg}

theorem step_answer (hp : S.procs n = some P) (hpc : P.pc = .waiting) (hq : P.mqdListen = some q)
    (hm : S.table.msgs q = m :: ms) : Chat.machine.step S (.run n) = some
      { S.set n (P.answered m) with
        table := { S.table with msgs := Function.update S.table.msgs q ms } } := by
  simp [Chat.machine, Chat.State.step, Chat.State.run, hp, hpc, hq, Table.receive, hm]

theorem step_open {peer : User} (hp : S.procs n = some P) (hpc : P.pc = .invoking)
    (hrole : P.role = .invoker peer) (hpeer : P.user ≠ peer)
    (hname : S.table.names (mqUserName peer) = some q) : Chat.machine.step S (.run n) =
      some (S.set n { P with mqdPeer := some q, pc := .asking }) := by
  simp [Chat.machine, Chat.State.step, Chat.State.run, hp, hpc, hrole, hpeer, hname]

theorem step_ask (hp : S.procs n = some P) (hpc : P.pc = .asking) (hq : P.mqdPeer = some q)
    (hroom : (S.table.msgs q).length < mqMaxmsg) : Chat.machine.step S (.run n) = some
      { S.set n { P with pc := .waiting } with table := { S.table with
          msgs := Function.update S.table.msgs q (S.table.msgs q ++ [⟨.start, P.user, n⟩]) } } := by
  simp [Chat.machine, Chat.State.step, Chat.State.run, hp, hpc, hq, Table.send, hroom]

theorem step_hears (hp : S.procs n = some P) (hpc : P.pc = .listening) (hq : P.mqdListen = some q)
    (hm : S.table.msgs q = m :: ms) : Chat.machine.step S (.run n) = some
      { S.set n (P.hears m) with
        table := { S.table with msgs := Function.update S.table.msgs q ms } } := by
  simp [Chat.machine, Chat.State.step, Chat.State.run, hp, hpc, hq, Table.receive, hm]

theorem step_openPeer {peer : User} (hp : S.procs n = some P) (hpc : P.pc = .opening)
    (hpeer : P.peer = some peer) (hname : S.table.names (mqUserName peer) = some q) :
    Chat.machine.step S (.run n) =
      some (S.set n { P with mqdPeer := some q, pc := .accepting }) := by
  simp [Chat.machine, Chat.State.step, Chat.State.run, hp, hpc, hpeer, hname]

theorem step_accept (hp : S.procs n = some P) (hpc : P.pc = .accepting) (hq : P.mqdPeer = some q)
    (hroom : (S.table.msgs q).length < mqMaxmsg) : Chat.machine.step S (.run n) = some
      { S.set n P.startMessage with table := { S.table with
          msgs := Function.update S.table.msgs q
            (S.table.msgs q ++ [⟨.accepted, P.user, n⟩]) } } := by
  simp [Chat.machine, Chat.State.step, Chat.State.run, hp, hpc, hq, Table.send, hroom]

theorem step_fail (hp : S.procs n = some P) (hpc : P.pc = .talking) :
    Chat.machine.step S (.fail n) = some (S.set n P.exitErr) := by
  simp [Chat.machine, Chat.State.step, Chat.State.fail, hp, hpc]

theorem step_say (hp : S.procs n = some P) (hpc : P.pc = .talking) (hq : P.mqdPeer = some q)
    (hroom : (S.table.msgs q).length < mqMaxmsg) :
    Chat.machine.step S (.say n) = some
      { S with table := { S.table with
          msgs := Function.update S.table.msgs q (S.table.msgs q ++ [⟨.msg, P.user, n⟩]) } } := by
  simp [Chat.machine, Chat.State.step, Chat.State.say, hp, hpc, hq, Table.send, hroom]

theorem step_hear (hp : S.procs n = some P) (hreceiving : P.receiving = true)
    (hq : P.mqdListen = some q) (hm : S.table.msgs q = m :: ms) :
    Chat.machine.step S (.hear n) = some
      { S with table := { S.table with msgs := Function.update S.table.msgs q ms } } := by
  simp [Chat.machine, Chat.State.step, Chat.State.hear, hp, hreceiving, hq, Table.receive, hm]

/-- `exit_err` of a process whose queue is still linked. -/
theorem exec_exit (hp : S.procs n = some P) (hpc : P.pc = .leaving)
    (hname : S.table.names (mqUserName P.user) = some q) :
    Chat.machine.exec S [.run n, .run n] =
      some { S.set n P.exit with table := S.table.unlink (mqUserName P.user) } := by
  have hcreate : S.table.create (mqUserName P.user) = none := by simp [Table.create, hname]
  have hfirst : Chat.machine.step S (.run n) = some (S.set n { P with pc := .unlinking }) := by
    simp [Chat.machine, Chat.State.step, Chat.State.run, hp, hpc, hcreate]
  have hsecond : Chat.machine.step (S.set n { P with pc := .unlinking }) (.run n) =
      some { S.set n P.exit with table := S.table.unlink (mqUserName P.user) } := by
    simp [Chat.machine, Chat.State.step, Chat.State.run, Chat.State.set, Proc.exit]
  rw [Machine.exec, hfirst]
  exact Machine.exec_of_step hsecond

end Chat

/-! ### Steps of the conversation -/

section Peers

variable {P : Peer}

theorem procOf_talking (hpc : P.pc = .reading ∨ P.pc = .sending) :
    (procOf user p P).pc = .talking ∧ (procOf user p P).receiving = true := by
  obtain hpc | hpc := hpc <;> simp [procOf, hpc, Pc.embed, Pc.receives]

theorem procOf_leaving (hpc : P.pc = .reading) :
    procOf user p { P with pc := .leaving } = (procOf user p P).exitErr := by
  cases p <;> simp [procOf, Proc.exitErr, hpc, Pc.embed, Pc.receives, handshake]

theorem procOf_reading (hpc : P.pc = .sending) :
    procOf user p { P with pc := .reading } = procOf user p P := by
  cases p <;> simp [procOf, hpc, Pc.embed, Pc.receives, handshake]

theorem procOf_gone (hpc : P.pc = .leaving) :
    procOf user p { P with pc := .gone } = (procOf user p P).exit := by
  cases p <;> simp [procOf, Proc.exit, hpc, Pc.embed, Pc.receives, handshake]

theorem procOf_read {line : Bytes} {rest : List Bytes} (hpc : P.pc = .reading)
    (hline : (cstr line).length < msgSize) :
    procOf user p (P.read (user p) line rest) = procOf user p P := by
  cases p <;> simp [procOf, Peer.read, hline, hpc, Pc.embed, Pc.receives, handshake]

theorem procOf_answered {m : Text} (hm : m.type = .accepted) (hpc : P.pc = .waiting) :
    procOf user .invoker (P.answered m) =
      (procOf user .invoker P).answered (msgOf user .invoker m) := by
  simp [procOf, Peer.answered, Proc.answered, Proc.startMessage, msgOf, hm, hpc, Pc.embed,
    Pc.receives, handshake, Side.other]

end Peers

theorem namesOf_eq_some (huser : user .listener ≠ user .invoker) {peer : Side → Peer}
    (h : (peer p).pc ≠ .gone) : namesOf user peer (mqUserName (user p)) = some p.num := by
  have hname : mqUserName (user .invoker) ≠ mqUserName (user .listener) :=
    mqUserName_injective.ne huser.symm
  cases p <;> simp [namesOf, h, hname, Side.num]

/-- **A step of the conversation is made of steps of the chat program.** -/
theorem exec_of_move (huser : user .listener ≠ user .invoker) (hs : Inv user lines s)
    (hlistener : (s.peer .listener).pc ≠ .waiting) (h : Move user s a s') :
    ∃ as, Chat.machine.exec (s.embed user) as = some (s'.embed user) := by
  have hproc (p : Side) : (s.embed user).procs p.num = some (procOf user p (s.peer p)) :=
    procs_embed
  cases h with
  | @hello p m q hpc hq =>
    have hp := hs.peers p
    rw [hq] at hp
    have hm := (hp.accepted hpc).1
    obtain rfl : p = .invoker := by
      cases p
      · exact absurd hpc hlistener
      · rfl
    have hmsgs : (s.embed user).table.msgs Side.invoker.num =
        msgOf user .invoker m :: q.map (msgOf user .invoker) := by
      rw [msgs_embed, hq, List.map_cons]
    have hstep := step_answer (hproc .invoker) (by simp [procOf, hpc, Pc.embed]) rfl hmsgs
    refine ⟨[.run Side.invoker.num], ?_⟩
    rw [embed_setQueue, embed_set (by simp [Peer.answered, hm, hpc]), procOf_answered hm hpc]
    exact Machine.exec_of_step hstep
  | @read p line rest hpc hinput =>
    have hline := ((hs.peers p).line_fits hinput).1
    refine ⟨[], congrArg some (embed_set_eq (procOf_read hpc hline) ?_).symm⟩
    simp [Peer.read, hline, hpc]
  | @leave p hpc hinput =>
    refine ⟨[.fail p.num], ?_⟩
    rw [embed_set (by simp [hpc]), procOf_leaving hpc]
    have hstep := step_fail (hproc p) (procOf_talking (.inl hpc)).1
    exact Machine.exec_of_step hstep
  | @send p hpc hroom =>
    have hm : (s.peer p).msg.type = .msg :=
      (hs.peers p).pending _ (by simp [pending_of_sending hpc])
    have hmsg : msgOf user p.other (s.peer p).msg = ⟨.msg, user p, p.num⟩ := by simp [msgOf, hm]
    have hlen : ((s.embed user).table.msgs p.other.num).length < mqMaxmsg := by
      rwa [msgs_embed, List.length_map]
    have hstep := step_say (hproc p) (procOf_talking (.inr hpc)).1 rfl hlen
    refine ⟨[.say p.num], ?_⟩
    rw [embed_setQueue, embed_set_eq (procOf_reading hpc) (by simp [hpc]), List.map_append,
      List.map_singleton, hmsg, ← msgs_embed]
    exact Machine.exec_of_step hstep
  | @exit p hpc =>
    refine ⟨[.run p.num, .run p.num], ?_⟩
    have hname : (s.embed user).table.names (mqUserName (user p)) = some p.num :=
      namesOf_eq_some huser (by simp [hpc])
    rw [embed_set_gone huser rfl, procOf_gone hpc]
    exact exec_exit (hproc p) (by simp [procOf, hpc, Pc.embed]) hname
  | @receive p m q hpc hheld hq =>
    have hmsgs : (s.embed user).table.msgs p.num = msgOf user p m :: q.map (msgOf user p) := by
      rw [msgs_embed, hq, List.map_cons]
    have hstep := step_hear (hproc p) (procOf_talking hpc).2 rfl hmsgs
    refine ⟨[.hear p.num], ?_⟩
    rw [embed_setQueue, embed_set_eq (by rfl) (by rfl)]
    exact Machine.exec_of_step hstep
  | @display p m hheld hpc =>
    refine ⟨[], congrArg some (embed_set_eq ?_ ?_).symm⟩
    · rfl
    · rfl

/-! ### Runs -/

/-- The chat program with the listener `L` and the invoker `I`, where `ml` and `mi` are the
messages in their queues. -/
def duo (user : Side → User) (L I : Proc) (ml mi : List Msg) : Chat.State where
  procs := Function.update (Function.update (fun _ => none) 0 (some L)) 1 (some I)
  table :=
    { names := Function.update (Function.update (fun _ => none) (mqUserName (user .listener))
        (some 0)) (mqUserName (user .invoker)) (some 1)
      qname := Function.update (Function.update (fun _ => none) 0
        (some (mqUserName (user .listener)))) 1 (some (mqUserName (user .invoker)))
      msgs := Function.update (Function.update (fun _ => []) 0 ml) 1 mi
      next := 2 }

section Duo

variable {L I P : Proc} {ml mi ms : List Msg}

theorem update_zero {α : Type*} (f : ℕ → α) (x y z : α) :
    Function.update (Function.update (Function.update f 0 x) 1 y) 0 z =
      Function.update (Function.update f 0 z) 1 y := by
  rw [Function.update_comm Nat.one_ne_zero, Function.update_idem]

@[simp] theorem procs_duo_zero : (duo user L I ml mi).procs 0 = some L := rfl

@[simp] theorem procs_duo_one : (duo user L I ml mi).procs 1 = some I := rfl

@[simp] theorem msgs_duo_zero : (duo user L I ml mi).table.msgs 0 = ml := rfl

@[simp] theorem msgs_duo_one : (duo user L I ml mi).table.msgs 1 = mi := rfl

theorem names_duo_listener (huser : user .listener ≠ user .invoker) :
    (duo user L I ml mi).table.names (mqUserName (user .listener)) = some 0 := by
  have hname : mqUserName (user .listener) ≠ mqUserName (user .invoker) :=
    mqUserName_injective.ne huser
  simp [duo, hname]

theorem names_duo_invoker :
    (duo user L I ml mi).table.names (mqUserName (user .invoker)) = some 1 := by simp [duo]

theorem duo_set_zero : (duo user L I ml mi).set 0 P = duo user P I ml mi := by
  simp only [duo, Chat.State.set, update_zero]

theorem duo_set_one : (duo user L I ml mi).set 1 P = duo user L P ml mi := by
  simp only [duo, Chat.State.set, Function.update_idem]

theorem duo_set_one_queue_zero : { (duo user L I ml mi).set 1 P with
    table := { (duo user L I ml mi).table with
      msgs := Function.update (duo user L I ml mi).table.msgs 0 ms } } = duo user L P ms mi := by
  simp only [duo, Chat.State.set, Function.update_idem, update_zero]

theorem duo_set_zero_queue_zero : { (duo user L I ml mi).set 0 P with
    table := { (duo user L I ml mi).table with
      msgs := Function.update (duo user L I ml mi).table.msgs 0 ms } } = duo user P I ms mi := by
  simp only [duo, Chat.State.set, update_zero]

theorem duo_set_zero_queue_one : { (duo user L I ml mi).set 0 P with
    table := { (duo user L I ml mi).table with
      msgs := Function.update (duo user L I ml mi).table.msgs 1 ms } } = duo user P I ml ms := by
  simp only [duo, Chat.State.set, Function.update_idem, update_zero]

end Duo

/-- Both processes have created their queues. -/
theorem exec_begin (huser : user .listener ≠ user .invoker) :
    Chat.machine.exec Chat.start [.start 0 (user .listener) .listener, .run 0,
        .start 1 (user .invoker) (.invoker (user .listener)), .run 1] =
      some (duo user
        ⟨user .listener, .listener, .listening, some 0, none, none, none, false, false⟩
        ⟨user .invoker, .invoker (user .listener), .invoking, some 1, none, none, none, false,
          false⟩ [] []) := by
  have hname : mqUserName (user .invoker) ≠ mqUserName (user .listener) :=
    mqUserName_injective.ne huser.symm
  simp [duo, Machine.exec, Chat.machine, Chat.State.step, Chat.State.run, Chat.start,
    Chat.State.set, Table.empty, Table.create, Table.link, Proc.new, Proc.opened, hname]

/-- The chat program after the handshake. -/
def greeted (user : Side → User) : Chat.State :=
  duo user
    ⟨user .listener, .listener, .talking, some 0, some (user .invoker), some 1,
      some ⟨.start, user .invoker, 1⟩, true, true⟩
    ⟨user .invoker, .invoker (user .listener), .waiting, some 1, none, some 0, none, false, false⟩
    [] [⟨.accepted, user .listener, 0⟩]

/-- The invoker opens the listener's queue and asks, and the listener receives that, opens the
invoker's queue and accepts. -/
theorem reachable_greeted (huser : user .listener ≠ user .invoker) :
    Chat.machine.Reachable (greeted user) := by
  have hbegin := Machine.reachable_of_exec rfl (exec_begin huser)
  have hopen := hbegin.step
    (step_open procs_duo_one rfl rfl huser.symm (names_duo_listener huser))
  rw [duo_set_one] at hopen
  have hask := hopen.step (step_ask procs_duo_one rfl rfl (by simp [mqMaxmsg]))
  rw [duo_set_one_queue_zero] at hask
  have hhears := hask.step (step_hears procs_duo_zero rfl rfl rfl)
  rw [duo_set_zero_queue_zero] at hhears
  have hpeer := hhears.step (step_openPeer procs_duo_zero rfl rfl names_duo_invoker)
  rw [duo_set_zero] at hpeer
  have haccept := hpeer.step (step_accept procs_duo_zero rfl rfl (by simp [mqMaxmsg]))
  rw [duo_set_zero_queue_one] at haccept
  exact haccept

theorem embed_start (huser : user .listener ≠ user .invoker) (msg : Side → Text) (hello : Text) :
    (start lines msg hello).embed user = greeted user := by
  have hname : mqUserName (user .listener) ≠ mqUserName (user .invoker) :=
    mqUserName_injective.ne huser
  simp only [State.embed, greeted, duo, Chat.State.mk.injEq, Table.mk.injEq, and_true]
  refine ⟨?_, ?_, ?_, ?_⟩ <;> funext n
  · obtain _ | _ | n := n <;> rfl
  · by_cases hlistener : n = mqUserName (user .listener) <;>
      by_cases hinvoker : n = mqUserName (user .invoker) <;>
      simp_all [namesOf, start]
  · obtain _ | _ | n := n <;> rfl
  · obtain _ | _ | n := n <;> rfl

/-- The listener is past its handshake. -/
theorem listener_of_move (h : Move user s a s') (hs : (s.peer .listener).pc ≠ .waiting) :
    (s'.peer .listener).pc ≠ .waiting := by
  have hset {p : Side} {P : Peer} (hP : P.pc ≠ .waiting) :
      ((s.set p P).peer .listener).pc ≠ .waiting := by
    cases p with
    | listener => exact hP
    | invoker => exact hs
  cases h with
  | hello =>
    refine hset ?_
    rw [Peer.answered]
    split <;> simp
  | read =>
    refine hset ?_
    rw [Peer.read]
    split <;> simp
  | leave => exact hset (by simp)
  | send => exact hset (by simp)
  | exit => exact hset (by simp)
  | @receive p m q hpc =>
    refine hset ?_
    obtain hpc | hpc := hpc <;> simp [hpc]
  | @display p m hheld hpc =>
    cases p with
    | listener => exact hs
    | invoker => exact hs

/-- **The states of conversations are states of the chat program.** -/
theorem reachable_embed (huser : user .listener ≠ user .invoker) (hlines : Short lines)
    (h : (machine user lines).Reachable s) : Chat.machine.Reachable (s.embed user) := by
  have hall := h.invariant (I := fun s => Inv user lines s ∧ (s.peer .listener).pc ≠ .waiting ∧
    Chat.machine.Reachable (s.embed user)) ?_ ?_
  · exact hall.2.2
  · rintro s ⟨msg, hello, rfl⟩
    refine ⟨.start hlines msg hello, by simp [start], ?_⟩
    rw [embed_start huser]
    exact reachable_greeted huser
  · rintro s a t ⟨hs, hlistener, s₀, tr, hinit, hrun⟩ hstep
    have hmove := move_of_step hstep
    obtain ⟨as, hexec⟩ := exec_of_move huser hs hlistener hmove
    exact ⟨hs.of_step hstep, listener_of_move hmove hlistener, s₀, _, hinit,
      hrun.append (Machine.run_of_exec hexec)⟩

end Conversation

end Chat

end Tlpiexer
