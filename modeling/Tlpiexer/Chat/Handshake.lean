import Mathlib.Tactic.ByContra
import Tlpiexer.Chat.Processes

/-!
# The handshake of the chat program

An invoker asks a listener with `START` and enters `start_message` on the first message it gets,
if that is an `ACCEPTED`. It does not look at who sent it.

## What an `ACCEPTED` message proves

Whoever sends one is past its own handshake, and nothing that was true of the handshake of such a
process changes any more (`Pc.Closed`, `Proc.Frozen`). So the facts about the sender can be
attached to the message: it stands for a listener that received a `START` with the name of the
queue's owner, and that has this very queue as its peer queue (`Vouched`). They hold for every
message in every queue and for every message an invoker has taken, in every run.

The name in the message is the sender's. It is the name the invoker asked for only if nobody else
answers: a `START` stays in the queue of the listener it was sent to when the invoker quits, and a
new process of the same user gets the answer to it.

## Main results

* `inv_of_reachable` — the invariant
* `agreed_iff_fromPeer` — when an invoker and its listener agree
* `not_agreed` — they do not always
-/

namespace Tlpiexer

namespace Chat

open CString Transition MessageQueue

/-! ### What does not change any more -/

/-- The handshake is over. -/
def Pc.Closed : Pc → Prop
  | .talking | .leaving | .unlinking | .gone => True
  | _ => False

/-- `P'` is a later state of `P`, whose handshake was over. -/
structure Proc.Frozen (P P' : Proc) : Prop where
  closed : P'.pc.Closed
  user : P'.user = P.user
  role : P'.role = P.role
  mqdListen : P'.mqdListen = P.mqdListen
  mqdPeer : P'.mqdPeer = P.mqdPeer
  got : P'.got = P.got
  entered : P'.entered = P.entered

/-- `s'` comes after `s`. -/
structure Extends (s s' : State) : Prop where
  table : s.table.Later s'.table
  procs : ∀ p P, s.procs p = some P → P.pc.Closed → ∃ P', s'.procs p = some P' ∧ P.Frozen P'

/-- Process `l` is a listener of user `u` that received a `START` from the owner of the queue `q`,
and has `q` as its peer queue. -/
def HasAccepted (s : State) (l : ℕ) (u : User) (q : ℕ) : Prop :=
  ∃ P g, s.procs l = some P ∧ P.pc.Closed ∧ P.role = .listener ∧ P.user = u ∧
    P.mqdPeer = some q ∧ P.got = some g ∧ g.type = .start ∧
    s.table.qname q = some (mqUserName g.user)

/-- An `ACCEPTED` message in the queue `q` comes from a process that has accepted. -/
def Vouched (s : State) (q : ℕ) (m : Msg) : Prop :=
  m.type = .accepted → HasAccepted s m.sender m.user q

section Frames

variable {s s' : State} {p l q : ℕ} {u : User} {P P' : Proc}

theorem HasAccepted.mono (h : HasAccepted s l u q) (hext : Extends s s') :
    HasAccepted s' l u q := by
  obtain ⟨P, g, hl, hc, hrole, huser, hpeer, hgot, htype, hname⟩ := h
  obtain ⟨P', hl', hf⟩ := hext.procs l P hl hc
  exact ⟨P', g, hl', hf.closed, hf.role.trans hrole, hf.user.trans huser, hf.mqdPeer.trans hpeer,
    hf.got.trans hgot, htype, hext.table _ _ hname⟩

theorem Vouched.mono {m : Msg} (h : Vouched s q m) (hext : Extends s s') : Vouched s' q m :=
  fun hm => (h hm).mono hext

theorem State.set_procs_self (s : State) (p : ℕ) (P : Proc) : (s.set p P).procs p = some P :=
  Function.update_self _ _ _

theorem State.set_procs_of_ne (s : State) {p p' : ℕ} (h : p' ≠ p) (P : Proc) :
    (s.set p P).procs p' = s.procs p' :=
  Function.update_of_ne h _ _

theorem Proc.Frozen.refl (hc : P.pc.Closed) : P.Frozen P := ⟨hc, rfl, rfl, rfl, rfl, rfl, rfl⟩

/-- A step that changes no process. -/
theorem extends_table {t : Table Bytes Msg} (ht : s.table.Later t) :
    Extends s { s with table := t } :=
  ⟨ht, fun _ P hk hc => ⟨P, hk, .refl hc⟩⟩

/-- A step of process `p` that freezes it if its handshake was over. -/
theorem extends_set {t : Table Bytes Msg} (ht : s.table.Later t)
    (hp : ∀ P, s.procs p = some P → P.pc.Closed → P.Frozen P') :
    Extends s { s.set p P' with table := t } := by
  refine ⟨ht, fun k P hk hc => ?_⟩
  by_cases hkp : k = p
  · subst hkp
    exact ⟨P', s.set_procs_self k P', hp P hk hc⟩
  · exact ⟨P, (s.set_procs_of_ne hkp P').trans hk, .refl hc⟩

/-- A process whose handshake is not over has nothing to freeze. -/
theorem frozen_of_not_closed (hp : s.procs p = some P) (hpc : ¬ P.pc.Closed) (P' : Proc) :
    ∀ Q, s.procs p = some Q → Q.pc.Closed → Q.Frozen P' := by
  intro Q hQ hc
  obtain rfl : P = Q := Option.some.inj (hp.symm.trans hQ)
  exact absurd hc hpc

/-- Leaving changes nothing that is frozen. -/
theorem frozen_setPc (hp : s.procs p = some P) {c : Pc} (hc : c.Closed) (r : Bool) :
    ∀ Q, s.procs p = some Q → Q.pc.Closed → Q.Frozen { P with pc := c, receiving := r } := by
  intro Q hQ _
  obtain rfl : P = Q := Option.some.inj (hp.symm.trans hQ)
  exact ⟨hc, rfl, rfl, rfl, rfl, rfl, rfl⟩

end Frames

/-! ### The invariant -/

/-- What is true of a process. -/
structure Proc.Ok (s : State) (P : Proc) : Prop where
  fresh : P.pc = .starting → P.got = none
  /-- Its queue was created under its user's name. -/
  listen : ∀ q, P.mqdListen = some q → s.table.qname q = some (mqUserName P.user)
  /-- Only listeners run `listen_user`. -/
  role : P.pc = .listening ∨ P.pc = .opening ∨ P.pc = .accepting → P.role = .listener
  /-- `listen_user` answers a `START`. -/
  heard : P.pc = .opening ∨ P.pc = .accepting →
    ∃ g, P.got = some g ∧ g.type = .start ∧ P.peer = some g.user
  /-- It answers to the queue of the user the `START` names. -/
  peer : P.pc = .accepting → ∃ q u, P.mqdPeer = some q ∧ P.peer = some u ∧
    s.table.qname q = some (mqUserName u)
  /-- What an invoker has received was vouched for. -/
  vouched : ∀ L m, P.role = .invoker L → P.got = some m →
    ∃ q, P.mqdListen = some q ∧ Vouched s q m
  entered : P.entered → P.pc.Closed ∧
    ∀ L, P.role = .invoker L → ∃ m, P.got = some m ∧ m.type = .accepted

/-- The invariant. -/
structure Inv (s : State) : Prop where
  table : s.table.Wf
  procs : ∀ p P, s.procs p = some P → P.Ok s
  msgs : ∀ q m, m ∈ s.table.msgs q → Vouched s q m

/-- A step keeps the invariant, and what was frozen. -/
def Keeps (s s' : State) : Prop := Extends s s' ∧ Inv s'

section Steps

variable {s s' : State} {a : Label} {p q : ℕ} {P P' : Proc} {t : Table Bytes Msg}

theorem Proc.Ok.mono (h : P.Ok s) (hext : Extends s s') : P.Ok s' where
  fresh := h.fresh
  listen q hq := hext.table _ _ (h.listen q hq)
  role := h.role
  heard := h.heard
  peer hpc := by
    obtain ⟨q, u, hq, hu, hname⟩ := h.peer hpc
    exact ⟨q, u, hq, hu, hext.table _ _ hname⟩
  vouched L m hr hm := by
    obtain ⟨q, hq, hv⟩ := h.vouched L m hr hm
    exact ⟨q, hq, hv.mono hext⟩
  entered := h.entered

/-- Outside of `listen_user` the place of a process matters only to whether its handshake is
over. -/
theorem Proc.Ok.setPc (h : P.Ok s) {c : Pc} (hc : c.Closed) (r : Bool) :
    Proc.Ok s { P with pc := c, receiving := r } where
  fresh hpc := by
    obtain rfl : c = _ := hpc
    exact hc.elim
  listen := h.listen
  role hpc := by
    obtain rfl | rfl | rfl : c = _ ∨ c = _ ∨ c = _ := hpc <;> exact hc.elim
  heard hpc := by
    obtain rfl | rfl : c = _ ∨ c = _ := hpc <;> exact hc.elim
  peer hpc := by
    obtain rfl : c = _ := hpc
    exact hc.elim
  vouched := h.vouched
  entered he := ⟨hc, (h.entered he).2⟩

theorem Inv.not_entered (h : Inv s) (hp : s.procs p = some P) (hpc : ¬ P.pc.Closed) :
    P.entered = false := by
  cases he : P.entered with
  | false => rfl
  | true => exact absurd ((h.procs p P hp).entered he).1 hpc

/-- **The frame rule.** Process `p` becomes `P'` and the queues become `t`: what has to be shown is
about `P'` and about the messages that are new. -/
theorem Inv.set (h : Inv s) (ht : t.Wf) (hext : Extends s { s.set p P' with table := t })
    (hok : P'.Ok { s.set p P' with table := t })
    (hmsgs : ∀ q m, m ∈ t.msgs q →
      m ∈ s.table.msgs q ∨ Vouched { s.set p P' with table := t } q m) :
    Keeps s { s.set p P' with table := t } := by
  refine ⟨hext, ht, fun k Q hk => ?_, fun q m hm => ?_⟩
  · by_cases hkp : k = p
    · subst hkp
      obtain rfl : P' = Q := Option.some.inj ((s.set_procs_self k P').symm.trans hk)
      exact hok
    · exact (h.procs k Q ((s.set_procs_of_ne hkp P').symm.trans hk)).mono hext
  · rcases hmsgs q m hm with hold | hnew
    · exact (h.msgs q m hold).mono hext
    · exact hnew

/-- A process in its handshake. -/
theorem Inv.advance (h : Inv s) (hp : s.procs p = some P) (hpc : ¬ P.pc.Closed) (ht : t.Wf)
    (hl : s.table.Later t)
    (hok : P.entered = false → P.Ok { s.set p P' with table := t } →
      P'.Ok { s.set p P' with table := t })
    (hmsgs : s.table.Later t → ∀ q m, m ∈ t.msgs q →
      m ∈ s.table.msgs q ∨ Vouched { s.set p P' with table := t } q m) :
    Keeps s { s.set p P' with table := t } := by
  have hext := extends_set hl (frozen_of_not_closed hp hpc P')
  exact h.set ht hext (hok (h.not_entered hp hpc) ((h.procs p P hp).mono hext)) (hmsgs hl)

/-- A process that is on its way out. -/
theorem Inv.close (h : Inv s) (hp : s.procs p = some P) (c : Pc) (hc : c.Closed) (r : Bool)
    (ht : t.Wf) (hl : s.table.Later t) (hm : ∀ q m, m ∈ t.msgs q → m ∈ s.table.msgs q) :
    Keeps s { s.set p { P with pc := c, receiving := r } with table := t } := by
  have hext := extends_set hl (frozen_setPc hp hc r)
  exact h.set ht hext (((h.procs p P hp).mono hext).setPc hc r) fun q m hq => .inl (hm q m hq)

/-! ### The processes after a step -/

theorem Proc.ok_new (s : State) (user : User) (role : Role) : (Proc.new user role).Ok s where
  fresh _ := rfl
  listen := nofun
  role := by simp [Proc.new]
  heard := by simp [Proc.new]
  peer := by simp [Proc.new]
  vouched := nofun
  entered := nofun

theorem Proc.Ok.opened (h : P.Ok s) (hpc : P.pc = .starting) (he : P.entered = false)
    (hq : s.table.qname q = some (mqUserName P.user)) : (P.opened q).Ok s := by
  have hgot := h.fresh hpc
  cases hrole : P.role with
  | listener =>
    have hopen : P.opened q = { P with mqdListen := some q, pc := .listening } := by
      simp [Proc.opened, hrole]
    rw [hopen]
    exact ⟨nofun, fun k hk => Option.some.inj hk ▸ hq, fun _ => hrole, nofun, nofun,
      fun L m hr => (by rw [hrole] at hr; cases hr), fun h => (by rw [he] at h; cases h)⟩
  | invoker peer =>
    have hopen : P.opened q = { P with mqdListen := some q, pc := .invoking } := by
      simp [Proc.opened, hrole]
    rw [hopen]
    exact ⟨nofun, fun k hk => Option.some.inj hk ▸ hq, nofun, nofun, nofun,
      fun L m hr hm => (by rw [hgot] at hm; cases hm), fun h => (by rw [he] at h; cases h)⟩

/-- A listener in `listen_user` before its answer. -/
theorem Proc.Ok.listener (h : P.Ok s) (hrole : P.role = .listener) (he : P.entered = false)
    {c : Pc} (hc : c = .listening ∨ c = .opening ∨ c = .accepting) {g : Option Msg}
    {peer : Option User} {mqd : Option ℕ}
    (hheard : c ≠ .listening → ∃ m, g = some m ∧ m.type = .start ∧ peer = some m.user)
    (hpeer : c = .accepting → ∃ q u, mqd = some q ∧ peer = some u ∧
      s.table.qname q = some (mqUserName u)) :
    Proc.Ok s { P with pc := c, got := g, peer := peer, mqdPeer := mqd } where
  fresh hpc := by
    obtain rfl : c = _ := hpc
    simp at hc
  listen := h.listen
  role _ := hrole
  heard hpc := by
    obtain rfl | rfl : c = _ ∨ c = _ := hpc <;> exact hheard (by simp)
  peer := hpeer
  vouched L m hr := by
    rw [hrole] at hr
    cases hr
  entered h := by
    rw [he] at h
    cases h

theorem Proc.Ok.hears (h : P.Ok s) (hpc : P.pc = .listening) (he : P.entered = false) (m : Msg) :
    (P.hears m).Ok s := by
  have hrole := h.role (.inl hpc)
  by_cases hm : m.type = .start
  · rw [Proc.hears, if_pos hm]
    exact h.listener hrole he (.inr (.inl rfl)) (fun _ => ⟨m, rfl, hm, rfl⟩) nofun
  · rw [Proc.hears, if_neg hm]
    have hok :
        Proc.Ok s { P with pc := P.pc, got := some m, peer := P.peer, mqdPeer := P.mqdPeer } :=
      h.listener hrole he (.inl hpc) (fun hne => absurd hpc hne)
        fun hc => (by rw [hpc] at hc; cases hc)
    exact hok

theorem Proc.Ok.openPeer (h : P.Ok s) (hpc : P.pc = .opening) (he : P.entered = false) {u : User}
    (hu : P.peer = some u) (hq : s.table.qname q = some (mqUserName u)) :
    Proc.Ok s { P with mqdPeer := some q, pc := .accepting } :=
  h.listener (h.role (.inr (.inl hpc))) he (.inr (.inr rfl)) (fun _ => h.heard (.inl hpc))
    fun _ => ⟨q, u, rfl, hu, hq⟩

/-- An invoker before the answer has received nothing. -/
theorem Proc.Ok.invoker (h : P.Ok s) (he : P.entered = false) {c : Pc}
    (hc : c = .asking ∨ c = .waiting) (mqd : Option ℕ) :
    Proc.Ok s { P with mqdPeer := mqd, pc := c } := by
  obtain rfl | rfl := hc
  · exact ⟨nofun, h.listen, nofun, nofun, nofun, h.vouched, fun h => (by rw [he] at h; cases h)⟩
  · exact ⟨nofun, h.listen, nofun, nofun, nofun, h.vouched, fun h => (by rw [he] at h; cases h)⟩

theorem Proc.Ok.startMessage (h : P.Ok s)
    (hgot : ∀ L, P.role = .invoker L → ∃ m, P.got = some m ∧ m.type = .accepted) :
    P.startMessage.Ok s :=
  ⟨nofun, h.listen, nofun, nofun, nofun, h.vouched, fun _ => ⟨trivial, hgot⟩⟩

theorem Proc.Ok.answered (h : P.Ok s) (hq : P.mqdListen = some q) (he : P.entered = false)
    {m : Msg} (hm : Vouched s q m) : (P.answered m).Ok s := by
  have hvouched : ∀ L m', P.role = .invoker L → some m = some m' →
      ∃ q, P.mqdListen = some q ∧ Vouched s q m' := by
    rintro L m' - hmm
    exact ⟨q, hq, Option.some.inj hmm ▸ hm⟩
  by_cases htype : m.type = .accepted
  · rw [Proc.answered, if_pos htype]
    exact ⟨nofun, h.listen, nofun, nofun, nofun, hvouched,
      fun _ => ⟨trivial, fun _ _ => ⟨m, rfl, htype⟩⟩⟩
  · rw [Proc.answered, if_neg htype]
    exact ⟨nofun, h.listen, nofun, nofun, nofun, hvouched, fun h => (by
      have : P.entered = true := h
      rw [he] at this
      cases this)⟩

/-! ### The step lemma -/

/-- **The invariant is kept.** -/
theorem keeps_of_move (h : Inv s) (hm : Move s a s') : Keeps s s' := by
  cases hm with
  | @new _ p user role hp =>
    have hext : Extends s (s.set p (.new user role)) :=
      extends_set (.refl _) fun P hP => by rw [hp] at hP; cases hP
    exact h.set h.table hext (Proc.ok_new _ user role) fun _ _ hm => .inl hm
  | @create _ p P hp hpc =>
    exact h.advance hp (by simp [hpc, Pc.Closed]) (h.table.link _) (h.table.later_link _)
      (fun he hok => hok.opened hpc he (Table.qname_link _ _))
      fun _ _ _ hm => .inl (Table.mem_of_mem_link hm)
  | @hears _ p P q m t hp hpc hq hr =>
    exact h.advance hp (by simp [hpc, Pc.Closed]) (h.table.receive hr) (Table.later_receive hr)
      (fun he hok => hok.hears hpc he m)
      fun _ _ _ hm => .inl (Table.mem_of_mem_receive hr hm)
  | @again _ p P hp hpc =>
    have hclosed : ¬ P.pc.Closed := by rcases hpc with hpc | hpc <;> simp [hpc, Pc.Closed]
    refine h.advance hp hclosed h.table (.refl _) (fun he hok => ?_) fun _ _ _ hm => .inl hm
    exact hok.listener (hok.role (.inr hpc)) he (.inl rfl) (fun hne => absurd rfl hne) nofun
  | @openPeer _ p P peer q hp hpc hpeer hq =>
    exact h.advance hp (by simp [hpc, Pc.Closed]) h.table (.refl _)
      (fun he hok => hok.openPeer hpc he hpeer (h.table.linked _ _ hq)) fun _ _ _ hm => .inl hm
  | @accept _ p P q t hp hpc hq hs =>
    have hok := h.procs p P hp
    have hrole := hok.role (.inr (.inr hpc))
    refine h.advance hp (by simp [hpc, Pc.Closed]) (h.table.send hs) (Table.later_send hs)
      (fun _ hok => hok.startMessage fun L hL => by rw [hrole] at hL; cases hL) fun hl k x hx => ?_
    rcases Table.mem_send hs hx with hold | ⟨rfl, rfl⟩
    · exact .inl hold
    · -- the message is new, and its sender has just finished its handshake
      obtain ⟨g, hgot, htype, hpeer⟩ := hok.heard (.inr hpc)
      obtain ⟨q', u, hq', hu, hname⟩ := hok.peer hpc
      obtain rfl : k = q' := Option.some.inj (hq.symm.trans hq')
      obtain rfl : g.user = u := Option.some.inj (hpeer.symm.trans hu)
      exact .inr fun _ => ⟨P.startMessage, g, State.set_procs_self _ _ _, trivial, hrole, rfl, hq,
        hgot, htype, hl _ _ hname⟩
  | @openInvoked _ p P q hp hpc =>
    exact h.advance hp (by simp [hpc, Pc.Closed]) h.table (.refl _)
      (fun he hok => hok.invoker he (.inl rfl) _) fun _ _ _ hm => .inl hm
  | @ask _ p P q t hp hpc hs =>
    refine h.advance hp (by simp [hpc, Pc.Closed]) (h.table.send hs) (Table.later_send hs)
      (fun he hok => hok.invoker he (.inr rfl) _) fun _ k x hx => ?_
    rcases Table.mem_send hs hx with hold | ⟨-, rfl⟩
    · exact .inl hold
    · exact .inr nofun
  | @answered p P q m t hp hpc hq hr =>
    have hl := Table.later_receive hr
    have hclosed : ¬ P.pc.Closed := by simp [hpc, Pc.Closed]
    have hext := extends_set hl (frozen_of_not_closed hp hclosed (P.answered m))
    refine h.advance hp hclosed (h.table.receive hr) hl (fun he hok => ?_)
      fun _ _ _ hm => .inl (Table.mem_of_mem_receive hr hm)
    exact hok.answered hq he ((h.msgs q m (Table.mem_of_receive hr)).mono hext)
  | @leave _ p P r hp => exact h.close hp .leaving trivial r h.table (.refl _) fun _ _ hm => hm
  | @unlinking _ p P hp hpc =>
    exact h.close hp .unlinking trivial P.receiving h.table (.refl _) fun _ _ hm => hm
  | @exit _ p P hp => exact h.close hp .gone trivial false h.table (.refl _) fun _ _ hm => hm
  | @orphan _ p P hp =>
    exact h.close hp .gone trivial false (h.table.link _) (h.table.later_link _)
      fun _ _ hm => Table.mem_of_mem_link hm
  | @unlink _ p P hp =>
    exact h.close hp .gone trivial false (h.table.unlink _) (fun _ _ h => h) fun _ _ hm => hm
  | @say _ p q u t hs =>
    have hext := extends_table (Table.later_send hs)
    refine ⟨hext, h.table.send hs, fun k Q hk => (h.procs k Q hk).mono hext, fun k x hx => ?_⟩
    rcases Table.mem_send hs hx with hold | ⟨-, rfl⟩
    · exact (h.msgs k x hold).mono hext
    · exact nofun
  | @hear _ q m t hr =>
    have hext := extends_table (Table.later_receive hr)
    exact ⟨hext, h.table.receive hr, fun k Q hk => (h.procs k Q hk).mono hext, fun k x hx =>
      (h.msgs k x (Table.mem_of_mem_receive hr hx)).mono hext⟩
  | stay => exact ⟨extends_table (.refl _), h⟩

end Steps

theorem inv_start : Inv start where
  table := .empty
  procs _ _ hp := by cases hp
  msgs _ _ hm := by cases hm

theorem keeps_of_step {s s' : State} {a : Label} (h : Inv s) (hstep : machine.step s a = some s') :
    Keeps s s' :=
  keeps_of_move h (move_of_step hstep)

/-- **The invariant holds in every reachable state.** -/
theorem inv_of_reachable {s : State} (h : machine.Reachable s) : Inv s :=
  h.invariant (fun _ h₀ => h₀ ▸ inv_start) fun _ _ _ h hstep => (keeps_of_step h hstep).2

/-! ### Agreement -/

/-- Every invoker that has entered `start_message` did so on an `ACCEPTED` message from a listener
of the user it asked for, which received a `START` with the invoker's name and has the invoker's
queue as its peer queue. -/
def Agreed (s : State) : Prop :=
  ∀ i I L, s.procs i = some I → I.role = .invoker L → I.entered = true →
    ∃ m P g q, I.got = some m ∧ m.type = .accepted ∧ s.procs m.sender = some P ∧
      P.role = .listener ∧ P.user = L ∧ P.got = some g ∧ g.type = .start ∧ g.user = I.user ∧
      P.mqdPeer = some q ∧ I.mqdListen = some q

/-- The step is not one of an invoker that takes an `ACCEPTED` message with another name than that
of the user it asked for. -/
def FromPeer (s : State) : Label → Prop
  | .run i => ∀ I L q m t, s.procs i = some I → I.pc = .waiting → I.role = .invoker L →
      I.mqdListen = some q → s.table.receive q = some (m, t) → m.type = .accepted → m.user = L
  | _ => True

theorem fromPeer_run_iff {s : State} {i : ℕ} : FromPeer s (.run i) ↔
    ∀ I ∈ s.procs i, ∀ q ∈ I.mqdListen, ∀ r ∈ s.table.receive q, I.pc = .waiting →
      r.1.type = .accepted → I.role = .listener ∨ I.role = .invoker r.1.user := by
  constructor
  · intro h I hI q hq r hr hpc htype
    cases hrole : I.role with
    | listener => exact .inl rfl
    | invoker L => exact .inr (by rw [h I L q r.1 r.2 hI hpc hrole hq hr htype])
  · intro h I L q m t hI hpc hrole hq hr htype
    rcases h I hI q hq (m, t) hr hpc htype with h' | h'
    · cases hrole.symm.trans h'
    · exact (Role.invoker.inj (hrole.symm.trans h')).symm

instance FromPeer.decidable (s : State) : ∀ a, Decidable (FromPeer s a)
  | .run _ => decidable_of_iff _ fromPeer_run_iff.symm
  | .start _ _ _ | .fail _ | .say _ | .hear _ | .signal _ => isTrue trivial

/-- The message every invoker entered `start_message` with has the name it asked for. -/
def NamesMatch (s : State) : Prop :=
  ∀ i I L m, s.procs i = some I → I.role = .invoker L → I.entered = true → I.got = some m →
    m.user = L

theorem namesMatch_start : NamesMatch start := fun _ _ _ _ hi => by cases hi

section Agreement

variable {s s' : State} {a : Label}

/-- Given what an `ACCEPTED` message proves, only the names are left to compare. -/
theorem agreed_iff_namesMatch (h : Inv s) : Agreed s ↔ NamesMatch s := by
  constructor
  · intro hagreed i I L m hi hrole he hm
    obtain ⟨m', P, g, q, hm', htype, hP, -, huser, -⟩ := hagreed i I L hi hrole he
    obtain rfl : m = m' := Option.some.inj (hm.symm.trans hm')
    obtain ⟨q, -, hv⟩ := (h.procs i I hi).vouched L m hrole hm
    obtain ⟨P', -, hP', -, -, huser', -⟩ := hv htype
    obtain rfl : P = P' := Option.some.inj (hP.symm.trans hP')
    exact huser'.symm.trans huser
  · intro hmatch i I L hi hrole he
    have hok := h.procs i I hi
    obtain ⟨m, hm, htype⟩ := (hok.entered he).2 L hrole
    obtain ⟨q, hq, hv⟩ := hok.vouched L m hrole hm
    obtain ⟨P, g, hP, -, hlistener, huser, hpeer, hg, hstart, hname⟩ := hv htype
    have hnames : mqUserName g.user = mqUserName I.user :=
      Option.some.inj (hname.symm.trans (hok.listen q hq))
    exact ⟨m, P, g, q, hm, htype, hP, hlistener, huser.trans (hmatch i I L m hi hrole he hm), hg,
      hstart, mqUserName_injective hnames, hpeer, hq⟩

/-- `I` is an invoker of `L` that entered `start_message` with the message `m`. -/
def Proc.EnteredWith (I : Proc) (L : User) (m : Msg) : Prop :=
  I.role = .invoker L ∧ I.entered = true ∧ I.got = some m

theorem procs_set_cases {p i : ℕ} {P' I : Proc} (hi : (s.set p P').procs i = some I) :
    s.procs i = some I ∨ (i = p ∧ P' = I) := by
  by_cases hip : i = p
  · subst hip
    rw [State.set_procs_self] at hi
    exact .inr ⟨rfl, Option.some.inj hi⟩
  · rw [State.set_procs_of_ne s hip] at hi
    exact .inl hi

/-- A step of a process that changes nothing an invoker entered `start_message` with. -/
theorem enteredWith_of_set {p i : ℕ} {P P' I : Proc} {L : User} {m : Msg} (hp : s.procs p = some P)
    (hi : (s.set p P').procs i = some I) (hI : I.EnteredWith L m)
    (hkeep : P'.EnteredWith L m → P.EnteredWith L m) :
    ∃ J, s.procs i = some J ∧ J.EnteredWith L m := by
  rcases procs_set_cases hi with hold | ⟨rfl, rfl⟩
  · exact ⟨I, hold, hI⟩
  · exact ⟨P, hp, hkeep hI⟩

theorem Proc.entered_hears (P : Proc) (m : Msg) : (P.hears m).entered = P.entered := by
  rw [Proc.hears]
  split <;> rfl

/-- An invoker that is in `start_message` after a step was there before, or enters it in this
step. -/
theorem enteredWith_of_move (h : Inv s) (hm : Move s a s') {i : ℕ} {I : Proc} {L : User} {m : Msg}
    (hi : s'.procs i = some I) (hI : I.EnteredWith L m) :
    (∃ J, s.procs i = some J ∧ J.EnteredWith L m) ∨
      (a = .run i ∧ ∃ J q t, s.procs i = some J ∧ J.pc = .waiting ∧ J.role = .invoker L ∧
        J.mqdListen = some q ∧ s.table.receive q = some (m, t) ∧ m.type = .accepted) := by
  cases hm with
  | new hp =>
    rcases procs_set_cases hi with hold | ⟨rfl, rfl⟩
    · exact .inl ⟨I, hold, hI⟩
    · exact absurd hI.2.1 (by simp [Proc.new])
  | @hears _ p P q x t hp hpc hq hr =>
    refine .inl (enteredWith_of_set hp hi hI fun hP => ?_)
    have hno := h.not_entered hp (by simp [hpc, Pc.Closed])
    rw [← P.entered_hears x, hP.2.1] at hno
    cases hno
  | @accept _ p P q t hp hpc hq hs =>
    refine .inl (enteredWith_of_set hp hi hI fun hP => ?_)
    have hrole : P.startMessage.role = .listener := (h.procs p P hp).role (.inr (.inr hpc))
    cases hrole.symm.trans hP.1
  | @answered p P q x t hp hpc hq hr =>
    rcases procs_set_cases hi with hold | ⟨rfl, rfl⟩
    · exact .inl ⟨I, hold, hI⟩
    · by_cases htype : x.type = .accepted
      · rw [Proc.answered, if_pos htype] at hI
        obtain rfl : x = m := Option.some.inj hI.2.2
        exact .inr ⟨rfl, P, q, t, hp, hpc, hI.1, hq, hr, htype⟩
      · have hno := h.not_entered hp (by simp [hpc, Pc.Closed])
        rw [Proc.answered, if_neg htype] at hI
        exact absurd hI.2.1 (by simp [Proc.exitErr, hno])
  -- the others change neither role, `entered` nor `got` of the process
  | create hp | again hp | openPeer hp | openInvoked hp | ask hp | leave hp | unlinking hp
  | exit hp | orphan hp | unlink hp => exact .inl (enteredWith_of_set hp hi hI fun h => h)
  | say | hear | stay => exact .inl ⟨I, hi, hI⟩

/-- The names keep matching as long as the messages come from the peer. -/
theorem namesMatch_step (h : Inv s) (hmatch : NamesMatch s) (hpeer : FromPeer s a)
    (hstep : machine.step s a = some s') : NamesMatch s' := by
  intro i I L m hi hrole he hgot
  rcases enteredWith_of_move h (move_of_step hstep) hi ⟨hrole, he, hgot⟩ with
    ⟨J, hJ, hr, he, hg⟩ | ⟨rfl, J, q, t, hJ, hpc, hr, hq, hrecv, htype⟩
  · exact hmatch i J L m hJ hr he hg
  · exact hpeer J L q m t hJ hpc hr hq hrecv htype

/-- A message from somebody else makes them differ. -/
theorem not_namesMatch_of_step (hpeer : ¬ FromPeer s a) (hstep : machine.step s a = some s') :
    ¬ NamesMatch s' := by
  cases a with
  | run i =>
    simp only [FromPeer, not_forall] at hpeer
    obtain ⟨I, L, q, m, t, hi, hpc, hrole, hq, hrecv, htype, hne⟩ := hpeer
    have hs' : s' = { s.set i (I.answered m) with table := t } := by
      simpa [machine, State.step, hi, State.run, hpc, hq, hrecv] using hstep.symm
    have hans : I.answered m = ({ I with got := some m }).startMessage := if_pos htype
    intro hmatch
    refine hne (hmatch i (I.answered m) L m ?_ ?_ ?_ ?_)
    · rw [hs']
      exact State.set_procs_self _ _ _
    all_goals rw [hans]
    · exact hrole
    · rfl
    · rfl
  | start | fail | say | hear | signal => exact absurd trivial hpeer

/-- What an invoker entered `start_message` with stays. -/
theorem not_namesMatch_mono (h : Inv s) (hmatch : ¬ NamesMatch s) (hext : Extends s s') :
    ¬ NamesMatch s' := by
  intro hmatch'
  refine hmatch fun i I L m hi hrole he hgot => ?_
  obtain ⟨I', hi', hf⟩ := hext.procs i I hi ((h.procs i I hi).entered he).1
  exact hmatch' i I' L m hi' (hf.role.trans hrole) (hf.entered.trans he) (hf.got.trans hgot)

end Agreement

/-- **When invoker and listener agree.** After a run, every invoker that has entered
`start_message` was accepted by the listener it asked for if and only if no invoker of the run took
an `ACCEPTED` message with another name. -/
theorem agreed_iff_fromPeer {s : State} {tr : List (State × Label)}
    (hrun : machine.Run start tr s) : Agreed s ↔ ∀ p ∈ tr, FromPeer p.1 p.2 := by
  have hinv : Inv s := hrun.invariant (fun _ _ _ h hstep => (keeps_of_step h hstep).2) inv_start
  rw [agreed_iff_namesMatch hinv]
  constructor
  · intro hmatch p hp
    by_contra hpeer
    refine hrun.absorb (G := FromPeer) (D := fun s => ¬ NamesMatch s)
      (fun _ _ _ h hstep => (keeps_of_step h hstep).2)
      (fun _ _ _ _ hbad hstep => not_namesMatch_of_step hbad hstep)
      (fun _ _ _ h hD hstep => not_namesMatch_mono h hD (keeps_of_step h hstep).1) inv_start
      ⟨p, hp, hpeer⟩ hmatch
  · intro hpeer
    have hboth : Inv s ∧ NamesMatch s := by
      refine hrun.invariant_of_forall (I := fun s => Inv s ∧ NamesMatch s) (G := FromPeer)
        (fun s a s' h hG hstep => ?_) hpeer ⟨inv_start, namesMatch_start⟩
      exact ⟨(keeps_of_step h.1 hstep).2, namesMatch_step h.1 h.2 hG hstep⟩
    exact hboth.2

/-- The users `a`, `l` and `m`. -/
def userA : User := ⟨[97], by decide⟩

@[inherit_doc userA] def userL : User := ⟨[108], by decide⟩

@[inherit_doc userA] def userM : User := ⟨[109], by decide⟩

/-- Process `p` of a user creates its queue. -/
def begin (p : ℕ) (user : User) (role : Role) : List Label := [.start p user role, .run p]

/-- Invoker `i` opens the queue of its peer and sends its `START`. -/
def ask (i : ℕ) : List Label := [.run i, .run i]

/-- Listener `l` takes a `START`, opens the queue of its sender and sends `ACCEPTED`. -/
def answer (l : ℕ) : List Label := [.run l, .run l, .run l]

/-- `l` listens and accepts `a`. -/
def oneCall : List Label :=
  begin 0 userL .listener ++ begin 1 userA (.invoker userL) ++ ask 1 ++ answer 0 ++ [.run 1]

/-- What is looked at in a process. -/
def Proc.summary (P : Proc) : User × Role × Bool × Option ℕ :=
  (P.user, P.role, P.entered, P.got.map Msg.sender)

theorem agreed_iff_fromPeer_oneCall :
    ∃ tr s, machine.Run start tr s ∧
      (s.procs 1).map Proc.summary = some (userA, .invoker userL, true, some 0) ∧ Agreed s := by
  have hend : (machine.exec start oneCall).map (fun s => (s.procs 1).map Proc.summary) =
      some (some (userA, .invoker userL, true, some 0)) := by
    decide +kernel
  obtain ⟨s, hexec, hI⟩ := Option.map_eq_some_iff.mp hend
  have hrun := Machine.run_of_exec hexec
  have hpeer : ∀ p ∈ machine.trace start oneCall, FromPeer p.1 p.2 := by decide +kernel
  exact ⟨_, s, hrun, hI, (agreed_iff_fromPeer hrun).mpr hpeer⟩

/-- `a` asks `m`, quits, and asks `l`; then `m` answers the question it was asked first. -/
def lateAnswer : List Label :=
  begin 0 userM .listener ++ begin 1 userA (.invoker userM) ++ ask 1 ++
    [.signal 1, .run 1, .run 1] ++
    begin 2 userL .listener ++ begin 3 userA (.invoker userL) ++ ask 3 ++ answer 0 ++ [.run 3]

/-- The invoker of `l` enters `start_message` on the answer of `m`. -/
theorem not_agreed : ¬ ∀ s, machine.Reachable s → Agreed s := by
  intro h
  have hend : (machine.exec start lateAnswer).map (fun s => (s.procs 3).map Proc.summary) =
      some (some (userA, .invoker userL, true, some 0)) := by
    decide +kernel
  have hend' : (machine.exec start lateAnswer).map (fun s => (s.procs 0).map Proc.user) =
      some (some userM) := by
    decide +kernel
  obtain ⟨s, hexec, hI⟩ := Option.map_eq_some_iff.mp hend
  rw [hexec] at hend'
  obtain ⟨I, hI, hsum⟩ := Option.map_eq_some_iff.mp hI
  obtain ⟨M, hM, huser⟩ := Option.map_eq_some_iff.mp (Option.some.inj hend')
  simp only [Proc.summary, Prod.mk.injEq] at hsum
  obtain ⟨-, hrole, he, hsender⟩ := hsum
  obtain ⟨m, P, -, -, hm, -, hP, -, hL, -⟩ :=
    h s (Machine.reachable_of_exec rfl hexec) 3 I userL hI hrole he
  have hzero : m.sender = 0 := by simpa [hm] using hsender
  rw [hzero, hM] at hP
  rw [← Option.some.inj hP, huser] at hL
  exact absurd hL (by decide)

end Chat

end Tlpiexer
