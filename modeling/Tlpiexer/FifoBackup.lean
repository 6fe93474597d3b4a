import Tlpiexer.Foundations.CString
import Tlpiexer.Foundations.Layout
import Tlpiexer.Foundations.Transition

/-!
# A sequence-number server that keeps its number in a file

`tlpi/pipes/fifo_seqnum_server_44-3.c`. The server answers a request with `seqNum`, adds the length
that was asked for, and writes the sum over the start of `BAK_FILE`. When it is started it takes
up the number it finds there.

The server may die anywhere (`Label.crash`), by a signal or in one of its `errExit`s, and be
started again. The file outlives it; the FIFO and the clients are not modelled beyond the request
that is read and whether the answer gets through.

## When a number is handed out again

The answer goes out before the backup is written. `log` records each answer, newest first, and
whether the backup that belongs to it was written (`Grant.kept`). The number of a grant is the sum
of the kept lengths before it, over all crashes (`Granted`): the numbers of a kept grant
are never given to anybody else, and those of one that was not kept are given to the next client.

## Short writes

Only the answer `-1` of the `write` is looked at. A shorter write leaves a mixture of two numbers
in the file. `Label.Full` excludes it.

## Main results

* `recover_save` — what a restarted server reads back
* `grants_after_crashes` — which numbers are handed out twice
-/

namespace Tlpiexer

namespace FifoBackup

open CString Layout Transition

/-- An `int`; the `seqNum += req.seqLen` wraps around. -/
abbrev CInt := BitVec (8 * 4)

/-! ### The program -/

/-- An answer that the server sent. -/
structure Grant where
  start : CInt
  len : CInt
  /-- The `write` to the client's FIFO wrote all of it. -/
  sent : Bool
  /-- The backup behind it was written. -/
  kept : Bool

/-- Where the server is. -/
inductive Server
  | down
  /-- At the `read` of the next request. -/
  | loop (seqNum : CInt)
  /-- With the client's FIFO open, at the `write` of the response. -/
  | respond (seqNum seqLen : CInt)
  /-- At `seqNum += req.seqLen`. -/
  | add (seqNum seqLen : CInt)
  /-- At the `write` of the backup, behind its `lseek`. -/
  | save (seqNum : CInt)

/-- The server, the file, and the answers given. -/
structure State where
  /-- The contents of `BAK_FILE`, if it exists. -/
  file : Option Bytes
  server : Server
  /-- Newest first. -/
  log : List Grant

/-- What happens next. -/
inductive Label
  /-- The server is started and gets to its loop. -/
  | start
  /-- The server dies. -/
  | crash
  /-- A request is read and the client's FIFO opened. -/
  | request (seqLen : CInt)
  /-- The request is discarded: its `read` is short, or the FIFO cannot be opened. -/
  | discard
  /-- The response is written, completely or not. -/
  | respond (sent : Bool)
  | add
  /-- The `write` of the backup writes `n` bytes. -/
  | save (n : ℕ)

/-- `seqNum` after `read(bak_fd, &seqNum, sizeof(seqNum))`; it was 0. -/
def recover (file : Bytes) : CInt := ofBytes 4 (overlay (toBytes 4 0) (file.take 4))

/-- The file after `write(bak_fd, &seqNum, sizeof(seqNum))` wrote `n` bytes at its start. -/
def backup (file : Bytes) (seqNum : CInt) (n : ℕ) : Bytes :=
  overlay file ((toBytes 4 seqNum).take n)

/-- The newest grant is now kept. -/
def keep : List Grant → List Grant
  | [] => []
  | g :: log => { g with kept := true } :: log

/-- One step of the program. -/
def State.step (s : State) : Label → Option State
  | .start =>
    match s.server with
    | .down =>
      match s.file with
      | none => some { s with file := some [], server := .loop 0 }
      | some file => some { s with server := .loop (recover file) }
    | _ => none
  | .crash => some { s with server := .down }
  | .request seqLen =>
    match s.server with
    | .loop seqNum => some { s with server := .respond seqNum seqLen }
    | _ => none
  | .discard =>
    match s.server with
    | .loop _ => some s
    | _ => none
  | .respond sent =>
    match s.server with
    | .respond seqNum seqLen =>
      some { s with
        server := .add seqNum seqLen
        log := ⟨seqNum, seqLen, sent, false⟩ :: s.log }
    | _ => none
  | .add =>
    match s.server with
    | .add seqNum seqLen => some { s with server := .save (seqNum + seqLen) }
    | _ => none
  | .save n =>
    match s.server, s.file with
    | .save seqNum, some file =>
      some { file := some (backup file seqNum n), server := .loop seqNum, log := keep s.log }
    | _, _ => none

/-- The server before it was ever started. -/
def machine : Machine State Label where
  init s := s = ⟨none, .down, []⟩
  step := State.step

/-- The `write` of a backup writes all of it. -/
def Label.Full : Label → Prop
  | .save n => 4 ≤ n
  | _ => True

/-! ### What one step can do -/

/-- The steps of the program whose backups are written completely. -/
inductive Move (s : State) : Label → State → Prop
  | create (hserver : s.server = .down) (hfile : s.file = none) :
      Move s .start { s with file := some [], server := .loop 0 }
  | recover {file : Bytes} (hserver : s.server = .down) (hfile : s.file = some file) :
      Move s .start { s with server := .loop (recover file) }
  | crash : Move s .crash { s with server := .down }
  | request {seqNum : CInt} (seqLen : CInt) (hserver : s.server = .loop seqNum) :
      Move s (.request seqLen) { s with server := .respond seqNum seqLen }
  | discard : Move s .discard s
  | respond {seqNum seqLen : CInt} (sent : Bool) (hserver : s.server = .respond seqNum seqLen) :
      Move s (.respond sent) { s with
        server := .add seqNum seqLen
        log := ⟨seqNum, seqLen, sent, false⟩ :: s.log }
  | add {seqNum seqLen : CInt} (hserver : s.server = .add seqNum seqLen) :
      Move s .add { s with server := .save (seqNum + seqLen) }
  | save {seqNum : CInt} {file : Bytes} (n : ℕ) (hserver : s.server = .save seqNum)
      (hfile : s.file = some file) :
      Move s (.save n)
        { file := some (backup file seqNum 4), server := .loop seqNum, log := keep s.log }

theorem backup_of_le (file : Bytes) (seqNum : CInt) {n : ℕ} (hn : 4 ≤ n) :
    backup file seqNum n = backup file seqNum 4 := by
  have hlen : (toBytes 4 seqNum).length ≤ 4 := (length_toBytes 4 seqNum).le
  rw [backup, backup, List.take_of_length_le (hlen.trans hn), List.take_of_length_le hlen]

theorem move_of_step {s s' : State} {a : Label} (hfull : a.Full) (h : s.step a = some s') :
    Move s a s' := by
  cases a with
  | start =>
    rw [State.step] at h
    split at h
    case h_1 hserver =>
      split at h
      case h_1 hfile => cases h; exact .create hserver hfile
      case h_2 hfile => cases h; exact .recover hserver hfile
    case h_2 => cases h
  | crash => cases h; exact .crash
  | request seqLen =>
    rw [State.step] at h
    split at h
    case h_1 hserver => cases h; exact .request seqLen hserver
    case h_2 => cases h
  | discard =>
    rw [State.step] at h
    split at h
    case h_1 => cases h; exact .discard
    case h_2 => cases h
  | respond sent =>
    rw [State.step] at h
    split at h
    case h_1 hserver => cases h; exact .respond sent hserver
    case h_2 => cases h
  | add =>
    rw [State.step] at h
    split at h
    case h_1 hserver => cases h; exact .add hserver
    case h_2 => cases h
  | save n =>
    rw [State.step] at h
    split at h
    case h_1 hserver hfile =>
      cases h
      rw [backup_of_le _ _ hfull]
      exact .save n hserver hfile
    case h_2 => cases h

/-! ### The file -/

/-- **A restarted server reads back what was saved**, whatever was in the file before. -/
theorem recover_save (file : Bytes) (seqNum : CInt) : recover (backup file seqNum 4) = seqNum := by
  have hlen : (toBytes 4 seqNum).length = 4 := length_toBytes 4 seqNum
  have hfile : (backup file seqNum 4).take 4 = toBytes 4 seqNum := by
    rw [backup, List.take_of_length_le hlen.le, overlay, List.take_append_of_le_length hlen.ge,
      List.take_of_length_le hlen.le]
  rw [recover, hfile, overlay, hlen, List.drop_of_length_le (length_toBytes 4 0).le,
    List.append_nil, ofBytes_toBytes]

theorem recover_nil : recover [] = 0 := by decide

/-! ### The numbers -/

/-- The sum of the lengths of the kept grants. -/
def keptLen : List Grant → ℕ
  | [] => 0
  | g :: log => (if g.kept then g.len.toNat else 0) + keptLen log

/-- The sum of the lengths of all grants. -/
def totalLen : List Grant → ℕ
  | [] => 0
  | g :: log => g.len.toNat + totalLen log

@[simp] theorem keptLen_append (log log' : List Grant) :
    keptLen (log ++ log') = keptLen log + keptLen log' := by
  induction log with
  | nil => simp [keptLen]
  | cons g log ih => rw [List.cons_append, keptLen, keptLen, ih, Nat.add_assoc]

theorem keptLen_le_totalLen (log : List Grant) : keptLen log ≤ totalLen log := by
  induction log with
  | nil => exact Nat.le_refl 0
  | cons g log ih =>
    rw [keptLen, totalLen]
    exact Nat.add_le_add (by split <;> omega) ih

/-- Every grant starts behind the kept ones before it. -/
def Granted : List Grant → Prop
  | [] => True
  | g :: log => g.start = BitVec.ofNat _ (keptLen log) ∧ Granted log

/-- The number the server works with, place by place. -/
def ServerInv (log : List Grant) : Server → Prop
  | .down => True
  | .loop seqNum => seqNum = BitVec.ofNat _ (keptLen log)
  | .respond seqNum _ => seqNum = BitVec.ofNat _ (keptLen log)
  | .add seqNum seqLen => ∃ sent rest, log = ⟨seqNum, seqLen, sent, false⟩ :: rest
  | .save seqNum => ∃ start seqLen sent rest, log = ⟨start, seqLen, sent, false⟩ :: rest ∧
      seqNum = start + seqLen

/-- What holds with every backup written completely. -/
structure Inv (s : State) : Prop where
  granted : Granted s.log
  server : ServerInv s.log s.server
  /-- Without a file nothing was kept. -/
  absent : s.file = none → keptLen s.log = 0
  /-- The file has the number to go on with. -/
  file : ∀ file, s.file = some file → recover file = BitVec.ofNat _ (keptLen s.log)

/-- The number behind a grant is the one behind the kept grants once it is kept. -/
theorem start_add_len {log : List Grant} {start seqLen : CInt}
    (h : start = BitVec.ofNat _ (keptLen log)) :
    start + seqLen = BitVec.ofNat _ (seqLen.toNat + keptLen log) := by
  rw [h, Nat.add_comm, BitVec.ofNat_add, BitVec.ofNat_toNat, BitVec.setWidth_eq]

theorem inv_step {s s' : State} {a : Label} (hs : Inv s) (h : Move s a s') : Inv s' := by
  cases h with
  | create hserver hfile =>
    have hzero := hs.absent hfile
    refine ⟨hs.granted, ?_, by simp, fun file hf => ?_⟩
    · show (0 : CInt) = BitVec.ofNat _ (keptLen s.log)
      rw [hzero]
      rfl
    · rw [← Option.some.inj hf, recover_nil, hzero]
      rfl
  | recover hserver hfile => exact ⟨hs.granted, hs.file _ hfile, hs.absent, hs.file⟩
  | crash => exact ⟨hs.granted, trivial, hs.absent, hs.file⟩
  | request seqLen hserver =>
    have hinv := hs.server
    rw [hserver] at hinv
    exact ⟨hs.granted, hinv, hs.absent, hs.file⟩
  | discard => exact hs
  | @respond seqNum seqLen sent hserver =>
    have hinv := hs.server
    rw [hserver] at hinv
    have hkept : keptLen (⟨seqNum, seqLen, sent, false⟩ :: s.log) = keptLen s.log := by
      simp [keptLen]
    refine ⟨⟨hinv, hs.granted⟩, ⟨sent, s.log, rfl⟩, fun hf => ?_, fun file hf => ?_⟩
    · exact hkept.trans (hs.absent hf)
    · exact (hs.file file hf).trans (congrArg _ hkept.symm)
  | add hserver =>
    have hinv := hs.server
    rw [hserver] at hinv
    obtain ⟨sent, rest, hlog⟩ := hinv
    exact ⟨hs.granted, ⟨_, _, sent, rest, hlog, rfl⟩, hs.absent, hs.file⟩
  | save n hserver hfile =>
    have hinv := hs.server
    rw [hserver] at hinv
    obtain ⟨start, seqLen, sent, rest, hlog, rfl⟩ := hinv
    have hgranted := hs.granted
    rw [hlog] at hgranted
    have hnext : start + seqLen = BitVec.ofNat _ (keptLen (keep s.log)) := by
      rw [hlog]
      exact start_add_len hgranted.1
    refine ⟨?_, hnext, by simp, fun file hf => ?_⟩
    · show Granted (keep s.log)
      rw [hlog]
      exact hgranted
    · rw [← Option.some.inj hf, recover_save]
      exact hnext

theorem inv_of_run {s₀ s : State} {tr : List (State × Label)} (h₀ : machine.init s₀)
    (hrun : machine.Run s₀ tr s) (hfull : ∀ p ∈ tr, p.2.Full) : Inv s := by
  refine hrun.invariant_of_forall (I := Inv) (G := fun _ a => a.Full)
    (fun s a s' hs hG hstep => inv_step hs (move_of_step hG hstep)) hfull ?_
  rw [h₀]
  exact ⟨trivial, trivial, fun _ => rfl, fun _ h => by cases h⟩

/-! ### Which numbers are handed out twice -/

theorem Granted.start {after before : List Grant} {g : Grant}
    (h : Granted (after ++ g :: before)) : g.start = BitVec.ofNat _ (keptLen before) := by
  induction after with
  | nil => exact h.1
  | cons g' after ih => exact ih h.2

/-- The number of grants that were not kept. -/
def lost (log : List Grant) : ℕ := log.countP fun g => !g.kept

/-- The newest grant may still be kept. -/
def Server.pending : Server → ℕ
  | .add _ _ => 1
  | .save _ => 1
  | _ => 0

/-- The server dies. -/
def Label.isCrash : Label → Bool
  | .crash => true
  | _ => false

/-- How often the server died. -/
def crashes (tr : List (State × Label)) : ℕ := tr.countP fun p => p.2.isCrash

theorem lost_step {s s' : State} {a : Label} (hs : Inv s) (h : Move s a s') :
    lost s'.log + s.server.pending ≤
      lost s.log + s'.server.pending + if a.isCrash then 1 else 0 := by
  cases h with
  | create hserver _ => simp [hserver, Server.pending]
  | recover hserver _ => simp [hserver, Server.pending]
  | crash => cases s.server <;> simp [Server.pending, Label.isCrash]
  | request _ hserver => simp [hserver, Server.pending]
  | discard => simp
  | respond _ hserver => simp [hserver, Server.pending, lost]
  | add hserver => simp [hserver, Server.pending]
  | save n hserver _ =>
    have hinv := hs.server
    rw [hserver] at hinv
    obtain ⟨start, seqLen, sent, rest, hlog, -⟩ := hinv
    simp [hserver, hlog, keep, Server.pending, lost]

/-- At most one grant is lost with every crash. -/
theorem lost_le_crashes {s₀ s : State} {tr : List (State × Label)} (h₀ : machine.init s₀)
    (hrun : machine.Run s₀ tr s) (hfull : ∀ p ∈ tr, p.2.Full) :
    lost s.log ≤ crashes tr + s.server.pending := by
  induction hrun with
  | nil =>
    rw [h₀]
    exact Nat.zero_le _
  | @snoc tr s s' a hrun hstep ih =>
    have hfull' : ∀ p ∈ tr, p.2.Full := fun p hp => hfull p (List.mem_append_left _ hp)
    have hmove : Move s a s' := move_of_step (hfull (s, a) (by simp)) hstep
    have hle := lost_step (inv_of_run h₀ hrun hfull') hmove
    have hcount : crashes (tr ++ [(s, a)]) = crashes tr + if a.isCrash then 1 else 0 := by
      rw [crashes, List.countP_append, List.countP_singleton]
      rfl
    have := ih hfull'
    omega

/-- **Which numbers are handed out twice.** The server may die and be started again any number of
times, anywhere, as long as its backups are written completely. Of any two answers, the later one
starts behind the numbers of the earlier one if the backup behind that was written. If it was not,
the later one starts as far behind the start of the earlier one as answers between them were kept,
and the very next answer has the same number. There are at most as many such answers as crashes,
apart from one that is just being given. -/
theorem grants_after_crashes {s₀ s : State} {tr : List (State × Label)} (h₀ : machine.init s₀)
    (hrun : machine.Run s₀ tr s) (hfull : ∀ p ∈ tr, p.2.Full)
    (hbound : totalLen s.log < 2 ^ 32) :
    (∀ after later between earlier before,
      s.log = after ++ later :: (between ++ earlier :: before) →
        later.start.toNat = earlier.start.toNat +
          (if earlier.kept then earlier.len.toNat else 0) + keptLen between) ∧
      lost s.log ≤ crashes tr + s.server.pending := by
  refine ⟨fun after later between earlier before hlog => ?_, lost_le_crashes h₀ hrun hfull⟩
  have hgranted := (inv_of_run h₀ hrun hfull).granted
  have hlater : later.start = _ := Granted.start (hlog ▸ hgranted)
  have hlog' : s.log = (after ++ later :: between) ++ earlier :: before := by
    rw [hlog, List.append_assoc, List.cons_append]
  have hearlier : earlier.start = BitVec.ofNat _ (keptLen before) :=
    Granted.start (hlog' ▸ hgranted)
  have hle := (keptLen_le_totalLen s.log).trans_lt hbound
  rw [hlog, keptLen_append, keptLen, keptLen_append, keptLen] at hle
  rw [hlater, hearlier, BitVec.toNat_ofNat, BitVec.toNat_ofNat, keptLen_append, keptLen,
    Nat.mod_eq_of_lt (by omega), Nat.mod_eq_of_lt (by omega)]
  omega

/-- The server answers a request for five numbers, dies before the backup, is started again, and
answers and saves two more requests. -/
def dieOnce : List Label :=
  [.start, .request 5, .respond true, .add, .crash, .start, .request 3, .respond true, .add,
    .save 4, .request 2, .respond true]

/-- Three answers: 0, 0 again, and 3. -/
theorem grants_after_crashes_dieOnce :
    ∃ tr s, machine.Run ⟨none, .down, []⟩ tr s ∧
      s.log.map (fun g => (g.start.toNat, g.kept)) = [(3, false), (0, true), (0, false)] ∧
      ((∀ after later between earlier before,
        s.log = after ++ later :: (between ++ earlier :: before) →
          later.start.toNat = earlier.start.toNat +
            (if earlier.kept then earlier.len.toNat else 0) + keptLen between) ∧
        lost s.log ≤ crashes tr + s.server.pending) := by
  have hexec : ∃ s, machine.exec ⟨none, .down, []⟩ dieOnce = some s ∧ totalLen s.log < 2 ^ 32 ∧
      s.log.map (fun g => (g.start.toNat, g.kept)) = [(3, false), (0, true), (0, false)] :=
    ⟨_, rfl, by decide, by decide⟩
  obtain ⟨s, hexec, hbound, hlog⟩ := hexec
  have hrun := Machine.run_of_exec hexec
  have hfull : ∀ p ∈ machine.trace ⟨none, .down, []⟩ dieOnce, p.2.Full := by
    have hlabels : ∀ a ∈ dieOnce, a.Full := by simp [dieOnce, Label.Full]
    intro p hp
    refine hlabels p.2 ?_
    rw [← Machine.map_snd_trace hexec]
    exact List.mem_map_of_mem hp
  exact ⟨_, s, hrun, hlog, grants_after_crashes rfl hrun hfull hbound⟩

end FifoBackup

end Tlpiexer
