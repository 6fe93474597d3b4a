import Tlpiexer.Foundations.CString
import Tlpiexer.Foundations.Progress

/-!
# The echo client and the echo server

`tlpi/sockets/is_echo_cl_61-1.c` against `handleRequest` of `tlpi/sockets/is_echo_sv_60-1.c`. The
client sends all of its standard input, shuts its half of the connection down, and only then reads
and prints what comes back. The server sends every block back before it reads the next one.

## Buffers

Between the two lie the buffers of the connection, one for each direction, with room for `up` and
`down` bytes. A `write` blocks while its buffer is full and goes on as room appears, so it is many
steps (`send`, `echoWrite`); a `read` takes any part of what has arrived, up to the size of its
array.

While the client sends, nobody reads what comes back. Once the way back is full the server waits
in its `write`, then the way there fills up, and then the client waits in its own.

## How much fits

The data that can be under way is what the two buffers and the server's array take. The array is
filled by one `read`, which finds no more than the buffer before it holds. If the data fits into
the buffers and one byte more, no schedule ends in a deadlock; if it fits into the buffers and the
largest block, some schedule does not.

## Main results

* `closed_or_blocked` — what the states without a step look like
* `echo_always_completes_iff` — when every schedule prints the input
* `echo_completes_iff` — when some schedule does
-/

namespace Tlpiexer

namespace EchoStream

open CString Transition

/-! ### The program -/

/-- `BUF_SIZE` of the client. -/
def clientBufSize : ℕ := 100

/-- `BUF_SIZE` of the server. -/
def serverBufSize : ℕ := 4096

/-- The sizes of the buffers of the connection. -/
structure Buffers where
  /-- From the client to the server. -/
  up : ℕ
  /-- From the server to the client. -/
  down : ℕ
  up_pos : 0 < up
  down_pos : 0 < down

/-- Where the client is. -/
inductive Client
  /-- In its first loop. -/
  | sending
  /-- In its second loop, with its half of the connection shut down. -/
  | receiving
  | closed
  deriving DecidableEq

/-- The client, the server, and what is under way between them. -/
structure State where
  client : Client
  /-- What is left of the standard input. -/
  input : Bytes
  /-- What is left of the client's `write`. -/
  cbuf : Bytes
  up : Bytes
  /-- What is left of the server's `write`. -/
  sbuf : Bytes
  down : Bytes
  /-- The server has seen the end of the data and has exited. -/
  served : Bool
  /-- What the client printed. -/
  out : Bytes

/-- What happens next. -/
inductive Label
  /-- The client reads `n` bytes of its standard input. -/
  | readInput (n : ℕ)
  /-- The client finds the end of its input and shuts down its half of the connection. -/
  | shutdown
  /-- `k` more bytes of the client's `write` find room. -/
  | send (k : ℕ)
  /-- The server reads `n` bytes. -/
  | echoRead (n : ℕ)
  /-- The server reads the end of the data and exits. -/
  | echoEnd
  /-- `k` more bytes of the server's `write` find room. -/
  | echoWrite (k : ℕ)
  /-- The client reads `n` bytes and prints them. -/
  | receive (n : ℕ)
  /-- The client reads the end of the data. -/
  | finish

/-- One step of the system. -/
def State.step (N : Buffers) (s : State) : Label → Option State
  | .readInput n =>
    if s.client = .sending ∧ s.cbuf = [] ∧ 0 < n ∧ n ≤ clientBufSize ∧ n ≤ s.input.length then
      some { s with input := s.input.drop n, cbuf := s.input.take n }
    else none
  | .shutdown =>
    if s.client = .sending ∧ s.cbuf = [] ∧ s.input = [] then
      some { s with client := .receiving }
    else none
  | .send k =>
    if s.client = .sending ∧ 0 < k ∧ k ≤ s.cbuf.length ∧ s.up.length + k ≤ N.up then
      some { s with cbuf := s.cbuf.drop k, up := s.up ++ s.cbuf.take k }
    else none
  | .echoRead n =>
    if s.sbuf = [] ∧ 0 < n ∧ n ≤ serverBufSize ∧ n ≤ s.up.length then
      some { s with up := s.up.drop n, sbuf := s.up.take n }
    else none
  | .echoEnd =>
    if s.served = false ∧ s.sbuf = [] ∧ s.up = [] ∧ s.client ≠ .sending then
      some { s with served := true }
    else none
  | .echoWrite k =>
    if 0 < k ∧ k ≤ s.sbuf.length ∧ s.down.length + k ≤ N.down then
      some { s with sbuf := s.sbuf.drop k, down := s.down ++ s.sbuf.take k }
    else none
  | .receive n =>
    if s.client = .receiving ∧ 0 < n ∧ n ≤ clientBufSize ∧ n ≤ s.down.length then
      -- `printf("%.*s", numRead, buf)` stops at a NUL
      some { s with down := s.down.drop n, out := s.out ++ cstr (s.down.take n) }
    else none
  | .finish =>
    if s.client = .receiving ∧ s.down = [] ∧ s.served then some { s with client := .closed }
    else none

/-- A client with its input, connected to a server. -/
def start (data : Bytes) : State := ⟨.sending, data, [], [], [], [], false, []⟩

/-- The system. -/
def machine (N : Buffers) (data : Bytes) : Machine State Label where
  init s := s = start data
  step := State.step N

/-! ### What one step can do -/

/-- The steps of the system. -/
inductive Move (N : Buffers) (s : State) : Label → State → Prop
  | readInput {n : ℕ} (hclient : s.client = .sending) (hcbuf : s.cbuf = []) (hpos : 0 < n)
      (hinput : n ≤ s.input.length) :
      Move N s (.readInput n) { s with input := s.input.drop n, cbuf := s.input.take n }
  | shutdown (hclient : s.client = .sending) (hcbuf : s.cbuf = []) (hinput : s.input = []) :
      Move N s .shutdown { s with client := .receiving }
  | send {k : ℕ} (hclient : s.client = .sending) (hpos : 0 < k) (hcbuf : k ≤ s.cbuf.length)
      (hroom : s.up.length + k ≤ N.up) :
      Move N s (.send k) { s with cbuf := s.cbuf.drop k, up := s.up ++ s.cbuf.take k }
  | echoRead {n : ℕ} (hsbuf : s.sbuf = []) (hpos : 0 < n) (hsize : n ≤ serverBufSize)
      (hup : n ≤ s.up.length) :
      Move N s (.echoRead n) { s with up := s.up.drop n, sbuf := s.up.take n }
  | echoEnd (hserved : s.served = false) (hsbuf : s.sbuf = []) (hup : s.up = [])
      (hclient : s.client ≠ .sending) : Move N s .echoEnd { s with served := true }
  | echoWrite {k : ℕ} (hpos : 0 < k) (hsbuf : k ≤ s.sbuf.length)
      (hroom : s.down.length + k ≤ N.down) :
      Move N s (.echoWrite k) { s with sbuf := s.sbuf.drop k, down := s.down ++ s.sbuf.take k }
  | receive {n : ℕ} (hclient : s.client = .receiving) (hpos : 0 < n) (hdown : n ≤ s.down.length) :
      Move N s (.receive n)
        { s with down := s.down.drop n, out := s.out ++ cstr (s.down.take n) }
  | finish (hclient : s.client = .receiving) (hdown : s.down = []) (hserved : s.served) :
      Move N s .finish { s with client := .closed }

theorem move_of_step {N : Buffers} {s s' : State} {a : Label} (h : s.step N a = some s') :
    Move N s a s' := by
  cases a with
  | readInput n =>
    obtain ⟨⟨hclient, hcbuf, hpos, -, hinput⟩, ⟨⟩⟩ := Option.ite_none_right_eq_some.mp h
    exact .readInput hclient hcbuf hpos hinput
  | shutdown =>
    obtain ⟨⟨hclient, hcbuf, hinput⟩, ⟨⟩⟩ := Option.ite_none_right_eq_some.mp h
    exact .shutdown hclient hcbuf hinput
  | send k =>
    obtain ⟨⟨hclient, hpos, hcbuf, hroom⟩, ⟨⟩⟩ := Option.ite_none_right_eq_some.mp h
    exact .send hclient hpos hcbuf hroom
  | echoRead n =>
    obtain ⟨⟨hsbuf, hpos, hsize, hup⟩, ⟨⟩⟩ := Option.ite_none_right_eq_some.mp h
    exact .echoRead hsbuf hpos hsize hup
  | echoEnd =>
    obtain ⟨⟨hserved, hsbuf, hup, hclient⟩, ⟨⟩⟩ := Option.ite_none_right_eq_some.mp h
    exact .echoEnd hserved hsbuf hup hclient
  | echoWrite k =>
    obtain ⟨⟨hpos, hsbuf, hroom⟩, ⟨⟩⟩ := Option.ite_none_right_eq_some.mp h
    exact .echoWrite hpos hsbuf hroom
  | receive n =>
    obtain ⟨⟨hclient, hpos, -, hdown⟩, ⟨⟩⟩ := Option.ite_none_right_eq_some.mp h
    exact .receive hclient hpos hdown
  | finish =>
    obtain ⟨⟨hclient, hdown, hserved⟩, ⟨⟩⟩ := Option.ite_none_right_eq_some.mp h
    exact .finish hclient hdown hserved

/-! ### The data -/

/-- What was not received yet, the first to arrive first. -/
def State.flow (s : State) : Bytes := s.down ++ (s.sbuf ++ (s.up ++ (s.cbuf ++ s.input)))

section Steps

variable {N : Buffers} {data : Bytes} {s s' : State} {a : Label}

/-- A step takes a chunk off the front of the data under way and prints it; while the client sends
the chunk is empty. -/
theorem flow_of_move (h : Move N s a s') :
    ∃ chunk, s.flow = chunk ++ s'.flow ∧ s'.out = s.out ++ cstr chunk ∧
      (s.client = .sending → chunk = []) := by
  cases h with
  | @receive n hclient hpos hdown =>
    refine ⟨s.down.take n, ?_, rfl, by simp [hclient]⟩
    simp only [State.flow]
    rw [← List.append_assoc (s.down.take n), List.take_append_drop]
  | readInput hclient hcbuf => exact ⟨[], by simp [State.flow, hcbuf], by simp, fun _ => rfl⟩
  | echoRead hsbuf =>
    refine ⟨[], ?_, by simp, fun _ => rfl⟩
    simp only [State.flow, hsbuf, List.nil_append]
    rw [← List.append_assoc (List.take _ _), List.take_append_drop]
  | send =>
    refine ⟨[], ?_, by simp, fun _ => rfl⟩
    simp only [State.flow, List.nil_append, List.append_assoc]
    rw [← List.append_assoc (List.take _ _), List.take_append_drop]
  | echoWrite =>
    refine ⟨[], ?_, by simp, fun _ => rfl⟩
    simp only [State.flow, List.nil_append, List.append_assoc]
    rw [← List.append_assoc (List.take _ _), List.take_append_drop]
  | shutdown => exact ⟨[], by simp [State.flow], by simp, fun _ => rfl⟩
  | echoEnd => exact ⟨[], by simp [State.flow], by simp, fun _ => rfl⟩
  | finish => exact ⟨[], by simp [State.flow], by simp, fun _ => rfl⟩

/-- What holds of the data and of the buffers. -/
structure Inv (N : Buffers) (data : Bytes) (s : State) : Prop where
  sending : s.client = .sending → s.flow = data
  sent : s.client ≠ .sending → s.cbuf = [] ∧ s.input = []
  up_le : s.up.length ≤ N.up
  down_le : s.down.length ≤ N.down
  sbuf_le : s.sbuf.length ≤ min N.up serverBufSize
  served : s.served → s.client ≠ .sending ∧ s.sbuf = [] ∧ s.up = []
  closed : s.client = .closed → s.served ∧ s.down = []
  /-- Without a NUL in the data everything is printed. -/
  content : (0 : UInt8) ∉ data → s.out ++ s.flow = data

theorem content_step (hcontent : (0 : UInt8) ∉ data → s.out ++ s.flow = data) (h : Move N s a s') :
    (0 : UInt8) ∉ data → s'.out ++ s'.flow = data := by
  intro hzero
  obtain ⟨chunk, hflow, hout, -⟩ := flow_of_move h
  have hdata := hcontent hzero
  have hchunk : cstr chunk = chunk := by
    refine cstr_eq_self fun hmem => hzero ?_
    rw [← hdata, hflow]
    simp [hmem]
  rw [hout, hchunk, List.append_assoc, ← hflow]
  exact hdata

theorem sending_step (hsending : s.client = .sending → s.flow = data) (h : Move N s a s')
    (hclient : s.client = .sending) : s'.flow = data := by
  obtain ⟨chunk, hflow, -, hnil⟩ := flow_of_move h
  rw [hnil hclient] at hflow
  exact hflow.symm.trans (hsending hclient)

theorem inv_step (hs : Inv N data s) (h : Move N s a s') : Inv N data s' := by
  have hcontent := content_step hs.content h
  have hsending := sending_step hs.sending h
  cases h with
  | readInput hclient hcbuf hpos hinput =>
    exact ⟨fun _ => hsending hclient, fun hne => absurd hclient hne, hs.up_le, hs.down_le,
      hs.sbuf_le, hs.served, hs.closed, hcontent⟩
  | shutdown hclient hcbuf hinput =>
    refine ⟨by simp, fun _ => ⟨hcbuf, hinput⟩, hs.up_le, hs.down_le, hs.sbuf_le, fun h => ?_,
      by simp, hcontent⟩
    exact absurd hclient (hs.served h).1
  | send hclient hpos hcbuf hroom =>
    refine ⟨fun _ => hsending hclient, fun hne => absurd hclient hne, ?_, hs.down_le, hs.sbuf_le,
      fun h => absurd hclient (hs.served h).1, hs.closed, hcontent⟩
    rw [List.length_append, List.length_take]
    omega
  | echoRead hsbuf hpos hsize hup =>
    refine ⟨hsending, hs.sent, ?_, hs.down_le, ?_, fun h => ?_, hs.closed, hcontent⟩
    · rw [List.length_drop]
      have := hs.up_le
      omega
    · rw [List.length_take]
      have := hs.up_le
      omega
    · rw [(hs.served h).2.2] at hup
      simp at hup
      omega
  | echoEnd hserved hsbuf hup hclient =>
    exact ⟨hsending, hs.sent, hs.up_le, hs.down_le, hs.sbuf_le, fun _ => ⟨hclient, hsbuf, hup⟩,
      fun h => ⟨rfl, (hs.closed h).2⟩, hcontent⟩
  | echoWrite hpos hsbuf hroom =>
    refine ⟨hsending, hs.sent, hs.up_le, ?_, ?_, fun h => ?_, fun h => ?_, hcontent⟩
    · rw [List.length_append, List.length_take]
      omega
    · rw [List.length_drop]
      have := hs.sbuf_le
      omega
    · rw [(hs.served h).2.1] at hsbuf
      simp at hsbuf
      omega
    · rw [(hs.served (hs.closed h).1).2.1] at hsbuf
      simp at hsbuf
      omega
  | receive hclient hpos hdown =>
    refine ⟨fun h => ?_, hs.sent, hs.up_le, ?_, hs.sbuf_le, hs.served, fun h => ?_, hcontent⟩
    · cases hclient.symm.trans h
    · rw [List.length_drop]
      have := hs.down_le
      omega
    · cases hclient.symm.trans h
  | finish hclient hdown hserved =>
    exact ⟨by simp, fun _ => hs.sent (by simp [hclient]), hs.up_le, hs.down_le, hs.sbuf_le,
      fun _ => ⟨by simp, (hs.served hserved).2⟩, fun _ => ⟨hserved, hdown⟩, hcontent⟩

theorem inv_start (N : Buffers) (data : Bytes) : Inv N data (start data) := by
  refine ⟨fun _ => by simp [State.flow, start], by simp [start], by simp [start], by simp [start],
    by simp [start], by simp [start], by simp [start], fun _ => by simp [State.flow, start]⟩

theorem inv_of_reachable (h : (machine N data).Reachable s) : Inv N data s := by
  refine h.invariant (I := Inv N data) ?_ fun s a s' hs hstep => inv_step hs (move_of_step hstep)
  rintro s rfl
  exact inv_start N data

/-! ### Every run ends -/

/-- How much is still to be done: each byte has five places to go through. -/
def State.work (s : State) : ℕ :=
  5 * s.input.length + 4 * s.cbuf.length + 3 * s.up.length + 2 * s.sbuf.length + s.down.length +
    (match s.client with | .sending => 2 | .receiving => 1 | .closed => 0) +
    if s.served then 0 else 1

theorem work_lt (h : Move N s a s') : s'.work < s.work := by
  cases h with
  | readInput hclient hcbuf hpos hinput => simp [State.work, hclient, hcbuf]; omega
  | shutdown hclient hcbuf hinput => simp [State.work, hclient]
  | send hclient hpos hcbuf hroom => simp [State.work, hclient]; omega
  | echoRead hsbuf hpos hsize hup => simp [State.work, hsbuf]; omega
  | echoEnd hserved hsbuf hup hclient => simp [State.work, hserved]
  | echoWrite hpos hsbuf hroom => simp [State.work]; omega
  | receive hclient hpos hdown => simp [State.work, hclient]; omega
  | finish hclient hdown hserved => simp [State.work, hclient]

theorem machine_lowers (N : Buffers) (data : Bytes) : (machine N data).Lowers State.work :=
  fun _ _ _ hstep => work_lt (move_of_step hstep)

theorem length_le_of_run {tr : List (State × Label)}
    (hrun : (machine N data).Run (start data) tr s) : tr.length ≤ 5 * data.length + 3 := by
  have hle := hrun.length_add_le (machine_lowers N data)
  have hwork : (start data).work = 5 * data.length + 3 := by simp [State.work, start]
  omega

/-! ### States without a step -/

/-- The client and the server both wait in a `write`. -/
structure Blocked (N : Buffers) (s : State) : Prop where
  client : s.client = .sending
  cbuf : s.cbuf ≠ []
  up : s.up.length = N.up
  sbuf : s.sbuf ≠ []
  down : s.down.length = N.down

theorem Blocked.not_enabled (h : Blocked N s) : ¬ (machine N data).Enabled s := by
  rintro ⟨a, s', hstep⟩
  cases move_of_step hstep with
  | readInput hclient hcbuf => exact h.cbuf hcbuf
  | shutdown hclient hcbuf => exact h.cbuf hcbuf
  | send hclient hpos hcbuf hroom =>
    rw [h.up] at hroom
    omega
  | echoRead hsbuf => exact h.sbuf hsbuf
  | echoEnd hserved hsbuf => exact h.sbuf hsbuf
  | echoWrite hpos hsbuf hroom =>
    rw [h.down] at hroom
    omega
  | receive hclient => cases hclient.symm.trans h.client
  | finish hclient => cases hclient.symm.trans h.client

theorem length_flow (s : State) :
    s.flow.length = s.down.length + s.sbuf.length + s.up.length + s.cbuf.length +
      s.input.length := by
  simp only [State.flow, List.length_append]
  omega

/-- In a deadlock the buffers are full and there is more in either `write`. -/
theorem Blocked.lt_length (hs : Inv N data s) (h : Blocked N s) :
    N.up + N.down + s.sbuf.length < data.length := by
  have hlen := length_flow s
  rw [hs.sending h.client, h.up, h.down] at hlen
  have := List.length_pos_iff.mpr h.cbuf
  omega

/-- **States without a step.** `G` says which steps are considered: all of them, but of the
server's `read`s perhaps only some. If it is left one whenever it has to read, then nothing is
left to do only when the client is finished, or in a deadlock. -/
theorem closed_or_blocked (hs : Inv N data s) {G : Label → Prop}
    (hG : ∀ a, (∀ n, a ≠ .echoRead n) → G a)
    (hread : s.sbuf = [] → s.up ≠ [] → s.up.length = N.up ∨ s.client ≠ .sending →
      ∃ n, 0 < n ∧ n ≤ serverBufSize ∧ n ≤ s.up.length ∧ G (.echoRead n))
    (hstuck : ∀ a, G a → s.step N a = none) : s.client = .closed ∨ Blocked N s := by
  have hup_nil : s.sbuf = [] → s.up.length = N.up ∨ s.client ≠ .sending → s.up = [] := by
    intro hsbuf hup
    by_contra hne
    obtain ⟨n, hpos, hsize, hle, hGn⟩ := hread hsbuf hne hup
    have hnone := hstuck (.echoRead n) hGn
    rw [State.step, if_pos ⟨hsbuf, hpos, hsize, hle⟩] at hnone
    cases hnone
  have hdown_eq : s.sbuf ≠ [] → s.down.length = N.down := by
    intro hsbuf
    have hle := hs.down_le
    by_contra hne
    have hnone := hstuck (.echoWrite 1) (hG _ (by simp))
    rw [State.step, if_pos ⟨Nat.one_pos, List.length_pos_iff.mpr hsbuf, by omega⟩] at hnone
    cases hnone
  cases hclient : s.client with
  | closed => exact .inl rfl
  | sending =>
    right
    have hcbuf : s.cbuf ≠ [] := by
      intro hcbuf
      by_cases hinput : s.input = []
      · have hnone := hstuck .shutdown (hG _ (by simp))
        rw [State.step, if_pos ⟨hclient, hcbuf, hinput⟩] at hnone
        cases hnone
      · have hnone := hstuck (.readInput 1) (hG _ (by simp))
        rw [State.step, if_pos ⟨hclient, hcbuf, Nat.one_pos, by decide,
          List.length_pos_iff.mpr hinput⟩] at hnone
        cases hnone
    have hup : s.up.length = N.up := by
      have hle := hs.up_le
      by_contra hne
      have hnone := hstuck (.send 1) (hG _ (by simp))
      rw [State.step, if_pos ⟨hclient, Nat.one_pos, List.length_pos_iff.mpr hcbuf, by omega⟩]
        at hnone
      cases hnone
    have hsbuf : s.sbuf ≠ [] := by
      intro hsbuf
      have hpos := N.up_pos
      rw [← hup, hup_nil hsbuf (.inl hup)] at hpos
      exact absurd hpos (Nat.lt_irrefl 0)
    exact ⟨hclient, hcbuf, hup, hsbuf, hdown_eq hsbuf⟩
  | receiving =>
    exfalso
    have hdown : s.down = [] := by
      by_contra hne
      have hnone := hstuck (.receive 1) (hG _ (by simp))
      rw [State.step, if_pos ⟨hclient, Nat.one_pos, by decide, List.length_pos_iff.mpr hne⟩]
        at hnone
      cases hnone
    have hsbuf : s.sbuf = [] := by
      by_contra hne
      have hpos := N.down_pos
      rw [← hdown_eq hne, hdown] at hpos
      exact absurd hpos (Nat.lt_irrefl 0)
    have hup := hup_nil hsbuf (.inr (by simp [hclient]))
    cases hserved : s.served with
    | false =>
      have hnone := hstuck .echoEnd (hG _ (by simp))
      rw [State.step, if_pos ⟨hserved, hsbuf, hup, by simp [hclient]⟩] at hnone
      cases hnone
    | true =>
      have hnone := hstuck .finish (hG _ (by simp))
      rw [State.step, if_pos ⟨hclient, hdown, hserved⟩] at hnone
      cases hnone

/-- As long as not all data fits between the client's two loops, the client is in the first. -/
theorem sending_of_move (hs : Inv N data s) (hclient : s.client = .sending)
    (hlen : N.up + N.down + s.sbuf.length < data.length) (h : Move N s a s') :
    s'.client = .sending := by
  cases h with
  | shutdown _ hcbuf hinput =>
    have hflow := length_flow s
    rw [hs.sending hclient, hcbuf, hinput] at hflow
    have hup := hs.up_le
    have hdown := hs.down_le
    simp only [List.length_nil] at hflow
    omega
  | finish hreceiving => cases hclient.symm.trans hreceiving
  | _ => exact hclient

end Steps

/-! ### Schedules -/

section Schedules

variable {N : Buffers} {data : Bytes}

/-- The server reads byte by byte. -/
def ReadsOne : Label → Prop
  | .echoRead n => n = 1
  | _ => True

/-- The server reads byte by byte while there is room on the way back, and then waits until it can
read as much as possible. -/
def ReadsMost (N : Buffers) (s : State) : Label → Prop
  | .echoRead n =>
    if s.down.length < N.down then n = 1
    else n = min s.up.length serverBufSize ∧ (s.up.length = N.up ∨ s.client ≠ .sending)
  | _ => True

/-- What the server's array holds when it reads as `ReadsMost` says. -/
def Filled (N : Buffers) (s : State) : Prop :=
  s.sbuf = [] ∨ (s.down.length < N.down ∧ s.sbuf.length = 1) ∨
    (s.down.length = N.down ∧ s.sbuf.length = min N.up serverBufSize)

/-- Reading byte by byte keeps the client in its first loop if the data does not fit into the
buffers and one byte more. -/
theorem sending_step_readsOne (h : N.up + N.down + 1 < data.length) {s s' : State} {a : Label}
    (hs : Inv N data s ∧ s.client = .sending ∧ s.sbuf.length ≤ 1) (hG : ReadsOne a)
    (hmove : Move N s a s') : Inv N data s' ∧ s'.client = .sending ∧ s'.sbuf.length ≤ 1 := by
  obtain ⟨hinv, hclient, hsbuf⟩ := hs
  refine ⟨inv_step hinv hmove, sending_of_move hinv hclient (by omega) hmove, ?_⟩
  cases hmove with
  | @echoRead n =>
    obtain rfl : n = 1 := hG
    rw [List.length_take]
    exact Nat.min_le_left 1 _
  | echoWrite =>
    rw [List.length_drop]
    omega
  | _ => exact hsbuf

/-- Then it ends in a deadlock. -/
theorem exists_blocked (h : N.up + N.down + 1 < data.length) :
    ∃ s, (machine N data).Reachable s ∧ Blocked N s := by
  obtain ⟨tr, s, hrun, ⟨hs, hclient, -⟩, hstuck⟩ :=
    Machine.exists_final_restrict (fun s a t _ => machine_lowers N data s a t)
      (I := fun s => Inv N data s ∧ s.client = .sending ∧ s.sbuf.length ≤ 1)
      (G := fun _ => ReadsOne)
      (fun _ _ _ hs hG hstep => sending_step_readsOne h hs hG (move_of_step hstep))
      (s := start data) ⟨inv_start N data, rfl, by simp [start]⟩
  refine ⟨s, ⟨_, tr, rfl, hrun⟩, ?_⟩
  refine (closed_or_blocked hs (G := ReadsOne) (fun a ha => ?_) (fun _ hup _ => ?_)
    hstuck).resolve_left (by simp [hclient])
  · cases a <;> first | exact absurd rfl (ha _) | trivial
  · exact ⟨1, Nat.one_pos, by decide, List.length_pos_iff.mpr hup, rfl⟩

/-- `ReadsMost` keeps the server's array as full as possible. -/
theorem filled_step {s s' : State} {a : Label} (hs : Inv N data s)
    (hfilled : s.client = .sending → Filled N s) (hG : ReadsMost N s a) (h : Move N s a s') :
    s'.client = .sending → Filled N s' := by
  intro hclient
  cases h with
  | @echoRead n hsbuf hpos hsize hup =>
    by_cases hdown : s.down.length < N.down
    · obtain rfl : n = 1 := by simpa [ReadsMost, hdown] using hG
      refine .inr (.inl ⟨hdown, ?_⟩)
      rw [List.length_take]
      omega
    · obtain ⟨rfl, hfull⟩ : n = min s.up.length serverBufSize ∧
          (s.up.length = N.up ∨ s.client ≠ .sending) := by simpa [ReadsMost, hdown] using hG
      have hup := hfull.resolve_right (not_not.mpr hclient)
      refine .inr (.inr ⟨Nat.le_antisymm hs.down_le (Nat.le_of_not_lt hdown), ?_⟩)
      rw [List.length_take, hup]
      omega
  | @echoWrite k hpos hk hroom =>
    rcases hfilled hclient with hnil | ⟨-, hone⟩ | ⟨hfull, -⟩
    · rw [hnil] at hk
      exact absurd (Nat.le_zero.mp hk) hpos.ne'
    · left
      exact List.drop_eq_nil_of_le (by omega)
    · omega
  | shutdown => cases hclient
  | finish => cases hclient
  | receive hreceiving => cases hreceiving.symm.trans hclient
  | _ => exact hfilled hclient

/-- Reading as much as possible ends well if the data fits into the buffers and the largest
block. -/
theorem exists_closed (h : data.length ≤ N.up + N.down + min N.up serverBufSize) :
    ∃ s, (machine N data).Reachable s ∧ s.client = .closed := by
  obtain ⟨tr, s, hrun, ⟨hs, hfilled⟩, hstuck⟩ :=
    Machine.exists_final_restrict (fun s a t _ => machine_lowers N data s a t)
      (I := fun s => Inv N data s ∧ (s.client = .sending → Filled N s)) (G := ReadsMost N)
      (fun _ _ _ hs hG hstep =>
        ⟨inv_step hs.1 (move_of_step hstep), filled_step hs.1 hs.2 hG (move_of_step hstep)⟩)
      (s := start data) ⟨inv_start N data, fun _ => .inl rfl⟩
  refine ⟨s, ⟨_, tr, rfl, hrun⟩, ?_⟩
  refine (closed_or_blocked hs (G := ReadsMost N s) (fun a ha => ?_) (fun _ hup hready => ?_)
    hstuck).resolve_right fun hblocked => ?_
  · cases a <;> first | exact absurd rfl (ha _) | trivial
  · have hpos := List.length_pos_iff.mpr hup
    by_cases hdown : s.down.length < N.down
    · exact ⟨1, Nat.one_pos, by decide, hpos, by simp [ReadsMost, hdown]⟩
    · refine ⟨min s.up.length serverBufSize, ?_, Nat.min_le_right _ _, Nat.min_le_left _ _, ?_⟩
      · exact Nat.lt_min.mpr ⟨hpos, by decide⟩
      · simpa [ReadsMost, hdown] using hready
  · have hlt := hblocked.lt_length hs
    rcases hfilled hblocked.client with hnil | ⟨hdown, -⟩ | ⟨-, hmost⟩
    · exact hblocked.sbuf hnil
    · rw [hblocked.down] at hdown
      exact Nat.lt_irrefl _ hdown
    · omega

/-- Too much data keeps the client in its first loop. -/
theorem sending_of_reachable (h : N.up + N.down + min N.up serverBufSize < data.length) {s : State}
    (hs : (machine N data).Reachable s) : s.client = .sending := by
  have hboth : Inv N data s ∧ s.client = .sending := by
    refine hs.invariant (I := fun s => Inv N data s ∧ s.client = .sending) ?_ ?_
    · rintro s rfl
      exact ⟨inv_start N data, rfl⟩
    · rintro s a s' ⟨hinv, hclient⟩ hstep
      have hmove := move_of_step hstep
      have hsbuf := hinv.sbuf_le
      exact ⟨inv_step hinv hmove, sending_of_move hinv hclient (by omega) hmove⟩
  exact hboth.2

/-- A run that cannot go on has taken the client to its end, or is in a deadlock. -/
theorem closed_or_blocked_of_final {s : State} (hs : (machine N data).Reachable s)
    (hfinal : ¬ (machine N data).Enabled s) : s.client = .closed ∨ Blocked N s := by
  refine closed_or_blocked (inv_of_reachable hs) (G := fun _ => True) (fun _ _ => trivial)
    (fun _ hup _ => ?_) fun a _ => Machine.step_eq_none_of_not_enabled hfinal a
  exact ⟨1, Nat.one_pos, by decide, List.length_pos_iff.mpr hup, trivial⟩

end Schedules

/-- **When the client always gets its input back.** Every run of the two programs comes to an end,
and a client that gets to its end has printed its input, if there is no NUL in it. No run ends
before that, whatever the schedule, if and only if the input fits into the two buffers of the
connection and one byte more. -/
theorem echo_always_completes_iff (N : Buffers) (data : Bytes) :
    (∀ s tr, (machine N data).Run (start data) tr s → tr.length ≤ 5 * data.length + 3) ∧
    (∀ s, (machine N data).Reachable s → s.client = .closed → (0 : UInt8) ∉ data →
      s.out = data) ∧
    ((∀ s, (machine N data).Reachable s → ¬ (machine N data).Enabled s → s.client = .closed) ↔
      data.length ≤ N.up + N.down + 1) := by
  refine ⟨fun s tr hrun => length_le_of_run hrun, fun s hs hclosed hzero => ?_, fun h => ?_,
    fun h s hs hfinal => ?_⟩
  · have hinv := inv_of_reachable hs
    obtain ⟨hserved, hdown⟩ := hinv.closed hclosed
    obtain ⟨-, hsbuf, hup⟩ := hinv.served hserved
    obtain ⟨hcbuf, hinput⟩ := hinv.sent (by simp [hclosed])
    simpa [State.flow, hdown, hsbuf, hup, hcbuf, hinput] using hinv.content hzero
  · by_contra hlt
    obtain ⟨s, hs, hblocked⟩ := exists_blocked (Nat.lt_of_not_le hlt)
    cases hblocked.client.symm.trans (h s hs hblocked.not_enabled)
  · have hinv := inv_of_reachable hs
    refine (closed_or_blocked_of_final hs hfinal).resolve_right fun hblocked => ?_
    have hlt := hblocked.lt_length hinv
    have hpos := List.length_pos_iff.mpr hblocked.sbuf
    omega

/-- **When the client can get its input back at all.** Some schedule takes the client to its end
if and only if the input fits into the two buffers and the largest block that the server reads.
With longer input every run ends, and it ends in a deadlock. -/
theorem echo_completes_iff (N : Buffers) (data : Bytes) :
    ((∃ s, (machine N data).Reachable s ∧ s.client = .closed) ↔
      data.length ≤ N.up + N.down + min N.up serverBufSize) ∧
    (N.up + N.down + min N.up serverBufSize < data.length →
      ∀ s tr, (machine N data).Run (start data) tr s → tr.length ≤ 5 * data.length + 3 ∧
        (¬ (machine N data).Enabled s → Blocked N s)) := by
  refine ⟨⟨?_, exists_closed⟩, fun hlong s tr hrun => ⟨length_le_of_run hrun, fun hfinal => ?_⟩⟩
  · rintro ⟨s, hs, hclosed⟩
    by_contra hlt
    cases hclosed.symm.trans (sending_of_reachable (Nat.lt_of_not_le hlt) hs)
  · have hs : (machine N data).Reachable s := ⟨_, tr, rfl, hrun⟩
    refine (closed_or_blocked_of_final hs hfinal).resolve_left fun hclosed => ?_
    cases hclosed.symm.trans (sending_of_reachable hlong hs)

end EchoStream

end Tlpiexer
