import Tlpiexer.Foundations.Decimal
import Tlpiexer.Foundations.Transition
import Tlpiexer.SeqNum.Lbuf

/-!
# The sequence-number server

The request loop of `src/imp/59-01-server.c`. A client sends a number as a line of text, the server
adds it to `seq_num` and sends the new value back.

## One array for requests and responses

`line` is filled by `read_lbuf`, which copies the bytes of a line and no NUL, and then by
`snprintf` with the response. It is never cleared. `atoi` reads the request out of it and goes on
with whatever digits happen to lie behind; these are left over from an earlier response, or from
before the first request. `Clean` excludes that, together with numbers that are no `int`.

## Main results

* `serve_clean` — one request
* `seqNum_eq_sum` — a run of clean requests adds up what was asked for
* `seqNum_ne_sum` — a run in general does not
-/

namespace Tlpiexer

namespace SeqNum

open CString ByteStream Decimal Transition

/-- `INT_LEN`. -/
abbrev intLen : ℕ := 30

/-- The variables of the server that outlive a connection. -/
structure Server where
  /-- A `size_t`. -/
  seqNum : UInt64
  line : CharArray intLen
  lbuf : Lbuf

/-! ### The request loop -/

/-- What is sent back: `"%li\\n"`, which takes the `size_t` for a `long`. -/
def response (seqNum : UInt64) : Bytes := printLong ((seqNum.toNat : ℤ).bmod (2 ^ 64)) ++ [10]

/-- `seq_num += req`, and the new value is printed into `line`. -/
def Server.add (s : Server) (req : ℤ) : Server :=
  let seqNum := s.seqNum + UInt64.ofInt req
  { s with
    seqNum := seqNum
    line := .ofBytes _ (snprintf s.line.val intLen (response seqNum)) }

/-- One round of the loop, after `accept`: what is written to the client, if anything. -/
def serve (conn : Conn) (s : Server) : Option (Option Bytes × Server) :=
  let (ret, lbuf, conn) := initLbuf conn s.lbuf
  let s := { s with lbuf := lbuf }
  if ret ≠ fnOk then some (none, s)
  else do
    let (tres, line, lbuf, _) ← readLbuf conn s.lbuf s.line
    let s := { s with line := line, lbuf := lbuf }
    if tres ≤ 0 then some (none, s)
    else do
      let req ← atoi s.line.val
      if req = 0 then some (none, s)
      else
        let s := s.add req
        some (some (cstr s.line.val), s)

/-! ### Clients -/

/-- A client that sends a number as one line, which is delivered by the first `read`. -/
structure Client extends Numeral where
  conn : Conn
  first : conn.head? = some (some (toNumeral.text ++ [10]))
  short : toNumeral.text.length < intLen

/-- The server, with one step for each client. `seq_num` starts at 0; nothing is known about the
local variables. -/
def machine : Machine Server Client where
  init s := s.seqNum = 0
  step s c := (serve c.conn s).map Prod.snd

/-- The number fits in an `int`, and the byte of `line` right behind the text is no digit. -/
def Clean (s : Server) (c : Client) : Prop :=
  (∀ b, s.line.val[c.text.length]? = some b → isDigit b = false) ∧
    -2 ^ 31 ≤ c.value ∧ c.value < 2 ^ 31

theorem Client.newline_notMem (c : Client) : (10 : UInt8) ∉ c.text := by
  intro h
  have := c.isSpace_eq_false h
  simp [isSpace] at this

/-- `line` after the request was read into it. -/
theorem exists_line (s : Server) (c : Client) :
    ∃ b, s.line.val[c.text.length]? = some b ∧
      (CharArray.ofBytes intLen (overlay s.line.val c.text)).val =
        c.text ++ b :: s.line.val.drop (c.text.length + 1) := by
  have hlt : c.text.length < s.line.val.length := by
    rw [s.line.property]
    exact c.short
  refine ⟨_, List.getElem?_eq_getElem hlt, ?_⟩
  rw [CharArray.val_ofBytes ((length_overlay hlt.le).trans s.line.property), overlay,
    List.drop_eq_getElem_cons hlt]

/-- A round in which a line is received: `seq_num` grows by what `atoi` reads. -/
theorem serve_of_line {conn conn' conn'' : Conn} {s : Server} {lbuf lbuf' : Lbuf} {tres req : ℤ}
    {line : CharArray intLen} (hinit : initLbuf conn s.lbuf = (fnOk, lbuf, conn'))
    (hread : readLbuf conn' lbuf s.line = some (tres, line, lbuf', conn'')) (hpos : ¬ tres ≤ 0)
    (hatoi : atoi line.val = some req) :
    ∃ out s', serve conn s = some (out, s') ∧ s'.seqNum = s.seqNum + UInt64.ofInt req := by
  by_cases hzero : req = 0
  · refine ⟨none, ⟨s.seqNum, line, lbuf'⟩, ?_, ?_⟩
    · simp [serve, hinit, hread, hpos, hatoi, hzero]
    · rw [hzero]
      exact (UInt64.add_zero _).symm
  · let s' := Server.add ⟨s.seqNum, line, lbuf'⟩ req
    refine ⟨some (cstr s'.line.val), s', ?_, rfl⟩
    simp only [serve, hinit, hread, hatoi, if_neg hpos, if_neg hzero, ne_eq, not_true_eq_false,
      if_false, Option.bind_eq_bind, Option.bind_some, s']

/-- **One request.** From a clean `line` the server does not fault and adds the number of the
request. -/
theorem serve_clean {s : Server} {c : Client} (h : Clean s c) :
    ∃ out s', serve c.conn s = some (out, s') ∧
      s'.seqNum = s.seqNum + UInt64.ofInt c.value := by
  obtain ⟨hdigit, hlo, hhi⟩ := h
  obtain ⟨lbuf, t, hinit, hcur, hbuf⟩ :=
    exists_initLbuf c.first (c.short.trans (by decide)) s.lbuf
  have hdrop : lbuf.buf.val.drop lbuf.cur = c.text ++ 10 :: t := by
    rw [hcur, List.drop_zero, hbuf]
  have hread := readLbuf_newline hdrop c.newline_notMem c.short.le c.conn.tail s.line
  obtain ⟨b, hb, hline⟩ := exists_line s c
  have hatoi := atoi_numeral c.toNumeral hlo hhi (hdigit b hb) (s.line.val.drop (c.text.length + 1))
  rw [← hline] at hatoi
  refine serve_of_line hinit hread ?_ hatoi
  have := List.length_pos_iff.mpr c.text_ne_nil
  omega

theorem step_of_serve {s s' : Server} {c : Client} {out : Option Bytes}
    (h : serve c.conn s = some (out, s')) : machine.step s c = some s' := by
  show (serve c.conn s).map Prod.snd = some s'
  rw [h]
  rfl

/-- **The sum of the requests.** In every run whose requests are all clean, `seq_num` is at any
time the sum, modulo `2 ^ 64`, of the numbers in the requests so far; and the next clean request
adds its own number. -/
theorem seqNum_eq_sum {s₀ s : Server} {tr : List (Server × Client)} (h₀ : machine.init s₀)
    (hrun : machine.Run s₀ tr s) (hclean : ∀ p ∈ tr, Clean p.1 p.2) :
    s.seqNum = UInt64.ofInt (tr.map fun p => p.2.value).sum ∧
      ∀ c, Clean s c → ∃ out s', serve c.conn s = some (out, s') ∧
        s'.seqNum = s.seqNum + UInt64.ofInt c.value := by
  refine ⟨?_, fun c hc => serve_clean hc⟩
  induction hrun with
  | nil => exact h₀
  | @snoc tr s s' c hrun hstep ih =>
    have hsum := ih fun p hp => hclean p (List.mem_append_left _ hp)
    obtain ⟨out, s₁, hserve, hadd⟩ := serve_clean (hclean (s, c) (by simp))
    obtain rfl : s₁ = s' := Option.some.inj ((step_of_serve hserve).symm.trans hstep)
    rw [hadd, hsum, List.map_append, List.sum_append, List.map_singleton, List.sum_singleton,
      UInt64.ofInt_add]

/-! ### What is left in the array -/

/-- The server before its first client, with its arrays full of NULs. -/
def start : Server := ⟨0, .ofBytes _ [], ⟨false, .ofBytes _ [], 0⟩⟩

theorem start_init : machine.init start := rfl

/-- A client that asks for 10. -/
def askTen : Client where
  sign := .none
  digits := [49, 48]
  ne_nil := by decide
  isDigit := by simp [Decimal.isDigit]
  conn := [some [49, 48, 10]]
  first := rfl
  short := by decide

/-- A client that asks for 3. -/
def askThree : Client where
  sign := .none
  digits := [51]
  ne_nil := by decide
  isDigit := by simp [Decimal.isDigit]
  conn := [some [51, 10]]
  first := rfl
  short := by decide

theorem clean_of_nul {s : Server} {c : Client} (h : s.line.val[c.text.length]? = some 0)
    (hlo : -2 ^ 31 ≤ c.value) (hhi : c.value < 2 ^ 31) : Clean s c := by
  refine ⟨fun b hb => ?_, hlo, hhi⟩
  obtain rfl : 0 = b := Option.some.inj (h.symm.trans hb)
  rfl

/-- Asked for 3 and then for 10, the server adds up both: `10` covers the whole response of the
first request. -/
theorem seqNum_eq_sum_threeAndTen :
    ∃ tr s, machine.init start ∧ machine.Run start tr s ∧ (∀ p ∈ tr, Clean p.1 p.2) ∧
      tr.map (fun p => p.2.value) = [3, 10] ∧ s.seqNum = 13 := by
  have hthree : Clean start askThree :=
    clean_of_nul (by decide +kernel) (by decide +kernel) (by decide +kernel)
  obtain ⟨s₁, hstep, hbyte⟩ : ∃ s₁, machine.step start askThree = some s₁ ∧
      s₁.line.val[2]? = some 0 :=
    Option.map_eq_some_iff.mp
      (by decide +kernel :
        (machine.step start askThree).map (fun s => s.line.val[2]?) = some (some 0))
  have hten : Clean s₁ askTen := clean_of_nul hbyte (by decide +kernel) (by decide +kernel)
  obtain ⟨out, s, hserve, -⟩ := serve_clean hten
  have hrun : machine.Run start [(start, askThree), (s₁, askTen)] s :=
    (Machine.Run.nil.snoc hstep).snoc (step_of_serve hserve)
  have hall : ∀ p ∈ [(start, askThree), (s₁, askTen)], Clean p.1 p.2 := by
    simp [hthree, hten]
  have hvalues : [(start, askThree), (s₁, askTen)].map (fun p => p.2.value) = [3, 10] := by
    show [askThree.value, askTen.value] = [3, 10]
    decide +kernel
  refine ⟨_, s, start_init, hrun, hall, hvalues, ?_⟩
  rw [(seqNum_eq_sum start_init hrun hall).1, hvalues]
  decide +kernel

/-- Asked for 10 and then for 3, the server adds 10 and then 30: the `0` of its first response is
still behind the `3`. -/
theorem seqNum_ne_sum :
    ∃ tr s, machine.init start ∧ machine.Run start tr s ∧
      tr.map (fun p => p.2.value) = [10, 3] ∧ s.seqNum = 40 := by
  obtain ⟨s, hexec, hseq⟩ : ∃ s, machine.exec start [askTen, askThree] = some s ∧ s.seqNum = 40 :=
    Option.map_eq_some_iff.mp
      (by decide +kernel : (machine.exec start [askTen, askThree]).map Server.seqNum = some 40)
  refine ⟨_, s, start_init, Machine.run_of_exec hexec, ?_, hseq⟩
  rw [show (fun p : Server × Client => p.2.value) = (fun c => c.value) ∘ Prod.snd from rfl,
    ← List.map_map, Machine.map_snd_trace hexec]
  decide +kernel

end SeqNum

end Tlpiexer
