import Tlpiexer.Foundations.CString
import Tlpiexer.Foundations.Layout

/-!
# The handshake of the out-of-band socket

The client of `src/imp/61-06-client.c` and `handshake_peer` of `src/imp/61-06-server.c`, with
`mk_key` of `src/lib/61-06.c` and `rrand` of `src/lib/random.c`.

The client listens on a port of its own and sends the port and a key over its connection to the
server. Whoever then connects to the port has to show the key; the server does so by sending back
the message it got. The client answers with `OOB_OK`.

## The comparison of the keys

The client compares 16 bytes with `strncmp`, which stops at a NUL. It would take a peer for the
server that has guessed the bytes up to a NUL in the key. There is none: `rrand(0, 255, &n)` adds
one to a remainder, so it gives a number from 1 to 255, and as a `char` that is not 0. It is the
range of `rrand` alone that makes the comparison exact, and nothing is assumed of the values of
`rand`. (The client does not call `srand`, so that they are the same in every run.)

## What is printed

If the keys differ, both are printed with `%s`, although there is no NUL behind them: printing goes
on with the port. The port of the client has one in its upper bytes; that of the peer is any number,
and if none of its bytes is 0 the model has no text.

## Main results

* `mk_key_spec` — the key, and that it has no NUL
* `client_accepts_iff` — when the client goes on
* `handshake_of_echo` — the handshake of the two programs
-/

namespace Tlpiexer

namespace OobSock

open CString

/-! ### The key -/

/-- `RAND_MAX`. -/
def randMax : ℕ := 2147483647

/-- A value of `rand`. -/
abbrev Rand := Fin (randMax + 1)

/-- `rrand(min, max, &result)` when `rand` has been called `calls` times before: the result and the
number of calls, nothing if it returns `-1`. The sum is at most `max`, so it does not overflow. -/
def rrand (rand : ℕ → Rand) (calls min max : ℕ) : Option (ℕ × ℕ) :=
  if min ≥ max ∨ max > randMax then none
  else some (min + 1 + (rand calls).val % (max - min), calls + 1)

/-- The last `rounds` rounds of the loop of `mk_key`, from `i` on. -/
def mkKeyLoop (rand : ℕ → Rand) : (rounds i calls : ℕ) → CharArray 16 → ℤ × CharArray 16
  | 0, _, _, key => (0, key)
  | rounds + 1, i, calls, key =>
    match rrand rand calls 0 255 with
    | none => (-1, key)
    | some (n, calls) => mkKeyLoop rand rounds (i + 1) calls (key.set i (UInt8.ofNat n))

/-- `mk_key(key)`. -/
def mk_key (rand : ℕ → Rand) (key : CharArray 16) : ℤ × CharArray 16 := mkKeyLoop rand 16 0 0 key

/-! ### The messages -/

/-- `struct handshake_msg`. -/
structure HandshakeMsg where
  key : CharArray 16
  port : BitVec (8 * 4)

/-- `sizeof(struct handshake_msg)`. -/
def handshakeSize : ℕ := 20

/-- The bytes of a message. -/
def HandshakeMsg.encode (m : HandshakeMsg) : Bytes := m.key.val ++ Layout.toBytes 4 m.port

/-- The message that is stored in these bytes. -/
def HandshakeMsg.decode (bytes : Bytes) : HandshakeMsg :=
  ⟨.ofBytes 16 (bytes.take 16), Layout.ofBytes 4 (bytes.drop 16)⟩

/-- `struct oob_msg`. -/
structure OobMsg where
  code : BitVec (8 * 4)
  data : CharArray 256

/-- `OOB_OK`. -/
def oobOk : BitVec (8 * 4) := 0

/-- `sizeof(struct oob_msg)`. -/
def oobSize : ℕ := 260

/-- The bytes of a message. -/
def OobMsg.encode (m : OobMsg) : Bytes := Layout.toBytes 4 m.code ++ m.data.val

/-- The message that is stored in these bytes. -/
def OobMsg.decode (bytes : Bytes) : OobMsg :=
  ⟨Layout.ofBytes 4 (bytes.take 4), .ofBytes 256 (bytes.drop 4)⟩

/-- What `%s` prints of an array; the model has no answer if there is no NUL to stop at. -/
def printed (s : Bytes) : Option Bytes := if (0 : UInt8) ∈ s then some (cstr s) else none

/-! ### The client -/

/-- The names that errors are reported with. -/
inductive Caller
  | isockListen
  | getsockname
  | isockConnect
  | mkKey
  | read
  | inetNtop
  | write
  | notAccepted
  deriving DecidableEq

/-- What the system calls of the client return. -/
structure ClientNet where
  listen : Bool
  /-- The port of the listening socket. -/
  getsockname : Option (BitVec 16)
  connect : Bool
  /-- What `write` returns for the message with the key. -/
  write : ℤ
  accept : Bool
  /-- The bytes that are read from the accepted connection, if there is no error. -/
  read : Option Bytes
  /-- What `write` returns for the message `OOB_OK`. -/
  writeOk : ℤ

/-- Up to the point where the key has been sent over the normal socket. `hmsg` is what the variable
holds before. -/
def offer (net : ClientNet) (rand : ℕ → Rand) (hmsg : HandshakeMsg) : Except Caller HandshakeMsg :=
  if ¬ net.listen then .error .isockListen
  else
    match net.getsockname with
    | none => .error .getsockname
    | some port =>
      if ¬ net.connect then .error .isockConnect
      else
        let (status, key) := mk_key rand hmsg.key
        if status ≠ 0 then .error .mkKey
        else
          let hmsg : HandshakeMsg := ⟨key, port.setWidth _⟩
          -- the name in the report is "read" here too
          if net.write ≠ handshakeSize then .error .read
          else .ok hmsg

/-- How the handshake of the client ends. -/
inductive Outcome
  /-- With an error, before the key is checked. -/
  | failed (caller : Caller)
  /-- The keys differ. The texts that are printed for them. -/
  | keyNotMatch (correct confirm : Option Bytes)
  /-- The client goes on: it writes this message, and then there may be an error. -/
  | accepts (oob_msg : OobMsg) (error : Option Caller)

/-- The client goes on past the check of the key. -/
def Outcome.Accepts : Outcome → Prop
  | .accepts _ _ => True
  | _ => False

/-- The handshake of the client. -/
def client (net : ClientNet) (rand : ℕ → Rand) (hmsg : HandshakeMsg) (oob_msg : OobMsg) : Outcome :=
  match offer net rand hmsg with
  | .error caller => .failed caller
  | .ok hmsg =>
    -- an error of `accept` shows in `read`
    match if net.accept then net.read else none with
    | none => .failed .read
    | some received =>
      if received.length ≠ handshakeSize then .failed .read
      else
        let cf_hmsg := HandshakeMsg.decode received
        if strncmp cf_hmsg.key.val hmsg.key.val 16 ≠ 0 then
          .keyNotMatch (printed hmsg.encode) (printed cf_hmsg.encode)
        else
          let oob_msg : OobMsg := ⟨oobOk, oob_msg.data.set 0 0⟩
          .accepts oob_msg (if net.writeOk ≠ oobSize then some .write else none)

/-! ### The server -/

/-- What the system calls of `handshake_peer` return. -/
structure PeerNet where
  /-- The bytes that are read from the normal socket. -/
  read : Option Bytes
  inetNtop : Bool
  connect : Bool
  write : ℤ
  /-- The bytes that are read from the urgent socket. -/
  readOk : Option Bytes

/-- The message that is sent over the urgent socket: the one that came over the normal socket. -/
def echo (net : PeerNet) : Except Caller HandshakeMsg :=
  match net.read with
  | none => .error .read
  | some received =>
    if received.length ≠ handshakeSize then .error .read
    else if ¬ net.inetNtop then .error .inetNtop
    else if ¬ net.connect then .error .isockConnect
    else .ok (.decode received)

/-- `handshake_peer`, up to what it returns in the end. -/
def handshake_peer (net : PeerNet) : Except Caller Unit :=
  match echo net with
  | .error caller => .error caller
  | .ok _ =>
    if net.write ≠ handshakeSize then .error .write
    else
      match net.readOk with
      | none => .error .read
      | some received =>
        if received.length ≠ oobSize then .error .read
        else if (OobMsg.decode received).code ≠ oobOk then .error .notAccepted
        else .ok ()

/-! ### The bytes of the key -/

section Key

variable (rand : ℕ → Rand)

/-- A result is above `min`, and not above `max`. -/
theorem rrand_bounds {calls min max n calls' : ℕ}
    (h : rrand rand calls min max = some (n, calls')) : min < n ∧ n ≤ max := by
  rw [rrand] at h
  split_ifs at h with hrange
  obtain ⟨rfl, -⟩ := Prod.mk.inj (Option.some.inj h)
  have hlt := Nat.mod_lt (rand calls).val (Nat.sub_pos_of_lt (by omega : min < max))
  omega

/-- The byte that call `i` of `rand` gives. -/
def keyByte (i : ℕ) : UInt8 := UInt8.ofNat (1 + (rand i).val % 255)

theorem rrand_key (calls : ℕ) :
    rrand rand calls 0 255 = some (1 + (rand calls).val % 255, calls + 1) := by
  rw [rrand, if_neg (by decide)]

theorem keyByte_ne_zero (i : ℕ) : keyByte rand i ≠ 0 := by
  intro h
  obtain ⟨hpos, hle⟩ := rrand_bounds rand (rrand_key rand i)
  have htoNat := congrArg UInt8.toNat h
  rw [keyByte, UInt8.toNat_ofNat', Nat.mod_eq_of_lt (by omega)] at htoNat
  exact absurd htoNat hpos.ne'

/-- **The rounds that are left fill the rest of the key.** -/
theorem mkKeyLoop_eq (rounds i : ℕ) (key : CharArray 16) (h : i + rounds = 16) :
    (mkKeyLoop rand rounds i i key).1 = 0 ∧
      (mkKeyLoop rand rounds i i key).2.val =
        key.val.take i ++ (List.range' i rounds).map (keyByte rand) := by
  induction rounds generalizing i key with
  | zero =>
    refine ⟨rfl, ?_⟩
    rw [mkKeyLoop, List.range'_zero, List.map_nil, List.append_nil,
      List.take_of_length_le (by rw [key.property]; omega)]
  | succ rounds ih =>
    rw [mkKeyLoop, rrand_key]
    obtain ⟨hstatus, hkey⟩ := ih (i + 1) (key.set i (keyByte rand i)) (by omega)
    refine ⟨hstatus, hkey.trans ?_⟩
    have hi : i < key.val.length := by rw [key.property]; omega
    have htake : (key.set i (keyByte rand i)).val.take (i + 1) =
        key.val.take i ++ [keyByte rand i] := by
      rw [CharArray.set, List.take_succ_eq_append_getElem (by rwa [List.length_set]),
        List.take_set_of_le (Nat.le_refl i), List.getElem_set_self]
    rw [htake, List.range'_succ, List.map_cons, List.append_assoc, List.singleton_append]

/-- **The key**: `mk_key` does not fail, it fills the whole array, and no byte is 0. -/
theorem mk_key_spec (key : CharArray 16) :
    (mk_key rand key).1 = 0 ∧
      (mk_key rand key).2.val = (List.range' 0 16).map (keyByte rand) ∧
      (0 : UInt8) ∉ (mk_key rand key).2.val := by
  obtain ⟨hstatus, hkey⟩ := mkKeyLoop_eq rand 16 0 key rfl
  refine ⟨hstatus, hkey, ?_⟩
  rw [mk_key, hkey, List.take_zero, List.nil_append]
  intro hmem
  obtain ⟨i, -, hi⟩ := List.mem_map.mp hmem
  exact keyByte_ne_zero rand i hi

/-- Comparing with the key is comparing all of its bytes. -/
theorem strncmp_mk_key (received key : CharArray 16) :
    strncmp received.val (mk_key rand key).2.val 16 = 0 ↔ received = (mk_key rand key).2 := by
  rw [strncmp_eq_zero_iff_of_notMem received.property.le (mk_key rand key).2.property
    (mk_key_spec rand key).2.2]
  exact Subtype.val_inj

end Key

/-! ### Messages in bytes -/

theorem HandshakeMsg.length_encode (m : HandshakeMsg) : m.encode.length = handshakeSize := by
  rw [HandshakeMsg.encode, List.length_append, m.key.property, Layout.length_toBytes, handshakeSize]

theorem HandshakeMsg.decode_encode (m : HandshakeMsg) : HandshakeMsg.decode m.encode = m := by
  have htake : m.encode.take 16 = m.key.val := List.take_left' m.key.property
  have hdrop : m.encode.drop 16 = Layout.toBytes 4 m.port := List.drop_left' m.key.property
  have hkey : CharArray.ofBytes 16 m.key.val = m.key :=
    Subtype.ext (CharArray.val_ofBytes m.key.property)
  rw [decode, htake, hdrop, hkey, Layout.ofBytes_toBytes]

/-- The key of a message of full size is its first 16 bytes. -/
theorem HandshakeMsg.val_key_decode {bytes : Bytes} (h : bytes.length = handshakeSize) :
    (HandshakeMsg.decode bytes).key.val = bytes.take 16 :=
  CharArray.val_ofBytes (by rw [List.length_take, h, handshakeSize]; rfl)

theorem OobMsg.length_encode (m : OobMsg) : m.encode.length = oobSize := by
  rw [OobMsg.encode, List.length_append, m.data.property, Layout.length_toBytes, oobSize]

theorem OobMsg.code_decode_encode (m : OobMsg) : (OobMsg.decode m.encode).code = m.code := by
  have htake : m.encode.take 4 = Layout.toBytes 4 m.code :=
    List.take_left' (Layout.length_toBytes 4 _)
  rw [decode, htake, Layout.ofBytes_toBytes]

/-! ### The check of the key -/

/-- The client gets to the check: the calls before it succeed, and a message of full size is read
from the accepted connection. -/
structure ClientNet.Receives (net : ClientNet) (received : Bytes) : Prop where
  listen : net.listen = true
  getsockname : net.getsockname.isSome = true
  connect : net.connect = true
  write : net.write = handshakeSize
  accept : net.accept = true
  read : net.read = some received
  full : received.length = handshakeSize

/-- The message the client sends when its calls succeed. -/
def ClientNet.message (net : ClientNet) (rand : ℕ → Rand) (hmsg : HandshakeMsg) : HandshakeMsg :=
  ⟨(mk_key rand hmsg.key).2, (net.getsockname.getD 0).setWidth _⟩

/-- The message the client answers with. -/
def reply (oob_msg : OobMsg) : OobMsg := ⟨oobOk, oob_msg.data.set 0 0⟩

section Check

variable {net : ClientNet} {received : Bytes}

/-- The client has sent its key when it gets to the check. -/
theorem offer_of_receives (h : net.Receives received) (rand : ℕ → Rand) (hmsg : HandshakeMsg) :
    offer net rand hmsg = .ok (net.message rand hmsg) := by
  obtain ⟨port, hport⟩ := Option.isSome_iff_exists.mp h.getsockname
  simp [offer, ClientNet.message, h.listen, hport, h.connect, (mk_key_spec rand hmsg.key).1,
    h.write]

/-- A client that has sent its key and gets a message gets to the check. -/
theorem receives_of_offer {rand : ℕ → Rand} {hmsg sent : HandshakeMsg}
    (hoffer : offer net rand hmsg = .ok sent) (haccept : net.accept = true)
    (hread : net.read = some received) (hfull : received.length = handshakeSize) :
    net.Receives received := by
  have hlisten : net.listen = true := by
    by_contra hnot
    simp [offer, hnot] at hoffer
  obtain ⟨port, hport⟩ : ∃ port, net.getsockname = some port := by
    cases hport : net.getsockname with
    | none => simp [offer, hlisten, hport] at hoffer
    | some port => exact ⟨port, rfl⟩
  have hconnect : net.connect = true := by
    by_contra hnot
    simp [offer, hlisten, hport, hnot] at hoffer
  have hwrite : net.write = handshakeSize := by
    by_contra hnot
    simp [offer, hlisten, hport, hconnect, (mk_key_spec rand hmsg.key).1, hnot] at hoffer
  exact ⟨hlisten, by rw [hport]; rfl, hconnect, hwrite, haccept, hread, hfull⟩

/-- What the check leads to. -/
theorem client_of_receives (h : net.Receives received) (rand : ℕ → Rand) (hmsg : HandshakeMsg)
    (oob_msg : OobMsg) :
    client net rand hmsg oob_msg =
      if received.take 16 = (mk_key rand hmsg.key).2.val then
        .accepts (reply oob_msg) (if net.writeOk ≠ oobSize then some .write else none)
      else .keyNotMatch (printed (net.message rand hmsg).encode)
        (printed (HandshakeMsg.decode received).encode) := by
  have hcheck :
      strncmp (HandshakeMsg.decode received).key.val (net.message rand hmsg).key.val 16 = 0 ↔
      received.take 16 = (mk_key rand hmsg.key).2.val := by
    rw [← HandshakeMsg.val_key_decode h.full, Subtype.val_inj]
    exact strncmp_mk_key rand _ _
  simp only [client, offer_of_receives h, h.accept, h.read, if_true]
  rw [if_neg (not_not.mpr h.full)]
  by_cases hkey : received.take 16 = (mk_key rand hmsg.key).2.val
  · simp [hcheck.mpr hkey, hkey, reply]
  · simp [mt hcheck.mp hkey, hkey]

/-- **The client goes on exactly if it is shown its own key**, all 16 bytes of it. -/
theorem client_accepts_iff (rand : ℕ → Rand) (hmsg : HandshakeMsg) (oob_msg : OobMsg)
    (h : net.Receives received) :
    ∃ sent, offer net rand hmsg = .ok sent ∧ sent.key = (mk_key rand hmsg.key).2 ∧
      ((client net rand hmsg oob_msg).Accepts ↔ received.take 16 = sent.key.val) := by
  refine ⟨_, offer_of_receives h rand hmsg, rfl, ?_⟩
  rw [client_of_receives h]
  change _ ↔ received.take 16 = (mk_key rand hmsg.key).2.val
  by_cases hkey : received.take 16 = (mk_key rand hmsg.key).2.val
  · simp [hkey, Outcome.Accepts]
  · simp [hkey, Outcome.Accepts]

/-- A connection over which `key` is shown, with port 0. -/
def shown (key : CharArray 16) : ClientNet :=
  ⟨true, some 8080, true, handshakeSize, true, some (key.val ++ [0, 0, 0, 0]), oobSize⟩

theorem receives_shown (key : CharArray 16) :
    (shown key).Receives (key.val ++ [0, 0, 0, 0]) :=
  ⟨rfl, rfl, rfl, rfl, rfl, rfl, by rw [List.length_append, key.property]; rfl⟩

/-- If `rand` gives 0 the key is sixteen times 1. It is accepted, and its first byte alone is
not. -/
theorem client_accepts_iff_ones :
    (client (shown (.ofBytes 16 (List.replicate 16 1))) (fun _ => 0) (.decode [])
        (.decode [])).Accepts ∧
      ¬ (client (shown (.ofBytes 16 [1])) (fun _ => 0) (.decode []) (.decode [])).Accepts := by
  constructor
  · obtain ⟨sent, -, hkey, hiff⟩ := client_accepts_iff (fun _ => 0) (.decode []) (.decode [])
      (receives_shown (.ofBytes 16 (List.replicate 16 1)))
    rw [hiff, hkey]
    decide
  · obtain ⟨sent, -, hkey, hiff⟩ := client_accepts_iff (fun _ => 0) (.decode []) (.decode [])
      (receives_shown (.ofBytes 16 [1]))
    rw [hiff, hkey]
    decide

end Check

/-! ### The two programs -/

/-- The server sends back what it got. -/
theorem echo_of_read {peer : PeerNet} {sent echoed : HandshakeMsg}
    (hread : peer.read = some sent.encode) (hecho : echo peer = .ok echoed) : sent = echoed := by
  simp only [echo, hread, sent.decode_encode] at hecho
  split_ifs at hecho
  exact Except.ok.inj hecho

/-- **The handshake of the two programs.** If the server gets the message of the client, and each
gets what the other then sends, the client goes on and the server has its urgent socket. -/
theorem handshake_of_echo {net : ClientNet} {peer : PeerNet} {rand : ℕ → Rand}
    {hmsg sent echoed : HandshakeMsg} {oob_msg : OobMsg}
    (hoffer : offer net rand hmsg = .ok sent) (hsent : peer.read = some sent.encode)
    (hecho : echo peer = .ok echoed) (hwrite : peer.write = handshakeSize)
    (haccept : net.accept = true) (hechoed : net.read = some echoed.encode)
    (hwriteOk : net.writeOk = oobSize) (hreply : peer.readOk = some (reply oob_msg).encode) :
    client net rand hmsg oob_msg = .accepts (reply oob_msg) none ∧
      handshake_peer peer = .ok () := by
  obtain rfl := echo_of_read hsent hecho
  have hreceives := receives_of_offer hoffer haccept hechoed sent.length_encode
  obtain rfl : net.message rand hmsg = sent :=
    Except.ok.inj ((offer_of_receives hreceives rand hmsg).symm.trans hoffer)
  constructor
  · have hkey : (net.message rand hmsg).encode.take 16 = (mk_key rand hmsg.key).2.val :=
      List.take_left' (mk_key rand hmsg.key).2.property
    rw [client_of_receives hreceives, if_pos hkey, if_neg (not_not.mpr hwriteOk)]
  · simp [handshake_peer, hecho, hwrite, hreply, OobMsg.length_encode, OobMsg.code_decode_encode,
      reply]

end OobSock

end Tlpiexer
