import B2p.Protocol
import B2p.Lib.Interleave

/-!
# The handshake (`pake.rs`, `handshake.rs`)

SPAKE2 over a rendezvous or over a channel: each side sends its message, derives a key from the
peer's, and verifies the peer's confirmation before it trusts the key. SPAKE2 and the keyed hash are
libraries: the values of `PakeLib`. The time out bounds how long the readers skip frames that are not
what they wait for; here it is the number of frames there is time to read.
-/

namespace B2p

open Interaction Prog

/-! ## `pake.rs` -/

/-- `pake::Role`. -/
inductive Pake.Role where
  | receiver
  | sender
  deriving DecidableEq, Repr

/-- The functions of `spake2` and `blake3` the handshake calls. `SessionKey` is the type of keys,
`finish` is what a started exchange (its password, identity and own message) makes of the peer's
message. -/
structure PakeLib where
  SessionKey : Type
  finish : (password : Bytes) → (identity : String) → (own peer : Bytes) → Except String SessionKey
  keyedHash : SessionKey → Bytes → Bytes

/-- The operations of a handshake. -/
inductive HsOp (P : PakeLib) where
  | subscribe (topic : String)
  /-- `Pake::start`, which draws at random: the outbound message. -/
  | start (password : Bytes) (identity : String)
  /-- `confirmation`, for a tag to be sent. -/
  | confirm (key : P.SessionKey) (role : Pake.Role)
  /-- `rv.publish` or `ch.send`. -/
  | send (frame : Bytes)
  /-- `stream.next()`. -/
  | next
  /-- `ch.recv()`. -/
  | recv

@[reducible] def HsOp.Res {P : PakeLib} : HsOp P → Type
  | .subscribe _ => Except Anyhow Unit
  | .start _ _ => Bytes
  | .confirm _ _ => Bytes
  | .send _ => Except Anyhow Unit
  | .next => Option Bytes
  | .recv => Except Anyhow Bytes

abbrev hsEffects (P : PakeLib) : Effects := ⟨HsOp P, HsOp.Res⟩

abbrev HsProg (P : PakeLib) := Prog (hsEffects P) Anyhow

namespace Pake

/-- The identity `Pake::start` binds the topic into. -/
def identity (topic : String) : String := "b2p-v2:" ++ topic

def confirmTag : Role → Bytes
  | .receiver => "b2p-v2-confirm-receiver".toUTF8.data.toList
  | .sender => "b2p-v2-confirm-sender".toUTF8.data.toList

variable (P : PakeLib)

/-- `Pake::finish`. -/
def finish (password : Bytes) (topic : String) (own peer : Bytes) : Except Anyhow P.SessionKey :=
  (P.finish password (identity topic) own peer).mapError fun e =>
    .msg ("PAKE handshake failed: " ++ e)

/-- `confirmation`. -/
def confirmation (key : P.SessionKey) (senderRole : Role) : Bytes :=
  P.keyedHash key (confirmTag senderRole)

/-- `verify_confirmation`. -/
def verifyConfirmation (key : P.SessionKey) (peerRole : Role) (mac : Bytes) : Bool :=
  confirmation P key peerRole == mac

end Pake

/-! ## `handshake.rs` -/

namespace Handshake

open Pake (Role)

def KIND_PAKE : UInt8 := 1
def KIND_CONFIRM : UInt8 := 2

def roleByte : Role → UInt8
  | .receiver => 0
  | .sender => 1

def other : Role → Role
  | .receiver => .sender
  | .sender => .receiver

def encodeFrame (kind : UInt8) (role : Role) (payload : Bytes) : Bytes :=
  kind :: roleByte role :: payload

def decodeFrame : Bytes → Option (UInt8 × UInt8 × Bytes)
  | kind :: role :: payload => some (kind, role, payload)
  | _ => none

variable {P : PakeLib}

/-- Read frames until one matches, skipping all others: the loop of `wait_for` and `recv_kind`. When
there is no time for another frame the outer deadline cancels it with `elapsed`. -/
def skipUntil (read : HsProg P Bytes) (elapsed : Anyhow) (kind role : UInt8) :
    Nat → HsProg P Bytes
  | 0 => .fail elapsed
  | budget + 1 => do
      let frame ← read
      match decodeFrame frame with
      | some (k, r, payload) =>
          if k = kind ∧ r = role then return payload
          else skipUntil read elapsed kind role budget
      | none => skipUntil read elapsed kind role budget

/-- `stream.next()`, and the error when the stream has ended. -/
def nextFrame : HsProg P Bytes :=
  .step .next fun
    | some frame => .ret frame
    | none => .fail (.msg "rendezvous stream ended before the peer responded")

/-- `ch.recv().await?`. -/
def recvFrame : HsProg P Bytes := .step .recv ofExcept

def sendFrame (frame : Bytes) : HsProg P Unit := .step (.send frame) ofExcept

/-- `wait_for`. -/
def waitFor (elapsed : Anyhow) (budget : Nat) (kind role : UInt8) : HsProg P Bytes :=
  skipUntil nextFrame elapsed kind role budget

/-- `recv_kind`. -/
def recvKind (elapsed : Anyhow) (budget : Nat) (kind role : UInt8) : HsProg P Bytes :=
  skipUntil recvFrame elapsed kind role budget

/-- The exchange both handshakes run, by their way of reading and the error they report when the
confirmation is wrong. -/
def exchange (wait : UInt8 → UInt8 → HsProg P Bytes) (mismatch : Anyhow) (context : String)
    (password : Bytes) (role : Role) : HsProg P P.SessionKey := do
  let myMsg ← (.step (.start password (Pake.identity context)) .ret : HsProg P Bytes)
  sendFrame (encodeFrame KIND_PAKE role myMsg)
  let peerMsg ← wait KIND_PAKE (roleByte (other role))
  let key ← (ofExcept (Pake.finish P password context myMsg peerMsg) : HsProg P P.SessionKey)
  let tag ← (.step (.confirm key role) .ret : HsProg P Bytes)
  sendFrame (encodeFrame KIND_CONFIRM role tag)
  let peerConf ← wait KIND_CONFIRM (roleByte (other role))
  if Pake.verifyConfirmation P key (other role) peerConf then return key
  else .fail mismatch

/-- What `handshake_with_timeout` reports when the deadline passes. -/
def timedOut (role : Role) : Anyhow :=
  let base := "timed out on the rendezvous — is the other side running?"
  match role with
  | .receiver => .msg (base ++ " — re-run `b2p receive` to try again")
  | .sender => .msg base

/-- `handshake_inner` under the deadline of `handshake_with_timeout`. -/
def handshakeInner (budget : Nat) (topic : String) (password : Bytes) (role : Role) :
    HsProg P P.SessionKey := do
  (.step (.subscribe topic) ofExcept : HsProg P Unit)
  exchange (waitFor (timedOut role) budget)
    (.msg ("the code didn't match — double-check it, or another transfer may be using the " ++
      "same channel; try a fresh code")) topic password role

/-- `handshake_channel_inner` under the deadline of `handshake_over_channel`. -/
def handshakeChannelInner (budget : Nat) (context : String) (password : Bytes) (role : Role) :
    HsProg P P.SessionKey :=
  exchange (recvKind (.msg "timed out during the key exchange — the other side stopped responding")
    budget) .codeMismatch context password role

end Handshake
end B2p
