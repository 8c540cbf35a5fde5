import B2p.Handshake
import B2p.External

/-!
# Signalling (`transport/webrtc.rs`, the random seals of `crypto.rs`)

Once the code is confirmed, two peers exchange session descriptions and trickled ICE candidates over
the rendezvous, each sealed under the session's signalling key. An endpoint is three tasks over one
peer connection: `establish`, which makes the offer and waits for the data channel; the pump, which
applies what the rendezvous delivers; and the callback that publishes local candidates. The peer
connection, the rendezvous and the random numbers are operations; the peer connection's own types are
the fields of `WebrtcLib`.
-/

namespace B2p

open Interaction Prog

/-! ## `crypto.rs`: `seal_random` -/

namespace Cipher

variable (cipher : Cipher)

/-- `seal_random`, once its nonce is drawn: the nonce is prepended. -/
def sealRandom (key nonce aad plaintext : Bytes) : Bytes :=
  nonce ++ cipher.encrypt key nonce aad plaintext

/-- `open_random`. -/
def openRandom (key aad ciphertext : Bytes) : Option Bytes :=
  if ciphertext.length < 24 then none
  else cipher.decrypt key (ciphertext.take 24) aad (ciphertext.drop 24)

@[simp] theorem openRandom_sealRandom {nonce : Bytes} (h : nonce.length = 24) (key aad plaintext : Bytes) :
    cipher.openRandom key aad (cipher.sealRandom key nonce aad plaintext) = some plaintext := by
  have hlen : ¬ (cipher.sealRandom key nonce aad plaintext).length < 24 := by
    rw [sealRandom, List.length_append]
    omega
  have htake : (cipher.sealRandom key nonce aad plaintext).take 24 = nonce := by
    rw [sealRandom, ← h, List.take_left]
  have hdrop : (cipher.sealRandom key nonce aad plaintext).drop 24
      = cipher.encrypt key nonce aad plaintext := by
    rw [sealRandom, ← h, List.drop_left]
  rw [openRandom, if_neg hlen, htake, hdrop, cipher.decrypt_encrypt]

end Cipher

/-! ## `transport/webrtc.rs` -/

namespace Webrtc

open Handshake (roleByte other encodeFrame decodeFrame)

def KIND_SDP : UInt8 := 3
def KIND_ICE : UInt8 := 4

/-- The types of the `webrtc` crate that are sent to the peer, and their JSON. -/
structure WebrtcLib where
  /-- `RTCSessionDescription`. -/
  SessionDescription : Type
  /-- `RTCIceCandidateInit`. -/
  CandidateInit : Type
  sdpJson : Codec SessionDescription
  iceJson : Codec CandidateInit

/-- What an endpoint does to the peer connection, to the rendezvous and to the random numbers. -/
inductive RtcOp (W : WebrtcLib) where
  | createDataChannel (label : String)
  | subscribe (topic : String)
  /-- `sub.next()`. -/
  | next
  | publish (topic : String) (frame : Bytes)
  /-- `seal_random` under the signalling key: it draws a nonce. -/
  | sealRandom (aad plaintext : Bytes)
  | createOffer
  | createAnswer
  | setLocalDescription (sdp : W.SessionDescription)
  | setRemoteDescription (sdp : W.SessionDescription)
  /-- `remote_description().is_some()`. -/
  | remoteDescription
  | addIceCandidate (init : W.CandidateInit)
  /-- The next call of `on_ice_candidate`; `none` when it is passed no candidate, or one without a
  JSON form. -/
  | iceCandidate
  /-- `open.notified()`. -/
  | opened
  /-- `chan_rx.recv()`: is there a handle? -/
  | channel

@[reducible] def RtcOp.Res {W : WebrtcLib} : RtcOp W → Type
  | .createDataChannel _ => Except Anyhow Unit
  | .subscribe _ => Except Anyhow Unit
  | .next => Option Bytes
  | .publish _ _ => Except Anyhow Unit
  | .sealRandom _ _ => Bytes
  | .createOffer => Except Anyhow W.SessionDescription
  | .createAnswer => Except Anyhow W.SessionDescription
  | .setLocalDescription _ => Except Anyhow Unit
  | .setRemoteDescription _ => Except Anyhow Unit
  | .remoteDescription => Bool
  | .addIceCandidate _ => Except Anyhow Unit
  | .iceCandidate => Option W.CandidateInit
  | .opened => Unit
  | .channel => Bool

abbrev rtcEffects (W : WebrtcLib) : Effects := ⟨RtcOp W, RtcOp.Res⟩

abbrev RtcProg (W : WebrtcLib) := Prog (rtcEffects W) Anyhow

variable {W : WebrtcLib} (cipher : Cipher)

/-- Seal under the signalling key and publish: the end of every frame's way out. -/
def publishSealed (topic : String) (kind : UInt8) (role : Pake.Role) (plaintext : Bytes) :
    RtcProg W (Except Anyhow Unit) :=
  .step (.sealRandom [kind, roleByte role] plaintext) fun sealed =>
    .step (.publish topic (encodeFrame kind role sealed)) .ret

/-- `wire_local_ice`: the callback, called `calls` times. -/
def wireLocalIce (topic : String) (role : Pake.Role) : Nat → RtcProg W Unit
  | 0 => .ret ()
  | calls + 1 => .step .iceCandidate fun
      | some init => do
          let _ ← publishSealed topic KIND_ICE role (W.iceJson.toVec init)
          wireLocalIce topic role calls
      | none => wireLocalIce topic role calls

/-- `for cand in pending_ice.drain(..)`: the results are ignored. -/
def drain : List W.CandidateInit → RtcProg W Unit
  | [] => .ret ()
  | init :: rest => .step (.addIceCandidate init) fun _ => drain rest

/-- The Sender is the answerer. -/
def answer (topic : String) (role : Pake.Role) : RtcProg W Unit :=
  .step .createAnswer fun
    | .error _ => .ret ()
    | .ok sdp => .step (.setLocalDescription sdp) fun
        | .error _ => .ret ()
        | .ok () => do
            let _ ← publishSealed topic KIND_SDP role (W.sdpJson.toVec sdp)
            return ()

/-- A session description from the peer: once it is accepted, nothing is kept back any more. -/
def applySdp (topic : String) (role : Pake.Role) (sdp : W.SessionDescription)
    (pendingIce : List W.CandidateInit) : RtcProg W (List W.CandidateInit) :=
  .step (.setRemoteDescription sdp) fun
    | .error _ => .ret pendingIce
    | .ok () => do
        drain pendingIce
        if role = .sender then answer topic role else .ret ()
        return []

/-- A candidate from the peer. -/
def applyIce (init : W.CandidateInit) (pendingIce : List W.CandidateInit) :
    RtcProg W (List W.CandidateInit) :=
  .step .remoteDescription fun
    | true => .step (.addIceCandidate init) fun _ => .ret pendingIce
    | false => .ret (pendingIce ++ [init])

/-- One turn of the pump: the frame's effect, and the candidates still pending after it. -/
def applyFrame (topic : String) (sigKey : Bytes) (role : Pake.Role) (frame : Bytes)
    (pendingIce : List W.CandidateInit) : RtcProg W (List W.CandidateInit) :=
  match decodeFrame frame with
  | none => .ret pendingIce
  | some (kind, r, payload) =>
      if r ≠ roleByte (other role) then .ret pendingIce
      else match cipher.openRandom sigKey [kind, r] payload with
        | none => .ret pendingIce
        | some plain =>
            if kind = KIND_SDP then
              match W.sdpJson.fromSlice plain with
              | none => .ret pendingIce
              | some sdp => applySdp topic role sdp pendingIce
            else if kind = KIND_ICE then
              match W.iceJson.fromSlice plain with
              | none => .ret pendingIce
              | some init => applyIce init pendingIce
            else .ret pendingIce

/-- The pump, for as long as there is time for `budget` frames. -/
def pump (topic : String) (sigKey : Bytes) (role : Pake.Role) : Nat → List W.CandidateInit → RtcProg W Unit
  | 0, _ => .ret ()
  | budget + 1, pendingIce => .step .next fun
      | none => .ret ()
      | some frame => do
          let pendingIce ← applyFrame cipher topic sigKey role frame pendingIce
          pump topic sigKey role budget pendingIce

/-- Receiver drives the offer. -/
def offer (topic : String) (role : Pake.Role) : RtcProg W Unit := do
  let sdp ← (.step .createOffer ofExcept : RtcProg W W.SessionDescription)
  (.step (.setLocalDescription sdp) ofExcept : RtcProg W Unit)
  let published ← publishSealed topic KIND_SDP role (W.sdpJson.toVec sdp)
  ofExcept published

/-- Wait for the data channel to open. -/
def awaitOpen : RtcProg W Unit :=
  .step .opened fun _ => .step .channel fun
    | true => .ret ()
    | false => .fail (.msg "data channel opened but handle was lost")

/-- `establish`, without the tasks it starts. -/
def establish (topic : String) (role : Pake.Role) : RtcProg W Unit := do
  if role = .receiver then .step (.createDataChannel "b2p") ofExcept else .ret ()
  (.step (.subscribe topic) ofExcept : RtcProg W Unit)
  if role = .receiver then offer topic role else .ret ()
  awaitOpen

end Webrtc
end B2p
