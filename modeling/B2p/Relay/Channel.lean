import B2p.Relay.Frames
import B2p.Lib.Duplex

/-!
# The relay channel (`RelayChannel` and `io_task` of `transport/relay.rs`)

A `RelayChannel` is the application's end of a connection: `send` and `recv`. Behind it runs `io_task`,
which moves frames between the application's two queues and the socket, and acknowledges what it has
taken. A value of `RelayChannel` is both, with the point `io_task` is at; `RelayChannel.step` is one step of
either, and `Net` is two endpoints paired over a relay that forwards in order.

The application's queues are `mpsc` channels, `acked` and `dead` are `watch` channels: a queue and the
last value. The counters are `u64`s that count the bytes of one connection, here natural numbers.
A text message is taken for the control it spells.
-/

namespace B2p

open Interaction Framing

def ACK_EVERY : Nat := 1024 * 1024

def WINDOW : Nat := 8 * 1024 * 1024

/-- Capacity of the channel to `recv`. -/
def IN_CAPACITY : Nat := 64

inductive Control where
  | peerJoined
  | peerLeft
  | pong
  | ack (n : Nat)
  deriving DecidableEq, Repr

/-- A message on the socket. -/
inductive WsMessage where
  | binary (b : Bytes)
  | text (c : Control)
  | close
  deriving DecidableEq

inductive OutMsg where
  | frame (f : Bytes)
  | close
  deriving DecidableEq

/-- What the application still has of its channel: all of it, a `close` that waits, or nothing. -/
inductive AppEnd where
  | live
  | closing
  | dropped
  deriving DecidableEq, Repr

/-- Where `io_task` is: at the top of its loop, in the `try_recv` loop, or in the loop over the frames
of a message, before a frame or in `in_tx.send(f)`. -/
inductive IoPhase where
  | top
  | draining
  | delivering (frames : List Bytes)
  | offering (f : Bytes) (rest : List Bytes)
  deriving DecidableEq

/-- One end of a connection. The last three fields are history, which no step reads: the frames for
which `send` returned `Ok`, those `io_task` has counted as consumed, and those `recv` returned. -/
structure RelayChannel where
  app : AppEnd
  sent : Nat
  outQueue : List OutMsg
  inQueue : List Bytes
  acked : Nat
  dead : Option String
  pending : List Bytes
  debatch : Debatcher
  consumed : Nat
  ackedOut : Nat
  closing : Bool
  phase : IoPhase
  accepted : List Bytes
  taken : List Bytes
  received : List Bytes

namespace RelayChannel

/-- `RelayChannel::spawn`. -/
def spawn : RelayChannel where
  app := .live
  sent := 0
  outQueue := []
  inQueue := []
  acked := 0
  dead := none
  pending := []
  debatch := .empty
  consumed := 0
  ackedOut := 0
  closing := false
  phase := .top
  accepted := []
  taken := []
  received := []

/-- `lost`. -/
def lost (text : String) : Anyhow := .transportLost (.msg text)

/-- `death_reason`. -/
def deathReason (e : RelayChannel) (fallback : String) : Anyhow := lost (e.dead.getD fallback)

/-! ## The application's side -/

/-- The window check of `send`. -/
@[reducible] def WindowOpen (e : RelayChannel) (len : Nat) : Prop :=
  e.sent - e.acked + len ≤ WINDOW ∨ e.sent - e.acked < ACK_EVERY

/-- `RelayChannel::send`; `none` while it is parked in the window loop. `stalled` says that the wait for
an acknowledgment has timed out. -/
def send (f : Bytes) (stalled : Bool) (e : RelayChannel) : Option (Except Anyhow Unit × RelayChannel) :=
  if f.length > MAX_LOGICAL_FRAME then
    some (.error (.msg ("a metadata frame of " ++ toString f.length ++ " bytes exceeds the relay limit ("
      ++ toString MAX_LOGICAL_FRAME ++ ") — for folders with very many files, archive first "
      ++ "(e.g. tar.gz) and send the single file")), e)
  else if e.WindowOpen f.length then
    if e.dead.isSome then
      some (.error (e.deathReason "connection lost while sending"), { e with sent := e.sent + f.length })
    else some (.ok (), { e with
      sent := e.sent + f.length
      outQueue := e.outQueue ++ [.frame f]
      accepted := e.accepted ++ [f] })
  else if e.dead.isSome then some (.error (e.deathReason "connection lost while sending"), e)
  else if stalled then
    some (.error (lost "no acknowledgment progress for 300s — the receiver appears stalled"), e)
  else none

/-- `RelayChannel::recv`; `none` while it waits. -/
def recv (e : RelayChannel) : Option (Except Anyhow Bytes × RelayChannel) :=
  match e.inQueue with
  | f :: rest => some (.ok f, { e with inQueue := rest, received := e.received ++ [f] })
  | [] =>
      if e.dead.isSome then some (.error (e.deathReason "the other side disconnected"), e) else none

/-! ## `io_task` -/

/-- `break 'io`: the task ends, and its own variables with it. -/
def die (e : RelayChannel) (reason : String) : RelayChannel := { e with dead := some reason }

/-- At the top of the loop with nothing to flush: `Some` is a payload that has to go out first. -/
def Selecting (e : RelayChannel) : Prop :=
  e.phase = .top ∧ (packFrames e.pending).1 = none ∧ e.closing = false

instance (e : RelayChannel) : Decidable e.Selecting := by
  unfold Selecting
  infer_instance

/-- `pack_frames` and `ws.send`. -/
def flush (res : Except String Unit) (e : RelayChannel) : Option (RelayChannel × List WsMessage) :=
  match e.phase, packFrames e.pending with
  | .top, (some payload, rest) =>
      match res with
      | .ok () => some ({ e with pending := rest }, [.binary payload])
      | .error err => some (e.die ("could not send to the relay: " ++ err), [])
  | _, _ => none

/-- `if closing`. -/
def shut (e : RelayChannel) : Option RelayChannel :=
  if e.phase = .top ∧ (packFrames e.pending).1 = none ∧ e.closing = true then some (e.die "closed")
  else none

/-- The branch `out_rx.recv()`. -/
def take (e : RelayChannel) : Option RelayChannel :=
  if e.Selecting then
    match e.outQueue with
    | .frame f :: rest =>
        some { e with outQueue := rest, pending := e.pending ++ [f], phase := .draining }
    | .close :: rest => some { e with outQueue := rest, closing := true }
    | [] => if e.app = .dropped then some { e with closing := true } else none
  else none

/-- One turn of the inner loop, `out_rx.try_recv()`. -/
def tryRecv (e : RelayChannel) : Option RelayChannel :=
  if e.phase = .draining then
    match e.outQueue with
    | .frame f :: rest => some { e with outQueue := rest, pending := e.pending ++ [f] }
    | .close :: rest => some { e with outQueue := rest, closing := true, phase := .top }
    | [] => some { e with phase := .top }
  else none

/-- The branch `ping.tick()`: the relay answers the ping itself. -/
def ping (ok : Bool) (e : RelayChannel) : Option RelayChannel :=
  if e.Selecting then
    if ok then some e else some (e.die "relay connection dropped (keepalive failed)")
  else none

/-- A message from the socket. -/
def handle (e : RelayChannel) : WsMessage → RelayChannel
  | .binary b =>
      match e.debatch.push b with
      | (.ok frames, d) => { e with debatch := d, phase := .delivering frames }
      | (.error err, _) => e.die ("bad frame from the relay: " ++ err.toString)
  | .text (.ack n) => { e with acked := n }
  | .text .peerLeft => e.die "the other side disconnected"
  | .text _ => e
  | .close => e.die "the relay closed the connection"

/-- The branch `ws.next()`, with what is left of the messages on the way. -/
def next (e : RelayChannel) (incoming : List WsMessage) : Option (RelayChannel × List WsMessage) :=
  match incoming with
  | [] => none
  | m :: rest => if e.Selecting then some (e.handle m, rest) else none

/-- `ws.next()` is an error or the end of the stream. -/
def hangUp (err : Option String) (e : RelayChannel) : Option RelayChannel :=
  if e.Selecting then
    match err with
    | some err => some (e.die ("relay socket error: " ++ err))
    | none => some (e.die "the relay closed the connection")
  else none

/-- `consumed += f.len()`, before the frame is offered. -/
def count (e : RelayChannel) : Option RelayChannel :=
  match e.phase with
  | .delivering (f :: rest) => some { e with
      consumed := e.consumed + f.length
      phase := .offering f rest
      taken := e.taken ++ [f] }
  | _ => none

/-- `in_tx.send(f)`, which waits for room and fails once the consumer is gone. -/
def offer (e : RelayChannel) : Option RelayChannel :=
  match e.phase with
  | .offering f rest =>
      if e.app = .dropped then some { e with closing := true, phase := .delivering [] }
      else if e.inQueue.length < IN_CAPACITY then
        some { e with inQueue := e.inQueue ++ [f], phase := .delivering rest }
      else none
  | _ => none

/-- The acknowledgment after a message, once it is due. -/
def ack (ok : Bool) (e : RelayChannel) : Option (RelayChannel × List WsMessage) :=
  if e.phase = .delivering [] then
    if e.consumed - e.ackedOut ≥ ACK_EVERY then
      if ok then
        some ({ e with ackedOut := e.consumed, phase := .top }, [.text (.ack e.consumed)])
      else some (e.die "relay connection dropped (ack failed)", [])
    else some ({ e with phase := .top }, [])
  else none

/-! ## Steps -/

/-- One step of the application or of `io_task`, with the outcome of what can fail. -/
inductive Act where
  | send (f : Bytes) (stalled : Bool)
  | recv
  | close
  | drop
  | flush (res : Except String Unit)
  | shut
  | take
  | tryRecv
  | ping (ok : Bool)
  | next
  | hangUp (err : Option String)
  | count
  | offer
  | ack (ok : Bool)

/-- Steps of the application, as long as it has its channel. -/
def appStep (e : RelayChannel) : Act → Option RelayChannel
  | .send f stalled => if e.app = .live then (e.send f stalled).map Prod.snd else none
  | .recv => if e.app = .live then e.recv.map Prod.snd else none
  | .close =>
      -- `out_tx.send` fails, and is ignored, once the task has ended
      if e.app = .live then some { e with
        app := .closing
        outQueue := if e.dead.isSome then e.outQueue else e.outQueue ++ [.close] }
      else none
  | .drop => if e.app ≠ .dropped then some { e with app := .dropped, inQueue := [] } else none
  | _ => none

/-- Steps of `io_task` while it runs: the endpoint, the messages left on the way to it, and those it
puts on the way to the other side. -/
def ioStep (e : RelayChannel) (incoming : List WsMessage) :
    Act → Option (RelayChannel × List WsMessage × List WsMessage)
  | .flush res => (e.flush res).map fun r => (r.1, incoming, r.2)
  | .shut => e.shut.map fun e' => (e', incoming, [])
  | .take => e.take.map fun e' => (e', incoming, [])
  | .tryRecv => e.tryRecv.map fun e' => (e', incoming, [])
  | .ping ok => (e.ping ok).map fun e' => (e', incoming, [])
  | .next => (e.next incoming).map fun r => (r.1, r.2, [])
  | .hangUp err => (e.hangUp err).map fun e' => (e', incoming, [])
  | .count => e.count.map fun e' => (e', incoming, [])
  | .offer => e.offer.map fun e' => (e', incoming, [])
  | .ack ok => (e.ack ok).map fun r => (r.1, incoming, r.2)
  | _ => none

def step (e : RelayChannel) (incoming : List WsMessage) (a : Act) :
    Option (RelayChannel × List WsMessage × List WsMessage) :=
  match e.appStep a with
  | some e' => some (e', incoming, [])
  | none => if e.dead = none then e.ioStep incoming a else none

end RelayChannel

/-! ## Two endpoints over a relay -/

/-- The relay's own messages. -/
inductive RelayNotice where
  | peerJoined
  | peerLeft
  | pong
  | close
  deriving DecidableEq, Repr

def RelayNotice.toMessage : RelayNotice → WsMessage
  | .peerJoined => .text .peerJoined
  | .peerLeft => .text .peerLeft
  | .pong => .text .pong
  | .close => .close

/-- A pair of endpoints, and the messages on the way to each. -/
structure Net where
  ends : Side → RelayChannel
  wire : Side → List WsMessage

namespace Net

/-- Both sides have just been told that the other is there. -/
def init : Net := ⟨fun _ => .spawn, fun _ => []⟩

/-- A step of one side, or a message of the relay's own to one side. -/
inductive Act where
  | move (s : Side) (a : RelayChannel.Act)
  | relay (s : Side) (n : RelayNotice)

def step (net : Net) : Act → Option Net
  | .move s a =>
      ((net.ends s).step (net.wire s) a).map fun r =>
        { ends := Function.update net.ends s r.1
          wire := Function.update (Function.update net.wire s r.2.1) s.peer
            (net.wire s.peer ++ r.2.2) }
  | .relay s n => some { net with wire := Function.update net.wire s (net.wire s ++ [n.toMessage]) }

/-- What can come of a paired session. -/
inductive Reachable : Net → Prop where
  | init : Reachable Net.init
  | step {net net' : Net} (h : Reachable net) {a : Act} (hs : net.step a = some net') : Reachable net'

end Net

end B2p
