import B2p.Stream

/-!
# The waiting receiver (`main.rs`)

`receive_relay_cli` makes one attempt after another. Which outcome ends it and which arms the room
again is decided by the type of the error alone: the wrappers of `Anyhow` it downcasts to.
-/

namespace B2p

/-- The error `downcast_ref` finds: a context is looked through, every other wrapper is opaque. -/
def Anyhow.root : Anyhow → Anyhow
  | .context _ cause => cause.root
  | e => e

namespace Receive

/-- What the loop does after an attempt. -/
inductive Next where
  /-- `return Ok(())`, having printed what was done. -/
  | done (desc : String)
  /-- Go round again, after so many seconds. -/
  | again (busyRetries pause : Nat)
  /-- `return Err(e)`, with the doctor's advice before it where establishing the connection failed. -/
  | stop (e : Anyhow)
  deriving DecidableEq

/-- The number of refusals the loop sits out. -/
def BUSY_RETRIES : Nat := 8

/-- How long the loop waits after the `n`-th refusal in a row. -/
def busyDelay (n : Nat) : Nat := min (2 <<< n) 20

/-- The `match` of `receive_relay_cli` on the outcome of `receive_relay`. -/
def next (busyRetries : Nat) : Except Anyhow String → Next
  | .ok desc => .done desc
  | .error e =>
      match e.root with
      | .waitClosed _ => .again 0 0
      | .transportLost _ => .again 0 0
      | .codeMismatch => .again 0 2
      | .establish cause =>
          if busyRetries < BUSY_RETRIES ∧ cause.root = .roomBusy then
            .again (busyRetries + 1) (busyDelay busyRetries)
          else .stop e
      | _ => .stop e

/-- **The loop ends well only after a received transfer.** -/
theorem next_eq_done {busyRetries : Nat} {r : Except Anyhow String} {desc : String} :
    next busyRetries r = .done desc ↔ r = .ok desc := by
  cases r with
  | ok d => simp [next]
  | error e =>
      refine ⟨?_, nofun⟩
      unfold next
      dsimp only
      split
      · nofun
      · nofun
      · nofun
      · split <;> nofun
      · nofun

end Receive
end B2p
