import Mathlib.Data.List.Basic
import Mathlib.Data.List.Infix
import Mathlib.Tactic.Common

/-!
# Cutting a queue of frames into pieces, and putting it together again

A *frame* is a list, a *piece* is a part of one that says whether the frame goes on in a later piece.
Pieces are cut from the front of a queue of frames, several frames or a part of one at a time; the
reader appends them to a buffer and takes the buffer for a frame at the last piece of each.

* `reassemble` — what the reader has after some pieces: the complete frames and the buffer.
* `Cut` — the pieces cut from a queue, and the queue left.
* `Cut.resume` — nothing is lost between the two, wherever the queue was cut.
* `Fits` — no buffer on the way is longer than a limit.
-/

namespace Framing

variable {α : Type}

/-- Part of a frame; `cont` says that the frame goes on in a later piece. -/
structure Piece (α : Type) where
  cont : Bool
  items : List α

/-- The frames completed by some pieces, and the buffer they leave. -/
def reassemble : List α → List (Piece α) → List (List α) × List α
  | buf, [] => ([], buf)
  | buf, p :: ps =>
      if p.cont then reassemble (buf ++ p.items) ps
      else ((buf ++ p.items) :: (reassemble [] ps).1, (reassemble [] ps).2)

@[simp] theorem reassemble_nil (buf : List α) : reassemble buf [] = ([], buf) := rfl

@[simp] theorem reassemble_cont (buf b : List α) (ps : List (Piece α)) :
    reassemble buf (⟨true, b⟩ :: ps) = reassemble (buf ++ b) ps := rfl

@[simp] theorem reassemble_last (buf b : List α) (ps : List (Piece α)) :
    reassemble buf (⟨false, b⟩ :: ps)
      = ((buf ++ b) :: (reassemble [] ps).1, (reassemble [] ps).2) := rfl

theorem reassemble_append (buf : List α) (ps qs : List (Piece α)) :
    reassemble buf (ps ++ qs)
      = ((reassemble buf ps).1 ++ (reassemble (reassemble buf ps).2 qs).1,
        (reassemble (reassemble buf ps).2 qs).2) := by
  induction ps generalizing buf with
  | nil => rfl
  | cons p ps ih =>
      obtain ⟨cont, b⟩ := p
      cases cont with
      | true =>
          rw [List.cons_append, reassemble_cont, reassemble_cont, ih]
      | false =>
          rw [List.cons_append, reassemble_last, reassemble_last, ih]
          rfl

/-! ## The two ends of a cut queue -/

/-- The frames still to come, when the reader has `buf` of the first one. -/
def resume (buf : List α) : List (List α) → List (List α)
  | [] => []
  | f :: fs => (buf ++ f) :: fs

@[simp] theorem resume_nil (q : List (List α)) : resume [] q = q := by
  cases q <;> rfl

theorem resume_append {buf : List α} {q : List (List α)} (h : q = [] → buf = []) (q' : List (List α)) :
    resume buf (q ++ q') = resume buf q ++ q' := by
  cases q with
  | nil => rw [h rfl, List.nil_append, resume_nil, resume_nil, List.nil_append]
  | cons f fs => rfl

/-- `Cut ps q rest`: the pieces `ps` are cut from the front of `q`, which leaves `rest`. -/
inductive Cut : List (Piece α) → List (List α) → List (List α) → Prop where
  | nil (q) : Cut [] q q
  | whole {ps q rest} (f) (h : Cut ps q rest) : Cut (⟨false, f⟩ :: ps) (f :: q) rest
  | split (n f q) : Cut [⟨true, f.take n⟩] (f :: q) (f.drop n :: q)

/-- **Nothing is lost, added or moved by a cut**: the frames completed by its pieces, and those still
to come after it, are those to come before it. -/
theorem Cut.resume {ps : List (Piece α)} {q rest : List (List α)} (h : Cut ps q rest) (buf : List α) :
    (reassemble buf ps).1 ++ Framing.resume (reassemble buf ps).2 rest = Framing.resume buf q := by
  induction h generalizing buf with
  | nil q => rfl
  | whole f h ih =>
      have hrest := ih []
      rw [resume_nil] at hrest
      rw [reassemble_last, List.cons_append, hrest]
      rfl
  | split n f q =>
      show (buf ++ f.take n ++ f.drop n) :: q = (buf ++ f) :: q
      rw [List.append_assoc, List.take_append_drop]

/-- A queue that has been cut to its end leaves no buffer behind. -/
theorem Cut.buffer {ps : List (Piece α)} {q rest : List (List α)} (h : Cut ps q rest) {buf : List α}
    (hbuf : q = [] → buf = []) (hrest : rest = []) : (reassemble buf ps).2 = [] := by
  induction h generalizing buf with
  | nil q => exact hbuf hrest
  | whole f h ih => exact ih (fun _ => rfl) hrest
  | split n f q => cases hrest

/-! ## A limit on the buffer -/

/-- No buffer on the way through the pieces is longer than `limit`. -/
def Fits (limit : Nat) : List α → List (Piece α) → Prop
  | _, [] => True
  | buf, p :: ps =>
      (buf ++ p.items).length ≤ limit ∧ Fits limit (if p.cont then buf ++ p.items else []) ps

theorem fits_append {limit : Nat} {buf : List α} {ps qs : List (Piece α)} :
    Fits limit buf (ps ++ qs) ↔ Fits limit buf ps ∧ Fits limit (reassemble buf ps).2 qs := by
  induction ps generalizing buf with
  | nil => simp [Fits]
  | cons p ps ih =>
      obtain ⟨cont, b⟩ := p
      cases cont <;> simp [Fits, ih, and_assoc]

/-- It is enough to bound the frames and the buffer that come out: a buffer only grows until it is
taken. -/
theorem fits_of_bound {limit : Nat} {buf : List α} {ps : List (Piece α)}
    (hframes : ∀ f ∈ (reassemble buf ps).1, f.length ≤ limit)
    (hbuf : (reassemble buf ps).2.length ≤ limit) : Fits limit buf ps := by
  -- the buffer before the pieces is bounded as well, which is what the induction needs of the tail
  suffices h : buf.length ≤ limit ∧ Fits limit buf ps from h.2
  induction ps generalizing buf with
  | nil => exact ⟨hbuf, trivial⟩
  | cons p ps ih =>
      obtain ⟨cont, b⟩ := p
      cases cont with
      | true =>
          obtain ⟨hlen, hfits⟩ := ih hframes hbuf
          refine ⟨?_, hlen, hfits⟩
          rw [List.length_append] at hlen
          omega
      | false =>
          rw [reassemble_last] at hframes hbuf
          have hhead := hframes _ List.mem_cons_self
          have htail := ih (fun f hf => hframes f (List.mem_cons_of_mem _ hf)) hbuf
          refine ⟨?_, hhead, htail.2⟩
          rw [List.length_append] at hhead
          omega

end Framing
