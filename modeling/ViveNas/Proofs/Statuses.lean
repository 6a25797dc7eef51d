/-
What a read that fails does to a call.

`Get` and `GetForUpdate` answer OK, NotFound or something else, and then
deliver no value. The functions that read are followed here along every
way through their text (`Prog.Path`), whatever each call replies: a log
of calls and replies, and how the call ends.

# When a call reports

A call reports a failed read if it returns, with a result it has for
failures alone, and has put nothing on the strength of the missing value.
The answer to a name that is not there is no report: -1 of
`vn_lookup_inode_no` and -ENOENT of `vn_unlink` take the failure for
absence, and so would -EEXIST of `vn_create_file` take it for data. Nor is
a fault one, which is the decoding of a value that is not there. The count
`vn_read` and `vn_readv` return is the clipped length whatever was read
(ZeroFill.lean), so that only another count could tell.

# The plan

One inversion lemma for a function says what its ways through can look
like as far as reads go (`create_path`, `lookup_path`, `openByInode_path`),
and the `_readsHonestly_iff` lemmas read the condition off it. A piece of
a log without a failed read is left off the front
(`readsHonestly_append`, `guarded_append`), so that `vn_open_file` reuses
what was shown of `vn_create_file`.
-/
import ViveNas.Proofs.Refused
import ViveNas.Proofs.Shape
import ViveNas.Proofs.ZeroFill

namespace ViveNas

open LittleEndian

-- ================================================================ the log

/-- A call with its reply. -/
abbrev Exchange := Σ c : StoreCall, c.Resp

namespace Exchange

/-- A `Put` into meta_cf that the transaction took. -/
def entered : Exchange → Bool
  | ⟨.put .metaCf _ _, .ok⟩ => true
  | _ => false

/-- A `Commit` that went through. -/
def committed : Exchange → Bool
  | ⟨.commit, .ok⟩ => true
  | _ => false

end Exchange

/-- The calls and replies of a run alone. -/
def Fs.log {α : Type} (p : Fs α) (w : World) : List Exchange :=
  Prog.observe World.handle (Prog.answered World.handle) p w

end ViveNas
