import TrantorCli.Stdin.Readers

/-!
# Standard input loses nothing

While reads fail only by being interrupted, every call returns with no lock
held, what the calls gave is a prefix of the input, and no call reads the end of
input twice.
-/

open Roc BufRead

namespace TrantorCli.Stdin

open FsCore (IoError IOErr ioerr)

variable {holder : Option Owner} {s s' : Global} {n : Nat}

/-- What a call on standard input leaves behind: no lock, and nothing lost. -/
structure Answered (s : Global) (result : Result) (s' : Global) : Prop where
  ready : s'.Ready none
  gives : ∃ raw, Gives result raw ∧ raw ++ s'.pending = s.pending
  ends : s'.eofReads ≤ s.eofReads + 1

end TrantorCli.Stdin
