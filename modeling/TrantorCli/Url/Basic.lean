import TrantorCli.Lib.Str

/-!
# URLs and their errors

The record and the error type of `Url.roc`. A `Url` here is any record of that
shape; which ones the module can build is the subject of the later files.
-/

open Roc

namespace TrantorCli

/-- `[Http, Https]` -/
inductive Scheme where
  | http
  | https
  deriving DecidableEq, Repr

/-- `Url` -/
structure Url where
  scheme : Scheme
  host : Str
  port : Option UInt16
  path : Str
  query : Option Str
  fragment : Option Str
  deriving DecidableEq

namespace Url

/-- `ParseErr` -/
inductive ParseErr where
  | credentialsNotAllowed
  | emptyHost
  | internationalHostUnsupported
  | invalidCharacter (byte : UInt8)
  | invalidHost (host : Str)
  | invalidIpv4 (host : Str)
  | invalidIpv6 (host : Str)
  | invalidPercentEncoding (index : Nat)
  | invalidPort (port : Str)
  | missingAuthority
  | missingScheme
  | portOutOfRange (port : Nat)
  | unsupportedScheme (scheme : Str)
  deriving DecidableEq

/-- The same error, reported for a component that `count` more bytes precede. -/
def ParseErr.shift (count : Nat) : ParseErr → ParseErr
  | invalidPercentEncoding index => invalidPercentEncoding (index + count)
  | err => err

/-- Not shifted, an error is itself. -/
@[simp] theorem ParseErr.shift_zero (err : ParseErr) : err.shift 0 = err := by
  cases err <;> rfl

end Url

end TrantorCli
