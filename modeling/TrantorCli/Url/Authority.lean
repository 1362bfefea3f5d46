import TrantorCli.Lib.Checked
import TrantorCli.Url.Host

/-!
# Authorities

`parse_authority` separates a host from its port and validates both. A `Url`
stores a host in one of two forms, the second of them in brackets.
-/

open Roc

namespace TrantorCli.Url

/-- `parse_authority` -/
def parseAuthority (authority : Str) (scheme : Scheme) :
    Except ParseErr (Str × Option UInt16) :=
  if startsWith authority (.lit "[") then
    match splitFirst authority (.lit "]") with
    | none => .error (.invalidIpv6 authority)
    | some (before, after) => do
      let rawIpv6 := dropPrefix before (.lit "[")
      let host ← validateIpv6 rawIpv6
      let port :=
        if after.isEmpty then .ok none
        else if startsWith after (.lit ":") then parsePort (dropPrefix after (.lit ":")) scheme
        else .error (.invalidIpv6 authority)
      return (Str.concat (Str.concat (.lit "[") host) (.lit "]"), ← port)
  else do
    let (rawHost, rawPort) :=
      match splitLast authority (.lit ":") with
      | some (before, after) => (before, some after)
      | none => (authority, none)
    let host ← validateHost rawHost
    let port :=
      match rawPort with
      | none => .ok none
      | some raw => parsePort raw scheme
    return (host, ← port)

/-- The port as `serialize` writes it. -/
def portStr (port : Option UInt16) : Str :=
  match port with
  | none => .lit ""
  | some value => Str.concat (.lit ":") (decimalStr value.toNat)

/-- An address in brackets. -/
def bracketed (host : Str) : Str := Str.concat (Str.concat (.lit "[") host) (.lit "]")

/-- A host as a `Url` stores it. -/
inductive CanonicalHost : Str → Prop where
  | plain {host : Str} (h : PlainHost host) : CanonicalHost host
  | ipv6 {groups : List UInt16} (hlen : groups.length = 8) :
      CanonicalHost (bracketed (serializeIpv6 groups))

/-- A bracketed host has its bytes between brackets. -/
@[simp] theorem bracketed_bytes (host : Str) :
    (bracketed host).bytes = 91 :: host.bytes ++ [93] := rfl

/-- A byte that can stand in a canonical authority. -/
def isAuthorityByte (byte : UInt8) : Bool :=
  isHostByte byte || byte == 58 || byte == 91 || byte == 93

/-- Hex digits may stand in an authority. -/
theorem isAuthorityByte_of_isHex {byte : UInt8} (h : isHex byte = true) :
    isAuthorityByte byte = true := by
  unfold isAuthorityByte isHostByte
  grind

/-- Digits may stand in an authority. -/
theorem isAuthorityByte_of_isDigit {byte : UInt8} (h : isDigit byte = true) :
    isAuthorityByte byte = true := isAuthorityByte_of_isHex (by rw [isHex, h]; rfl)

end TrantorCli.Url
