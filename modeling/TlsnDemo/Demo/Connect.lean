import TlsnDemo.Support.ByteStream

/-!
# The role preamble of a stream

The demo server reads the first line of each stream for its role: the
notarization itself, or a proxy connection to a host and port. It reads into
a buffer of `maxPreambleBytes` until the line is there, and hands on what
the reads gave behind it.
-/

namespace TlsnDemo.Demo

open ByteStream

def maxPreambleBytes : ℕ := 256

/-- `b'\n'`. -/
def lineFeed : UInt8 := 10

inductive ConnectError where
  | preambleTooLong (limit : ℕ)
  | preambleUnknownRole (line : String)
  | preambleInvalidTarget (target : String)
  | preambleInvalidPort (port : String)
  | targetNotAllowed (actual expected : String)
  | tcpConnect (text : String)
  | frameTooLarge (size : ℕ)
  | io (text : String)
  | json (text : String)
  deriving DecidableEq

inductive Role where
  | verify
  | connect (host : String) (port : UInt16)
  deriving DecidableEq

/-- `self.strip_prefix(start)`. -/
def stripStart (self start : String) : Option String :=
  if start.toList <+: self.toList then some (String.ofList (self.toList.drop start.toList.length))
  else none

/-- `self.rsplit_once(c)`: what is before and after the last `c`. -/
def rsplitOnce (self : String) (c : Char) : Option (String × String) :=
  let back := self.toList.reverse
  let after := back.takeWhile (· ≠ c)
  match back.dropWhile (· ≠ c) with
  | [] => none
  | _ :: before => some (String.ofList before.reverse, String.ofList after.reverse)

/-- One more digit of a `u16`, unless it overflows. -/
def pushDigit (n : ℕ) (c : Char) : Option ℕ :=
  if c.isDigit then
    let n := n * 10 + (c.toNat - '0'.toNat)
    if n < UInt16.size then some n else none
  else none

/-- `self.parse::<u16>()`: digits after an optional plus sign. -/
def parseU16 (self : String) : Option UInt16 :=
  let digits := match self.toList with
    | '+' :: digits => digits
    | digits => digits
  if digits.isEmpty then none
  else (digits.foldlM pushDigit 0).map UInt16.ofNat

def parseRole (line : String) : Except ConnectError Role :=
  if line = "VERIFY" then .ok .verify
  else
    match stripStart line "CONNECT " with
    | some rest =>
      match rsplitOnce rest ':' with
      | none => .error (.preambleInvalidTarget rest)
      | some (host, port) =>
        match parseU16 port with
        | none => .error (.preambleInvalidPort port)
        | some port => .ok (.connect host port)
    | none => .error (.preambleUnknownRole line)

example : parseRole "CONNECT api.x.com:443" = .ok (.connect "api.x.com" 443) := by rfl

/-- The role of a line of bytes. -/
def roleOf (line : List UInt8) : Except ConnectError Role :=
  match String.fromUTF8? ⟨line.toArray⟩ with
  | none => .error (.preambleUnknownRole "")
  | some line => parseRole line

section

variable {R : Type} [Source R]

/-- The loop of `readRolePreamble`, with the bytes read so far. Gives the role
with the bytes behind its line, and the stream. -/
def readRoleFrom (buf : List UInt8) (recv : R) : Except ConnectError (Role × List UInt8) × R :=
  if maxPreambleBytes ≤ buf.length then (.error (.preambleTooLong maxPreambleBytes), recv)
  else
    match read recv maxPreambleBytes with
    | (.error text, recv) => (.error (.io text), recv)
    | (.ok [], recv) => (.error (.preambleTooLong maxPreambleBytes), recv)
    | (.ok (b :: chunk), recv) =>
      match (buf ++ b :: chunk).findIdx? (· == lineFeed) with
      | none => readRoleFrom (buf ++ b :: chunk) recv
      | some idx =>
        let leftover := (buf ++ b :: chunk).drop (idx + 1)
        ((roleOf ((buf ++ b :: chunk).take idx)).map fun role => (role, leftover), recv)
termination_by maxPreambleBytes - buf.length
decreasing_by
  rw [List.length_append, List.length_cons]
  omega

def readRolePreamble (recv : R) : Except ConnectError (Role × List UInt8) × R := readRoleFrom [] recv

end

end TlsnDemo.Demo
