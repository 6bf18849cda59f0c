import TlsnDemo.Demo.Connect
import TlsnDemo.Support.ByteStream
import TlsnDemo.Support.Encoding

/-!
# The frame of the outcome

When a notarization is over, the demo server reports its outcome to the
prover in a frame of JSON behind its length.
-/

namespace TlsnDemo.Demo

open ByteStream Encoding

def maxFrameBytes : ℕ := 1 <<< 20

/-- What is serialized as an object of strings, by its entries. -/
class Serialize (T : Type) where
  serialize : T → List (String × String)

inductive VerificationOutcome where
  | success (chf lastAudit : String)
  | failure (reason : String)
  deriving DecidableEq

/-- `#[serde(tag = "status")]`, with a name for each of the variants. -/
instance : Serialize VerificationOutcome where
  serialize
    | .success chf lastAudit => [("status", "success"), ("chf", chf), ("last_audit", lastAudit)]
    | .failure reason => [("status", "failure"), ("reason", reason)]

section

variable {Io T : Type} [Sink Io] [Serialize T]

/-- The writes of `writeJsonFrame`. -/
def writePayload (io : Io) (payload : List UInt8) : Except String Unit × Io :=
  let len := UInt32.ofNat payload.length
  match writeAll io (toBeBytes len) with
  | (.error text, io) => (.error text, io)
  | (.ok (), io) =>
    match writeAll io payload with
    | (.error text, io) => (.error text, io)
    | (.ok (), io) => flush io

def writeJsonFrame (json : SerdeJson) (io : Io) (value : T) : Except ConnectError Unit × Io :=
  match json.toVec (Serialize.serialize value) with
  | .error text => (.error (.json text), io)
  | .ok payload =>
    if payload.length > maxFrameBytes then (.error (.frameTooLarge payload.length), io)
    else if payload.length ≥ UInt32.size then (.error (.frameTooLarge payload.length), io)
    else
      match writePayload io payload with
      | (.error text, io) => (.error (.io text), io)
      | (.ok (), io) => (.ok (), io)

end

end TlsnDemo.Demo
