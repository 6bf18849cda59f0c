import TlsnDemo.Support.ByteStream
import TlsnDemo.Support.Encoding

/-!
# The verifier's outcome in the browser

After a proof the browser reads the outcome of its verification from the
stream, as a frame of JSON behind its length.
-/

namespace TlsnDemo.Wasm

open ByteStream Encoding

def maxFrameBytes : ℕ := 1 <<< 20

/-- The errors of reading an outcome. -/
inductive OutcomeError where
  | io (text : String)
  | json (text : String)
  | frameTooLarge (len : ℕ)
  | verifierPolicyRejected (reason : String)
  deriving DecidableEq

structure JsProverOutput where
  chfBalance : String
  lastAudit : String
  deriving DecidableEq

inductive VerificationOutcome where
  | success (chf lastAudit : String)
  | failure (reason : String)
  deriving DecidableEq

/-- `#[serde(tag = "status", rename_all = "camelCase")]`: the case is that of the
variants, and each of these has a name of its own; the fields keep theirs. -/
def VerificationOutcome.deserialize (entries : Entries) : Except String VerificationOutcome :=
  match field entries "status" with
  | .error text => .error text
  | .ok status =>
    if status = "success" then
      match field entries "chf", field entries "last_audit" with
      | .error text, _ => .error text
      | .ok _, .error text => .error text
      | .ok chf, .ok lastAudit => .ok (.success chf lastAudit)
    else if status = "failure" then (field entries "reason").map .failure
    else .error ("unknown variant `" ++ status ++ "`, expected `success` or `failure`")

def readVerificationOutcome {Io : Type} [Source Io] (json : SerdeJson) (io : Io) :
    Except OutcomeError JsProverOutput × Io :=
  match readExact io 4 with
  | (.error text, io) => (.error (.io text), io)
  | (.ok lenBuf, io) =>
    let len := (fromBeBytes lenBuf).toNat
    if len > maxFrameBytes then (.error (.frameTooLarge len), io)
    else
      match readExact io len with
      | (.error text, io) => (.error (.io text), io)
      | (.ok payload, io) =>
        match json.fromSlice payload with
        | .error text => (.error (.json text), io)
        | .ok entries =>
          match VerificationOutcome.deserialize entries with
          | .error text => (.error (.json text), io)
          | .ok (.success chf lastAudit) => (.ok ⟨chf, lastAudit⟩, io)
          | .ok (.failure reason) => (.error (.verifierPolicyRejected reason), io)

end TlsnDemo.Wasm
