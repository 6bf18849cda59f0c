import TlsnDemo.Reveal

/-!
# The verifier's reading of the transcript

The verifier gets a partial transcript: the bytes the prover revealed,
and zero everywhere else. It parses what it sees with the redacted
grammar and reads two keys off the flat body map.
-/

namespace TlsnDemo

/-- `received_unsafe` of a partial transcript: every byte outside the
revealed positions is zero. -/
def redact (data : List UInt8) (revealed : ℕ → Bool) : List UInt8 :=
  data.mapIdx fun i b => if revealed i then b else 0

structure BalanceOutput where
  chfBalance : List UInt8
  lastAudit : List UInt8
  deriving DecidableEq, Repr

inductive BalanceVerifyError where
  | missingBodyField (key : String)
  | missingFieldValue (key : String)
  | utf8
  | fromUtf8
  | parse (error : ParseError)
  deriving DecidableEq, Repr

def bodyText (body : StringMap RedactedBody) (data : List UInt8) (key : String) :
    Except BalanceVerifyError (List UInt8) := do
  let field ← match body.lookup key with
    | some field => pure field
    | none => throw (.missingBodyField key)
  let range := match field with
    | .keyValue _ value => value
    | .value range => some range
  let range ← match range with
    | some range => pure range
    | none => throw (.missingFieldValue key)
  (fromUtf8 (slice data range)).mapError fun _ => .utf8

/-- `extract_balance`, on the received bytes of the partial transcript. -/
def extractBalance [ToLowercase] (data : List UInt8) :
    Except BalanceVerifyError BalanceOutput := do
  let received ← (fromUtf8 data).mapError fun _ => .fromUtf8
  let response ← (parseRedactedResponse received).mapError .parse
  let chfBalance ← bodyText response.body data ".CHF"
  let lastAudit ← bodyText response.body data ".last_audit"
  return { chfBalance, lastAudit }

end TlsnDemo
