import TlsnDemo.BalanceVerifier
import TlsnDemo.Demo.Outcome
import TlsnDemo.Support.Script

/-!
# The verifier of a session

The verifier takes a prover through a session of the tlsn library and
checks on the way what the prover commits to and what it asks to prove.
The library, with the prover behind it, is a parameter: a session is given
by the answers to the calls that the verifier makes. When the session is
over, the verifier reads the transcript it got, and the server reports
over the socket what came of it.
-/

namespace TlsnDemo.Demo

open ByteStream Encoding Script

def maxSentData : ℕ := 1 <<< 12

def maxRecvData : ℕ := 1 <<< 14

/-- The limits that a prover commits to. -/
structure MpcTlsConfig where
  maxSentData : ℕ
  maxRecvData : ℕ
  deriving DecidableEq

inductive VerifierCommitStart where
  | mpc (config : MpcTlsConfig)
  /-- A protocol other than MPC-TLS. -/
  | other
  deriving DecidableEq

/-- What a prover asks to prove: whether the identity of its server, and
whether anything of the transcript. -/
structure ProveRequest where
  serverIdentity : Bool
  reveal : Bool
  deriving DecidableEq

/-- What is proved: the name of the server, and the received bytes of the
partial transcript. -/
structure VerifierOutput where
  serverName : Option String
  transcript : Option (List UInt8)
  deriving DecidableEq

/-- A session of the library, by its answers. The driver of the session gives
the socket back when the session is over, or is dropped before. -/
structure VerifierSession (T : Type) where
  newVerifier : Except String Unit
  commit : Except String VerifierCommitStart
  rejectCommit : String → Except String Unit
  accept : Except String Unit
  run : Except String Unit
  verify : Except String ProveRequest
  rejectProof : String → Except String Unit
  closeRejected : Except String Unit
  acceptProof : Except String VerifierOutput
  close : Except String Unit
  driver : Option (Except String T)

/-- The calls of the verifier. -/
inductive SessionCall where
  | newVerifier
  | commit
  | rejectCommit (reason : String)
  | accept
  | run
  | verify
  | rejectProof (reason : String)
  | closeRejected
  | acceptProof
  | close
  | closeHandle
  deriving DecidableEq

/-- `BalanceVerifyError`, with what `extract_balance` fails with as a kind of
its own. -/
inductive VerifyError where
  | serverName (expected actual : String)
  | protocolPolicy (reason : String)
  | requestPolicy (reason : String)
  | tlsn (text : String)
  | sessionDriverCancelled
  | balance (error : BalanceVerifyError)
  deriving DecidableEq

/-- The texts of the errors of libraries. -/
structure LibraryTexts where
  utf8 : String
  fromUtf8 : String
  invalidSyntax : String

def ParseError.text (texts : LibraryTexts) : ParseError → String
  | .invalidSyntax => "invalid syntax: " ++ texts.invalidSyntax
  | .unexpectedRule text => "unexpected rule: " ++ text
  | .missingField text => "missing field: " ++ text

def BalanceVerifyError.text (texts : LibraryTexts) : BalanceVerifyError → String
  | .missingBodyField key => "missing response body field '" ++ key ++ "'"
  | .missingFieldValue key => "missing value for field '" ++ key ++ "'"
  | .utf8 => texts.utf8
  | .fromUtf8 => texts.fromUtf8
  | .parse error => ParseError.text texts error

def VerifyError.text (texts : LibraryTexts) : VerifyError → String
  | .serverName expected actual => "expected server name '" ++ expected ++ "', got '" ++ actual ++ "'"
  | .protocolPolicy reason => "protocol policy rejected: " ++ reason
  | .requestPolicy reason => "request policy rejected: " ++ reason
  | .tlsn text => text
  | .sessionDriverCancelled => "session driver cancelled"
  | .balance error => BalanceVerifyError.text texts error

def protocolPolicy (config : MpcTlsConfig) : Except String Unit :=
  if config.maxSentData > Demo.maxSentData then
    .error ("max_sent_data " ++ toString config.maxSentData ++ " exceeds limit " ++
      toString Demo.maxSentData)
  else if config.maxRecvData > Demo.maxRecvData then
    .error ("max_recv_data " ++ toString config.maxRecvData ++ " exceeds limit " ++
      toString Demo.maxRecvData)
  else .ok ()

def requestPolicy (serverIdentityRevealed revealPresent : Bool) : Except String Unit :=
  if serverIdentityRevealed = false then .error "missing required server identity reveal"
  else if revealPresent = false then .error "missing required transcript reveal payload"
  else .ok ()

section

variable [ToLowercase] {T : Type}

/-- The closure of `verify_balance` that validates what was proved. -/
def validate (output : VerifierOutput) : Except VerifyError BalanceOutput :=
  match output.serverName with
  | none => .error (.balance (.missingBodyField "server_name"))
  | some serverName =>
    if serverName ≠ "swissbank.tlsnotary.org" then
      .error (.serverName "swissbank.tlsnotary.org" serverName)
    else
      match output.transcript with
      | none => .error (.balance (.missingBodyField "transcript"))
      | some transcript => (extractBalance transcript).mapError .balance

/-- A call of the library. -/
def askTlsn {α : Type} (call : SessionCall) (answer : Except String α) :
    Script SessionCall VerifyError α :=
  ask call (answer.mapError .tlsn)

def verifyBalance (session : VerifierSession T) :
    Script SessionCall VerifyError (T × Except VerifyError BalanceOutput) := do
  askTlsn .newVerifier session.newVerifier
  let commitStart ← askTlsn .commit session.commit
  match commitStart with
  | .other => fail (.protocolPolicy "expected MPC-TLS protocol")
  | .mpc config =>
    match protocolPolicy config with
    | .error reason => do
      askTlsn (.rejectCommit reason) (session.rejectCommit reason)
      fail (.protocolPolicy reason)
    | .ok () => do
      askTlsn .accept session.accept
      askTlsn .run session.run
      let request ← askTlsn .verify session.verify
      match requestPolicy request.serverIdentity request.reveal with
      | .error reason => do
        askTlsn (.rejectProof reason) (session.rejectProof reason)
        askTlsn .closeRejected session.closeRejected
        fail (.requestPolicy reason)
      | .ok () => do
        let output ← askTlsn .acceptProof session.acceptProof
        askTlsn .close session.close
        ask .closeHandle (.ok ())
        match session.driver with
        | none => fail .sessionDriverCancelled
        | some (.error text) => fail (.tlsn text)
        | some (.ok socket) => pure (socket, validate output)

/-! ## Reporting -/

/-- The errors of a notarization: of the session, or of the report. -/
inductive NotarizeError where
  | balanceVerify (error : VerifyError)
  | connect (error : ConnectError)
  deriving DecidableEq

/-- The string of some bytes that are valid UTF-8. -/
def stringOf (bytes : List UInt8) : String := (textOf bytes).getD ""

/-- What is reported of a validation. -/
def outcomeOf (texts : LibraryTexts) :
    Except VerifyError BalanceOutput → VerificationOutcome
  | .ok output => .success (stringOf output.chfBalance) (stringOf output.lastAudit)
  | .error err => .failure (err.text texts)

/-- Gives the result, and the socket if it was recovered. -/
def runNotarizeStream [Sink T] (json : SerdeJson) (texts : LibraryTexts)
    (session : VerifierSession T) : Except NotarizeError Unit × Option T :=
  match (verifyBalance session).result with
  | .error error => (.error (.balanceVerify error), none)
  | .ok (io, result) =>
    match writeJsonFrame json io (outcomeOf texts result) with
    | (.error error, io) => (.error (.connect error), some io)
    | (.ok (), io) =>
      match shutdown io with
      | (.error text, io) => (.error (.connect (.io text)), some io)
      | (.ok (), io) => (.ok (), some io)

end

end TlsnDemo.Demo
