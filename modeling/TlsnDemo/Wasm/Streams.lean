import TlsnDemo.Disclosing.Prove
import TlsnDemo.Wasm.Prover

/-!
# Proving over two streams

In the browser the prover is given its inputs as JSON and two streams, one
to the verifier and one to the server. It builds its configuration from the
inputs, proves over the streams, and reads the outcome from the stream of
the verifier.
-/

namespace TlsnDemo.Wasm

open ByteStream Encoding

structure JsProverInputs where
  serverName : String
  serverCertDer : List UInt8
  maxSentData : ℕ
  maxRecvData : ℕ
  requestMethod : String
  requestUri : String
  requestHeaders : List (String × String)
  requestRevealConfig : RevealConfig
  responseRevealConfig : RevealConfig
  deriving DecidableEq

inductive RootCertStore where
  | mozilla
  | roots (certs : List (List UInt8))
  deriving DecidableEq

structure HttpRequest where
  method : String
  uri : String
  headers : List (String × String)
  deriving DecidableEq

/-- The configuration of a prover: of its TLS client, the limits it commits
to, its request, and what it discloses. -/
structure ProverConfigBundle where
  serverName : String
  rootStore : RootCertStore
  maxSentData : ℕ
  maxRecvData : ℕ
  request : HttpRequest
  requestRevealConfig : RevealConfig
  responseRevealConfig : RevealConfig
  deriving DecidableEq

/-- The checks that the libraries make of a configuration. -/
structure ConfigChecks where
  dnsName : String → Except String Unit
  tlsClientConfig : String → RootCertStore → Except String Unit
  mpcTlsConfig : ℕ → ℕ → Except String Unit
  method : String → Except String Unit
  request : HttpRequest → Except String Unit

def buildProverConfig (checks : ConfigChecks) (inputs : JsProverInputs) :
    Except String ProverConfigBundle := do
  checks.dnsName inputs.serverName
  let rootStore : RootCertStore :=
    if inputs.serverCertDer.isEmpty then .mozilla else .roots [inputs.serverCertDer]
  checks.tlsClientConfig inputs.serverName rootStore
  checks.mpcTlsConfig inputs.maxSentData inputs.maxRecvData
  checks.method inputs.requestMethod
  let request : HttpRequest := ⟨inputs.requestMethod, inputs.requestUri, inputs.requestHeaders⟩
  checks.request request
  return {
    serverName := inputs.serverName, rootStore
    maxSentData := inputs.maxSentData, maxRecvData := inputs.maxRecvData
    request
    requestRevealConfig := inputs.requestRevealConfig
    responseRevealConfig := inputs.responseRevealConfig }

/-- The errors of proving over two streams. -/
inductive ProveStreamsError where
  | config (text : String)
  | stream (text : String)
  | prove (error : ProveError)
  | outcome (error : OutcomeError)
  deriving DecidableEq

section

variable [ToLowercase] {T : Type} [Source T] {json : SerdeJson} {checks : ConfigChecks}
  {streams : Except String Unit} {session : ProverConfigBundle → ProverSession T}
  {inputs : JsProverInputs} {output : JsProverOutput}

/-- `prove_streams`, on inputs that are parsed. The two streams may be of no
use, and the session of the library is that of the configuration. -/
def proveStreams (json : SerdeJson) (checks : ConfigChecks) (streams : Except String Unit)
    (session : ProverConfigBundle → ProverSession T) (inputs : JsProverInputs) :
    Except ProveStreamsError JsProverOutput := do
  let config ← (buildProverConfig checks inputs).mapError .config
  streams.mapError .stream
  let (verifierIo, _) ←
    ((session config).run config.requestRevealConfig config.responseRevealConfig).result.mapError
      .prove
  (readVerificationOutcome json verifierIo).1.mapError .outcome

omit [ToLowercase] in
/-- The configuration keeps the inputs. -/
theorem buildProverConfig_eq_ok {config : ProverConfigBundle}
    (h : buildProverConfig checks inputs = .ok config) :
    config = {
      serverName := inputs.serverName
      rootStore := if inputs.serverCertDer.isEmpty then .mozilla else .roots [inputs.serverCertDer]
      maxSentData := inputs.maxSentData, maxRecvData := inputs.maxRecvData
      request := ⟨inputs.requestMethod, inputs.requestUri, inputs.requestHeaders⟩
      requestRevealConfig := inputs.requestRevealConfig
      responseRevealConfig := inputs.responseRevealConfig } := by
  unfold buildProverConfig at h
  simp only [Support.bind_eq_ok, Support.pure_eq_ok] at h
  obtain ⟨-, -, -, -, -, -, -, -, -, -, rfl⟩ := h
  rfl

/-- **An output** is what was read from the socket that a session gave back. -/
theorem proveStreams_eq_ok :
    proveStreams json checks streams session inputs = .ok output ↔
      ∃ config io proved, buildProverConfig checks inputs = .ok config ∧ streams = .ok () ∧
        ((session config).run inputs.requestRevealConfig inputs.responseRevealConfig).result =
          .ok (io, proved) ∧ (readVerificationOutcome json io).1 = .ok output := by
  unfold proveStreams
  simp only [Support.bind_eq_ok, mapError_eq_ok]
  constructor
  · rintro ⟨config, hconfig, ⟨⟩, hstreams, ⟨io, proved⟩, hrun, hread⟩
    obtain rfl := buildProverConfig_eq_ok hconfig
    exact ⟨_, io, proved, hconfig, hstreams, hrun, hread⟩
  · rintro ⟨config, io, proved, hconfig, hstreams, hrun, hread⟩
    obtain rfl := buildProverConfig_eq_ok hconfig
    exact ⟨_, hconfig, (), hstreams, (io, proved), hrun, hread⟩

end

end TlsnDemo.Wasm
