import TlsnDemo.Demo.Page
import TlsnDemo.Support.Script
import TlsnDemo.Wasm.Streams

/-!
# The worker of a proof

The page starts a worker, which opens a session with the server, tells it on
two streams what they are for, and proves over them. The browser is a
parameter: it is given by the answers to what the worker awaits. The lines
of the log apart, a worker posts a message once, when its session is closed
(`answers_once`).
-/

namespace TlsnDemo.Demo.Worker

open Script

def maxSentData : ℕ := 1 <<< 12

def maxRecvData : ℕ := 1 <<< 14

def buildProverInputs : Wasm.JsProverInputs where
  serverName := "swissbank.tlsnotary.org"
  serverCertDer := []
  maxSentData := Worker.maxSentData
  maxRecvData := Worker.maxRecvData
  requestMethod := "GET"
  requestUri := "/balances"
  requestHeaders := [
    ("Host", "swissbank.tlsnotary.org"),
    ("Authorization", "Bearer random_auth_token"),
    ("Accept-Encoding", "identity"),
    ("Connection", "close")]
  requestRevealConfig := { commitHeaders := ["authorization"] }
  responseRevealConfig := {
    revealBodyFields := [.quoted ".accounts.CHF", .quoted ".last_audit"]
    commitBodyFields := [.quoted ".account_id"] }

/-- The two streams of a session. -/
inductive Stream where
  | verifier
  | proxy
  deriving DecidableEq

/-- What the worker does that it awaits, or that leaves it. -/
inductive Call where
  | init
  | installSpawnBlobPatch
  | initializePool
  | newWebTransport (connectUrl certHashHex : String)
  | ready
  | createBidirectionalStream (stream : Stream)
  | writePreamble (stream : Stream) (line : String)
  | proveStreams (inputs : Wasm.JsProverInputs)
  | close
  | postMessage (message : Message)

/-- The configuration that the page starts a worker with. -/
structure Config where
  connectUrl : String
  certHashHex : String

/-- The browser, by its answers to what the worker awaits; errors are given by
their text. Each promise settles: one that never does is not among them. -/
structure Browser where
  init : Except String Unit
  installSpawnBlobPatch : Except String Unit
  initializePool : Except String Unit
  newWebTransport : Config → Except String Unit
  ready : Except String Unit
  createBidirectionalStream : Stream → Except String Unit
  writePreamble : Stream → String → Except String Unit
  proveStreams : Wasm.JsProverInputs → Except String Wasm.JsProverOutput
  close : Except String Unit

variable (browser : Browser) (config : Config)

/-- What is done in a session, until it is closed. -/
def overSession : Script Call String Wasm.JsProverOutput := do
  ask .ready browser.ready
  ask (.createBidirectionalStream .verifier) (browser.createBidirectionalStream .verifier)
  ask (.createBidirectionalStream .proxy) (browser.createBidirectionalStream .proxy)
  ask (.writePreamble .verifier "VERIFY\n") (browser.writePreamble .verifier "VERIFY\n")
  ask (.writePreamble .proxy "CONNECT swissbank.tlsnotary.org:443\n")
    (browser.writePreamble .proxy "CONNECT swissbank.tlsnotary.org:443\n")
  ask (.proveStreams buildProverInputs) (browser.proveStreams buildProverInputs)

def runProve : Script Call String Wasm.JsProverOutput := do
  ask .init browser.init
  ask .installSpawnBlobPatch browser.installSpawnBlobPatch
  ask .initializePool browser.initializePool
  ask (.newWebTransport config.connectUrl config.certHashHex) (browser.newWebTransport config)
  tryFinally (overSession browser) (attempt (ask .close browser.close))

/-- The listener of the worker: nothing, unless the page says to start. -/
def onMessage (browser : Browser) : Option Config → List Call
  | none => []
  | some config =>
    (runProve browser config).calls ++
      [.postMessage (match (runProve browser config).result with
        | .ok result => .result result
        | .error text => .error text)]

/-! ## Its runs -/

variable {browser : Browser} {config : Config} {result : Wasm.JsProverOutput}

/-- **A session that is opened.** -/
structure Opens (browser : Browser) (config : Config) : Prop where
  init : browser.init = .ok ()
  installSpawnBlobPatch : browser.installSpawnBlobPatch = .ok ()
  initializePool : browser.initializePool = .ok ()
  newWebTransport : browser.newWebTransport config = .ok ()

/-- **Streams whose purposes the server is told.** -/
structure Tells (browser : Browser) : Prop where
  ready : browser.ready = .ok ()
  createVerifier : browser.createBidirectionalStream .verifier = .ok ()
  createProxy : browser.createBidirectionalStream .proxy = .ok ()
  writeVerifier : browser.writePreamble .verifier "VERIFY\n" = .ok ()
  writeProxy : browser.writePreamble .proxy "CONNECT swissbank.tlsnotary.org:443\n" = .ok ()

theorem result_overSession : (overSession browser).result = .ok result ↔
    Tells browser ∧ browser.proveStreams buildProverInputs = .ok result := by
  unfold overSession
  simp only [result_bind_eq_ok, result_ask]
  constructor
  · rintro ⟨⟨⟩, h1, ⟨⟩, h2, ⟨⟩, h3, ⟨⟩, h4, ⟨⟩, h5, h⟩
    exact ⟨⟨h1, h2, h3, h4, h5⟩, h⟩
  · rintro ⟨⟨h1, h2, h3, h4, h5⟩, h⟩
    exact ⟨(), h1, (), h2, (), h3, (), h4, (), h5, h⟩

theorem mem_overSession_proveStreams :
    .proveStreams buildProverInputs ∈ (overSession browser).calls ↔ Tells browser := by
  unfold overSession
  simp only [mem_calls_bind, calls_ask, result_ask, List.mem_singleton, reduceCtorEq, false_or,
    and_true]
  constructor
  · rintro ⟨⟨⟩, h1, ⟨⟩, h2, ⟨⟩, h3, ⟨⟩, h4, ⟨⟩, h5⟩
    exact ⟨h1, h2, h3, h4, h5⟩
  · rintro ⟨h1, h2, h3, h4, h5⟩
    exact ⟨(), h1, (), h2, (), h3, (), h4, (), h5⟩

/-- The calls that open a session, in order. -/
def opening (config : Config) : List Call :=
  [.init, .installSpawnBlobPatch, .initializePool,
    .newWebTransport config.connectUrl config.certHashHex]

/-- The calls that are made over it. -/
def proving : List Call :=
  [.ready, .createBidirectionalStream .verifier, .createBidirectionalStream .proxy,
    .writePreamble .verifier "VERIFY\n",
    .writePreamble .proxy "CONNECT swissbank.tlsnotary.org:443\n", .proveStreams buildProverInputs]

theorem calls_overSession_prefix : (overSession browser).calls <+: proving := by
  unfold overSession proving
  exact calls_ask_bind_prefix fun _ => calls_ask_bind_prefix fun _ => calls_ask_bind_prefix fun _ =>
    calls_ask_bind_prefix fun _ => calls_ask_bind_prefix fun _ => ⟨[], by rw [calls_ask, List.append_nil]⟩

/-- A session that is opened is closed in the end. -/
theorem runProve_of_opens (h : Opens browser config) :
    runProve browser config =
      ⟨opening config ++ (overSession browser).calls ++ [.close], (overSession browser).result⟩ := by
  unfold runProve
  rw [bind_of_ok (by rw [result_ask, h.init]), bind_of_ok (by rw [result_ask, h.installSpawnBlobPatch]),
    bind_of_ok (by rw [result_ask, h.initializePool]),
    bind_of_ok (by rw [result_ask, h.newWebTransport])]
  simp [opening]

/-- And one that is not has no further calls. -/
theorem runProve_of_not_opens (h : ¬ Opens browser config) :
    (runProve browser config).calls <+: opening config ∧
      ∃ text, (runProve browser config).result = .error text := by
  unfold runProve
  rcases hinit : browser.init with text | ⟨⟩
  · rw [bind_of_error (by rw [result_ask])]
    exact ⟨⟨_, rfl⟩, text, rfl⟩
  rw [bind_of_ok (by rw [result_ask])]
  rcases hpatch : browser.installSpawnBlobPatch with text | ⟨⟩
  · rw [bind_of_error (by rw [result_ask])]
    exact ⟨⟨_, rfl⟩, text, rfl⟩
  rw [bind_of_ok (by rw [result_ask])]
  rcases hpool : browser.initializePool with text | ⟨⟩
  · rw [bind_of_error (by rw [result_ask])]
    exact ⟨⟨_, rfl⟩, text, rfl⟩
  rw [bind_of_ok (by rw [result_ask])]
  rcases hsession : browser.newWebTransport config with text | ⟨⟩
  · rw [bind_of_error (by rw [result_ask])]
    exact ⟨⟨[], rfl⟩, text, rfl⟩
  · exact absurd ⟨hinit, hpatch, hpool, hsession⟩ h

/-- **A run returns** what was proved over a session that was opened, once the
server was told what its streams are for. -/
theorem result_runProve : (runProve browser config).result = .ok result ↔
    Opens browser config ∧ Tells browser ∧ browser.proveStreams buildProverInputs = .ok result := by
  by_cases hopens : Opens browser config
  · rw [runProve_of_opens hopens, result_overSession]
    exact (and_iff_right hopens).symm
  · obtain ⟨-, text, htext⟩ := runProve_of_not_opens hopens
    rw [htext]
    constructor
    · intro h
      cases h
    · intro h
      exact absurd h.1 hopens

/-- It posts nothing itself. -/
theorem postMessage_not_mem_runProve {message : Message} :
    .postMessage message ∉ (runProve browser config).calls := by
  have hquiet : .postMessage message ∉ opening config ++ proving ++ [.close] := by
    simp [opening, proving]
  intro hmem
  by_cases hopens : Opens browser config
  · have hsession : (overSession browser).calls <+: proving := calls_overSession_prefix
    rw [runProve_of_opens hopens] at hmem
    simp only [List.mem_append] at hmem hquiet
    exact hquiet (hmem.imp_left (Or.imp_right fun h => hsession.subset h))
  · have hcalls := (runProve_of_not_opens hopens).1
    simp only [List.mem_append] at hquiet
    exact hquiet (Or.inl (Or.inl (hcalls.subset hmem)))

/-- A balance is posted exactly if it is the result of the run. -/
theorem posted_iff : .postMessage (.result result) ∈ onMessage browser (some config) ↔
    (runProve browser config).result = .ok result := by
  rw [onMessage, List.mem_append]
  constructor
  · rintro (hmem | hmem)
    · exact absurd hmem postMessage_not_mem_runProve
    · rcases hresult : (runProve browser config).result with text | proved
      · simp [hresult] at hmem
      · simp only [hresult, List.mem_singleton, Call.postMessage.injEq, Message.result.injEq] at hmem
        rw [hmem]
  · intro hresult
    rw [hresult]
    exact Or.inr List.mem_cons_self

/-- **A worker that is started answers once**, after all else it does, in a
browser that lets every promise settle. A session that it opens it closes, once
and last, whatever fails over it; over it the worker tells the server what both
streams are for before it proves, and proves exactly if it could tell. Its
answer is a balance exactly if it proved it. -/
theorem answers_once (browser : Browser) (config : Config) :
    ∃ run message, onMessage browser (some config) = run ++ [.postMessage message] ∧
      (∀ other, .postMessage other ∉ run) ∧
      (¬ Opens browser config → run <+: opening config) ∧
      (Opens browser config → ∃ session, run = opening config ++ session ++ [.close] ∧
        session <+: proving ∧ (.proveStreams buildProverInputs ∈ session ↔ Tells browser)) ∧
      ∀ result, message = .result result ↔ Opens browser config ∧ Tells browser ∧
        browser.proveStreams buildProverInputs = .ok result := by
  refine ⟨(runProve browser config).calls, _, rfl, fun other => postMessage_not_mem_runProve,
    fun h => (runProve_of_not_opens h).1, fun hopens => ?_, fun result => ?_⟩
  · rw [runProve_of_opens hopens]
    exact ⟨_, rfl, calls_overSession_prefix, mem_overSession_proveStreams⟩
  · rw [← result_runProve]
    rcases hresult : (runProve browser config).result with text | proved <;> simp

end TlsnDemo.Demo.Worker
