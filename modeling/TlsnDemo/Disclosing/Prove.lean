import TlsnDemo.Disclosing.Rules
import TlsnDemo.Reading.Messages
import TlsnDemo.Support.Script
import TlsnDemo.Syntax.Ascii

/-!
# The prover of a session

The prover sends its request to the server over the connection of a
session, and proves of the two messages what the configurations select.
The library, with the verifier and the server behind it, is a parameter: a
session is given by the answers to the calls that the prover makes. A proof
is made only if the server's status was 200 and every rule of both
configurations matched, and it discloses exactly the two plans
(`proves_selected`).
-/

namespace TlsnDemo

open Script Disclose

/-- The two messages of a session. -/
structure Transcript where
  sent : List UInt8
  received : List UInt8
  deriving DecidableEq

/-- What is to be proved: whether the identity of the server, and what the
builders of the transcript were given. -/
structure ProveConfig where
  serverIdentity : Bool
  disclosures : List Disclosure
  deriving DecidableEq

/-- The output of the prover, apart from what it hands on of the library's. -/
structure ProverOutput where
  sent : List UInt8
  received : List UInt8
  responseBody : List UInt8
  deriving DecidableEq

/-- A session of the library, by its answers. The response is its status and,
when all of it is there, its body; the driver gives the socket back when
the session is over, or is dropped before. -/
structure ProverSession (T : Type) where
  newProver : Except String Unit
  commit : Except String Unit
  connect : Except String Unit
  handshake : Except String Unit
  /-- The prover that is left when the connection is closed. -/
  connected : Except String Transcript
  connection : Except String Unit
  response : Except String (ℕ × Except String (List UInt8))
  builders : Tlsn
  buildCommit : Except String Unit
  buildProve : Except String Unit
  prove : ProveConfig → Except String Unit
  close : Except String Unit
  driver : Option (Except String T)

/-- The calls of the prover. -/
inductive ProverCall where
  | newProver
  | commit
  | connect
  | handshake
  | exchange
  | prove (config : ProveConfig)
  | close
  | closeHandle
  deriving DecidableEq

inductive ProveError where
  | reveal (error : Error)
  | tlsn (text : String)
  | hyper (text : String)
  | httpRequestFailed (status : ℕ)
  | sessionDriverCancelled
  deriving DecidableEq

namespace ProverSession

variable {T : Type} (session : ProverSession T)

/-- The task that sends the request and collects the response. -/
def requestTask : Except ProveError (List UInt8) :=
  match session.response with
  | .error text => .error (.hyper text)
  | .ok (status, body) =>
    if status ≠ 200 then .error (.httpRequestFailed status) else body.mapError .hyper

/-- What the three futures give that are joined. -/
def exchanged : Except ProveError (Transcript × List UInt8) := do
  let prover ← session.connected.mapError .tlsn
  session.connection.mapError .hyper
  let body ← session.requestTask
  return (prover, body)

def executeHttpExchange : Script ProverCall ProveError (Transcript × List UInt8) := do
  ask .handshake (session.handshake.mapError .hyper)
  ask .exchange session.exchanged

variable [ToLowercase] (request response : RevealConfig)

def buildProveConfig (transcript : Transcript) : Except ProveError ProveConfig := do
  let disclose : Disclose Unit := do
    revealRequest session.builders transcript.sent request
    revealResponse session.builders transcript.received response
  (disclose.runFrom []).1.mapError .reveal
  session.buildCommit.mapError .tlsn
  session.buildProve.mapError .tlsn
  return { serverIdentity := true, disclosures := disclose.calls }

/-- `Prover::prove`, with the configurations of its bundle. -/
def run : Script ProverCall ProveError (T × ProverOutput) := do
  ask .newProver (session.newProver.mapError .tlsn)
  ask .commit (session.commit.mapError .tlsn)
  ask .connect (session.connect.mapError .tlsn)
  let (transcript, responseBody) ← session.executeHttpExchange
  match session.buildProveConfig request response transcript with
  | .error e => fail e
  | .ok config => do
    ask (.prove config) ((session.prove config).mapError .tlsn)
    ask .close (session.close.mapError .tlsn)
    ask .closeHandle (.ok ())
    match session.driver with
    | none => fail .sessionDriverCancelled
    | some (.error text) => fail (.tlsn text)
    | some (.ok verifierIo) => pure (verifierIo, ⟨transcript.sent, transcript.received, responseBody⟩)

end ProverSession

/-! ## What is selected -/

section

variable [ToLowercase] {tlsn : Tlsn} {config : RevealConfig}

/-- **The plan of a request**: all of it where there is no rule, and else that
of its rules, which all match. -/
inductive RequestPlan (s : List UInt8) (config : RevealConfig) : List Disclosure → Prop
  | whole : config.IsEmpty → RequestPlan s config [⟨.sent, .reveal, ⟨0, s.length⟩⟩]
  | rules {parsed : StandardRequest} : ¬ config.IsEmpty → parseStandardRequest s = .ok parsed →
      RulesMatch parsed.headers parsed.body config →
      RequestPlan s config (plan .sent parsed.headers parsed.body (requestLineRange parsed) config)

/-- **The plan of a response**: that of its rules, which all match. -/
inductive ResponsePlan (s : List UInt8) (config : RevealConfig) : List Disclosure → Prop
  | rules {parsed : StandardResponse} : parseStandardResponse s = .ok parsed →
      RulesMatch parsed.headers parsed.body config →
      ResponsePlan s config (plan .received parsed.headers parsed.body (statusLineRange parsed) config)

variable {s : List UInt8} {p calls calls' : List Disclosure}

omit [ToLowercase] in
/-- A run that follows a plan has made all of it when it returns. -/
theorem Disclose.Follows.run_eq {m : Disclose Unit} (hm : Follows m p)
    (h : m.runFrom calls = (.ok (), calls')) : calls' = calls ++ p := by
  obtain ⟨q, -, hlog, hall⟩ := hm calls
  rw [h] at hlog hall
  rw [← hall () rfl]
  exact hlog

omit [ToLowercase] in
/-- And a run that yields it, if the builders accept its calls. -/
theorem Disclose.Yields.run_eq {m : Disclose Unit} {n : ℕ} {r : Except Error Unit}
    (hm : Yields tlsn n m p r) (haccept : ∀ calls, ∀ c ∈ p, tlsn n calls c = true) :
    m.runFrom calls = (r, calls ++ p) := by
  rcases hm calls with h | ⟨q, c, hq, hc, -⟩
  · exact h
  · have hmem : c ∈ p := hq.subset (List.mem_append_right _ List.mem_cons_self)
    rw [haccept _ c hmem] at hc
    exact absurd hc (by simp)

omit [ToLowercase] in
/-- A run over the parsed text of a message returns only if there is one, and
goes on with it. -/
theorem parsed_of_run {M : Type} {parse : List UInt8 → Except ParseError M} {f : M → Disclose Unit}
    (h : (do
      let raw ← (fromUtf8 s : Except Error _)
      let parsed ← ((parse raw).mapError Error.parser : Except Error _)
      f parsed : Disclose Unit).runFrom calls = (.ok (), calls')) :
    ∃ parsed, parse s = .ok parsed ∧ (f parsed).runFrom calls = (.ok (), calls') := by
  rw [runFrom_bind, runFrom_lift] at h
  rcases hutf8 : fromUtf8 s with e | raw
  · rw [hutf8] at h
    simp at h
  · obtain ⟨-, rfl⟩ := fromUtf8_eq_ok.1 hutf8
    rw [hutf8] at h
    simp only [runFrom_bind, runFrom_lift] at h
    rcases hparse : parse raw with e | parsed
    · rw [hparse] at h
      simp [Except.mapError] at h
    · rw [hparse] at h
      exact ⟨parsed, rfl, h⟩

omit [ToLowercase] in
/-- And it does, if the text is valid. -/
theorem run_of_parsed {M : Type} {parse : List UInt8 → Except ParseError M} {f : M → Disclose Unit}
    {parsed : M} (hutf8 : fromUtf8 s = .ok s) (hparse : parse s = .ok parsed) :
    (do
      let raw ← (fromUtf8 s : Except Error _)
      let parsed ← ((parse raw).mapError Error.parser : Except Error _)
      f parsed : Disclose Unit).runFrom calls = (f parsed).runFrom calls := by
  rw [hutf8, runFrom_bind, runFrom_lift]
  simp only [hparse, runFrom_bind, runFrom_lift, Except.mapError]

theorem fromUtf8_of_response {parsed : StandardResponse} (h : parseStandardResponse s = .ok parsed) :
    fromUtf8 s = .ok s := by
  obtain ⟨d, l, hs, i, bs, e, ps, hr⟩ := parseResponseInner_eq_ok.1 h
  have htokens := parse_response_eq_some.2 ⟨d, l, hs, i, bs, e, hr.text, rfl⟩
  exact fromUtf8_eq_ok.2 ⟨Syntax.validateUTF8_of_ascii (Syntax.ascii_of_parse_response htokens), rfl⟩

theorem fromUtf8_of_request {parsed : StandardRequest} (h : parseStandardRequest s = .ok parsed) :
    fromUtf8 s = .ok s := by
  obtain ⟨m, u, l, hs, i, bs, e, ps, hr⟩ := parseRequestInner_eq_ok.1 h
  have htokens := parse_request_eq_some.2 ⟨m, u, l, hs, i, bs, e, hr.text, rfl⟩
  exact fromUtf8_eq_ok.2 ⟨Syntax.validateUTF8_of_ascii (Syntax.ascii_of_parse_request htokens), rfl⟩

omit [ToLowercase] in
theorem isEmpty_iff : config.IsEmpty ↔
    (config.revealHeaders.isEmpty && config.commitHeaders.isEmpty
      && config.revealBodyFields.isEmpty && config.commitBodyFields.isEmpty
      && config.revealKeysCommitValues.isEmpty) = true := by
  simp [RevealConfig.IsEmpty, and_assoc]

/-- **A response that is disclosed** is disclosed by its plan. -/
theorem responsePlan_of_run (h : (revealResponse tlsn s config).runFrom calls = (.ok (), calls')) :
    ∃ p, ResponsePlan s config p ∧ calls' = calls ++ p := by
  have hrun := h
  rw [revealResponse] at hrun
  obtain ⟨parsed, hparse, hrules⟩ := parsed_of_run hrun
  exact ⟨_, .rules hparse (rulesMatch_of_run hrules), (follows_revealResponse hparse).run_eq h⟩

/-- **And a request.** -/
theorem requestPlan_of_run (h : (revealRequest tlsn s config).runFrom calls = (.ok (), calls')) :
    ∃ p, RequestPlan s config p ∧ calls' = calls ++ p := by
  have hrun := h
  by_cases hc : config.IsEmpty
  · rw [revealRequest, if_pos (isEmpty_iff.1 hc)] at hrun
    exact ⟨_, .whole hc, follows_applyDisclosure.run_eq hrun⟩
  · rw [revealRequest, if_neg fun hempty => hc (isEmpty_iff.2 hempty)] at hrun
    obtain ⟨parsed, hparse, hrules⟩ := parsed_of_run hrun
    exact ⟨_, .rules hc hparse (rulesMatch_of_run hrules), (follows_revealRequest hparse hc).run_eq h⟩

/-- Builders that accept the calls of a plan are given it. -/
theorem ResponsePlan.run (h : ResponsePlan s config p)
    (haccept : ∀ calls, ∀ c ∈ p, tlsn s.length calls c = true) :
    (revealResponse tlsn s config).runFrom calls = (.ok (), calls ++ p) := by
  obtain ⟨hparse, hmatch⟩ := h
  rw [revealResponse, run_of_parsed (fromUtf8_of_response hparse) hparse]
  exact (yields_plan hmatch).run_eq haccept

theorem RequestPlan.run (h : RequestPlan s config p)
    (haccept : ∀ calls, ∀ c ∈ p, tlsn s.length calls c = true) :
    (revealRequest tlsn s config).runFrom calls = (.ok (), calls ++ p) := by
  cases h with
  | whole hc =>
    rw [revealRequest, if_pos (isEmpty_iff.1 hc)]
    exact yields_applyDisclosure.run_eq haccept
  | rules hc hparse hmatch =>
    rw [revealRequest, if_neg fun hempty => hc (isEmpty_iff.2 hempty),
      run_of_parsed (fromUtf8_of_request hparse) hparse]
    exact (yields_plan hmatch).run_eq haccept

/-- A plan is of the message that it is for. -/
theorem ResponsePlan.direction (h : ResponsePlan s config p) : ∀ c ∈ p, c.direction = .received := by
  obtain ⟨-, -⟩ := h
  exact fun c hc => plan_direction hc

theorem RequestPlan.direction (h : RequestPlan s config p) : ∀ c ∈ p, c.direction = .sent := by
  cases h with
  | whole hc => simp
  | rules hc hparse hmatch => exact fun c hc => plan_direction hc

end

/-! ## What is proved -/

section

variable [ToLowercase] {T : Type} {session : ProverSession T} {request response : RevealConfig}
  {transcript : Transcript} {body : List UInt8} {config : ProveConfig} {io : T}
  {output : ProverOutput}

/-- **What is selected of a transcript**: the plans of its two messages, with
the identity of the server. -/
structure Selected (transcript : Transcript) (request response : RevealConfig)
    (config : ProveConfig) : Prop where
  serverIdentity : config.serverIdentity = true
  disclosures : ∃ p q, RequestPlan transcript.sent request p ∧
    ResponsePlan transcript.received response q ∧ config.disclosures = p ++ q

namespace ProverSession

/-- The builders of a session accept the calls of a proof. -/
def Accepts (session : ProverSession T) (transcript : Transcript) (config : ProveConfig) : Prop :=
  ∀ calls, ∀ c ∈ config.disclosures, session.builders
    (match c.direction with
      | .sent => transcript.sent.length
      | .received => transcript.received.length) calls c = true

/-- **A session with an exchange**: it is connected, and the server answers
with status 200 and a body. -/
structure Exchanges (session : ProverSession T) (transcript : Transcript) (body : List UInt8) :
    Prop where
  newProver : session.newProver = .ok ()
  commit : session.commit = .ok ()
  connect : session.connect = .ok ()
  handshake : session.handshake = .ok ()
  connected : session.connected = .ok transcript
  connection : session.connection = .ok ()
  response : session.response = .ok (200, .ok body)

omit [ToLowercase] in
theorem requestTask_eq_ok :
    session.requestTask = .ok body ↔ session.response = .ok (200, .ok body) := by
  unfold requestTask
  rcases session.response with text | ⟨status, answer⟩
  · simp
  · by_cases hstatus : status = 200
    · simp [hstatus, mapError_eq_ok]
    · simp [hstatus]

omit [ToLowercase] in
theorem exchanged_eq_ok : session.exchanged = .ok (transcript, body) ↔
    session.connected = .ok transcript ∧ session.connection = .ok () ∧
      session.response = .ok (200, .ok body) := by
  unfold exchanged
  simp only [Support.bind_eq_ok, Support.pure_eq_ok, mapError_eq_ok, requestTask_eq_ok,
    Prod.mk.injEq]
  constructor
  · rintro ⟨_, hconnected, ⟨⟩, hconnection, _, hresponse, rfl, rfl⟩
    exact ⟨hconnected, hconnection, hresponse⟩
  · rintro ⟨hconnected, hconnection, hresponse⟩
    exact ⟨transcript, hconnected, (), hconnection, body, hresponse, rfl, rfl⟩

theorem selected_of_build (h : session.buildProveConfig request response transcript = .ok config) :
    Selected transcript request response config := by
  unfold buildProveConfig at h
  simp only [Support.bind_eq_ok, Support.pure_eq_ok, mapError_eq_ok] at h
  obtain ⟨⟨⟩, hrun, ⟨⟩, -, ⟨⟩, -, rfl⟩ := h
  refine ⟨rfl, ?_⟩
  rw [runFrom_bind] at hrun
  rcases hrequest : (revealRequest session.builders transcript.sent request).runFrom [] with
    ⟨e | ⟨⟩, calls⟩
  · rw [hrequest] at hrun
    exact nomatch hrun
  · rw [hrequest] at hrun
    rcases hresponse : (revealResponse session.builders transcript.received response).runFrom calls
      with ⟨e | ⟨⟩, calls'⟩
    · simp only [hresponse] at hrun
      exact nomatch hrun
    · obtain ⟨p, hp, hcalls⟩ := requestPlan_of_run hrequest
      rw [List.nil_append] at hcalls
      subst hcalls
      obtain ⟨q, hq, rfl⟩ := responsePlan_of_run hresponse
      refine ⟨calls, q, hp, hq, ?_⟩
      rw [Disclose.calls, runFrom_bind, hrequest]
      simp only [hresponse]

theorem build_of_selected (h : Selected transcript request response config)
    (haccept : session.Accepts transcript config)
    (hcommit : session.buildCommit = .ok ()) (hprove : session.buildProve = .ok ()) :
    session.buildProveConfig request response transcript = .ok config := by
  obtain ⟨hidentity, p, q, hp, hq, hdisclosures⟩ := h
  have hsent : ∀ calls, ∀ c ∈ p, session.builders transcript.sent.length calls c = true := by
    intro calls c hc
    have h := haccept calls c (hdisclosures ▸ List.mem_append_left _ hc)
    rwa [hp.direction c hc] at h
  have hreceived : ∀ calls, ∀ c ∈ q, session.builders transcript.received.length calls c = true := by
    intro calls c hc
    have h := haccept calls c (hdisclosures ▸ List.mem_append_right _ hc)
    rwa [hq.direction c hc] at h
  have hrun : (do
      revealRequest session.builders transcript.sent request
      revealResponse session.builders transcript.received response : Disclose Unit).runFrom [] =
      (.ok (), p ++ q) := by
    rw [runFrom_bind, hp.run hsent]
    exact hq.run hreceived
  unfold buildProveConfig
  simp only [Support.bind_eq_ok, Support.pure_eq_ok, mapError_eq_ok]
  refine ⟨(), ?_, (), hcommit, (), hprove, ?_⟩
  · rw [hrun]
  · rw [Disclose.calls, hrun, ← hdisclosures, ← hidentity]

/-- The script up to the proof. -/
theorem mem_run_prove : .prove config ∈ (session.run request response).calls ↔
    ∃ transcript body, session.Exchanges transcript body ∧
      session.buildProveConfig request response transcript = .ok config := by
  unfold run executeHttpExchange
  simp only [mem_calls_bind, calls_ask, result_ask, List.mem_singleton, reduceCtorEq, false_or,
    result_bind_eq_ok, mapError_eq_ok]
  constructor
  · rintro ⟨⟨⟩, hnew, ⟨⟩, hcommit, ⟨⟩, hconnect, h⟩
    rcases h with ⟨_, -, h⟩ | ⟨⟨transcript, body⟩, ⟨⟨⟩, hhandshake, hexchange⟩, h⟩
    · exact nomatch h
    obtain ⟨hconnected, hconnection, hresponse⟩ := exchanged_eq_ok.1 hexchange
    refine ⟨transcript, body,
      ⟨hnew, hcommit, hconnect, hhandshake, hconnected, hconnection, hresponse⟩, ?_⟩
    rcases hbuild : session.buildProveConfig request response transcript with e | config'
    · simp [hbuild] at h
    · simp only [hbuild, mem_calls_bind, calls_ask, result_ask, List.mem_singleton,
        ProverCall.prove.injEq, reduceCtorEq, false_or] at h
      rcases h with rfl | ⟨⟨⟩, -, ⟨⟩, -, ⟨⟩, -, h⟩
      · rfl
      · rcases hdriver : session.driver with _ | text | verifierIo <;> simp [hdriver] at h
  · rintro ⟨transcript, body, hex, hbuild⟩
    refine ⟨(), hex.newProver, (), hex.commit, (), hex.connect, Or.inr ⟨(transcript, body),
      ⟨(), hex.handshake, exchanged_eq_ok.2 ⟨hex.connected, hex.connection, hex.response⟩⟩, ?_⟩⟩
    simp only [hbuild]
    exact mem_calls_bind.2 (Or.inl List.mem_cons_self)

/-- What a session that returns has done. -/
theorem run_eq_ok : (session.run request response).result = .ok (io, output) ↔
    ∃ config, session.Exchanges ⟨output.sent, output.received⟩ output.responseBody ∧
      session.buildProveConfig request response ⟨output.sent, output.received⟩ = .ok config ∧
      session.prove config = .ok () ∧ session.close = .ok () ∧ session.driver = some (.ok io) := by
  unfold run executeHttpExchange
  simp only [result_bind_eq_ok, result_ask, mapError_eq_ok]
  constructor
  · rintro ⟨⟨⟩, hnew, ⟨⟩, hcommit, ⟨⟩, hconnect, ⟨transcript, body⟩, ⟨⟨⟩, hhandshake, hexchange⟩, h⟩
    obtain ⟨hconnected, hconnection, hresponse⟩ := exchanged_eq_ok.1 hexchange
    rcases hbuild : session.buildProveConfig request response transcript with e | config
    · simp [hbuild] at h
    · simp only [hbuild, result_bind_eq_ok, result_ask, mapError_eq_ok] at h
      obtain ⟨⟨⟩, hprove, ⟨⟩, hclose, ⟨⟩, -, h⟩ := h
      rcases hdriver : session.driver with _ | text | verifierIo
      · simp [hdriver] at h
      · simp [hdriver] at h
      · rw [hdriver] at h
        obtain ⟨rfl, rfl⟩ := Prod.mk.inj (Except.ok.inj h)
        exact ⟨config, ⟨hnew, hcommit, hconnect, hhandshake, hconnected, hconnection, hresponse⟩,
          hbuild, hprove, hclose, rfl⟩
  · rintro ⟨config, hex, hbuild, hprove, hclose, hdriver⟩
    refine ⟨(), hex.newProver, (), hex.commit, (), hex.connect,
      (⟨output.sent, output.received⟩, output.responseBody),
      ⟨(), hex.handshake, exchanged_eq_ok.2 ⟨hex.connected, hex.connection, hex.response⟩⟩, ?_⟩
    simp only [hbuild, result_bind_eq_ok, result_ask, mapError_eq_ok]
    refine ⟨(), hprove, (), hclose, (), trivial, ?_⟩
    rw [hdriver]
    rfl

/-- **A proof discloses what is selected, or is not made.** Whatever the
library answers, a proof is asked for only when the server has answered
with status 200 and every rule of both configurations matches, and then
discloses the two plans, with the identity of the server; with builders
that accept these calls it is asked for whenever this is so. A run that
returns has had its proof accepted, and gives the socket that its session
gave back. -/
theorem proves_selected (session : ProverSession T) (request response : RevealConfig) :
    (∀ config, .prove config ∈ (session.run request response).calls →
      ∃ transcript body, session.Exchanges transcript body ∧
        Selected transcript request response config) ∧
    (session.buildCommit = .ok () → session.buildProve = .ok () →
      ∀ transcript body config, session.Exchanges transcript body →
        Selected transcript request response config → session.Accepts transcript config →
        .prove config ∈ (session.run request response).calls) ∧
    ∀ io output, (session.run request response).result = .ok (io, output) →
      session.Exchanges ⟨output.sent, output.received⟩ output.responseBody ∧
        session.driver = some (.ok io) ∧
        ∃ config, .prove config ∈ (session.run request response).calls ∧
          session.prove config = .ok () ∧
          Selected ⟨output.sent, output.received⟩ request response config := by
  refine ⟨?_, ?_, ?_⟩
  · intro config hmem
    obtain ⟨transcript, body, hex, hbuild⟩ := mem_run_prove.1 hmem
    exact ⟨transcript, body, hex, selected_of_build hbuild⟩
  · intro hcommit hprove transcript body config hex hselected haccept
    exact mem_run_prove.2 ⟨transcript, body, hex,
      build_of_selected hselected haccept hcommit hprove⟩
  · intro io output h
    obtain ⟨config, hex, hbuild, hprove, -, hdriver⟩ := run_eq_ok.1 h
    exact ⟨hex, hdriver, config, mem_run_prove.2 ⟨_, _, hex, hbuild⟩, hprove,
      selected_of_build hbuild⟩

end ProverSession

end

end TlsnDemo
