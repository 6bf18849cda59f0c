import TlsnDemo.Demo.Verifier
import TlsnDemo.Disclosing.Plan
import TlsnDemo.Properties.OutcomeFrame
import TlsnDemo.Reading.Redacted

/-!
# What the browser may believe

The verifier goes on with a session only as far as the prover keeps within
its policies (`policies`). So the outcome that the browser is told is a
balance only if the server ran such a session to its end, the proof names
the bank, and the verifier read this balance in the transcript; and if all
this is so, and the streams do not fail, that is what the browser is told
(`told_iff_verified`).
-/

namespace TlsnDemo.Demo

open ByteStream Encoding Script

/-! ## The policies -/

theorem protocolPolicy_eq_ok {config : MpcTlsConfig} :
    protocolPolicy config = .ok () ↔
      config.maxSentData ≤ maxSentData ∧ config.maxRecvData ≤ maxRecvData := by
  unfold protocolPolicy
  constructor
  · intro h
    split at h
    · exact nomatch h
    · split at h
      · exact nomatch h
      · exact ⟨by omega, by omega⟩
  · intro hlimits
    have hsent : ¬ config.maxSentData > maxSentData := by omega
    have hrecv : ¬ config.maxRecvData > maxRecvData := by omega
    rw [if_neg hsent, if_neg hrecv]

theorem requestPolicy_eq_ok {identity reveal : Bool} :
    requestPolicy identity reveal = .ok () ↔ identity = true ∧ reveal = true := by
  cases identity <;> cases reveal <;> simp [requestPolicy]

/-- **A prover that keeps within the limits**: it commits to MPC-TLS, with
little enough to send and to receive. -/
def WithinLimits {T : Type} (session : VerifierSession T) : Prop :=
  session.newVerifier = .ok () ∧ ∃ config, session.commit = .ok (.mpc config) ∧
    config.maxSentData ≤ maxSentData ∧ config.maxRecvData ≤ maxRecvData

/-- **A prover that asks for what it should**: it proves the identity of its
server, and some of the transcript. -/
def AsksProperly {T : Type} (session : VerifierSession T) : Prop :=
  session.accept = .ok () ∧ session.run = .ok () ∧
    ∃ request, session.verify = .ok request ∧ request.serverIdentity = true ∧ request.reveal = true

/-- **A session that is run to its end**, with what was proved in it and the
socket that the driver gives back. -/
structure RunToEnd {T : Type} (session : VerifierSession T) (socket : T) (output : VerifierOutput) :
    Prop where
  limits : WithinLimits session
  request : AsksProperly session
  acceptProof : session.acceptProof = .ok output
  close : session.close = .ok ()
  driver : session.driver = some (.ok socket)

section

variable [ToLowercase] {T : Type} {session : VerifierSession T} {socket : T}
  {validation : Except VerifyError BalanceOutput} {output : VerifierOutput} {out : BalanceOutput}

omit [ToLowercase] in
theorem result_askTlsn {α : Type} {call : SessionCall} {answer : Except String α} {x : α} :
    (askTlsn call answer).result = .ok x ↔ answer = .ok x := mapError_eq_ok

omit [ToLowercase] in
theorem mem_askTlsn {α : Type} {call c : SessionCall} {answer : Except String α} :
    c ∈ (askTlsn call answer).calls ↔ c = call := List.mem_singleton

/-- **A session is accepted** only within the limits, and always then. -/
theorem accept_iff : .accept ∈ (verifyBalance session).calls ↔ WithinLimits session := by
  unfold verifyBalance
  simp only [mem_calls_bind, mem_askTlsn, result_askTlsn, reduceCtorEq, false_or]
  constructor
  · rintro ⟨⟨⟩, hnew, commitStart, hcommit, h⟩
    match commitStart with
    | .other => simp at h
    | .mpc config =>
      match hpolicy : protocolPolicy config with
      | .error reason =>
        simp [hpolicy, mem_calls_bind, mem_askTlsn] at h
      | .ok () => exact ⟨hnew, config, hcommit, protocolPolicy_eq_ok.1 hpolicy⟩
  · rintro ⟨hnew, config, hcommit, hlimits⟩
    refine ⟨(), hnew, .mpc config, hcommit, ?_⟩
    simp only [protocolPolicy_eq_ok.2 hlimits]
    exact mem_calls_bind.2 (Or.inl (mem_askTlsn.2 rfl))

/-- **A proof is accepted** only in an accepted session, and only if it is
asked for properly. -/
theorem acceptProof_iff :
    .acceptProof ∈ (verifyBalance session).calls ↔ WithinLimits session ∧ AsksProperly session := by
  unfold verifyBalance
  simp only [mem_calls_bind, mem_askTlsn, result_askTlsn, reduceCtorEq, false_or]
  constructor
  · rintro ⟨⟨⟩, hnew, commitStart, hcommit, h⟩
    match commitStart with
    | .other => simp at h
    | .mpc config =>
      match hpolicy : protocolPolicy config with
      | .error reason => simp [hpolicy, mem_calls_bind, mem_askTlsn] at h
      | .ok () =>
        simp only [hpolicy, mem_calls_bind, mem_askTlsn, result_askTlsn, reduceCtorEq, false_or] at h
        obtain ⟨⟨⟩, haccept, ⟨⟩, hrun, request, hverify, h⟩ := h
        refine ⟨⟨hnew, config, hcommit, protocolPolicy_eq_ok.1 hpolicy⟩, haccept, hrun, request,
          hverify, ?_⟩
        match hrequest : requestPolicy request.serverIdentity request.reveal with
        | .error reason => simp [hrequest, mem_calls_bind, mem_askTlsn] at h
        | .ok () => exact requestPolicy_eq_ok.1 hrequest
  · rintro ⟨⟨hnew, config, hcommit, hlimits⟩, haccept, hrun, request, hverify, hproper⟩
    refine ⟨(), hnew, .mpc config, hcommit, ?_⟩
    simp only [protocolPolicy_eq_ok.2 hlimits, mem_calls_bind, mem_askTlsn, result_askTlsn,
      reduceCtorEq, false_or]
    refine ⟨(), haccept, (), hrun, request, hverify, ?_⟩
    simp only [requestPolicy_eq_ok.2 hproper]
    exact mem_calls_bind.2 (Or.inl (mem_askTlsn.2 rfl))

/-- A commitment is rejected only outside of the limits. -/
theorem rejectCommit_iff {reason : String} :
    .rejectCommit reason ∈ (verifyBalance session).calls ↔ session.newVerifier = .ok () ∧
      ∃ config, session.commit = .ok (.mpc config) ∧ protocolPolicy config = .error reason := by
  unfold verifyBalance
  simp only [mem_calls_bind, mem_askTlsn, result_askTlsn, reduceCtorEq, false_or]
  constructor
  · rintro ⟨⟨⟩, hnew, commitStart, hcommit, h⟩
    refine ⟨hnew, ?_⟩
    match commitStart with
    | .other => simp at h
    | .mpc config =>
      refine ⟨config, hcommit, ?_⟩
      match hpolicy : protocolPolicy config with
      | .error reason' =>
        simp only [hpolicy, mem_calls_bind, mem_askTlsn, SessionCall.rejectCommit.injEq, calls_fail,
          List.not_mem_nil, and_false, exists_const, or_false] at h
        rw [h]
      | .ok () =>
        simp only [hpolicy, mem_calls_bind, mem_askTlsn, result_askTlsn, reduceCtorEq, false_or] at h
        obtain ⟨⟨⟩, -, ⟨⟩, -, request, -, h⟩ := h
        match hrequest : requestPolicy request.serverIdentity request.reveal with
        | .error reason' => simp [hrequest, mem_calls_bind, mem_askTlsn] at h
        | .ok () =>
          simp only [hrequest, mem_calls_bind, mem_askTlsn, calls_ask, List.mem_singleton,
            reduceCtorEq, false_or] at h
          obtain ⟨output, -, ⟨⟩, -, ⟨⟩, -, h⟩ := h
          match hdriver : session.driver with
          | none => simp [hdriver] at h
          | some (.error text) => simp [hdriver] at h
          | some (.ok io) => simp [hdriver] at h
  · rintro ⟨hnew, config, hcommit, hpolicy⟩
    refine ⟨(), hnew, .mpc config, hcommit, ?_⟩
    simp only [hpolicy]
    exact mem_calls_bind.2 (Or.inl (mem_askTlsn.2 rfl))

/-- And a proof only when it is not asked for properly. -/
theorem rejectProof_iff {reason : String} :
    .rejectProof reason ∈ (verifyBalance session).calls ↔ WithinLimits session ∧
      session.accept = .ok () ∧ session.run = .ok () ∧ ∃ request, session.verify = .ok request ∧
        requestPolicy request.serverIdentity request.reveal = .error reason := by
  unfold verifyBalance
  simp only [mem_calls_bind, mem_askTlsn, result_askTlsn, reduceCtorEq, false_or]
  constructor
  · rintro ⟨⟨⟩, hnew, commitStart, hcommit, h⟩
    match commitStart with
    | .other => simp at h
    | .mpc config =>
      match hpolicy : protocolPolicy config with
      | .error reason' => simp [hpolicy, mem_calls_bind, mem_askTlsn] at h
      | .ok () =>
        simp only [hpolicy, mem_calls_bind, mem_askTlsn, result_askTlsn, reduceCtorEq, false_or] at h
        obtain ⟨⟨⟩, haccept, ⟨⟩, hrun, request, hverify, h⟩ := h
        refine ⟨⟨hnew, config, hcommit, protocolPolicy_eq_ok.1 hpolicy⟩, haccept, hrun, request,
          hverify, ?_⟩
        match hrequest : requestPolicy request.serverIdentity request.reveal with
        | .error reason' =>
          simp only [hrequest, mem_calls_bind, mem_askTlsn, SessionCall.rejectProof.injEq, calls_fail,
            List.not_mem_nil, reduceCtorEq, and_false, exists_const, or_false] at h
          rw [h]
        | .ok () =>
          simp only [hrequest, mem_calls_bind, mem_askTlsn, calls_ask, List.mem_singleton,
            reduceCtorEq, false_or] at h
          obtain ⟨output, -, ⟨⟩, -, ⟨⟩, -, h⟩ := h
          match hdriver : session.driver with
          | none => simp [hdriver] at h
          | some (.error text) => simp [hdriver] at h
          | some (.ok io) => simp [hdriver] at h
  · rintro ⟨⟨hnew, config, hcommit, hlimits⟩, haccept, hrun, request, hverify, hrequest⟩
    refine ⟨(), hnew, .mpc config, hcommit, ?_⟩
    simp only [protocolPolicy_eq_ok.2 hlimits, mem_calls_bind, mem_askTlsn, result_askTlsn,
      reduceCtorEq, false_or]
    refine ⟨(), haccept, (), hrun, request, hverify, ?_⟩
    simp only [hrequest]
    exact mem_calls_bind.2 (Or.inl (mem_askTlsn.2 rfl))

/-- **A session that returns** was run to its end. -/
theorem verifyBalance_eq_ok :
    (verifyBalance session).result = .ok (socket, validation) ↔
      ∃ output, RunToEnd session socket output ∧ validation = validate output := by
  unfold verifyBalance
  simp only [result_bind_eq_ok, result_askTlsn]
  constructor
  · rintro ⟨⟨⟩, hnew, commitStart, hcommit, h⟩
    match commitStart with
    | .other => exact nomatch h
    | .mpc config =>
      match hpolicy : protocolPolicy config with
      | .error reason =>
        simp only [hpolicy, result_bind_eq_ok, result_fail, reduceCtorEq, and_false,
          exists_const] at h
      | .ok () =>
        simp only [hpolicy, result_bind_eq_ok, result_askTlsn] at h
        obtain ⟨⟨⟩, haccept, ⟨⟩, hrun, request, hverify, h⟩ := h
        match hrequest : requestPolicy request.serverIdentity request.reveal with
        | .error reason =>
          simp only [hrequest, result_bind_eq_ok, result_fail, reduceCtorEq, and_false,
            exists_const] at h
        | .ok () =>
          simp only [hrequest, result_bind_eq_ok, result_askTlsn] at h
          obtain ⟨output, hproof, ⟨⟩, hclose, ⟨⟩, -, h⟩ := h
          match hdriver : session.driver with
          | none =>
            rw [hdriver] at h
            exact nomatch h
          | some (.error text) =>
            rw [hdriver] at h
            exact nomatch h
          | some (.ok io) =>
            rw [hdriver] at h
            obtain ⟨rfl, rfl⟩ := Prod.mk.inj (Except.ok.inj h)
            exact ⟨output, ⟨⟨hnew, config, hcommit, protocolPolicy_eq_ok.1 hpolicy⟩,
              ⟨haccept, hrun, request, hverify, requestPolicy_eq_ok.1 hrequest⟩, hproof, hclose,
              hdriver⟩, rfl⟩
  · rintro ⟨output, ⟨⟨hnew, config, hcommit, hlimits⟩, ⟨haccept, hrun, request, hverify, hproper⟩,
      hproof, hclose, hdriver⟩, rfl⟩
    refine ⟨(), hnew, .mpc config, hcommit, ?_⟩
    simp only [protocolPolicy_eq_ok.2 hlimits, result_bind_eq_ok, result_askTlsn]
    refine ⟨(), haccept, (), hrun, request, hverify, ?_⟩
    simp only [requestPolicy_eq_ok.2 hproper, result_bind_eq_ok, result_askTlsn]
    refine ⟨output, hproof, (), hclose, (), rfl, ?_⟩
    rw [hdriver]
    rfl

/-- **The policies are kept.** A session is accepted exactly within the limits,
and a proof exactly if in addition it is asked for properly. What is
rejected is not accepted, and the session then fails; and a session that
returns, with whatever validation, has accepted both. -/
theorem policies (session : VerifierSession T) :
    (.accept ∈ (verifyBalance session).calls ↔ WithinLimits session) ∧
      (.acceptProof ∈ (verifyBalance session).calls ↔ WithinLimits session ∧ AsksProperly session) ∧
      (∀ reason, .rejectCommit reason ∈ (verifyBalance session).calls →
        .accept ∉ (verifyBalance session).calls ∧ ¬ ∃ x, (verifyBalance session).result = .ok x) ∧
      (∀ reason, .rejectProof reason ∈ (verifyBalance session).calls →
        .accept ∈ (verifyBalance session).calls ∧ .acceptProof ∉ (verifyBalance session).calls ∧
          ¬ ∃ x, (verifyBalance session).result = .ok x) ∧
      ∀ x, (verifyBalance session).result = .ok x → .acceptProof ∈ (verifyBalance session).calls := by
  have hreturns : ∀ x, (verifyBalance session).result = .ok x →
      WithinLimits session ∧ AsksProperly session := by
    rintro ⟨socket, validation⟩ h
    obtain ⟨output, hend, -⟩ := verifyBalance_eq_ok.1 h
    exact ⟨hend.limits, hend.request⟩
  refine ⟨accept_iff, acceptProof_iff, ?_, ?_, fun x hx => acceptProof_iff.2 (hreturns x hx)⟩
  · intro reason hreject
    obtain ⟨-, config, hcommit, hpolicy⟩ := rejectCommit_iff.1 hreject
    have hoff : ¬ WithinLimits session := by
      rintro ⟨-, config', hcommit', hlimits⟩
      rw [hcommit, Except.ok.injEq, VerifierCommitStart.mpc.injEq] at hcommit'
      subst hcommit'
      rw [protocolPolicy_eq_ok.2 hlimits] at hpolicy
      exact nomatch hpolicy
    exact ⟨fun haccept => hoff (accept_iff.1 haccept), fun hx => hoff (hreturns _ hx.choose_spec).1⟩
  · intro reason hreject
    obtain ⟨hlimits, -, -, request, hverify, hrequest⟩ := rejectProof_iff.1 hreject
    have hoff : ¬ AsksProperly session := by
      rintro ⟨-, -, request', hverify', hproper⟩
      rw [hverify, Except.ok.injEq] at hverify'
      subst hverify'
      rw [requestPolicy_eq_ok.2 hproper] at hrequest
      exact nomatch hrequest
    exact ⟨accept_iff.2 hlimits, fun haccept => hoff (acceptProof_iff.1 haccept).2,
      fun hx => hoff (hreturns _ hx.choose_spec).2⟩

/-- **A validation succeeds** only for the bank, and with the balance that
was read in the transcript. -/
theorem validate_eq_ok :
    validate output = .ok out ↔ output.serverName = some "swissbank.tlsnotary.org" ∧
      ∃ transcript, output.transcript = some transcript ∧ extractBalance transcript = .ok out := by
  unfold validate
  match hname : output.serverName with
  | none => simp
  | some serverName =>
    by_cases hbank : serverName = "swissbank.tlsnotary.org"
    · match htranscript : output.transcript with
      | none => simp [hbank]
      | some transcript => simp [hbank, mapError_eq_ok]
    · simp [hbank]

end

/-! ## The report -/

section

variable {W : Type} [Sink W] {json : SerdeJson} {io : W} {payload : List UInt8}

/-- Also a frame that cannot be written to its end is written from its start. -/
theorem written_writePayload_isPrefix :
    Sink.written (writePayload io payload).2 <+: Sink.written io ++ frame payload := by
  obtain ⟨hstart, hlen⟩ := written_writeAll io (toBeBytes (UInt32.ofNat payload.length))
  rw [writePayload]
  rcases hfirst : writeAll io (toBeBytes (UInt32.ofNat payload.length)) with ⟨text | ⟨⟩, io₁⟩
  · rw [hfirst] at hstart
    rw [frame, ← List.append_assoc]
    exact hstart.trans (List.prefix_append _ _)
  · rw [hfirst] at hlen
    have hio₁ : Sink.written io₁ = Sink.written io ++ toBeBytes (UInt32.ofNat payload.length) :=
      hlen rfl
    obtain ⟨hpayload, -⟩ := written_writeAll io₁ payload
    rw [hio₁, List.append_assoc] at hpayload
    rcases hsecond : writeAll io₁ payload with ⟨text | ⟨⟩, io₂⟩
    · rw [hsecond] at hpayload
      simp only [hsecond]
      exact hpayload
    · rw [hsecond] at hpayload
      simp only [hsecond, written_flush]
      exact hpayload

/-- Nothing but the frame of the value is written. -/
theorem written_writeJsonFrame {T : Type} [Serialize T] {value : T} :
    Sink.written (writeJsonFrame json io value).2 = Sink.written io ∨
      ∃ payload, json.toVec (Serialize.serialize value) = .ok payload ∧
        payload.length ≤ maxFrameBytes ∧
        Sink.written (writeJsonFrame json io value).2 <+: Sink.written io ++ frame payload := by
  match hjson : json.toVec (Serialize.serialize value) with
  | .error text =>
    left
    rw [writeJsonFrame, hjson]
  | .ok payload =>
    rcases Nat.lt_or_ge maxFrameBytes payload.length with hlarge | hsmall
    · left
      rw [writeJsonFrame_large hjson hlarge]
    · right
      rw [writeJsonFrame_small hjson hsmall]
      exact ⟨payload, rfl, hsmall, written_writePayload_isPrefix⟩

end

section

variable {R : Type} [Source R] {json : SerdeJson} {recv : R} {chf lastAudit : String}

/-- What the browser has read when it gives a balance. -/
theorem readVerificationOutcome_ok
    (h : (Wasm.readVerificationOutcome json recv).1 = .ok ⟨chf, lastAudit⟩) :
    ∃ lenBuf payload more entries, Source.rest recv = lenBuf ++ (payload ++ more) ∧
      lenBuf.length = 4 ∧ payload.length = (fromBeBytes lenBuf).toNat ∧
      json.fromSlice payload = .ok entries ∧
      Wasm.VerificationOutcome.deserialize entries = .ok (.success chf lastAudit) := by
  rw [Wasm.readVerificationOutcome] at h
  rcases hlen : readExact recv 4 with ⟨text | lenBuf, recv₁⟩
  · simp only [hlen] at h
    cases h
  · simp only [hlen] at h
    obtain ⟨hrest, hfour⟩ := readExact_ok hlen
    split at h
    · cases h
    · rcases hpayload : readExact recv₁ (fromBeBytes lenBuf).toNat with ⟨text | payload, recv₂⟩
      · simp only [hpayload] at h
        cases h
      · simp only [hpayload] at h
        obtain ⟨hrest₁, hall⟩ := readExact_ok hpayload
        rcases hjson : json.fromSlice payload with text | entries
        · simp only [hjson] at h
          cases h
        · simp only [hjson] at h
          refine ⟨lenBuf, payload, Source.rest recv₂, entries, by rw [hrest, hrest₁], hfour, hall,
            hjson, ?_⟩
          rcases houtcome : Wasm.VerificationOutcome.deserialize entries with
            text | ⟨chf', lastAudit'⟩ | reason
          · simp only [houtcome] at h
            cases h
          · simp only [houtcome] at h
            obtain ⟨rfl, rfl⟩ := Wasm.JsProverOutput.mk.inj (Except.ok.inj h)
            rfl
          · simp only [houtcome] at h
            cases h

/-- **A balance that is read in a part of a frame** is the outcome in it. -/
theorem readVerificationOutcome_part {outcome : VerificationOutcome} {payload : List UInt8}
    (hlawful : json.Lawful) (hjson : json.toVec (Serialize.serialize outcome) = .ok payload)
    (hsmall : payload.length ≤ maxFrameBytes) (hrest : Source.rest recv <+: frame payload)
    (h : (Wasm.readVerificationOutcome json recv).1 = .ok ⟨chf, lastAudit⟩) :
    outcome = .success chf lastAudit := by
  obtain ⟨lenBuf, taken, more, entries, hbytes, hfour, hall, hslice, hdes⟩ :=
    readVerificationOutcome_ok h
  rw [hbytes, frame] at hrest
  -- The length that is read is that of the frame, and so is the payload.
  have hlen : lenBuf = toBeBytes (UInt32.ofNat payload.length) := by
    have hleft : lenBuf <+: toBeBytes (UInt32.ofNat payload.length) ++ payload :=
      (List.prefix_append _ _).trans hrest
    have hleft' : lenBuf <+: toBeBytes (UInt32.ofNat payload.length) :=
      List.prefix_of_prefix_length_le hleft (List.prefix_append _ _) hfour.le
    exact hleft'.eq_of_length hfour
  have hword : payload.length < UInt32.size := by
    have hmax : maxFrameBytes < UInt32.size := by decide
    omega
  rw [hlen, List.prefix_append_right_inj] at hrest
  rw [hlen, toNat_fromBeBytes hword] at hall
  have htaken : taken = payload := ((List.prefix_append _ _).trans hrest).eq_of_length hall
  obtain ⟨payload', hvec, hback⟩ := hlawful.fromSlice_toVec _ (TlsnDemo.names_nodup outcome)
  rw [hjson] at hvec
  rw [htaken, Except.ok.inj hvec, hback] at hslice
  have hsame := TlsnDemo.deserialize_serialize outcome
  rw [Except.ok.inj hslice, hdes] at hsame
  cases outcome with
  | success chf' lastAudit' =>
    obtain ⟨rfl, rfl⟩ := Wasm.VerificationOutcome.success.inj (Except.ok.inj hsame)
    rfl
  | failure reason => simp [received] at hsame

end

/-! ## The session and its report -/

section

variable [ToLowercase] {T : Type} [Sink T] {json : SerdeJson} {texts : LibraryTexts}
  {session : VerifierSession T} {socket : T} {output : VerifierOutput} {out : BalanceOutput}
  {chf lastAudit : String}

/-- **What is reported** over the socket of a session: the bytes behind those
that it took in the session itself. -/
def reported (json : SerdeJson) (texts : LibraryTexts) (session : VerifierSession T) : List UInt8 :=
  match session.driver, (runNotarizeStream json texts session).2 with
  | some (.ok socket), some io => (Sink.written io).drop (Sink.written socket).length
  | _, _ => []

/-- The socket takes the outcome of a session that is run to its end. -/
theorem reported_of_runToEnd (hend : RunToEnd session socket output) :
    reported json texts session =
      (Sink.written (writeJsonFrame json socket (outcomeOf texts (validate output))).2).drop
        (Sink.written socket).length := by
  have hresult : (verifyBalance session).result = .ok (socket, validate output) :=
    verifyBalance_eq_ok.2 ⟨output, hend, rfl⟩
  rw [reported, hend.driver, runNotarizeStream, hresult]
  match hframe : writeJsonFrame json socket (outcomeOf texts (validate output)) with
  | (.error error, io) => simp only [hframe]
  | (.ok (), io) =>
    have hshutdown : Sink.written (shutdown io).2 = Sink.written io := written_shutdown
    match hlast : shutdown io with
    | (.error text, io') =>
      rw [hlast] at hshutdown
      simp only [hframe, hlast]
      rw [hshutdown]
    | (.ok (), io') =>
      rw [hlast] at hshutdown
      simp only [hframe, hlast]
      rw [hshutdown]

/-- Without a socket nothing is reported. -/
theorem runToEnd_of_reported (h : reported json texts session ≠ []) :
    ∃ socket output, RunToEnd session socket output := by
  match hresult : (verifyBalance session).result with
  | .error error =>
    rw [reported, runNotarizeStream, hresult] at h
    simp at h
  | .ok (socket, validation) =>
    obtain ⟨output, hend, -⟩ := verifyBalance_eq_ok.1 hresult
    exact ⟨socket, output, hend⟩

omit [ToLowercase] in
theorem textOf_eq_stringOf {bytes : List UInt8}
    (h : ByteArray.validateUTF8 ⟨bytes.toArray⟩ = true) : textOf bytes = some (stringOf bytes) := by
  have hvalid : ByteArray.IsValidUTF8 ⟨bytes.toArray⟩ := ByteArray.validateUTF8_eq_true_iff.1 h
  have htext : textOf bytes = some (String.fromUTF8 ⟨bytes.toArray⟩ hvalid) := dif_pos hvalid
  rw [stringOf, htext, Option.getD_some]

/-- A balance that is extracted is text. -/
theorem textOf_extractBalance {transcript : List UInt8} (h : extractBalance transcript = .ok out) :
    textOf out.chfBalance = some (stringOf out.chfBalance) ∧
      textOf out.lastAudit = some (stringOf out.lastAudit) := by
  obtain ⟨-, response, -, hchf, haudit⟩ := extractBalance_eq_ok.1 h
  obtain ⟨-, range, -, -, hvalid, hslice⟩ := bodyText_eq_ok.1 hchf
  obtain ⟨-, range', -, -, hvalid', hslice'⟩ := bodyText_eq_ok.1 haudit
  rw [hslice, hslice']
  exact ⟨textOf_eq_stringOf hvalid, textOf_eq_stringOf hvalid'⟩

/-- **A balance is verified in a session**: it is run to its end, and what was
proved in it are this balance and the time of its audit at the bank. -/
def Verified (session : VerifierSession T) (chf lastAudit : String) : Prop :=
  ∃ socket output transcript out, RunToEnd session socket output ∧
    output.serverName = some "swissbank.tlsnotary.org" ∧ output.transcript = some transcript ∧
    extractBalance transcript = .ok out ∧ textOf out.chfBalance = some chf ∧
    textOf out.lastAudit = some lastAudit

/-- **The browser is told a balance only if it was verified**, whatever the
socket does with the report, and however much of it arrives. -/
theorem told_verified (hlawful : json.Lawful) {R : Type} [Source R] (recv : R)
    (hrest : Source.rest recv <+: reported json texts session)
    (h : (Wasm.readVerificationOutcome json recv).1 = .ok ⟨chf, lastAudit⟩) :
    Verified session chf lastAudit := by
  have hne : reported json texts session ≠ [] := by
    intro hnil
    rw [hnil, List.prefix_nil] at hrest
    obtain ⟨lenBuf, payload, more, -, hbytes, hfour, -⟩ := readVerificationOutcome_ok h
    rw [hrest] at hbytes
    rw [(List.append_eq_nil_iff.1 hbytes.symm).1] at hfour
    exact nomatch hfour
  obtain ⟨socket, output, hend⟩ := runToEnd_of_reported hne
  rw [reported_of_runToEnd hend] at hrest hne
  rcases @written_writeJsonFrame _ _ json socket _ _ (outcomeOf texts (validate output)) with
    hnone | hframe
  · rw [hnone, List.drop_length] at hne
    exact absurd rfl hne
  obtain ⟨payload, hpayload, hsmall, hwritten⟩ := hframe
  have hpart : Source.rest recv <+: frame payload := by
    obtain ⟨missing, hmissing⟩ := hwritten
    have hdrop := congrArg (List.drop (Sink.written socket).length) hmissing
    rw [List.drop_append, List.drop_left] at hdrop
    exact hrest.trans ⟨_, hdrop⟩
  have houtcome := readVerificationOutcome_part hlawful hpayload hsmall hpart h
  match hvalid : validate output with
  | .error error =>
    rw [hvalid] at houtcome
    exact nomatch houtcome
  | .ok out =>
    rw [hvalid] at houtcome
    obtain ⟨rfl, rfl⟩ := VerificationOutcome.success.inj houtcome
    obtain ⟨hname, transcript, htranscript, hextract⟩ := validate_eq_ok.1 hvalid
    exact ⟨socket, output, transcript, out, hend, hname, htranscript, hextract,
      textOf_extractBalance hextract⟩

/-- **The browser reads what came of a session** that is run to its end, if the
streams do not fail and the outcome fits in a frame. -/
theorem told_outcome (hlawful : json.Lawful) [Sink.Reliable T] {R : Type} [Source R]
    [Source.Reliable R] {recv : R} {payload more : List UInt8} (hend : RunToEnd session socket output)
    (hrest : Source.rest recv = reported json texts session ++ more)
    (hpayload : json.toVec (Serialize.serialize (outcomeOf texts (validate output))) = .ok payload)
    (hsmall : payload.length ≤ maxFrameBytes) :
    ∃ recv', Wasm.readVerificationOutcome json recv =
        (verdict (outcomeOf texts (validate output)), recv') ∧ Source.rest recv' = more := by
  have hok : (writeJsonFrame json socket (outcomeOf texts (validate output))).1 = .ok () := by
    rw [writeJsonFrame_small hpayload hsmall, writePayload_ok]
    rfl
  obtain ⟨payload', hpayload', -, hwritten⟩ := writeJsonFrame_ok hok
  rw [hpayload] at hpayload'
  rw [reported_of_runToEnd hend, hwritten, List.drop_left, ← Except.ok.inj hpayload'] at hrest
  obtain ⟨sent, hsent, hback⟩ := hlawful.fromSlice_toVec _
    (TlsnDemo.names_nodup (outcomeOf texts (validate output)))
  rw [hpayload] at hsent
  rw [← Except.ok.inj hsent] at hback
  exact readVerificationOutcome_frame hrest hsmall hback

omit [Sink T] in
theorem Verified.outcome (h : Verified session chf lastAudit) :
    ∃ socket output, RunToEnd session socket output ∧
      outcomeOf texts (validate output) = .success chf lastAudit := by
  obtain ⟨socket, output, transcript, out, hend, hname, htranscript, hextract, hchf, haudit⟩ := h
  have hvalid : validate output = .ok out :=
    validate_eq_ok.2 ⟨hname, transcript, htranscript, hextract⟩
  refine ⟨socket, output, hend, ?_⟩
  rw [hvalid, outcomeOf, stringOf, stringOf, hchf, haudit]
  rfl

/-- **The browser is told exactly what was verified.** Whatever the socket does
with the report, and however much of it arrives, a balance that the browser
reads was verified in the session. Conversely it reads each balance that
was verified, if the streams do not fail and the outcome fits in a frame;
and of a session that is run to its end without a balance, why there is
none. -/
theorem told_iff_verified (hlawful : json.Lawful) (texts : LibraryTexts)
    (session : VerifierSession T) :
    (∀ (R : Type) [Source R] (recv : R) (chf lastAudit : String),
      Source.rest recv <+: reported json texts session →
      (Wasm.readVerificationOutcome json recv).1 = .ok ⟨chf, lastAudit⟩ →
      Verified session chf lastAudit) ∧
    ∀ [Sink.Reliable T] (R : Type) [Source R] [Source.Reliable R] (recv : R)
      (outcome : VerificationOutcome) (payload more : List UInt8),
      Source.rest recv = reported json texts session ++ more →
      json.toVec (Serialize.serialize outcome) = .ok payload → payload.length ≤ maxFrameBytes →
      (∀ chf lastAudit, outcome = .success chf lastAudit → Verified session chf lastAudit →
        (Wasm.readVerificationOutcome json recv).1 = .ok ⟨chf, lastAudit⟩) ∧
      ∀ socket output error, RunToEnd session socket output → validate output = .error error →
        outcome = .failure (error.text texts) →
        (Wasm.readVerificationOutcome json recv).1 =
          .error (.verifierPolicyRejected (error.text texts)) := by
  refine ⟨fun R _ recv chf lastAudit hrest h => told_verified hlawful recv hrest h, ?_⟩
  intro _ R _ _ recv outcome payload more hrest hpayload hsmall
  have htold : ∀ {socket output}, RunToEnd session socket output →
      outcomeOf texts (validate output) = outcome →
      (Wasm.readVerificationOutcome json recv).1 = verdict outcome := by
    rintro socket output hend rfl
    obtain ⟨recv', hread, -⟩ := told_outcome hlawful hend hrest hpayload hsmall
    rw [hread]
  refine ⟨?_, ?_⟩
  · rintro chf lastAudit rfl h
    obtain ⟨socket, output, hend, houtcome⟩ := h.outcome
    exact htold hend houtcome
  · rintro socket output error hend herror rfl
    exact htold hend (by rw [herror, outcomeOf])

end

/-- What a prover proves that reveals two members of a response. -/
def provedPair : VerifierOutput where
  serverName := some "swissbank.tlsnotary.org"
  transcript := some (bytes "HTTP/1.1 200 OK\r\n" ++ List.replicate 4 0 ++ bytes "\"CHF\":\"12\"" ++
    [0, 0] ++ bytes "\"last_audit\":\"May\"" ++ [0])

/-- A session in which this is proved. -/
def sessionPair : VerifierSession Tray where
  newVerifier := .ok ()
  commit := .ok (.mpc ⟨maxSentData, maxRecvData⟩)
  rejectCommit := fun _ => .ok ()
  accept := .ok ()
  run := .ok ()
  verify := .ok ⟨true, true⟩
  rejectProof := fun _ => .ok ()
  closeRejected := .ok ()
  acceptProof := .ok provedPair
  close := .ok ()
  driver := some (.ok ⟨4, [1, 2, 3]⟩)

def noTexts : LibraryTexts := ⟨"", "", ""⟩

theorem verified_sessionPair : @Verified asciiLowercase _ sessionPair "12" "May" := by
  refine ⟨⟨4, [1, 2, 3]⟩, provedPair, _, ⟨bytes "12", bytes "May"⟩, ?_, rfl, rfl, ?_, ?_, ?_⟩
  · exact ⟨⟨rfl, _, rfl, le_rfl, le_rfl⟩, ⟨rfl, rfl, _, rfl, rfl, rfl⟩, rfl, rfl, rfl⟩
  · decide +kernel
  · decide +kernel
  · decide +kernel

/-- The browser reads the balance of such a session, and so it was verified. -/
theorem told_iff_verified_sessionPair :
    (Wasm.readVerificationOutcome (plain .compact)
        (⟨[@reported asciiLowercase _ _ (plain .compact) noTexts sessionPair]⟩ : Chunked)).1 =
        .ok ⟨"12", "May"⟩ ∧
      @Verified asciiLowercase _ sessionPair "12" "May" := by
  obtain ⟨hsound, hcomplete⟩ :=
    @told_iff_verified asciiLowercase _ _ (plain .compact) plain_lawful noTexts sessionPair
  have hrest : Source.rest
      (⟨[@reported asciiLowercase _ _ (plain .compact) noTexts sessionPair]⟩ : Chunked) =
        @reported asciiLowercase _ _ (plain .compact) noTexts sessionPair := List.append_nil _
  have hread := (hcomplete Chunked _ (.success "12" "May") _ [] (by rw [hrest, List.append_nil]) rfl
    (by decide +kernel)).1 "12" "May" rfl verified_sessionPair
  exact ⟨hread, hsound Chunked _ "12" "May" ⟨[], by rw [List.append_nil, hrest]⟩ hread⟩

end TlsnDemo.Demo
