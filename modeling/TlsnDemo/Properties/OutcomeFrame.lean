import TlsnDemo.Demo.Outcome
import TlsnDemo.Wasm.Prover

/-!
# The outcome between server and browser

The server writes the outcome of a verification in a frame, and the browser
reads it, each of them with types, names and limits of its own. They agree:
what is written is what is read, however its bytes arrive, and the browser
stops behind the frame (`outcome_round_trip`).
-/

namespace TlsnDemo

open ByteStream Encoding

/-- What the browser makes of an outcome of the server. -/
def verdict : Demo.VerificationOutcome → Except Wasm.OutcomeError Wasm.JsProverOutput
  | .success chf lastAudit => .ok ⟨chf, lastAudit⟩
  | .failure reason => .error (.verifierPolicyRejected reason)

section

variable {W : Type} [Sink W] {json : SerdeJson} {io : W} {payload : List UInt8}

/-- The bytes of a frame. -/
def frame (payload : List UInt8) : List UInt8 := toBeBytes (UInt32.ofNat payload.length) ++ payload

theorem written_writePayload (h : (Demo.writePayload io payload).1 = .ok ()) :
    Sink.written (Demo.writePayload io payload).2 = Sink.written io ++ frame payload := by
  obtain ⟨-, hlen⟩ := written_writeAll io (toBeBytes (UInt32.ofNat payload.length))
  rw [Demo.writePayload] at h ⊢
  match hfirst : writeAll io (toBeBytes (UInt32.ofNat payload.length)) with
  | (.error text, io₁) =>
    simp only [hfirst] at h
    exact nomatch h
  | (.ok (), io₁) =>
    rw [hfirst] at hlen
    simp only [hfirst] at h ⊢
    obtain ⟨-, hpayload⟩ := written_writeAll io₁ payload
    match hsecond : writeAll io₁ payload with
    | (.error text, io₂) =>
      simp only [hsecond] at h
      exact nomatch h
    | (.ok (), io₂) =>
      rw [hsecond] at hpayload
      have hio₁ : Sink.written io₁ = Sink.written io ++ toBeBytes (UInt32.ofNat payload.length) :=
        hlen rfl
      have hio₂ : Sink.written io₂ = Sink.written io₁ ++ payload := hpayload rfl
      rw [written_flush, hio₂, hio₁, List.append_assoc]
      rfl

theorem writePayload_ok [Sink.Reliable W] : (Demo.writePayload io payload).1 = .ok () := by
  have hlen : (writeAll io (toBeBytes (UInt32.ofNat payload.length))).1 = .ok () := writeAll_ok _ _
  rw [Demo.writePayload]
  match hfirst : writeAll io (toBeBytes (UInt32.ofNat payload.length)) with
  | (.error text, io₁) =>
    rw [hfirst] at hlen
    exact nomatch hlen
  | (.ok (), io₁) =>
    have hpayload : (writeAll io₁ payload).1 = .ok () := writeAll_ok _ _
    match hsecond : writeAll io₁ payload with
    | (.error text, io₂) =>
      rw [hsecond] at hpayload
      exact nomatch hpayload
    | (.ok (), io₂) =>
      simp only [hsecond]
      exact flush_ok

variable {T : Type} [Demo.Serialize T] {value : T}

theorem writeJsonFrame_large (hjson : json.toVec (Demo.Serialize.serialize value) = .ok payload)
    (hlarge : Demo.maxFrameBytes < payload.length) :
    Demo.writeJsonFrame json io value = (.error (.frameTooLarge payload.length), io) := by
  rw [Demo.writeJsonFrame, hjson]
  simp only [if_pos hlarge]

/-- The second check of the length never fails: the limit is within a word. -/
theorem writeJsonFrame_small (hjson : json.toVec (Demo.Serialize.serialize value) = .ok payload)
    (hsmall : payload.length ≤ Demo.maxFrameBytes) :
    Demo.writeJsonFrame json io value =
      ((Demo.writePayload io payload).1.mapError .io, (Demo.writePayload io payload).2) := by
  have hlimit : ¬ payload.length > Demo.maxFrameBytes := by omega
  have hword : ¬ payload.length ≥ UInt32.size := by
    have hmax : Demo.maxFrameBytes < UInt32.size := by decide
    omega
  rw [Demo.writeJsonFrame, hjson]
  simp only [if_neg hlimit, if_neg hword]
  cases Demo.writePayload io payload with
  | mk result io' =>
    cases result with
    | error text => rfl
    | ok _ => rfl

/-- A frame that is written is short enough, and comes behind what was
written before. -/
theorem writeJsonFrame_ok (h : (Demo.writeJsonFrame json io value).1 = .ok ()) :
    ∃ payload, json.toVec (Demo.Serialize.serialize value) = .ok payload ∧
      payload.length ≤ Demo.maxFrameBytes ∧
      Sink.written (Demo.writeJsonFrame json io value).2 = Sink.written io ++ frame payload := by
  cases hjson : json.toVec (Demo.Serialize.serialize value) with
  | error text =>
    rw [Demo.writeJsonFrame, hjson] at h
    exact nomatch h
  | ok payload =>
    rcases Nat.lt_or_ge Demo.maxFrameBytes payload.length with hlarge | hsmall
    · rw [writeJsonFrame_large hjson hlarge] at h
      exact nomatch h
    · rw [writeJsonFrame_small hjson hsmall] at h ⊢
      refine ⟨payload, rfl, hsmall, written_writePayload ?_⟩
      match hwrite : (Demo.writePayload io payload).1 with
      | .ok () => rfl
      | .error text =>
        rw [hwrite] at h
        exact nomatch h

end

/-! ## The browser -/

theorem names_nodup (outcome : Demo.VerificationOutcome) :
    ((Demo.Serialize.serialize outcome).map Prod.fst).Nodup := by
  cases outcome with
  | success chf lastAudit =>
    change ["status", "chf", "last_audit"].Nodup
    decide
  | failure reason =>
    change ["status", "reason"].Nodup
    decide

/-- The outcome in the types of the browser. -/
def received : Demo.VerificationOutcome → Wasm.VerificationOutcome
  | .success chf lastAudit => .success chf lastAudit
  | .failure reason => .failure reason

/-- The names agree. -/
theorem deserialize_serialize (outcome : Demo.VerificationOutcome) :
    Wasm.VerificationOutcome.deserialize
      ((Demo.Serialize.serialize outcome).map fun entry => (entry.1, .string entry.2)) =
        .ok (received outcome) := by
  cases outcome with
  | success chf lastAudit => rfl
  | failure reason => rfl

section

variable {R : Type} [Source R] {json : SerdeJson} {recv recv' : R} {payload more : List UInt8}

/-- A frame that is short enough is read to its end, whatever comes behind it. -/
theorem readVerificationOutcome_frame [Source.Reliable R] {outcome : Demo.VerificationOutcome}
    (hrest : Source.rest recv = frame payload ++ more)
    (hsmall : payload.length ≤ Wasm.maxFrameBytes)
    (hjson : json.fromSlice payload =
      .ok ((Demo.Serialize.serialize outcome).map fun entry => (entry.1, .string entry.2))) :
    ∃ recv', Wasm.readVerificationOutcome json recv = (verdict outcome, recv') ∧
      Source.rest recv' = more := by
  have hword : payload.length < UInt32.size := by
    have hmax : Wasm.maxFrameBytes < UInt32.size := by decide
    omega
  have hlen : (fromBeBytes (toBeBytes (UInt32.ofNat payload.length))).toNat = payload.length :=
    toNat_fromBeBytes hword
  have hlimit : ¬ payload.length > Wasm.maxFrameBytes := by omega
  have hfour : 4 ≤ (Source.rest recv).length := by
    rw [hrest, frame, List.append_assoc, List.length_append, length_toBeBytes]
    omega
  obtain ⟨recv₁, hread₁, hrest₁⟩ := readExact_eq recv hfour
  rw [hrest, frame, List.append_assoc, List.take_left' (length_toBeBytes _)] at hread₁
  rw [hrest, frame, List.append_assoc, List.drop_left' (length_toBeBytes _)] at hrest₁
  have hall : payload.length ≤ (Source.rest recv₁).length := by
    rw [hrest₁, List.length_append]
    omega
  obtain ⟨recv₂, hread₂, hrest₂⟩ := readExact_eq recv₁ hall
  rw [hrest₁, List.take_left] at hread₂
  rw [hrest₁, List.drop_left] at hrest₂
  refine ⟨recv₂, ?_, hrest₂⟩
  rw [Wasm.readVerificationOutcome, hread₁]
  simp only [hlen, if_neg hlimit, hread₂, hjson, deserialize_serialize]
  cases outcome with
  | success chf lastAudit => rfl
  | failure reason => rfl

/-- A frame that is refused as too large is longer than the limit. -/
theorem readVerificationOutcome_large {len : ℕ}
    (h : (Wasm.readVerificationOutcome json recv).1 = .error (.frameTooLarge len)) :
    Wasm.maxFrameBytes < len := by
  unfold Wasm.readVerificationOutcome at h
  split at h
  · cases h
  · simp only at h
    split at h
    · next hlarge =>
      obtain rfl := Wasm.OutcomeError.frameTooLarge.inj (Except.error.inj h)
      exact hlarge
    · split at h
      · cases h
      · split at h
        · cases h
        · split at h <;> cases h

end

/-- **The outcome frame round-trips.** For every outcome, either its payload is
longer than a frame may be, and the server says so with its length and writes
nothing, or the server writes a frame, and from every source that gives this
frame and further bytes, in any chunks, the browser reads exactly the frame,
and with it the outcome that the server reported. And the browser refuses no
frame as too large that has the length of one that the server writes. -/
theorem outcome_round_trip {W : Type} [Sink W] [Sink.Reliable W] {json : SerdeJson}
    (hjson : json.Lawful) (io : W) (outcome : Demo.VerificationOutcome) :
    (∃ payload, json.toVec (Demo.Serialize.serialize outcome) = .ok payload ∧
      (Demo.maxFrameBytes < payload.length ∧
          Demo.writeJsonFrame json io outcome = (.error (.frameTooLarge payload.length), io) ∨
        payload.length ≤ Demo.maxFrameBytes ∧ (Demo.writeJsonFrame json io outcome).1 = .ok () ∧
          ∃ bytes, Sink.written (Demo.writeJsonFrame json io outcome).2 = Sink.written io ++ bytes ∧
            ∀ (R : Type) [Source R] [Source.Reliable R] (recv : R) (more : List UInt8),
              Source.rest recv = bytes ++ more →
              ∃ recv', Wasm.readVerificationOutcome json recv = (verdict outcome, recv') ∧
                Source.rest recv' = more)) ∧
    ∀ (R : Type) [Source R] (recv : R) (len : ℕ),
      (Wasm.readVerificationOutcome json recv).1 = .error (.frameTooLarge len) →
      ∀ (W' T : Type) [Sink W'] [Demo.Serialize T] (io : W') (value : T),
        (Demo.writeJsonFrame json io value).1 = .ok () →
        (Sink.written (Demo.writeJsonFrame json io value).2).length ≠
          (Sink.written io).length + (4 + len) := by
  refine ⟨?_, ?_⟩
  · obtain ⟨payload, hpayload, hslice⟩ := hjson.fromSlice_toVec _ (names_nodup outcome)
    refine ⟨payload, hpayload, ?_⟩
    rcases Nat.lt_or_ge Demo.maxFrameBytes payload.length with hlarge | hsmall
    · exact .inl ⟨hlarge, writeJsonFrame_large hpayload hlarge⟩
    · have hok : (Demo.writeJsonFrame json io outcome).1 = .ok () := by
        rw [writeJsonFrame_small hpayload hsmall, writePayload_ok]
        rfl
      obtain ⟨written, hwritten, -, hframe⟩ := writeJsonFrame_ok hok
      obtain rfl : payload = written := by
        rw [hpayload] at hwritten
        exact Except.ok.inj hwritten
      refine .inr ⟨hsmall, hok, frame payload, hframe, ?_⟩
      intro R _ _ recv more hrest
      exact readVerificationOutcome_frame hrest hsmall hslice
  · intro R _ recv len hrefused W' T _ _ io value hok
    have hlarge : Wasm.maxFrameBytes < len := readVerificationOutcome_large hrefused
    obtain ⟨payload, -, hsmall, hframe⟩ := writeJsonFrame_ok hok
    have hlimits : Demo.maxFrameBytes = Wasm.maxFrameBytes := rfl
    rw [hframe, List.length_append, frame, List.length_append, length_toBeBytes]
    omega

/-- The text of a balance of five francs. -/
def fiveFrancs : List UInt8 :=
  "\x7b\"status\":\"success\",\"chf\":\"5\",\"last_audit\":\"2026-01-31\"\x7d".toUTF8.data.toList

/-- It is written behind its length, and read from three chunks, the second of
them empty and the third one with a byte behind the frame. -/
theorem outcome_round_trip_five :
    let wrote := Demo.writeJsonFrame (plain .compact) (⟨2, []⟩ : Tray)
      (Demo.VerificationOutcome.success "5" "2026-01-31")
    let bytes := [0, 0, 0, 56] ++ fiveFrancs
    wrote.1 = .ok () ∧ Sink.written wrote.2 = bytes ∧
      ∃ recv', Wasm.readVerificationOutcome (plain .compact)
          (⟨[bytes.take 3, [], bytes.drop 3 ++ [9]]⟩ : Chunked) =
            (.ok ⟨"5", "2026-01-31"⟩, recv') ∧ Source.rest recv' = [9] := by
  intro wrote bytes
  have htext : (plain .compact).toVec
      (Demo.Serialize.serialize (Demo.VerificationOutcome.success "5" "2026-01-31")) =
        .ok fiveFrancs := by
    decide +kernel
  obtain ⟨⟨payload, hpayload, hframe⟩, -⟩ :=
    outcome_round_trip plain_lawful (⟨2, []⟩ : Tray) (.success "5" "2026-01-31")
  obtain rfl : fiveFrancs = payload := Except.ok.inj (htext.symm.trans hpayload)
  rcases hframe with ⟨hlarge, -⟩ | ⟨-, hok, written, hwritten, hread⟩
  · exact absurd hlarge (by decide +kernel)
  · obtain ⟨payload, hpayload', -, hwrote⟩ := writeJsonFrame_ok hok
    obtain rfl : fiveFrancs = payload := Except.ok.inj (htext.symm.trans hpayload')
    have hbytes : frame fiveFrancs = bytes := by decide +kernel
    have hsame : bytes = written := hbytes.symm.trans (hwrote.symm.trans hwritten)
    refine ⟨hok, hwrote.trans hbytes, hread Chunked _ [9] ?_⟩
    rw [← hsame]
    decide +kernel

end TlsnDemo
