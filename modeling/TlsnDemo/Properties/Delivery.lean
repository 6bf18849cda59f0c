import TlsnDemo.Properties.Session
import TlsnDemo.Wasm.Incoming

/-!
# The report over the stream of the browser

The stream to the verifier is used by the session of the library, and what
is left of it carries the report. Whatever the library did with the stream,
however the report is cut into chunks, and however long their promises
take, the browser reads a balance exactly if it was verified
(`read_iff_verified`).
-/

namespace TlsnDemo.Demo

open ByteStream Encoding Wasm

section

variable [ToLowercase] {T : Type} [Sink T] {json : SerdeJson} {session : VerifierSession T}
  {chunks : List (List UInt8)} {calls : List Wasm.Call} {chf lastAudit : String}

/-- **A balance is read from the stream exactly if it was verified.** A reader
that the session left behind some bytes, and that is given the report from
there, or a part of it, reads none that was not verified; and given all of
it, it reads each one that was, if its outcome fits in a frame. -/
theorem read_iff_verified (hlawful : json.Lawful) (texts : LibraryTexts) (session : VerifierSession T)
    (hdeliver : Wasm.Delivers chunks (after calls).delivered) (found : List ℕ) :
    (∀ chf lastAudit, chunks.flatten <+: returned (past calls) ++ reported json texts session →
      (readVerificationOutcome json (Incoming.ofRun hdeliver found)).1 = .ok ⟨chf, lastAudit⟩ →
      Verified session chf lastAudit) ∧
    ∀ [Sink.Reliable T] (chf lastAudit : String) (payload more : List UInt8),
      chunks.flatten = returned (past calls) ++ (reported json texts session ++ more) →
      json.toVec (Serialize.serialize (VerificationOutcome.success chf lastAudit)) = .ok payload →
      payload.length ≤ maxFrameBytes → Verified session chf lastAudit →
      (readVerificationOutcome json (Incoming.ofRun hdeliver found)).1 = .ok ⟨chf, lastAudit⟩ := by
  have hrest := Incoming.returned_append_ofRun hdeliver found
  refine ⟨?_, ?_⟩
  · intro chf lastAudit hpart h
    rw [← hrest, List.prefix_append_right_inj] at hpart
    exact told_verified hlawful _ hpart h
  · intro _ chf lastAudit payload more hall hpayload hsmall hverified
    rw [← hrest, List.append_right_inj] at hall
    obtain ⟨socket, output, hend, houtcome⟩ : ∃ socket output, RunToEnd session socket output ∧
        outcomeOf texts (validate output) = .success chf lastAudit := hverified.outcome
    rw [← houtcome] at hpayload
    obtain ⟨io', hread, -⟩ := told_outcome hlawful hend hall hpayload hsmall
    rw [hread, houtcome]
    rfl

end

/-- What the server reports of a session with two members. -/
def reportPair : List UInt8 := @reported asciiLowercase _ _ (plain .compact) noTexts sessionPair

/-- A read before the report has left its first bytes in the buffer; of the
others there come no byte, and then all. -/
def callsPair : List Wasm.Call := [.read [0] [.ok (chunkResult (5 :: reportPair.take 3))]]

theorem read_iff_verified_sessionPair :
    ∃ hdeliver : Wasm.Delivers [5 :: reportPair.take 3, [], reportPair.drop 3]
        (after callsPair).delivered,
      (readVerificationOutcome (plain .compact) (Incoming.ofRun hdeliver [0, 1, 0])).1 =
        .ok ⟨"12", "May"⟩ ∧
      @Verified asciiLowercase _ sessionPair "12" "May" := by
  have hdeliver : Wasm.Delivers [5 :: reportPair.take 3, [], reportPair.drop 3]
      (after callsPair).delivered := delivers_of_isPrefix ⟨_, rfl⟩
  have hreturned : returned (past callsPair) = [5] := by decide +kernel
  obtain ⟨hsound, hcomplete⟩ := @read_iff_verified asciiLowercase _ _ (plain .compact) _ _
    plain_lawful noTexts sessionPair hdeliver [0, 1, 0]
  have hall : [5 :: reportPair.take 3, [], reportPair.drop 3].flatten =
      returned (past callsPair) ++ (reportPair ++ []) := by
    rw [hreturned]
    simp
  have hread := hcomplete "12" "May" _ [] hall rfl (by decide +kernel) verified_sessionPair
  refine ⟨hdeliver, hread, hsound "12" "May" ?_ hread⟩
  rw [hall, List.append_nil]
  exact List.prefix_rfl

end TlsnDemo.Demo
