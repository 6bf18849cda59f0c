import TlsnDemo.Properties.Answer

/-!
# What a proof of the worker shows

Of the request the worker shows the first line, so that no value of a header
is seen, and of the response the first line and the two members that its
rules lead to; it commits to the header with its token and to the account.
This holds of each proof that its prover asks for, whatever the messages
are (`worker_keeps_secrets`).
-/

namespace TlsnDemo

open Peg Support Syntax PathNode Script

/-- What a proof shows of a message. -/
def ProveConfig.shows (proof : ProveConfig) (direction : TranscriptDirection) (k : ℕ) : Bool :=
  revealedBy (proof.disclosures.filter (·.direction = direction)) k

/-- What a proof commits to. -/
def ProveConfig.Commits (proof : ProveConfig) (direction : TranscriptDirection) (range : Range) : Prop :=
  ⟨direction, .commit, range⟩ ∈ proof.disclosures

section

variable [ToLowercase] {proof : ProveConfig} {transcript : Transcript} {root : Token} {x y k : ℕ}
  {asked : StandardRequest} {parsed : StandardResponse} {range : Range}

omit [ToLowercase] in
theorem shows_eq_true {direction : TranscriptDirection} : proof.shows direction k = true ↔
    ∃ range, ⟨direction, .reveal, range⟩ ∈ proof.disclosures ∧ range.Contains k := by
  rw [ProveConfig.shows, revealedBy_eq_true]
  constructor
  · rintro ⟨⟨direction', action, range⟩, hmem, rfl, hk⟩
    obtain ⟨hcall, hdirection⟩ := List.mem_filter.1 hmem
    obtain rfl : direction' = direction := of_decide_eq_true hdirection
    exact ⟨range, hcall, hk⟩
  · rintro ⟨range, hmem, hk⟩
    exact ⟨_, List.mem_filter.2 ⟨hmem, decide_eq_true rfl⟩, rfl, hk⟩

/-- The rules of the worker for the request. -/
abbrev workerRequestRules : RevealConfig := Demo.Worker.buildProverInputs.requestRevealConfig

/-- **The calls for a message of the worker** are those of its two plans. -/
theorem Selected.plans (h : Selected transcript workerRequestRules workerRules proof) :
    ∃ asked parsed, parseStandardRequest transcript.sent = .ok asked ∧
      parseStandardResponse transcript.received = .ok parsed ∧
      proof.disclosures =
        plan .sent asked.headers asked.body (requestLineRange asked) workerRequestRules ++
          plan .received parsed.headers parsed.body (statusLineRange parsed) workerRules := by
  obtain ⟨-, p, q, hp, hq, hdisclosures⟩ := h
  obtain ⟨hparsed, -⟩ := hq
  cases hp with
  | whole hempty => exact absurd hempty.2.1 (by decide)
  | rules _ hasked _ => exact ⟨_, _, hasked, hparsed, hdisclosures⟩

/-- **What the worker's rules show and commit to** of a request and a response. -/
structure KeepsSecrets (proof : ProveConfig) (transcript : Transcript) (asked : StandardRequest)
    (parsed : StandardResponse) : Prop where
  /-- Of the request the first line and the byte behind it are shown. -/
  request : ∀ k, proof.shows .sent k = true ↔ (requestLineRange asked).Contains k
  /-- So no value of a header is. -/
  values : ∀ name group header, asked.headers.lookup (toLowercase name) = some group →
    header ∈ group → ∀ k, header.value.start ≤ k → proof.shows .sent k = false
  /-- Of the response the first line with the byte behind it, and members that the rules lead to. -/
  response : ∀ root x y, IsDocument transcript.received x y root → parsed.body = bodyMap transcript.received root →
    StringRules transcript.received root workerRules → ∀ k, proof.shows .received k = true →
      (statusLineRange parsed).Contains k ∨
        ∃ path ∈ workerPaths, ∃ n, IsLast transcript.received root (PathStack.render ⟨path⟩) n ∧
          n.token.start ≤ k ∧ k < n.token.stop
  /-- The header with the token is committed to. -/
  token : ∀ range, proof.Commits .sent range ↔
    ∃ group header, asked.headers.lookup (toLowercase "authorization") = some group ∧
      header ∈ group ∧ range = header.name.headerFullRange header.value
  /-- And so is the account. -/
  account : ∀ range, proof.Commits .received range ↔
    ∃ field, parsed.body.lookup ".account_id" = some field ∧
      range = (BodyFieldConfig.quoted ".account_id").selectionRange field

/-! The rules of the worker, one by one. -/

theorem reveals_request_iff {headers : StringMap (List StandardHeader)}
    {body : StringMap StandardBody} {start : Range} :
    Reveals headers body start workerRequestRules range ↔ range = start := by
  constructor
  · intro h
    cases h with
    | startLine => rfl
    | header hname _ _ => exact absurd hname List.not_mem_nil
    | field hfield _ => exact absurd hfield List.not_mem_nil
    | key hrule _ => exact absurd hrule List.not_mem_nil
  · rintro rfl
    exact .startLine

theorem commit_mem_request_iff {headers : StringMap (List StandardHeader)}
    {body : StringMap StandardBody} {start : Range} :
    ⟨.sent, .commit, range⟩ ∈ plan .sent headers body start workerRequestRules ↔
      ∃ group header, headers.lookup (toLowercase "authorization") = some group ∧
        header ∈ group ∧ range = header.name.headerFullRange header.value := by
  simp only [plan, workerRequestRules, Demo.Worker.buildProverInputs, List.mem_cons, List.mem_append,
    mem_headerPlan, mem_fieldPlan, mem_keyPlan, Disclosure.mk.injEq, reduceCtorEq, true_and,
    false_and, and_false, false_or, or_false, List.not_mem_nil, exists_const, exists_false, exists_eq_left]
  constructor
  · rintro ⟨group, hl, header, hh, hrange⟩
    exact ⟨group, header, hl, hh, hrange.symm⟩
  · rintro ⟨group, header, hl, hh, hrange⟩
    exact ⟨group, hl, header, hh, hrange.symm⟩

theorem commit_mem_response_iff {headers : StringMap (List StandardHeader)}
    {body : StringMap StandardBody} {start : Range} :
    ⟨.received, .commit, range⟩ ∈ plan .received headers body start workerRules ↔
      ∃ field, body.lookup ".account_id" = some field ∧
        range = (BodyFieldConfig.quoted ".account_id").selectionRange field := by
  simp only [plan, workerRules, Demo.Worker.buildProverInputs, List.mem_cons, List.mem_append,
    mem_headerPlan, mem_fieldPlan, mem_keyPlan, Disclosure.mk.injEq, reduceCtorEq, true_and,
    false_and, and_false, false_or, or_false, List.not_mem_nil, exists_const, exists_false, exists_eq_left]
  constructor
  · rintro ⟨field, hl, hrange⟩
    exact ⟨field, hl, hrange.symm⟩
  · rintro ⟨field, hl, hrange⟩
    exact ⟨field, hl, hrange.symm⟩

/-- **A proof of what the worker selects** keeps its secrets. -/
theorem Selected.keepsSecrets (h : Selected transcript workerRequestRules workerRules proof) :
    ∃ asked parsed, parseStandardRequest transcript.sent = .ok asked ∧
      parseStandardResponse transcript.received = .ok parsed ∧
      KeepsSecrets proof transcript asked parsed := by
  obtain ⟨asked, parsed, hasked, hparsed, hdisclosures⟩ := h.plans
  -- a call for one message is of the plan of this message
  have hsent : ∀ action range, ⟨.sent, action, range⟩ ∈ proof.disclosures ↔
      ⟨.sent, action, range⟩ ∈
        plan .sent asked.headers asked.body (requestLineRange asked) workerRequestRules := by
    intro action range
    rw [hdisclosures, List.mem_append]
    refine or_iff_left fun hmem => ?_
    exact absurd (plan_direction hmem) (by simp)
  have hreceived : ∀ action range, ⟨.received, action, range⟩ ∈ proof.disclosures ↔
      ⟨.received, action, range⟩ ∈
        plan .received parsed.headers parsed.body (statusLineRange parsed) workerRules := by
    intro action range
    rw [hdisclosures, List.mem_append]
    refine or_iff_right fun hmem => ?_
    exact absurd (plan_direction hmem) (by simp)
  have hrequest : ∀ k, proof.shows .sent k = true ↔ (requestLineRange asked).Contains k := by
    intro k
    simp only [shows_eq_true, hsent, mem_plan, reveals_request_iff, exists_eq_left]
  refine ⟨asked, parsed, hasked, hparsed, hrequest, ?_, ?_, fun range => ?_, fun range => ?_⟩
  · intro name group header hl hh k hk
    obtain ⟨m, u, l, hs, i, bs, e, ps, hr⟩ := parseRequestInner_eq_ok.1 hasked
    have hread : ReadsMessage transcript.sent asked.headers asked.body l hs i bs e ps :=
      ⟨hr.text.headers, hr.text.body, hr.readsHeaders, hr.headers, hr.readsBody⟩
    obtain ⟨i', n, v, j, -, -, hstart, hname, -, -, rfl⟩ := hread.revealed_header hl hh
    rw [← Bool.not_eq_true, hrequest]
    intro hcontains
    have hstop : (requestLineRange asked).stop = l + 1 := by
      simp only [requestLineRange, Range.withNewline, Range.adjust, hr.protocolVersion]
      omega
    have hlt := hcontains.2
    rw [hstop] at hlt
    simp only at hk
    omega
  · intro root x y hd hbody hstrings k hk
    obtain ⟨range, hmem, hcontains⟩ := shows_eq_true.1 hk
    have hreveals := mem_plan.1 ((hreceived _ _).1 hmem)
    cases hreveals with
    | startLine => exact Or.inl hcontains
    | header hname _ _ => exact absurd hname List.not_mem_nil
    | @field field bodyField hfield hl =>
      obtain ⟨n, hlast, rfl⟩ := hd.lookup_eq_some.1 (hbody ▸ hl)
      obtain ⟨hpath, hlast'⟩ := path_of_takes hd (Or.inl ⟨field, hfield, hlast⟩)
      have hstring := hstrings.field field hfield n hlast
      exact Or.inr ⟨n.path, hpath, n, hlast', selected_within hd hlast.node hstring field hcontains⟩
    | key hrule _ => exact absurd hrule List.not_mem_nil
  · rw [ProveConfig.Commits, hsent, commit_mem_request_iff]
  · rw [ProveConfig.Commits, hreceived, commit_mem_response_iff]

/-- **No proof of the worker shows more.** Each proof that its prover asks for,
in whatever session of the library, is of a request and a response that are
parsed, shows of the request its first line alone, so that no value of a
header is seen, and of the response its first line and the two members that
are asked for; and it commits to the header with the token and to the
account. -/
theorem worker_keeps_secrets {T : Type} {session : ProverSession T}
    (h : .prove proof ∈ (session.run workerRequestRules workerRules).calls) :
    ∃ transcript body asked parsed, session.Exchanges transcript body ∧
      parseStandardRequest transcript.sent = .ok asked ∧
      parseStandardResponse transcript.received = .ok parsed ∧
      KeepsSecrets proof transcript asked parsed := by
  obtain ⟨transcript, body, hex, hbuild⟩ := ProverSession.mem_run_prove.1 h
  obtain ⟨asked, parsed, hasked, hparsed, hkeeps⟩ :=
    (ProverSession.selected_of_build hbuild).keepsSecrets
  exact ⟨transcript, body, asked, parsed, hex, hasked, hparsed, hkeeps⟩

end

/-- Of the session with the bank no byte behind the first line of the request is
shown. -/
theorem worker_keeps_secrets_bankProof :
    ∃ asked, @parseStandardRequest asciiLowercase Demo.bankTranscript.sent = .ok asked ∧
      ∀ k, Demo.bankProof.shows .sent k = true ↔ (requestLineRange asked).Contains k := by
  let _ := asciiLowercase
  obtain ⟨transcript, body, asked, parsed, hex, hasked, -, hkeeps⟩ :=
    worker_keeps_secrets Demo.mem_run_bankProver
  obtain rfl := Except.ok.inj hex.connected
  exact ⟨asked, hasked, hkeeps.request⟩

end TlsnDemo
