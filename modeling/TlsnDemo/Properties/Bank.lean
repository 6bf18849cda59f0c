import TlsnDemo.Demo.Worker
import TlsnDemo.Properties.Report
import TlsnDemo.Properties.RoundTrip
import TlsnDemo.Properties.Session

/-!
# What the page is told of the bank

The worker, the prover, the verifier and its report, together. The library
takes what the prover discloses of a transcript to the verifier; its two
sides are parameters, and what they have to do with each other is a
hypothesis (`Linked`). A balance that the worker answers is then what stands in
the response of the bank, where the rules of the worker lead
(`answer_of_bank`).
-/

namespace TlsnDemo

open Peg Support Syntax PathNode Script ByteStream Encoding

/-- What a proof shows of the received message. -/
def ProveConfig.view (config : ProveConfig) (received : List UInt8) : List UInt8 :=
  redact received (revealedBy (config.disclosures.filter (·.direction = .received)))

section

variable [ToLowercase] {s : List UInt8} {config : RevealConfig} {request response : RevealConfig}
  {transcript : Transcript} {proof : ProveConfig} {out : BalanceOutput} {k : ℕ}

/-- What a plan shows are the ranges that the configuration reveals. -/
theorem shown_plan_iff {direction : TranscriptDirection} {headers : StringMap (List StandardHeader)}
    {body : StringMap StandardBody} {start : Range} :
    revealedBy (plan direction headers body start config) k = true ↔
      ∃ range, Reveals headers body start config range ∧ range.Contains k := by
  rw [revealedBy_eq_true]
  constructor
  · rintro ⟨⟨direction', action, range⟩, hmem, rfl, hk⟩
    obtain rfl : direction' = direction := plan_direction hmem
    exact ⟨range, mem_plan.1 hmem, hk⟩
  · rintro ⟨range, hrev, hk⟩
    exact ⟨⟨direction, .reveal, range⟩, mem_plan.2 hrev, rfl, hk⟩

/-- **A proof of what is selected** shows the plan of the response. -/
theorem Selected.view (h : Selected transcript request response proof) :
    ∃ parsed, parseStandardResponse transcript.received = .ok parsed ∧
      RulesMatch parsed.headers parsed.body response ∧
      proof.view transcript.received = redact transcript.received
        (revealedBy (plan .received parsed.headers parsed.body (statusLineRange parsed) response)) := by
  obtain ⟨-, p, q, hp, hq, hdisclosures⟩ := h
  have hsent : p.filter (·.direction = .received) = [] := by
    rw [List.filter_eq_nil_iff]
    intro c hc
    simp [hp.direction c hc]
  have hreceived : q.filter (·.direction = .received) = q := by
    rw [List.filter_eq_self]
    intro c hc
    simp [hq.direction c hc]
  rw [ProveConfig.view, hdisclosures, List.filter_append, hsent, hreceived, List.nil_append]
  obtain ⟨hparse, hmatch⟩ := hq
  exact ⟨_, hparse, hmatch, rfl⟩

/-- **A text of a rule** for a member under a key. -/
def TextOfRule (s : List UInt8) (root : Token) (config : RevealConfig) (name : String)
    (text : List UInt8) : Prop :=
  ∃ field ∈ config.revealBodyFields, ∃ n, IsLast s root field.keypath n ∧
    n.path.getLast? = some (.key name) ∧ ValueText s n text

/-- **What is extracted from a proof** is what the rules lead to, if this are
strings. -/
theorem Selected.extracted (h : Selected transcript request response proof)
    (hout : extractBalance (proof.view transcript.received) = .ok out) :
    ∃ parsed x y root, parseStandardResponse transcript.received = .ok parsed ∧
      HasDocument transcript.received parsed.body root ∧ IsDocument transcript.received x y root ∧
      (StringRules transcript.received root response →
        TextOfRule transcript.received root response "CHF" out.chfBalance ∧
        TextOfRule transcript.received root response "last_audit" out.lastAudit) := by
  obtain ⟨parsed, hp, -, hview⟩ := h.view
  rw [hview] at hout
  obtain ⟨-, r, hview, hchf, haudit⟩ := extractBalance_eq_ok.1 hout
  obtain ⟨d, l, hs, i, bs, e, ps, hr⟩ := parseResponseInner_eq_ok.1 hp
  have hshown := fun k => @shown_plan_iff _ response k .received parsed.headers parsed.body
    (statusLineRange parsed)
  have hread : ReadsMessage transcript.received parsed.headers parsed.body l hs i bs e ps :=
    ⟨hr.text.message.headers, hr.text.message.body, hr.readsHeaders, hr.headers, hr.readsBody⟩
  rcases hread.empty_or_document with hbody | ⟨x, y, root, hx, -, rfl, hd, hbody⟩
  · obtain ⟨field, range, hf, -⟩ := bodyText_eq_ok.1 hchf
    exact absurd hf (not_entry_of_empty hr hshown hbody hview)
  · have hx' : i ≤ x := le_skipTo.trans hx
    refine ⟨parsed, x, y, root, hp, ⟨⟨_, _, _, _, _, AcceptedAs.response
      (parse_response_eq_some.2 ⟨_, _, _, _, _, _, hr.text, rfl⟩) hp⟩, hd.root.1⟩, hd, ?_⟩
    intro hrules
    have hchfPath : ".CHF" = PathStack.render ⟨[.key "CHF"]⟩ := rfl
    have hauditPath : ".last_audit" = PathStack.render ⟨[.key "last_audit"]⟩ := rfl
    exact ⟨read_of_rule hr hshown hx' hd hbody hrules hview (hchfPath ▸ hchf),
      read_of_rule hr hshown hx' hd hbody hrules hview (hauditPath ▸ haudit)⟩

end

/-! ## The answer of the worker -/

namespace Demo

open Wasm

section

variable [ToLowercase] {R T : Type} [Source R] [Sink T] {json : SerdeJson} {texts : LibraryTexts}
  {checks : ConfigChecks} {streams : Except String Unit} {chf lastAudit : String}

/-- **The two sides of a session of the library**: what the verifier accepts of
the received message is what the prover discloses of the transcript of its
connection, and the socket that the prover is given back gives what the
server reports, as far as it arrives. -/
structure Linked (json : SerdeJson) (texts : LibraryTexts) (prover : ProverSession R)
    (request response : RevealConfig) (verifier : VerifierSession T) : Prop where
  proof : ∀ output view, verifier.acceptProof = .ok output → output.transcript = some view →
    ∃ transcript config, prover.connected = .ok transcript ∧
      .prove config ∈ (prover.run request response).calls ∧ view = config.view transcript.received
  report : ∀ io, prover.driver = some (.ok io) → Source.rest io <+: reported json texts verifier

/-- **A browser with the prover**: it proves over sessions of the library. -/
def Proves (browser : Worker.Browser) (json : SerdeJson) (checks : ConfigChecks)
    (streams : Except String Unit) (library : ProverConfigBundle → ProverSession R) : Prop :=
  ∃ describe : ProveStreamsError → String, ∀ inputs, browser.proveStreams inputs =
    (proveStreams json checks streams library inputs).mapError describe

/-- **What the bank says** at a path: the text of the string that the path
leads to. -/
def Says (s : List UInt8) (root : Token) (path text : String) : Prop :=
  ∃ n value, IsLast s root path n ∧ ValueText s n value ∧ textOf value = some text

omit [ToLowercase] in
/-- A rule of the worker whose path ends with a key. -/
theorem states_of_rule {s value : List UInt8} {root : Token} {x y : ℕ} {above : List PathSegment}
    {name text : String} (hd : IsDocument s x y root)
    (h : TextOfRule s root Worker.buildProverInputs.responseRevealConfig name value)
    (hname : (above, name) ∈ [([.key "accounts"], "CHF"), ([], "last_audit")])
    (htext : textOf value = some text) :
    Says s root (PathStack.render ⟨above ++ [.key name]⟩) text := by
  obtain ⟨field, hfield, n, hlast, hkey, hvalue⟩ := h
  have hpath : n.path = [.key "accounts"] ++ [.key "CHF"] ∨ n.path = [] ++ [.key "last_audit"] := by
    simp only [Worker.buildProverInputs, List.mem_cons, List.not_mem_nil, or_false] at hfield
    rcases hfield with rfl | rfl
    · exact Or.inl (render_inj (hd.isPath hlast.node) isPath_accounts_CHF hlast.name)
    · exact Or.inr (render_inj (hd.isPath hlast.node) isPath_last_audit hlast.name)
  have hsame : n.path = above ++ [.key name] := by
    simp only [List.mem_cons, List.not_mem_nil, or_false, Prod.mk.injEq] at hname
    rcases hname with ⟨rfl, rfl⟩ | ⟨rfl, rfl⟩ <;> rcases hpath with hpath | hpath
    · exact hpath
    · rw [hpath, List.getLast?_concat] at hkey
      exact absurd hkey (by decide)
    · rw [hpath, List.getLast?_concat] at hkey
      exact absurd hkey (by decide)
    · exact hpath
  refine ⟨n, value, ?_, hvalue, htext⟩
  have hname' : PathStack.render ⟨n.path⟩ = field.keypath := hlast.name
  rw [← hsame, hname']
  exact hlast

/-- A balance that the worker posts was read in its run. -/
theorem read_of_posted {browser : Worker.Browser} {config : Worker.Config}
    {library : ProverConfigBundle → ProverSession R}
    (hproves : Proves browser json checks streams library)
    (h : .postMessage (.result ⟨chf, lastAudit⟩) ∈ Worker.onMessage browser (some config)) :
    ∃ bundle io, buildProverConfig checks Worker.buildProverInputs = .ok bundle ∧
      (library bundle).driver = some (.ok io) ∧
      (readVerificationOutcome json io).1 = .ok ⟨chf, lastAudit⟩ := by
  obtain ⟨-, -, hprove⟩ := Worker.result_runProve.1 (Worker.posted_iff.1 h)
  obtain ⟨describe, hproves⟩ := hproves
  rw [hproves, mapError_eq_ok] at hprove
  obtain ⟨bundle, io, proved, hbundle, -, hrun, hread⟩ := proveStreams_eq_ok.1 hprove
  obtain ⟨-, -, -, -, -, hdriver⟩ := ProverSession.run_eq_ok.1 hrun
  exact ⟨bundle, io, hbundle, hdriver, hread⟩

/-- So it was verified. -/
theorem verified_of_posted (hlawful : json.Lawful) {browser : Worker.Browser} {config : Worker.Config}
    {library : ProverConfigBundle → ProverSession R} {verifier : VerifierSession T}
    (hproves : Proves browser json checks streams library)
    (hlinked : ∀ bundle, buildProverConfig checks Worker.buildProverInputs = .ok bundle →
      Linked json texts (library bundle) bundle.requestRevealConfig bundle.responseRevealConfig verifier)
    (h : .postMessage (.result ⟨chf, lastAudit⟩) ∈ Worker.onMessage browser (some config)) :
    Verified verifier chf lastAudit := by
  obtain ⟨bundle, io, hbundle, hdriver, hread⟩ := read_of_posted hproves h
  exact told_verified hlawful io ((hlinked bundle hbundle).report io hdriver) hread

/-- **An answer of the worker is what the bank says.** A balance that the
worker posts was proved in a session that the server ran to its end with
the bank, of a response with status 200; and where the two rules of the
worker lead to strings, the balance and the time of its audit are these. -/
theorem answer_of_bank (hlawful : json.Lawful) {browser : Worker.Browser} {config : Worker.Config}
    {library : ProverConfigBundle → ProverSession R} {verifier : VerifierSession T}
    (hproves : Proves browser json checks streams library)
    (hlinked : ∀ bundle, buildProverConfig checks Worker.buildProverInputs = .ok bundle →
      Linked json texts (library bundle) bundle.requestRevealConfig bundle.responseRevealConfig verifier)
    (h : .postMessage (.result ⟨chf, lastAudit⟩) ∈ Worker.onMessage browser (some config)) :
    Verified verifier chf lastAudit ∧
    ∃ bundle transcript body parsed x y root,
      buildProverConfig checks Worker.buildProverInputs = .ok bundle ∧
      (library bundle).Exchanges transcript body ∧
      parseStandardResponse transcript.received = .ok parsed ∧
      HasDocument transcript.received parsed.body root ∧ IsDocument transcript.received x y root ∧
      (StringRules transcript.received root Worker.buildProverInputs.responseRevealConfig →
        Says transcript.received root ".accounts.CHF" chf ∧
        Says transcript.received root ".last_audit" lastAudit) := by
  have hverified : Verified verifier chf lastAudit := verified_of_posted hlawful hproves hlinked h
  refine ⟨hverified, ?_⟩
  obtain ⟨bundle, -, hbundle, -, -⟩ := read_of_posted hproves h
  obtain ⟨hproof, -⟩ := hlinked bundle hbundle
  obtain ⟨socket, output, view, out, hend, -, htranscript, hextract, hchf, haudit⟩ := hverified
  -- what was accepted is what was selected of the response
  obtain ⟨transcript, proof, hconnected, hmem, rfl⟩ := hproof output view hend.acceptProof htranscript
  obtain ⟨transcript', body, hex, hbuild⟩ := ProverSession.mem_run_prove.1 hmem
  obtain rfl : transcript' = transcript := by
    rw [hex.connected, Except.ok.injEq] at hconnected
    exact hconnected
  obtain ⟨parsed, x, y, root, hparse, hdoc, hd, hrules⟩ :=
    (ProverSession.selected_of_build hbuild).extracted hextract
  obtain rfl := buildProverConfig_eq_ok hbundle
  refine ⟨_, transcript', body, parsed, x, y, root, hbundle, hex, hparse, hdoc, hd, ?_⟩
  intro hstrings
  obtain ⟨hchf', haudit'⟩ := hrules hstrings
  have hstated : Says transcript'.received root (PathStack.render ⟨[.key "accounts"] ++ [.key "CHF"]⟩)
      chf := states_of_rule hd hchf' (by simp) hchf
  have hstated' : Says transcript'.received root (PathStack.render ⟨[] ++ [.key "last_audit"]⟩)
      lastAudit := states_of_rule hd haudit' (by simp) haudit
  exact ⟨hstated, hstated'⟩

end

/-! A session with the bank. -/

def bankTranscript : Transcript where
  sent := bytes "GET /balances HTTP/1.1\r\nauthorization: Bearer t\r\n\r\n"
  received := bytes "HTTP/1.1 200 OK\r\na: b\r\n\r\n" ++
    bytes "\x7b\"account_id\":7,\"accounts\":\x7b\"CHF\":\"12\"\x7d,\"last_audit\":\"May\"\x7d"

theorem parsedField_bankTranscript :
    ["", ".accounts.CHF", ".last_audit", ".account_id"].map
        (@parsedField asciiLowercase bankTranscript.received) =
      [some (.value ⟨25, 84⟩), some (.keyValue ⟨54, 57⟩ ⟨60, 62⟩),
        some (.keyValue ⟨66, 76⟩ ⟨79, 82⟩), some (.keyValue ⟨27, 37⟩ ⟨39, 40⟩)] := by
  decide +kernel

theorem not_whitespace_bankTranscript :
    ∀ c ∈ bankTranscript.received.drop 25, isWhitespace c = false := by
  decide +kernel

section

variable {parsed : StandardResponse} {root : Token} {x y : ℕ}

/-- The entries of its response. -/
theorem lookup_bankTranscript
    (hp : @parseStandardResponse asciiLowercase bankTranscript.received = .ok parsed) :
    parsed.body.lookup "" = some (.value ⟨25, 84⟩) ∧
      parsed.body.lookup ".accounts.CHF" = some (.keyValue ⟨54, 57⟩ ⟨60, 62⟩) ∧
      parsed.body.lookup ".last_audit" = some (.keyValue ⟨66, 76⟩ ⟨79, 82⟩) ∧
      parsed.body.lookup ".account_id" = some (.keyValue ⟨27, 37⟩ ⟨39, 40⟩) := by
  let _ := asciiLowercase
  have hlookup : ∀ {p field}, parsedField bankTranscript.received p = some field →
      parsed.body.lookup p = some field := by
    intro p field hf
    obtain ⟨parsed', hp', hf⟩ := parsedField_eq_some.1 hf
    rw [hp, Except.ok.injEq] at hp'
    exact hp' ▸ hf
  have hfields := parsedField_bankTranscript
  simp only [List.map_cons, List.map_nil, List.cons.injEq, and_true] at hfields
  obtain ⟨hroot, hchf, haudit, hid⟩ := hfields
  exact ⟨hlookup hroot, hlookup hchf, hlookup haudit, hlookup hid⟩

/-- The document of the bank has no whitespace. -/
theorem compact_bankTranscript
    (hp : @parseStandardResponse asciiLowercase bankTranscript.received = .ok parsed)
    (hd : IsDocument bankTranscript.received x y root)
    (hbody : parsed.body = bodyMap bankTranscript.received root) :
    CompactDocument bankTranscript.received root := by
  obtain ⟨hroot, -⟩ := lookup_bankTranscript hp
  have hspan := hd.root_entry (hbody ▸ hroot)
  simp only [Body.value.injEq, Range.mk.injEq] at hspan
  obtain ⟨rfl, -⟩ := hspan
  refine hd.compact_of_not_whitespace fun k c h1 _ hc => not_whitespace_bankTranscript c ?_
  refine List.mem_of_getElem? (i := k - 25) ?_
  rw [List.getElem?_drop, Nat.add_sub_cancel' h1]
  exact hc

/-- And the rules of the worker lead to strings of it. -/
theorem stringRules_bankTranscript
    (hp : @parseStandardResponse asciiLowercase bankTranscript.received = .ok parsed)
    (hd : IsDocument bankTranscript.received x y root)
    (hbody : parsed.body = bodyMap bankTranscript.received root) :
    StringRules bankTranscript.received root Worker.buildProverInputs.responseRevealConfig := by
  obtain ⟨-, hchf, haudit, -⟩ := lookup_bankTranscript hp
  have hnames : NamesMembers bankTranscript.received parsed.body
      Worker.buildProverInputs.responseRevealConfig := by
    refine ⟨fun field hfield => ?_, fun rule hrule => absurd hrule List.not_mem_nil⟩
    simp only [Worker.buildProverInputs, List.mem_cons, List.not_mem_nil, or_false] at hfield
    rcases hfield with rfl | rfl
    · exact ⟨_, _, hchf, by decide⟩
    · exact ⟨_, _, haudit, by decide⟩
  have hsuits := (hbody ▸ hnames).suits hd (compact_bankTranscript hp hd hbody)
  refine ⟨fun field hfield n hn => ?_, rfl⟩
  have hsuit := hsuits.field field hfield n hn
  refine ⟨hsuit.member, hsuit.quoted.1 ?_⟩
  simp only [Worker.buildProverInputs, List.mem_cons, List.not_mem_nil, or_false] at hfield
  rcases hfield with rfl | rfl <;> rfl

end

/-- What the worker selects of it. -/
def bankProof : ProveConfig where
  serverIdentity := true
  disclosures := [⟨.sent, .reveal, ⟨0, 23⟩⟩, ⟨.sent, .commit, ⟨24, 48⟩⟩,
    ⟨.received, .reveal, ⟨0, 16⟩⟩, ⟨.received, .reveal, ⟨53, 63⟩⟩, ⟨.received, .reveal, ⟨65, 83⟩⟩,
    ⟨.received, .commit, ⟨26, 41⟩⟩]

/-- The side of the server. -/
def bankVerifier : VerifierSession Tray :=
  { sessionPair with
    acceptProof := .ok ⟨some "swissbank.tlsnotary.org",
      some (bankProof.view bankTranscript.received)⟩ }

/-- The side of the worker. -/
def bankProver : ProverSession Chunked where
  newProver := .ok ()
  commit := .ok ()
  connect := .ok ()
  handshake := .ok ()
  connected := .ok bankTranscript
  connection := .ok ()
  response := .ok (200, .ok [])
  builders := fun n _ c => decide (c.range.start ≤ c.range.stop ∧ c.range.stop ≤ n)
  buildCommit := .ok ()
  buildProve := .ok ()
  prove := fun _ => .ok ()
  close := .ok ()
  driver := some (.ok ⟨[@reported asciiLowercase _ _ (plain .compact) noTexts bankVerifier]⟩)

def noChecks : ConfigChecks where
  dnsName := fun _ => .ok ()
  tlsClientConfig := fun _ _ => .ok ()
  mpcTlsConfig := fun _ _ => .ok ()
  method := fun _ => .ok ()
  request := fun _ => .ok ()

def bankBrowser : Worker.Browser where
  init := .ok ()
  installSpawnBlobPatch := .ok ()
  initializePool := .ok ()
  newWebTransport := fun _ => .ok ()
  ready := .ok ()
  createBidirectionalStream := fun _ => .ok ()
  writePreamble := fun _ _ => .ok ()
  proveStreams := fun inputs =>
    (@proveStreams asciiLowercase _ _ (plain .compact) noChecks (.ok ()) (fun _ => bankProver)
      inputs).mapError fun _ => "failed"
  close := .ok ()

theorem build_bankProver : @ProverSession.buildProveConfig _ bankProver asciiLowercase
    Worker.buildProverInputs.requestRevealConfig Worker.buildProverInputs.responseRevealConfig
    bankTranscript = .ok bankProof := by
  decide +kernel

theorem proveStreams_bankBrowser :
    bankBrowser.proveStreams Worker.buildProverInputs = .ok ⟨"12", "May"⟩ := by
  decide +kernel

theorem opens_bankBrowser (config : Worker.Config) : Worker.Opens bankBrowser config :=
  ⟨rfl, rfl, rfl, rfl⟩

theorem tells_bankBrowser : Worker.Tells bankBrowser := ⟨rfl, rfl, rfl, rfl, rfl⟩

theorem mem_run_bankProver : .prove bankProof ∈ (@ProverSession.run _ bankProver asciiLowercase
    Worker.buildProverInputs.requestRevealConfig
    Worker.buildProverInputs.responseRevealConfig).calls :=
  (@ProverSession.mem_run_prove asciiLowercase _ _ _ _ _).2
    ⟨bankTranscript, [], ⟨rfl, rfl, rfl, rfl, rfl, rfl, rfl⟩, build_bankProver⟩

theorem linked_bankProver : @Linked asciiLowercase _ _ _ _ (plain .compact) noTexts bankProver
    Worker.buildProverInputs.requestRevealConfig Worker.buildProverInputs.responseRevealConfig
    bankVerifier := by
  let _ := asciiLowercase
  refine ⟨?_, ?_⟩
  · intro output view hproof hview
    obtain rfl := Except.ok.inj hproof
    obtain rfl := Option.some.inj hview
    exact ⟨bankTranscript, bankProof, rfl, mem_run_bankProver, rfl⟩
  · intro io hio
    have hrest : ∀ bytes : List UInt8, Source.rest (⟨[bytes]⟩ : Chunked) = bytes :=
      fun bytes => List.append_nil bytes
    have hreported : Source.rest io = reported (plain .compact) noTexts bankVerifier := by
      rw [← Except.ok.inj (Option.some.inj hio)]
      exact hrest _
    exact ⟨[], by rw [hreported, List.append_nil]⟩

theorem posted_bankBrowser :
    .postMessage (.result ⟨"12", "May"⟩) ∈ Worker.onMessage bankBrowser (some ⟨"", ""⟩) :=
  Worker.posted_iff.2 (Worker.result_runProve.2
    ⟨opens_bankBrowser _, tells_bankBrowser, proveStreams_bankBrowser⟩)

theorem linked_bundle {bundle : ProverConfigBundle}
    (hbundle : buildProverConfig noChecks Worker.buildProverInputs = .ok bundle) :
    @Linked asciiLowercase _ _ _ _ (plain .compact) noTexts bankProver bundle.requestRevealConfig
      bundle.responseRevealConfig bankVerifier := by
  rw [buildProverConfig_eq_ok hbundle]
  exact linked_bankProver

/-- The worker answers its balance, which was verified, and which the bank says. -/
theorem answer_of_bank_bankBrowser :
    .postMessage (.result ⟨"12", "May"⟩) ∈ Worker.onMessage bankBrowser (some ⟨"", ""⟩) ∧
      @Verified asciiLowercase _ bankVerifier "12" "May" ∧
      ∃ parsed root, @parseStandardResponse asciiLowercase bankTranscript.received = .ok parsed ∧
        @HasDocument asciiLowercase bankTranscript.received parsed.body root ∧
        StringRules bankTranscript.received root Worker.buildProverInputs.responseRevealConfig ∧
        Says bankTranscript.received root ".accounts.CHF" "12" ∧
        Says bankTranscript.received root ".last_audit" "May" := by
  let _ := asciiLowercase
  obtain ⟨hverified, bundle, transcript, body, parsed, x, y, root, -, hex, hp, hdoc, hd, hsays⟩ :=
    @answer_of_bank _ _ _ _ _ (plain .compact) noTexts noChecks (.ok ()) _ _ plain_lawful _ _
      (fun _ => bankProver) bankVerifier ⟨_, fun _ => rfl⟩ (fun _ => linked_bundle) posted_bankBrowser
  obtain rfl : bankTranscript = transcript := Except.ok.inj hex.connected
  have hrules := stringRules_bankTranscript hp hd hdoc.document.2
  obtain ⟨hchf, haudit⟩ := hsays hrules
  exact ⟨posted_bankBrowser, hverified, parsed, root, hp, hdoc, hrules, hchf, haudit⟩

end Demo

end TlsnDemo
