import TlsnDemo.Reading.BodyMap
import TlsnDemo.Syntax.Messages

/-!
# What a parsed message says

A message is accepted when it has the layout of one and its headers and
body are read without error. The walkers of the header section see only
header tokens, so the one error left is a header without a value, and only
for the standard parser.
-/

namespace TlsnDemo

open Peg Support Syntax

variable {input : List UInt8} {i j k n v : ℕ} {ts hs : List Token} {t : Token}

/-! ## Headers -/

section Headers

variable [ToLowercase]

/-- The name a header goes by: its text, lower-cased. -/
def headerKey (input : List UInt8) (i n : ℕ) : String :=
  toLowercase (asStr input (.node .headerName i n []))

theorem parseHeader_standard :
    parseHeader (V := Range) input (headerToken i n v j) =
      .ok (headerKey input i n, ⟨⟨i, n⟩, ⟨n + 2, v⟩⟩) := rfl

theorem parseHeader_standard_bare :
    parseHeader (V := Range) input (bareHeaderToken i n) = .error (.missingField "header value") :=
  rfl

theorem parseHeader_redacted :
    parseHeader (V := Option Range) input (headerToken i n v j) =
      .ok (headerKey input i n, ⟨⟨i, n⟩, some ⟨n + 2, v⟩⟩) := rfl

theorem parseHeader_redacted_bare :
    parseHeader (V := Option Range) input (bareHeaderToken i n) =
      .ok (headerKey input i n, ⟨⟨i, n⟩, none⟩) := rfl

variable {V : Type} [HeaderValue V]

/-- Each header token with what is read of it. -/
def ReadsHeaders (input : List UInt8) (hs : List Token) (ps : List (String × Header V)) : Prop :=
  List.Forall₂ (fun t p => parseHeader input t = .ok p) hs ps

theorem parseHeaders_eq_ok {m : StringMap (List (Header V))} :
    parseHeaders input (.node .headers i j hs) = .ok m ↔
      ∃ ps, ReadsHeaders input hs ps ∧ m = pushAll ∅ ps := by
  exact foldlM_eq_ok (g := parseHeader (V := V) input) (h := fun acc p => pushHeader acc p.1 p.2)

end Headers

/-! ## Responses -/

/-- **The layout of a response**, with `d` the end of its protocol version. -/
structure ResponseText (s : List UInt8) (d l : ℕ) (hs : List Token) (h : ℕ) (bs : List Token)
    (e : ℕ) : Prop where
  status : StatusLineText s (skip s .nonAtomic 0) d l
  message : MessageText Grammar.statusLine s (statusLineTokens (skip s .nonAtomic 0) d l) l hs h bs e

theorem parse_response_eq_some {s : List UInt8} :
    Grammar.parse Grammar.response s = some ts ↔
      ∃ d l hs h bs e, ResponseText s d l hs h bs e ∧
        ts = messageTokens s (statusLineTokens (skip s .nonAtomic 0) d l) l hs h bs e := by
  rw [Grammar.response, message_eq_some]
  constructor
  · rintro ⟨first, l, hs, h, bs, e, ht, rfl⟩
    obtain ⟨d, hd, rfl⟩ := statusLine_eq_some.1 ht.line
    exact ⟨d, l, hs, h, bs, e, ⟨hd, ht⟩, rfl⟩
  · rintro ⟨d, l, hs, h, bs, e, ht, rfl⟩
    exact ⟨_, l, hs, h, bs, e, ht.message, rfl⟩

/-- The token at the end of a message. -/
def eoiToken (s : List UInt8) (e : ℕ) : Token :=
  .node .eoi (skip s .nonAtomic e) (skip s .nonAtomic e) []

theorem parseThreeFieldLine_statusLine {d l : ℕ} {x : Range × Range × Range} :
    parseThreeFieldLine (.node .statusLine i l [.node .protocolVersion i d [],
        .node .statusCode (d + 1) (d + 4) [], .node .status (d + 5) l []]) .statusLine
        "status_line" (.protocolVersion, "protocol_version") (.statusCode, "status_code")
        (.status, "status") = .ok x ↔ x = (⟨i, d⟩, ⟨d + 1, d + 4⟩, ⟨d + 5, l⟩) :=
  ⟨fun h => (Except.ok.inj h).symm, fun h => h ▸ rfl⟩

section Responses

variable [ToLowercase] {V B : Type} [HeaderValue V] {pb : List Token → Except ParseError (StringMap B)}

/-- **What it is to read a response.** -/
structure ReadsResponse (s : List UInt8) (pb : List Token → Except ParseError (StringMap B))
    (r : Response (Header V) B) (d l : ℕ) (hs : List Token) (h : ℕ) (bs : List Token) (e : ℕ)
    (ps : List (String × Header V)) : Prop where
  text : ResponseText s d l hs h bs e
  readsHeaders : ReadsHeaders s hs ps
  readsBody : pb (bs ++ [eoiToken s e]) = .ok r.body
  headers : r.headers = pushAll ∅ ps
  protocolVersion : r.protocolVersion = ⟨skip s .nonAtomic 0, d⟩
  statusCode : r.statusCode = ⟨d + 1, d + 4⟩
  status : r.status = ⟨d + 5, l⟩

theorem parseResponseInner_eq_ok {s : List UInt8} {r : Response (Header V) B} :
    parseResponseInner s pb = .ok r ↔
      ∃ d l hs h bs e ps, ReadsResponse s pb r d l hs h bs e ps := by
  unfold parseResponseInner
  constructor
  · intro h
    cases hp : Grammar.parse Grammar.response s with
    | none =>
      rw [hp] at h
      exact absurd h (by simp [throw, throwThe, MonadExceptOf.throw])
    | some ts =>
      obtain ⟨d, l, hs, j, bs, e, ht, rfl⟩ := parse_response_eq_some.1 hp
      rw [hp] at h
      obtain ⟨x, h1, h2⟩ := bind_eq_ok.1 h
      obtain rfl := parseThreeFieldLine_statusLine.1 h1
      obtain ⟨m, h3, h4⟩ := bind_eq_ok.1 h2
      obtain ⟨ps, hps, rfl⟩ := parseHeaders_eq_ok.1 h3
      obtain ⟨b, h5, h6⟩ := bind_eq_ok.1 h4
      rw [pure_eq_ok] at h6
      subst h6
      exact ⟨d, l, hs, j, bs, e, ps, ht, hps, h5, rfl, rfl, rfl, rfl⟩
  · rintro ⟨d, l, hs, j, bs, e, ps, h⟩
    rw [parse_response_eq_some.2 ⟨d, l, hs, j, bs, e, h.text, rfl⟩]
    refine bind_eq_ok.2 ⟨_, parseThreeFieldLine_statusLine.2 rfl, ?_⟩
    refine bind_eq_ok.2 ⟨_, parseHeaders_eq_ok.2 ⟨ps, h.readsHeaders, rfl⟩, ?_⟩
    refine bind_eq_ok.2 ⟨_, h.readsBody, ?_⟩
    rw [pure_eq_ok, ← h.headers, ← h.protocolVersion, ← h.statusCode, ← h.status]

end Responses

/-! ## Requests -/

section Requests

variable [ToLowercase] {V B : Type} [HeaderValue V] {pb : List Token → Except ParseError (StringMap B)}

/-- The tokens of a request line. -/
def requestLineTokens (i m u l : ℕ) : List Token :=
  [.node .requestLine i l [.node .method i m [], .node .url (m + 1) u [],
    .node .protocolVersion (u + 1) l []]]

/-- **The layout of a request**, with `m` and `u` the ends of its method
and its url. -/
abbrev RequestText (s : List UInt8) (m u l : ℕ) (hs : List Token) (h : ℕ) (bs : List Token)
    (e : ℕ) : Prop :=
  MessageText Grammar.requestLine s (requestLineTokens (skip s .nonAtomic 0) m u l) l hs h bs e

omit [ToLowercase] in
theorem parse_request_eq_some {s : List UInt8} :
    Grammar.parse Grammar.request s = some ts ↔
      ∃ m u l hs h bs e, RequestText s m u l hs h bs e ∧
        ts = messageTokens s (requestLineTokens (skip s .nonAtomic 0) m u l) l hs h bs e := by
  rw [Grammar.request, message_eq_some]
  constructor
  · rintro ⟨first, l, hs, h, bs, e, ht, rfl⟩
    obtain ⟨m, u, -, -, -, rfl⟩ := requestLine_eq_some ht.line
    exact ⟨m, u, l, hs, h, bs, e, ht, rfl⟩
  · rintro ⟨m, u, l, hs, h, bs, e, ht, rfl⟩
    exact ⟨_, l, hs, h, bs, e, ht, rfl⟩

omit [ToLowercase] in
theorem parseThreeFieldLine_requestLine {m u l : ℕ} {x : Range × Range × Range} :
    parseThreeFieldLine (.node .requestLine i l [.node .method i m [], .node .url (m + 1) u [],
        .node .protocolVersion (u + 1) l []]) .requestLine "request_line" (.method, "method")
        (.url, "url") (.protocolVersion, "protocol_version") = .ok x ↔
      x = (⟨i, m⟩, ⟨m + 1, u⟩, ⟨u + 1, l⟩) :=
  ⟨fun h => (Except.ok.inj h).symm, fun h => h ▸ rfl⟩

/-- **What it is to read a request.** -/
structure ReadsRequest (s : List UInt8) (pb : List Token → Except ParseError (StringMap B))
    (r : Request (Header V) B) (m u l : ℕ) (hs : List Token) (h : ℕ) (bs : List Token) (e : ℕ)
    (ps : List (String × Header V)) : Prop where
  text : RequestText s m u l hs h bs e
  readsHeaders : ReadsHeaders s hs ps
  readsBody : pb (bs ++ [eoiToken s e]) = .ok r.body
  headers : r.headers = pushAll ∅ ps
  method : r.method = ⟨skip s .nonAtomic 0, m⟩
  url : r.url = ⟨m + 1, u⟩
  protocolVersion : r.protocolVersion = ⟨u + 1, l⟩

theorem parseRequestInner_eq_ok {s : List UInt8} {r : Request (Header V) B} :
    parseRequestInner s pb = .ok r ↔
      ∃ m u l hs h bs e ps, ReadsRequest s pb r m u l hs h bs e ps := by
  unfold parseRequestInner
  constructor
  · intro h
    cases hp : Grammar.parse Grammar.request s with
    | none =>
      rw [hp] at h
      exact absurd h (by simp [throw, throwThe, MonadExceptOf.throw])
    | some ts =>
      obtain ⟨m, u, l, hs, j, bs, e, ht, rfl⟩ := parse_request_eq_some.1 hp
      rw [hp] at h
      obtain ⟨x, h1, h2⟩ := bind_eq_ok.1 h
      obtain rfl := parseThreeFieldLine_requestLine.1 h1
      obtain ⟨_, h3, h4⟩ := bind_eq_ok.1 h2
      obtain ⟨ps, hps, rfl⟩ := parseHeaders_eq_ok.1 h3
      obtain ⟨b, h5, h6⟩ := bind_eq_ok.1 h4
      rw [pure_eq_ok] at h6
      subst h6
      exact ⟨m, u, l, hs, j, bs, e, ps, ht, hps, h5, rfl, rfl, rfl, rfl⟩
  · rintro ⟨m, u, l, hs, j, bs, e, ps, h⟩
    rw [parse_request_eq_some.2 ⟨m, u, l, hs, j, bs, e, h.text, rfl⟩]
    refine bind_eq_ok.2 ⟨_, parseThreeFieldLine_requestLine.2 rfl, ?_⟩
    refine bind_eq_ok.2 ⟨_, parseHeaders_eq_ok.2 ⟨ps, h.readsHeaders, rfl⟩, ?_⟩
    refine bind_eq_ok.2 ⟨_, h.readsBody, ?_⟩
    rw [pure_eq_ok, ← h.headers, ← h.method, ← h.url, ← h.protocolVersion]

end Requests

/-! ## Either kind of message -/

section Accepted

variable [ToLowercase]

/-- **A message the standard parser accepts**, of either kind: its start
line, its header map and its body map. -/
inductive Accepted (s : List UInt8) :
    Range → StringMap (List StandardHeader) → StringMap StandardBody → Prop
  | request {parsed : StandardRequest} : parseStandardRequest s = .ok parsed →
      Accepted s ⟨parsed.method.start, parsed.protocolVersion.stop⟩ parsed.headers parsed.body
  | response {parsed : StandardResponse} : parseStandardResponse s = .ok parsed →
      Accepted s ⟨parsed.protocolVersion.start, parsed.status.stop⟩ parsed.headers parsed.body

/-- **What it is to read a message**, its first line aside. -/
structure ReadsMessage (s : List UInt8) (headers : StringMap (List StandardHeader))
    (body : StringMap StandardBody) (l : ℕ) (hs : List Token) (h : ℕ) (bs : List Token) (e : ℕ)
    (ps : List (String × StandardHeader)) : Prop where
  lines : Chain (next (Peg.satisfy isWhitespace) Grammar.header) s .nonAtomic l h hs
  body_eq : Peg.optional Grammar.body s .nonAtomic (skip s .nonAtomic h) = some (e, bs)
  readsHeaders : ReadsHeaders s hs ps
  headers_eq : headers = pushAll ∅ ps
  readsBody : parseStandardBody s (bs ++ [eoiToken s e]) = .ok body

theorem Accepted.reads {s : List UInt8} {startLine : Range}
    {headers : StringMap (List StandardHeader)} {body : StringMap StandardBody}
    (h : Accepted s startLine headers body) :
    ∃ l hs h bs e ps, startLine = ⟨skip s .nonAtomic 0, l⟩ ∧
      ReadsMessage s headers body l hs h bs e ps := by
  cases h with
  | request hp =>
    obtain ⟨m, u, l, hs, h, bs, e, ps, hr⟩ := parseRequestInner_eq_ok.1 hp
    exact ⟨l, hs, h, bs, e, ps, by rw [hr.method, hr.protocolVersion], hr.text.headers,
      hr.text.body, hr.readsHeaders, hr.headers, hr.readsBody⟩
  | response hp =>
    obtain ⟨d, l, hs, h, bs, e, ps, hr⟩ := parseResponseInner_eq_ok.1 hp
    exact ⟨l, hs, h, bs, e, ps, by rw [hr.protocolVersion, hr.status], hr.text.message.headers,
      hr.text.message.body, hr.readsHeaders, hr.headers, hr.readsBody⟩

/-- **An accepted message with its tokens**, as the grammar parses it. -/
inductive AcceptedAs (s : List UInt8) :
    List Token → Range → StringMap (List StandardHeader) → StringMap StandardBody → Prop
  | request {parsed : StandardRequest} {ts : List Token} :
      Grammar.parse Grammar.request s = some ts → parseStandardRequest s = .ok parsed →
      AcceptedAs s ts ⟨parsed.method.start, parsed.protocolVersion.stop⟩ parsed.headers parsed.body
  | response {parsed : StandardResponse} {ts : List Token} :
      Grammar.parse Grammar.response s = some ts → parseStandardResponse s = .ok parsed →
      AcceptedAs s ts ⟨parsed.protocolVersion.start, parsed.status.stop⟩ parsed.headers parsed.body

/-- Its tokens are its first line, its header section, its body and the end. -/
theorem AcceptedAs.reads {s : List UInt8} {startLine : Range}
    {headers : StringMap (List StandardHeader)} {body : StringMap StandardBody}
    (h : AcceptedAs s ts startLine headers body) :
    ∃ line a b l hs h bs e ps, ts = line :: .node .headers a b hs :: (bs ++ [eoiToken s e]) ∧
      startLine = ⟨skip s .nonAtomic 0, l⟩ ∧ ReadsMessage s headers body l hs h bs e ps := by
  cases h with
  | request hts hp =>
    obtain ⟨m, u, l, hs, h, bs, e, ps, hr⟩ := parseRequestInner_eq_ok.1 hp
    rw [parse_request_eq_some.2 ⟨_, _, _, _, _, _, _, hr.text, rfl⟩, Option.some.injEq] at hts
    exact ⟨_, _, _, l, hs, h, bs, e, ps, hts.symm, by rw [hr.method, hr.protocolVersion],
      hr.text.headers, hr.text.body, hr.readsHeaders, hr.headers, hr.readsBody⟩
  | response hts hp =>
    obtain ⟨d, l, hs, h, bs, e, ps, hr⟩ := parseResponseInner_eq_ok.1 hp
    rw [parse_response_eq_some.2 ⟨_, _, _, _, _, _, hr.text, rfl⟩, Option.some.injEq] at hts
    exact ⟨_, _, _, l, hs, h, bs, e, ps, hts.symm, by rw [hr.protocolVersion, hr.status],
      hr.text.message.headers, hr.text.message.body, hr.readsHeaders, hr.headers, hr.readsBody⟩

/-- An accepted message has its tokens. -/
theorem Accepted.exists_tokens {s : List UInt8} {startLine : Range}
    {headers : StringMap (List StandardHeader)} {body : StringMap StandardBody}
    (h : Accepted s startLine headers body) : ∃ ts, AcceptedAs s ts startLine headers body := by
  cases h with
  | request hp =>
    obtain ⟨m, u, l, hs, h, bs, e, ps, hr⟩ := parseRequestInner_eq_ok.1 hp
    exact ⟨_, AcceptedAs.request (parse_request_eq_some.2 ⟨_, _, _, _, _, _, _, hr.text, rfl⟩) hp⟩
  | response hp =>
    obtain ⟨d, l, hs, h, bs, e, ps, hr⟩ := parseResponseInner_eq_ok.1 hp
    exact ⟨_, AcceptedAs.response (parse_response_eq_some.2 ⟨_, _, _, _, _, _, hr.text, rfl⟩) hp⟩

end Accepted

end TlsnDemo
