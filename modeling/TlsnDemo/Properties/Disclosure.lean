import TlsnDemo.Reading.Headers
import TlsnDemo.Reading.Redacted

/-!
# Disclosure does not exceed the selection

A revealed range takes in a byte or two beside the spans it is built from.
Those bytes are quotes, the colon, whitespace, a delimiter or the byte
that ends a line, wherever the grammar puts the spans: none belongs to the
value of a header or to a scalar that is not selected.
-/

namespace TlsnDemo

open Peg Support Syntax

variable {s : List UInt8} {i j k l h e : ℕ} {t u σ : Token} {ts hs bs : List Token}

/-! ## Where the scalars of a message lie -/

/-- Every scalar of a body lies past the body's first byte. -/
theorem BodyText.scalar_start (hb : BodyText s i e bs) (hσ : Occurs σ bs)
    (hr : isScalar σ.asRule = true) : i < σ.start := by
  cases hb with
  | document h1 h2 hd =>
    obtain ⟨hrule, hx, -⟩ := hd.root
    rcases occurs_singleton.1 hσ with rfl | hin
    · rcases hrule with h | h <;> rw [h] at hr <;> simp [isScalar] at hr
    · have := hd.derives.value_inner_lt hin
      omega
  | redacted ht =>
    obtain ⟨u, hu, hin⟩ := hσ.exists_mem
    obtain ⟨x, y, hx, -, hred⟩ := ht.mem hu
    rcases hin with rfl | hin
    · rw [hred.asRule] at hr
      simp [isScalar] at hr
    · cases hred with
      | full hk hv _ =>
        rcases occurs_cons.1 hin with rfl | hin | hin
        · simp [isScalar] at hr
        · exact absurd hin not_occurs_nil
        · have h1 := hv.bounds hin
          have h2 := hk.lt
          omega
      | bare hk _ =>
        rcases occurs_cons.1 hin with rfl | hin | hin
        · simp [isScalar] at hr
        · exact absurd hin not_occurs_nil
        · exact absurd hin not_occurs_nil
  | none => exact absurd hσ not_occurs_nil

/-! ## Where the ranges of a document's entries lie -/

/-- **A selected range meets no scalar outside its value.** The range may
go one byte past the value, and a scalar that starts there or earlier lies
within the value. -/
theorem IsDocument.selection_disjoint {x y : ℕ} {root : Token} (hd : IsDocument s x y root)
    {p : String} {bodyField : StandardBody} (hf : (bodyMap s root).lookup p = some bodyField)
    (field : BodyFieldConfig) (hσ : Occurs σ [root]) (hr : isScalar σ.asRule = true)
    (hout : ¬ (extractRange σ).Within (valueSpan bodyField)) (hk : (extractRange σ).Contains k) :
    ¬ (field.selectionRange bodyField).Contains k := by
  have hleaf := hd.derives.scalar_inner hσ hr
  have hkey : σ.asRule ≠ .key := fun he => by rw [he] at hr; simp [isScalar] at hr
  rintro ⟨hk1, hk2⟩
  obtain ⟨hσ1, hσ2⟩ := hk
  simp only [extractRange] at hσ1 hσ2
  rcases hd.entry hf with ⟨-, rfl⟩ | ⟨n, -, -, rfl, hn, hocc⟩
  · -- the root's span is the document
    refine hout ?_
    have hb := hd.derives.bounds hσ
    obtain ⟨-, h1, h2⟩ := hd.root
    simp only [Range.Within, valueSpan, extractRange]
    omega
  · cases hn with
    | member hp =>
      rename_i path i j keyPair valuePair
      obtain ⟨hkr, hki, h1, h2, h3, v, -, hval⟩ := hp.pair_ranges
      have hspan : (field.selectionRange (PathNode.member path (.node .pair i j
          [keyPair, valuePair]) keyPair valuePair).field).start = keyPair.start - 1 ∧
          (field.selectionRange (PathNode.member path (.node .pair i j
          [keyPair, valuePair]) keyPair valuePair).field).stop ≤ valuePair.stop + 1 := by
        cases field <;>
          simp [BodyFieldConfig.selectionRange, PathNode.member, Range.fullPairQuoted,
            Range.fullPairUnquoted, Range.extendTo, extractRange]
      rcases hd.derives.laminar hocc hσ (by simp [PathNode.member]) hkey with
        rfl | hin | hin | hlt | hlt
      · simp [PathNode.member, isScalar] at hr
      · -- below the pair: the key is no scalar, so it is the value or below it
        rcases occurs_cons.1 hin with rfl | hin | hin
        · exact absurd hkr hkey
        · rw [hki] at hin
          exact absurd hin not_occurs_nil
        · refine hout ?_
          simp only [Range.Within, valueSpan, PathNode.member, extractRange]
          rcases occurs_singleton.1 hin with rfl | hin
          · exact ⟨le_rfl, le_rfl⟩
          · have := hval.inner_bounds Occurs.head hin
            omega
      · rw [hleaf] at hin
        exact absurd hin not_occurs_nil
      · simp only [PathNode.member, Pair.stop_node] at hlt
        omega
      · simp only [PathNode.member, Pair.start_node] at hlt
        omega
    | element hv =>
      rename_i path value
      have hspan : field.selectionRange (PathNode.element path value).field = extractRange value := by
        cases field <;> rfl
      rw [hspan] at hk1 hk2
      simp only [extractRange] at hk1 hk2
      have hne : value.asRule ≠ .key := fun he => by rw [he] at hv; simp [isValue, isScalar] at hv
      rcases hd.derives.laminar hocc hσ hne hkey with heq | hin | hin | hlt | hlt
      · simp only [PathNode.element] at heq
        subst heq
        exact hout ⟨le_rfl, le_rfl⟩
      · refine hout ?_
        have := hd.derives.inner_bounds hocc hin
        simp only [Range.Within, valueSpan, PathNode.element, extractRange] at this ⊢
        omega
      · rw [hleaf] at hin
        exact absurd hin not_occurs_nil
      · simp only [PathNode.element] at hlt
        omega
      · simp only [PathNode.element] at hlt
        omega

/-- A selected range lies in the document, or one byte past its value. -/
theorem IsDocument.selection_start {x y : ℕ} {root : Token} (hd : IsDocument s x y root)
    {p : String} {bodyField : StandardBody} (hf : (bodyMap s root).lookup p = some bodyField)
    (field : BodyFieldConfig) : x ≤ (field.selectionRange bodyField).start := by
  rcases hd.entry hf with ⟨-, rfl⟩ | ⟨n, -, -, rfl, hn, hocc⟩
  · have hspan : field.selectionRange (.value (extractRange root)) = extractRange root := by
      cases field <;> rfl
    rw [hspan]
    exact hd.root.2.1.ge
  · have hb := hd.derives.bounds hocc
    cases hn with
    | member hp =>
      obtain ⟨-, -, h1, -⟩ := hp.pair_ranges
      have h2 := hb.1
      simp only [PathNode.member, Pair.start_node] at h2
      cases field <;>
        simp only [BodyFieldConfig.selectionRange, PathNode.member, Range.fullPairQuoted,
          Range.fullPairUnquoted, Range.extendTo, extractRange] <;> omega
    | element hv => cases field <;> exact hb.1

/-- **A scalar lies apart from a key**, its quotes and the colon. -/
theorem IsDocument.key_apart {x y : ℕ} {root keyPair valuePair : Token} (hd : IsDocument s x y root)
    (hocc : Occurs (.node .pair i j [keyPair, valuePair]) [root]) (hσ : Occurs σ [root])
    (hr : isScalar σ.asRule = true) :
    σ.stop ≤ keyPair.start - 1 ∨ keyPair.stop + 2 ≤ σ.start := by
  have hp := hd.derives.pair_of_occurs hocc rfl
  obtain ⟨hkr, hki, h1, h2, h3, v, -, hval⟩ := hp.pair_ranges
  simp only [Pair.start_node, Pair.stop_node] at h1 h3
  have hkey : σ.asRule ≠ .key := fun he => by rw [he] at hr; simp [isScalar] at hr
  rcases hd.derives.laminar hocc hσ (by simp) hkey with rfl | hin | hin | hlt | hlt
  · simp [isScalar] at hr
  · -- below the pair: the key is no scalar, so it is the value or below it
    rcases occurs_cons.1 hin with rfl | hin | hin
    · exact absurd hkr hkey
    · rw [hki] at hin
      exact absurd hin not_occurs_nil
    · rcases occurs_singleton.1 hin with rfl | hin
      · exact Or.inr h2
      · have := hval.inner_bounds Occurs.head hin
        omega
  · rw [hd.derives.scalar_inner hσ hr] at hin
    exact absurd hin not_occurs_nil
  · simp only [Pair.stop_node] at hlt
    have := hval.bounds (t := valuePair) Occurs.head
    omega
  · simp only [Pair.start_node] at hlt
    omega

/-- **The range of a key meets no scalar**, nor the value of its pair. -/
theorem IsDocument.key_disjoint {x y : ℕ} {root : Token} (hd : IsDocument s x y root)
    {p : String} {key value : Range}
    (hf : (bodyMap s root).lookup p = some (.keyValue key value)) :
    x ≤ key.withQuotesAndColon.start ∧ key.withQuotesAndColon.stop ≤ value.start ∧
      ∀ σ, Occurs σ [root] → isScalar σ.asRule = true → (extractRange σ).Contains k →
        ¬ key.withQuotesAndColon.Contains k := by
  rcases hd.entry hf with ⟨-, hv⟩ | ⟨n, -, -, hfield, hn, hocc⟩
  · exact absurd hv (by simp)
  cases hn with
  | element _ => exact absurd hfield (by simp [PathNode.element])
  | member hp =>
    rename_i path i j keyPair valuePair
    simp only [PathNode.member, Body.keyValue.injEq] at hfield
    obtain ⟨rfl, rfl⟩ := hfield
    obtain ⟨-, -, h1, h2, -⟩ := hp.pair_ranges
    have hb := (hd.derives.bounds hocc).1
    simp only [PathNode.member, Pair.start_node] at hb
    have hspan : (extractRange keyPair).withQuotesAndColon =
        ⟨keyPair.start - 1, keyPair.stop + 2⟩ := by
      simp only [Range.withQuotesAndColon, Range.adjust, extractRange, Range.mk.injEq]
      omega
    rw [hspan]
    refine ⟨by simp only; omega, h2, ?_⟩
    rintro σ hσ hr ⟨hσ1, hσ2⟩ ⟨hk1, hk2⟩
    simp only [extractRange] at hσ1 hσ2 hk1 hk2
    have := hd.key_apart hocc hσ hr
    omega

/-! ## Runs -/

section

variable [ToLowercase] {tlsn : Tlsn} {config : RevealConfig}
  {headers : StringMap (List StandardHeader)} {body : StringMap StandardBody}
  {ps : List (String × StandardHeader)} {startLine range : Range}

/-- **A hidden byte** of a message, given its header tokens and the tokens
behind them: of the value of a header that no rule names, or of a scalar
that no body rule selects nor a selected value contains. -/
inductive HiddenAt (s : List UInt8) (config : RevealConfig) (body : StringMap StandardBody)
    (hs rest : List Token) (k : ℕ) : Prop
  | header {t name value : Token} : t ∈ hs → t.intoInner = [name, value] →
      (∀ n ∈ config.revealHeaders, toLowercase n ≠ toLowercase (asStr s name)) →
      (extractRange value).Contains k → HiddenAt s config body hs rest k
  | scalar {σ : Token} : Occurs σ rest → isScalar σ.asRule = true →
      (∀ field ∈ config.revealBodyFields, ∀ bodyField, body.lookup field.keypath = some bodyField →
        ¬ (extractRange σ).Within (valueSpan bodyField)) →
      (extractRange σ).Contains k → HiddenAt s config body hs rest k

omit [ToLowercase] in
/-- The value of a header line lies in the line, past the name and `: `. -/
theorem HeaderChain.value_bounds (hc : HeaderChain s l h hs) {name value : Token} (ht : t ∈ hs)
    (hinner : t.intoInner = [name, value]) :
    ∃ i n v j, t = headerToken i n v j ∧ name = .node .headerName i n [] ∧
      value = .node .headerValue (n + 2) v [] ∧ l ≤ i ∧ i < n ∧ v < j ∧ j ≤ h := by
  obtain ⟨htext, h1, h2⟩ := HeaderChain.mem hc ht
  generalize t.start = i, t.stop = j at htext h1 h2
  cases htext with
  | full hs he =>
    simp only [headerToken, Pair.intoInner_node, List.cons.injEq, and_true] at hinner
    exact ⟨_, _, _, _, rfl, hinner.1.symm, hinner.2.symm, h1, hs.name.lt, he.newline.bounds.1, h2⟩
  | bare _ _ => simp [bareHeaderToken] at hinner

/-- **No range the configuration reveals contains a hidden byte.** -/
theorem ReadsMessage.reveals_disjoint (hr : ReadsMessage s headers body l hs h bs e ps)
    (hstart : startLine.stop ≤ l + 1) (hrev : Reveals headers body startLine config range)
    (hk : HiddenAt s config body hs bs k) : ¬ range.Contains k := by
  have hlh := HeaderChain.le hr.lines
  have hskip : h ≤ skip s .nonAtomic h := le_skipTo
  rintro ⟨hk1, hk2⟩
  cases hk with
  | header ht hinner hname hkv =>
    obtain ⟨i, n, v, j, rfl, rfl, rfl, h1, h2, h3, h4⟩ := HeaderChain.value_bounds hr.lines ht hinner
    obtain ⟨hv1, hv2⟩ := hkv
    simp only [extractRange, Pair.start_node, Pair.stop_node] at hv1 hv2
    cases hrev with
    | startLine => omega
    | header hn hl hh =>
      obtain ⟨i', n', v', j', ht', hkey, h1', h2', h3', h4', rfl⟩ := hr.revealed_header hl hh
      simp only [Range.headerFullRange, Range.spanTo] at hk1 hk2
      rcases HeaderChain.apart hr.lines ht ht' with heq | hlt | hlt
      · -- the same line goes by the same name
        simp only [headerToken, Pair.node.injEq, List.cons.injEq] at heq
        obtain ⟨-, rfl, rfl, ⟨-, -, rfl, -⟩, -⟩ := heq
        exact hname _ hn hkey
      · simp only [headerToken, Pair.stop_node, Pair.start_node] at hlt
        omega
      · simp only [headerToken, Pair.stop_node, Pair.start_node] at hlt
        omega
    | field hf hlookup =>
      obtain ⟨x, y, root, hx, -, -, hd, rfl⟩ := hr.document hlookup
      have := hd.selection_start hlookup (by assumption)
      omega
    | key hrule hlookup =>
      obtain ⟨x, y, root, hx, -, -, hd, rfl⟩ := hr.document hlookup
      have := (hd.key_disjoint (k := k) hlookup).1
      omega
  | scalar hσ hrule hout hkσ =>
    have hσ1 := BodyText.scalar_start (bodyText_of_body hr.body_eq) hσ hrule
    have hσ2 := hkσ.1
    simp only [extractRange] at hσ2
    cases hrev with
    | startLine => omega
    | header hn hl hh =>
      obtain ⟨i', n', v', j', ht', hkey, h1', h2', h3', h4', rfl⟩ := hr.revealed_header hl hh
      simp only [Range.headerFullRange, Range.spanTo] at hk1 hk2
      omega
    | field hf hlookup =>
      obtain ⟨x, y, root, hx, -, rfl, hd, rfl⟩ := hr.document hlookup
      exact hd.selection_disjoint hlookup _ hσ hrule (hout _ hf _ hlookup) hkσ ⟨hk1, hk2⟩
    | key hrule' hlookup =>
      obtain ⟨x, y, root, hx, -, rfl, hd, rfl⟩ := hr.document hlookup
      exact (hd.key_disjoint hlookup).2.2 _ hσ hrule hkσ ⟨hk1, hk2⟩

/-- **What a run discloses of an accepted message**: the tokens it was
parsed to, its body map and the calls. A request whose configuration is
empty is revealed whole. -/
inductive Discloses (tlsn : Tlsn) (config : RevealConfig) (s : List UInt8) :
    List Token → StringMap StandardBody → List Disclosure → Prop
  | request {parsed : StandardRequest} {ts : List Token} :
      Grammar.parse Grammar.request s = some ts → parseStandardRequest s = .ok parsed →
      ¬ config.IsEmpty →
      Discloses tlsn config s ts parsed.body (revealRequest tlsn s config).calls
  | response {parsed : StandardResponse} {ts : List Token} :
      Grammar.parse Grammar.response s = some ts → parseStandardResponse s = .ok parsed →
      Discloses tlsn config s ts parsed.body (revealResponse tlsn s config).calls

/-- A message that discloses is read, and its calls are of ranges the
configuration reveals. -/
theorem Discloses.reads {line : Token} {a b : ℕ} {rest : List Token} {calls : List Disclosure}
    (hd : Discloses tlsn config s (line :: .node .headers a b hs :: rest) body calls) :
    ∃ headers startLine l h bs e ps, ReadsMessage s headers body l hs h bs e ps ∧
      rest = bs ++ [eoiToken s e] ∧ startLine.stop ≤ l + 1 ∧
      ∀ c ∈ calls, c.action = .reveal → Reveals headers body startLine config c.range := by
  cases hd with
  | @request parsed _ hts hp hne =>
    obtain ⟨m, u, l, hs', h, bs, e, ps, hr⟩ := parseRequestInner_eq_ok.1 hp
    rw [parse_request_eq_some.2 ⟨_, _, _, _, _, _, _, hr.text, rfl⟩] at hts
    simp only [messageTokens, requestLineTokens, List.cons_append, List.nil_append,
      Option.some.injEq, List.cons.injEq, Pair.node.injEq] at hts
    obtain ⟨-, ⟨-, -, -, rfl⟩, rfl⟩ := hts
    refine ⟨_, requestLineRange parsed, l, h, bs, e, ps, ⟨hr.text.headers, hr.text.body,
      hr.readsHeaders, hr.headers, hr.readsBody⟩, rfl, ?_, ?_⟩
    · simp only [requestLineRange, Range.withNewline, Range.adjust, hr.protocolVersion]
      omega
    · rintro ⟨dir, act, range⟩ hc hact
      obtain rfl : act = .reveal := hact
      have hmem := Disclose.Follows.mem (follows_revealRequest hp hne) hc
      obtain rfl : dir = .sent := plan_direction hmem
      exact mem_plan.1 hmem
  | @response parsed _ hts hp =>
    obtain ⟨d, l, hs', h, bs, e, ps, hr⟩ := parseResponseInner_eq_ok.1 hp
    rw [parse_response_eq_some.2 ⟨_, _, _, _, _, _, hr.text, rfl⟩] at hts
    simp only [messageTokens, statusLineTokens, List.cons_append, List.nil_append,
      Option.some.injEq, List.cons.injEq, Pair.node.injEq] at hts
    obtain ⟨-, ⟨-, -, -, rfl⟩, rfl⟩ := hts
    refine ⟨_, statusLineRange parsed, l, h, bs, e, ps, ⟨hr.text.message.headers,
      hr.text.message.body, hr.readsHeaders, hr.headers, hr.readsBody⟩, rfl, ?_, ?_⟩
    · simp only [statusLineRange, Range.withNewline, Range.adjust, hr.status]
      omega
    · rintro ⟨dir, act, range⟩ hc hact
      obtain rfl : act = .reveal := hact
      have hmem := Disclose.Follows.mem (follows_revealResponse hp) hc
      obtain rfl : dir = .received := plan_direction hmem
      exact mem_plan.1 hmem

/-- No range a call reveals contains a hidden byte. -/
theorem Discloses.reveal_disjoint {line : Token} {a b : ℕ} {rest : List Token}
    {calls : List Disclosure} {c : Disclosure}
    (hd : Discloses tlsn config s (line :: .node .headers a b hs :: rest) body calls)
    (hc : c ∈ calls) (hact : c.action = .reveal) (hk : HiddenAt s config body hs rest k) :
    ¬ c.range.Contains k := by
  obtain ⟨headers, startLine, l, h, bs, e, ps, hr, rfl, hstart, hcalls⟩ := hd.reads
  refine hr.reveals_disjoint hstart (hcalls c hc hact) ?_
  cases hk with
  | header ht hinner hname hkv => exact HiddenAt.header ht hinner hname hkv
  | scalar hσ hrule hout hkσ =>
    refine HiddenAt.scalar ?_ hrule hout hkσ
    rcases occurs_append.1 hσ with hσ | hσ
    · exact hσ
    · rcases occurs_singleton.1 hσ with rfl | hσ
      · exact absurd hrule (by simp [eoiToken, isScalar])
      · exact absurd hσ not_occurs_nil

/-- **Disclosure does not exceed the selection**: no call reveals a hidden
byte, and the range of a key rule stops before the value it commits to. -/
theorem discloses_within_selection {line : Token} {a b : ℕ} {rest : List Token}
    {calls : List Disclosure}
    (hd : Discloses tlsn config s (line :: .node .headers a b hs :: rest) body calls) :
    (∀ c ∈ calls, c.action = .reveal → ∀ k, HiddenAt s config body hs rest k →
      ¬ c.range.Contains k) ∧
    ∀ rule ∈ config.revealKeysCommitValues, ∀ key value,
      body.lookup rule.keypath = some (.keyValue key value) →
      ∀ k, value.Contains k → ¬ key.withQuotesAndColon.Contains k := by
  refine ⟨fun c hc hact k hk => hd.reveal_disjoint hc hact hk,
    fun rule _ key value hlookup k hv hk => ?_⟩
  obtain ⟨headers, startLine, l, h, bs, e, ps, hr, -, -, -⟩ := hd.reads
  obtain ⟨x, y, root, -, -, -, hdoc, rfl⟩ := hr.document hlookup
  have hdis := (hdoc.key_disjoint (k := k) hlookup).2.1
  have h1 := hv.1
  have h2 := hk.2
  omega

end

/-- A response with two members and a header line. -/
def twoMembers : List UInt8 :=
  bytes "HTTP/1.1 200 OK\nA: b\n\n\x7b\"a\":1,\"c\":2\x7d"

/-- One of its members is revealed, and of the other only the key. -/
def revealOneMember : RevealConfig :=
  { revealBodyFields := [.quoted ".a"], revealKeysCommitValues := [⟨".c", none⟩] }

/-- Builders that accept every call. -/
def acceptAll : Tlsn := fun _ _ _ => true

example : (@revealResponse asciiLowercase acceptAll twoMembers revealOneMember).calls =
    [⟨.received, .reveal, ⟨0, 16⟩⟩, ⟨.received, .reveal, ⟨23, 29⟩⟩, ⟨.received, .reveal, ⟨29, 33⟩⟩,
      ⟨.received, .commit, ⟨33, 34⟩⟩] := by
  decide +kernel

/-- A response that is accepted is parsed to a first line and headers. -/
theorem exists_discloses_response [ToLowercase] (tlsn : Tlsn) (config : RevealConfig)
    {s : List UInt8} {parsed : StandardResponse} (hp : parseStandardResponse s = .ok parsed) :
    ∃ line a b hs rest, Discloses tlsn config s (line :: .node .headers a b hs :: rest) parsed.body
      (revealResponse tlsn s config).calls := by
  obtain ⟨d, l, hs, h, bs, e, ps, hr⟩ := parseResponseInner_eq_ok.1 hp
  exact ⟨_, _, _, hs, _,
    Discloses.response (parse_response_eq_some.2 ⟨_, _, _, _, _, _, hr.text, rfl⟩) hp⟩

/-- On that response nothing but the selection is disclosed, although the
range of `Quoted` takes in the comma after the number. -/
theorem discloses_within_selection_twoMembers :
    ∃ line a b hs rest body calls,
      @Discloses asciiLowercase acceptAll revealOneMember twoMembers
        (line :: .node .headers a b hs :: rest) body calls ∧
      (∀ c ∈ calls, c.action = .reveal → ∀ k,
        @HiddenAt asciiLowercase twoMembers revealOneMember body hs rest k →
        ¬ c.range.Contains k) ∧
      ∀ rule ∈ revealOneMember.revealKeysCommitValues, ∀ key value,
        body.lookup rule.keypath = some (.keyValue key value) →
        ∀ k, value.Contains k → ¬ key.withQuotesAndColon.Contains k := by
  let _ := asciiLowercase
  have hok : ∃ parsed, parseStandardResponse twoMembers = .ok parsed := by
    have hsome : (parseStandardResponse twoMembers).toOption.isSome = true := by decide +kernel
    cases hp : parseStandardResponse twoMembers with
    | ok parsed => exact ⟨parsed, rfl⟩
    | error e => rw [hp] at hsome; exact absurd hsome (by simp [Except.toOption])
  obtain ⟨parsed, hp⟩ := hok
  obtain ⟨line, a, b, hs, rest, hd⟩ :=
    exists_discloses_response acceptAll revealOneMember hp
  exact ⟨line, a, b, hs, rest, _, _, hd, discloses_within_selection hd⟩

end TlsnDemo
