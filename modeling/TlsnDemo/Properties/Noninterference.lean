import TlsnDemo.Properties.Acceptance
import TlsnDemo.Properties.Disclosure
import TlsnDemo.Reading.SameTokens
import TlsnDemo.Reading.Transcript
import TlsnDemo.Syntax.Ascii

/-!
# Hidden values do not interfere

Two responses that differ in hidden values only are parsed to the same
tokens, under the same names and keys, so the same calls are made of both.
No call reveals a byte of a hidden value, and the verifier sees the same of
both.
-/

namespace TlsnDemo

open Peg Support Syntax

variable {s t : List UInt8} {i j k l h e d : ℕ} {u σ : Token} {ts hs bs rest : List Token}
  {vals : Token → Prop}

/-! ## Names and keys -/

section

variable [ToLowercase] {ps : List (String × StandardHeader)} {parsed : StandardResponse}

/-- Over the same tokens, header lines with the same names read the same. -/
theorem ReadsHeaders.congr (hr : ReadsHeaders s hs ps)
    (hnames : ∀ i n w j, headerToken i n w j ∈ hs → headerKey t i n = headerKey s i n)
    (hfull : ∀ u ∈ hs, ∃ i n w j, u = headerToken i n w j) : ReadsHeaders t hs ps := by
  unfold ReadsHeaders at hr ⊢
  induction hr with
  | nil => exact List.Forall₂.nil
  | @cons u p hs ps hu _ ih =>
    obtain ⟨i, n, w, j, rfl⟩ := hfull u List.mem_cons_self
    rw [parseHeader_standard, ← hnames i n w j List.mem_cons_self] at hu
    exact List.Forall₂.cons (parseHeader_standard.trans hu)
      (ih (fun i n w j hm => hnames i n w j (List.mem_cons_of_mem _ hm))
        fun u hu => hfull u (List.mem_cons_of_mem _ hu))

omit [ToLowercase] in
/-- A value overwritten stands apart from every header name. -/
theorem Overwritten.agree_name (ho : Overwritten vals s t) (hv : ∀ σ, vals σ → ValuesOf hs bs σ)
    (hc : HeaderChain s l h hs) (hb : BodyText s (skip s .nonAtomic h) e bs) {n w : ℕ}
    (hu : headerToken i n w j ∈ hs) : Agree s t i n := by
  have hskip : h ≤ skip s .nonAtomic h := le_skipTo
  intro k hk1 hk2
  rcases ho.same k with heq | ⟨σ, hσ, hcov1, hcov2⟩
  · exact heq
  exfalso
  have hline := (HeaderChain.mem hc hu).2.2
  simp only [headerToken, Pair.stop_node] at hline
  obtain ⟨-, -, hs', he⟩ := (HeaderChain.mem hc hu).1.parts
  have h1 := he.value.lt
  have h2 := he.newline.bounds.1
  rcases hv σ hσ with ⟨hr, hocc⟩ | ⟨hr, hocc⟩
  · obtain ⟨u', hu', hin⟩ := hocc.exists_mem
    obtain ⟨n', w', heq, rfl, h3, h4⟩ :=
      (HeaderChain.mem hc hu').1.value_bounds (occurs_singleton.2 hin) hr
    simp only [Pair.start_node, Pair.stop_node] at hcov1 hcov2
    rcases HeaderChain.apart hc hu hu' with rfl | hlt | hlt
    · simp only [headerToken, Pair.node.injEq, List.cons.injEq, true_and, and_true] at heq
      omega
    · simp only [headerToken, Pair.stop_node] at hlt
      omega
    · simp only [headerToken, Pair.start_node] at hlt
      omega
  · have := hb.scalar_start hocc (by rw [hr]; rfl)
    omega

omit [ToLowercase] in
/-- Over the same keys, a document has the same map. -/
theorem IsDocument.bodyMap_congr {x y : ℕ} {root : Token} (hd : IsDocument s x y root)
    (hkeys : ∀ x y keyPair valuePair, Occurs (.node .pair x y [keyPair, valuePair]) [root] →
      asStr t keyPair = asStr s keyPair) : bodyMap t root = bodyMap s root := by
  have hnodes : nodesOf t [] 0 .value [root] = nodesOf s [] 0 .value [root] :=
    hd.derives.nodesOf_congr hkeys
  simp only [nodesOf, List.flatMap_cons, List.flatMap_nil, List.append_nil] at hnodes
  rw [bodyMap, bodyMap, hnodes]

omit [ToLowercase] in
/-- A string overwritten stands apart from every key. -/
theorem Overwritten.agree_key (ho : Overwritten vals s t) (hv : ∀ σ, vals σ → ValuesOf hs bs σ)
    (hc : HeaderChain s l h hs) {x y : ℕ} {root keyPair valuePair : Token}
    (hd : IsDocument s x y root) (hbs : bs = [root]) (hx : h ≤ x)
    (hocc : Occurs (.node .pair i j [keyPair, valuePair]) [root]) :
    Agree s t keyPair.start keyPair.stop := by
  subst hbs
  intro k hk1 hk2
  rcases ho.same k with heq | ⟨σ, hσ, hcov1, hcov2⟩
  · exact heq
  exfalso
  rcases hv σ hσ with ⟨hr, hσ⟩ | ⟨hr, hσ⟩
  · have h1 := hc.value_extent hσ hr
    have h2 := (hd.derives.bounds hocc).1
    obtain ⟨-, -, h3, -⟩ := (hd.derives.pair_of_occurs hocc rfl).pair_ranges
    simp only [Pair.start_node] at h2 h3
    omega
  · have := hd.key_apart hocc hσ (by rw [hr]; rfl)
    omega

omit [ToLowercase] in
/-- So the body map is the same. -/
theorem Overwritten.readsBody {m m' : StringMap StandardBody} (ho : Overwritten vals s t)
    (hv : ∀ σ, vals σ → ValuesOf hs bs σ) (hc : HeaderChain s l h hs)
    (hb : BodyText s (skip s .nonAtomic h) e bs)
    (hs : parseStandardBody s (bs ++ [eoiToken s e]) = .ok m)
    (ht : parseStandardBody t (bs ++ [eoiToken s e]) = .ok m') : m' = m := by
  have hskip : h ≤ skip s .nonAtomic h := le_skipTo
  generalize hbs : bs = bs' at hb
  cases hb with
  | @document x y _ root hx hy hd =>
    subst hbs
    rw [List.cons_append, parseStandardBody, if_pos hd.root.1] at hs ht
    rw [traverse_ok hs, traverse_ok ht]
    exact hd.bodyMap_congr fun _ _ _ _ hocc =>
      asStr_of_agree (ho.agree_key hv hc hd rfl (by omega) hocc)
  | redacted hr =>
    subst hbs
    rw [List.cons_append, parseStandardBody, if_neg (by rw [hr.first.asRule]; decide),
      Except.ok.injEq] at hs ht
    rw [← hs, ← ht]
  | none =>
    subst hbs
    rw [List.nil_append, parseStandardBody, if_neg (by simp [eoiToken]), Except.ok.injEq] at hs ht
    rw [← hs, ← ht]

/-! ## The same message -/

/-- **A response with values overwritten is read the same**: to the same
tokens, names and keys. -/
theorem Overwritten.parse {line : Token} {a b : ℕ} (ho : Overwritten vals s t)
    (hts : Grammar.parse Grammar.response s = some (line :: .node .headers a b hs :: rest))
    (hp : parseStandardResponse s = .ok parsed) (hv : ∀ σ, vals σ → ValuesOf hs rest σ) :
    Grammar.parse Grammar.response t = some (line :: .node .headers a b hs :: rest) ∧
      parseStandardResponse t = .ok parsed := by
  obtain ⟨d, l, hs', h, bs, e, ps, hr⟩ := parseResponseInner_eq_ok.1 hp
  rw [parse_response_eq_some.2 ⟨_, _, _, _, _, _, hr.text, rfl⟩, Option.some.injEq] at hts
  rw [← hts]
  simp only [messageTokens, statusLineTokens, List.cons_append, List.nil_append, List.cons.injEq,
    Pair.node.injEq] at hts
  obtain ⟨-, ⟨-, -, -, rfl⟩, rfl⟩ := hts
  have hc := hr.text.message.headers
  have hfull := ReadsHeaders.full hc hr.readsHeaders
  have hv' : ∀ σ, vals σ → ValuesOf hs' bs σ := by
    intro σ hσ
    rcases hv σ hσ with hheader | ⟨hrule, hocc⟩
    · exact Or.inl hheader
    refine Or.inr ⟨hrule, ?_⟩
    rcases occurs_append.1 hocc with hocc | hocc
    · exact hocc
    · rcases occurs_singleton.1 hocc with rfl | hocc
      · exact absurd hrule (by simp)
      · exact absurd hocc not_occurs_nil
  obtain ⟨htext, h0, hl, he⟩ := hr.text.overwrite hfull hv' ho
  have heoi : eoiToken t e = eoiToken s e := by rw [eoiToken, eoiToken, he]
  constructor
  · rw [parse_response_eq_some.2 ⟨_, _, _, _, _, _, htext, rfl⟩, messageTokens, messageTokens,
      headersStop, headersStop, h0, hl, he]
  · have hbody := bodyText_of_body hr.text.message.body
    obtain ⟨m, hm⟩ := parseStandardBody_total htext.message.body
    have hm' : m = parsed.body := ho.readsBody hv' hc hbody hr.readsBody (heoi ▸ hm)
    have hnames : ∀ i n w j, headerToken i n w j ∈ hs' → headerKey t i n = headerKey s i n :=
      fun i n w j hu => by
        have hname : asStr t (.node .headerName i n []) = asStr s (.node .headerName i n []) :=
          asStr_of_agree (ho.agree_name hv' hc hbody hu)
        rw [headerKey, headerKey, hname]
    exact parseResponseInner_eq_ok.2 ⟨d, l, hs', h, bs, e, ps, htext,
      hr.readsHeaders.congr hnames hfull, hm' ▸ hm, hr.headers, h0 ▸ hr.protocolVersion,
      hr.statusCode, hr.status⟩

end

/-! ## The same calls -/

section

variable {tlsn : Tlsn} {direction : TranscriptDirection}

theorem applyDisclosure_congr (hlen : t.length = s.length) :
    applyDisclosure tlsn direction t = applyDisclosure tlsn direction s := by
  funext action range
  rw [applyDisclosure, applyDisclosure, hlen]

/-- A step that does not fail is no step. -/
theorem liftM_ok_bind {α β : Type} {x : α} {f : α → Disclose β} :
    ((liftM (Except.ok x : Except Error α) : Disclose α) >>= f) = f x := rfl

variable [ToLowercase] {config : RevealConfig} {parsed : StandardResponse}

/-- **What is disclosed of a message depends on its length and on what it is
parsed to.** -/
theorem revealResponse_congr (hlen : t.length = s.length) (hs : fromUtf8 s = .ok s)
    (ht : fromUtf8 t = .ok t) (hps : parseStandardResponse s = .ok parsed)
    (hpt : parseStandardResponse t = .ok parsed) :
    revealResponse tlsn t config = revealResponse tlsn s config := by
  have happly : applyMessageRevealConfig tlsn .received t parsed = applyMessageRevealConfig tlsn
      .received s parsed := by
    funext startLine config
    unfold applyMessageRevealConfig discloseHeaders
    rw [applyDisclosure_congr hlen]
  unfold revealResponse
  rw [hs, ht]
  rw [liftM_ok_bind, liftM_ok_bind, hps, hpt]
  change applyMessageRevealConfig tlsn .received t parsed _ config =
    applyMessageRevealConfig tlsn .received s parsed _ config
  rw [happly]

end

/-! ## The same view -/

section

variable [ToLowercase] {config : RevealConfig} {body : StringMap StandardBody}

/-- **A value no reveal rule covers**, given the header tokens of a message
and the tokens behind them: that of a header line no rule names, or a
string no body rule selects nor a selected value contains. -/
inductive Uncovered (s : List UInt8) (config : RevealConfig) (body : StringMap StandardBody)
    (hs rest : List Token) (σ : Token) : Prop
  | header {t name : Token} : t ∈ hs → t.intoInner = [name, σ] →
      (∀ n ∈ config.revealHeaders, toLowercase n ≠ toLowercase (asStr s name)) →
      Uncovered s config body hs rest σ
  | string : Occurs σ rest → σ.asRule = .string →
      (∀ field ∈ config.revealBodyFields, ∀ bodyField, body.lookup field.keypath = some bodyField →
        ¬ (extractRange σ).Within (valueSpan bodyField)) →
      Uncovered s config body hs rest σ

/-- Each of its bytes is hidden. -/
theorem Uncovered.hiddenAt (hu : Uncovered s config body hs rest σ) (hk : Covered σ k) :
    HiddenAt s config body hs rest k := by
  cases hu with
  | header ht hinner hname => exact HiddenAt.header ht hinner hname hk
  | string hσ hr hout => exact HiddenAt.scalar hσ (by rw [hr]; rfl) hout hk

theorem Uncovered.valuesOf (hc : HeaderChain s l h hs) (hu : Uncovered s config body hs rest σ) :
    ValuesOf hs rest σ := by
  cases hu with
  | @header t name ht hinner _ =>
    obtain ⟨i, n, v, j, rfl, rfl, rfl, -⟩ := HeaderChain.value_bounds hc ht hinner
    exact Or.inl ⟨rfl, (Occurs.of_mem ht).of_inner (Occurs.tail Occurs.head)⟩
  | string hσ hr _ => exact Or.inr ⟨hr, hσ⟩

/-- **Hidden values do not interfere.** With other text in the values that
no reveal rule covers, a response is parsed to the same spans and keys, the
same calls are made with the same outcome, and the transcript the verifier
gets is the same. -/
theorem hidden_values_do_not_interfere (tlsn : Tlsn) {line : Token} {a b : ℕ}
    {parsed : StandardResponse}
    (hts : Grammar.parse Grammar.response s = some (line :: .node .headers a b hs :: rest))
    (hp : parseStandardResponse s = .ok parsed)
    (hv : ∀ σ, vals σ → Uncovered s config parsed.body hs rest σ) (ho : Overwritten vals s t) :
    Grammar.parse Grammar.response t = some (line :: .node .headers a b hs :: rest) ∧
      parseStandardResponse t = .ok parsed ∧
      revealResponse tlsn t config = revealResponse tlsn s config ∧
      redact t (revealedBy (revealResponse tlsn t config).calls) =
        redact s (revealedBy (revealResponse tlsn s config).calls) := by
  have hd : Discloses tlsn config s (line :: .node .headers a b hs :: rest) parsed.body
      (revealResponse tlsn s config).calls := Discloses.response hts hp
  obtain ⟨headers, startLine, l, h, bs, e, ps, hr, -, -, -⟩ := hd.reads
  obtain ⟨hts', hp'⟩ := ho.parse hts hp fun σ hσ => (hv σ hσ).valuesOf hr.lines
  have hsame : revealResponse tlsn t config = revealResponse tlsn s config :=
    revealResponse_congr ho.length
      (fromUtf8_eq_ok.2 ⟨validateUTF8_of_ascii (ascii_of_parse_response hts), rfl⟩)
      (fromUtf8_eq_ok.2 ⟨validateUTF8_of_ascii (ascii_of_parse_response hts'), rfl⟩) hp hp'
  refine ⟨hts', hp', hsame, ?_⟩
  rw [hsame]
  refine redact_congr ho.length fun k hk => ?_
  obtain ⟨c, hc, hact, hck⟩ := revealedBy_eq_true.1 hk
  rcases ho.same k with heq | ⟨σ, hσ, hcov⟩
  · exact heq
  · exact absurd hck (hd.reveal_disjoint hc hact ((hv σ hσ).hiddenAt hcov))

end

/-- Two responses that differ in one byte, between quotes. -/
def secretX : List UInt8 := bytes "HTTP/1.1 200 OK\n\n\x7b\"a\":\"x\"\x7d"

def secretY : List UInt8 := bytes "HTTP/1.1 200 OK\n\n\x7b\"a\":\"y\"\x7d"

/-- The key is revealed, and the value committed to. -/
def revealKeyOnly : RevealConfig := { revealKeysCommitValues := [⟨".a", none⟩] }

/-- **The token of a string member** is a string of the body. -/
theorem exists_string_of_lookup [ToLowercase] {headers : StringMap (List StandardHeader)}
    {body : StringMap StandardBody} {ps : List (String × StandardHeader)} {p : String}
    {key value : Range} (hr : ReadsMessage s headers body l hs h bs e ps)
    (hf : body.lookup p = some (.keyValue key value))
    (hstart : Stops isValueStart s value.start) :
    ∃ σ, Occurs σ bs ∧ σ.asRule = .string ∧ extractRange σ = value := by
  obtain ⟨x, y, root, -, -, rfl, hd, rfl⟩ := hr.document hf
  rcases hd.entry hf with ⟨-, hv⟩ | ⟨n, -, -, hfield, hn, hocc⟩
  · exact absurd hv (by simp)
  cases hn with
  | element _ => exact absurd hfield (by simp [PathNode.element])
  | @member path i j keyPair valuePair hp =>
    simp only [PathNode.member, Body.keyValue.injEq] at hfield
    obtain ⟨-, rfl⟩ := hfield
    obtain ⟨-, -, -, -, -, v, -, hval⟩ := hp.pair_ranges
    refine ⟨valuePair, hocc.of_inner (Occurs.tail Occurs.head), ?_, rfl⟩
    by_contra hrule
    obtain ⟨w, hw, -, hspan, -⟩ := hval.value_token
    simp only [List.cons.injEq, and_true] at hw
    subst hw
    obtain ⟨c, hc, hf⟩ := hval.first
    rw [hstart c ((congrArg (s[·]?) (hspan hrule).1).trans hc)] at hf
    exact absurd hf (by simp)

theorem parsedField_secretX :
    @parsedField asciiLowercase secretX ".a" = some (.keyValue ⟨19, 20⟩ ⟨23, 24⟩) := by
  decide +kernel

/-- The verifier cannot tell one of them from the other. -/
theorem hidden_values_do_not_interfere_secret :
    ∃ parsed, @parseStandardResponse asciiLowercase secretX = .ok parsed ∧
      @parseStandardResponse asciiLowercase secretY = .ok parsed ∧
      @revealResponse asciiLowercase acceptAll secretY revealKeyOnly =
        @revealResponse asciiLowercase acceptAll secretX revealKeyOnly ∧
      redact secretY (revealedBy
          (@revealResponse asciiLowercase acceptAll secretY revealKeyOnly).calls) =
        redact secretX (revealedBy
          (@revealResponse asciiLowercase acceptAll secretX revealKeyOnly).calls) := by
  let _ := asciiLowercase
  obtain ⟨parsed, hp, hf⟩ := parsedField_eq_some.1 parsedField_secretX
  obtain ⟨d, l, hs, h, bs, e, ps, hr⟩ := parseResponseInner_eq_ok.1 hp
  have hts := parse_response_eq_some.2 ⟨d, l, hs, h, bs, e, hr.text, rfl⟩
  have hread : ReadsMessage secretX parsed.headers parsed.body l hs h bs e ps :=
    ⟨hr.text.message.headers, hr.text.message.body, hr.readsHeaders, hr.headers, hr.readsBody⟩
  obtain ⟨σ, hσ, hrule, hspan⟩ := exists_string_of_lookup hread hf
    (Stops.of_eq (c := 0x78) (by decide) (by decide))
  simp only [extractRange, Range.mk.injEq] at hspan
  obtain ⟨hstart, hstop⟩ := hspan
  have hset : secretY = secretX.set 23 0x79 := by decide
  have ho : Overwritten (· = σ) secretX secretY := by
    refine ⟨by decide, fun τ hτ => Or.inr ?_, fun k => ?_⟩
    · rw [hτ]
      refine ⟨hrule, fun k h1 h2 => ?_, fun _ => ?_, fun _ => ?_⟩
      · obtain rfl : k = 23 := by omega
        exact ⟨0x79, by decide, by decide⟩
      · rw [hstart]
        decide
      · rw [hstop]
        decide
    · by_cases hk : k = 23
      · exact Or.inr ⟨σ, rfl, by omega, by omega⟩
      · rw [hset, List.getElem?_set_ne (Ne.symm hk)]
        exact Or.inl rfl
  have hu : ∀ τ, τ = σ → Uncovered secretX revealKeyOnly parsed.body hs
      (bs ++ [eoiToken secretX e]) τ := by
    rintro τ rfl
    exact Uncovered.string (occurs_append.2 (Or.inl hσ)) hrule fun field hfield =>
      absurd hfield List.not_mem_nil
  obtain ⟨-, hp', hcalls, hview⟩ :=
    hidden_values_do_not_interfere acceptAll hts hp hu ho
  exact ⟨parsed, hp, hp', hcalls, hview⟩

end TlsnDemo
