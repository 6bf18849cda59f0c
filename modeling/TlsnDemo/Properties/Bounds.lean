import TlsnDemo.Disclosing.Machine
import TlsnDemo.Disclosing.Outcome
import TlsnDemo.Properties.BodyPaths
import TlsnDemo.Reading.Headers

/-!
# The bounds of the disclosure ranges

Each range is a span of the parsed message, moved by a few bytes or padded
to a length of the configuration. The bytes that a header, a key and a
member's value are moved over are there, since the grammar asks for them.
The byte after the start line need not be there, and nothing bounds the
padding: these two decide whether all ranges fit in the message.
-/

namespace TlsnDemo

open Peg Support Syntax Disclose

variable {s : List UInt8}

section

variable [ToLowercase] {headers : StringMap (List StandardHeader)} {body : StringMap StandardBody}
  {p : String} {startLine : Range}

/-- What is known of the spans of an entry. -/
def EntryBounds (s : List UInt8) : StandardBody → Prop
  | .keyValue key value => key.start ≤ key.stop ∧ key.stop + 2 ≤ value.start ∧
      value.start ≤ value.stop ∧ value.stop < s.length
  | .value range => range.start ≤ range.stop ∧ range.stop ≤ s.length

omit [ToLowercase] in
theorem IsDocument.le_length {x y : ℕ} {root : Token} (hd : IsDocument s x y root) :
    y ≤ s.length := (progress_value ((value_eq_some (by decide)).2 hd.derives)).2

theorem Accepted.entry_bounds {field : StandardBody} (ha : Accepted s startLine headers body)
    (hf : body.lookup p = some field) : EntryBounds s field := by
  obtain ⟨l, hs, h, bs, e, ps, -, hr⟩ := ha.reads
  obtain ⟨x, y, root, -, -, -, hd, rfl⟩ := hr.document hf
  have hlen := hd.le_length
  rcases hd.entry hf with ⟨-, rfl⟩ | ⟨n, -, -, rfl, hn, hocc⟩
  · obtain ⟨-, h1, h2⟩ := hd.root
    have h3 := hd.derives.lt
    exact ⟨by simp only [extractRange]; omega, by simp only [extractRange]; omega⟩
  · obtain ⟨h1, h2, h3⟩ := hd.derives.bounds hocc
    cases hn with
    | @member path i j keyPair valuePair hp =>
      obtain ⟨-, -, -, h4, h5, -⟩ := hp.pair_ranges
      have hkey := hp.bounds (t := keyPair) (Occurs.inner Occurs.head)
      have hvalue := hp.bounds (t := valuePair) (Occurs.inner (Occurs.tail Occurs.head))
      have hroot : Occurs (.node .pair i j [keyPair, valuePair]) root.intoInner := by
        rcases occurs_singleton.1 hocc with heq | h
        · have hrule := hd.root.1
          rw [← heq] at hrule
          exact absurd hrule (by simp [PathNode.member])
        · exact h
      have hlt := hd.derives.value_inner_lt hroot
      simp only [Pair.stop_node] at hlt
      exact ⟨hkey.2.1, h4, hvalue.2.1, by simp only [extractRange]; omega⟩
    | element hr => exact ⟨h2, h3.trans hlen⟩

theorem Accepted.header_bounds {name : String} {group : List StandardHeader}
    {header : StandardHeader} (ha : Accepted s startLine headers body)
    (hl : headers.lookup (toLowercase name) = some group) (hh : header ∈ group) :
    header.name.start ≤ header.value.stop ∧ header.value.stop < s.length := by
  obtain ⟨l, hs, h, bs, e, ps, -, hr⟩ := ha.reads
  obtain ⟨i, n, v, j, ht, -, -, h1, h2, -, rfl⟩ := hr.revealed_header hl hh
  have hbounds := (HeaderChain.mem hr.lines ht).1.bounds.2
  have hnv : n + 2 < v := by
    cases (HeaderChain.mem hr.lines ht).1 with
    | full _ hend => exact hend.value.lt
  simp only [headerToken, Pair.stop_node] at hbounds
  exact ⟨by simp only; omega, by simp only; omega⟩

/-- **A parsed message with the first and the last field of its start
line**, of either kind. -/
inductive ParsedAs (s : List UInt8) : TranscriptDirection → Range → Range →
    StringMap (List StandardHeader) → StringMap StandardBody → Prop
  | request {parsed : StandardRequest} : parseStandardRequest s = .ok parsed →
      ParsedAs s .sent parsed.method parsed.protocolVersion parsed.headers parsed.body
  | response {parsed : StandardResponse} : parseStandardResponse s = .ok parsed →
      ParsedAs s .received parsed.protocolVersion parsed.status parsed.headers parsed.body

variable {direction : TranscriptDirection} {first last range : Range} {config : RevealConfig}

theorem ParsedAs.accepted (h : ParsedAs s direction first last headers body) :
    Accepted s ⟨first.start, last.stop⟩ headers body := by
  cases h with
  | request hp => exact Accepted.request hp
  | response hp => exact Accepted.response hp

/-- The last field of a start line starts after the first one does. -/
theorem ParsedAs.start_lt (h : ParsedAs s direction first last headers body) :
    first.start < last.start ∧ last.start < last.stop := by
  cases h with
  | request hp =>
    obtain ⟨m, u, l, hs, i, bs, e, ps, hr⟩ := parseRequestInner_eq_ok.1 hp
    obtain ⟨m', u', h1, h2, h3, htokens⟩ := requestLine_eq_some hr.text.line
    simp only [requestLineTokens, List.cons.injEq, Pair.node.injEq, and_true, true_and] at htokens
    obtain ⟨rfl, ⟨-, rfl⟩, -⟩ := htokens
    rw [hr.method, hr.protocolVersion]
    exact ⟨by simp only; omega, by simp only; omega⟩
  | response hp =>
    obtain ⟨d, l, hs, i, bs, e, ps, hr⟩ := parseResponseInner_eq_ok.1 hp
    obtain ⟨-, d', hdigits, -, hdigits'⟩ := hr.text.status.protocol
    have h1 := hdigits.lt
    have h2 := hdigits'.lt
    have h3 := hr.text.status.status.lt
    rw [hr.protocolVersion, hr.status]
    exact ⟨by simp only; omega, by simp only; omega⟩

/-- **What is handed to the builders**: each range, and beside it the range
as the machine computes it. -/
inductive Handed (headers : StringMap (List StandardHeader)) (body : StringMap StandardBody)
    (first last : Range) (config : RevealConfig) : Range → Option Range → Prop
  | startLine : Handed headers body first last config ⟨first.start, last.withNewline.stop⟩
      (startLineRange? first last)
  | header {name : String} {group : List StandardHeader} {header : StandardHeader} :
      name ∈ config.revealHeaders ++ config.commitHeaders →
      headers.lookup (toLowercase name) = some group → header ∈ group →
      Handed headers body first last config (header.name.headerFullRange header.value)
        (header.name.headerFullRange? header.value)
  | field {field : BodyFieldConfig} {bodyField : StandardBody} :
      field ∈ config.revealBodyFields ++ config.commitBodyFields →
      body.lookup field.keypath = some bodyField →
      Handed headers body first last config (field.selectionRange bodyField)
        (field.selectionRange? bodyField)
  | key {rule : KeyValueCommitConfig} {key value : Range} :
      rule ∈ config.revealKeysCommitValues →
      body.lookup rule.keypath = some (.keyValue key value) →
      Handed headers body first last config key.withQuotesAndColon key.withQuotesAndColon?
  | value {rule : KeyValueCommitConfig} {key value : Range} :
      rule ∈ config.revealKeysCommitValues →
      body.lookup rule.keypath = some (.keyValue key value) →
      Handed headers body first last config (rule.valueRange value) (rule.valueRange? value)

/-- The calls of a plan are of the ranges handed to the builders. -/
theorem exists_mem_plan :
    (∃ c ∈ plan direction headers body ⟨first.start, last.withNewline.stop⟩ config,
      c.range = range) ↔ ∃ computed, Handed headers body first last config range computed := by
  constructor
  · rintro ⟨c, hc, rfl⟩
    unfold plan at hc
    rcases List.mem_cons.1 hc with rfl | hc
    · exact ⟨_, Handed.startLine⟩
    · simp only [List.mem_append, mem_headerPlan, mem_fieldPlan, mem_keyPlan] at hc
      rcases hc with ⟨-, -, name, hn, group, hl, header, hh, hr⟩ |
        ⟨-, -, name, hn, group, hl, header, hh, hr⟩ | ⟨-, -, field, hf, bodyField, hl, hr⟩ |
        ⟨-, -, field, hf, bodyField, hl, hr⟩ | ⟨-, rule, hrule, key, value, hl, ⟨-, hr⟩ | ⟨-, hr⟩⟩
      · exact ⟨_, hr ▸ Handed.header (List.mem_append_left _ hn) hl hh⟩
      · exact ⟨_, hr ▸ Handed.header (List.mem_append_right _ hn) hl hh⟩
      · exact ⟨_, hr ▸ Handed.field (List.mem_append_left _ hf) hl⟩
      · exact ⟨_, hr ▸ Handed.field (List.mem_append_right _ hf) hl⟩
      · exact ⟨_, hr ▸ Handed.key hrule hl⟩
      · exact ⟨_, hr ▸ Handed.value hrule hl⟩
  · rintro ⟨computed, hc⟩
    simp only [plan, List.mem_cons, List.mem_append, mem_headerPlan, mem_fieldPlan, mem_keyPlan]
    cases hc with
    | startLine => exact ⟨_, Or.inl rfl, rfl⟩
    | header hn hl hh =>
      rcases List.mem_append.1 hn with hn | hn
      · exact ⟨⟨direction, .reveal, _⟩,
          Or.inr (Or.inl ⟨rfl, rfl, _, hn, _, hl, _, hh, rfl⟩), rfl⟩
      · exact ⟨⟨direction, .commit, _⟩,
          Or.inr (Or.inr (Or.inl ⟨rfl, rfl, _, hn, _, hl, _, hh, rfl⟩)), rfl⟩
    | field hf hl =>
      rcases List.mem_append.1 hf with hf | hf
      · exact ⟨⟨direction, .reveal, _⟩,
          Or.inr (Or.inr (Or.inr (Or.inl ⟨rfl, rfl, _, hf, _, hl, rfl⟩))), rfl⟩
      · exact ⟨⟨direction, .commit, _⟩,
          Or.inr (Or.inr (Or.inr (Or.inr (Or.inl ⟨rfl, rfl, _, hf, _, hl, rfl⟩)))), rfl⟩
    | key hr hl =>
      exact ⟨⟨direction, .reveal, _⟩,
        Or.inr (Or.inr (Or.inr (Or.inr (Or.inr ⟨rfl, _, hr, _, _, hl, Or.inl ⟨rfl, rfl⟩⟩)))), rfl⟩
    | value hr hl =>
      exact ⟨⟨direction, .commit, _⟩,
        Or.inr (Or.inr (Or.inr (Or.inr (Or.inr ⟨rfl, _, hr, _, _, hl, Or.inr ⟨rfl, rfl⟩⟩)))), rfl⟩

/-- Computed without overflow, and inside the message. -/
def Sound (length : ℕ) (range : Range) (computed : Option Range) : Prop :=
  computed = some range ∧ range.Fits length

omit [ToLowercase] in
theorem sound_startLine_iff (hlen : s.length < 2 ^ 31) (h1 : first.start < last.start)
    (h2 : last.start < last.stop) :
    Sound s.length ⟨first.start, last.withNewline.stop⟩ (startLineRange? first last) ↔
      last.stop < s.length := by
  have hstop : last.withNewline.stop = last.stop + 1 := by
    simp only [Range.withNewline, Range.adjust]
    omega
  constructor
  · rintro ⟨-, -, hfit⟩
    simp only [hstop] at hfit
    omega
  · intro hlt
    have hexact : last.withNewline? = some last.withNewline :=
      Range.adjust?_eq (by omega) (by omega) (by omega) (by omega) (by omega) (by omega)
    refine ⟨by rw [startLineRange?, hexact]; rfl, ?_, ?_⟩
    · simp only [hstop]
      omega
    · simp only [hstop]
      omega

omit [ToLowercase] in
/-- The quotes and the colon of a key are in the message. -/
theorem sound_key {key value : Range} (hlen : s.length < 2 ^ 31)
    (hb : EntryBounds s (.keyValue key value)) :
    Sound s.length key.withQuotesAndColon key.withQuotesAndColon? := by
  obtain ⟨h1, h2, h3, h4⟩ := hb
  refine ⟨Range.adjust?_eq (by omega) (by omega) (by omega) (by omega) (by omega) (by omega), ?_, ?_⟩
  · simp only [Range.withQuotesAndColon, Range.adjust]
    omega
  · simp only [Range.withQuotesAndColon, Range.adjust]
    omega

omit [ToLowercase] in
/-- So is the byte after a member's value. -/
theorem sound_field {field : BodyFieldConfig} {bodyField : StandardBody}
    (hlen : s.length < 2 ^ 31) (hb : EntryBounds s bodyField) :
    Sound s.length (field.selectionRange bodyField) (field.selectionRange? bodyField) := by
  cases bodyField with
  | value range => cases field <;> exact ⟨rfl, hb⟩
  | keyValue key value =>
    obtain ⟨h1, h2, h3, h4⟩ := hb
    cases field with
    | quoted _ =>
      have hadd : addUsize value.stop 1 = some (value.stop + 1) :=
        addUsize_eq_some.2 ⟨by omega, rfl⟩
      refine ⟨?_, ?_, ?_⟩
      · change Option.map _ (addUsize value.stop 1) = _
        rw [hadd]
        rfl
      · simp only [BodyFieldConfig.selectionRange, Range.fullPairQuoted, Range.extendTo]
        omega
      · simp only [BodyFieldConfig.selectionRange, Range.fullPairQuoted, Range.extendTo]
        omega
    | unquoted _ =>
      refine ⟨rfl, ?_, ?_⟩
      · simp only [BodyFieldConfig.selectionRange, Range.fullPairUnquoted, Range.extendTo]
        omega
      · simp only [BodyFieldConfig.selectionRange, Range.fullPairUnquoted, Range.extendTo]
        omega

omit [ToLowercase] in
/-- And so is the first byte of a header's terminator. -/
theorem sound_header {name value : Range} (hlen : s.length < 2 ^ 31)
    (hb : name.start ≤ value.stop ∧ value.stop < s.length) :
    Sound s.length (name.headerFullRange value) (name.headerFullRange? value) := by
  obtain ⟨h1, h2⟩ := hb
  have hadd : addUsize value.stop 1 = some (value.stop + 1) := addUsize_eq_some.2 ⟨by omega, rfl⟩
  refine ⟨by rw [Range.headerFullRange?, hadd]; rfl, ?_, ?_⟩
  · simp only [Range.headerFullRange, Range.spanTo]
    omega
  · simp only [Range.headerFullRange, Range.spanTo]
    omega

omit [ToLowercase] in
/-- The padding of a value fits or does not. -/
theorem sound_value_iff {rule : KeyValueCommitConfig} {key value : Range}
    (hlen : s.length < 2 ^ 31) (hb : EntryBounds s (.keyValue key value)) :
    Sound s.length (rule.valueRange value) (rule.valueRange? value) ↔
      ∀ len, rule.commitmentLength = some len → value.stop - value.start < len →
        value.start + len ≤ s.length := by
  obtain ⟨h1, h2, h3, h4⟩ := hb
  unfold KeyValueCommitConfig.valueRange KeyValueCommitConfig.valueRange?
  cases rule.commitmentLength with
  | none => exact ⟨fun _ len hl => absurd hl (by simp), fun _ => ⟨rfl, h3, h4.le⟩⟩
  | some len =>
    by_cases hpad : value.stop - value.start < len
    · simp only [if_pos hpad]
      constructor
      · rintro ⟨-, -, hfit⟩ len' hl -
        rw [Option.some.injEq] at hl
        exact hl ▸ hfit
      · intro hall
        have hfit := hall len rfl hpad
        have hadd : addUsize value.start len = some (value.start + len) :=
          addUsize_eq_some.2 ⟨by omega, rfl⟩
        exact ⟨by rw [hadd]; rfl, by simp only; omega, hfit⟩
    · simp only [if_neg hpad]
      refine ⟨fun _ len' hl hlt => ?_, fun _ => ⟨rfl, h3, h4.le⟩⟩
      rw [Option.some.injEq] at hl
      exact absurd hlt (hl ▸ hpad)

/-- **The padding fits**: no padded value ends past the message. -/
def PaddingFits (length : ℕ) (body : StringMap StandardBody) (config : RevealConfig) : Prop :=
  ∀ rule ∈ config.revealKeysCommitValues, ∀ key value len,
    body.lookup rule.keypath = some (.keyValue key value) → rule.commitmentLength = some len →
    value.stop - value.start < len → value.start + len ≤ length

/-- **When all ranges fit.** Of a parsed message of a size that a slice can
have, with rules that all match and builders that accept: the ranges of
the calls are those handed to the builders, and all of them are computed
without overflow, well formed and in the message, if and only if a byte
follows the start line and the padding fits. -/
theorem handed_sound_iff {M : Type} [HttpMessage M StandardHeader StandardBody] {message : M}
    (h : ParsedAs s direction first last (HttpMessage.headers message) (HttpMessage.body message))
    (hlen : s.length < 2 ^ 31)
    (hmatch : RulesMatch (HttpMessage.headers message) (HttpMessage.body message) config)
    {tlsn : Tlsn} (haccept : ∀ n calls c, tlsn n calls c = true) :
    (∀ range, (∃ c ∈ (applyMessageRevealConfig tlsn direction s message
          ⟨first.start, last.withNewline.stop⟩ config).calls, c.range = range) ↔
        ∃ computed, Handed (HttpMessage.headers message) (HttpMessage.body message) first last
          config range computed) ∧
    ((∀ range computed, Handed (HttpMessage.headers message) (HttpMessage.body message) first last
        config range computed → Sound s.length range computed) ↔
      last.stop < s.length ∧ PaddingFits s.length (HttpMessage.body message) config) := by
  obtain ⟨hstart, hlast⟩ := h.start_lt
  refine ⟨fun range => ?_, ⟨fun hall => ⟨?_, ?_⟩, ?_⟩⟩
  · rw [(yields_plan hmatch).calls_eq fun calls c => haccept _ calls c]
    exact exists_mem_plan
  · exact (sound_startLine_iff hlen hstart hlast).1 (hall _ _ Handed.startLine)
  · intro rule hrule key value len hl hlength hpad
    have hbounds := h.accepted.entry_bounds hl
    exact (sound_value_iff hlen hbounds).1 (hall _ _ (Handed.value hrule hl)) len hlength hpad
  · rintro ⟨hline, hpadding⟩ range computed hc
    cases hc with
    | startLine => exact (sound_startLine_iff hlen hstart hlast).2 hline
    | header hn hl hh => exact sound_header hlen (h.accepted.header_bounds hl hh)
    | field hf hl => exact sound_field hlen (h.accepted.entry_bounds hl)
    | key hr hl => exact sound_key hlen (h.accepted.entry_bounds hl)
    | value hr hl =>
      exact (sound_value_iff hlen (h.accepted.entry_bounds hl)).2 fun len => hpadding _ hr _ _ len hl

end

/-- The number of the response with the repeated key, committed at a length. -/
def paddedNumber (len : ℕ) : RevealConfig := { revealKeysCommitValues := [⟨".a", some len⟩] }

theorem exists_parsedAs_repeatedKey :
    ∃ parsed, @parseStandardResponse asciiLowercase repeatedKey = .ok parsed ∧
      parsed.body.lookup ".a" = some (.keyValue ⟨41, 42⟩ ⟨44, 45⟩) ∧
      ∀ len, @RulesMatch asciiLowercase parsed.headers parsed.body (paddedNumber len) := by
  let _ := asciiLowercase
  have h := parsedField_repeatedKey
  simp only [List.map_cons, List.cons.injEq] at h
  obtain ⟨parsed, hp, hl⟩ := parsedField_eq_some.1 h.2.1
  refine ⟨parsed, hp, hl, fun len => ⟨?_, ?_, ?_⟩⟩
  · exact fun name hn => absurd hn List.not_mem_nil
  · exact fun field hf => absurd hf List.not_mem_nil
  · intro rule hrule
    rw [paddedNumber, List.mem_singleton] at hrule
    exact hrule ▸ ⟨_, _, hl⟩

/-- Two bytes are there to commit, the number and the closing brace. -/
theorem handed_sound_iff_repeatedKey :
    ∃ parsed, @parseStandardResponse asciiLowercase repeatedKey = .ok parsed ∧
      ((∀ range computed, @Handed asciiLowercase parsed.headers parsed.body parsed.protocolVersion
          parsed.status (paddedNumber 2) range computed →
          Sound repeatedKey.length range computed) ↔
        parsed.status.stop < repeatedKey.length ∧
          PaddingFits repeatedKey.length parsed.body (paddedNumber 2)) := by
  let _ := asciiLowercase
  obtain ⟨parsed, hp, -, hmatch⟩ := exists_parsedAs_repeatedKey
  have haccept : ∀ n calls c, (fun _ _ _ => true : Tlsn) n calls c = true := fun _ _ _ => rfl
  exact ⟨parsed, hp, (@handed_sound_iff repeatedKey _ .received _ _ _ _ _ parsed
    (ParsedAs.response hp) (by decide) (hmatch 2) _ haccept).2⟩

/-- **A third byte is not**: the padded range ends past the message. -/
theorem not_forall_handed_sound :
    ¬ ∀ (_ : ToLowercase) (s : List UInt8) (direction : TranscriptDirection) (first last : Range)
      (headers : StringMap (List StandardHeader)) (body : StringMap StandardBody)
      (config : RevealConfig), ParsedAs s direction first last headers body →
      s.length < 2 ^ 31 → RulesMatch headers body config →
      ∀ range computed, Handed headers body first last config range computed →
        Sound s.length range computed := by
  intro hall
  let _ := asciiLowercase
  obtain ⟨parsed, hp, hl, hmatch⟩ := exists_parsedAs_repeatedKey
  have hsound := hall asciiLowercase repeatedKey .received _ _ _ _ (paddedNumber 3)
    (ParsedAs.response hp) (by decide) (hmatch 3) _ _ (Handed.value List.mem_cons_self hl)
  have hfit : 44 + 3 ≤ 46 := hsound.2.2
  exact absurd hfit (by decide)

end TlsnDemo
