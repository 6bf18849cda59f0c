import TlsnDemo.Properties.Offsets
import TlsnDemo.Reading.Redacted
import TlsnDemo.Reading.Transcript
import TlsnDemo.Syntax.Compact

/-!
# What the verifier reads is a pair of the message

Whatever positions are revealed, a field the verifier reads inside the
document of the message is a pair of it. A string, a literal, an object or
an array is then read in full, since its last byte is a byte of its own.
A number is not: the byte after it may be redacted, and the verifier reads
the digits in front.
-/

namespace TlsnDemo

open Peg Support Syntax

variable {s d : List UInt8} {shown : ℕ → Bool} {i j x e y : ℕ} {v valuePair root : Token}
  {key value : Range}

/-- **A value as it is shown**: the whole text between the quotes of a
string, the whole span of any other value, and of a number perhaps only
what stands in front of a hidden byte. -/
structure ShownValue (s : List UInt8) (shown : ℕ → Bool) (valuePair : Token) (value : Range) :
    Prop where
  string : valuePair.asRule = .string →
    ∃ v w, InQuotes s (extractRange valuePair) v w ∧ value = ⟨v + 1, w⟩
  number : valuePair.asRule = .number →
    value.start = valuePair.start ∧ value.start < value.stop ∧ value.stop ≤ valuePair.stop ∧
      (value.stop < valuePair.stop → shown value.stop = false)
  other : valuePair.asRule ≠ .string → valuePair.asRule ≠ .number → value = extractRange valuePair

theorem Syntax.Derives.inQuotes {q : ℕ} (h : Derives s .nonAtomic .value i (q + 1) [v])
    (hr : v.asRule = .string) : InQuotes s (extractRange v) i q := by
  cases h with
  | empty b _ _ _ => cases b <;> simp [Bracket.rule] at hr
  | filled b _ _ _ _ _ => cases b <;> simp [Bracket.rule] at hr
  | string hq hj ht hl hq' =>
    exact ⟨hq, le_of_skip hj, blank_skip hj, hq', le_of_skip hl, blank_skip hl⟩
  | scalar h => exact absurd hr h.ne_string

/-- Without whitespace, a string is all that stands between its quotes. -/
theorem Syntax.Derives.string_span (h : Derives d .compoundAtomic .value i j [v])
    (hr : v.asRule = .string) : i + 1 ≤ v.stop ∧ v.start = i + 1 ∧ j = v.stop + 1 := by
  cases h with
  | empty b _ _ _ => cases b <;> simp [Bracket.rule] at hr
  | filled b _ _ _ _ _ => cases b <;> simp [Bracket.rule] at hr
  | string hq hj ht hl hq' =>
    have hle := ht.le
    rw [skip_compoundAtomic] at hj hl
    subst hj hl
    exact ⟨hle, rfl, rfl⟩
  | scalar h => exact absurd hr h.ne_string

theorem Syntax.Derives.number_text {a : Atomicity} (h : Derives d a .value i j [v])
    (hr : v.asRule = .number) : numberEnd d i = some j ∧ v = .node .number i j [] := by
  cases h with
  | empty b _ _ _ => cases b <;> simp [Bracket.rule] at hr
  | filled b _ _ _ _ _ => cases b <;> simp [Bracket.rule] at hr
  | string _ _ _ _ _ => simp at hr
  | scalar h =>
    cases h with
    | number h => exact ⟨h, rfl⟩
    | isTrue _ => simp at hr
    | isFalse _ => simp at hr
    | null _ => simp at hr

/-- **A value that is shown and the value of the message** from the same
position: either the one ends where the other does, or they are numbers and
that of the message may go on. -/
theorem Syntax.Derives.of_shown (hv : Derives (redact s shown) .compoundAtomic .value i j [v])
    (hval : Derives s .nonAtomic .value i y [valuePair]) :
    (v = .node .number i j [] ∧ valuePair = .node .number i y [] ∧ j ≤ y ∧
        (j < y → ∃ c, s[j]? = some c ∧ isNumberNext c = true)) ∨
      v.asRule ≠ .number ∧ y = j ∧ valuePair.asRule = v.asRule := by
  have hag := agree_redact hv.solid
  by_cases hr : v.asRule = .number
  · -- the number of the message goes on at least as far
    obtain ⟨hn, rfl⟩ := hv.number_text hr
    obtain ⟨z, hz, hle, hgo⟩ := (hag.numberText (numberText_of_end hn)).exists_end
    obtain ⟨rfl, hts⟩ := hval.value_unique (by decide) (Derives.scalar (.number hz))
    exact Or.inl ⟨rfl, List.singleton_inj.1 hts, hle, fun hlt => at_iff.1 (hgo hlt)⟩
  · -- any other value ends with a byte of its own
    obtain ⟨us, hus, hrules, -⟩ := (hv.transfer_value hag fun h => absurd h hr).loosen
    obtain ⟨rfl, rfl⟩ := hval.value_unique (by decide) hus
    exact Or.inr ⟨hr, rfl, by simpa using hrules⟩

/-- **The value read of a transcript is the value of the message**, where
both are read from the same position. -/
theorem shownValue_of_derives (hd : d = redact s shown)
    (hv : Derives d .compoundAtomic .value i j [v]) (hstop : Stops isNumberNext d j)
    (hval : Derives s .nonAtomic .value i y [valuePair]) :
    ShownValue s shown valuePair (extractRange v) := by
  subst hd
  rcases hv.of_shown hval with h | h
  · obtain ⟨rfl, rfl, hle, hgo⟩ := h
    refine ⟨fun h => by simp at h, fun _ => ⟨rfl, hv.lt, hle, fun hlt => ?_⟩, fun _ h => absurd rfl h⟩
    obtain ⟨c, hc, hf⟩ := hgo hlt
    by_contra hshown
    simp only [extractRange, Pair.stop_node, Bool.not_eq_false] at hshown
    have hc' := getElem?_redact_of_shown (s := s) hshown
    rw [hc] at hc'
    rw [hstop c hc'] at hf
    exact absurd hf (by simp)
  · obtain ⟨hr, rfl, hrule⟩ := h
    refine ⟨fun hs => ?_, fun hn => absurd (hrule ▸ hn) hr, fun hs _ => ?_⟩
    · obtain ⟨h1, h2, rfl⟩ := hv.string_span (hrule ▸ hs)
      exact ⟨_, _, hval.inQuotes hs, by rw [extractRange, h2]⟩
    · obtain ⟨t, ht, -, hspan, -⟩ := hv.value_token
      obtain ⟨t', ht', -, hspan', -⟩ := hval.value_token
      simp only [List.cons.injEq, and_true] at ht ht'
      subst ht ht'
      obtain ⟨h1, h2⟩ := hspan (hrule ▸ hs)
      obtain ⟨h3, h4⟩ := hspan' hs
      rw [extractRange, extractRange, h1, h2, h3, h4]

/-- **A redacted pair inside the document is a pair of it.** -/
theorem IsDocument.shown_pair {X Y : ℕ} (hdoc : IsDocument s X Y root) (hd : d = redact s shown)
    (hk : KeyColon d x e) (hv : Derives d .compoundAtomic .value (e + 2) j [v])
    (hstop : Stops isNumberNext d j) (hX : X ≤ x) (hY : e + 1 < Y) :
    ∃ y valuePair, Occurs (.node .pair x y [.node .key (x + 1) e [], valuePair]) [root] ∧
      Derives s .nonAtomic .value (e + 2) y [valuePair] ∧
      ShownValue s shown valuePair (extractRange v) := by
  have hk' : KeyColon s x e := KeyColon.transfer hk (hd ▸ agree_redact (hd ▸ hk.solid)) le_rfl
  obtain ⟨y, valuePair, hocc, hval⟩ := hdoc.derives.pair_of_keyColon hk' hX hY
  obtain ⟨c, hc, hf⟩ := hv.first
  have hc' : s[e + 2]? = some c := (hd ▸ agree_redact (hd ▸ hv.solid)).get hc le_rfl hv.lt
  rw [skip_self hc' (not_whitespace_of_valueStart hf)] at hval
  exact ⟨y, valuePair, hocc, hval, shownValue_of_derives hd hv hstop hval⟩

section

variable [ToLowercase] {parsed : StandardResponse} {r : RedactedResponse} {body : Range} {p : String}

/-- **A field read inside the document is a pair of the message**, and its
value is read as it is shown. -/
theorem redacted_field_of_document (hR : parseStandardResponse s = .ok parsed)
    (hbody : parsed.body.lookup "" = some (.value body))
    (hr : parseRedactedResponse (redact s shown) = .ok r)
    (hf : r.body.lookup p = some (.keyValue key (some value)))
    (hkey : key.Within body) (hvalue : value.Within body) :
    ∃ root i j keyPair valuePair, IsDocument s body.start body.stop root ∧
      Occurs (.node .pair i j [keyPair, valuePair]) [root] ∧ key = extractRange keyPair ∧
      ShownValue s shown valuePair value := by
  obtain ⟨root, hdoc, -⟩ := (Accepted.response hR).body_document hbody
  obtain ⟨D, l, hs, h, bs, e, ps, t, us, k, m, hread, rfl, ht, u, hu, -, hfield⟩ :=
    redacted_of_lookup hr hf
  obtain ⟨x, y, hred, hstop⟩ := ht.stops hread.text.message.stop hu
  cases hred with
  | bare hk _ => simp [redactedField, redactedToken] at hfield
  | @full q _ v hk hv hc =>
    simp only [redactedField, redactedToken, Pair.intoInner_node, List.head?_cons, Option.map_some,
      Body.keyValue.injEq, Option.some.injEq] at hfield
    obtain ⟨rfl, rfl⟩ := hfield
    obtain ⟨hkey1, -⟩ := hkey
    obtain ⟨-, hvalue2⟩ := hvalue
    simp only [extractRange, Pair.start_node] at hkey1
    simp only [extractRange] at hvalue2
    have hlt := hk.lt
    have hend : q + 1 < v.stop := by
      obtain ⟨w, hw, -, hspan, -⟩ := hv.value_token
      simp only [List.cons.injEq, and_true] at hw
      subst hw
      by_cases hrule : v.asRule = .string
      · have := (hv.string_span hrule).1
        omega
      · have := hv.lt
        rw [(hspan hrule).2]
        omega
    -- the document does not start inside the key
    have hstart : body.start ≤ x := by
      by_contra hgt
      obtain ⟨b, hb⟩ := hdoc.opening
      obtain ⟨c, hc, hf⟩ := hk.key.mem (x + 1) le_rfl hlt
      have hc' := (agree_redact hk.solid).get hc (by omega) (by omega)
      have heq : body.start = x + 1 := by omega
      rw [heq, hc', Option.some.injEq] at hb
      rw [hb] at hf
      cases b <;> exact absurd hf (by decide)
    obtain ⟨z, valuePair, hocc, -, hshown⟩ :=
      hdoc.shown_pair rfl hk hv hstop hstart (by omega)
    exact ⟨root, x, z, _, valuePair, hdoc, hocc, rfl, hshown⟩

end

/-- A value read in full. -/
structure CompleteValue (s : List UInt8) (valuePair : Token) (value : Range) : Prop where
  string : valuePair.asRule = .string →
    ∃ v w, InQuotes s (extractRange valuePair) v w ∧ value = ⟨v + 1, w⟩
  other : valuePair.asRule ≠ .string → value = extractRange valuePair

/-- A value read in full ends where that of the message does. -/
theorem CompleteValue.end_eq (hc : CompleteValue s valuePair (extractRange v))
    (hv : Derives (redact s shown) .compoundAtomic .value i j [v])
    (hval : Derives s .nonAtomic .value i y [valuePair]) : y = j := by
  rcases hv.of_shown hval with h | h
  · obtain ⟨rfl, rfl, -⟩ := h
    have hspan := hc.other (by simp)
    simp only [extractRange, Pair.start_node, Pair.stop_node, Range.mk.injEq, true_and] at hspan
    exact hspan.symm
  · exact h.2.1

/-- What the redacted parser has for a path, if it accepts. -/
def redactedFieldOf [ToLowercase] (s : List UInt8) (p : String) : Option RedactedBody :=
  match parseRedactedResponse s with
  | .ok r => r.body.lookup p
  | .error _ => none

theorem redactedFieldOf_eq_some [ToLowercase] {p : String} {field : RedactedBody} :
    redactedFieldOf s p = some field ↔
      ∃ r, parseRedactedResponse s = .ok r ∧ r.body.lookup p = some field := by
  unfold redactedFieldOf
  cases parseRedactedResponse s <;> simp

/-- A response with a number of three digits. -/
def threeDigits : List UInt8 := bytes "HTTP/1.1 200 OK\n\n\x7b\"CHF\":125\x7d"

/-- Its status line, the key, and two of the digits. -/
def twoDigitsShown (k : ℕ) : Bool := k < 15 || (18 ≤ k && k < 26)

theorem parsedField_threeDigits :
    @parsedField asciiLowercase threeDigits "" = some (.value ⟨17, 28⟩) := by
  decide +kernel

theorem redactedFieldOf_threeDigits :
    @redactedFieldOf asciiLowercase (redact threeDigits twoDigitsShown) ".CHF" =
      some (.keyValue ⟨19, 22⟩ (some ⟨24, 26⟩)) := by
  decide +kernel

/-- Of that number, two digits are read, and the third is hidden. -/
theorem redacted_field_of_document_threeDigits :
    ∃ root i j keyPair valuePair, IsDocument threeDigits 17 28 root ∧
      Occurs (.node .pair i j [keyPair, valuePair]) [root] ∧ ⟨19, 22⟩ = extractRange keyPair ∧
      ShownValue threeDigits twoDigitsShown valuePair ⟨24, 26⟩ := by
  obtain ⟨parsed, hp, hbody⟩ :=
    (@parsedField_eq_some _ asciiLowercase _ _).1 parsedField_threeDigits
  obtain ⟨r, hr, hf⟩ :=
    (@redactedFieldOf_eq_some _ asciiLowercase _ _).1 redactedFieldOf_threeDigits
  exact @redacted_field_of_document _ _ _ _ asciiLowercase _ _ ⟨17, 28⟩ _ hp hbody hr hf
    ⟨by decide, by decide⟩ ⟨by decide, by decide⟩

/-- So not every field is read in full. -/
theorem not_forall_completeValue :
    ¬ ∀ (_ : ToLowercase) (s : List UInt8) (shown : ℕ → Bool) (parsed : StandardResponse)
      (body key value : Range) (r : RedactedResponse) (p : String),
      parseStandardResponse s = .ok parsed → parsed.body.lookup "" = some (.value body) →
      parseRedactedResponse (redact s shown) = .ok r →
      r.body.lookup p = some (.keyValue key (some value)) → key.Within body → value.Within body →
      ∃ root i j keyPair valuePair, IsDocument s body.start body.stop root ∧
        Occurs (.node .pair i j [keyPair, valuePair]) [root] ∧ key = extractRange keyPair ∧
        CompleteValue s valuePair value := by
  intro hall
  obtain ⟨parsed, hp, hbody⟩ :=
    (@parsedField_eq_some _ asciiLowercase _ _).1 parsedField_threeDigits
  obtain ⟨r, hr, hf⟩ :=
    (@redactedFieldOf_eq_some _ asciiLowercase _ _).1 redactedFieldOf_threeDigits
  obtain ⟨root, i, j, keyPair, valuePair, hdoc, hocc, -, hvalue⟩ :=
    hall asciiLowercase _ _ _ ⟨17, 28⟩ _ _ _ _ hp hbody hr hf ⟨by decide, by decide⟩
      ⟨by decide, by decide⟩
  obtain ⟨-, -, -, -, -, x, -, hval⟩ := (hdoc.derives.pair_of_occurs hocc rfl).pair_ranges
  obtain ⟨t, ht, -, hspan, -⟩ := hval.value_token
  simp only [List.cons.injEq, and_true] at ht
  subst ht
  by_cases hrule : valuePair.asRule = .string
  · -- a string would have a quote where the colon is
    obtain ⟨v, w, hq, hrange⟩ := hvalue.string hrule
    simp only [Range.mk.injEq] at hrange
    obtain rfl : v = 23 := by omega
    exact absurd hq.opening (by decide)
  · obtain ⟨hstart, hstop⟩ := hspan hrule
    have hrange := hvalue.other hrule
    simp only [extractRange, hstart, hstop, Range.mk.injEq, Pair.stop_node] at hrange
    obtain ⟨rfl, rfl⟩ := hrange
    have hend : (Grammar.value threeDigits .nonAtomic 24).map Prod.fst = some 27 := by
      decide +kernel
    rw [(value_eq_some (by decide)).2 hval] at hend
    exact absurd hend (by simp)

end TlsnDemo
