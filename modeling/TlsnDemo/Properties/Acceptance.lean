import TlsnDemo.Reading.Headers
import TlsnDemo.Reading.Redacted
import TlsnDemo.Properties.BodyPaths

/-!
# What the grammar accepts, the walkers read

The walkers check every token they meet: its rule, that it is there, and
that none is left over. Whatever the grammar emits passes these checks, but
for one: a header line without a value, which the standard parser refuses
and the redacted parser reads.
-/

namespace TlsnDemo

open Peg Support Syntax

variable {s : List UInt8} {a : Atomicity} {i j l h e : ℕ} {ts hs bs : List Token} {t : Token}

/-! ## Bodies -/

/-- A value the traversal gets through, from any state. -/
def Walks (s : List UInt8) (t : Token) : Prop := ∀ st, ∃ st', traverseValue s t st = .ok st'

/-- A pair of a key and a value the traversal gets through. -/
def WalksMember (s : List UInt8) (t : Token) : Prop :=
  ∃ i j keyPair valuePair, t = .node .pair i j [keyPair, valuePair] ∧ Walks s valuePair

theorem traverseObject_total (h : ∀ t ∈ ts, WalksMember s t) (st : Traversal) :
    ∃ st', traverseObject s ts st = .ok st' := by
  induction ts generalizing st with
  | nil => exact ⟨st, rfl⟩
  | cons t ts ih =>
    obtain ⟨i, j, keyPair, valuePair, rfl, hv⟩ := h t List.mem_cons_self
    obtain ⟨st₁, h₁⟩ := hv ⟨st.body.insert (st.path.push (.key (asStr s keyPair))).render
      (.keyValue (extractRange keyPair) (extractRange valuePair)),
      st.path.push (.key (asStr s keyPair))⟩
    obtain ⟨st', h₂⟩ := ih (fun u hu => h u (List.mem_cons_of_mem _ hu)) st₁
    exact ⟨st', traverseObject_cons.2 ⟨keyPair, valuePair, st₁, rfl, rfl, h₁, h₂⟩⟩

theorem traverseArray_total (h : ∀ t ∈ ts, Walks s t) (idx : ℕ) (st : Traversal) :
    ∃ st', traverseArray s idx ts st = .ok st' := by
  induction ts generalizing idx st with
  | nil => exact ⟨st, by rw [traverseArray]⟩
  | cons t ts ih =>
    obtain ⟨st₁, h₁⟩ := h t List.mem_cons_self ⟨st.body.insert (st.path.push (.index idx)).render
      (.value (extractRange t)), st.path.push (.index idx)⟩
    obtain ⟨st', h₂⟩ := ih (fun u hu => h u (List.mem_cons_of_mem _ hu)) (idx + 1) st₁
    exact ⟨st', traverseArray_cons.2 ⟨st₁, h₁, h₂⟩⟩

/-- What the traversal gets through of a phrase. -/
def Syntax.Phrase.Walks (s : List UInt8) : Phrase → Token → Prop
  | .value | .items .array => TlsnDemo.Walks s
  | .pair | .items .object => WalksMember s

theorem walks_bracket {b : Bracket} (h : ∀ t ∈ ts, (Phrase.items b).Walks s t) :
    Walks s (.node b.rule i j ts) := by
  intro st
  cases b with
  | object =>
    obtain ⟨st₁, h₁⟩ := traverseObject_total h st
    exact ⟨_, traverseValue_node.2 ⟨st₁, (if_pos rfl).trans h₁, rfl⟩⟩
  | array =>
    obtain ⟨st₁, h₁⟩ := traverseArray_total h 0 st
    exact ⟨_, traverseValue_node.2 ⟨st₁, (if_neg (by decide)).trans ((if_pos rfl).trans h₁), rfl⟩⟩

theorem walks_scalar {r : Rule} (hr : isScalar r = true) : Walks s (.node r i j ts) := by
  intro st
  have h1 : r ≠ .object := by rintro rfl; exact absurd hr (by decide)
  have h2 : r ≠ .array := by rintro rfl; exact absurd hr (by decide)
  exact ⟨_, traverseValue_node.2 ⟨st, by rw [if_neg h1, if_neg h2], rfl⟩⟩

theorem walks_item {b : Bracket} : b.item.Walks s = (Phrase.items b).Walks s := by
  cases b <;> rfl

/-- **The traversal gets through whatever is derived.** -/
theorem Syntax.Derives.walks {φ : Phrase} (h : Derives s a φ i j ts) : ∀ t ∈ ts, φ.Walks s t := by
  induction h with
  | empty b _ _ _ =>
    intro t ht
    rw [List.mem_singleton.1 ht]
    exact walks_bracket (by simp)
  | filled b _ _ _ _ _ ih =>
    intro t ht
    rw [List.mem_singleton.1 ht]
    exact walks_bracket ih
  | string _ _ _ _ _ =>
    intro t ht
    rw [List.mem_singleton.1 ht]
    exact walks_scalar rfl
  | scalar h =>
    intro t ht
    rw [List.mem_singleton.1 ht]
    exact walks_scalar h.isScalar
  | pair _ _ _ _ _ _ _ _ hval ih =>
    obtain ⟨v, rfl, -⟩ := hval.value_token
    intro t ht
    rw [List.mem_singleton.1 ht]
    exact ⟨_, _, _, v, rfl, ih v List.mem_cons_self⟩
  | last b _ ih => exact fun t ht => walks_item ▸ ih t ht
  | more b _ _ _ _ _ ih1 ih2 =>
    intro t ht
    rcases List.mem_append.1 ht with ht | ht
    · exact walks_item ▸ ih1 t ht
    · exact ih2 t ht

theorem parseStandardBody_total (hb : Peg.optional Grammar.body s .nonAtomic i = some (e, bs)) :
    ∃ m, parseStandardBody s (bs ++ [eoiToken s e]) = .ok m := by
  cases bodyText_of_body hb with
  | document _ _ hd =>
    rw [List.cons_append, parseStandardBody, if_pos hd.root.1]
    obtain ⟨st, hst⟩ := hd.derives.walks _ List.mem_cons_self
      ⟨(∅ : StringMap StandardBody).insert "" (.value (extractRange _)), {}⟩
    exact ⟨st.body, bind_eq_ok.2 ⟨st, hst, rfl⟩⟩
  | redacted ht =>
    refine ⟨∅, ?_⟩
    rw [List.cons_append, parseStandardBody, if_neg (by rw [ht.first.asRule]; decide)]
  | none =>
    refine ⟨∅, ?_⟩
    rw [List.nil_append, parseStandardBody, if_neg (by simp [eoiToken])]

theorem parseRedactedBody_total (hb : Peg.optional Grammar.body s .nonAtomic i = some (e, bs)) :
    ∃ m, parseRedactedBody s (bs ++ [eoiToken s e]) = .ok m := by
  cases bodyText_of_body hb with
  | document _ _ hd =>
    refine ⟨∅, parseRedactedBody_other ?_⟩
    rcases hd.root.1 with h | h <;> rw [h] <;> decide
  | redacted ht => exact ⟨_, parseRedactedBody_redacted ht⟩
  | none => exact ⟨∅, parseRedactedBody_other (by simp [eoiToken])⟩

/-! ## Header sections -/

/-- A header line with a value. -/
def HasValue (t : Token) : Prop := ∃ v ∈ t.intoInner, v.asRule = .headerValue

section Headers

variable [ToLowercase]

theorem parseHeader_redacted_total (ht : HeaderText s i j t) :
    ∃ p, parseHeader (V := Option Range) s t = .ok p := by
  cases ht with
  | full _ _ => exact ⟨_, parseHeader_redacted⟩
  | bare _ _ => exact ⟨_, parseHeader_redacted_bare⟩

theorem parseHeader_standard_cases (ht : HeaderText s i j t) :
    HasValue t ∧ (∃ p, parseHeader (V := Range) s t = .ok p) ∨
      ¬ HasValue t ∧ parseHeader (V := Range) s t = .error (.missingField "header value") := by
  cases ht with
  | full _ _ => exact Or.inl ⟨⟨_, List.mem_cons_of_mem _ List.mem_cons_self, rfl⟩, _, parseHeader_standard⟩
  | bare _ _ =>
    refine Or.inr ⟨?_, parseHeader_standard_bare⟩
    rintro ⟨v, hv, hr⟩
    rw [List.mem_singleton.1 hv] at hr
    exact absurd hr (by simp)

variable {V : Type} [HeaderValue V]

theorem parseHeaders_total (h : ∀ t ∈ hs, ∃ p, parseHeader (V := V) s t = .ok p) :
    ∃ ps, ReadsHeaders (V := V) s hs ps := exists_forall₂ h

/-- A header section with one kind of bad line is refused for it. -/
theorem parseHeaders_error {error : ParseError}
    (hall : ∀ t ∈ hs, (∃ p, parseHeader (V := V) s t = .ok p) ∨
      parseHeader (V := V) s t = .error error)
    (hbad : ∃ t ∈ hs, parseHeader (V := V) s t = .error error) :
    parseHeaders (V := V) s (.node .headers i j hs) = .error error :=
  foldlM_eq_error (g := parseHeader (V := V) s) (h := fun acc p => pushHeader acc p.1 p.2) hall hbad

end Headers

/-! ## Messages -/

section Messages

variable [ToLowercase] {V B : Type} [HeaderValue V] {d m u : ℕ}
  {pb : List Token → Except ParseError (StringMap B)}

theorem parseResponseInner_error {error : ParseError} (ht : ResponseText s d l hs h bs e)
    (hh : ∀ i j, parseHeaders (V := V) s (.node .headers i j hs) = .error error) :
    parseResponseInner (V := V) s pb = .error error := by
  unfold parseResponseInner
  rw [parse_response_eq_some.2 ⟨d, l, hs, h, bs, e, ht, rfl⟩]
  simp only [messageTokens, statusLineTokens, List.cons_append, List.nil_append,
    parseThreeFieldLine_statusLine.2 rfl, hh]
  rfl

theorem parseRequestInner_error {error : ParseError} (ht : RequestText s m u l hs h bs e)
    (hh : ∀ i j, parseHeaders (V := V) s (.node .headers i j hs) = .error error) :
    parseRequestInner (V := V) s pb = .error error := by
  unfold parseRequestInner
  rw [parse_request_eq_some.2 ⟨m, u, l, hs, h, bs, e, ht, rfl⟩]
  simp only [messageTokens, requestLineTokens, List.cons_append, List.nil_append,
    parseThreeFieldLine_requestLine.2 rfl, hh]
  rfl

/-- The header lines among the tokens of a message. -/
def headerTokens : List Token → List Token
  | _ :: headersPair :: _ => headersPair.intoInner
  | _ => []

/-- Every header line has a value. -/
def AllHaveValues (ts : List Token) : Prop := ∀ t ∈ headerTokens ts, HasValue t

/-- **What the parsers make of a message the grammar accepts**: the
redacted parser reads it, and the standard parser reads it where every
header line has a value, and else reports that one is missing. -/
structure ReadWithoutTrouble {R S : Type} (ts : List Token) (redacted : Except ParseError R)
    (standard : Except ParseError S) : Prop where
  redacted_ok : ∃ r, redacted = .ok r
  standard_ok_iff : (∃ r, standard = .ok r) ↔ AllHaveValues ts
  missing : ¬ AllHaveValues ts → standard = .error (.missingField "header value")

omit [ToLowercase] in
theorem ReadWithoutTrouble.of_cases {R S : Type} {redacted : Except ParseError R}
    {standard : Except ParseError S} (hredacted : ∃ r, redacted = .ok r)
    (hread : AllHaveValues ts → ∃ r, standard = .ok r)
    (hmissing : ¬ AllHaveValues ts → standard = .error (.missingField "header value")) :
    ReadWithoutTrouble ts redacted standard := by
  refine ⟨hredacted, ⟨fun ⟨r, hr⟩ => ?_, hread⟩, hmissing⟩
  by_contra hno
  rw [hmissing hno] at hr
  exact absurd hr (by simp)

/-- The lines of a section are read by either parser as `HasValue` says. -/
theorem HeaderChain.reads (hc : HeaderChain s l h hs) :
    (∃ ps, ReadsHeaders (V := Option Range) s hs ps) ∧
      ((∀ t ∈ hs, HasValue t) → ∃ ps, ReadsHeaders (V := Range) s hs ps) ∧
      ((¬ ∀ t ∈ hs, HasValue t) → ∀ i j, parseHeaders (V := Range) s (.node .headers i j hs) =
        .error (.missingField "header value")) := by
  have hcases : ∀ t ∈ hs, HasValue t ∧ (∃ p, parseHeader (V := Range) s t = .ok p) ∨
      ¬ HasValue t ∧ parseHeader (V := Range) s t = .error (.missingField "header value") :=
    fun t ht => parseHeader_standard_cases (HeaderChain.mem hc ht).1
  refine ⟨parseHeaders_total fun t ht => parseHeader_redacted_total (HeaderChain.mem hc ht).1,
    fun hall => parseHeaders_total fun t ht => ?_, fun hnot i j => parseHeaders_error ?_ ?_⟩
  · rcases hcases t ht with ⟨-, hp⟩ | ⟨hno, -⟩
    · exact hp
    · exact absurd (hall t ht) hno
  · intro t ht
    rcases hcases t ht with ⟨-, hp⟩ | ⟨-, herr⟩
    · exact Or.inl hp
    · exact Or.inr herr
  · simp only [not_forall] at hnot
    obtain ⟨t, ht, hno⟩ := hnot
    rcases hcases t ht with ⟨hyes, -⟩ | ⟨-, herr⟩
    · exact absurd hyes hno
    · exact ⟨t, ht, herr⟩

theorem readWithoutTrouble_response (hp : Grammar.parse Grammar.response s = some ts) :
    ReadWithoutTrouble ts (parseRedactedResponse s) (parseStandardResponse s) := by
  obtain ⟨d, l, hs, h, bs, e, ht, rfl⟩ := parse_response_eq_some.1 hp
  obtain ⟨⟨ps, hps⟩, hall, herr⟩ := HeaderChain.reads ht.message.headers
  obtain ⟨m, hm⟩ := parseRedactedBody_total ht.message.body
  refine ReadWithoutTrouble.of_cases ?_ (fun hv => ?_) fun hno => ?_
  · exact ⟨⟨_, _, _, _, m⟩, parseResponseInner_eq_ok.2
      ⟨d, l, hs, h, bs, e, ps, ht, hps, hm, rfl, rfl, rfl, rfl⟩⟩
  · obtain ⟨ps, hps⟩ := hall hv
    obtain ⟨m, hm⟩ := parseStandardBody_total ht.message.body
    exact ⟨⟨_, _, _, _, m⟩, parseResponseInner_eq_ok.2
      ⟨d, l, hs, h, bs, e, ps, ht, hps, hm, rfl, rfl, rfl, rfl⟩⟩
  · exact parseResponseInner_error ht (herr hno)

theorem readWithoutTrouble_request (hp : Grammar.parse Grammar.request s = some ts) :
    ReadWithoutTrouble ts (parseRedactedRequest s) (parseStandardRequest s) := by
  obtain ⟨m, u, l, hs, h, bs, e, ht, rfl⟩ := parse_request_eq_some.1 hp
  obtain ⟨⟨ps, hps⟩, hall, herr⟩ := HeaderChain.reads ht.headers
  obtain ⟨body, hbody⟩ := parseRedactedBody_total ht.body
  refine ReadWithoutTrouble.of_cases ?_ (fun hv => ?_) fun hno => ?_
  · exact ⟨⟨_, _, _, _, body⟩, parseRequestInner_eq_ok.2
      ⟨m, u, l, hs, h, bs, e, ps, ht, hps, hbody, rfl, rfl, rfl, rfl⟩⟩
  · obtain ⟨ps, hps⟩ := hall hv
    obtain ⟨body, hbody⟩ := parseStandardBody_total ht.body
    exact ⟨⟨_, _, _, _, body⟩, parseRequestInner_eq_ok.2
      ⟨m, u, l, hs, h, bs, e, ps, ht, hps, hbody, rfl, rfl, rfl, rfl⟩⟩
  · exact parseRequestInner_error ht (herr hno)

/-- **The walkers never trip over what the grammar produces.** No accepted
message is an unexpected token to either parser, and none misses a field
but a header's value. -/
theorem walkers_read_accepted (s : List UInt8) :
    (∀ ts, Grammar.parse Grammar.response s = some ts →
      ReadWithoutTrouble ts (parseRedactedResponse s) (parseStandardResponse s)) ∧
    ∀ ts, Grammar.parse Grammar.request s = some ts →
      ReadWithoutTrouble ts (parseRedactedRequest s) (parseStandardRequest s) :=
  ⟨fun _ => readWithoutTrouble_response, fun _ => readWithoutTrouble_request⟩

end Messages

/-- Both parsers read a response with its header lines complete. -/
theorem walkers_read_accepted_repeatedKey :
    ∃ ts, Grammar.parse Grammar.response repeatedKey = some ts ∧ AllHaveValues ts ∧
      ∃ r, @parseRedactedResponse asciiLowercase repeatedKey = .ok r := by
  let _ := asciiLowercase
  have h := parsedField_repeatedKey
  simp only [List.map_cons, List.cons.injEq] at h
  obtain ⟨parsed, hp, -⟩ := parsedField_eq_some.1 h.1
  obtain ⟨d, l, hs, i, bs, e, ps, hr⟩ := parseResponseInner_eq_ok.1 hp
  have hts := parse_response_eq_some.2 ⟨d, l, hs, i, bs, e, hr.text, rfl⟩
  have hread := (walkers_read_accepted repeatedKey).1 _ hts
  exact ⟨_, hts, hread.standard_ok_iff.1 ⟨parsed, hp⟩, hread.redacted_ok⟩

end TlsnDemo
