import TlsnDemo.Properties.Completeness
import TlsnDemo.Reading.Headers
import TlsnDemo.Reading.Revealed

/-!
# Fields and the blank line

The grammar does not mark where the headers end, so a transcript that
hides the start of a header line may show the verifier a pair in its value.
A pair is solid, and a line ends with a byte that is not: so a field is
read from behind the blank line, or from the value of one header line, and
then not all of this line is shown.
-/

namespace TlsnDemo

open Peg Support Syntax

variable {s : List UInt8} {shown : ℕ → Bool} {i j k x y l h B : ℕ} {t line : Token}
  {hs rest : List Token}

/-- **The end of a header section**: every line ends in front of it, and
behind the last of them comes only whitespace, the blank line with it. -/
structure HeaderSectionEnd (s : List UInt8) (line : Token) (hs : List Token) (B : ℕ) : Prop where
  startLine : line.stop ≤ B
  lines : ∀ t ∈ hs, t.stop ≤ B
  blank : ∀ k, line.stop ≤ k → (∀ t ∈ hs, t.stop ≤ k) → k < B →
    ∃ c, s[k]? = some c ∧ isWhitespace c = true

/-- **Where a field is read from**: behind a position, or from within the
value of one header line, which is not shown whole, from its name to the byte
behind its value. -/
inductive FieldOrigin (shown : ℕ → Bool) (hs : List Token) (B : ℕ) (key : Range)
    (value : Option Range) : Prop
  | body : B ≤ key.start → (∀ v ∈ value, B ≤ v.start) → FieldOrigin shown hs B key value
  | header {t name valuePair : Token} : t ∈ hs → t.intoInner = [name, valuePair] →
      ¬ ShownLine shown t.start valuePair.stop →
      key.Within (extractRange valuePair) → (∀ v ∈ value, v.Within (extractRange valuePair)) →
      FieldOrigin shown hs B key value

/-- The byte that ends a line is not solid. -/
theorem Syntax.NewlineText.not_solid {c : UInt8} (h : NewlineText s i j) (hc : s[i]? = some c) :
    isSolid c = false := by
  rcases h with ⟨hn, -⟩ | ⟨hr, -⟩
  · rw [hn, Option.some.injEq] at hc
    rw [← hc]
    decide
  · rw [hr, Option.some.injEq] at hc
    rw [← hc]
    decide

/-- **A solid stretch that starts with a quote** lies behind the blank line
or within the value of one header line. -/
theorem solid_origin {d : ℕ} (hst : StatusLineText s (skip s .nonAtomic 0) d l)
    (hc : HeaderChain s l h hs) (hline : line.stop = l) (hB : HeaderSectionEnd s line hs B)
    (hq : s[x]? = some quote) (hsolid : AllIn isSolid s x y) :
    B ≤ x ∨ ∃ t ∈ hs, ∃ n v, t = headerToken t.start n v t.stop ∧ n + 2 ≤ x ∧ y ≤ v := by
  by_contra hno
  simp only [not_or, not_le] at hno
  obtain ⟨hxB, hno⟩ := hno
  have hnw : ∀ {c}, s[x]? = some c → isWhitespace c = false := by
    intro c hc
    rw [hq, Option.some.injEq] at hc
    rw [← hc]
    decide
  have hl : l ≤ x := by
    by_contra hlt
    rcases Nat.lt_or_ge x (skip s .nonAtomic 0) with h0 | h0
    · obtain ⟨c, hc, hw⟩ := of_lt_skipTo (Nat.zero_le x) h0
      rw [hnw hc] at hw
      exact absurd hw (by simp)
    · obtain ⟨c, hc, hf⟩ := hst.allIn x h0 (by omega)
      rw [hq, Option.some.injEq] at hc
      exact (statusLineChar_not hf).2 hc.symm
  have hmem : ∃ t ∈ hs, t.start ≤ x ∧ x < t.stop := by
    rcases Nat.lt_or_ge x h with hlt | hge
    · rcases HeaderChain.cover hc hl hlt with ⟨c, hc, hw⟩ | hmem
      · rw [hnw hc] at hw
        exact absurd hw (by simp)
      · exact hmem
    · obtain ⟨c, hc, hw⟩ := hB.blank x (by omega)
        (fun t ht => (HeaderChain.mem hc ht).2.2.trans hge) hxB
      rw [hnw hc] at hw
      exact absurd hw (by simp)
  obtain ⟨t, ht, h1, h2⟩ := hmem
  obtain ⟨n, v, htok, h3, h4, hnl⟩ := (HeaderChain.mem hc ht).1.quote_in_value hq h1 h2
  refine hno ⟨t, ht, n, v, htok, h3, ?_⟩
  by_contra hyv
  obtain ⟨c, hc, hs⟩ := hsolid v (by omega) (by omega)
  rw [hnl.not_solid hc] at hs
  exact absurd hs (by simp)

/-- A line that is shown whole is a line of the view. -/
theorem headerEnd_of_shown {n w z : ℕ} (he : HeaderEnd s (n + 2) w z)
    (hag : Agree s (redact s shown) (n + 2) (w + 1)) : ∃ m, HeaderEnd (redact s shown) (n + 2) w m := by
  have hvalue := he.value.agree hag
  have hw := he.value.lt
  rcases he.newline with ⟨hn, -⟩ | ⟨hr, -⟩
  · exact ⟨w + 1, hvalue, Or.inl ⟨hag.get hn hw.le (Nat.lt_succ_self w), rfl⟩⟩
  · have hr' := hag.get hr hw.le (Nat.lt_succ_self w)
    by_cases hnext : (redact s shown)[w + 1]? = some 0x0a
    · exact ⟨w + 2, hvalue, Or.inr ⟨hr', Or.inl ⟨hnext, rfl⟩⟩⟩
    · exact ⟨w + 1, hvalue, Or.inr ⟨hr', Or.inr ⟨hnext, rfl⟩⟩⟩

/-- A pair does not go from in front of a header line into it: it would start
behind the blank line, or in the value of a line in front of this one. -/
theorem no_pair_into_line {d n w z : ℕ} (hst : StatusLineText s (skip s .nonAtomic 0) d l)
    (hc : HeaderChain s l h hs) (hline : line.stop = l) (hB : HeaderSectionEnd s line hs B)
    (ht : headerToken j n w z ∈ hs) (hq : s[x]? = some quote) (hsolid : AllIn isSolid s x y)
    (hxj : x < j) : y ≤ j := by
  by_contra hjy
  obtain ⟨htext, -, -⟩ := HeaderChain.mem hc ht
  have hjz : j < z := htext.bounds.1
  rcases solid_origin hst hc hline hB hq hsolid with hbody | ⟨t', ht', n', v', htok, hn', hv'⟩
  · have hz : z ≤ B := hB.lines _ ht
    omega
  · obtain ⟨htext', -, -⟩ := HeaderChain.mem hc ht'
    rw [htok] at htext'
    obtain ⟨-, -, hs', he'⟩ := htext'.parts
    have hname := hs'.name.lt
    have hend := he'.newline.bounds.1
    -- the line that the pair is in is this line, or lies apart from it
    rcases HeaderChain.apart hc ht ht' with heq | hafter | hbefore
    · have hstart : t'.start = j := by rw [← heq]; rfl
      omega
    · have hz : z ≤ t'.start := hafter
      omega
    · have hstop : t'.stop ≤ j := hbefore
      omega

/-- Neither a header nor a redacted body starts at a colon. -/
theorem not_colon_of_body {e k m : ℕ} {u : Token} {us : List Token} (hc : HeaderChain s l h hs)
    (hb : RedactedBodyText s (skip s .nonAtomic h) e u us k m) : s[l]? ≠ some colon := by
  intro hcolon
  have hskip := skip_self (a := .nonAtomic) hcolon (by decide)
  cases hc with
  | stop _ =>
    rw [hskip] at hb
    rcases hb.opening hcolon (by decide) with h | h <;> exact absurd h (by decide)
  | step hm _ =>
    obtain ⟨v, hv, -⟩ := header_eq_some.1 (next_eq_some.1 hm)
    rw [← Syntax.skip, hskip] at hv
    obtain ⟨n, hstart⟩ := hv.exists_start
    obtain ⟨c, hc, hf⟩ := hstart.name.mem l le_rfl hstart.name.lt
    rw [hcolon, Option.some.injEq] at hc
    rw [← hc] at hf
    exact absurd hf (by decide)

/-- **No pair is read from a line that is shown whole.** The headers of the
view would go past the line, or else stop in front of it, and no pair of the
body takes in the first byte of its name. -/
theorem not_shownLine {d d' l' h' e m n w z : ℕ} {hs' us : List Token} {u : Token}
    (hst : StatusLineText s (skip s .nonAtomic 0) d l) (hc : HeaderChain s l h hs)
    (hline : line.stop = l) (hB : HeaderSectionEnd s line hs B)
    (hst' : StatusLineText (redact s shown) (skip (redact s shown) .nonAtomic 0) d' l')
    (hc' : HeaderChain (redact s shown) l' h' hs')
    (hb : RedactedBodyText (redact s shown) (skip (redact s shown) .nonAtomic h') e u us k m)
    (ht : headerToken j n w z ∈ hs) (hjx : j ≤ x) (hxw : x < w) (hxe : x < e)
    (hle : skip (redact s shown) .nonAtomic h' ≤ x) : ¬ ShownLine shown j w := by
  intro hshown
  obtain ⟨htext, -, -⟩ := HeaderChain.mem hc ht
  obtain ⟨-, -, hs, he⟩ := htext.parts
  have hjn := hs.name.lt
  have hnw := he.value.lt
  -- the line is a line of the view too
  have hag : Agree s (redact s shown) j (w + 1) := fun k h1 h2 =>
    (getElem?_redact_of_shown (hshown k h1 (by omega))).symm
  have hstart : HeaderStart (redact s shown) j n := hs.agree (hag.mono le_rfl (by omega))
  obtain ⟨z', hend⟩ := headerEnd_of_shown he (hag.mono (by omega) le_rfl)
  obtain ⟨c, hcj, hname⟩ := hstart.name.mem j le_rfl hjn
  have hvisible : isWhitespace c = false := not_whitespace_of_class (by decide) (by decide) hname
  have hhx : h' ≤ skip (redact s shown) .nonAtomic h' := le_skipTo
  -- the first line of the view has no colon in it, and nothing goes on at one
  have hfirst : skip (redact s shown) .nonAtomic 0 ≤ j := Syntax.skip_le (Nat.zero_le j) hcj hvisible
  have hln : l' ≤ n := by
    by_contra hlt
    obtain ⟨c', hc', hf⟩ := hst'.allIn n (by omega) (by omega)
    rw [hstart.colon, Option.some.injEq] at hc'
    rw [← hc'] at hf
    exact absurd hf (by decide)
  have hlt : l' < n := by
    refine lt_of_le_of_ne hln fun heq => ?_
    subst heq
    exact not_colon_of_body hc' hb hstart.colon
  -- so its headers end in front of the line, and its body covers the name
  have hhj : h' ≤ j := (hc'.past_line hstart hend hlt).resolve_right (by omega)
  have hskip : skip (redact s shown) .nonAtomic h' ≤ j := Syntax.skip_le hhj hcj hvisible
  rcases hb.cover hskip (by omega) hcj with hw | hpunct | ⟨b, y, v, -, hred, hbj, hjy⟩
  · rw [hvisible] at hw
    exact absurd hw (by simp)
  · simp only [List.mem_cons, List.not_mem_nil, or_false] at hpunct
    rcases hpunct with rfl | rfl | rfl <;> exact absurd hname (by decide)
  · have hag' := agree_redact hred.solid
    obtain ⟨q, ws, -, hk, -⟩ := hred.token
    have hopening := hk.opening
    rcases Nat.eq_or_lt_of_le hbj with rfl | hlt
    · -- a name does not start with a quote
      rw [hcj, Option.some.injEq] at hopening
      rw [hopening] at hname
      exact absurd hname (by decide)
    · have hyj : y ≤ j := no_pair_into_line hst hc hline hB ht
        (hag'.get hopening le_rfl (by omega)) (hag'.allIn hred.solid) hlt
      omega

section

variable [ToLowercase] {r : RedactedResponse} {p : String} {field : RedactedBody} {a b : ℕ}

/-- **Every field is read from behind the blank line or from within one
header value**, of a line that is not shown whole, whatever positions are
revealed. -/
theorem redacted_field_origin
    (hR : Grammar.parse Grammar.response s = some (line :: .node .headers a b hs :: rest))
    (hB : HeaderSectionEnd s line hs B)
    (hr : parseRedactedResponse (redact s shown) = .ok r) (hf : r.body.lookup p = some field) :
    ∃ key value, field = .keyValue key value ∧ FieldOrigin shown hs B key value := by
  obtain ⟨d, l, hs', h, bs, e, htext, htokens⟩ := parse_response_eq_some.1 hR
  simp only [messageTokens, statusLineTokens, List.cons_append, List.nil_append, List.cons.injEq,
    Pair.node.injEq] at htokens
  obtain ⟨rfl, ⟨-, -, -, rfl⟩, -⟩ := htokens
  obtain ⟨d', l', hs', h', bs', e', ps, t, us, k, m, hread, rfl, ht, u, hu, -, rfl⟩ :=
    redacted_of_lookup hr hf
  obtain ⟨x, y, hlex, hye, hred⟩ := ht.mem hu
  have hsolid := hred.solid
  have hag := agree_redact hsolid
  have hxy := hred.bounds.1
  obtain ⟨q, us, rfl, hk, -⟩ := hred.token
  have horigin := solid_origin htext.status htext.message.headers rfl hB
    (hag.get hk.opening le_rfl hxy) (hag.allIn hsolid)
  -- the spans of the pair lie between its first and its last byte
  obtain ⟨value, hfield, hkey, hvalue⟩ : ∃ value, redactedField (redactedToken x q y us) =
      .keyValue ⟨x + 1, q⟩ value ∧ q ≤ y ∧ ∀ v ∈ value, x ≤ v.start ∧ v.stop ≤ y := by
    have hlt := hk.lt
    cases hred with
    | full _ hv _ =>
      have hb := hv.bounds Occurs.head
      refine ⟨_, rfl, by have := hv.lt; omega, fun v hmem => ?_⟩
      simp only [List.head?_cons, Option.map_some, Option.mem_def, Option.some.injEq] at hmem
      subst hmem
      exact ⟨by simp only [extractRange]; omega, hb.2.2⟩
    | bare _ _ => exact ⟨none, rfl, by omega, fun v hmem => by simp at hmem⟩
  refine ⟨_, value, hfield, ?_⟩
  rcases horigin with hbody | ⟨t, htmem, n, v, htok, hn, hv⟩
  · exact FieldOrigin.body (by simp only; omega) fun w hw => hbody.trans (hvalue w hw).1
  · obtain ⟨htext', -, -⟩ := HeaderChain.mem htext.message.headers htmem
    rw [htok] at htext' htmem
    have hname := htext'.parts.2.2.1.name.lt
    have hline : ¬ ShownLine shown t.start v :=
      not_shownLine htext.status htext.message.headers rfl hB hread.text.status
        hread.text.message.headers ht htmem (by omega) (by omega) (by omega) hlex
    refine FieldOrigin.header htmem rfl hline ⟨?_, ?_⟩ fun w hw => ?_
    · simp only [extractRange, Pair.start_node]
      omega
    · simp only [extractRange, Pair.stop_node]
      omega
    · have := hvalue w hw
      exact ⟨by simp only [extractRange, Pair.start_node]; omega,
        by simp only [extractRange, Pair.stop_node]; omega⟩

end

/-- A response whose header value reads like a member. -/
def quotedHeader : List UInt8 := bytes "HTTP/1.1 200 OK\nx: \"CHF\":5\n\n\x7b\x7d"

/-- Its status line, and the header value. -/
def headerValueShown (k : ℕ) : Bool := k < 15 || (19 ≤ k && k < 26)

/-- Where the first line and the header lines stop. -/
def lineStops : Option (List Token) → Option (ℕ × List ℕ)
  | some (line :: headers :: _) => some (line.stop, headers.intoInner.map Pair.stop)
  | _ => none

theorem lineStops_quotedHeader :
    lineStops (Grammar.parse Grammar.response quotedHeader) = some (15, [27]) := by
  decide +kernel

theorem redactedFieldOf_quotedHeader :
    @redactedFieldOf asciiLowercase (redact quotedHeader headerValueShown) ".CHF" =
      some (.keyValue ⟨20, 23⟩ (some ⟨25, 26⟩)) := by
  decide +kernel

/-- The header section of that response ends with its blank line. -/
theorem exists_headerSectionEnd_quotedHeader :
    ∃ line a b hs rest,
      Grammar.parse Grammar.response quotedHeader = some (line :: .node .headers a b hs :: rest) ∧
      HeaderSectionEnd quotedHeader line hs 28 := by
  have hstops := lineStops_quotedHeader
  cases hp : Grammar.parse Grammar.response quotedHeader with
  | none =>
    rw [hp] at hstops
    exact absurd hstops (by simp [lineStops])
  | some ts =>
    obtain ⟨d, l, hs, h, bs, e, htext, rfl⟩ := parse_response_eq_some.1 hp
    rw [hp] at hstops
    simp only [lineStops, messageTokens, statusLineTokens, List.cons_append, List.nil_append,
      Pair.stop_node, Pair.intoInner_node, Option.some.injEq, Prod.mk.injEq] at hstops
    obtain ⟨rfl, hstops⟩ := hstops
    have hmem : ∀ t ∈ hs, t.stop = 27 := fun t ht => by
      have := List.mem_map_of_mem (f := Pair.stop) ht
      rw [hstops] at this
      simpa using this
    obtain ⟨t, ht⟩ : ∃ t, t ∈ hs := by
      cases hs with
      | nil => simp at hstops
      | cons t _ => exact ⟨t, List.mem_cons_self⟩
    refine ⟨_, _, _, hs, _, rfl, by simp, fun t ht => by rw [hmem t ht]; omega, fun k _ hk hlt => ?_⟩
    have h27 := hk t ht
    rw [hmem t ht] at h27
    obtain rfl : k = 27 := by omega
    exact ⟨0x0a, rfl, by decide⟩

/-- The field that is read there comes from the header value. -/
theorem redacted_field_origin_quotedHeader :
    ∃ line a b hs rest,
      Grammar.parse Grammar.response quotedHeader = some (line :: .node .headers a b hs :: rest) ∧
      HeaderSectionEnd quotedHeader line hs 28 ∧
      ∃ key value, Body.keyValue ⟨20, 23⟩ (some ⟨25, 26⟩) = .keyValue key value ∧
        FieldOrigin headerValueShown hs 28 key value := by
  obtain ⟨line, a, b, hs, rest, hR, hB⟩ := exists_headerSectionEnd_quotedHeader
  obtain ⟨r, hr, hf⟩ :=
    (@redactedFieldOf_eq_some _ asciiLowercase _ _).1 redactedFieldOf_quotedHeader
  exact ⟨line, a, b, hs, rest, hR, hB,
    @redacted_field_origin _ _ _ _ _ _ asciiLowercase _ _ _ _ _ hR hB hr hf⟩

/-- So not every field is read from behind the blank line. -/
theorem not_forall_behind_blank_line :
    ¬ ∀ (_ : ToLowercase) (s : List UInt8) (shown : ℕ → Bool) (line : Token) (a b : ℕ)
      (hs rest : List Token) (B : ℕ) (parsed : StandardResponse) (r : RedactedResponse) (p : String)
      (key : Range) (value : Option Range), parseStandardResponse s = .ok parsed →
      Grammar.parse Grammar.response s = some (line :: .node .headers a b hs :: rest) →
      HeaderSectionEnd s line hs B → parseRedactedResponse (redact s shown) = .ok r →
      r.body.lookup p = some (.keyValue key value) →
      B ≤ key.start ∧ ∀ v ∈ value, B ≤ v.start := by
  intro hall
  obtain ⟨line, a, b, hs, rest, hR, hB⟩ := exists_headerSectionEnd_quotedHeader
  obtain ⟨r, hr, hf⟩ :=
    (@redactedFieldOf_eq_some _ asciiLowercase _ _).1 redactedFieldOf_quotedHeader
  have hroot : @parsedField asciiLowercase quotedHeader "" = some (.value ⟨28, 30⟩) := by
    decide +kernel
  obtain ⟨parsed, hp, -⟩ := (@parsedField_eq_some _ asciiLowercase _ _).1 hroot
  have hbehind := hall asciiLowercase _ _ _ _ _ _ _ _ _ _ _ _ _ hp hR hB hr hf
  exact absurd hbehind.1 (by decide)

end TlsnDemo
