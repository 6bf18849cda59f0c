import TlsnDemo.Syntax.Geometry

/-!
# First lines, headers and redacted pairs

The rules of a message that run in the compound-atomic mode, as texts.
Nothing is skipped inside them, so each is a sequence of runs (`RunText`)
and single bytes, and what it matches is determined by the bytes it
matches and the one that stops it.
-/

namespace TlsnDemo

open Peg Grammar

namespace Syntax

variable {s : List UInt8} {a : Atomicity} {i j k : ℕ} {ts us : List Token} {f : UInt8 → Bool}

/-! ## Runs -/

/-- **A maximal run** of a class, not empty. -/
structure RunText (f : UInt8 → Bool) (s : List UInt8) (i j : ℕ) : Prop where
  lt : i < j
  mem : ∀ k, i ≤ k → k < j → ∃ c, s[k]? = some c ∧ f c = true
  stops : Stops f s j

theorem RunText.runEnd_eq (h : RunText f s i j) : runEnd f s i = j :=
  Peg.runEnd_eq h.lt.le h.mem h.stops

theorem RunText.unique (h : RunText f s i j) (h' : RunText f s i k) : j = k :=
  h.runEnd_eq.symm.trans h'.runEnd_eq

theorem rep1_satisfy (ha : a ≠ .nonAtomic) :
    Grammar.rep1 (satisfy f) s a i = some (j, ts) ↔ RunText f s i j ∧ ts = [] := by
  rw [rep1_eq, Peg.rep1, Peg.seq_cons_of_ne ha, seq_singleton, andThen_eq_some]
  constructor
  · rintro ⟨k, us, vs, h1, h2, rfl⟩
    obtain ⟨⟨c, hc, hf⟩, rfl, rfl⟩ := satisfy_eq_some.1 h1
    rw [rep_satisfy ha] at h2
    simp only [Option.some.injEq, Prod.mk.injEq] at h2
    obtain ⟨rfl, rfl⟩ := h2
    have hle := le_runEnd (f := f) (s := s) (i := i + 1)
    refine ⟨⟨by omega, fun k h1 h2 => ?_, fun c hc => runEnd_stops hc⟩, rfl⟩
    rcases Nat.eq_or_lt_of_le h1 with rfl | hlt
    · exact ⟨c, hc, hf⟩
    · exact of_lt_runEnd hlt h2
  · rintro ⟨h, rfl⟩
    obtain ⟨c, hc, hf⟩ := h.mem i le_rfl h.lt
    refine ⟨i + 1, [], [], satisfy_eq_some.2 ⟨⟨c, hc, hf⟩, rfl, rfl⟩, ?_, rfl⟩
    rw [rep_satisfy ha, ← runEnd_of_true hc hf, h.runEnd_eq]

/-! ## The first line -/

/-- `HTTP/` and two numbers. -/
def ProtocolText (s : List UInt8) (i j : ℕ) : Prop :=
  LiteralAt "HTTP/" s i (i + 5) ∧
    ∃ d, RunText isAsciiDigit s (i + 5) d ∧ s[d]? = some 0x2e ∧ RunText isAsciiDigit s (d + 1) j

theorem protocolVersion_eq_some :
    protocolVersion s .compoundAtomic i = some (j, ts) ↔
      ProtocolText s i j ∧ ts = [.node .protocolVersion i j []] := by
  have hdot : str "." = matchString [0x2e] := rfl
  rw [protocolVersion, rule_eq_some (by decide), asciiDigit]
  simp only [seq_cons_of_ne (a := .compoundAtomic) (by decide), seq_one, andThen_eq_some,
    rep1_satisfy (a := .compoundAtomic) (by decide), str_eq_some, hdot, matchString_singleton]
  constructor
  · rintro ⟨us, ⟨k, us', vs, ⟨hlit, rfl⟩, ⟨d, us'', ws, ⟨hd, rfl⟩, ⟨e, _, _, ⟨hdot, rfl, rfl⟩,
      ⟨hj, rfl⟩, rfl⟩, rfl⟩, rfl⟩, rfl⟩
    obtain rfl : k = i + 5 := hlit.2
    exact ⟨⟨hlit, d, hd, hdot, hj⟩, rfl⟩
  · rintro ⟨⟨hlit, d, hd, hdot, hj⟩, rfl⟩
    exact ⟨[], ⟨i + 5, [], [], ⟨hlit, rfl⟩, ⟨d, [], [], ⟨hd, rfl⟩, ⟨d + 1, [], [],
      ⟨hdot, rfl, rfl⟩, ⟨hj, rfl⟩, rfl⟩, rfl⟩, rfl⟩, rfl⟩

/-- **A status line**: `d` is where its protocol version ends. -/
structure StatusLineText (s : List UInt8) (i d j : ℕ) : Prop where
  protocol : ProtocolText s i d
  space : s[d]? = some space
  code : ∀ k, d < k → k < d + 4 → ∃ c, s[k]? = some c ∧ isAsciiDigit c = true
  space' : s[d + 4]? = some Syntax.space
  status : RunText isAsciiAlphaUpper s (d + 5) j

/-- The tokens of a status line. -/
def statusLineTokens (i d j : ℕ) : List Token :=
  [.node .statusLine i j [.node .protocolVersion i d [], .node .statusCode (d + 1) (d + 4) [],
    .node .status (d + 5) j []]]

theorem statusCode_eq_some :
    statusCode s .compoundAtomic i = some (j, ts) ↔
      (∀ k, i ≤ k → k < i + 3 → ∃ c, s[k]? = some c ∧ isAsciiDigit c = true) ∧ j = i + 3 ∧
        ts = [.node .statusCode i j []] := by
  rw [statusCode, rule_eq_some (by decide), asciiDigit]
  simp only [seq_cons_of_ne (a := .compoundAtomic) (by decide), seq_one, andThen_eq_some,
    satisfy_eq_some]
  constructor
  · rintro ⟨us, ⟨_, _, _, ⟨h0, rfl, rfl⟩, ⟨_, _, _, ⟨h1, rfl, rfl⟩, ⟨h2, rfl, rfl⟩, rfl⟩, rfl⟩, rfl⟩
    refine ⟨fun k hk hk' => ?_, rfl, rfl⟩
    obtain rfl | rfl | rfl : k = i ∨ k = i + 1 ∨ k = i + 1 + 1 := by omega
    · exact h0
    · exact h1
    · exact h2
  · rintro ⟨h, rfl, rfl⟩
    exact ⟨[], ⟨_, [], [], ⟨h i (by omega) (by omega), rfl, rfl⟩, ⟨_, [], [],
      ⟨h (i + 1) (by omega) (by omega), rfl, rfl⟩, ⟨h (i + 2) (by omega) (by omega), rfl, rfl⟩,
      rfl⟩, rfl⟩, rfl⟩

theorem statusLine_eq_some :
    statusLine s a i = some (j, ts) ↔
      ∃ d, StatusLineText s i d j ∧ ts = statusLineTokens i d j := by
  rw [statusLine, compound, withAtomicity_apply, rule_eq_some (by decide), str_space, status,
    asciiAlphaUpper]
  simp only [seq_cons_of_ne (a := .compoundAtomic) (by decide), seq_one, andThen_eq_some,
    rep1_satisfy (a := .compoundAtomic) (by decide), matchString_singleton,
    protocolVersion_eq_some, statusCode_eq_some, rule_eq_some (a := .compoundAtomic) (by decide)]
  constructor
  · rintro ⟨us, ⟨d, _, _, ⟨hp, rfl⟩, ⟨_, _, _, ⟨hs, rfl, rfl⟩, ⟨_, _, _, ⟨hc, rfl, rfl⟩,
      ⟨_, _, _, ⟨hs', rfl, rfl⟩, ⟨_, ⟨hst, rfl⟩, rfl⟩, rfl⟩, rfl⟩, rfl⟩, rfl⟩, rfl⟩
    exact ⟨d, ⟨hp, hs, fun k h1 h2 => hc k (by omega) (by omega), hs', hst⟩, rfl⟩
  · rintro ⟨d, h, rfl⟩
    exact ⟨_, ⟨d, _, _, ⟨h.protocol, rfl⟩, ⟨d + 1, [], _, ⟨h.space, rfl, rfl⟩, ⟨d + 1 + 3, _, _,
      ⟨fun k h1 h2 => h.code k (by omega) (by omega), rfl, rfl⟩, ⟨d + 5, [], _,
      ⟨h.space', rfl, rfl⟩, ⟨[], ⟨h.status, rfl⟩, rfl⟩, rfl⟩, rfl⟩, rfl⟩, rfl⟩, rfl⟩

theorem method_eq_some (h : method s .compoundAtomic i = some (j, ts)) :
    i < j ∧ ts = [.node .method i j []] := by
  obtain ⟨us, hin, rfl⟩ := (rule_eq_some (by decide)).1 h
  simp only [choice_cons, orElse_eq_some, choice_nil, str_eq_some] at hin
  have hlit : ∀ t : String, bytes t ≠ [] → LiteralAt t s i j ∧ us = [] → i < j ∧ us = [] := by
    rintro t ht ⟨hl, rfl⟩
    have h1 := List.length_pos_iff.2 ht
    have h2 := hl.2
    exact ⟨by omega, rfl⟩
  obtain ⟨hij, rfl⟩ : i < j ∧ us = [] := by
    rcases hin with h | ⟨-, h | ⟨-, h | ⟨-, h | ⟨-, h | ⟨-, h | ⟨-, h | ⟨-, h⟩⟩⟩⟩⟩⟩⟩
    all_goals first | exact hlit _ (by decide) h | exact absurd h (by simp)
  exact ⟨hij, rfl⟩

/-- **A request line**, as far as its spans go: the method starts it and
the protocol version ends it. -/
theorem requestLine_eq_some (h : requestLine s a i = some (j, ts)) :
    ∃ m u, i < m ∧ m < u ∧ u + 1 < j ∧
      ts = [.node .requestLine i j [.node .method i m [], .node .url (m + 1) u [],
        .node .protocolVersion (u + 1) j []]] := by
  rw [requestLine, compound, withAtomicity_apply, rule_eq_some (by decide), str_space, url,
    urlChar_eq] at h
  simp only [seq_cons_of_ne (a := .compoundAtomic) (by decide), seq_one, andThen_eq_some,
    rep1_satisfy (a := .compoundAtomic) (by decide), matchString_singleton,
    protocolVersion_eq_some, rule_eq_some (a := .compoundAtomic) (by decide)] at h
  obtain ⟨us, ⟨m, _, _, hm, ⟨_, _, _, ⟨-, rfl, rfl⟩, ⟨u, _, _, ⟨_, ⟨hu, rfl⟩, rfl⟩,
    ⟨_, _, _, ⟨-, rfl, rfl⟩, ⟨hp, rfl⟩, rfl⟩, rfl⟩, rfl⟩, rfl⟩, rfl⟩ := h
  obtain ⟨him, rfl⟩ := method_eq_some hm
  obtain ⟨-, d, hd, -, hj⟩ := hp
  have h1 := hu.lt
  have h2 := hd.lt
  have h3 := hj.lt
  exact ⟨m, u, him, by omega, by omega, rfl⟩

/-! ## Headers -/

/-- The end of a line, as `NEWLINE` has it: `\n`, `\r\n` or `\r`. -/
def NewlineText (s : List UInt8) (i j : ℕ) : Prop :=
  s[i]? = some 0x0a ∧ j = i + 1 ∨
    s[i]? = some 0x0d ∧ (s[i + 1]? = some 0x0a ∧ j = i + 2 ∨ s[i + 1]? ≠ some 0x0a ∧ j = i + 1)

theorem newline_eq_some : newline s a i = some (j, ts) ↔ NewlineText s i j ∧ ts = [] := by
  have hn : str "\n" = matchString [0x0a] := rfl
  have hr : str "\r" = matchString [0x0d] := rfl
  have hrn : str "\r\n" = matchString [0x0d, 0x0a] := rfl
  simp only [newline, choice_cons, choice_nil, orElse, hn, hr, hrn, matchString, NewlineText]
  by_cases h1 : s[i]? = some 0x0a
  · simp [h1, eq_comm]
  · by_cases h2 : s[i]? = some 0x0d
    · by_cases h3 : s[i + 1]? = some 0x0a <;> simp [h2, h3, eq_comm]
    · simp [h1, h2]

/-- The token of a header with a value. -/
def headerToken (i n v j : ℕ) : Token :=
  .node .header i j [.node .headerName i n [], .node .headerValue (n + 2) v []]

/-- The token of a header without one. -/
def bareHeaderToken (i n : ℕ) : Token := .node .header i (n + 2) [.node .headerName i n []]

/-- A name and `: `. -/
structure HeaderStart (s : List UInt8) (i n : ℕ) : Prop where
  name : RunText isHeaderNameChar s i n
  colon : s[n]? = some colon
  space : s[n + 1]? = some space

/-- A value and the end of the line. -/
structure HeaderEnd (s : List UInt8) (i v j : ℕ) : Prop where
  value : RunText isHeaderValueChar s i v
  newline : NewlineText s v j

/-- **A header**: a value that its line ends is part of it, and nothing is
where there is no such value. -/
inductive HeaderText (s : List UInt8) (i : ℕ) : ℕ → Token → Prop
  | full {n v j : ℕ} : HeaderStart s i n → HeaderEnd s (n + 2) v j →
      HeaderText s i j (headerToken i n v j)
  | bare {n : ℕ} : HeaderStart s i n → (∀ v j, ¬ HeaderEnd s (n + 2) v j) →
      HeaderText s i (n + 2) (bareHeaderToken i n)

theorem NewlineText.bounds (h : NewlineText s i j) : i < j ∧ j ≤ s.length := by
  rcases h with ⟨h, rfl⟩ | ⟨h, ⟨h', rfl⟩ | ⟨-, rfl⟩⟩
  · exact ⟨by omega, lt_length h⟩
  · exact ⟨by omega, lt_length h'⟩
  · exact ⟨by omega, lt_length h⟩

theorem HeaderText.bounds {t : Token} (h : HeaderText s i j t) : i < j ∧ j ≤ s.length := by
  cases h with
  | full hn hv =>
    have h1 := hn.name.lt
    have h2 := hv.value.lt
    have h3 := hv.newline.bounds
    omega
  | bare hn _ =>
    have h1 := hn.name.lt
    have h2 := lt_length hn.space
    omega

theorem headerEnd_eq_some :
    Grammar.seq [headerValue, newline] s .compoundAtomic i = some (j, ts) ↔
      ∃ v, HeaderEnd s i v j ∧ ts = [.node .headerValue i v []] := by
  rw [headerValue, headerValueChar_eq]
  simp only [seq_cons_of_ne (a := .compoundAtomic) (by decide), seq_one, andThen_eq_some,
    rep1_satisfy (a := .compoundAtomic) (by decide), newline_eq_some,
    rule_eq_some (a := .compoundAtomic) (by decide)]
  constructor
  · rintro ⟨v, _, _, ⟨_, ⟨hv, rfl⟩, rfl⟩, ⟨hn, rfl⟩, rfl⟩
    exact ⟨v, ⟨hv, hn⟩, rfl⟩
  · rintro ⟨v, h, rfl⟩
    exact ⟨v, _, [], ⟨[], ⟨h.value, rfl⟩, rfl⟩, ⟨h.newline, rfl⟩, rfl⟩

theorem colonSpace_eq_some :
    str ": " s a i = some (j, ts) ↔
      s[i]? = some colon ∧ s[i + 1]? = some space ∧ j = i + 2 ∧ ts = [] := by
  have h : str ": " = matchString [colon, space] := rfl
  rw [h, matchString_eq_some]
  constructor
  · rintro ⟨h, rfl, rfl⟩
    exact ⟨h 0 (by decide), h 1 (by decide), rfl, rfl⟩
  · rintro ⟨h0, h1, rfl, rfl⟩
    refine ⟨fun k hk => ?_, rfl, rfl⟩
    obtain rfl | rfl : k = 0 ∨ k = 1 := by simp at hk; omega
    · exact h0
    · exact h1

/-- A header's name, and what may follow it. -/
theorem headerParts_eq_some {p : P} :
    Grammar.seq [headerName, str ": ", Peg.optional p] s .compoundAtomic i = some (j, ts) ↔
      ∃ n us, HeaderStart s i n ∧ Peg.optional p s .compoundAtomic (n + 2) = some (j, us) ∧
        ts = .node .headerName i n [] :: us := by
  rw [headerName, headerNameChar_eq]
  simp only [seq_cons_of_ne (a := .compoundAtomic) (by decide), seq_one, andThen_eq_some,
    rep1_satisfy (a := .compoundAtomic) (by decide), colonSpace_eq_some,
    rule_eq_some (a := .compoundAtomic) (by decide)]
  constructor
  · rintro ⟨n, _, _, ⟨_, ⟨hn, rfl⟩, rfl⟩, ⟨_, _, us, ⟨hc, hs, rfl, rfl⟩, hend, rfl⟩, rfl⟩
    exact ⟨n, _, ⟨hn, hc, hs⟩, hend, rfl⟩
  · rintro ⟨n, us, h, hend, rfl⟩
    exact ⟨n, _, us, ⟨[], ⟨h.name, rfl⟩, rfl⟩, ⟨n + 2, [], us, ⟨h.colon, h.space, rfl, rfl⟩, hend,
      rfl⟩, rfl⟩

theorem header_eq_some :
    header s a i = some (j, ts) ↔ ∃ t, HeaderText s i j t ∧ ts = [t] := by
  rw [header, compound, withAtomicity_apply, rule_eq_some (by decide)]
  simp only [headerParts_eq_some, optional_eq_some, headerEnd_eq_some]
  have hnone : ∀ n, Grammar.seq [headerValue, newline] s .compoundAtomic n = none ↔
      ∀ v j, ¬ HeaderEnd s n v j := by
    intro n
    rw [Option.eq_none_iff_forall_ne_some]
    constructor
    · intro h v j hv
      exact h (j, _) (headerEnd_eq_some.2 ⟨v, hv, rfl⟩)
    · rintro h ⟨j, us⟩ he
      obtain ⟨v, hv, -⟩ := headerEnd_eq_some.1 he
      exact h v j hv
  constructor
  · rintro ⟨_, ⟨n, us, hn, ⟨v, hv, rfl⟩ | ⟨h, rfl, rfl⟩, rfl⟩, rfl⟩
    · exact ⟨_, HeaderText.full hn hv, rfl⟩
    · exact ⟨_, HeaderText.bare hn ((hnone _).1 h), rfl⟩
  · rintro ⟨_, hn | hn, rfl⟩
    · next n v hv => exact ⟨_, ⟨n, _, hn, Or.inl ⟨v, hv, rfl⟩, rfl⟩, rfl⟩
    · next n hv => exact ⟨_, ⟨n, _, hn, Or.inr ⟨(hnone _).2 hv, rfl, rfl⟩, rfl⟩, rfl⟩

theorem progress_header : Progress header := by
  intro s a i j ts h
  obtain ⟨t, ht, -⟩ := header_eq_some.1 h
  exact ht.bounds

/-! ## Redacted pairs -/

/-- A key in quotes, and the colon, with nothing between them. -/
structure KeyColon (s : List UInt8) (i e : ℕ) : Prop where
  opening : s[i]? = some quote
  key : RunText isKeyChar s (i + 1) e
  closing : s[e]? = some quote
  colon : s[e + 1]? = some colon

/-- The token of a redacted pair, given those of its value. -/
def redactedToken (i e j : ℕ) (us : List Token) : Token :=
  .node .pairRedacted i j (.node .key (i + 1) e [] :: us)

/-- **A redacted pair**: the key, and a value where one directly follows
that no colon follows in turn. -/
inductive RedactedText (s : List UInt8) (i : ℕ) : ℕ → Token → Prop
  | full {e j : ℕ} {v : Token} : KeyColon s i e →
      Derives s .compoundAtomic .value (e + 2) j [v] → s[j]? ≠ some colon →
      RedactedText s i j (redactedToken i e j [v])
  | bare {e : ℕ} : KeyColon s i e →
      (∀ j v, Derives s .compoundAtomic .value (e + 2) j [v] → s[j]? = some colon) →
      RedactedText s i (e + 2) (redactedToken i e (e + 2) [])

theorem KeyColon.of_keyText {e : ℕ} (hq : s[i]? = some quote) (hk : KeyText s .compoundAtomic (i + 1) e)
    (hq' : s[e]? = some quote) (hc : s[e + 1]? = some Syntax.colon) : KeyColon s i e := by
  refine ⟨hq, ⟨hk.lt, fun k h1 h2 => ?_, Stops.of_eq hq' (by decide)⟩, hq', hc⟩
  obtain ⟨c, hc, hf⟩ := hk.mem k h1 h2
  exact ⟨c, hc, hf.resolve_right fun hx => absurd hx.1 (by decide)⟩

theorem KeyColon.keyText {e : ℕ} (h : KeyColon s i e) : KeyText s .compoundAtomic (i + 1) e := by
  refine ⟨h.key.mem _ le_rfl h.key.lt, h.key.lt, fun k h1 h2 => ?_, fun h => absurd h (by decide)⟩
  obtain ⟨c, hc, hf⟩ := h.key.mem k h1 h2
  exact ⟨c, hc, Or.inl hf⟩

/-- The value of a redacted pair, if no colon follows it. -/
theorem valueNoColon_eq_some :
    Grammar.seq [value, notFollowedBy (str ":")] s .compoundAtomic i = some (j, ts) ↔
      ∃ v, Derives s .compoundAtomic .value i j [v] ∧ s[j]? ≠ some colon ∧ ts = [v] := by
  rw [seq_cons_of_ne (by decide), seq_one, andThen_eq_some, str_colon]
  have hcolon : ∀ k, (matchString [colon] s .compoundAtomic k : Outcome Rule) = none ↔
      s[k]? ≠ some colon := by
    intro k
    rw [matchString_singleton_eq]
    by_cases h : s[k]? = some colon <;> simp [h]
  simp only [value_eq_some (a := .compoundAtomic) (by decide), notFollowedBy_eq_some, hcolon]
  constructor
  · rintro ⟨k, us, _, hv, ⟨hc, rfl, rfl⟩, rfl⟩
    obtain ⟨v, rfl, -⟩ := hv.value_token
    exact ⟨v, hv, hc, rfl⟩
  · rintro ⟨v, hv, hc, rfl⟩
    exact ⟨j, [v], [], hv, ⟨hc, rfl, rfl⟩, rfl⟩

theorem KeyColon.lt {e : ℕ} (h : KeyColon s i e) : i + 1 < e := h.key.lt

theorem RedactedText.bounds {t : Token} (h : RedactedText s i j t) : i < j ∧ j ≤ s.length := by
  cases h with
  | full hk hv _ =>
    have h1 := hk.lt
    have h2 := hv.lt
    have h3 := (progress_value ((value_eq_some (by decide)).2 hv)).2
    omega
  | bare hk _ =>
    have h1 := hk.lt
    have h2 := lt_length hk.colon
    omega

/-- What a redacted pair has in front of its value. -/
theorem redactedParts_eq_some {p : P} :
    Grammar.seq [quotedKey, str ":", Peg.optional p] s .compoundAtomic i = some (j, ts) ↔
      ∃ e us, KeyColon s i e ∧ Peg.optional p s .compoundAtomic (e + 2) = some (j, us) ∧
        ts = .node .key (i + 1) e [] :: us := by
  simp only [seq_cons_of_ne (a := .compoundAtomic) (by decide), seq_one, andThen_eq_some,
    quotedKey_eq_some (a := .compoundAtomic) (by decide), str_colon, matchString_singleton,
    skip_compoundAtomic]
  constructor
  · rintro ⟨_, _, _, ⟨_, _, e, hq, rfl, hk, rfl, hq', rfl, rfl⟩, ⟨_, _, us, ⟨hc, rfl, rfl⟩, hp, rfl⟩,
      rfl⟩
    exact ⟨_, _, KeyColon.of_keyText hq hk hq' hc, hp, rfl⟩
  · rintro ⟨e, us, h, hp, rfl⟩
    exact ⟨e + 1, _, us, ⟨i + 1, e, e, h.opening, rfl, h.keyText, rfl, h.closing, rfl, rfl⟩,
      ⟨e + 2, [], us, ⟨h.colon, rfl, rfl⟩, hp, rfl⟩, rfl⟩

theorem pairRedacted_eq_some :
    pairRedacted s a i = some (j, ts) ↔ ∃ t, RedactedText s i j t ∧ ts = [t] := by
  rw [pairRedacted, compound, withAtomicity_apply, rule_eq_some (by decide)]
  simp only [redactedParts_eq_some, optional_eq_some, valueNoColon_eq_some]
  have hnone : ∀ n, Grammar.seq [value, notFollowedBy (str ":")] s .compoundAtomic n = none ↔
      ∀ j v, Derives s .compoundAtomic .value n j [v] → s[j]? = some colon := by
    intro n
    rw [Option.eq_none_iff_forall_ne_some]
    constructor
    · intro h j v hv
      by_contra hc
      exact h (j, _) (valueNoColon_eq_some.2 ⟨v, hv, hc, rfl⟩)
    · rintro h ⟨j, us⟩ he
      obtain ⟨v, hv, hc, -⟩ := valueNoColon_eq_some.1 he
      exact hc (h j v hv)
  constructor
  · rintro ⟨_, ⟨e, us, hk, ⟨v, hv, hc, rfl⟩ | ⟨h, rfl, rfl⟩, rfl⟩, rfl⟩
    · exact ⟨_, RedactedText.full hk hv hc, rfl⟩
    · exact ⟨_, RedactedText.bare hk ((hnone _).1 h), rfl⟩
  · rintro ⟨_, hk | hk, rfl⟩
    · next e v hv hc => exact ⟨_, ⟨e, _, hk, Or.inl ⟨v, hv, hc, rfl⟩, rfl⟩, rfl⟩
    · next e hv => exact ⟨_, ⟨e, _, hk, Or.inr ⟨(hnone _).2 hv, rfl, rfl⟩, rfl⟩, rfl⟩

/-- Past a byte, where it stands there. -/
def past (c : UInt8) (s : List UInt8) (i : ℕ) : ℕ := if s[i]? = some c then i + 1 else i

theorem optional_byte {c : UInt8} :
    (Peg.optional (matchString [c]) s a i : Outcome Rule) = some (past c s i, []) := by
  simp only [Peg.optional, matchString_singleton_eq, past]
  by_cases h : s[i]? = some c <;> simp [h]

theorem progress_pairRedacted : Progress pairRedacted := by
  intro s a i j ts h
  obtain ⟨t, ht, -⟩ := pairRedacted_eq_some.1 h
  exact ht.bounds

/-- A further pair, with or without a comma in front of it. -/
def furtherPair : P := Grammar.seq [Peg.optional (str ","), pairRedacted]

theorem furtherPair_eq_some :
    furtherPair s a i = some (j, ts) ↔
      ∃ t, RedactedText s (skip s a (past comma s i)) j t ∧ ts = [t] := by
  rw [furtherPair, seq_eq, str_comma, seq_cons_eq_some, seq_singleton]
  simp only [optional_byte, pairRedacted_eq_some, Option.some.injEq, Prod.mk.injEq]
  constructor
  · rintro ⟨_, _, _, ⟨rfl, rfl⟩, ⟨t, ht, rfl⟩, rfl⟩
    exact ⟨t, ht, rfl⟩
  · rintro ⟨t, ht, rfl⟩
    exact ⟨_, [], [t], ⟨rfl, rfl⟩, ⟨t, ht, rfl⟩, rfl⟩

/-- **A redacted body**: an opening brace or none, a pair, further pairs,
and a closing brace or none. -/
structure RedactedBodyText (s : List UInt8) (i j : ℕ) (t : Token) (us : List Token) (k l : ℕ) :
    Prop where
  first : RedactedText s (skip s .nonAtomic (past openBrace s i)) k t
  further : Chain (next (satisfy isWhitespace) furtherPair) s .nonAtomic k l us
  stop : j = past closeBrace s (skip s .nonAtomic l)

theorem progress_furtherPair : Progress furtherPair := by
  rw [furtherPair]
  exact Progress.seq_after progress_whitespace (Stays.optional Stays.matchString)
    (Progress.seq progress_whitespace progress_pairRedacted (by simp))

theorem bodyRedacted_eq_some :
    bodyRedacted s .nonAtomic i = some (j, ts) ↔
      ∃ t us k l, RedactedBodyText s i j t us k l ∧ ts = t :: us := by
  rw [bodyRedacted, ← furtherPair, seq_eq, seq_cons_eq_some, str_openBrace, str_closeBrace, rep_eq]
  simp only [optional_byte, list_eq_some progress_furtherPair, pairRedacted_eq_some,
    Option.some.injEq, Prod.mk.injEq]
  constructor
  · rintro ⟨_, _, _, ⟨rfl, rfl⟩, ⟨k, l, _, us, _, ⟨t, ht, rfl⟩, hc, ⟨rfl, rfl⟩, rfl⟩, rfl⟩
    exact ⟨t, us, k, l, ⟨ht, hc, rfl⟩, by simp⟩
  · rintro ⟨t, us, k, l, h, rfl⟩
    exact ⟨_, [], t :: us, ⟨rfl, rfl⟩, ⟨k, l, [t], us, [], ⟨t, h.first, rfl⟩, h.further,
      ⟨h.stop.symm, rfl⟩, by simp⟩, rfl⟩

/-! ## Bodies -/

/-- A chunk size: hexadecimal digits, perhaps with whitespace among them. -/
def ChunkSize (s : List UInt8) (i j : ℕ) : Prop :=
  Grammar.rep1 asciiHexDigit s .nonAtomic i = some (j, [])

theorem chunkSize_eq_some :
    chunkSize s .nonAtomic i = some (j, ts) ↔ ChunkSize s i j ∧ ts = [] := by
  constructor
  swap
  · rintro ⟨h, rfl⟩
    exact h
  intro h
  have hts : ts = [] := by
    rw [chunkSize, rep1_eq, Peg.rep1] at h
    obtain ⟨k, us, vs, h1, h2, rfl⟩ := seq_cons_eq_some.1 h
    obtain ⟨-, rfl, rfl⟩ := satisfy_eq_some.1 h1
    rw [seq_singleton, skipTo_nonAtomic] at h2
    obtain ⟨-, rfl⟩ := (rep_satisfy_nonAtomic fun c hc => runEnd_stops hc).1 h2
    rfl
  subst hts
  exact ⟨h, rfl⟩

/-- **A chunked body**: a size, a document and a zero. -/
structure ChunkedText (s : List UInt8) (i j : ℕ) (ts : List Token) (k l : ℕ) : Prop where
  size : ChunkSize s i k
  json : Derives s .nonAtomic .value (skip s .nonAtomic k) l ts
  opening : ∃ b : Bracket, s[skip s .nonAtomic k]? = some b.opening
  zero : s[skip s .nonAtomic l]? = some 0x30
  stop : j = skip s .nonAtomic l + 1

theorem chunkedBody_eq_some :
    chunkedBody s .nonAtomic i = some (j, ts) ↔ ∃ k l, ChunkedText s i j ts k l := by
  have hzero : str "0" = matchString [0x30] := rfl
  rw [chunkedBody, seq_eq, hzero, seq_cons_eq_some]
  simp only [seq_cons_eq_some, seq_singleton, chunkSize_eq_some,
    json_eq_some (a := .nonAtomic) (by decide), matchString_singleton]
  constructor
  · rintro ⟨k, _, _, ⟨hk, rfl⟩, ⟨l, us, _, ⟨hd, hb⟩, ⟨hz, rfl, rfl⟩, rfl⟩, rfl⟩
    exact ⟨k, l, hk, by simpa using hd, hb, hz, rfl⟩
  · rintro ⟨k, l, h⟩
    exact ⟨k, [], ts, ⟨h.size, rfl⟩, ⟨l, ts, [], ⟨h.json, h.opening⟩, ⟨h.zero, h.stop, rfl⟩,
      by simp⟩, rfl⟩

theorem body_eq_some :
    body s a i = some (j, ts) ↔ chunkedBody s a i = some (j, ts) ∨
      chunkedBody s a i = none ∧ (json s a i = some (j, ts) ∨
        json s a i = none ∧ bodyRedacted s a i = some (j, ts)) := by
  rw [body, choice_cons, orElse_eq_some, choice_cons, orElse_eq_some, choice_nil, bodyFull,
    choice_cons, orElse_eq_some, choice_cons, orElse_eq_some, choice_nil, orElse_eq_none,
    orElse_eq_none, contentLengthBody]
  simp only [reduceCtorEq, and_false, or_false]
  tauto

/-! ## Messages -/

/-- **The layout of a message**: its first line ends at `l`, its headers
at `h` and its body at `e`. -/
structure MessageText (line : P) (s : List UInt8) (first : List Token) (l : ℕ) (hs : List Token)
    (h : ℕ) (bs : List Token) (e : ℕ) : Prop where
  line : line s .nonAtomic (skip s .nonAtomic 0) = some (l, first)
  headers : Chain (next (satisfy isWhitespace) header) s .nonAtomic l h hs
  body : Peg.optional body s .nonAtomic (skip s .nonAtomic h) = some (e, bs)
  stop : s.length ≤ skip s .nonAtomic e

/-- Where the headers token stops: past the whitespace if there are none. -/
def headersStop (s : List UInt8) (l h : ℕ) : ℕ := if h = l then skip s .nonAtomic l else h

/-- The tokens of a message. -/
def messageTokens (s : List UInt8) (first : List Token) (l : ℕ) (hs : List Token) (h : ℕ)
    (bs : List Token) (e : ℕ) : List Token :=
  first ++ (.node .headers (skip s .nonAtomic l) (headersStop s l h) hs ::
    (bs ++ [.node .eoi (skip s .nonAtomic e) (skip s .nonAtomic e) []]))

theorem eoi_eq_some :
    eoi s .nonAtomic i = some (j, ts) ↔ s.length ≤ i ∧ j = i ∧ ts = [.node .eoi i i []] := by
  rw [eoi, rule_eq_some (by decide)]
  constructor
  · rintro ⟨us, h, rfl⟩
    obtain ⟨hle, rfl, rfl⟩ := endOfInput_eq_some.1 h
    exact ⟨hle, rfl, rfl⟩
  · rintro ⟨hle, rfl, rfl⟩
    exact ⟨[], endOfInput_eq_some.2 ⟨hle, rfl, rfl⟩, rfl⟩

theorem eq_headersStop {l h : ℕ}
    (hrep : Peg.rep (satisfy isWhitespace) header s .nonAtomic (skip s .nonAtomic l) = some (k, ts))
    (hk : k = h ∨ h = l ∧ k = skip s .nonAtomic l) : k = headersStop s l h := by
  rw [← rep_eq] at hrep
  have hge := (Stays.rep progress_whitespace progress_header hrep).1
  have hle : l ≤ skip s .nonAtomic l := le_skipTo
  rw [headersStop]
  split <;> omega

/-- **A message is read by its layout.** -/
theorem message_eq_some {line : P} :
    parse (Grammar.seq [startOfInput, line, headers, Peg.optional Grammar.body, eoi]) s = some ts ↔
      ∃ first l hs h bs e, MessageText line s first l hs h bs e ∧
        ts = messageTokens s first l hs h bs e := by
  rw [parse, Option.map_eq_some_iff, seq_eq, headers, rep_eq]
  constructor
  · rintro ⟨⟨x, us⟩, h0, rfl⟩
    obtain ⟨_, _, _, hsoi, h1, rfl⟩ := seq_cons_eq_some.1 h0
    obtain ⟨-, rfl, rfl⟩ := startOfInput_eq_some.1 hsoi
    obtain ⟨l, first, _, hl, h2, rfl⟩ := seq_cons_eq_some.1 h1
    obtain ⟨k, _, _, hr, h3, rfl⟩ := seq_cons_eq_some.1 h2
    obtain ⟨hs, hrep, rfl⟩ := (rule_eq_some (by decide)).1 hr
    obtain ⟨h, hc, hk⟩ := exists_chain_of_rep progress_header hrep
    obtain ⟨e, bs, _, hb, he, rfl⟩ := seq_cons_eq_some.1 h3
    rw [skipTo_eq_of_rep hk] at hb
    rw [seq_singleton] at he
    obtain ⟨hle, -, rfl⟩ := eoi_eq_some.1 he
    refine ⟨first, l, hs, h, bs, e, ⟨hl, hc, hb, hle⟩, ?_⟩
    rw [messageTokens, ← eq_headersStop hrep hk]
    rfl
  · rintro ⟨first, l, hs, h, bs, e, ht, rfl⟩
    have hsoi : (startOfInput s .nonAtomic 0 : Outcome Rule) = some (0, []) := rfl
    have heoi := eoi_eq_some.2 ⟨ht.stop, rfl, rfl⟩
    obtain ⟨k, hrep, hk⟩ := rep_skipTo progress_header ht.headers
    have hb := ht.body
    rw [skip, ← skipTo_eq_of_rep hk] at hb
    refine ⟨_, seq_cons_of_eq_some hsoi (seq_cons_of_eq_some ht.line (seq_cons_of_eq_some
      ((rule_eq_some (by decide)).2 ⟨hs, hrep, rfl⟩) (seq_cons_of_eq_some hb heoi))), ?_⟩
    rw [messageTokens, ← eq_headersStop hrep hk]
    rfl

end Syntax

end TlsnDemo
