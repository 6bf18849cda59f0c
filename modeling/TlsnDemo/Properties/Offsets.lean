import TlsnDemo.Reading.Documents
import TlsnDemo.Reveal

/-!
# The offsets of a key-value entry

The ranges revealed for an entry are its spans, moved by one or two bytes
to take in a quote or the colon. Whether they do depends on the whitespace
the grammar admits between a quote and the span inside it and in front of
the colon: the offsets are right exactly where there is none.
-/

namespace TlsnDemo

open Peg Syntax

variable {s : List UInt8} {i j o q c : ℕ} {key value : Range}

/-- Only whitespace stands from `i` up to `j`. -/
def Blank (s : List UInt8) (i j : ℕ) : Prop :=
  ∀ k, i ≤ k → k < j → ∃ c, s[k]? = some c ∧ isWhitespace c = true

theorem blank_skip {a : Atomicity} (h : j = skip s a i) : Blank s i j := fun _ h1 h2 =>
  of_lt_skipTo h1 (h ▸ h2)

/-- A byte that is no whitespace bounds a blank stretch. -/
theorem Blank.le {k : ℕ} {d : UInt8} (h : Blank s i j) (hi : i ≤ k) (hd : s[k]? = some d)
    (hw : isWhitespace d = false) : j ≤ k := by
  by_contra hlt
  obtain ⟨c, hc, hcw⟩ := h k hi (by omega)
  rw [hd, Option.some.injEq] at hc
  rw [← hc, hw] at hcw
  exact absurd hcw (by simp)

/-- **A stretch in quotes**: `v` and `w` are the quotes, and only
whitespace comes between them and the range. -/
structure InQuotes (s : List UInt8) (range : Range) (v w : ℕ) : Prop where
  opening : s[v]? = some quote
  lt : v < range.start
  blank : Blank s (v + 1) range.start
  closing : s[w]? = some quote
  le : range.stop ≤ w
  blank' : Blank s range.stop w

/-- **The punctuation of a member**: the quotes of its key and the colon. -/
structure Punctuation (s : List UInt8) (key : Range) (o q c : ℕ) : Prop where
  quotes : InQuotes s key o q
  colon : s[c]? = some colon
  lt : q < c
  blank : Blank s (q + 1) c

/-- **What the offsets are for**: the key with its quotes and the colon,
and the pair up to the end of its value, a string's closing quote included. -/
structure OffsetsExact (s : List UInt8) (key value : Range) (o c : ℕ) : Prop where
  keyWithColon : key.withQuotesAndColon = ⟨o, c + 1⟩
  quoted : ∀ v w, InQuotes s value v w → key.fullPairQuoted value = ⟨o, w + 1⟩
  unquoted : (∀ v w, ¬ InQuotes s value v w) → key.fullPairUnquoted value = ⟨o, value.stop⟩

/-- **Nothing in between**: the quotes touch the key and the colon touches
the closing quote, and so does a string's closing quote the string. -/
structure Touching (s : List UInt8) (key value : Range) : Prop where
  opening : s[key.start - 1]? = some quote
  colon : s[key.stop + 1]? = some colon
  closing : ∀ v w, InQuotes s value v w → s[value.stop]? = some quote

theorem Punctuation.exact_iff (h : Punctuation s key o q c) :
    OffsetsExact s key value o c ↔ Touching s key value := by
  have hlt := h.quotes.lt
  have hle := h.quotes.le
  have hqc := h.lt
  constructor
  · intro he
    have hk := he.keyWithColon
    simp only [Range.withQuotesAndColon, Range.adjust, Range.mk.injEq] at hk
    obtain ⟨h1, h2⟩ := hk
    obtain rfl : o = key.start - 1 := by omega
    refine ⟨h.quotes.opening, ?_, fun v w hv => ?_⟩
    · obtain rfl : c = key.stop + 1 := by omega
      exact h.colon
    · have hq := he.quoted v w hv
      simp only [Range.fullPairQuoted, Range.extendTo, Range.mk.injEq] at hq
      obtain rfl : w = value.stop := by omega
      exact hv.closing
  · intro ht
    have h1 : key.start - 1 = o := by
      by_contra hne
      have := (h.quotes.blank).le (k := key.start - 1) (by omega) ht.opening (by decide)
      omega
    have h2 : c = key.stop + 1 := by
      have hle' : c ≤ key.stop + 1 := by
        rcases Nat.eq_or_lt_of_le hle with heq | hlt'
        · exact h.blank.le (by omega) ht.colon (by decide)
        · have := h.quotes.blank'.le (k := key.stop + 1) (by omega) ht.colon (by decide)
          have hq' : q = key.stop + 1 := by omega
          have hqq := h.quotes.closing
          rw [hq', ht.colon] at hqq
          exact absurd hqq (by decide)
      omega
    have hstop : ∀ v w, InQuotes s value v w → w = value.stop := fun v w hv =>
      le_antisymm (hv.blank'.le le_rfl (ht.closing v w hv) (by decide)) hv.le
    refine ⟨?_, fun v w hv => ?_, fun _ => ?_⟩
    · simp only [Range.withQuotesAndColon, Range.adjust, Range.mk.injEq]
      omega
    · rw [hstop v w hv, Range.fullPairQuoted, Range.extendTo, h1]
    · rw [Range.fullPairUnquoted, Range.extendTo, h1]

/-- The key of a derived pair stands in quotes, and a colon follows. -/
theorem Syntax.Derives.punctuation {keyPair valuePair : Token}
    (h : Derives s .nonAtomic .pair i j [.node .pair i j [keyPair, valuePair]]) :
    ∃ q c, Punctuation s (extractRange keyPair) i q c := by
  cases h with
  | pair hq hkb hk hqe hq' hc hcol hv hval =>
    exact ⟨_, _, ⟨hq, le_of_skip hkb, blank_skip hkb, hq', le_of_skip hqe, blank_skip hqe⟩, hcol,
      le_of_skip hc, blank_skip hc⟩

section

variable [ToLowercase] {startLine : Range} {headers : StringMap (List StandardHeader)}
  {body : StringMap StandardBody} {p : String}

/-- **The offsets are right exactly where nothing comes in between**, for
every entry of every accepted message. -/
theorem offsetsExact_iff_touching (ha : Accepted s startLine headers body)
    (hf : body.lookup p = some (.keyValue key value)) :
    ∃ o q c, Punctuation s key o q c ∧
      (OffsetsExact s key value o c ↔ Touching s key value) := by
  obtain ⟨i, j, keyPair, valuePair, hp, rfl, rfl⟩ := ha.pair_of_lookup hf
  obtain ⟨q, c, h⟩ := hp.punctuation
  exact ⟨i, q, c, h, h.exact_iff⟩

end

/-- A response with a space between a key's closing quote and the colon. -/
def spacedColon : List UInt8 := bytes "HTTP/1.1 200 OK\n\n\x7b\"a\" : 1\x7d"

/-- What the standard parser has for a path, if it accepts. -/
def parsedField [ToLowercase] (s : List UInt8) (p : String) : Option StandardBody :=
  match parseStandardResponse s with
  | .ok parsed => parsed.body.lookup p
  | .error _ => none

theorem parsedField_eq_some [ToLowercase] {p : String} {field : StandardBody} :
    parsedField s p = some field ↔
      ∃ parsed, parseStandardResponse s = .ok parsed ∧ parsed.body.lookup p = some field := by
  unfold parsedField
  cases parseStandardResponse s <;> simp

theorem parsedField_spacedColon :
    @parsedField asciiLowercase spacedColon ".a" = some (.keyValue ⟨19, 20⟩ ⟨24, 25⟩) := by
  decide +kernel

/-- Its one entry has its punctuation, with or without the space. -/
theorem offsetsExact_iff_touching_spacedColon :
    ∃ o q c, Punctuation spacedColon ⟨19, 20⟩ o q c ∧
      (OffsetsExact spacedColon ⟨19, 20⟩ ⟨24, 25⟩ o c ↔ Touching spacedColon ⟨19, 20⟩ ⟨24, 25⟩) := by
  obtain ⟨parsed, hp, hf⟩ := (@parsedField_eq_some _ asciiLowercase _ _).1 parsedField_spacedColon
  exact @offsetsExact_iff_touching _ _ _ asciiLowercase _ _ _ _
    (@Accepted.response asciiLowercase _ _ hp) hf

/-- On that response the range of the key stops short of the colon. -/
theorem not_forall_offsetsExact :
    ¬ ∀ (_ : ToLowercase) (s : List UInt8) (startLine : Range)
      (headers : StringMap (List StandardHeader)) (body : StringMap StandardBody) (p : String)
      (key value : Range) (o q c : ℕ), Accepted s startLine headers body →
      body.lookup p = some (.keyValue key value) → Punctuation s key o q c →
      OffsetsExact s key value o c := by
  intro hall
  obtain ⟨parsed, hp, hlookup⟩ :=
    (@parsedField_eq_some _ asciiLowercase _ _).1 parsedField_spacedColon
  have hblank : ∀ i j, j ≤ i → Blank spacedColon i j := fun i j hij k h1 h2 => by omega
  have hcolon : Blank spacedColon 21 22 := by
    intro k h1 h2
    obtain rfl : k = 21 := by omega
    exact ⟨space, rfl, by decide⟩
  have hpunct : Punctuation spacedColon ⟨19, 20⟩ 18 20 22 :=
    ⟨⟨rfl, by decide, hblank _ _ le_rfl, rfl, le_rfl, hblank _ _ le_rfl⟩, rfl, by decide, hcolon⟩
  have hexact := hall asciiLowercase _ _ _ _ _ _ _ _ _ _
    (@Accepted.response asciiLowercase _ _ hp) hlookup hpunct
  exact absurd hexact.keyWithColon (by decide)

end TlsnDemo
