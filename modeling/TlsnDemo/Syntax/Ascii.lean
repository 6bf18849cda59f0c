import TlsnDemo.Peg.Covers
import TlsnDemo.Syntax.Derivation
import Mathlib.Data.List.Induction

/-!
# Accepted messages are ASCII

Every terminal of the grammar is ASCII, and the end of a message is the end
of the input. So a message that parses has no other byte, and its bytes are
valid UTF-8.
-/

namespace TlsnDemo

open Peg Grammar

namespace Syntax

variable {s : List UInt8} {ts : List Token}

/-- A byte that is a character by itself. -/
def isAscii (c : UInt8) : Bool := c < 0x80

theorem ascii_of_inRange {lo hi : Char} {c : UInt8} (hhi : hi.toUInt8 < 0x80)
    (h : inRange lo hi c = true) : isAscii c = true := by
  simp only [inRange, Bool.and_eq_true, decide_eq_true_eq] at h
  simpa [isAscii] using UInt8.lt_of_le_of_lt h.2 hhi

theorem ascii_of_contains {t : String} {c : UInt8} (ht : (bytes t).all isAscii = true)
    (h : (bytes t).contains c = true) : isAscii c = true :=
  List.all_eq_true.1 ht c (by simpa using h)

/-- A parser of ASCII. -/
abbrev AsciiOnly (p : P) : Prop := Covers isAscii p

/-! ## Terminals -/

theorem ascii_str {t : String} (h : (bytes t).all isAscii = true) : AsciiOnly (str t) :=
  Covers.matchString h

theorem ascii_oneOf {t : String} (h : (bytes t).all isAscii = true) : AsciiOnly (oneOf t) :=
  Covers.satisfy fun _ => ascii_of_contains h

theorem ascii_digit : AsciiOnly asciiDigit := Covers.satisfy fun _ => ascii_of_inRange (by decide)

theorem ascii_nonzeroDigit : AsciiOnly asciiNonzeroDigit :=
  Covers.satisfy fun _ => ascii_of_inRange (by decide)

theorem ascii_alphaUpper : AsciiOnly asciiAlphaUpper :=
  Covers.satisfy fun _ => ascii_of_inRange (by decide)

theorem ascii_hexDigit : AsciiOnly asciiHexDigit := by
  refine Covers.satisfy fun c hc => ?_
  simp only [isAsciiHexDigit, Bool.or_eq_true] at hc
  rcases hc with (hc | hc) | hc <;> exact ascii_of_inRange (by decide) hc

theorem ascii_alphanumeric : AsciiOnly asciiAlphanumeric := by
  refine Covers.satisfy fun c hc => ?_
  simp only [isAsciiAlphanumeric, Bool.or_eq_true] at hc
  rcases hc with (hc | hc) | hc <;> exact ascii_of_inRange (by decide) hc

/-! ## Operators -/

section

variable {p q : P} {ps : List P}

theorem ascii_newline : AsciiOnly newline :=
  (ascii_str (by decide)).choice_cons ((ascii_str (by decide)).choice_cons
    (ascii_str (by decide)).choice_one)

theorem ascii_whitespace : AsciiOnly whitespace :=
  Covers.withAtomicity ((ascii_str (by decide)).choice_cons ((ascii_str (by decide)).choice_cons
    ((ascii_str (by decide)).choice_cons (ascii_newline.choice_cons
      (ascii_str (by decide)).choice_one))))

theorem ascii_seq (hp : AsciiOnly p) (h : AsciiOnly (Grammar.seq (q :: ps))) :
    AsciiOnly (Grammar.seq (p :: q :: ps)) := Covers.seq_cons ascii_whitespace hp h

theorem ascii_two (hp : AsciiOnly p) (hq : AsciiOnly q) : AsciiOnly (Grammar.seq [p, q]) :=
  Covers.seq_cons ascii_whitespace hp hq

theorem ascii_rep (h : AsciiOnly p) : AsciiOnly (Grammar.rep p) := Covers.rep ascii_whitespace h

theorem ascii_rep1 (h : AsciiOnly p) : AsciiOnly (Grammar.rep1 p) := Covers.rep1 ascii_whitespace h

theorem ascii_compound {k : Rule} (h : AsciiOnly p) : AsciiOnly (compound k p) :=
  Covers.withAtomicity h.rule

/-- Letters, digits and some more characters. -/
theorem ascii_class {t : String} (h : (bytes t).all isAscii = true) :
    AsciiOnly (choice [asciiAlphanumeric, oneOf t]) :=
  ascii_alphanumeric.choice_cons (ascii_oneOf h).choice_one

end

/-! ## Rules -/

theorem ascii_protocolVersion : AsciiOnly protocolVersion :=
  (ascii_seq (ascii_str (by decide)) (ascii_seq (ascii_rep1 ascii_digit)
    (ascii_two (ascii_str (by decide)) (ascii_rep1 ascii_digit)))).rule

theorem ascii_statusLine : AsciiOnly statusLine := by
  have hcode : AsciiOnly statusCode :=
    (ascii_seq ascii_digit (ascii_two ascii_digit ascii_digit)).rule
  have hstatus : AsciiOnly status := (ascii_rep1 ascii_alphaUpper).rule
  have hspace : AsciiOnly (str " ") := ascii_str (by decide)
  exact ascii_compound (ascii_seq ascii_protocolVersion (ascii_seq hspace (ascii_seq hcode
    (ascii_two hspace hstatus))))

theorem ascii_requestLine : AsciiOnly requestLine := by
  have hmethod : AsciiOnly method :=
    ((ascii_str (by decide)).choice_cons ((ascii_str (by decide)).choice_cons
      ((ascii_str (by decide)).choice_cons ((ascii_str (by decide)).choice_cons
      ((ascii_str (by decide)).choice_cons ((ascii_str (by decide)).choice_cons
      (ascii_str (by decide)).choice_one)))))).rule
  have hurl : AsciiOnly url := (ascii_rep1 (ascii_class (by decide))).rule
  have hspace : AsciiOnly (str " ") := ascii_str (by decide)
  exact ascii_compound (ascii_seq hmethod (ascii_seq hspace (ascii_seq hurl
    (ascii_two hspace ascii_protocolVersion))))

theorem ascii_header : AsciiOnly header := by
  have hname : AsciiOnly headerName := (ascii_rep1 (ascii_class (by decide))).rule
  have hvalue : AsciiOnly headerValue := (ascii_rep1 (ascii_class (by decide))).rule
  have hend : AsciiOnly (Grammar.seq [headerValue, newline]) := ascii_two hvalue ascii_newline
  exact ascii_compound (ascii_seq hname (ascii_two (ascii_str (by decide)) hend.optional))

/-- Quotes around what is ASCII. -/
theorem ascii_quoted {p : P} (h : AsciiOnly p) : AsciiOnly (Grammar.seq [str "\"", p, str "\""]) :=
  ascii_seq (ascii_str (by decide)) (ascii_two h (ascii_str (by decide)))

theorem ascii_quotedKey : AsciiOnly quotedKey :=
  ascii_quoted (ascii_rep1 (ascii_class (by decide))).rule

theorem ascii_quotedString : AsciiOnly quotedString :=
  ascii_quoted (ascii_rep (ascii_class (by decide))).rule

theorem ascii_number : AsciiOnly number := by
  have hdigits : AsciiOnly (Grammar.seq [asciiNonzeroDigit, Grammar.rep asciiDigit]) :=
    ascii_two ascii_nonzeroDigit (ascii_rep ascii_digit)
  have hint : AsciiOnly (choice [str "0", Grammar.seq [asciiNonzeroDigit, Grammar.rep asciiDigit]]) :=
    (ascii_str (by decide)).choice_cons hdigits.choice_one
  have hfrac : AsciiOnly (Grammar.seq [str ".", Grammar.rep asciiDigit]) :=
    ascii_two (ascii_str (by decide)) (ascii_rep ascii_digit)
  have hmark : AsciiOnly (choice [str "e", str "E"]) :=
    (ascii_str (by decide)).choice_cons (ascii_str (by decide)).choice_one
  have hsign : AsciiOnly (choice [str "+", str "-"]) :=
    (ascii_str (by decide)).choice_cons (ascii_str (by decide)).choice_one
  have hexp : AsciiOnly (Grammar.seq [choice [str "e", str "E"],
      Peg.optional (choice [str "+", str "-"]), Grammar.rep1 asciiDigit]) :=
    ascii_seq hmark (ascii_two hsign.optional (ascii_rep1 ascii_digit))
  exact (Covers.withAtomicity (ascii_seq (ascii_str (by decide)).optional
    (ascii_seq hint (ascii_two hfrac.optional hexp.optional)))).rule

theorem ascii_pairOf {p : P} (h : AsciiOnly p) : AsciiOnly (pairOf p) :=
  (ascii_seq ascii_quotedKey (ascii_two (ascii_str (by decide)) h)).rule

theorem ascii_bracketed {o c : String} {p : P} (ho : (bytes o).all isAscii = true)
    (hc : (bytes c).all isAscii = true) (h : AsciiOnly p) : AsciiOnly (bracketed o p c) := by
  have hempty : AsciiOnly (Grammar.seq [str o, str c]) := ascii_two (ascii_str ho) (ascii_str hc)
  have hcomma : AsciiOnly (Grammar.seq [str ",", p]) := ascii_two (ascii_str (by decide)) h
  have hfilled : AsciiOnly (Grammar.seq [str o, p, Grammar.rep (Grammar.seq [str ",", p]), str c]) :=
    ascii_seq (ascii_str ho) (ascii_seq h (ascii_two (ascii_rep hcomma) (ascii_str hc)))
  exact hempty.choice_cons hfilled.choice_one

/-- Values are ASCII however deep they nest. -/
theorem ascii_valueOf (n : ℕ) : AsciiOnly (valueOf n) := by
  induction n with
  | zero => exact fun _ _ _ _ _ h => absurd h (by simp [valueOf])
  | succ n ih =>
    have hobject : AsciiOnly (objectOf (valueOf n)) :=
      (ascii_bracketed (by decide) (by decide) (ascii_pairOf ih)).rule
    have harray : AsciiOnly (arrayOf (valueOf n)) :=
      (ascii_bracketed (by decide) (by decide) ih).rule
    have hboolean : AsciiOnly boolean :=
      ((ascii_str (by decide)).choice_cons (ascii_str (by decide)).choice_one).rule
    have hnull : AsciiOnly null := (ascii_str (by decide)).rule
    exact hobject.choice_cons (harray.choice_cons (ascii_quotedString.choice_cons
      (ascii_number.choice_cons (hboolean.choice_cons hnull.choice_one))))

theorem ascii_value : AsciiOnly value := fun {s} _ _ _ _ h => ascii_valueOf (s.length + 1) h

theorem ascii_json : AsciiOnly json :=
  (ascii_bracketed (by decide) (by decide) (ascii_pairOf ascii_value)).rule.choice_cons
    (ascii_bracketed (by decide) (by decide) ascii_value).rule.choice_one

theorem ascii_pairRedacted : AsciiOnly pairRedacted := by
  have hvalue : AsciiOnly (Grammar.seq [value, notFollowedBy (str ":")]) :=
    ascii_two ascii_value Covers.notFollowedBy
  exact ascii_compound (ascii_seq ascii_quotedKey (ascii_two (ascii_str (by decide))
    hvalue.optional))

theorem ascii_body : AsciiOnly body := by
  have hchunked : AsciiOnly chunkedBody :=
    ascii_seq (ascii_rep1 ascii_hexDigit) (ascii_two ascii_json (ascii_str (by decide)))
  have hfull : AsciiOnly bodyFull := hchunked.choice_cons ascii_json.choice_one
  have hfurther : AsciiOnly (Grammar.seq [Peg.optional (str ","), pairRedacted]) :=
    ascii_two (ascii_str (by decide)).optional ascii_pairRedacted
  have hredacted : AsciiOnly bodyRedacted :=
    ascii_seq (ascii_str (by decide)).optional (ascii_seq ascii_pairRedacted
      (ascii_two (ascii_rep hfurther) (ascii_str (by decide)).optional))
  exact hfull.choice_cons hredacted.choice_one

/-! ## Messages -/

/-- **A message of either kind is ASCII**, all of it. -/
theorem ascii_message {line : P} (hline : AsciiOnly line)
    (h : parse (Grammar.seq [startOfInput, line, headers, Peg.optional Grammar.body, eoi]) s =
      some ts) : ∀ b ∈ s, b < 0x80 := by
  have hcovers : AsciiOnly
      (Grammar.seq [startOfInput, line, headers, Peg.optional Grammar.body, eoi]) :=
    ascii_seq Covers.startOfInput (ascii_seq hline (ascii_seq (ascii_rep ascii_header).rule
      (ascii_two ascii_body.optional Covers.endOfInput.rule)))
  obtain ⟨⟨j, us⟩, hm, -⟩ := Option.map_eq_some_iff.1 h
  -- the last part of a message is the end of the input
  have hend : s.length ≤ j := by
    rw [seq_eq] at hm
    obtain ⟨_, _, _, -, h1, -⟩ := seq_cons_eq_some.1 hm
    obtain ⟨_, _, _, -, h2, -⟩ := seq_cons_eq_some.1 h1
    obtain ⟨_, _, _, -, h3, -⟩ := seq_cons_eq_some.1 h2
    obtain ⟨_, _, _, -, h4, -⟩ := seq_cons_eq_some.1 h3
    rw [seq_singleton, eoi] at h4
    obtain ⟨_, h5, -⟩ := (rule_eq_some (by decide)).1 h4
    obtain ⟨hle, rfl, -⟩ := endOfInput_eq_some.1 h5
    exact hle
  intro b hb
  obtain ⟨k, hk, rfl⟩ := List.getElem_of_mem hb
  obtain ⟨c, hc, hf⟩ := hcovers hm k (Nat.zero_le k) (by omega)
  rw [List.getElem?_eq_getElem hk, Option.some.injEq] at hc
  simpa [isAscii, hc] using hf

theorem ascii_of_parse_response (h : parse Grammar.response s = some ts) : ∀ b ∈ s, b < 0x80 :=
  ascii_message ascii_statusLine h

theorem ascii_of_parse_request (h : parse Grammar.request s = some ts) : ∀ b ∈ s, b < 0x80 :=
  ascii_message ascii_requestLine h

/-! ## UTF-8 -/

/-- An ASCII byte is a character of one byte. -/
theorem ascii_char {b : UInt8} (hb : b < 0x80) :
    (Char.ofUInt8 b).utf8Size = 1 ∧ (Char.ofUInt8 b).toUInt8 = b := by
  constructor
  · have hval : (Char.ofUInt8 b).val ≤ 0x7f := by
      change b.toUInt32 ≤ 0x7f
      rw [UInt32.le_iff_toNat_le]
      rw [UInt8.lt_iff_toNat_lt] at hb
      simp at hb ⊢
      omega
    simp [Char.utf8Size, hval]
  · change b.toUInt32.toUInt8 = b
    simp

/-- **ASCII is valid UTF-8.** -/
theorem validateUTF8_of_ascii (h : ∀ b ∈ s, b < 0x80) :
    ByteArray.validateUTF8 ⟨s.toArray⟩ = true := by
  rw [ByteArray.validateUTF8_eq_true_iff]
  induction s using List.reverseRecOn with
  | nil => exact ByteArray.isValidUTF8_empty
  | append_singleton s b ih =>
    obtain ⟨hsize, hbyte⟩ := ascii_char (h b (by simp))
    have hpush := (ih fun c hc => h c (by simp [hc])).push hsize
    rw [hbyte] at hpush
    have hbytes : (⟨(s ++ [b]).toArray⟩ : ByteArray) = ByteArray.push ⟨s.toArray⟩ b := by
      change ByteArray.mk _ = ByteArray.mk _
      rw [List.push_toArray]
    rw [hbytes]
    exact hpush

end Syntax

end TlsnDemo
