import TlsnDemo.Parser.Grammar

/-!
# The terminals as classes of bytes

Each run of single-character alternatives of the grammar is one class of
bytes, and its whitespace rule is another. What the proofs use of the
classes is which of them meet: a whitespace byte is no terminal of a
token other than the space, and no token of its own contains a quote.
-/

namespace TlsnDemo

open Peg Grammar

namespace Syntax

/-! ## Structural bytes -/

abbrev quote : UInt8 := 0x22
abbrev colon : UInt8 := 0x3a
abbrev comma : UInt8 := 0x2c
abbrev space : UInt8 := 0x20
abbrev openBrace : UInt8 := 0x7b
abbrev closeBrace : UInt8 := 0x7d
abbrev openBracket : UInt8 := 0x5b
abbrev closeBracket : UInt8 := 0x5d

theorem str_quote : str "\"" = matchString [quote] := rfl
theorem str_colon : str ":" = matchString [colon] := rfl
theorem str_comma : str "," = matchString [comma] := rfl
theorem str_space : str " " = matchString [space] := rfl
theorem str_openBrace : str "\x7b" = matchString [openBrace] := rfl
theorem str_closeBrace : str "\x7d" = matchString [closeBrace] := rfl

/-! ## Classes -/

def isWhitespace (c : UInt8) : Bool := (bytes " \t\r\n\x00").contains c

def isKeyChar (c : UInt8) : Bool := isAsciiAlphanumeric c || (bytes "_").contains c

def isStringChar (c : UInt8) : Bool :=
  isAsciiAlphanumeric c || (bytes "@.-_ :/,;=+*%~!#$&'()[]\x7b\x7d<>?|\\^`").contains c

def isHeaderNameChar (c : UInt8) : Bool := isAsciiAlphanumeric c || (bytes "-").contains c

def isHeaderValueChar (c : UInt8) : Bool :=
  isAsciiAlphanumeric c || (bytes "-; :,/'\".=+*_\x7b\x7d").contains c

def isUrlChar (c : UInt8) : Bool :=
  isAsciiAlphanumeric c || (bytes "/:.-_?=&%~@").contains c

/-- The whitespace bytes, one by one. -/
theorem whitespace_iff {c : UInt8} :
    isWhitespace c = true ↔ c = 0x20 ∨ c = 0x09 ∨ c = 0x0d ∨ c = 0x0a ∨ c = 0 := by
  have h : bytes " \t\r\n\x00" = [0x20, 0x09, 0x0d, 0x0a, 0] := rfl
  simp [isWhitespace, h]

/-- Alternatives between classes are one class. -/
theorem choice_satisfy {f g : UInt8 → Bool} :
    (choice [satisfy f, satisfy g] : P) = satisfy fun c => f c || g c := by
  funext s a i
  simp only [choice, orElse, satisfy]
  cases s[i]? with
  | none => rfl
  | some c => cases hf : f c <;> cases hg : g c <;> simp [hf, hg]

theorem whitespace_eq : whitespace = satisfy isWhitespace := by
  funext s a i
  simp only [whitespace, withAtomicity, choice, orElse, newline, satisfy, str]
  cases h : s[i]? with
  | none => simp [matchString, bytes, h]
  | some c =>
    have key : ∀ d : UInt8, matchString [d] s .atomic i =
        (if c = d then some (i + 1, []) else none : Outcome Rule) := by
      intro d
      simp [matchString, h]
    have h1 : bytes " " = [0x20] := rfl
    have h2 : bytes "\t" = [0x09] := rfl
    have h3 : bytes "\r" = [0x0d] := rfl
    have h4 : bytes "\n" = [0x0a] := rfl
    have h5 : bytes "\x00" = [0x00] := rfl
    have h6 : bytes "\r\n" = [0x0d, 0x0a] := rfl
    rw [h1, h2, h3, h4, h5, h6]
    simp only [key]
    have h7 : isWhitespace c = (c == 0x20 || c == 0x09 || c == 0x0d || c == 0x0a || c == 0) := by
      rw [Bool.eq_iff_iff, whitespace_iff]
      simp [or_assoc]
    rw [h7]
    by_cases hr : c = 0x0d
    · simp [hr]
    · -- a carriage return has been tried before `\r\n` is
      have h8 : (matchString [0x0d, 0x0a] s .atomic i : Outcome Rule) = none := by
        simp [matchString, h, hr]
      rw [h8]
      by_cases h20 : c = 0x20 <;> by_cases h09 : c = 0x09 <;> by_cases h0a : c = 0x0a <;>
        by_cases h00 : c = 0 <;> simp [hr, h20, h09, h0a, h00]

theorem keyChar_eq :
    (choice [asciiAlphanumeric, oneOf "_"] : P) = satisfy isKeyChar := choice_satisfy

theorem stringChar_eq :
    (choice [asciiAlphanumeric, oneOf "@.-_ :/,;=+*%~!#$&'()[]\x7b\x7d<>?|\\^`"] : P) =
      satisfy isStringChar := choice_satisfy

theorem headerNameChar_eq :
    (choice [asciiAlphanumeric, oneOf "-"] : P) = satisfy isHeaderNameChar := choice_satisfy

theorem headerValueChar_eq :
    (choice [asciiAlphanumeric, oneOf "-; :,/'\".=+*_\x7b\x7d"] : P) =
      satisfy isHeaderValueChar := choice_satisfy

theorem urlChar_eq :
    (choice [asciiAlphanumeric, oneOf "/:.-_?=&%~@"] : P) = satisfy isUrlChar := choice_satisfy

/-! ## Which classes meet -/

section

variable {f : UInt8 → Bool} {c d : UInt8}

/-- A byte of a class is none outside it. -/
theorem ne_of_class (hc : f c = true) (hd : f d = false) : c ≠ d := by
  rintro rfl
  rw [hc] at hd
  exact absurd hd (by simp)

/-- The space is the one whitespace byte of a class without the others. -/
theorem eq_space_of_class (h : (f 0x09 || f 0x0d || f 0x0a || f 0) = false) (hc : f c = true)
    (hw : isWhitespace c = true) : c = space := by
  simp only [Bool.or_eq_false_iff] at h
  obtain ⟨⟨⟨htab, hreturn⟩, hline⟩, hzero⟩ := h
  rcases whitespace_iff.1 hw with hc' | hc' | hc' | hc' | hc'
  · exact hc'
  · exact absurd hc' (ne_of_class hc htab)
  · exact absurd hc' (ne_of_class hc hreturn)
  · exact absurd hc' (ne_of_class hc hline)
  · exact absurd hc' (ne_of_class hc hzero)

/-- A class without the whitespace bytes. -/
theorem not_whitespace_of_class (h : (f 0x09 || f 0x0d || f 0x0a || f 0) = false)
    (hspace : f space = false) (hc : f c = true) : isWhitespace c = false := by
  by_contra hw
  exact ne_of_class hc hspace (eq_space_of_class h hc (by simpa using hw))

end

theorem not_whitespace_of_keyChar {c : UInt8} (h : isKeyChar c = true) : isWhitespace c = false :=
  not_whitespace_of_class (by decide) (by decide) h

/-- The space is the one whitespace byte a string may contain. -/
theorem eq_space_of_stringChar {c : UInt8} (h : isStringChar c = true)
    (hw : isWhitespace c = true) : c = space := eq_space_of_class (by decide) h hw

end Syntax

end TlsnDemo
