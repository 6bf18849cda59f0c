import TlsnDemo.Syntax.Messages

/-!
# Which bytes stand where

The scalars are made of bytes of their own, none of them structural. What
is read in the compound-atomic mode is solid: the one whitespace byte in
it is the space, so there is no redacted byte and no end of line.
-/

namespace TlsnDemo

open Peg Grammar

namespace Syntax

variable {s : List UInt8} {i j k : ℕ} {ts : List Token} {f g : UInt8 → Bool}

/-- Every byte from `i` up to `j` is of a class. -/
def AllIn (f : UInt8 → Bool) (s : List UInt8) (i j : ℕ) : Prop :=
  ∀ k, i ≤ k → k < j → ∃ c, s[k]? = some c ∧ f c = true

namespace AllIn

theorem nil : AllIn f s i i := fun _ h1 h2 => absurd h1 (by omega)

theorem single {c : UInt8} (hc : s[i]? = some c) (hf : f c = true) : AllIn f s i (i + 1) := by
  intro k h1 h2
  obtain rfl : k = i := by omega
  exact ⟨c, hc, hf⟩

theorem append (h1 : AllIn f s i j) (h2 : AllIn f s j k) : AllIn f s i k := by
  intro m hm hm'
  rcases Nat.lt_or_ge m j with h | h
  · exact h1 m hm h
  · exact h2 m h hm'

theorem mono (h : AllIn f s i j) (hfg : ∀ c, f c = true → g c = true) : AllIn g s i j := by
  intro k h1 h2
  obtain ⟨c, hc, hf⟩ := h k h1 h2
  exact ⟨c, hc, hfg c hf⟩

theorem run : AllIn f s i (runEnd f s i) := fun _ h1 h2 => of_lt_runEnd h1 h2

end AllIn

theorem RunText.allIn (h : RunText f s i j) : AllIn f s i j := h.mem

/-! ## Scalars -/

/-- The bytes of numbers and of `true`, `false` and `null`. -/
def isScalarChar (c : UInt8) : Bool := isAsciiDigit c || (bytes "-+.eEtrufalsn").contains c

theorem scalarChar_of_digit {c : UInt8} (h : isAsciiDigit c = true) : isScalarChar c = true := by
  simp [isScalarChar, h]

theorem scalarChar_of_nonzeroDigit {c : UInt8} (h : isAsciiNonzeroDigit c = true) :
    isScalarChar c = true := scalarChar_of_digit (digit_of_nonzeroDigit h)

theorem scalarChar_of_mark {c : UInt8} (h : isExponentMark c = true) : isScalarChar c = true := by
  simp only [isExponentMark, Bool.or_eq_true, beq_iff_eq] at h
  rcases h with rfl | rfl <;> decide

theorem scalarChar_of_sign {c : UInt8} (h : isSign c = true) : isScalarChar c = true := by
  simp only [isSign, Bool.or_eq_true, beq_iff_eq] at h
  rcases h with rfl | rfl <;> decide

theorem allIn_digits : AllIn isScalarChar s i (runEnd isAsciiDigit s i) :=
  AllIn.run.mono fun _ => scalarChar_of_digit

theorem signEnd_allIn : AllIn isScalarChar s i (signEnd s i) := by
  unfold signEnd
  split
  · next h => exact AllIn.single h (by decide)
  · exact AllIn.nil

theorem intEnd_allIn (h : intEnd s i = some j) : AllIn isScalarChar s i j := by
  unfold intEnd at h
  split at h
  · next hz =>
    simp only [Option.some.injEq] at h
    exact h ▸ AllIn.single hz (by decide)
  · split at h
    · next hd =>
      obtain ⟨c, hc, hf⟩ := at_iff.1 hd
      simp only [Option.some.injEq] at h
      exact h ▸ (AllIn.single hc (scalarChar_of_nonzeroDigit hf)).append allIn_digits
    · simp at h

theorem fracEnd_allIn : AllIn isScalarChar s i (fracEnd s i) := by
  unfold fracEnd
  split
  · next h => exact (AllIn.single h (by decide)).append allIn_digits
  · exact AllIn.nil

theorem exponentDigits_allIn : AllIn isScalarChar s i (exponentDigits s i) := by
  unfold exponentDigits
  split
  · next h =>
    obtain ⟨c, hc, hf⟩ := at_iff.1 h
    exact AllIn.single hc (scalarChar_of_sign hf)
  · exact AllIn.nil

theorem expEnd_allIn : AllIn isScalarChar s i (expEnd s i) := by
  unfold expEnd
  split
  · next h =>
    obtain ⟨c, hc, hf⟩ := at_iff.1 h
    split
    · exact ((AllIn.single hc (scalarChar_of_mark hf)).append exponentDigits_allIn).append
        allIn_digits
    · exact AllIn.nil
  · exact AllIn.nil

theorem numberEnd_allIn (h : numberEnd s i = some j) : AllIn isScalarChar s i j := by
  obtain ⟨k, hk, rfl⟩ := Option.map_eq_some_iff.1 h
  exact ((signEnd_allIn.append (intEnd_allIn hk)).append fracEnd_allIn).append expEnd_allIn

theorem LiteralAt.allIn {t : String} (h : LiteralAt t s i j)
    (ht : (bytes t).all f = true) : AllIn f s i j := by
  intro k h1 h2
  have hlen := h.2
  have hk : k - i < (bytes t).length := by omega
  have hc := h.1 (k - i) hk
  rw [Nat.add_sub_cancel' h1] at hc
  exact ⟨_, hc, List.all_eq_true.1 ht _ (List.getElem_mem hk)⟩

/-- **A scalar is made of its own bytes.** -/
theorem ScalarText.allIn {r : Rule} (h : ScalarText s i j r) : AllIn isScalarChar s i j := by
  cases h with
  | number h => exact numberEnd_allIn h
  | isTrue h => exact h.allIn (by decide)
  | isFalse h => exact h.allIn (by decide)
  | null h => exact h.allIn (by decide)

/-- A byte of a scalar is not structural, and no whitespace. -/
theorem scalarChar_not {c : UInt8} (h : isScalarChar c = true) :
    isWhitespace c = false ∧ c ≠ quote ∧ c ≠ colon ∧ c ≠ comma ∧ c ≠ openBrace ∧ c ≠ closeBrace ∧
      c ≠ openBracket ∧ c ≠ closeBracket :=
  ⟨not_whitespace_of_class (by decide) (by decide) h, ne_of_class h (by decide),
    ne_of_class h (by decide), ne_of_class h (by decide), ne_of_class h (by decide),
    ne_of_class h (by decide), ne_of_class h (by decide), ne_of_class h (by decide)⟩

/-! ## Solid text -/

/-- Any byte but a whitespace byte that is not the space. -/
def isSolid (c : UInt8) : Bool := !isWhitespace c || c == space

theorem solid_of_scalarChar {c : UInt8} (h : isScalarChar c = true) : isSolid c = true := by
  simp [isSolid, (scalarChar_not h).1]

theorem solid_of_keyChar {c : UInt8} (h : isKeyChar c = true) : isSolid c = true := by
  simp [isSolid, not_whitespace_of_keyChar h]

/-- A class without the whitespace bytes but perhaps the space is solid. -/
theorem solid_of_class {c : UInt8} (h : (f 0x09 || f 0x0d || f 0x0a || f 0) = false)
    (hc : f c = true) : isSolid c = true := by
  cases hw : isWhitespace c with
  | false => simp [isSolid, hw]
  | true => rw [eq_space_of_class h hc hw]; decide

theorem solid_of_stringChar {c : UInt8} (h : isStringChar c = true) : isSolid c = true :=
  solid_of_class (by decide) h

theorem Bracket.solid_opening (b : Bracket) : isSolid b.opening = true := by cases b <;> decide

theorem Bracket.solid_closing (b : Bracket) : isSolid b.closing = true := by cases b <;> decide

/-- **What is derived without whitespace is solid.** -/
theorem Derives.solid {φ : Phrase} (h : Derives s .compoundAtomic φ i j ts) :
    AllIn isSolid s i j := by
  induction h with
  | empty b hopen hj hclose =>
    obtain rfl := hj
    exact (AllIn.single hopen b.solid_opening).append (AllIn.single hclose b.solid_closing)
  | filled b hopen hj _ hl hclose ih =>
    obtain rfl := hj
    obtain rfl := hl
    exact ((AllIn.single hopen b.solid_opening).append ih).append
      (AllIn.single hclose b.solid_closing)
  | @string i j k l hq hj ht hl hq' =>
    obtain rfl := hj
    obtain rfl := hl
    have hmem : AllIn isSolid s (i + 1) l := by
      intro m h1 h2
      obtain ⟨c, hc, hf⟩ := ht.mem m h1 h2
      exact ⟨c, hc, solid_of_stringChar (hf.resolve_right fun hx => absurd hx.1 (by decide))⟩
    exact ((AllIn.single hq (by decide)).append hmem).append (AllIn.single hq' (by decide))
  | scalar h => exact h.allIn.mono fun _ => solid_of_scalarChar
  | @pair i kb ke q c v j ts hq hkb hk hqe hq' hc hcol hv _ ih =>
    obtain rfl := hkb
    obtain rfl := hqe
    obtain rfl := hc
    obtain rfl := hv
    have hkey : AllIn isSolid s (i + 1) q := by
      intro m h1 h2
      obtain ⟨c, hc, hf⟩ := hk.mem m h1 h2
      exact ⟨c, hc, solid_of_keyChar (hf.resolve_right fun hx => absurd hx.1 (by decide))⟩
    exact ((((AllIn.single hq (by decide)).append hkey).append (AllIn.single hq' (by decide))).append
      (AllIn.single hcol (by decide))).append ih
  | last b _ ih => exact ih
  | more b _ hc hcom hm _ ih1 ih2 =>
    obtain rfl := hc
    obtain rfl := hm
    exact (ih1.append (AllIn.single hcom (by decide))).append ih2

theorem KeyColon.solid {e : ℕ} (h : KeyColon s i e) : AllIn isSolid s i (e + 2) :=
  (((AllIn.single h.opening (by decide)).append (h.key.allIn.mono fun _ => solid_of_keyChar)).append
    (AllIn.single h.closing (by decide))).append (AllIn.single h.colon (by decide))

/-- **A redacted pair is solid.** -/
theorem RedactedText.solid {t : Token} (h : RedactedText s i j t) : AllIn isSolid s i j := by
  cases h with
  | full hk hv _ => exact hk.solid.append hv.solid
  | bare hk _ => exact hk.solid

/-- The bytes of a status line: no quote among them, and no end of line. -/
def isStatusLineChar (c : UInt8) : Bool :=
  isAsciiDigit c || isAsciiAlphaUpper c || (bytes "/. ").contains c

theorem ProtocolText.allIn (h : ProtocolText s i j) : AllIn isStatusLineChar s i j := by
  obtain ⟨hlit, d, hd, hdot, hj⟩ := h
  have hdigit : ∀ c, isAsciiDigit c = true → isStatusLineChar c = true := fun c hc => by
    simp [isStatusLineChar, hc]
  exact (((hlit.allIn (by decide)).append (hd.allIn.mono hdigit)).append
    (AllIn.single hdot (by decide))).append (hj.allIn.mono hdigit)

/-- **A status line is made of its own bytes.** -/
theorem StatusLineText.allIn {d : ℕ} (h : StatusLineText s i d j) :
    AllIn isStatusLineChar s i j := by
  have hdigit : ∀ c, isAsciiDigit c = true → isStatusLineChar c = true := fun c hc => by
    simp [isStatusLineChar, hc]
  have hupper : ∀ c, isAsciiAlphaUpper c = true → isStatusLineChar c = true := fun c hc => by
    simp [isStatusLineChar, hc]
  have hcode : AllIn isStatusLineChar s (d + 1) (d + 4) := fun k h1 h2 => by
    obtain ⟨c, hc, hf⟩ := h.code k (by omega) h2
    exact ⟨c, hc, hdigit c hf⟩
  exact (((h.protocol.allIn.append (AllIn.single h.space (by decide))).append hcode).append
    (AllIn.single h.space' (by decide))).append (h.status.allIn.mono hupper)

theorem statusLineChar_not {c : UInt8} (h : isStatusLineChar c = true) :
    isSolid c = true ∧ c ≠ quote := ⟨solid_of_class (by decide) h, ne_of_class h (by decide)⟩

theorem StatusLineText.solid {d : ℕ} (h : StatusLineText s i d j) : AllIn isSolid s i j :=
  h.allIn.mono fun _ hc => (statusLineChar_not hc).1

/-- A solid byte is no redacted byte. -/
theorem ne_zero_of_solid {c : UInt8} (h : isSolid c = true) : c ≠ 0 := by
  rintro rfl
  exact absurd h (by decide)

end Syntax

end TlsnDemo
