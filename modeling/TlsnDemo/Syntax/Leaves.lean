import TlsnDemo.Peg.Lists
import TlsnDemo.Syntax.Terminals

/-!
# Keys, strings, numbers and literals

What the leaf rules of the JSON grammar match, in the non-atomic mode the
prover's parser runs them in and in the compound-atomic mode the
verifier's does. A key and a string may have whitespace inside in the
first; a string then never ends in it, and a key does only when it is one
character long, since `+` is unrolled and `*` is not. A number and a
literal are the same in both.
-/

namespace TlsnDemo

open Peg Grammar

namespace Syntax

variable {s : List UInt8} {a : Atomicity} {i j k : ℕ} {ts : List Token}

/-- Where the grammar's implicit whitespace ends. -/
abbrev skip (s : List UInt8) (a : Atomicity) (i : ℕ) : ℕ := skipTo isWhitespace s a i

theorem skip_compoundAtomic : skip s .compoundAtomic i = i := rfl

theorem skip_nonAtomic : skip s .nonAtomic i = runEnd isWhitespace s i := rfl

theorem seq_eq : Grammar.seq = Peg.seq (satisfy isWhitespace) := by
  unfold Grammar.seq
  rw [whitespace_eq]

/-- Outside the non-atomic mode, parts follow each other directly. -/
theorem seq_cons_of_ne (ha : a ≠ .nonAtomic) {p q : P} {ps : List P} :
    Grammar.seq (p :: q :: ps) s a i = andThen p (Grammar.seq (q :: ps)) s a i :=
  Peg.seq_cons_of_ne ha

theorem seq_one {p : P} : Grammar.seq [p] = p := rfl

theorem rep_eq : Grammar.rep = Peg.rep (satisfy isWhitespace) := by
  unfold Grammar.rep
  rw [whitespace_eq]

theorem rep1_eq : Grammar.rep1 = Peg.rep1 (satisfy isWhitespace) := by
  unfold Grammar.rep1
  rw [whitespace_eq]

/-- The end of the input and a byte outside the class stop a run alike. -/
def Stops (f : UInt8 → Bool) (s : List UInt8) (i : ℕ) : Prop := ∀ c, s[i]? = some c → f c = false

theorem Stops.of_eq {f : UInt8 → Bool} {c : UInt8} (h : s[i]? = some c) (hf : f c = false) :
    Stops f s i := by
  intro d hd
  rw [h] at hd
  simp only [Option.some.injEq] at hd
  rw [← hd, hf]

/-! ## Keys -/

/-- **The text of a key**: it starts with a key character, and in the
non-atomic mode it may go on over whitespace. -/
structure KeyText (s : List UInt8) (a : Atomicity) (i j : ℕ) : Prop where
  first : ∃ c, s[i]? = some c ∧ isKeyChar c = true
  lt : i < j
  mem : ∀ k, i ≤ k → k < j →
    ∃ c, s[k]? = some c ∧ (isKeyChar c = true ∨ (a = .nonAtomic ∧ isWhitespace c = true))
  last : a = .nonAtomic →
    j = skip s a (i + 1) ∨ (i + 1 < j ∧ ∃ c, s[j - 1]? = some c ∧ isKeyChar c = true)

theorem keyText_of_rep1 (ha : a ≠ .atomic)
    (h : Grammar.rep1 (satisfy isKeyChar) s a i = some (j, ts)) :
    KeyText s a i j ∧ ts = [] := by
  rw [rep1_eq, Peg.rep1] at h
  obtain ⟨k, us, vs, h1, h2, rfl⟩ := seq_cons_eq_some.1 h
  obtain ⟨⟨c, hc, hf⟩, rfl, rfl⟩ := satisfy_eq_some.1 h1
  rw [seq_singleton] at h2
  cases a with
  | atomic => exact absurd rfl ha
  | compoundAtomic =>
    rw [skipTo_compoundAtomic, rep_satisfy (by decide)] at h2
    simp only [Option.some.injEq, Prod.mk.injEq] at h2
    obtain ⟨rfl, rfl⟩ := h2
    have hle := le_runEnd (f := isKeyChar) (s := s) (i := i + 1)
    refine ⟨⟨⟨c, hc, hf⟩, by omega, fun k h1 h2 => ?_, fun h => absurd h (by decide)⟩, rfl⟩
    rcases Nat.eq_or_lt_of_le h1 with rfl | hlt
    · exact ⟨c, hc, Or.inl hf⟩
    · obtain ⟨d, hd, hfd⟩ := of_lt_runEnd hlt h2
      exact ⟨d, hd, Or.inl hfd⟩
  | nonAtomic =>
    rw [skipTo_nonAtomic] at h2
    obtain ⟨hsp, rfl⟩ := (rep_satisfy_nonAtomic fun c hc => runEnd_stops hc).1 h2
    have hle : i + 1 ≤ runEnd isWhitespace s (i + 1) := le_runEnd
    have hle' := hsp.le
    refine ⟨⟨⟨c, hc, hf⟩, by omega, fun k h1 h2 => ?_, fun _ => ?_⟩, rfl⟩
    · rcases Nat.eq_or_lt_of_le h1 with rfl | hlt
      · exact ⟨c, hc, Or.inl hf⟩
      · rcases Nat.lt_or_ge k (runEnd isWhitespace s (i + 1)) with hk | hk
        · obtain ⟨d, hd, hw⟩ := of_lt_runEnd hlt hk
          exact ⟨d, hd, Or.inr ⟨rfl, hw⟩⟩
        · obtain ⟨d, hd, hw⟩ := hsp.mem k hk h2
          exact ⟨d, hd, hw.imp id fun hw => ⟨rfl, hw⟩⟩
    · rcases Nat.eq_or_lt_of_le hle' with heq | hlt
      · exact Or.inl heq.symm
      · obtain ⟨d, hd, hfd, -⟩ := hsp.last hlt
        exact Or.inr ⟨by omega, d, hd, hfd⟩

/-- A key's text is matched up to something that is no key character. -/
theorem KeyText.rep1 (ha : a ≠ .atomic) (h : KeyText s a i j) (hs : Stops isKeyChar s (skip s a j)) :
    Grammar.rep1 (satisfy isKeyChar) s a i = some (j, []) := by
  obtain ⟨c, hc, hf⟩ := h.first
  rw [rep1_eq, Peg.rep1]
  have hfirst : (satisfy isKeyChar s a i : Outcome Rule) = some (i + 1, []) :=
    satisfy_eq_some.2 ⟨⟨c, hc, hf⟩, rfl, rfl⟩
  refine seq_cons_of_eq_some hfirst ?_
  rw [seq_singleton]
  have hlt := h.lt
  cases a with
  | atomic => exact absurd rfl ha
  | compoundAtomic =>
    rw [skipTo_compoundAtomic, rep_satisfy (by decide), runEnd_eq (j := j) (by omega) _ hs]
    intro k h1 h2
    obtain ⟨d, hd, hfd⟩ := h.mem k (by omega) h2
    exact ⟨d, hd, hfd.resolve_right fun hx => absurd hx.1 (by decide)⟩
  | nonAtomic =>
    rw [skipTo_nonAtomic]
    refine (rep_satisfy_nonAtomic fun c hc => runEnd_stops hc).2 ⟨?_, rfl⟩
    have hmem : ∀ k, runEnd isWhitespace s (i + 1) ≤ k → k < j →
        ∃ c, s[k]? = some c ∧ (isKeyChar c = true ∨ isWhitespace c = true) := by
      intro k h1 h2
      have : i + 1 ≤ runEnd isWhitespace s (i + 1) := le_runEnd
      obtain ⟨d, hd, hfd⟩ := h.mem k (by omega) h2
      exact ⟨d, hd, hfd.imp id And.right⟩
    rcases h.last rfl with heq | ⟨hij, d, hd, hfd⟩
    · rw [skip_nonAtomic] at heq
      exact ⟨heq.ge, hmem, fun h => by omega, hs⟩
    · refine ⟨?_, hmem, fun _ => ⟨d, hd, hfd, not_whitespace_of_keyChar hfd⟩, hs⟩
      by_contra hgt
      obtain ⟨e, he, hw⟩ := of_lt_runEnd (f := isWhitespace) (s := s) (i := i + 1) (k := j - 1)
        (by omega) (by omega)
      rw [hd] at he
      simp only [Option.some.injEq] at he
      rw [← he, not_whitespace_of_keyChar hfd] at hw
      exact absurd hw (by simp)

/-! ## Strings -/

/-- **The text of a string**, from where the whitespace after the opening
quote ends. -/
structure StringText (s : List UInt8) (a : Atomicity) (i j : ℕ) : Prop where
  le : i ≤ j
  mem : ∀ k, i ≤ k → k < j →
    ∃ c, s[k]? = some c ∧ (isStringChar c = true ∨ (a = .nonAtomic ∧ isWhitespace c = true))
  last : a = .nonAtomic → i < j →
    ∃ c, s[j - 1]? = some c ∧ isStringChar c = true ∧ isWhitespace c = false

theorem stringText_of_rep (ha : a ≠ .atomic)
    (h : Grammar.rep (satisfy isStringChar) s a (skip s a i) = some (j, ts)) :
    StringText s a (skip s a i) j ∧ ts = [] := by
  rw [rep_eq] at h
  cases a with
  | atomic => exact absurd rfl ha
  | compoundAtomic =>
    rw [skip_compoundAtomic, rep_satisfy (by decide)] at h
    simp only [Option.some.injEq, Prod.mk.injEq] at h
    obtain ⟨rfl, rfl⟩ := h
    refine ⟨⟨le_runEnd, fun k h1 h2 => ?_, fun h => absurd h (by decide)⟩, rfl⟩
    obtain ⟨c, hc, hf⟩ := of_lt_runEnd h1 h2
    exact ⟨c, hc, Or.inl hf⟩
  | nonAtomic =>
    obtain ⟨hsp, rfl⟩ := (rep_satisfy_nonAtomic fun c hc => runEnd_stops hc).1 h
    refine ⟨⟨hsp.le, fun k h1 h2 => ?_, fun _ => hsp.last⟩, rfl⟩
    obtain ⟨c, hc, hf⟩ := hsp.mem k h1 h2
    exact ⟨c, hc, hf.imp id fun hw => ⟨rfl, hw⟩⟩

theorem StringText.rep (ha : a ≠ .atomic) (h : StringText s a (skip s a i) j)
    (hs : Stops isStringChar s (skip s a j)) :
    Grammar.rep (satisfy isStringChar) s a (skip s a i) = some (j, []) := by
  rw [rep_eq]
  cases a with
  | atomic => exact absurd rfl ha
  | compoundAtomic =>
    rw [rep_satisfy (by decide), runEnd_eq h.le _ hs]
    intro k h1 h2
    obtain ⟨c, hc, hf⟩ := h.mem k h1 h2
    exact ⟨c, hc, hf.resolve_right fun hx => absurd hx.1 (by decide)⟩
  | nonAtomic =>
    refine (rep_satisfy_nonAtomic fun c hc => runEnd_stops hc).2 ⟨⟨h.le, fun k h1 h2 => ?_,
      h.last rfl, hs⟩, rfl⟩
    obtain ⟨c, hc, hf⟩ := h.mem k h1 h2
    exact ⟨c, hc, hf.imp id And.right⟩

/-! ## Numbers -/

/-- The byte at a position is of a class. -/
def At (f : UInt8 → Bool) (s : List UInt8) (i : ℕ) : Bool := (s[i]?).any f

theorem at_iff {f : UInt8 → Bool} : At f s i = true ↔ ∃ c, s[i]? = some c ∧ f c = true := by
  unfold At
  cases s[i]? with
  | none => simp
  | some c => simp

def isSign (c : UInt8) : Bool := c == 0x2b || c == 0x2d

def isExponentMark (c : UInt8) : Bool := c == 0x65 || c == 0x45

/-- After the minus sign, where there is one. -/
def signEnd (s : List UInt8) (i : ℕ) : ℕ := if s[i]? = some 0x2d then i + 1 else i

/-- After the integer part. -/
def intEnd (s : List UInt8) (i : ℕ) : Option ℕ :=
  if s[i]? = some 0x30 then some (i + 1)
  else if At isAsciiNonzeroDigit s i then some (runEnd isAsciiDigit s (i + 1)) else none

/-- After the fraction, which may have no digits. -/
def fracEnd (s : List UInt8) (i : ℕ) : ℕ :=
  if s[i]? = some 0x2e then runEnd isAsciiDigit s (i + 1) else i

/-- Where the digits of an exponent start. -/
def exponentDigits (s : List UInt8) (i : ℕ) : ℕ := if At isSign s i then i + 1 else i

/-- After the exponent, where there is one with digits. -/
def expEnd (s : List UInt8) (i : ℕ) : ℕ :=
  if At isExponentMark s i then
    if At isAsciiDigit s (exponentDigits s (i + 1)) then
      runEnd isAsciiDigit s (exponentDigits s (i + 1))
    else i
  else i

/-- After the number that starts at a position. -/
def numberEnd (s : List UInt8) (i : ℕ) : Option ℕ :=
  (intEnd s (signEnd s i)).map fun j => expEnd s (fracEnd s j)

theorem satisfy_eq_ite {f : UInt8 → Bool} :
    (satisfy f s a i : Outcome Rule) = if At f s i then some (i + 1, []) else none := by
  unfold satisfy At
  cases s[i]? with
  | none => simp
  | some c => simp

theorem choice_chars {t u : String} {c d : UInt8} (ht : bytes t = [c]) (hu : bytes u = [d]) :
    (choice [str t, str u] : P) = satisfy fun x => x == c || x == d := by
  funext s a i
  simp only [choice, orElse, str, ht, hu, matchString_singleton_eq, satisfy]
  cases s[i]? with
  | none => simp
  | some x =>
    by_cases hc : x = c
    · simp [hc]
    · by_cases hd : x = d
      · subst hd
        simp [hc]
      · simp [hc, hd]

theorem optional_satisfy {f : UInt8 → Bool} :
    (Peg.optional (satisfy f) s a i : Outcome Rule) =
      some (if At f s i then i + 1 else i, []) := by
  simp only [Peg.optional, satisfy_eq_ite]
  by_cases h : At f s i = true <;> simp [h]

theorem digits_eq : Grammar.rep asciiDigit s .atomic i = some (runEnd isAsciiDigit s i, []) :=
  rep_satisfy (by decide)

theorem minus_eq : Peg.optional (str "-") s .atomic i = some (signEnd s i, []) := by
  have h : str "-" = matchString [0x2d] := rfl
  simp only [Peg.optional, h, matchString_singleton_eq, signEnd]
  by_cases hc : s[i]? = some 0x2d <;> simp [hc]

theorem int_eq :
    choice [str "0", Grammar.seq [asciiNonzeroDigit, Grammar.rep asciiDigit]] s .atomic i =
      (intEnd s i).map fun j => (j, []) := by
  have h : str "0" = matchString [0x30] := rfl
  simp only [choice, orElse, h, matchString_singleton_eq, intEnd]
  rw [seq_cons_of_ne (by decide), seq_one, asciiNonzeroDigit]
  by_cases hz : s[i]? = some 0x30
  · simp [hz]
  · by_cases hd : At isAsciiNonzeroDigit s i = true
    · rw [andThen_of_eq_some (j := i + 1) (by rw [satisfy_eq_ite, if_pos hd]), digits_eq]
      simp [hz, hd]
    · rw [andThen_of_eq_none (by rw [satisfy_eq_ite, if_neg hd])]
      simp [hz, hd]

theorem frac_eq :
    Peg.optional (Grammar.seq [str ".", Grammar.rep asciiDigit]) s .atomic i =
      some (fracEnd s i, []) := by
  have h : str "." = matchString [0x2e] := rfl
  simp only [Peg.optional, h, fracEnd]
  rw [seq_cons_of_ne (by decide), seq_one]
  by_cases hc : s[i]? = some 0x2e
  · rw [andThen_of_eq_some (j := i + 1) (by rw [matchString_singleton_eq, if_pos hc]), digits_eq]
    simp [hc]
  · rw [andThen_of_eq_none (by rw [matchString_singleton_eq, if_neg hc])]
    simp [hc]

theorem digits1_eq :
    Grammar.rep1 asciiDigit s .atomic i =
      if At isAsciiDigit s i then some (runEnd isAsciiDigit s i, []) else none := by
  rw [rep1_eq, Peg.rep1, Peg.seq_cons_of_ne (by decide), seq_singleton, asciiDigit]
  by_cases h : At isAsciiDigit s i = true
  · rw [andThen_of_eq_some (j := i + 1) (by rw [satisfy_eq_ite, if_pos h]),
      rep_satisfy (by decide), if_pos h]
    obtain ⟨c, hc, hf⟩ := at_iff.1 h
    rw [runEnd_of_true hc hf]
  · rw [andThen_of_eq_none (by rw [satisfy_eq_ite, if_neg h]), if_neg h]

theorem exp_eq :
    Peg.optional (Grammar.seq [choice [str "e", str "E"],
      Peg.optional (choice [str "+", str "-"]), Grammar.rep1 asciiDigit]) s .atomic i =
      some (expEnd s i, []) := by
  have he : (choice [str "e", str "E"] : P) = satisfy isExponentMark := choice_chars rfl rfl
  have hs : (choice [str "+", str "-"] : P) = satisfy isSign := choice_chars rfl rfl
  simp only [Peg.optional, he, hs, expEnd]
  rw [seq_cons_of_ne (by decide)]
  by_cases hm : At isExponentMark s i = true
  · rw [andThen_of_eq_some (j := i + 1) (by rw [satisfy_eq_ite, if_pos hm]),
      seq_cons_of_ne (by decide), seq_one, andThen_of_eq_some optional_satisfy, digits1_eq,
      ← exponentDigits]
    by_cases hd : At isAsciiDigit s (exponentDigits s (i + 1)) = true <;> simp [hm, hd]
  · rw [andThen_of_eq_none (by rw [satisfy_eq_ite, if_neg hm])]
    simp [hm]

/-- **A number is what `numberEnd` says.** -/
theorem number_eq (ha : a ≠ .atomic) :
    number s a i = (numberEnd s i).map fun j => (j, [.node .number i j []]) := by
  simp only [number, Grammar.atomic, rule, withAtomicity, if_neg ha, numberEnd]
  rw [seq_cons_of_ne (by decide), andThen_of_eq_some minus_eq, seq_cons_of_ne (by decide)]
  cases h : intEnd s (signEnd s i) with
  | none =>
    rw [andThen_of_eq_none (by rw [int_eq, h]; rfl)]
    rfl
  | some j =>
    rw [andThen_of_eq_some (j := j) (by rw [int_eq, h]; rfl), seq_cons_of_ne (by decide),
      seq_one, andThen_of_eq_some frac_eq, exp_eq]
    rfl

/-! ## Literals -/

/-- The bytes of a literal stand at a position. -/
def LiteralAt (t : String) (s : List UInt8) (i j : ℕ) : Prop :=
  (∀ k, (hk : k < (bytes t).length) → s[i + k]? = some (bytes t)[k]) ∧ j = i + (bytes t).length

theorem str_eq_some {t : String} :
    str t s a i = some (j, ts) ↔ LiteralAt t s i j ∧ ts = [] := by
  rw [str, matchString_eq_some, LiteralAt, and_assoc]

/-- **A value without structure or content of its own**, by its rule. -/
inductive ScalarText (s : List UInt8) (i j : ℕ) : Rule → Prop
  | number : numberEnd s i = some j → ScalarText s i j .number
  | isTrue : LiteralAt "true" s i j → ScalarText s i j .boolean
  | isFalse : LiteralAt "false" s i j → ScalarText s i j .boolean
  | null : LiteralAt "null" s i j → ScalarText s i j .null

end Syntax

end TlsnDemo
