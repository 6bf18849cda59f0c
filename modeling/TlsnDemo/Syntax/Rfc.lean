import TlsnDemo.Syntax.Agreement
import TlsnDemo.Syntax.Bytes

/-!
# JSON as RFC 8259 has it

The grammar of JSON texts of the RFC, over the same bytes: `Json` says
which stretch of the input is a value, a member or a list of either, and
with which tree. Its strings have escapes, its numbers digits after the
point, and its whitespace four bytes. The bytes of a character outside
ASCII are admitted in a string without a look at their encoding.

The strings of the grammar are a parameter, so that the documents without
an escaped quote are the same grammar with fewer strings.
-/

namespace TlsnDemo

open Peg Grammar

namespace Syntax

variable {s : List UInt8} {i j k : ℕ}

abbrev backslash : UInt8 := 0x5c

/-- What a token of a JSON text is. -/
inductive Kind where
  | object
  | array
  | member
  | name
  | string
  | number
  | boolean
  | null
  deriving DecidableEq, Repr

/-- The tree of a JSON text, with the extents of its tokens. -/
abbrev Tree := Pair Kind

def Bracket.kind : Bracket → Kind
  | .object => .object
  | .array => .array

/-! ## Tokens -/

/-- A blank is a space, a tab, a line feed or a carriage return. -/
def isBlank (c : UInt8) : Bool := c == 0x20 || c == 0x09 || c == 0x0a || c == 0x0d

/-- Blanks and nothing else. -/
def Blanks (s : List UInt8) (i j : ℕ) : Prop := i ≤ j ∧ AllIn isBlank s i j

/-- A byte of an unescaped character. -/
def isUnescaped (c : UInt8) : Bool := 0x20 ≤ c && c != quote && c != backslash

/-- A byte that a backslash escapes by itself. -/
def isEscape (c : UInt8) : Bool := (bytes "\"\\/bfnrt").contains c

def isHexDigit (c : UInt8) : Bool :=
  isAsciiDigit c || (0x41 ≤ c && c ≤ 0x46) || (0x61 ≤ c && c ≤ 0x66)

/-- The characters of a string. -/
inductive Chars (s : List UInt8) : ℕ → ℕ → Prop
  | nil {i : ℕ} : Chars s i i
  | unescaped {i j : ℕ} {c : UInt8} :
      s[i]? = some c → isUnescaped c = true → Chars s (i + 1) j → Chars s i j
  | escape {i j : ℕ} {c : UInt8} :
      s[i]? = some backslash → s[i + 1]? = some c → isEscape c = true → Chars s (i + 2) j →
      Chars s i j
  | unicode {i j : ℕ} :
      s[i]? = some backslash → s[i + 1]? = some 0x75 → AllIn isHexDigit s (i + 2) (i + 6) →
      Chars s (i + 6) j → Chars s i j

/-- A string with its quotes. -/
def IsString (s : List UInt8) (i j : ℕ) : Prop :=
  ∃ k, j = k + 1 ∧ s[i]? = some quote ∧ Chars s (i + 1) k ∧ s[k]? = some quote

/-- A string that has no quote between its quotes. -/
def PlainString (s : List UInt8) (i j : ℕ) : Prop :=
  IsString s i j ∧ ∀ k, i < k → k + 1 < j → s[k]? ≠ some quote

/-- A number: a sign, digits without a leading zero, a fraction and an
exponent. -/
def IsNumber (s : List UInt8) (i j : ℕ) : Prop :=
  ∃ m b f, (m = i ∨ s[i]? = some 0x2d ∧ m = i + 1) ∧
    (s[m]? = some 0x30 ∧ b = m + 1 ∨
      At isAsciiNonzeroDigit s m = true ∧ m < b ∧ AllIn isAsciiDigit s (m + 1) b) ∧
    (f = b ∨ s[b]? = some 0x2e ∧ b + 1 < f ∧ AllIn isAsciiDigit s (b + 1) f) ∧
    (j = f ∨ At isExponentMark s f = true ∧
      ∃ d, (d = f + 1 ∨ At isSign s (f + 1) = true ∧ d = f + 2) ∧ d < j ∧
        AllIn isAsciiDigit s d j)

/-! ## Phrases -/

/-- **The grammar of JSON texts**, with the trees of each phrase. -/
inductive Json (S : ℕ → ℕ → Prop) (s : List UInt8) : Phrase → ℕ → ℕ → List Tree → Prop
  | empty (b : Bracket) {i j : ℕ} :
      s[i]? = some b.opening → Blanks s (i + 1) j → s[j]? = some b.closing →
      Json S s .value i (j + 1) [.node b.kind i (j + 1) []]
  | filled (b : Bracket) {i j k l : ℕ} {ts : List Tree} :
      s[i]? = some b.opening → Blanks s (i + 1) j → Json S s (.items b) j k ts →
      Blanks s k l → s[l]? = some b.closing →
      Json S s .value i (l + 1) [.node b.kind i (l + 1) ts]
  | string {i j : ℕ} : S i j → Json S s .value i j [.node .string i j []]
  | number {i j : ℕ} : IsNumber s i j → Json S s .value i j [.node .number i j []]
  | isTrue {i j : ℕ} : LiteralAt "true" s i j → Json S s .value i j [.node .boolean i j []]
  | isFalse {i j : ℕ} : LiteralAt "false" s i j → Json S s .value i j [.node .boolean i j []]
  | null {i j : ℕ} : LiteralAt "null" s i j → Json S s .value i j [.node .null i j []]
  /-- `q` is the end of the name, `c` the colon and `v` the start of the
  value. -/
  | member {i q c v j : ℕ} {ts : List Tree} :
      S i q → Blanks s q c → s[c]? = some colon → Blanks s (c + 1) v → Json S s .value v j ts →
      Json S s .pair i j [.node .member i j (.node .name i q [] :: ts)]
  | last (b : Bracket) {i j : ℕ} {ts : List Tree} :
      Json S s b.item i j ts → Json S s (.items b) i j ts
  /-- `c` is the comma and `m` the start of the next item. -/
  | more (b : Bracket) {i j c m k : ℕ} {ts us : List Tree} :
      Json S s b.item i j ts → Blanks s j c → s[c]? = some comma → Blanks s (c + 1) m →
      Json S s (.items b) m k us → Json S s (.items b) i k (ts ++ us)

/-- **A JSON text**: a value between blanks. -/
def IsJsonText (s : List UInt8) (t : Tree) : Prop :=
  ∃ i j, Blanks s 0 i ∧ Json (IsString s) s .value i j [t] ∧ Blanks s j s.length

/-! ## Trees and tokens -/

/-- The rule for the tokens of a kind. -/
def Kind.rule : Kind → Rule
  | .object => .object
  | .array => .array
  | .member => .pair
  | .name => .key
  | .string => .string
  | .number => .number
  | .boolean => .boolean
  | .null => .null

/-- **A token fits a tree**: it is of the tree's kind, its span lies in the
tree's extent, and the tokens inside fit the parts of the tree, one by
one. -/
inductive Fits : Tree → Token → Prop
  | node (kind : Kind) {i j x y : ℕ} {ts : List Tree} {us : List Token} :
      i ≤ x → y ≤ j → List.Forall₂ Fits ts us →
      Fits (.node kind i j ts) (.node kind.rule x y us)

theorem Bracket.rule_kind (b : Bracket) : b.kind.rule = b.rule := by cases b <;> rfl

/-! ## Blanks and first bytes -/

theorem whitespace_of_blank {c : UInt8} (h : isBlank c = true) : isWhitespace c = true := by
  simp only [isBlank, Bool.or_eq_true, beq_iff_eq] at h
  rw [whitespace_iff]
  tauto

/-- The grammar's whitespace ends where the blanks do. -/
theorem Blanks.skip {c : UInt8} (h : Blanks s i j) (hc : s[j]? = some c)
    (hw : isWhitespace c = false) : j = Syntax.skip s .nonAtomic i := by
  rw [skip_nonAtomic]
  refine (runEnd_eq h.1 (fun k h1 h2 => ?_) (Stops.of_eq hc hw)).symm
  obtain ⟨d, hd, hb⟩ := h.2 k h1 h2
  exact ⟨d, hd, whitespace_of_blank hb⟩

theorem IsNumber.first (h : IsNumber s i j) :
    ∃ c, s[i]? = some c ∧ (c = 0x2d ∨ isAsciiDigit c = true) := by
  obtain ⟨m, b, f, hm, hb, -⟩ := h
  rcases hm with rfl | ⟨hsign, -⟩
  · rcases hb with ⟨hzero, -⟩ | ⟨hd, -⟩
    · exact ⟨_, hzero, Or.inr (by decide)⟩
    · obtain ⟨c, hc, hd⟩ := at_iff.1 hd
      exact ⟨c, hc, Or.inr (digit_of_nonzeroDigit hd)⟩
  · exact ⟨_, hsign, Or.inl rfl⟩

/-- A number is made of the bytes of scalars. -/
theorem IsNumber.allIn (h : IsNumber s i j) : i ≤ j ∧ AllIn isScalarChar s i j := by
  obtain ⟨m, b, f, hm, hb, hf, hj⟩ := h
  have hsign : i ≤ m ∧ AllIn isScalarChar s i m := by
    rcases hm with rfl | ⟨hc, rfl⟩
    · exact ⟨le_rfl, AllIn.nil⟩
    · exact ⟨Nat.le_succ i, AllIn.single hc (by decide)⟩
  have hint : m ≤ b ∧ AllIn isScalarChar s m b := by
    rcases hb with ⟨hc, rfl⟩ | ⟨hd, hlt, hall⟩
    · exact ⟨Nat.le_succ m, AllIn.single hc (by decide)⟩
    · obtain ⟨c, hc, hd⟩ := at_iff.1 hd
      exact ⟨hlt.le, (AllIn.single hc (scalarChar_of_nonzeroDigit hd)).append
        (hall.mono fun _ => scalarChar_of_digit)⟩
  have hfrac : b ≤ f ∧ AllIn isScalarChar s b f := by
    rcases hf with rfl | ⟨hc, hlt, hall⟩
    · exact ⟨le_rfl, AllIn.nil⟩
    · exact ⟨by omega, (AllIn.single hc (by decide)).append
        (hall.mono fun _ => scalarChar_of_digit)⟩
  have hexp : f ≤ j ∧ AllIn isScalarChar s f j := by
    rcases hj with rfl | ⟨hmark, d, hd, hlt, hall⟩
    · exact ⟨le_rfl, AllIn.nil⟩
    · obtain ⟨c, hc, hmark⟩ := at_iff.1 hmark
      have hfirst : AllIn isScalarChar s f (f + 1) := AllIn.single hc (scalarChar_of_mark hmark)
      have hdigits : AllIn isScalarChar s d j := hall.mono fun _ => scalarChar_of_digit
      rcases hd with rfl | ⟨hsign, rfl⟩
      · exact ⟨by omega, hfirst.append hdigits⟩
      · obtain ⟨c, hc, hsign⟩ := at_iff.1 hsign
        exact ⟨by omega, hfirst.append
          ((AllIn.single hc (scalarChar_of_sign hsign)).append hdigits)⟩
  exact ⟨hsign.1.trans (hint.1.trans (hfrac.1.trans hexp.1)),
    hsign.2.append (hint.2.append (hfrac.2.append hexp.2))⟩

/-- Every phrase starts with a byte of its own. -/
theorem Json.first {S : ℕ → ℕ → Prop} {φ : Phrase} {ts : List Tree} (h : Json S s φ i j ts)
    (hS : ∀ i j, S i j → s[i]? = some quote) : ∃ c, s[i]? = some c ∧ isValueStart c = true := by
  induction h with
  | empty b hopen _ _ => exact ⟨_, hopen, by cases b <;> decide⟩
  | filled b hopen _ _ _ _ _ => exact ⟨_, hopen, by cases b <;> decide⟩
  | string h => exact ⟨_, hS _ _ h, by decide⟩
  | number h =>
    obtain ⟨c, hc, rfl | hd⟩ := h.first
    · exact ⟨_, hc, by decide⟩
    · exact ⟨c, hc, by simp [isValueStart, hd]⟩
  | isTrue h => exact ⟨_, literalAt_first rfl h, by decide⟩
  | isFalse h => exact ⟨_, literalAt_first rfl h, by decide⟩
  | null h => exact ⟨_, literalAt_first rfl h, by decide⟩
  | member h _ _ _ _ _ => exact ⟨_, hS _ _ h, by decide⟩
  | last b _ ih => exact ih
  | more b _ _ _ _ _ ih _ => exact ih

end Syntax

end TlsnDemo
