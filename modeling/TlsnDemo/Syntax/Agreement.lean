import TlsnDemo.Syntax.Bytes

/-!
# Texts that agree on a stretch

What is derived without whitespace depends on its own bytes alone, so it
carries over to any other text with the same bytes there. The exception is
a number at the very end: it is read as far as it goes, so the byte after
it decides where it stops. `NumberText` is a number read any number of its
parts far, and the number that is read is the longest of these.
-/

namespace TlsnDemo

open Peg Grammar

namespace Syntax

variable {s t : List UInt8} {i j k b f : ℕ} {ts : List Token} {p : UInt8 → Bool}

/-- **Two texts agree** from `i` up to `j`. -/
def Agree (s t : List UInt8) (i j : ℕ) : Prop := ∀ k, i ≤ k → k < j → s[k]? = t[k]?

namespace Agree

theorem symm (h : Agree s t i j) : Agree t s i j := fun k h1 h2 => (h k h1 h2).symm

theorem mono {i' j' : ℕ} (h : Agree s t i j) (hi : i ≤ i') (hj : j' ≤ j) : Agree s t i' j' :=
  fun k h1 h2 => h k (hi.trans h1) (h2.trans_le hj)

theorem get {c : UInt8} (h : Agree s t i j) (hk : s[k]? = some c) (h1 : i ≤ k) (h2 : k < j) :
    t[k]? = some c := h k h1 h2 ▸ hk

theorem at_eq (h : Agree s t i j) (h1 : i ≤ k) (h2 : k < j) : At p s k = At p t k := by
  unfold At
  rw [h k h1 h2]

theorem allIn (h : Agree s t i j) (hs : AllIn p s i j) : AllIn p t i j := fun k h1 h2 =>
  h k h1 h2 ▸ hs k h1 h2

theorem literalAt {l : String} (h : Agree s t i j) (hs : LiteralAt l s i j) : LiteralAt l t i j := by
  refine ⟨fun k hk => ?_, hs.2⟩
  have hlen := hs.2
  exact h.get (hs.1 k hk) (by omega) (by omega)

end Agree

/-! ## Numbers, as far as they go -/

/-- A stretch of a class is part of the run of it. -/
theorem AllIn.le_runEnd (h : AllIn p s i j) (hij : i ≤ j) :
    j ≤ runEnd p s i ∧ (j < runEnd p s i → At p s j = true) := by
  constructor
  · by_contra hlt
    obtain ⟨c, hc, hp⟩ := h (runEnd p s i) Peg.le_runEnd (by omega)
    rw [runEnd_stops hc] at hp
    exact absurd hp (by simp)
  · intro hlt
    exact at_iff.2 (of_lt_runEnd hij hlt)

/-- An integer part, perhaps not all of its digits. -/
def IntText (s : List UInt8) (i b : ℕ) : Prop :=
  s[i]? = some 0x30 ∧ b = i + 1 ∨
    At isAsciiNonzeroDigit s i = true ∧ i < b ∧ AllIn isAsciiDigit s (i + 1) b

/-- A fraction or none, perhaps not all of its digits. -/
def FracText (s : List UInt8) (b f : ℕ) : Prop :=
  f = b ∨ s[b]? = some 0x2e ∧ b < f ∧ AllIn isAsciiDigit s (b + 1) f

/-- An exponent or none, perhaps not all of its digits. -/
def ExpText (s : List UInt8) (f j : ℕ) : Prop :=
  j = f ∨ At isExponentMark s f = true ∧ exponentDigits s (f + 1) < j ∧
    AllIn isAsciiDigit s (exponentDigits s (f + 1)) j

/-- **A number as far as it goes**, which need not be all the way. -/
def NumberText (s : List UInt8) (i j : ℕ) : Prop :=
  ∃ b f, IntText s (signEnd s i) b ∧ FracText s b f ∧ ExpText s f j

/-- A byte that a number may go on with. -/
def isNumberNext (c : UInt8) : Bool := isAsciiDigit c || c == 0x2e || isExponentMark c

theorem le_signEnd : i ≤ signEnd s i := by
  unfold signEnd
  split <;> omega

theorem le_exponentDigits : i ≤ exponentDigits s i := by
  unfold exponentDigits
  split <;> omega

theorem IntText.lt (h : IntText s i b) : i < b := by
  rcases h with ⟨-, rfl⟩ | ⟨-, h, -⟩ <;> omega

theorem FracText.le (h : FracText s b f) : b ≤ f := by
  rcases h with rfl | ⟨-, h, -⟩ <;> omega

theorem ExpText.le (h : ExpText s f j) : f ≤ j := by
  have h1 := le_exponentDigits (s := s) (i := f + 1)
  rcases h with rfl | ⟨-, h, -⟩ <;> omega

theorem NumberText.lt (h : NumberText s i j) : i < j := by
  obtain ⟨b, f, hb, hf, hj⟩ := h
  have h1 := le_signEnd (s := s) (i := i)
  have h2 := hb.lt
  have h3 := hf.le
  have h4 := hj.le
  omega

/-- What the grammar reads is such a number. -/
theorem numberText_of_end (h : numberEnd s i = some j) : NumberText s i j := by
  obtain ⟨b, hb, rfl⟩ := Option.map_eq_some_iff.1 h
  refine ⟨b, fracEnd s b, ?_, ?_, ?_⟩
  · unfold intEnd at hb
    split at hb
    · next hz =>
      simp only [Option.some.injEq] at hb
      exact Or.inl ⟨hz, hb.symm⟩
    · split at hb
      · next hd =>
        simp only [Option.some.injEq] at hb
        have hle := Peg.le_runEnd (f := isAsciiDigit) (s := s) (i := signEnd s i + 1)
        exact Or.inr ⟨hd, by omega, hb ▸ AllIn.run⟩
      · simp at hb
  · unfold fracEnd
    split
    · next hdot =>
      have hle := Peg.le_runEnd (f := isAsciiDigit) (s := s) (i := b + 1)
      exact Or.inr ⟨hdot, by omega, AllIn.run⟩
    · exact Or.inl rfl
  · generalize fracEnd s b = f
    unfold expEnd
    split
    · next hm =>
      split
      · next hd =>
        obtain ⟨c, hc, hp⟩ := at_iff.1 hd
        have hle := Peg.le_runEnd (f := isAsciiDigit) (s := s) (i := exponentDigits s (f + 1) + 1)
        have hrun := runEnd_of_true hc hp
        exact Or.inr ⟨hm, by omega, AllIn.run⟩
      · exact Or.inl rfl
    · exact Or.inl rfl

theorem numberNext_of_digit {c : UInt8} (h : isAsciiDigit c = true) : isNumberNext c = true := by
  simp [isNumberNext, h]

theorem at_digit_ne {c : UInt8} (h : At isAsciiDigit s i = true) (hi : s[i]? = some c)
    (hc : isAsciiDigit c = false) : False := by
  obtain ⟨d, hd, hp⟩ := at_iff.1 h
  rw [hi, Option.some.injEq] at hd
  rw [← hd, hc] at hp
  exact absurd hp (by simp)

theorem not_digit_of_mark {c : UInt8} (h : isExponentMark c = true) :
    isAsciiDigit c = false ∧ c ≠ 0x2e := by
  simp only [isExponentMark, Bool.or_eq_true, beq_iff_eq] at h
  rcases h with rfl | rfl <;> decide

/-- The integer part goes on at least as far, and over digits. -/
theorem IntText.exists_end (h : IntText s i b) :
    ∃ b', intEnd s i = some b' ∧ b ≤ b' ∧ (b < b' → At isAsciiDigit s b = true) := by
  rcases h with ⟨hz, rfl⟩ | ⟨hd, hlt, hall⟩
  · exact ⟨i + 1, by rw [intEnd, if_pos hz], le_rfl, fun h => absurd h (by omega)⟩
  · refine ⟨runEnd isAsciiDigit s (i + 1), ?_, hall.le_runEnd hlt⟩
    have hz : s[i]? ≠ some 0x30 := by
      intro hz
      obtain ⟨c, hc, hp⟩ := at_iff.1 hd
      rw [hz, Option.some.injEq] at hc
      rw [← hc] at hp
      exact absurd hp (by decide)
    rw [intEnd, if_neg hz, if_pos hd]

/-- The fraction goes on at least as far, and over a dot or digits. -/
theorem FracText.le_end (h : FracText s b f) :
    f ≤ fracEnd s b ∧
      (f < fracEnd s b → s[f]? = some 0x2e ∨ At isAsciiDigit s f = true) := by
  unfold fracEnd
  rcases h with rfl | ⟨hdot, hlt, hall⟩
  · split
    · next hdot =>
      have := Peg.le_runEnd (f := isAsciiDigit) (s := s) (i := f + 1)
      exact ⟨by omega, fun _ => Or.inl hdot⟩
    · exact ⟨le_rfl, fun h => absurd h (by omega)⟩
  · rw [if_pos hdot]
    obtain ⟨h1, h2⟩ := hall.le_runEnd hlt
    exact ⟨h1, fun h => Or.inr (h2 h)⟩

/-- The exponent goes on at least as far, and over its mark or digits. -/
theorem ExpText.le_end (h : ExpText s f j) :
    j ≤ expEnd s f ∧
      (j < expEnd s f → At isExponentMark s j = true ∨ At isAsciiDigit s j = true) := by
  have hle := le_exponentDigits (s := s) (i := f + 1)
  rcases h with rfl | ⟨hm, hlt, hall⟩
  · unfold expEnd
    split
    · next hm =>
      split
      · have := Peg.le_runEnd (f := isAsciiDigit) (s := s) (i := exponentDigits s (j + 1))
        exact ⟨by omega, fun _ => Or.inl hm⟩
      · exact ⟨le_rfl, fun h => absurd h (by omega)⟩
    · exact ⟨le_rfl, fun h => absurd h (by omega)⟩
  · obtain ⟨h1, h2⟩ := hall.le_runEnd hlt.le
    have hd : At isAsciiDigit s (exponentDigits s (f + 1)) = true :=
      at_iff.2 (hall _ le_rfl hlt)
    rw [expEnd, if_pos hm, if_pos hd]
    exact ⟨h1, fun h => Or.inr (h2 h)⟩

/-- **The number that is read is the longest**: where it goes on, it does
so over a byte a number may go on with. -/
theorem NumberText.exists_end (h : NumberText s i j) :
    ∃ y, numberEnd s i = some y ∧ j ≤ y ∧ (j < y → At isNumberNext s j = true) := by
  obtain ⟨b, f, hb, hf, hj⟩ := h
  obtain ⟨b', hb', hle, hgo⟩ := hb.exists_end
  refine ⟨expEnd s (fracEnd s b'), by rw [numberEnd, hb', Option.map_some], ?_⟩
  have hnext : ∀ {k}, At isAsciiDigit s k = true → At isNumberNext s k = true := by
    intro k h
    obtain ⟨c, hc, hp⟩ := at_iff.1 h
    exact at_iff.2 ⟨c, hc, numberNext_of_digit hp⟩
  have hfe : ∀ k, k ≤ fracEnd s k := fun k => (FracText.le_end (Or.inl rfl)).1
  have hee : ∀ k, k ≤ expEnd s k := fun k => (ExpText.le_end (Or.inl rfl)).1
  -- a part that stops short of its digits is the last one
  have hexp : ∀ {k}, (s[k]? = some 0x2e ∨ At isAsciiDigit s k = true) → ExpText s k j → j = k := by
    rintro k hk (h | ⟨hm, -, -⟩)
    · exact h
    · obtain ⟨c, hc, hp⟩ := at_iff.1 hm
      obtain ⟨h1, h2⟩ := not_digit_of_mark hp
      rcases hk with hk | hk
      · rw [hc, Option.some.injEq] at hk
        exact absurd hk h2
      · exact (at_digit_ne hk hc h1).elim
  rcases Nat.eq_or_lt_of_le hle with rfl | hlt
  · obtain ⟨h1, h2⟩ := hf.le_end
    rcases Nat.eq_or_lt_of_le h1 with heq | hlt
    · rw [heq] at hj
      obtain ⟨h3, h4⟩ := hj.le_end
      refine ⟨h3, fun h => ?_⟩
      rcases h4 h with h | h
      · obtain ⟨c, hc, hp⟩ := at_iff.1 h
        exact at_iff.2 ⟨c, hc, by simp [isNumberNext, hp]⟩
      · exact hnext h
    · obtain rfl := hexp (h2 hlt) hj
      refine ⟨h1.trans (hee _), fun _ => ?_⟩
      rcases h2 hlt with h | h
      · exact at_iff.2 ⟨_, h, by decide⟩
      · exact hnext h
  · have hd := hgo hlt
    obtain rfl : f = b := by
      rcases hf with h | ⟨hdot, -, -⟩
      · exact h
      · exact (at_digit_ne hd hdot (by decide)).elim
    obtain rfl := hexp (Or.inr hd) hj
    exact ⟨hle.trans ((hfe _).trans (hee _)), fun _ => hnext hd⟩

theorem NumberText.end_eq (h : NumberText s i j) (hs : Stops isNumberNext s j) :
    numberEnd s i = some j := by
  obtain ⟨y, hy, hle, hgo⟩ := h.exists_end
  rcases Nat.eq_or_lt_of_le hle with rfl | hlt
  · exact hy
  · obtain ⟨c, hc, hp⟩ := at_iff.1 (hgo hlt)
    rw [hs c hc] at hp
    exact absurd hp (by simp)

theorem Agree.numberText (h : Agree s t i j) (hn : NumberText s i j) : NumberText t i j := by
  have hlt := hn.lt
  have hsign : signEnd s i = signEnd t i := by
    unfold signEnd
    rw [h i le_rfl hlt]
  obtain ⟨b, f, hb, hf, hj⟩ := hn
  have h1 := le_signEnd (s := s) (i := i)
  have h2 := hb.lt
  have h3 := hf.le
  have h4 := hj.le
  refine ⟨b, f, ?_, ?_, ?_⟩
  · rw [← hsign]
    rcases hb with ⟨hz, rfl⟩ | ⟨hd, hlt', hall⟩
    · exact Or.inl ⟨h.get hz h1 (by omega), rfl⟩
    · have hd' : At isAsciiNonzeroDigit t (signEnd s i) = true := by
        rw [← h.at_eq h1 (by omega)]
        exact hd
      exact Or.inr ⟨hd', hlt', (h.mono (by omega) (by omega)).allIn hall⟩
  · rcases hf with rfl | ⟨hdot, hlt', hall⟩
    · exact Or.inl rfl
    · exact Or.inr ⟨h.get hdot (by omega) (by omega), hlt', (h.mono (by omega) (by omega)).allIn hall⟩
  · rcases hj with rfl | ⟨hm, hlt', hall⟩
    · exact Or.inl rfl
    · have hle := le_exponentDigits (s := s) (i := f + 1)
      have hexp : exponentDigits s (f + 1) = exponentDigits t (f + 1) := by
        unfold exponentDigits
        rw [h.at_eq (p := isSign) (by omega) (by omega)]
      rw [hexp] at hlt' hall hle
      have hm' : At isExponentMark t f = true := by
        rw [← h.at_eq (by omega) (by omega)]
        exact hm
      exact Or.inr ⟨hm', hlt', (h.mono (by omega) le_rfl).allIn hall⟩

/-! ## Derivations without whitespace -/

theorem Agree.scalarText {r : Rule} (h : Agree s t i j) (hs : ScalarText s i j r)
    (hstop : r = .number → Stops isNumberNext t j) : ScalarText t i j r := by
  cases hs with
  | number hn => exact .number ((h.numberText (numberText_of_end hn)).end_eq (hstop rfl))
  | isTrue hl => exact .isTrue (h.literalAt hl)
  | isFalse hl => exact .isFalse (h.literalAt hl)
  | null hl => exact .null (h.literalAt hl)

theorem Agree.keyText (h : Agree s t i j) (hk : KeyText s .compoundAtomic i j) :
    KeyText t .compoundAtomic i j := by
  obtain ⟨c, hc, hp⟩ := hk.first
  refine ⟨⟨c, h.get hc le_rfl hk.lt, hp⟩, hk.lt, fun k h1 h2 => ?_, fun h => absurd h (by decide)⟩
  rw [← h k h1 h2]
  exact hk.mem k h1 h2

theorem Agree.stringText (h : Agree s t i j) (hs : StringText s .compoundAtomic i j) :
    StringText t .compoundAtomic i j := by
  refine ⟨hs.le, fun k h1 h2 => ?_, fun h => absurd h (by decide)⟩
  rw [← h k h1 h2]
  exact hs.mem k h1 h2

theorem KeyColon.transfer {e : ℕ} (hk : KeyColon s i e) (hag : Agree s t i j) (hj : e + 2 ≤ j) :
    KeyColon t i e := by
  have hlt := hk.lt
  have hclosing := hag.get hk.closing (by omega) (by omega)
  exact ⟨hag.get hk.opening le_rfl (by omega),
    ⟨hlt, (hag.mono (by omega) (by omega)).allIn hk.key.allIn, Stops.of_eq hclosing (by decide)⟩,
    hclosing, hag.get hk.colon (by omega) (by omega)⟩

theorem Bracket.not_numberNext (b : Bracket) : isNumberNext b.closing = false := by
  cases b <;> decide

/-- **A derivation without whitespace carries over** to a text that agrees
with its own, where no number at its end goes on. -/
theorem Derives.transfer {φ : Phrase} (h : Derives s .compoundAtomic φ i j ts)
    (hag : Agree s t i j) (hstop : Stops isNumberNext t j) : Derives t .compoundAtomic φ i j ts := by
  induction h with
  | @empty b i j hopen hj hclose =>
    have hle := le_of_skip hj
    exact Derives.empty b (hag.get hopen le_rfl (by omega)) hj (hag.get hclose (by omega) (by omega))
  | @filled b i j k l ts hopen hj hitems hl hclose ih =>
    have h1 := le_of_skip hj
    have h2 := hitems.lt
    have h3 := le_of_skip hl
    have hclose' := hag.get hclose (by omega) (by omega)
    refine Derives.filled b (hag.get hopen le_rfl (by omega)) hj
      (ih (hag.mono (by omega) (by omega)) ?_) hl hclose'
    rw [skip_compoundAtomic] at hl
    exact Stops.of_eq (hl ▸ hclose') b.not_numberNext
  | @string i j k l hq hj ht hl hq' =>
    have h1 := le_of_skip hj
    have h2 := ht.le
    have h3 := le_of_skip hl
    exact Derives.string (hag.get hq le_rfl (by omega)) hj
      ((hag.mono (by omega) (by omega)).stringText ht) hl (hag.get hq' (by omega) (by omega))
  | scalar hs => exact Derives.scalar (hag.scalarText hs fun _ => hstop)
  | @pair i kb ke q c v j ts hq hkb hk hqe hq' hc hcol hv hval ih =>
    have h1 := le_of_skip hkb
    have h2 := hk.lt
    have h3 := le_of_skip hqe
    have h4 := le_of_skip hc
    have h5 := le_of_skip hv
    have h6 := hval.lt
    exact Derives.pair (hag.get hq le_rfl (by omega)) hkb
      ((hag.mono (by omega) (by omega)).keyText hk) hqe (hag.get hq' (by omega) (by omega)) hc
      (hag.get hcol (by omega) (by omega)) hv (ih (hag.mono (by omega) le_rfl) hstop)
  | last b _ ih => exact Derives.last b (ih hag hstop)
  | @more b i j c m k ts us hi hc hcom hm hitems ih1 ih2 =>
    have h1 := hi.lt
    have h2 := le_of_skip hc
    have h3 := le_of_skip hm
    have h4 := hitems.lt
    have hcom' := hag.get hcom (by omega) (by omega)
    refine Derives.more b (ih1 (hag.mono le_rfl (by omega)) ?_) hc hcom' hm
      (ih2 (hag.mono (by omega) le_rfl) hstop)
    rw [skip_compoundAtomic] at hc
    exact Stops.of_eq (hc ▸ hcom') (by decide)

/-- A value that is no number carries over whatever comes after it. -/
theorem Derives.transfer_value {v : Token} (h : Derives s .compoundAtomic .value i j [v])
    (hag : Agree s t i j) (hstop : v.asRule = .number → Stops isNumberNext t j) :
    Derives t .compoundAtomic .value i j [v] := by
  cases h with
  | @empty b _ j hopen hj hclose =>
    have hle := le_of_skip hj
    exact Derives.empty b (hag.get hopen le_rfl (by omega)) hj (hag.get hclose (by omega) (by omega))
  | @filled b _ j k l ts hopen hj hitems hl hclose =>
    have h1 := le_of_skip hj
    have h2 := hitems.lt
    have h3 := le_of_skip hl
    have hclose' := hag.get hclose (by omega) (by omega)
    rw [skip_compoundAtomic] at hl
    exact Derives.filled b (hag.get hopen le_rfl (by omega)) hj
      (hitems.transfer (hag.mono (by omega) (by omega))
        (Stops.of_eq (hl ▸ hclose') b.not_numberNext)) hl hclose'
  | @string _ j k l hq hj ht hl hq' =>
    have h1 := le_of_skip hj
    have h2 := ht.le
    have h3 := le_of_skip hl
    exact Derives.string (hag.get hq le_rfl (by omega)) hj
      ((hag.mono (by omega) (by omega)).stringText ht) hl (hag.get hq' (by omega) (by omega))
  | scalar hs => exact Derives.scalar (hag.scalarText hs hstop)

end Syntax

end TlsnDemo
