import TlsnDemo.Syntax.Compact
import TlsnDemo.Syntax.Rfc

/-!
# Quotes inside and outside of strings

The strings of the message grammar have no escapes: a position is in a
string exactly when the number of quotes before it is odd, and a backslash
stands in strings only (`Derives.balanced`). A JSON text with an escaped
quote is off by one quote from there on, so that none of its later
backslashes could stand where the message grammar has strings, and the
text would end inside of one. So a JSON text that the message grammar
derives has no escaped quote (`Json.plain`).
-/

namespace TlsnDemo

open Peg Grammar

namespace Syntax

variable {s : List UInt8} {i j k l : ℕ} {φ : Phrase} {ts : List Token}

/-- Whether the number of quotes before a position is odd. -/
def insideAt (s : List UInt8) : ℕ → Bool
  | 0 => false
  | k + 1 => if s[k]? = some quote then !insideAt s k else insideAt s k

theorem insideAt_quote (h : s[k]? = some quote) : insideAt s (k + 1) = !insideAt s k := if_pos h

theorem insideAt_other (h : s[k]? ≠ some quote) : insideAt s (k + 1) = insideAt s k := if_neg h

/-- Over a stretch without quotes nothing changes. -/
theorem insideAt_stretch (hij : i ≤ j) (h : ∀ k, i ≤ k → k < j → s[k]? ≠ some quote) :
    insideAt s j = insideAt s i := by
  induction j, hij using Nat.le_induction with
  | base => rfl
  | succ j hij ih =>
    rw [insideAt_other (h j hij (Nat.lt_succ_self j))]
    exact ih fun k h1 h2 => h k h1 (h2.trans (Nat.lt_succ_self j))

/-- **Backslashes stand inside**, on a stretch. -/
def Quoted (s : List UInt8) (i j : ℕ) : Prop :=
  ∀ k, i ≤ k → k < j → s[k]? = some backslash → insideAt s k = true

/-- **A balanced stretch**: from outside to outside, with the backslashes
inside. -/
def Balanced (s : List UInt8) (i j : ℕ) : Prop :=
  insideAt s i = false → insideAt s j = false ∧ Quoted s i j

namespace Balanced

theorem append (h : Balanced s i j) (h' : Balanced s j k) : Balanced s i k := by
  intro hi
  obtain ⟨hj, hq⟩ := h hi
  obtain ⟨hk, hq'⟩ := h' hj
  refine ⟨hk, fun m h1 h2 => ?_⟩
  rcases Nat.lt_or_ge m j with hlt | hge
  · exact hq m h1 hlt
  · exact hq' m hge h2

/-- Bytes that are neither quotes nor backslashes. -/
theorem plain {f : UInt8 → Bool} (hij : i ≤ j) (h : AllIn f s i j) (hquote : f quote = false)
    (hback : f backslash = false) : Balanced s i j := by
  have hne : ∀ {k c}, i ≤ k → k < j → f c = false → s[k]? ≠ some c := by
    intro k c h1 h2 hc heq
    obtain ⟨d, hd, hfd⟩ := h k h1 h2
    rw [heq, Option.some.injEq] at hd
    rw [← hd, hc] at hfd
    exact absurd hfd (by simp)
  intro hi
  refine ⟨?_, fun k h1 h2 hk => absurd hk (hne h1 h2 hback)⟩
  rw [insideAt_stretch hij fun k h1 h2 => hne h1 h2 hquote]
  exact hi

theorem byte {c : UInt8} (h : s[i]? = some c) (hquote : c ≠ quote) (hback : c ≠ backslash) :
    Balanced s i (i + 1) := by
  refine plain (f := fun d => d == c) (Nat.le_succ i) (AllIn.single h (by simp)) ?_ ?_
  · simpa using hquote.symm
  · simpa using hback.symm

theorem skip : Balanced s i (skip s .nonAtomic i) :=
  plain le_skipTo AllIn.run (by decide) (by decide)

/-- Two quotes with no quote between them. -/
theorem string (hq : s[i]? = some quote) (hlt : i < l) (hq' : s[l]? = some quote)
    (h : ∀ k, i < k → k < l → s[k]? ≠ some quote) : Balanced s i (l + 1) := by
  intro hi
  have hin : ∀ k, i < k → k ≤ l → insideAt s k = true := by
    intro k h1 h2
    rw [insideAt_stretch h1 fun m h3 h4 => h m h3 (by omega), insideAt_quote hq, hi]
    rfl
  refine ⟨by rw [insideAt_quote hq', hin l hlt le_rfl]; rfl, fun k h1 h2 hk => ?_⟩
  rcases Nat.eq_or_lt_of_le h1 with rfl | h1
  · rw [hq] at hk
    exact absurd hk (by decide)
  · exact hin k h1 (by omega)

end Balanced

/-- **The message grammar is balanced.** -/
theorem Derives.balanced (h : Derives s .nonAtomic φ i j ts) : Balanced s i j := by
  have hbracket : ∀ b : Bracket, ∀ c, (c = b.opening ∨ c = b.closing) → c ≠ quote ∧ c ≠ backslash := by
    intro b c hc
    cases b <;> rcases hc with rfl | rfl <;> decide
  have hopening : ∀ {b : Bracket} {i}, s[i]? = some b.opening → Balanced s i (i + 1) := by
    intro b i hopen
    exact .byte hopen (hbracket b _ (Or.inl rfl)).1 (hbracket b _ (Or.inl rfl)).2
  have hclosing : ∀ {b : Bracket} {i}, s[i]? = some b.closing → Balanced s i (i + 1) := by
    intro b i hclose
    exact .byte hclose (hbracket b _ (Or.inr rfl)).1 (hbracket b _ (Or.inr rfl)).2
  induction h with
  | empty b hopen hj hclose =>
    subst hj
    exact (hopening hopen).append (Balanced.skip.append (hclosing hclose))
  | filled b hopen hj _ hl hclose ih =>
    subst hj hl
    exact (hopening hopen).append (Balanced.skip.append (ih.append
      (Balanced.skip.append (hclosing hclose))))
  | string hq hj ht hl hq' =>
    have h1 := le_of_skip hj
    have h2 := ht.le
    have h3 := le_of_skip hl
    exact Balanced.string hq (by omega) hq'
      fun k hk hk' => ne_quote_inside hj hl (fun m => ht.ne_quote) hk hk'
  | scalar h => exact Balanced.plain h.lt.le h.allIn (by decide) (by decide)
  | pair hq hkb hk hqe hq' hc hcol hv _ ih =>
    have h1 := le_of_skip hkb
    have h2 := hk.lt
    have h3 := le_of_skip hqe
    have hkey := Balanced.string hq (by omega) hq'
      fun k hk1 hk2 => ne_quote_inside hkb hqe (fun m => hk.ne_quote) hk1 hk2
    subst hc hv
    exact hkey.append (Balanced.skip.append ((Balanced.byte hcol (by decide) (by decide)).append
      (Balanced.skip.append ih)))
  | last b _ ih => exact ih
  | more b _ hc hcom hm _ ih1 ih2 =>
    subst hc hm
    exact ih1.append (Balanced.skip.append ((Balanced.byte hcom (by decide) (by decide)).append
      (Balanced.skip.append ih2)))

/-- **A colon right behind a byte that is neither whitespace nor a quote**
stands in a string. -/
theorem Derives.string_of_colon {c : UInt8} (h : Derives s .nonAtomic φ i j ts) (hi : i ≤ k + 1)
    (hj : k + 1 < j) (hcolon : s[k + 1]? = some colon) (hc : s[k]? = some c)
    (hw : isWhitespace c = false) (hquote : c ≠ quote) :
    ∃ σ, Occurs σ ts ∧ σ.asRule = .string ∧ σ.start ≤ k + 1 ∧ k + 1 < σ.stop := by
  have hne : ∀ {m : ℕ} {d : UInt8}, s[m]? = some d → d ≠ colon → m ≠ k + 1 := by
    rintro m d hd hdc rfl
    rw [hcolon, Option.some.injEq] at hd
    exact hdc hd.symm
  have hskip : ∀ {m n : ℕ}, n = skip s .nonAtomic m → m ≤ k + 1 → n ≤ k + 1 := fun hn hm =>
    hn ▸ skip_le hm hcolon (by decide)
  induction h with
  | @empty b i j hopen hj' hclose =>
    have h1 := hne hopen (by cases b <;> decide)
    have h2 := hne hclose (by cases b <;> decide)
    have h3 := hskip hj' (by omega)
    omega
  | @filled b i j l m ts hopen hj' hitems hl hclose ih =>
    have h1 := hne hopen (by cases b <;> decide)
    have h2 := hne hclose (by cases b <;> decide)
    have h3 := hskip hj' (by omega)
    have h4 : k + 1 < l := by
      by_contra hge
      have := hskip hl (by omega)
      omega
    obtain ⟨σ, hσ, hin⟩ := ih h3 h4
    exact ⟨σ, Occurs.inner hσ, hin⟩
  | @string i j l m hq hj' ht hl hq' =>
    have h1 := hne hq (by decide)
    have h2 := hne hq' (by decide)
    have h3 := hskip hj' (by omega)
    refine ⟨_, Occurs.head, rfl, h3, ?_⟩
    by_contra hge
    have := hskip hl (not_lt.1 hge)
    omega
  | scalar h =>
    obtain ⟨d, hd, hf⟩ := h.allIn (k + 1) hi hj
    rw [hcolon, Option.some.injEq] at hd
    rw [← hd] at hf
    exact absurd hf (by decide)
  | @pair i kb ke q m v j ts hq hkb hk hqe hq' hm _ hv hval ih =>
    have h1 := hne hq (by decide)
    have h2 := hne hq' (by decide)
    have h3 := hskip hkb (by omega)
    have h4 : ke ≤ k + 1 := by
      by_contra hlt
      obtain ⟨d, hd, hf⟩ := hk.mem (k + 1) h3 (by omega)
      rw [hcolon, Option.some.injEq] at hd
      rw [← hd] at hf
      rcases hf with hf | ⟨-, hf⟩ <;> exact absurd hf (by decide)
    have h5 := hskip hqe h4
    have h6 := hskip hm (by omega)
    -- in front of the colon of the pair there is its quote, or whitespace
    have h7 : m ≠ k + 1 := by
      intro heq
      rcases Nat.eq_or_lt_of_le (show q ≤ k by omega) with rfl | hlt
      · rw [hc, Option.some.injEq] at hq'
        exact hquote hq'
      · obtain ⟨d, hd, hdw⟩ := of_lt_skipTo (f := isWhitespace) (a := .nonAtomic)
          (show q + 1 ≤ k from hlt) (show k < skip s .nonAtomic (q + 1) by omega)
        rw [hc, Option.some.injEq] at hd
        rw [← hd, hw] at hdw
        exact absurd hdw (by simp)
    obtain ⟨σ, hσ, hin⟩ := ih (hskip hv (by omega)) hj
    exact ⟨σ, Occurs.inner (Occurs.tail hσ), hin⟩
  | last b _ ih => exact ih hi hj
  | @more b i j m n l ts us hitem hm hcomma hn hitems ih1 ih2 =>
    have h1 := hne hcomma (by decide)
    rcases Nat.lt_or_ge (k + 1) j with hlt | hge
    · obtain ⟨σ, hσ, hin⟩ := ih1 hi hlt
      exact ⟨σ, occurs_append.2 (Or.inl hσ), hin⟩
    · have h2 := hskip hm hge
      obtain ⟨σ, hσ, hin⟩ := ih2 (hskip hn (by omega)) hj
      exact ⟨σ, occurs_append.2 (Or.inr hσ), hin⟩

/-! ## JSON texts -/

theorem ne_quote_of_hex (h : AllIn isHexDigit s i j) : ∀ k, i ≤ k → k < j → s[k]? ≠ some quote := by
  intro k h1 h2 hq
  obtain ⟨c, hc, hf⟩ := h k h1 h2
  rw [hq, Option.some.injEq] at hc
  rw [← hc] at hf
  exact absurd hf (by decide)

theorem ne_quote_of_unescaped {c : UInt8} (hc : s[i]? = some c) (h : isUnescaped c = true) :
    s[i]? ≠ some quote := by
  intro hq
  rw [hq, Option.some.injEq] at hc
  rw [← hc] at h
  exact absurd h (by decide)

theorem Chars.le (h : Chars s i j) : i ≤ j := by
  induction h with
  | nil => exact le_rfl
  | unescaped _ _ _ ih => omega
  | escape _ _ _ _ ih => omega
  | unicode _ _ _ _ ih => omega

/-- Characters that start outside, where no backslash stands, go on to the
next quote. -/
theorem Chars.outside (h : Chars s i j) (hq : Quoted s i j) (hi : insideAt s i = false) :
    ∀ k, i ≤ k → k < j → s[k]? ≠ some quote := by
  induction h with
  | nil => exact fun k h1 h2 => absurd h1 (by omega)
  | @unescaped i j c hc hf hrest ih =>
    have hne := ne_quote_of_unescaped hc hf
    intro k h1 h2
    rcases Nat.eq_or_lt_of_le h1 with rfl | hlt
    · exact hne
    · refine ih (fun m h3 h4 => hq m (by omega) h4) ?_ k hlt h2
      rw [insideAt_other hne, hi]
  | escape hc _ _ hrest _ =>
    have hlt := hrest.le
    have hin := hq _ le_rfl (by omega) hc
    rw [hi] at hin
    exact absurd hin (by simp)
  | unicode hc _ _ hrest _ =>
    have hlt := hrest.le
    have hin := hq _ le_rfl (by omega) hc
    rw [hi] at hin
    exact absurd hin (by simp)

/-- Characters that start inside have no quote, or end outside, behind the
first of them. -/
theorem Chars.inside (h : Chars s i j) (hq : Quoted s i j) (hi : insideAt s i = true) :
    (∀ k, i ≤ k → k < j → s[k]? ≠ some quote) ∨ insideAt s j = false := by
  induction h with
  | nil => exact Or.inl fun k h1 h2 => absurd h1 (by omega)
  | @unescaped i j c hc hf hrest ih =>
    have hne := ne_quote_of_unescaped hc hf
    have hin : insideAt s (i + 1) = true := by rw [insideAt_other hne, hi]
    rcases ih (fun m h3 h4 => hq m (by omega) h4) hin with hno | hout
    · refine Or.inl fun k h1 h2 => ?_
      rcases Nat.eq_or_lt_of_le h1 with rfl | hlt
      · exact hne
      · exact hno k hlt h2
    · exact Or.inr hout
  | @escape i j c hc hd hf hrest ih =>
    have hne : s[i]? ≠ some quote := by rw [hc]; decide
    have hin : insideAt s (i + 1) = true := by rw [insideAt_other hne, hi]
    have hrestq : Quoted s (i + 2) j := fun m h3 h4 => hq m (by omega) h4
    by_cases hquote : s[i + 1]? = some quote
    · -- The escaped quote leads outside, and no further quote comes.
      have hout : insideAt s (i + 2) = false := by rw [insideAt_quote hquote, hin]; rfl
      refine Or.inr ?_
      rw [insideAt_stretch hrest.le (hrest.outside hrestq hout)]
      exact hout
    · have hin' : insideAt s (i + 2) = true := by rw [insideAt_other hquote, hin]
      rcases ih hrestq hin' with hno | hout
      · refine Or.inl fun k h1 h2 => ?_
        rcases Nat.eq_or_lt_of_le h1 with rfl | hlt
        · exact hne
        · rcases Nat.eq_or_lt_of_le hlt with rfl | hlt
          · exact hquote
          · exact hno k hlt h2
      · exact Or.inr hout
  | @unicode i j hc hu hhex hrest ih =>
    have hno : ∀ k, i ≤ k → k < i + 6 → s[k]? ≠ some quote := by
      intro k h1 h2
      rcases Nat.eq_or_lt_of_le h1 with rfl | hlt
      · rw [hc]
        decide
      · rcases Nat.eq_or_lt_of_le hlt with rfl | hlt
        · rw [hu]
          decide
        · exact ne_quote_of_hex hhex k hlt h2
    have hin : insideAt s (i + 6) = true := by rw [insideAt_stretch (by omega) hno, hi]
    rcases ih (fun m h3 h4 => hq m (by omega) h4) hin with hno' | hout
    · refine Or.inl fun k h1 h2 => ?_
      rcases Nat.lt_or_ge k (i + 6) with hlt | hge
      · exact hno k h1 hlt
      · exact hno' k hge h2
    · exact Or.inr hout

/-- What a stretch of a JSON text does to the quotes: from inside it leads
inside, and from outside it leads inside too, unless it has property `P`
and leads outside. -/
def Shifts (s : List UInt8) (i j : ℕ) (P : Prop) : Prop :=
  (insideAt s i = true → insideAt s j = true) ∧
    (insideAt s i = false → insideAt s j = true ∨ insideAt s j = false ∧ P)

namespace Shifts

variable {P Q : Prop}

theorem append (h : Shifts s i j P) (h' : Shifts s j k Q) : Shifts s i k (P ∧ Q) := by
  refine ⟨fun hi => h'.1 (h.1 hi), fun hi => ?_⟩
  rcases h.2 hi with hj | ⟨hj, hp⟩
  · exact Or.inl (h'.1 hj)
  · rcases h'.2 hj with hk | ⟨hk, hq⟩
    · exact Or.inl hk
    · exact Or.inr ⟨hk, hp, hq⟩

theorem mono (h : Shifts s i j P) (hPQ : P → Q) : Shifts s i j Q :=
  ⟨h.1, fun hi => (h.2 hi).imp id fun hj => ⟨hj.1, hPQ hj.2⟩⟩

/-- A stretch without quotes. -/
theorem clear (hij : i ≤ j) (h : ∀ k, i ≤ k → k < j → s[k]? ≠ some quote) : Shifts s i j True := by
  have heq := insideAt_stretch hij h
  exact ⟨fun hi => heq.trans hi, fun hi => Or.inr ⟨heq.trans hi, trivial⟩⟩

theorem byte {c : UInt8} (h : s[i]? = some c) (hc : c ≠ quote) : Shifts s i (i + 1) True := by
  refine clear (Nat.le_succ i) fun k h1 h2 hq => ?_
  obtain rfl : k = i := by omega
  rw [h, Option.some.injEq] at hq
  exact hc hq

theorem blanks (h : Blanks s i j) : Shifts s i j True := by
  refine clear h.1 fun k h1 h2 hq => ?_
  obtain ⟨c, hc, hf⟩ := h.2 k h1 h2
  rw [hq, Option.some.injEq] at hc
  rw [← hc] at hf
  exact absurd hf (by decide)

end Shifts

/-- A string leads from inside to inside, and from outside to outside only
when it has no quote of its own. -/
theorem IsString.shifts (h : IsString s i j) (hq : Quoted s i j) : Shifts s i j (PlainString s i j) := by
  obtain ⟨k, rfl, hopen, hchars, hclose⟩ := h
  have hle := hchars.le
  have hq' : Quoted s (i + 1) k := fun m h1 h2 => hq m (by omega) (by omega)
  have hend : insideAt s (k + 1) = !insideAt s k := insideAt_quote hclose
  constructor
  · intro hi
    have hout : insideAt s (i + 1) = false := by rw [insideAt_quote hopen, hi]; rfl
    rw [hend, insideAt_stretch hle (hchars.outside hq' hout), hout]
    rfl
  · intro hi
    have hin : insideAt s (i + 1) = true := by rw [insideAt_quote hopen, hi]; rfl
    rcases hchars.inside hq' hin with hno | hout
    · refine Or.inr ⟨?_, ⟨k, rfl, hopen, hchars, hclose⟩, fun m h1 h2 => hno m h1 (by omega)⟩
      rw [hend, insideAt_stretch hle hno, hin]
      rfl
    · exact Or.inl (by rw [hend, hout]; rfl)

/-- **Phrases of a JSON text** whose backslashes stand inside: from outside
they lead outside only when none of their strings has a quote of its own. -/
theorem Json.shifts {ts : List Tree} (h : Json (IsString s) s φ i j ts)
    (hq : ∀ k, s[k]? = some backslash → insideAt s k = true) :
    Shifts s i j (Json (PlainString s) s φ i j ts) := by
  have hopening : ∀ {b : Bracket} {i}, s[i]? = some b.opening → Shifts s i (i + 1) True :=
    fun {b} _ h => Shifts.byte h (by cases b <;> decide)
  have hclosing : ∀ {b : Bracket} {i}, s[i]? = some b.closing → Shifts s i (i + 1) True :=
    fun {b} _ h => Shifts.byte h (by cases b <;> decide)
  have hscalar : ∀ {i j}, i ≤ j → AllIn isScalarChar s i j → Shifts s i j True := by
    intro i j hij hall
    refine Shifts.clear hij fun k h1 h2 hquote => ?_
    obtain ⟨c, hc, hf⟩ := hall k h1 h2
    rw [hquote, Option.some.injEq] at hc
    rw [← hc] at hf
    exact absurd hf (by decide)
  have hliteral : ∀ {t : String} {i j}, LiteralAt t s i j →
      (bytes t).all isScalarChar = true → Shifts s i j True := by
    intro t i j hlit hall
    exact hscalar (by rw [hlit.2]; exact Nat.le_add_right _ _) (hlit.allIn hall)
  induction h with
  | empty b hopen hblank hclose =>
    exact ((hopening hopen).append ((Shifts.blanks hblank).append (hclosing hclose))).mono
      fun _ => .empty b hopen hblank hclose
  | filled b hopen hblank _ hblank' hclose ih =>
    exact ((hopening hopen).append ((Shifts.blanks hblank).append (ih.append
      ((Shifts.blanks hblank').append (hclosing hclose))))).mono
      fun h => .filled b hopen hblank h.2.2.1 hblank' hclose
  | string h => exact (h.shifts fun k _ _ => hq k).mono .string
  | number h => exact (hscalar h.allIn.1 h.allIn.2).mono fun _ => .number h
  | isTrue h => exact (hliteral h (by decide)).mono fun _ => .isTrue h
  | isFalse h => exact (hliteral h (by decide)).mono fun _ => .isFalse h
  | null h => exact (hliteral h (by decide)).mono fun _ => .null h
  | member hname hblank hcol hblank' _ ih =>
    exact ((hname.shifts fun k _ _ => hq k).append ((Shifts.blanks hblank).append
      ((Shifts.byte hcol (by decide)).append ((Shifts.blanks hblank').append ih)))).mono
      fun h => .member h.1 hblank hcol hblank' h.2.2.2.2
  | last b _ ih => exact ih.mono (.last b)
  | more b _ hblank hcom hblank' _ ih1 ih2 =>
    exact (ih1.append ((Shifts.blanks hblank).append ((Shifts.byte hcom (by decide)).append
      ((Shifts.blanks hblank').append ih2)))).mono
      fun h => .more b h.1 hblank hcom hblank' h.2.2.2.2

/-- **A JSON text that the message grammar derives has no escaped quote.** -/
theorem Json.plain {t : Tree} (h : Json (IsString s) s .value 0 s.length [t])
    (hd : Derives s .nonAtomic .value 0 s.length ts) :
    Json (PlainString s) s .value 0 s.length [t] := by
  obtain ⟨hout, hquoted⟩ := hd.balanced rfl
  have hq : ∀ k, s[k]? = some backslash → insideAt s k = true :=
    fun k hk => hquoted k (Nat.zero_le k) (lt_length hk) hk
  rcases (h.shifts hq).2 rfl with hin | ⟨-, hplain⟩
  · rw [hout] at hin
    exact absurd hin (by simp)
  · exact hplain

end Syntax

end TlsnDemo
