import TlsnDemo.Syntax.Bytes

/-!
# Compact texts

The verifier reads without whitespace what the prover may have read with
it. The two readings are one where the only whitespace bytes are spaces
between the quotes of strings (`Compact`): a derivation without whitespace
is a derivation of such a text with it (`Derives.loosen`), and back
(`Derives.tighten`). The spans of strings may differ, since only the
prover's leave out the spaces at a string's ends.
-/

namespace TlsnDemo

open Peg Grammar

namespace Syntax

variable {s : List UInt8} {a : Atomicity} {i j k l e x y : ℕ} {t : Token} {ts us : List Token}
  {φ : Phrase}

/-! ## Extents of values -/

theorem not_whitespace_quote : isWhitespace quote = false := by decide

/-- Skipping whitespace stops at a byte that is none. -/
theorem skip_le {c : UInt8} (h : i ≤ k) (hc : s[k]? = some c) (hw : isWhitespace c = false) :
    skip s a i ≤ k := by
  by_contra hlt
  obtain ⟨d, hd, hdw⟩ := of_lt_skipTo h (Nat.lt_of_not_le hlt)
  rw [hc, Option.some.injEq] at hd
  rw [← hd, hw] at hdw
  exact absurd hdw (by simp)

/-- Skipping does not move from a byte that is no whitespace. -/
theorem skip_self {c : UInt8} (hc : s[i]? = some c) (hw : isWhitespace c = false) :
    skip s a i = i := le_antisymm (skip_le le_rfl hc hw) le_skipTo

/-- A value token is derived from one stretch only. -/
theorem Derives.value_extent (h : Derives s a .value i j [t]) (h' : Derives s a .value x y [t]) :
    i = x ∧ j = y := by
  obtain ⟨t₁, ht₁, -, hspan, -⟩ := h.value_token
  obtain ⟨t₂, ht₂, -, hspan', -⟩ := h'.value_token
  simp only [List.cons.injEq, and_true] at ht₁ ht₂
  subst ht₁ ht₂
  by_cases hr : t.asRule = .string
  swap
  · have h1 := hspan hr
    have h2 := hspan' hr
    omega
  cases h with
  | empty b _ _ _ => cases b <;> simp [Bracket.rule] at hr
  | filled b _ _ _ _ _ => cases b <;> simp [Bracket.rule] at hr
  | scalar h => exact absurd hr h.ne_string
  | @string _ b e l hq hb ht hl hq' =>
    generalize hts : [Pair.node Rule.string b e []] = ts at h'
    cases h' with
    | @string _ b' e' l' hr hb' ht' hl' hr' =>
      simp only [List.cons.injEq, Pair.node.injEq, true_and, and_true] at hts
      obtain ⟨rfl, rfl⟩ := hts
      have h1 := le_of_skip hb
      have h2 := le_of_skip hb'
      refine ⟨?_, by rw [hl, hl']⟩
      rcases Nat.lt_trichotomy i x with hlt | heq | hlt
      · have := skip_le (a := a) (i := i + 1) hlt hr not_whitespace_quote
        omega
      · exact heq
      · have := skip_le (a := a) (i := x + 1) hlt hq not_whitespace_quote
        omega
    | empty b' _ _ _ => cases b' <;> simp [Bracket.rule] at hts
    | filled b' _ _ _ _ _ => cases b' <;> simp [Bracket.rule] at hts
    | scalar h =>
      simp only [List.cons.injEq, Pair.node.injEq, and_true] at hts
      exact absurd hts.1.symm h.ne_string

/-! ## Whitespace in strings -/

/-- A position between the quotes of a string among some tokens. -/
def BetweenQuotes (s : List UInt8) (ts : List Token) (k : ℕ) : Prop :=
  ∃ σ v w, Occurs σ ts ∧ σ.asRule = .string ∧ Derives s .nonAtomic .value v (w + 1) [σ] ∧
    v < k ∧ k < w

/-- **A compact stretch**: its whitespace is spaces between the quotes of
strings. -/
def Compact (s : List UInt8) (ts : List Token) (i j : ℕ) : Prop :=
  ∀ k c, i ≤ k → k < j → s[k]? = some c → isWhitespace c = true →
    c = space ∧ BetweenQuotes s ts k

namespace BetweenQuotes

theorem mono (h : BetweenQuotes s ts k) (hts : ∀ σ, Occurs σ ts → Occurs σ us) :
    BetweenQuotes s us k := by
  obtain ⟨σ, v, w, hσ, h⟩ := h
  exact ⟨σ, v, w, hts σ hσ, h⟩

/-- The quotes of a string among the tokens of a phrase lie within it. -/
theorem bounds (h : BetweenQuotes s ts k) (hd : Derives s .nonAtomic φ i j ts) :
    i < k ∧ k + 1 < j := by
  obtain ⟨σ, v, w, hσ, hr, hv, h1, h2⟩ := h
  obtain ⟨x, y, hx, hy, hval⟩ := hd.value_of_occurs hσ (by rw [hr]; rfl)
  obtain ⟨rfl, rfl⟩ := hval.value_extent hv
  omega

/-- Among the tokens of a node there are the node's own. -/
theorem of_node {r : Rule} (hr : r ≠ .string) (h : BetweenQuotes s [.node r i j ts] k) :
    BetweenQuotes s ts k := by
  obtain ⟨σ, v, w, hσ, hrule, h⟩ := h
  rcases occurs_singleton.1 hσ with rfl | hσ
  · exact absurd hrule hr
  · exact ⟨σ, v, w, hσ, hrule, h⟩

end BetweenQuotes

namespace Compact

theorem solid (h : Compact s ts i j) (hlen : j ≤ s.length) : AllIn isSolid s i j := by
  intro k h1 h2
  have hk : k < s.length := by omega
  refine ⟨s[k], List.getElem?_eq_getElem hk, ?_⟩
  cases hw : isWhitespace s[k] with
  | false => simp [isSolid, hw]
  | true =>
    obtain ⟨hs, -⟩ := h k _ h1 h2 (List.getElem?_eq_getElem hk) hw
    simp [isSolid, hs]

theorem nil : Compact s ts i i := fun _ _ h1 h2 => absurd h1 (by omega)

theorem single {c : UInt8} (hc : s[i]? = some c) (hw : isWhitespace c = false) :
    Compact s ts i (i + 1) := by
  intro k d h1 h2 hd hdw
  obtain rfl : k = i := by omega
  rw [hc, Option.some.injEq] at hd
  rw [← hd, hw] at hdw
  exact absurd hdw (by simp)

theorem append (h1 : Compact s ts i j) (h2 : Compact s ts j k) : Compact s ts i k := by
  intro m c hm hm' hc hw
  rcases Nat.lt_or_ge m j with h | h
  · exact h1 m c hm h hc hw
  · exact h2 m c h hm' hc hw

theorem mono (h : Compact s ts i j) (hts : ∀ σ, Occurs σ ts → Occurs σ us) : Compact s us i j := by
  intro k c h1 h2 hc hw
  obtain ⟨hs, hb⟩ := h k c h1 h2 hc hw
  exact ⟨hs, hb.mono hts⟩

theorem of_allIn {f : UInt8 → Bool} (h : AllIn f s i j)
    (hf : ∀ c, f c = true → isWhitespace c = false) : Compact s ts i j := by
  intro k c h1 h2 hc hw
  obtain ⟨d, hd, hfd⟩ := h k h1 h2
  rw [hc, Option.some.injEq] at hd
  rw [hd, hf d hfd] at hw
  exact absurd hw (by simp)

end Compact

/-! ## From without whitespace to with it -/

/-- **A string in quotes is read**, whatever spaces stand at its ends. -/
theorem derives_string (hq : s[i]? = some quote) (hil : i < l)
    (hall : AllIn (fun c => isStringChar c || isWhitespace c) s (i + 1) l)
    (hq' : s[l]? = some quote) :
    ∃ e, Derives s .nonAtomic .value i (l + 1) [.node .string (skip s .nonAtomic (i + 1)) e []] := by
  have hnot : ∀ {m c}, i + 1 ≤ m → m < l → s[m]? = some c → c ≠ quote := by
    rintro m c h1 h2 hc rfl
    obtain ⟨d, hd, hf⟩ := hall m h1 h2
    rw [hc, Option.some.injEq] at hd
    rw [← hd] at hf
    exact absurd hf (by decide)
  have hstart : skip s .nonAtomic (i + 1) ≤ l := skip_le hil hq' not_whitespace_quote
  obtain ⟨⟨e, ts⟩, hrep⟩ : ∃ r, Grammar.rep (satisfy isStringChar) s .nonAtomic
      (skip s .nonAtomic (i + 1)) = some r := by
    rw [rep_eq, Peg.rep, Peg.optional]
    split <;> exact ⟨_, rfl⟩
  obtain ⟨htext, rfl⟩ := stringText_of_rep (by decide) hrep
  have hstops : Stops isStringChar s (skip s .nonAtomic e) := by
    rw [rep_eq] at hrep
    exact ((rep_satisfy_nonAtomic fun c hc => runEnd_stops hc).1 hrep).1.stops
  have hle := htext.le
  -- the text ends in front of the closing quote, with nothing but spaces between
  have hel : e ≤ l := by
    by_contra hlt
    obtain ⟨c, hc, hf⟩ := htext.mem l hstart (by omega)
    rw [hq', Option.some.injEq] at hc
    rw [← hc] at hf
    exact absurd hf (by decide)
  have hskip : l = skip s .nonAtomic e := by
    refine le_antisymm ?_ (skip_le hel hq' not_whitespace_quote)
    by_contra hlt
    have h1 : e ≤ skip s .nonAtomic e := le_skipTo
    have h2 : i + 1 ≤ skip s .nonAtomic (i + 1) := le_skipTo
    obtain ⟨c, hc, hf⟩ := hall (skip s .nonAtomic e) (by omega) (by omega)
    have hw : isWhitespace c = false := runEnd_stops hc
    simp only [hstops c hc, hw, Bool.or_self] at hf
    exact absurd hf (by simp)
  exact ⟨e, Derives.string hq rfl htext hskip hq'⟩

theorem not_whitespace_opening (b : Bracket) : isWhitespace b.opening = false := by
  cases b <;> decide

theorem not_whitespace_closing (b : Bracket) : isWhitespace b.closing = false := by
  cases b <;> decide

theorem KeyText.allIn (h : KeyText s .compoundAtomic i j) : AllIn isKeyChar s i j := by
  intro k h1 h2
  obtain ⟨c, hc, hf⟩ := h.mem k h1 h2
  exact ⟨c, hc, hf.resolve_right fun hx => absurd hx.1 (by decide)⟩

theorem StringText.allIn (h : StringText s .compoundAtomic i j) : AllIn isStringChar s i j := by
  intro k h1 h2
  obtain ⟨c, hc, hf⟩ := h.mem k h1 h2
  exact ⟨c, hc, hf.resolve_right fun hx => absurd hx.1 (by decide)⟩

/-- A key without whitespace is a key. -/
theorem KeyText.loosen (h : KeyText s .compoundAtomic i j) (hq : s[j]? = some quote) :
    KeyText s .nonAtomic i j := by
  refine ⟨h.first, h.lt, fun k h1 h2 => ?_, fun _ => ?_⟩
  · obtain ⟨c, hc, hf⟩ := h.allIn k h1 h2
    exact ⟨c, hc, Or.inl hf⟩
  · have hlt := h.lt
    rcases Nat.eq_or_lt_of_le (show i + 1 ≤ j from hlt) with heq | hlt'
    · rw [heq, skip_self hq not_whitespace_quote]
      exact Or.inl rfl
    · exact Or.inr ⟨hlt', h.allIn (j - 1) (by omega) (by omega)⟩

/-- A position in the span of a string among some tokens. -/
def InString (ts : List Token) (k : ℕ) : Prop :=
  ∃ σ, Occurs σ ts ∧ σ.asRule = .string ∧ σ.start ≤ k ∧ k < σ.stop

theorem InString.of_node {r : Rule} (hr : r ≠ .string) (h : InString [.node r i j ts] k) :
    InString ts k := by
  obtain ⟨σ, hσ, hrule, h⟩ := h
  rcases occurs_singleton.1 hσ with rfl | hσ
  · exact absurd hrule hr
  · exact ⟨σ, hσ, hrule, h⟩

theorem InString.of_append (h : InString (ts ++ us) k) : InString ts k ∨ InString us k := by
  obtain ⟨σ, hσ, h⟩ := h
  exact (occurs_append.1 hσ).imp (fun hσ => ⟨σ, hσ, h⟩) fun hσ => ⟨σ, hσ, h⟩

/-- **A derivation without whitespace is one with it**, of a compact text,
and the tokens go by the same rules. What is in a string is between its
quotes. -/
theorem Derives.loosen_strings (h : Derives s .compoundAtomic φ i j ts) :
    ∃ us, Derives s .nonAtomic φ i j us ∧ us.map Pair.asRule = ts.map Pair.asRule ∧
      Compact s us i j ∧ ∀ k, InString ts k → BetweenQuotes s us k := by
  induction h with
  | @empty b i j hopen hj hclose =>
    rw [skip_compoundAtomic] at hj
    subst hj
    refine ⟨_, Derives.empty b hopen (skip_self hclose (not_whitespace_closing b)).symm hclose, rfl,
      (Compact.single hopen (not_whitespace_opening b)).append
        (Compact.single hclose (not_whitespace_closing b)), fun k hk => ?_⟩
    obtain ⟨σ, hσ, -⟩ := hk.of_node (by cases b <;> decide)
    exact absurd hσ not_occurs_nil
  | @filled b i j k l ts hopen hj hitems hl hclose ih =>
    rw [skip_compoundAtomic] at hj hl
    subst hj hl
    obtain ⟨us, hus, -, hcompact, hbetween⟩ := ih
    obtain ⟨c, hc, hstart⟩ := hitems.first
    refine ⟨_, Derives.filled b hopen
      (skip_self hc (not_whitespace_of_valueStart hstart)).symm hus
      (skip_self hclose (not_whitespace_closing b)).symm hclose, rfl, ?_, fun k hk => ?_⟩
    · have hinner : Compact s [.node b.rule i (l + 1) us] (i + 1) l :=
        hcompact.mono fun _ hσ => Occurs.inner hσ
      exact ((Compact.single hopen (not_whitespace_opening b)).append hinner).append
        (Compact.single hclose (not_whitespace_closing b))
    · exact (hbetween k (hk.of_node (by cases b <;> decide))).mono fun _ hσ => Occurs.inner hσ
  | @string i j k l hq hj ht hl hq' =>
    rw [skip_compoundAtomic] at hj hl
    subst hj hl
    have hlt := ht.le
    obtain ⟨e, he⟩ := derives_string hq (by omega) (ht.allIn.mono fun c hc => by simp [hc]) hq'
    refine ⟨_, he, rfl, ((Compact.single hq not_whitespace_quote).append fun m c h1 h2 hc hw => ?_).append
      (Compact.single hq' not_whitespace_quote), fun m hm => ?_⟩
    · obtain ⟨d, hd, hf⟩ := ht.allIn m h1 h2
      rw [hc, Option.some.injEq] at hd
      exact ⟨eq_space_of_stringChar (hd ▸ hf) hw, _, _, _, Occurs.head, rfl, he, by omega, h2⟩
    · obtain ⟨σ, hσ, -, h1, h2⟩ := hm
      rcases occurs_singleton.1 hσ with rfl | hσ
      · exact ⟨_, _, _, Occurs.head, rfl, he, h1, h2⟩
      · exact absurd hσ not_occurs_nil
  | scalar h =>
    refine ⟨_, Derives.scalar h, rfl, Compact.of_allIn h.allIn fun c hc => (scalarChar_not hc).1,
      fun k hk => ?_⟩
    obtain ⟨σ, hσ, -⟩ := hk.of_node h.ne_string
    exact absurd hσ not_occurs_nil
  | @pair i kb ke q c v j ts hq hkb hk hqe hq' hc hcol hv hval ih =>
    rw [skip_compoundAtomic] at hkb hqe hc hv
    subst hkb hqe hc hv
    obtain ⟨us, hus, hrules, hcompact, hbetween⟩ := ih
    obtain ⟨c, hc, hstart⟩ := hval.first
    obtain ⟨d, hd, hkey⟩ := hk.first
    have hcolon : isWhitespace colon = false := by decide
    refine ⟨_, Derives.pair hq (skip_self hd (not_whitespace_of_keyChar hkey)).symm (hk.loosen hq')
      (skip_self hq' not_whitespace_quote).symm hq' (skip_self hcol hcolon).symm hcol
      (skip_self hc (not_whitespace_of_valueStart hstart)).symm hus, rfl, ?_, fun k hk => ?_⟩
    · exact (((Compact.single hq not_whitespace_quote).append
        (Compact.of_allIn hk.allIn fun _ => not_whitespace_of_keyChar)).append
        (Compact.single hq' not_whitespace_quote)).append ((Compact.single hcol hcolon).append
        (hcompact.mono fun _ hσ => Occurs.inner (Occurs.tail hσ)))
    · obtain ⟨σ, hσ, hr, hk⟩ := hk.of_node (by decide)
      rcases occurs_cons.1 hσ with rfl | hσ | hσ
      · simp at hr
      · exact absurd hσ not_occurs_nil
      · exact (hbetween k ⟨σ, hσ, hr, hk⟩).mono fun _ hσ => Occurs.inner (Occurs.tail hσ)
  | last b _ ih =>
    obtain ⟨us, hus, hrules, hcompact, hbetween⟩ := ih
    exact ⟨us, Derives.last b hus, hrules, hcompact, hbetween⟩
  | @more b i j c m k ts us hi hc hcom hm hitems ih1 ih2 =>
    rw [skip_compoundAtomic] at hc hm
    subst hc hm
    obtain ⟨vs, hvs, hrules, hcompact, hbetween⟩ := ih1
    obtain ⟨ws, hws, hrules', hcompact', hbetween'⟩ := ih2
    obtain ⟨d, hd, hstart⟩ := hitems.first
    have hcomma : isWhitespace comma = false := by decide
    refine ⟨vs ++ ws, Derives.more b hvs (skip_self hcom hcomma).symm hcom
      (skip_self hd (not_whitespace_of_valueStart hstart)).symm hws, by simp [hrules, hrules'], ?_,
      fun k hk => ?_⟩
    · exact ((hcompact.mono fun _ hσ => occurs_append.2 (Or.inl hσ)).append
        (Compact.single hcom hcomma)).append
        (hcompact'.mono fun _ hσ => occurs_append.2 (Or.inr hσ))
    · rcases hk.of_append with hk | hk
      · exact (hbetween k hk).mono fun _ hσ => occurs_append.2 (Or.inl hσ)
      · exact (hbetween' k hk).mono fun _ hσ => occurs_append.2 (Or.inr hσ)

theorem Derives.loosen (h : Derives s .compoundAtomic φ i j ts) :
    ∃ us, Derives s .nonAtomic φ i j us ∧ us.map Pair.asRule = ts.map Pair.asRule ∧
      Compact s us i j := by
  obtain ⟨us, hus, hrules, hcompact, -⟩ := h.loosen_strings
  exact ⟨us, hus, hrules, hcompact⟩

/-! ## And back -/

/-- Nothing is skipped where a compact text has no string. -/
theorem Compact.skip_eq (h : Compact s ts i j) (h1 : i ≤ k) (h2 : k < j)
    (hk : ¬ BetweenQuotes s ts k) : skip s .nonAtomic k = k := by
  refine skipTo_of_false fun c hc => ?_
  by_contra hw
  exact hk (h k c h1 h2 hc (by simpa using hw)).2

/-- **A derivation of a compact text is one without whitespace**, and the
tokens go by the same rules. -/
theorem Derives.tighten (h : Derives s .nonAtomic φ i j ts) (hc : Compact s ts i j) :
    ∃ us, Derives s .compoundAtomic φ i j us ∧ us.map Pair.asRule = ts.map Pair.asRule := by
  induction h with
  | @empty b i j hopen hj hclose =>
    have hle := le_of_skip hj
    obtain rfl : j = i + 1 := by
      rw [hj]
      exact hc.skip_eq (by omega) (by omega) fun hb =>
        absurd (hb.of_node (by cases b <;> decide)) fun ⟨σ, v, w, hσ, _⟩ => not_occurs_nil hσ
    exact ⟨_, Derives.empty b hopen rfl hclose, rfl⟩
  | @filled b i j k l ts hopen hj hitems hl hclose ih =>
    have h1 := le_of_skip hj
    have h2 := le_of_skip hl
    have h3 := hitems.lt
    have hin : ∀ {m}, BetweenQuotes s [.node b.rule i (l + 1) ts] m → j < m ∧ m + 1 < k := fun h =>
      (h.of_node (by cases b <;> decide)).bounds hitems
    obtain rfl : j = i + 1 := by
      by_contra hne
      have := hc.skip_eq (k := i + 1) (by omega) (by omega) fun h => by have := hin h; omega
      omega
    obtain rfl : l = k := by
      by_contra hne
      have := hc.skip_eq (k := k) (by omega) (by omega) fun h => by have := hin h; omega
      omega
    obtain ⟨us, hus, -⟩ := ih fun m c h1 h2 hmc hw => by
      obtain ⟨hs, hb⟩ := hc m c (by omega) (by omega) hmc hw
      exact ⟨hs, hb.of_node (by cases b <;> decide)⟩
    exact ⟨_, Derives.filled b hopen rfl hus rfl hclose, rfl⟩
  | @string i j k l hq hj ht hl hq' =>
    have h1 := le_of_skip hj
    have h2 := le_of_skip hl
    have h3 := ht.le
    have htext : StringText s .compoundAtomic (i + 1) l := by
      refine ⟨by omega, fun m hm1 hm2 => ?_, fun h => absurd h (by decide)⟩
      have hmem : ∃ c, s[m]? = some c ∧ (isStringChar c = true ∨ isWhitespace c = true) := by
        rcases Nat.lt_or_ge m j with hlt | hge
        · obtain ⟨c, hc, hw⟩ := of_lt_skipTo hm1 (hj ▸ hlt)
          exact ⟨c, hc, Or.inr hw⟩
        · rcases Nat.lt_or_ge m k with hlt | hge'
          · obtain ⟨c, hc, hf⟩ := ht.mem m hge hlt
            exact ⟨c, hc, hf.imp_right And.right⟩
          · obtain ⟨c, hc, hw⟩ := of_lt_skipTo hge' (hl ▸ hm2)
            exact ⟨c, hc, Or.inr hw⟩
      obtain ⟨c, hmc, hf | hw⟩ := hmem
      · exact ⟨c, hmc, Or.inl hf⟩
      · obtain ⟨rfl, -⟩ := hc m c (by omega) (by omega) hmc hw
        exact ⟨_, hmc, Or.inl (by decide)⟩
    exact ⟨_, Derives.string hq rfl htext rfl hq', rfl⟩
  | scalar h => exact ⟨_, Derives.scalar h, rfl⟩
  | @pair i kb ke q c v j ts hq hkb hk hqe hq' hcc hcol hv hval ih =>
    have h1 := le_of_skip hkb
    have h2 := le_of_skip hqe
    have h3 := le_of_skip hcc
    have h4 := le_of_skip hv
    have h5 := hk.lt
    have h6 := hval.lt
    -- between quotes is only within the value, which the key and the colon precede
    have hin : ∀ {m}, BetweenQuotes s [.node .pair i j (.node .key kb ke [] :: ts)] m → v < m := by
      intro m h
      have hts : BetweenQuotes s ts m := by
        obtain ⟨σ, x, y, hσ, hr, h⟩ := h.of_node (by decide)
        rcases occurs_cons.1 hσ with rfl | hσ | hσ
        · simp at hr
        · exact absurd hσ not_occurs_nil
        · exact ⟨σ, x, y, hσ, hr, h⟩
      exact (hts.bounds hval).1
    have hno : ∀ m, i ≤ m → m < v → ∀ d, s[m]? = some d → isWhitespace d = false := by
      intro m hm1 hm2 d hd
      by_contra hw
      have := hin (hc m d hm1 (by omega) hd (by simpa using hw)).2
      omega
    have hstay : ∀ {m n}, n = skip s .nonAtomic m → i ≤ m → m < v → n = m := by
      intro m n hn hm1 hm2
      rw [hn]
      exact skipTo_of_false (hno m hm1 hm2)
    obtain rfl := hstay hkb (by omega) (by omega)
    obtain rfl := hstay hqe (by omega) (by omega)
    obtain rfl := hstay hcc (by omega) (by omega)
    have hv' : v = q + 1 + 1 := by
      by_contra hne
      have := hstay hv (by omega) (by omega)
      omega
    subst hv'
    obtain ⟨us, hus, hrules⟩ := ih fun m d hm1 hm2 hd hw => by
      obtain ⟨hs, hb⟩ := hc m d (by omega) hm2 hd hw
      obtain ⟨σ, x, y, hσ, hr, h⟩ := hb.of_node (by decide)
      rcases occurs_cons.1 hσ with rfl | hσ | hσ
      · simp at hr
      · exact absurd hσ not_occurs_nil
      · exact ⟨hs, σ, x, y, hσ, hr, h⟩
    have hkey : KeyText s .compoundAtomic (i + 1) q := by
      refine ⟨hk.first, hk.lt, fun m hm1 hm2 => ?_, fun h => absurd h (by decide)⟩
      obtain ⟨d, hd, hf⟩ := hk.mem m hm1 hm2
      refine ⟨d, hd, Or.inl (hf.resolve_right fun hw => ?_)⟩
      rw [hno m (by omega) (by omega) d hd] at hw
      exact absurd hw.2 (by simp)
    exact ⟨_, Derives.pair hq rfl hkey rfl hq' rfl hcol rfl hus, rfl⟩
  | last b _ ih =>
    obtain ⟨us, hus, hrules⟩ := ih hc
    exact ⟨us, Derives.last b hus, hrules⟩
  | @more b i j c m k ts us hi hcc hcom hm hitems ih1 ih2 =>
    have h1 := hi.lt
    have h2 := le_of_skip hcc
    have h3 := le_of_skip hm
    have h4 := hitems.lt
    have hin : ∀ {n}, BetweenQuotes s (ts ++ us) n →
        (n + 1 < j ∧ BetweenQuotes s ts n) ∨ (m < n ∧ BetweenQuotes s us n) := by
      rintro n ⟨σ, x, y, hσ, h⟩
      rcases occurs_append.1 hσ with hσ | hσ
      · have hb : BetweenQuotes s ts n := ⟨σ, x, y, hσ, h⟩
        exact Or.inl ⟨(hb.bounds hi).2, hb⟩
      · have hb : BetweenQuotes s us n := ⟨σ, x, y, hσ, h⟩
        exact Or.inr ⟨(hb.bounds hitems).1, hb⟩
    obtain rfl : c = j := by
      by_contra hne
      have := hc.skip_eq (k := j) (by omega) (by omega) fun h => by
        rcases hin h with h | h <;> omega
      omega
    obtain rfl : m = c + 1 := by
      by_contra hne
      have := hc.skip_eq (k := c + 1) (by omega) (by omega) fun h => by
        rcases hin h with h | h <;> omega
      omega
    obtain ⟨vs, hvs, hrules⟩ := ih1 fun n d hn1 hn2 hd hw => by
      obtain ⟨hs, hb⟩ := hc n d hn1 (by omega) hd hw
      rcases hin hb with h | h
      · exact ⟨hs, h.2⟩
      · omega
    obtain ⟨ws, hws, hrules'⟩ := ih2 fun n d hn1 hn2 hd hw => by
      obtain ⟨hs, hb⟩ := hc n d (by omega) hn2 hd hw
      rcases hin hb with h | h
      · omega
      · exact ⟨hs, h.2⟩
    exact ⟨vs ++ ws, Derives.more b hvs rfl hcom rfl hws, by simp [hrules, hrules']⟩

/-! ## Where a key stands -/

/-- A byte of a quoted key and its colon: no whitespace, and no bracket or
comma. -/
theorem KeyColon.byte (h : KeyColon s x e) (h1 : x < k) (h2 : k ≤ e + 1) :
    ∃ c, s[k]? = some c ∧ isWhitespace c = false ∧ c ≠ comma ∧ ∀ b : Bracket, c ≠ b.closing := by
  rcases Nat.lt_or_ge k e with hlt | hge
  · obtain ⟨c, hc, hf⟩ := h.key.mem k h1 hlt
    exact ⟨c, hc, not_whitespace_of_keyChar hf, ne_of_class hf (by decide), fun b =>
      ne_of_class hf (by cases b <;> decide)⟩
  · rcases Nat.eq_or_lt_of_le hge with rfl | hgt
    · exact ⟨_, h.closing, by decide, by decide, fun b => by cases b <;> decide⟩
    · obtain rfl : k = e + 1 := by omega
      exact ⟨_, h.colon, by decide, by decide, fun b => by cases b <;> decide⟩

/-- A key, its colon and a value without whitespace are a pair without it. -/
theorem KeyColon.derives_pair {v : Token} (hk : KeyColon s i e)
    (hv : Derives s .compoundAtomic .value (e + 2) j [v]) :
    Derives s .compoundAtomic .pair i j [.node .pair i j [.node .key (i + 1) e [], v]] :=
  Derives.pair hk.opening rfl hk.keyText rfl hk.closing rfl hk.colon rfl hv

/-- The first quote after the opening one closes the key. -/
theorem KeyColon.closing_eq (h : KeyColon s x e) {q : ℕ} (hq : s[q]? = some quote) (hx : x < q)
    (hno : ∀ k, x < k → k < q → s[k]? ≠ some quote) : e = q := by
  have hlt := h.lt
  rcases Nat.lt_trichotomy e q with hlt' | heq | hgt
  · exact absurd h.closing (hno e (by omega) hlt')
  · exact heq
  · obtain ⟨c, hc, hf⟩ := h.key.mem q hx hgt
    rw [hq, Option.some.injEq] at hc
    rw [← hc] at hf
    exact absurd hf (by decide)

/-- A quote is neither skipped nor part of a key or a string. -/
theorem ne_quote_of_skip (h1 : i ≤ k) (h2 : k < skip s a i) : s[k]? ≠ some quote := by
  intro hq
  obtain ⟨c, hc, hw⟩ := of_lt_skipTo h1 h2
  rw [hq, Option.some.injEq] at hc
  rw [← hc] at hw
  exact absurd hw (by decide)

theorem KeyText.ne_quote (h : KeyText s a i j) (h1 : i ≤ k) (h2 : k < j) :
    s[k]? ≠ some quote := by
  intro hq
  obtain ⟨c, hc, hf⟩ := h.mem k h1 h2
  rw [hq, Option.some.injEq] at hc
  rw [← hc] at hf
  rcases hf with hf | ⟨-, hf⟩ <;> exact absurd hf (by decide)

theorem StringText.ne_quote (h : StringText s a i j) (h1 : i ≤ k) (h2 : k < j) :
    s[k]? ≠ some quote := by
  intro hq
  obtain ⟨c, hc, hf⟩ := h.mem k h1 h2
  rw [hq, Option.some.injEq] at hc
  rw [← hc] at hf
  rcases hf with hf | ⟨-, hf⟩ <;> exact absurd hf (by decide)

/-- Between the quotes of a key or a string there is no quote. -/
theorem ne_quote_inside {q : ℕ} (hj : j = skip s a (i + 1)) (hl : q = skip s a l)
    (hno : ∀ k, j ≤ k → k < l → s[k]? ≠ some quote) (h1 : i < k) (h2 : k < q) :
    s[k]? ≠ some quote := by
  rcases Nat.lt_or_ge k j with hlt | hge
  · exact ne_quote_of_skip h1 (hj ▸ hlt)
  · rcases Nat.lt_or_ge k l with hlt | hge'
    · exact hno k hge hlt
    · exact ne_quote_of_skip hge' (hl ▸ h2)

/-- Nor of any scalar. -/
theorem Derives.ne_quote (h : Derives s a φ i j ts) (ht : Occurs t ts) (hr : isScalar t.asRule = true)
    (h1 : t.start ≤ k) (h2 : k < t.stop) : s[k]? ≠ some quote := by
  obtain ⟨x, y, -, -, hv⟩ := h.value_of_occurs ht (isValue_of_isScalar hr)
  cases hv with
  | empty b _ _ _ => simp [b.not_isScalar_rule] at hr
  | filled b _ _ _ _ _ => simp [b.not_isScalar_rule] at hr
  | string _ _ htext _ _ => exact htext.ne_quote h1 h2
  | scalar hs =>
    intro hq
    obtain ⟨c, hc, hf⟩ := hs.allIn k h1 h2
    rw [hq, Option.some.injEq] at hc
    rw [← hc] at hf
    exact absurd hf (by decide)

/-- **The parts of a pair** whose key and colon stand together. -/
theorem Derives.pair_parts {p : Token} (hp : Derives s .nonAtomic .pair i j [p])
    (hk : KeyColon s i e) :
    ∃ v, p = .node .pair i j [.node .key (i + 1) e [], v] ∧
      Derives s .nonAtomic .value (skip s .nonAtomic (e + 2)) j [v] := by
  cases hp with
  | @pair _ kb ke q c b _ _ hq hkb hkt hqe hq' hc hcol hb hval =>
    have h1 := le_of_skip hkb
    have h2 := hkt.lt
    have h3 := le_of_skip hqe
    obtain rfl := hk.closing_eq hq' (by omega) fun m =>
      ne_quote_inside hkb hqe fun m => hkt.ne_quote
    -- nothing is skipped in front of the key, behind it, or before the colon
    obtain ⟨d, hd, hf⟩ := hk.key.mem (i + 1) le_rfl hk.lt
    rw [skip_self hd (not_whitespace_of_keyChar hf)] at hkb
    subst hkb
    rw [skip_self hk.colon (by decide)] at hc
    subst hc
    obtain rfl : ke = e := by
      by_contra hne
      obtain ⟨c, hc, hf⟩ := hk.key.mem ke h2.le (by omega)
      rw [skip_self hc (not_whitespace_of_keyChar hf)] at hqe
      omega
    obtain ⟨v, rfl, -⟩ := hval.value_token
    exact ⟨v, rfl, hb ▸ hval⟩

/-- **Where a quoted key and a colon stand in a document, there is a pair
of that key.** Quotes are only around keys and strings, and after a string
comes no colon. -/
theorem Derives.pair_of_keyColon (h : Derives s .nonAtomic φ i j ts) (hk : KeyColon s x e)
    (hx : i ≤ x) (he : e + 1 < j) :
    ∃ y valuePair, Occurs (.node .pair x y [.node .key (x + 1) e [], valuePair]) ts ∧
      Derives s .nonAtomic .value (skip s .nonAtomic (e + 2)) y [valuePair] := by
  have hlt := hk.lt
  have hne : ∀ {c : UInt8}, s[x]? = some c → c = quote := fun hc => by
    rw [hk.opening, Option.some.injEq] at hc
    exact hc.symm
  have hskip : ∀ {m n}, n = skip s .nonAtomic m → m ≤ x → n ≤ x := fun hn hm =>
    hn ▸ skip_le hm hk.opening not_whitespace_quote
  -- the key and its colon do not run into whitespace, a comma or a closing bracket
  have hrun : ∀ {m n : ℕ} {c : UInt8}, n = skip s .nonAtomic m → x < m → s[n]? = some c →
      (c = comma ∨ ∃ b : Bracket, c = b.closing) → e + 1 < m := by
    intro m n c hn hm hc hsep
    by_contra hle
    obtain ⟨d, hd, hw, hcomma, hclose⟩ := hk.byte hm (by omega)
    rw [skip_self hd hw] at hn
    rw [hn, hd, Option.some.injEq] at hc
    subst hc
    rcases hsep with hsep | ⟨b, hsep⟩
    · exact hcomma hsep
    · exact hclose b hsep
  induction h with
  | @empty b i j hopen hj hclose =>
    have h1 := le_of_skip hj
    rcases Nat.eq_or_lt_of_le hx with rfl | hlt'
    · exact absurd (hne hopen) (by cases b <;> decide)
    · have := hskip hj hlt'
      omega
  | @filled b i j k l ts hopen hj hitems hl hclose ih =>
    rcases Nat.eq_or_lt_of_le hx with rfl | hlt'
    · exact absurd (hne hopen) (by cases b <;> decide)
    · have hjx := hskip hj hlt'
      have hxk : x < k := by
        by_contra hge
        have := hskip hl (by omega)
        omega
      obtain ⟨y, valuePair, hocc, hval⟩ := ih hjx (hrun hl hxk hclose (Or.inr ⟨b, rfl⟩))
      exact ⟨y, valuePair, Occurs.inner hocc, hval⟩
  | @string i j k l hq hj ht hl hq' =>
    have h1 := le_of_skip hj
    have h2 := le_of_skip hl
    have h3 := ht.le
    have hno : ∀ m, i < m → m < l → s[m]? ≠ some quote := fun m =>
      ne_quote_inside hj hl fun m => ht.ne_quote
    rcases Nat.eq_or_lt_of_le hx with rfl | hlt'
    · have := hk.closing_eq hq' (by omega) hno
      omega
    · exact absurd hk.opening (hno x hlt' (by omega))
  | @scalar i j r hs =>
    obtain ⟨c, hc, hf⟩ := hs.allIn x hx (by omega)
    exact absurd (hne hc) (scalarChar_not hf).2.1
  | @pair i kb ke q c v j ts hq hkb hkt hqe hq' hc hcol hv hval ih =>
    have h1 := le_of_skip hkb
    have h2 := hkt.lt
    have h3 := le_of_skip hqe
    have h4 := le_of_skip hc
    have h5 := le_of_skip hv
    have hno : ∀ m, i < m → m < q → s[m]? ≠ some quote := fun m =>
      ne_quote_inside hkb hqe fun m => hkt.ne_quote
    rcases Nat.eq_or_lt_of_le hx with rfl | hlt'
    · obtain ⟨v, hp, hval'⟩ := (Derives.pair hq hkb hkt hqe hq' hc hcol hv hval).pair_parts hk
      exact ⟨j, v, hp ▸ Occurs.head, hval'⟩
    · rcases Nat.lt_trichotomy x q with hxq | rfl | hxq
      · exact absurd hk.opening (hno x hlt' hxq)
      · -- the closing quote is followed by whitespace or the colon, not by a key
        obtain ⟨d, hd, hf⟩ := hk.key.mem (x + 1) le_rfl hlt
        rw [skip_self hd (not_whitespace_of_keyChar hf)] at hc
        rw [hc, hd, Option.some.injEq] at hcol
        rw [hcol] at hf
        exact absurd hf (by decide)
      · have hcx := hskip hc hxq
        rcases Nat.eq_or_lt_of_le hcx with rfl | hcx'
        · exact absurd (hne hcol) (by decide)
        · obtain ⟨y, valuePair, hocc, hval'⟩ := ih (hskip hv hcx') he
          exact ⟨y, valuePair, Occurs.inner (Occurs.tail hocc), hval'⟩
  | last b _ ih => exact ih hx he
  | @more b i j c m k ts us hi hc hcom hm hitems ih1 ih2 =>
    rcases Nat.lt_or_ge x j with hxj | hxj
    · obtain ⟨y, valuePair, hocc, hval⟩ := ih1 hx (hrun hc hxj hcom (Or.inl rfl))
      exact ⟨y, valuePair, occurs_append.2 (Or.inl hocc), hval⟩
    · have hcx := hskip hc hxj
      rcases Nat.eq_or_lt_of_le hcx with rfl | hcx'
      · exact absurd (hne hcom) (by decide)
      · obtain ⟨y, valuePair, hocc, hval⟩ := ih2 (hskip hm hcx') he
        exact ⟨y, valuePair, occurs_append.2 (Or.inr hocc), hval⟩

end Syntax

end TlsnDemo
