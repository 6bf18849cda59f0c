import TlsnDemo.Syntax.Compact
import TlsnDemo.Syntax.Agreement

/-!
# Values overwritten with others

The text of a string decides nothing but its own span. With any other text
between the quotes of its strings a document is still one
(`Derives.requote`), and as long as the new texts start and end where the
old ones did it has the same tokens (`Derives.overwrite`). Both are one
induction (`Derives.rewrite`), in which only the strings differ.
-/

namespace TlsnDemo

open Peg Grammar

namespace Syntax

variable {s t : List UInt8} {a : Atomicity} {i j k l m x y : ℕ} {σ : Token} {ts us : List Token}
  {φ : Phrase}

/-- A position lies in the span of a token. -/
def Covered (σ : Token) (k : ℕ) : Prop := σ.start ≤ k ∧ k < σ.stop

/-! ## Skipping -/

/-- Over the same whitespace, skipping stops at the same place. -/
theorem skip_of_agree (hj : j = skip s a i) (hag : Agree s t i j)
    (hstop : a = .nonAtomic → Stops isWhitespace t j) : j = skip t a i := by
  by_cases ha : a = .nonAtomic
  · subst ha
    rw [skip_nonAtomic] at hj ⊢
    have hrun : AllIn isWhitespace s i j := hj ▸ AllIn.run
    exact (runEnd_eq (hj ▸ le_runEnd) (hag.allIn hrun) (hstop rfl)).symm
  · rw [hj, skip, skip, skipTo_of_ne ha, skipTo_of_ne ha]

theorem stops_skip (hj : j = skip s .nonAtomic i) : Stops isWhitespace s j := by
  intro c hc
  rw [hj] at hc
  exact runEnd_stops hc

theorem Stops.congr {f : UInt8 → Bool} (h : Stops f s j) (heq : s[j]? = t[j]?) : Stops f t j :=
  fun c hc => h c (heq ▸ hc)

theorem Agree.skip (hag : Agree s t i (j + 1)) (hj : j = Syntax.skip s a i) :
    j = Syntax.skip t a i := by
  have hle : i ≤ j := hj ▸ le_skipTo
  refine skip_of_agree hj (hag.mono le_rfl (Nat.le_succ j)) fun ha => ?_
  subst ha
  exact (stops_skip hj).congr (hag j hle (Nat.lt_succ_self j))

/-- In front of a byte that no number goes on with, no number goes on. -/
theorem stops_before {c : UInt8} (hk : k = Syntax.skip s a j) (hc : s[k]? = some c)
    (hf : isNumberNext c = false) : Stops isNumberNext s j := by
  intro d hd
  by_contra hn
  have hnext : isNumberNext d = true := by simpa using hn
  have hw : isWhitespace d = false := not_whitespace_of_class (by decide) (by decide) hnext
  rw [skip_self hd hw] at hk
  rw [hk, hd, Option.some.injEq] at hc
  rw [hc, hf] at hnext
  exact absurd hnext (by simp)

/-! ## Rewriting strings -/

/-- **A stretch with strings rewritten**: a byte of it is as it was, or it
stands between the quotes of a string among some tokens, where `Q` says
what it may be. -/
def Rewritten (s t : List UInt8) (a : Atomicity) (Q : Token → ℕ → Prop) (ts : List Token)
    (i j : ℕ) : Prop :=
  ∀ k, i ≤ k → k ≤ j → s[k]? = t[k]? ∨ ∃ σ x y, Occurs σ ts ∧ σ.asRule = .string ∧
    Derives s a .value x y [σ] ∧ x < k ∧ k + 1 < y ∧ Q σ k

namespace Rewritten

variable {Q : Token → ℕ → Prop}

/-- A part of the stretch, with the strings that reach into it. -/
theorem mono (h : Rewritten s t a Q ts i j) (hx : i ≤ x) (hy : y ≤ j)
    (hts : ∀ σ, Occurs σ ts → σ.asRule = .string → ∀ v w k, Derives s a .value v w [σ] →
      v < k → k + 1 < w → x ≤ k → k ≤ y → Occurs σ us) : Rewritten s t a Q us x y := by
  intro k h1 h2
  rcases h k (hx.trans h1) (h2.trans hy) with heq | ⟨σ, v, w, hσ, hr, hv, hk1, hk2, hq⟩
  · exact Or.inl heq
  · exact Or.inr ⟨σ, v, w, hts σ hσ hr v w k hv hk1 hk2 h1 h2, hr, hv, hk1, hk2, hq⟩

/-- What no string reaches into is as it was. -/
theorem agree (h : Rewritten s t a Q ts i j) (hx : i ≤ x) (hy : y ≤ j + 1)
    (hno : ∀ σ, Occurs σ ts → σ.asRule = .string → ∀ v w k, Derives s a .value v w [σ] →
      v < k → k + 1 < w → x ≤ k → y ≤ k) : Agree s t x y := by
  intro k h1 h2
  rcases h k (hx.trans h1) (by omega) with heq | ⟨σ, v, w, hσ, hr, hv, hk1, hk2, -⟩
  · exact heq
  · have := hno σ hσ hr v w k hv hk1 hk2 h1
    omega

end Rewritten

/-- **Nothing goes on behind a phrase**: no number at its end does, or it
is a value in brackets. -/
def Ends (s : List UInt8) (φ : Phrase) (i j : ℕ) : Prop :=
  Stops isNumberNext s j ∨ φ = .value ∧ ∃ b : Bracket, s[i]? = some b.opening

/-- A string lies within what it occurs in, with its quotes. -/
theorem Derives.extent (h : Derives s a φ i j ts) (hσ : Occurs σ ts) (hr : σ.asRule = .string)
    (hv : Derives s a .value x y [σ]) : i ≤ x ∧ y ≤ j := by
  obtain ⟨v, w, hv1, hw, hv'⟩ := h.value_of_occurs hσ (by rw [hr]; rfl)
  obtain ⟨rfl, rfl⟩ := hv'.value_extent hv
  exact ⟨hv1, hw⟩

/-- Its text lies between the quotes. -/
theorem Derives.string_extent (h : Derives s a φ i j ts) (hσ : Occurs σ ts)
    (hr : σ.asRule = .string) :
    ∃ x y, Derives s a .value x y [σ] ∧ i ≤ x ∧ x < σ.start ∧ σ.stop < y ∧ y ≤ j := by
  obtain ⟨x, y, hx, hy, hv⟩ := h.value_of_occurs hσ (by rw [hr]; rfl)
  obtain ⟨u, hu, -, -, hspan⟩ := hv.value_token
  simp only [List.cons.injEq, and_true] at hu
  subst hu
  obtain ⟨h1, h2⟩ := hspan hr
  exact ⟨x, y, hv, hx, h1, h2, hy⟩

theorem Derives.string_bounds (h : Derives s a φ i j ts) (hσ : Occurs σ ts)
    (hr : σ.asRule = .string) : i < σ.start ∧ σ.stop < j := by
  obtain ⟨x, y, -, h1, h2, h3, h4⟩ := h.string_extent hσ hr
  omega

/-- **A document with its strings rewritten is a document**, where each of
its strings is one again. It has the same tokens where the strings do. -/
theorem Derives.rewrite {Q : Token → ℕ → Prop} {Same : Prop}
    (hleaf : ∀ {x y σ}, Derives s a .value x y [σ] → σ.asRule = .string →
      Rewritten s t a Q [σ] x y → ∃ σ', Derives t a .value x y [σ'] ∧ (Same → σ' = σ))
    (h : Derives s a φ i j ts) (hr : Rewritten s t a Q ts i j) (hend : Ends s φ i j) :
    ∃ us, Derives t a φ i j us ∧ (Same → us = ts) := by
  -- a string that occurs in a node of another rule occurs below it
  have hnode : ∀ {r : Rule} {i j : ℕ} {us : List Token} {σ : Token}, r ≠ .string →
      Occurs σ [.node r i j us] → σ.asRule = .string → Occurs σ us := by
    intro r i j us σ hne hσ hs
    rcases occurs_singleton.1 hσ with rfl | hσ
    · exact absurd hs hne
    · exact hσ
  have hbracket : ∀ b : Bracket, b.rule ≠ .string := fun b => by cases b <;> decide
  induction h with
  | @empty b i j hopen hj hclose =>
    have h1 := le_of_skip hj
    have hag : Agree s t i (j + 1) := hr.agree le_rfl (by omega) fun σ hσ hs =>
      absurd (hnode (hbracket b) hσ hs) not_occurs_nil
    exact ⟨_, Derives.empty b (hag.get hopen le_rfl (by omega))
      ((hag.mono (by omega) le_rfl).skip hj) (hag.get hclose (by omega) (by omega)), fun _ => rfl⟩
  | @filled b i j k l ts hopen hj hitems hl hclose ih =>
    have h1 := le_of_skip hj
    have h2 := hitems.lt
    have h3 := le_of_skip hl
    have hin : ∀ σ, Occurs σ [.node b.rule i (l + 1) ts] → σ.asRule = .string →
        ∀ v w, Derives s a .value v w [σ] → j ≤ v ∧ w ≤ k := fun σ hσ hs v w hv =>
      hitems.extent (hnode (hbracket b) hσ hs) hs hv
    have hag1 : Agree s t i (j + 1) := hr.agree le_rfl (by omega) fun σ hσ hs v w m hv hm1 _ _ => by
      have := hin σ hσ hs v w hv
      omega
    have hag2 : Agree s t k (l + 1) := hr.agree (by omega) (by omega)
      fun σ hσ hs v w m hv _ hm2 hm => by
        have := hin σ hσ hs v w hv
        omega
    obtain ⟨us, hus, hsame⟩ := ih (hr.mono (by omega) (by omega) fun σ hσ hs _ _ _ _ _ _ _ _ =>
      hnode (hbracket b) hσ hs) (Or.inl (stops_before hl hclose b.not_numberNext))
    exact ⟨_, Derives.filled b (hag1.get hopen le_rfl (by omega))
      ((hag1.mono (by omega) le_rfl).skip hj) hus (hag2.skip hl)
      (hag2.get hclose (by omega) (by omega)), fun h => by rw [hsame h]⟩
  | string hq hj ht hl hq' =>
    obtain ⟨σ, hσ, hsame⟩ := hleaf (Derives.string hq hj ht hl hq') rfl hr
    exact ⟨_, hσ, fun h => by rw [hsame h]⟩
  | @scalar i j r hs =>
    have hag : Agree s t i (j + 1) := hr.agree le_rfl le_rfl fun σ hσ hrule =>
      absurd (hnode hs.ne_string hσ hrule) not_occurs_nil
    have hstop : Stops isNumberNext s j := by
      rcases hend with hstop | ⟨-, b, hb⟩
      · exact hstop
      · obtain ⟨c, hc, -, hbrace, hbracket', -⟩ := hs.first
        rw [hb, Option.some.injEq] at hc
        cases b
        · exact absurd hc.symm hbrace
        · exact absurd hc.symm hbracket'
    have hstop' := hstop.congr (hag j hs.lt.le (Nat.lt_succ_self j))
    exact ⟨_, Derives.scalar ((hag.mono le_rfl (by omega)).scalarText hs fun _ => hstop'),
      fun _ => rfl⟩
  | @pair i kb ke q c v j ts hq hkb hk hqe hq' hc hcol hv hval ih =>
    have h1 := le_of_skip hkb
    have h2 := hk.lt
    have h3 := le_of_skip hqe
    have h4 := le_of_skip hc
    have h5 := le_of_skip hv
    have h6 := hval.lt
    have hts : ∀ σ, Occurs σ [.node .pair i j (.node .key kb ke [] :: ts)] → σ.asRule = .string →
        Occurs σ ts := by
      intro σ hσ hs
      rcases occurs_cons.1 (hnode (by decide) hσ hs) with rfl | hσ | hσ
      · simp at hs
      · exact absurd hσ not_occurs_nil
      · exact hσ
    have hag : Agree s t i (v + 1) := hr.agree le_rfl (by omega) fun σ hσ hs x y m hσv hm1 _ _ => by
      have := hval.extent (hts σ hσ hs) hs hσv
      omega
    have hkey : KeyText t a kb ke := by
      obtain ⟨d, hd, hf⟩ := hk.first
      refine ⟨⟨d, hag.get hd (by omega) (by omega), hf⟩, h2, fun m hm1 hm2 => ?_, fun ha => ?_⟩
      · rw [← hag m (by omega) (by omega)]
        exact hk.mem m hm1 hm2
      · rcases hk.last ha with hke | ⟨hlt, d, hd, hf⟩
        · exact Or.inl ((hag.mono (by omega) (by omega)).skip hke)
        · exact Or.inr ⟨hlt, d, hag.get hd (by omega) (by omega), hf⟩
    obtain ⟨us, hus, hsame⟩ :=
      ih (hr.mono (by omega) le_rfl fun σ hσ hs _ _ _ _ _ _ _ _ => hts σ hσ hs)
        (Or.inl (hend.resolve_right fun h => absurd h.1 (by simp)))
    exact ⟨_, Derives.pair (hag.get hq le_rfl (by omega)) ((hag.mono (by omega) (by omega)).skip hkb)
      hkey ((hag.mono (by omega) (by omega)).skip hqe) (hag.get hq' (by omega) (by omega))
      ((hag.mono (by omega) (by omega)).skip hc) (hag.get hcol (by omega) (by omega))
      ((hag.mono (by omega) le_rfl).skip hv) hus, fun h => by rw [hsame h]⟩
  | last b _ ih =>
    obtain ⟨us, hus, hsame⟩ := ih hr (Or.inl (hend.resolve_right fun h => absurd h.1 (by simp)))
    exact ⟨us, Derives.last b hus, hsame⟩
  | @more b i j c m k ts us hi hc hcom hm hitems ih1 ih2 =>
    have h1 := hi.lt
    have h2 := le_of_skip hc
    have h3 := le_of_skip hm
    have h4 := hitems.lt
    -- a string is one of the first item or one of the others
    have hin : ∀ σ, Occurs σ (ts ++ us) → σ.asRule = .string → ∀ v w, Derives s a .value v w [σ] →
        (Occurs σ ts ∧ w ≤ j) ∨ (Occurs σ us ∧ m ≤ v) := by
      intro σ hσ hs v w hv
      rcases occurs_append.1 hσ with hσ | hσ
      · exact Or.inl ⟨hσ, (hi.extent hσ hs hv).2⟩
      · exact Or.inr ⟨hσ, (hitems.extent hσ hs hv).1⟩
    have hag : Agree s t j (m + 1) := hr.agree (by omega) (by omega)
      fun σ hσ hs v w n hv hn1 hn2 hn => by
        have := hin σ hσ hs v w hv
        omega
    obtain ⟨vs, hvs, hsame⟩ := ih1 (hr.mono le_rfl (by omega)
      fun σ hσ hs v w n hv hn1 hn2 _ hn => by
        rcases hin σ hσ hs v w hv with h | h
        · exact h.1
        · omega) (Or.inl (stops_before hc hcom (by decide)))
    obtain ⟨ws, hws, hsame'⟩ := ih2 (hr.mono (by omega) le_rfl
      fun σ hσ hs v w n hv hn1 hn2 hn _ => by
        rcases hin σ hσ hs v w hv with h | h
        · omega
        · exact h.1) (Or.inl (hend.resolve_right fun h => absurd h.1 (by simp)))
    exact ⟨_, Derives.more b hvs ((hag.mono le_rfl (by omega)).skip hc)
      (hag.get hcom (by omega) (by omega)) ((hag.mono (by omega) le_rfl).skip hm) hws,
      fun h => by rw [hsame h, hsame' h]⟩

/-! ## Any other text between quotes -/

/-- A byte that may stand between the quotes of a string. -/
def isQuotable (c : UInt8) : Bool := isStringChar c || isWhitespace c

theorem StringText.quotable (hj : j = skip s a i) (ht : StringText s a j k) (hl : l = skip s a k) :
    AllIn isQuotable s i l := by
  intro m h1 h2
  rcases Nat.lt_or_ge m j with hlt | hge
  · obtain ⟨c, hc, hw⟩ := of_lt_skipTo h1 (hj ▸ hlt)
    exact ⟨c, hc, by simp [isQuotable, hw]⟩
  · rcases Nat.lt_or_ge m k with hlt | hge'
    · obtain ⟨c, hc, hf⟩ := ht.mem m hge hlt
      refine ⟨c, hc, ?_⟩
      rcases hf with hf | ⟨-, hf⟩ <;> simp [isQuotable, hf]
    · obtain ⟨c, hc, hw⟩ := of_lt_skipTo hge' (hl ▸ h2)
      exact ⟨c, hc, by simp [isQuotable, hw]⟩

/-- **With other text between its quotes a document is a document.** -/
theorem Derives.requote (h : Derives s .nonAtomic φ i j ts)
    (hr : ∀ k, i ≤ k → k ≤ j → s[k]? = t[k]? ∨ BetweenQuotes s ts k ∧ At isQuotable t k = true)
    (hend : Ends s φ i j) : ∃ us, Derives t .nonAtomic φ i j us := by
  have hr' : Rewritten s t .nonAtomic (fun _ k => At isQuotable t k = true) ts i j := by
    intro k h1 h2
    rcases hr k h1 h2 with heq | ⟨⟨σ, v, w, hσ, hrule, hv, hk1, hk2⟩, hq⟩
    · exact Or.inl heq
    · exact Or.inr ⟨σ, v, w + 1, hσ, hrule, hv, hk1, by omega, hq⟩
  have hleaf : ∀ {x y σ}, Derives s .nonAtomic .value x y [σ] → σ.asRule = .string →
      Rewritten s t .nonAtomic (fun _ k => At isQuotable t k = true) [σ] x y →
      ∃ σ', Derives t .nonAtomic .value x y [σ'] ∧ (False → σ' = σ) := by
    intro x y σ hv hrule hr
    cases hv with
    | empty b _ _ _ => exact absurd hrule (by cases b <;> simp [Bracket.rule])
    | filled b _ _ _ _ _ => exact absurd hrule (by cases b <;> simp [Bracket.rule])
    | scalar h => exact absurd hrule h.ne_string
    | @string _ j k l hq hj ht hl hq' =>
      have h1 := le_of_skip hj
      have h2 := ht.le
      have h3 := le_of_skip hl
      have hbyte : ∀ m, x ≤ m → m ≤ l → s[m]? = t[m]? ∨ (x < m ∧ m < l ∧ At isQuotable t m = true) := by
        intro m hm1 hm2
        rcases hr m hm1 (by omega) with heq | ⟨σ, v, w, hσ, hrule, hv, hk1, hk2, hquot⟩
        · exact Or.inl heq
        · have := (Derives.string hq hj ht hl hq').extent hσ hrule hv
          exact Or.inr ⟨by omega, by omega, hquot⟩
      have hsame : ∀ m, x ≤ m → m ≤ l → (m = x ∨ m = l) → s[m]? = t[m]? := by
        intro m hm1 hm2 hm
        rcases hbyte m hm1 hm2 with heq | h
        · exact heq
        · omega
      have hall : AllIn isQuotable t (x + 1) l := by
        intro m hm1 hm2
        rcases hbyte m (by omega) (by omega) with heq | ⟨-, -, hquot⟩
        · rw [← heq]
          exact StringText.quotable hj ht hl m hm1 hm2
        · exact at_iff.1 hquot
      obtain ⟨e, he⟩ := derives_string (hsame x le_rfl (by omega) (Or.inl rfl) ▸ hq) (by omega) hall
        (hsame l (by omega) le_rfl (Or.inr rfl) ▸ hq')
      exact ⟨_, he, fun h => h.elim⟩
  obtain ⟨us, hus, -⟩ := h.rewrite hleaf hr' hend
  exact ⟨us, hus⟩

/-! ## Text with the same span -/

/-- **The text of a string**, in another message: string characters, with
no space at its ends. -/
structure NewString (t : List UInt8) (σ : Token) : Prop where
  chars : AllIn isStringChar t σ.start σ.stop
  first : σ.start < σ.stop → t[σ.start]? ≠ some space
  last : σ.start < σ.stop → t[σ.stop - 1]? ≠ some space

/-- At its ends there is no whitespace. -/
theorem NewString.ends {c : UInt8} (h : NewString t σ) (hlt : σ.start < σ.stop)
    (hk : k = σ.start ∨ k + 1 = σ.stop) (hc : t[k]? = some c) : isWhitespace c = false := by
  obtain ⟨d, hd, hf⟩ := h.chars k (by omega) (by omega)
  rw [hc, Option.some.injEq] at hd
  subst hd
  by_contra hw
  have hs : c = space := eq_space_of_stringChar hf (by simpa using hw)
  rw [hs] at hc
  rcases hk with rfl | hk
  · exact h.first hlt hc
  · obtain rfl : k = σ.stop - 1 := by omega
    exact h.last hlt hc

/-- A string with its text overwritten, or not, has the same token. -/
theorem derives_string_overwrite (hq : s[i]? = some quote) (hj : j = skip s a (i + 1))
    (ht : StringText s a j k) (hl : l = skip s a k) (hq' : s[l]? = some quote)
    (hbyte : ∀ m, i ≤ m → m ≤ l →
      s[m]? = t[m]? ∨ (j ≤ m ∧ m < k ∧ NewString t (.node .string j k []))) :
    Derives t a .value i (l + 1) [.node .string j k []] := by
  have h1 := le_of_skip hj
  have h2 := ht.le
  have h3 := le_of_skip hl
  have hout : ∀ m, i ≤ m → m ≤ l → (m < j ∨ k ≤ m) → s[m]? = t[m]? := by
    intro m hm1 hm2 hm
    rcases hbyte m hm1 hm2 with heq | ⟨h, h', -⟩
    · exact heq
    · omega
  have hj' : j = skip t a (i + 1) := by
    refine skip_of_agree hj (fun m hm1 hm2 => hout m (by omega) (by omega) (Or.inl hm2)) ?_
    rintro rfl
    rcases hbyte j (by omega) (by omega) with heq | ⟨-, hjk, hnew⟩
    · exact (stops_skip hj).congr heq
    · exact fun c hc => hnew.ends hjk (Or.inl rfl) hc
  have hmem : ∀ m, j ≤ m → m < k →
      ∃ c, t[m]? = some c ∧ (isStringChar c = true ∨ a = .nonAtomic ∧ isWhitespace c = true) := by
    intro m hm1 hm2
    rcases hbyte m (by omega) (by omega) with heq | ⟨-, -, hnew⟩
    · rw [← heq]
      exact ht.mem m hm1 hm2
    · obtain ⟨c, hc, hf⟩ := hnew.chars m hm1 hm2
      exact ⟨c, hc, Or.inl hf⟩
  have hlast : a = .nonAtomic → j < k →
      ∃ c, t[k - 1]? = some c ∧ isStringChar c = true ∧ isWhitespace c = false := by
    intro ha hjk
    rcases hbyte (k - 1) (by omega) (by omega) with heq | ⟨-, -, hnew⟩
    · rw [← heq]
      exact ht.last ha hjk
    · have hle : j ≤ k - 1 := by omega
      have hlt : k - 1 < k := by omega
      obtain ⟨c, hc, hf⟩ := hnew.chars (k - 1) hle hlt
      have hend : k - 1 + 1 = k := by omega
      exact ⟨c, hc, hf, hnew.ends hjk (Or.inr hend) hc⟩
  have hl' : l = skip t a k := Agree.skip (fun m hm1 hm2 => hout m (by omega) (by omega)
    (Or.inr hm1)) hl
  exact Derives.string (hout i le_rfl (by omega) (by omega) ▸ hq) hj' ⟨h2, hmem, hlast⟩ hl'
    (hout l (by omega) le_rfl (by omega) ▸ hq')

/-- **A document with strings overwritten has the same tokens.** -/
theorem Derives.overwrite (h : Derives s a φ i j ts)
    (hr : ∀ k, i ≤ k → k ≤ j → s[k]? = t[k]? ∨
      ∃ σ, Occurs σ ts ∧ σ.asRule = .string ∧ NewString t σ ∧ Covered σ k)
    (hend : Ends s φ i j) : Derives t a φ i j ts := by
  have hr' : Rewritten s t a (fun σ k => NewString t σ ∧ Covered σ k) ts i j := by
    intro k h1 h2
    rcases hr k h1 h2 with heq | ⟨σ, hσ, hrule, hnew, hk⟩
    · exact Or.inl heq
    · obtain ⟨x, y, hv, -, h3, h4, -⟩ := h.string_extent hσ hrule
      have h5 := hk.1
      have h6 := hk.2
      exact Or.inr ⟨σ, x, y, hσ, hrule, hv, by omega, by omega, hnew, hk⟩
  have hleaf : ∀ {x y σ}, Derives s a .value x y [σ] → σ.asRule = .string →
      Rewritten s t a (fun σ k => NewString t σ ∧ Covered σ k) [σ] x y →
      ∃ σ', Derives t a .value x y [σ'] ∧ (True → σ' = σ) := by
    intro x y σ hv hrule hr
    refine ⟨σ, ?_, fun _ => rfl⟩
    cases hv with
    | empty b _ _ _ => exact absurd hrule (by cases b <;> simp [Bracket.rule])
    | filled b _ _ _ _ _ => exact absurd hrule (by cases b <;> simp [Bracket.rule])
    | scalar h => exact absurd hrule h.ne_string
    | @string _ j k l hq hj ht hl hq' =>
      refine derives_string_overwrite hq hj ht hl hq' fun m hm1 hm2 => ?_
      rcases hr m hm1 (by omega) with heq | ⟨τ, -, -, hτ, -, -, -, -, hnew, hk⟩
      · exact Or.inl heq
      · rcases occurs_singleton.1 hτ with rfl | hτ
        · exact Or.inr ⟨hk.1, hk.2, hnew⟩
        · exact absurd hτ not_occurs_nil
  obtain ⟨us, hus, hsame⟩ := h.rewrite hleaf hr' hend
  exact hsame trivial ▸ hus

end Syntax

end TlsnDemo
