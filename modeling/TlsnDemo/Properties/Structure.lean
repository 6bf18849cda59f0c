import TlsnDemo.Syntax.Quotes
import Mathlib.Data.List.Forall2

/-!
# The structure of a JSON text

Of a JSON text that the message grammar reads in full, it reads the
structure that the text has: the same objects and arrays with the same
members and elements, and the same kinds of scalars, each within its token
(`json_structure`). No string of such a text has an escaped quote, so no
text inside a string is read as structure.
-/

namespace TlsnDemo

open Peg Grammar

namespace Syntax

variable {s : List UInt8} {i j k l : ℕ} {φ : Phrase}

/-! ## Tokens -/

theorem IsNumber.numberText (h : IsNumber s i j) : NumberText s i j := by
  obtain ⟨m, b, f, hm, hb, hf, hj⟩ := h
  have hsign : signEnd s i = m := by
    rcases hm with rfl | ⟨hc, rfl⟩
    · refine if_neg fun hminus => ?_
      rcases hb with ⟨hzero, -⟩ | ⟨hd, -⟩
      · rw [hminus] at hzero
        exact absurd hzero (by decide)
      · obtain ⟨c, hc, hd⟩ := at_iff.1 hd
        rw [hminus, Option.some.injEq] at hc
        rw [← hc] at hd
        exact absurd hd (by decide)
    · exact if_pos hc
  refine ⟨b, f, hsign ▸ hb, ?_, ?_⟩
  · rcases hf with rfl | ⟨hc, hlt, hall⟩
    · exact Or.inl rfl
    · exact Or.inr ⟨hc, by omega, hall⟩
  · rcases hj with rfl | ⟨hmark, d, hd, hlt, hall⟩
    · exact Or.inl rfl
    · have hdigits : exponentDigits s (f + 1) = d := by
        rcases hd with rfl | ⟨hsign, rfl⟩
        · refine if_neg fun hsign => ?_
          obtain ⟨c, hc, hs⟩ := at_iff.1 hsign
          obtain ⟨d, hd, hdigit⟩ := hall _ le_rfl hlt
          rw [hc, Option.some.injEq] at hd
          rw [← hd] at hdigit
          simp only [isSign, Bool.or_eq_true, beq_iff_eq] at hs
          rcases hs with rfl | rfl <;> exact absurd hdigit (by decide)
        · exact if_pos hsign
      exact Or.inr ⟨hmark, hdigits.symm ▸ hlt, hdigits.symm ▸ hall⟩

theorem PlainString.first (h : PlainString s i j) : s[i]? = some quote := by
  obtain ⟨⟨k, -, hopen, -⟩, -⟩ := h
  exact hopen

/-- A plain string ends at the first quote after its own. -/
theorem PlainString.end_eq {q : ℕ} (h : PlainString s i j) (hlt : i < q) (hq : s[q]? = some quote)
    (hno : ∀ k, i < k → k < q → s[k]? ≠ some quote) : j = q + 1 := by
  obtain ⟨⟨k, rfl, -, hchars, hclose⟩, hplain⟩ := h
  have hle := hchars.le
  rcases Nat.lt_trichotomy k q with hlt' | rfl | hgt
  · exact absurd hclose (hno k (by omega) hlt')
  · rfl
  · exact absurd hq (hplain q hlt (by omega))

/-! ## Alignment -/

/-- **A phrase of a JSON text is aligned** with every derivation that starts
where it does: both end at one position, and the tokens fit the trees. A
number must not go on at the end, and a list must be closed. -/
def Aligned (s : List UInt8) : Phrase → ℕ → ℕ → List Tree → Prop
  | .items b, i, j, ts => ∀ y us, Derives s .nonAtomic (.items b) i y us →
      s[skip s .nonAtomic j]? = some b.closing → s[skip s .nonAtomic y]? = some b.closing →
      j = y ∧ List.Forall₂ Fits ts us
  | φ, i, j, ts => ∀ y us, Derives s .nonAtomic φ i y us → Stops isNumberNext s j →
      j = y ∧ List.Forall₂ Fits ts us

theorem Aligned.item {b : Bracket} {ts : List Tree} (h : Aligned s b.item i j ts) :
    ∀ y us, Derives s .nonAtomic b.item i y us → Stops isNumberNext s j →
      j = y ∧ List.Forall₂ Fits ts us := by
  cases b with
  | object => exact h
  | array => exact h

/-- Where whitespace or a byte that ends a number follows, none goes on. -/
theorem stops_of_skip {c : UInt8} (hc : s[skip s .nonAtomic j]? = some c)
    (hstop : isNumberNext c = false) : Stops isNumberNext s j := by
  rcases Nat.eq_or_lt_of_le (le_skipTo (f := isWhitespace) (s := s) (a := .nonAtomic) (i := j)) with
    heq | hlt
  · rw [skip, ← heq] at hc
    exact Stops.of_eq hc hstop
  · obtain ⟨d, hd, hw⟩ := of_lt_skipTo le_rfl hlt
    refine Stops.of_eq hd ?_
    rcases whitespace_iff.1 hw with rfl | rfl | rfl | rfl | rfl <;> decide

/-- A phrase with its token, when the message grammar derives that too. -/
theorem fits_scalar (kind : Kind) {us : List Token} {y : ℕ} (hs : ScalarText s i j kind.rule)
    (hd : Derives s .nonAtomic .value i y us) :
    j = y ∧ List.Forall₂ Fits [.node kind i j []] us := by
  obtain ⟨hj, hus⟩ := (Derives.scalar hs).value_unique (by decide) hd
  exact ⟨hj, hus ▸ .cons (.node kind le_rfl le_rfl .nil) .nil⟩

/-- A list starts with no closing bracket. -/
theorem not_closing_of_first {b : Bracket} (h : ∃ c, s[i]? = some c ∧ isValueStart c = true) :
    s[i]? ≠ some b.closing := by
  obtain ⟨c, hc, hf⟩ := h
  intro hclose
  rw [hc, Option.some.injEq] at hclose
  rw [hclose, not_valueStart_closing] at hf
  exact absurd hf (by simp)

theorem Json.first_plain {ts : List Tree} (h : Json (PlainString s) s φ i j ts) :
    ∃ c, s[i]? = some c ∧ isValueStart c = true :=
  h.first fun _ _ hs => hs.first

/-- **Every phrase is aligned.** -/
theorem Json.aligned {ts : List Tree} (h : Json (PlainString s) s φ i j ts) :
    Aligned s φ i j ts := by
  induction h with
  | @empty b i j hopen hblank hclose =>
    intro y us hd _
    have hj := hblank.skip hclose (not_whitespace_closing b)
    rcases hd.of_opening hopen with ⟨x, hx, -, rfl, rfl⟩ | ⟨x, z, w, vs, hx, hitems, -⟩
    · obtain rfl := hj.trans hx.symm
      exact ⟨rfl, b.rule_kind ▸ .cons (.node b.kind le_rfl le_rfl .nil) .nil⟩
    · obtain rfl := hj.trans hx.symm
      exact absurd hclose (not_closing_of_first hitems.first)
  | @filled b i j k l ts hopen hblank hitems hblank' hclose ih =>
    intro y us hd _
    obtain ⟨c, hc, hf⟩ := hitems.first_plain
    have hj := hblank.skip hc (not_whitespace_of_valueStart hf)
    have hl := hblank'.skip hclose (not_whitespace_closing b)
    rcases hd.of_opening hopen with ⟨x, hx, hclose', -⟩ | ⟨x, z, w, vs, hx, hitems', hw, hclose', rfl, rfl⟩
    · obtain rfl := hj.trans hx.symm
      exact absurd hclose' (not_closing_of_first hitems.first_plain)
    · obtain rfl := hj.trans hx.symm
      obtain ⟨rfl, hfit⟩ := ih z vs hitems' (hl ▸ hclose) (hw ▸ hclose')
      obtain rfl := hl.trans hw.symm
      exact ⟨rfl, b.rule_kind ▸ .cons (.node b.kind le_rfl le_rfl hfit) .nil⟩
  | @string i j hs =>
    intro y us hd _
    cases hd with
    | @string _ x z w _ hx ht hw hq =>
      have h1 := le_of_skip hx
      have h2 := ht.le
      have h3 := le_of_skip hw
      have hj := hs.end_eq (by omega) hq
        fun k hk hk' => ne_quote_inside hx hw (fun m => ht.ne_quote) hk hk'
      exact ⟨hj, .cons (.node .string (by omega) (by omega) .nil) .nil⟩
    | empty b hopen _ _ =>
      rw [hs.first] at hopen
      cases b <;> exact absurd hopen (by decide)
    | filled b hopen _ _ _ _ =>
      rw [hs.first] at hopen
      cases b <;> exact absurd hopen (by decide)
    | scalar h =>
      obtain ⟨c, hc, -, -, -, hquote⟩ := h.first
      rw [hs.first, Option.some.injEq] at hc
      exact absurd hc.symm hquote
  | number h =>
    intro y us hd hstop
    exact fits_scalar .number (.number (h.numberText.end_eq hstop)) hd
  | isTrue h => exact fun y us hd _ => fits_scalar .boolean (.isTrue h) hd
  | isFalse h => exact fun y us hd _ => fits_scalar .boolean (.isFalse h) hd
  | null h => exact fun y us hd _ => fits_scalar .null (.null h) hd
  | @member i q c v j ts hname hblank hcol hblank' hvalue ih =>
    intro y us hd hstop
    cases hd with
    | @pair _ kb ke q' c' v' _ vs _ hkb hk hqe hq' hc' _ hv' hvalue' =>
      have h1 := le_of_skip hkb
      have h2 := hk.lt
      have h3 := le_of_skip hqe
      obtain rfl := hname.end_eq (by omega) hq'
        fun k hk1 hk2 => ne_quote_inside hkb hqe (fun m => hk.ne_quote) hk1 hk2
      obtain rfl := (hblank.skip hcol (by decide)).trans hc'.symm
      obtain ⟨d, hd, hf⟩ := hvalue.first_plain
      obtain rfl := (hblank'.skip hd (not_whitespace_of_valueStart hf)).trans hv'.symm
      obtain ⟨rfl, hfit⟩ := ih y vs hvalue' hstop
      refine ⟨rfl, .cons (.node .member le_rfl le_rfl (.cons ?_ hfit)) .nil⟩
      exact .node .name (by omega) (by omega) .nil
  | @last b i j ts hitem ih =>
    intro y us hd hclose hclose'
    have hstop := stops_of_skip hclose b.not_numberNext
    generalize hφ : Phrase.items b = ψ at hd
    cases hd with
    | last b' hitem' =>
      cases hφ
      exact ih.item y us hitem' hstop
    | more b' hitem' hc hcom hm hrest =>
      -- After the one item a bracket closes, and no comma comes.
      cases hφ
      obtain ⟨rfl, -⟩ := ih.item _ _ hitem' hstop
      rw [hc, hclose] at hcom
      cases b <;> exact absurd hcom (by decide)
    | _ => cases hφ
  | @more b i j c m k ts us hitem hblank hcom hblank' hitems ih1 ih2 =>
    intro y vs hd hclose hclose'
    have hc := hblank.skip hcom (by decide)
    have hstop : Stops isNumberNext s j := stops_of_skip (hc ▸ hcom) (by decide)
    generalize hφ : Phrase.items b = ψ at hd
    cases hd with
    | last b' hitem' =>
      cases hφ
      obtain ⟨rfl, -⟩ := ih1.item _ _ hitem' hstop
      rw [← hc, hcom] at hclose'
      cases b <;> exact absurd hclose' (by decide)
    | @more b' _ z c' m' _ ws xs hitem' hc' hcom' hm' hrest =>
      cases hφ
      obtain ⟨rfl, hfit⟩ := ih1.item _ _ hitem' hstop
      obtain rfl := hc.trans hc'.symm
      obtain ⟨d, hd, hf⟩ := hitems.first_plain
      obtain rfl := (hblank'.skip hd (not_whitespace_of_valueStart hf)).trans hm'.symm
      obtain ⟨rfl, hfit'⟩ := ih2 y xs hrest hclose hclose'
      exact ⟨rfl, List.rel_append hfit hfit'⟩
    | _ => cases hφ

/-! ## Documents -/

/-- A JSON text read in full starts and ends with the brackets of its value. -/
theorem IsJsonText.value {t : Tree} {us : List Token} {b : Bracket} (h : IsJsonText s t)
    (hd : Derives s .nonAtomic .value 0 s.length us) (hopen : s[0]? = some b.opening) :
    Json (IsString s) s .value 0 s.length [t] := by
  obtain ⟨i, j, hbefore, hvalue, hafter⟩ := h
  have hblank : ∀ {k c}, s[k]? = some c → isWhitespace c = false → ∀ {i j}, Blanks s i j → i ≤ k →
      ¬ k < j := by
    intro k c hc hw i j hb h1 h2
    obtain ⟨d, hd, hf⟩ := hb.2 k h1 h2
    rw [hc, Option.some.injEq] at hd
    rw [hd, whitespace_of_blank hf] at hw
    exact absurd hw (by simp)
  have hi : i = 0 := by
    have hnot := hblank hopen (by cases b <;> decide) hbefore le_rfl
    omega
  have hlast : ∃ k, s.length = k + 1 ∧ s[k]? = some b.closing := by
    rcases hd.of_opening hopen with ⟨x, -, hclose, hlen, -⟩ | ⟨x, z, w, vs, -, -, -, hclose, hlen, -⟩
    · exact ⟨x, hlen, hclose⟩
    · exact ⟨w, hlen, hclose⟩
  obtain ⟨k, hk, hclose⟩ := hlast
  have hj : j = s.length := by
    by_contra hne
    have hle := hafter.1
    exact hblank hclose (not_whitespace_closing b) hafter (by omega) (by omega)
  rw [hi, hj] at hvalue
  exact hvalue

/-- **The structure of a JSON text.** Of every JSON text that the rule `json`
reads in full, none of the strings has an escaped quote, and the tokens
fit the tree of the text: they have its nesting, its members and elements
in order and its kinds of scalars, each span within its token. -/
theorem json_structure {t : Tree} {us : List Token} (h : IsJsonText s t)
    (hjson : json s .nonAtomic 0 = some (s.length, us)) :
    Json (PlainString s) s .value 0 s.length [t] ∧ ∃ u, us = [u] ∧ Fits t u := by
  obtain ⟨hd, b, hopen⟩ := (json_eq_some (by decide)).1 hjson
  have hplain := (h.value hd hopen).plain hd
  have hend : Stops isNumberNext s s.length := by
    intro c hc
    have hlt := lt_length hc
    omega
  obtain ⟨-, hfits⟩ := hplain.aligned s.length us hd hend
  obtain ⟨u, us', hfit, hnil, rfl⟩ := List.forall₂_cons_left_iff.1 hfits
  obtain rfl := List.forall₂_nil_left_iff.1 hnil
  exact ⟨hplain, u, rfl, hfit⟩

/-- `{"a":"\n"}`, with an escaped line feed in a string. -/
def escapedLineFeed : List UInt8 := bytes "\x7b\"a\":\"\\n\"\x7d"

/-- Its tree: one member, with a string. -/
def escapedLineFeedTree : Tree :=
  .node .object 0 10 [.node .member 1 9 [.node .name 1 4 [], .node .string 5 9 []]]

theorem isJsonText_escapedLineFeed : IsJsonText escapedLineFeed escapedLineFeedTree := by
  have hblanks : ∀ i, Blanks escapedLineFeed i i := fun i => ⟨le_rfl, AllIn.nil⟩
  have hname : IsString escapedLineFeed 1 4 :=
    ⟨3, rfl, rfl, .unescaped (c := 0x61) rfl (by decide) .nil, rfl⟩
  have hstring : IsString escapedLineFeed 5 9 :=
    ⟨8, rfl, rfl, .escape (c := 0x6e) rfl rfl (by decide) .nil, rfl⟩
  have hmember := Json.member hname (hblanks 4) rfl (hblanks 5) (.string hstring)
  exact ⟨0, 10, hblanks 0,
    .filled .object rfl (hblanks 1) (.last .object hmember) (hblanks 9) rfl, hblanks 10⟩

theorem json_structure_escapedLineFeed :
    Json (PlainString escapedLineFeed) escapedLineFeed .value 0 10 [escapedLineFeedTree] ∧
      ∃ u, [.node .object 0 10 [.node .pair 1 9 [.node .key 2 3 [], .node .string 6 8 []]]] = [u] ∧
        Fits escapedLineFeedTree u :=
  json_structure isJsonText_escapedLineFeed rfl

end Syntax

end TlsnDemo
