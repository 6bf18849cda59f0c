import TlsnDemo.Reading.Overwritten
import TlsnDemo.Reading.Documents

/-!
# The tokens of a message with values overwritten

Header lines end where they did, so the body starts where it did. A body
that is no document does not become one with other text in its strings:
turned around, each of its strings would stand between two quotes of that
document, and there any text may.
-/

namespace TlsnDemo

open Peg Support Syntax

variable {s t : List UInt8} {i j k l m h e x y d : ℕ} {u v σ : Token} {ts us hs bs : List Token}

theorem BodyText.le (hb : BodyText s i e bs) : i ≤ e := by
  cases hb with
  | document h1 h2 hd =>
    have := hd.derives.lt
    omega
  | redacted hr =>
    obtain ⟨x, y, h1, h2, hu⟩ := hr.mem List.mem_cons_self
    have := hu.bounds.1
    omega
  | none => exact le_rfl

namespace Syntax

/-! ## What a body starts with -/

theorem Bracket.not_headerNameChar (b : Bracket) :
    isHeaderNameChar b.opening = false ∧ b.opening ≠ colon := by cases b <;> decide

theorem Bracket.not_hexDigit (b : Bracket) : Grammar.isAsciiHexDigit b.opening = false := by
  cases b <;> decide

/-- A redacted body starts with a brace or a quote, past whitespace. -/
theorem RedactedBodyText.front (hb : RedactedBodyText s i e u us k l) (hi : skip s .nonAtomic i = i) :
    s[i]? = some openBrace ∨ s[i]? = some quote := by
  by_cases hbrace : s[i]? = some openBrace
  · exact Or.inl hbrace
  · obtain ⟨e, us, -, hk, -⟩ := hb.first.parts
    have hq := hk.opening
    rw [past, if_neg hbrace, hi] at hq
    exact Or.inr hq

/-- A body with a document or pairs starts with a byte. -/
theorem lt_length_of_body (hb : Grammar.body s .nonAtomic i = some (e, bs)) : i < s.length := by
  rcases body_eq_some.1 hb with hb | ⟨-, hb | ⟨-, hb⟩⟩
  · obtain ⟨k, l, hc⟩ := chunkedBody_eq_some.1 hb
    obtain ⟨c, hcs, -⟩ := at_iff.1 (chunkSize_iff.1 hc.size).1
    exact lt_length hcs
  · obtain ⟨-, b, hopen⟩ := (json_eq_some (by decide)).1 hb
    exact lt_length hopen
  · obtain ⟨u, us, k, l, hr, -⟩ := bodyRedacted_eq_some.1 hb
    have h1 : i ≤ skip s .nonAtomic (past openBrace s i) := le_past.trans le_skipTo
    have h2 := hr.first.bounds
    omega

/-- **In front of a body's strings** there is a byte that no header starts
with, or the end of the message. -/
theorem body_front (hb : Peg.optional Grammar.body s .nonAtomic i = some (e, bs))
    (hi : skip s .nonAtomic i = i) (hend : s.length ≤ skip s .nonAtomic e) :
    ∃ x, i ≤ x ∧ (∀ c, s[x]? = some c → isHeaderNameChar c = false ∧ c ≠ colon) ∧
      ∀ σ, Occurs σ bs → σ.asRule = .string → x < σ.start ∧ σ.stop ≤ e := by
  have hbyte : ∀ {x : ℕ} {c : UInt8}, s[x]? = some c → isHeaderNameChar c = false ∧ c ≠ colon →
      ∀ d, s[x]? = some d → isHeaderNameChar d = false ∧ d ≠ colon := by
    intro x c hc hf d hd
    rw [hc, Option.some.injEq] at hd
    exact hd ▸ hf
  rcases optional_eq_some.1 hb with hb | ⟨-, rfl, rfl⟩
  · rcases body_eq_some.1 hb with hb | ⟨-, hb | ⟨-, hb⟩⟩
    · obtain ⟨k, l, hc⟩ := chunkedBody_eq_some.1 hb
      obtain ⟨b, hopen⟩ := hc.opening
      have h1 := (chunkSize_iff.1 hc.size).2.le
      have h2 : i + 1 ≤ skip s .nonAtomic (i + 1) := le_skipTo
      have h3 : k ≤ skip s .nonAtomic k := le_skipTo
      have h4 : l ≤ skip s .nonAtomic l := le_skipTo
      have h5 := hc.stop
      refine ⟨skip s .nonAtomic k, by omega, hbyte hopen b.not_headerNameChar, fun σ hσ hr => ?_⟩
      have := hc.json.string_bounds hσ hr
      omega
    · obtain ⟨hd, b, hopen⟩ := (json_eq_some (by decide)).1 hb
      refine ⟨i, le_rfl, hbyte hopen b.not_headerNameChar, fun σ hσ hr => ?_⟩
      have := hd.string_bounds hσ hr
      omega
    · obtain ⟨u, us, k, l, hr, rfl⟩ := bodyRedacted_eq_some.1 hb
      have hle : l ≤ e := hr.stop ▸ le_skipTo.trans le_past
      refine ⟨i, le_rfl, ?_, fun σ hσ hrule => ?_⟩
      · rcases hr.front hi with hc | hc
        · exact hbyte hc (by decide)
        · exact hbyte hc (by decide)
      · have := hr.string_bounds hσ hrule
        omega
  · refine ⟨e, le_rfl, fun c hc => ?_, fun σ hσ _ => absurd hσ not_occurs_nil⟩
    have := lt_length hc
    omega

/-! ## The same body -/

/-- What a string of a redacted pair holds, it may hold in a document. -/
theorem Derives.string_quotable {φ : Phrase} (hv : Derives s .compoundAtomic φ i j ts) (hσ : Occurs σ ts)
    (hr : σ.asRule = .string) (h1 : σ.start ≤ k) (h2 : k < σ.stop) : At isQuotable s k = true := by
  obtain ⟨x, y, -, -, hw⟩ := hv.value_of_occurs hσ (by rw [hr]; rfl)
  cases hw with
  | empty b _ _ _ => exact absurd hr (by cases b <;> simp [Bracket.rule])
  | filled b _ _ _ _ _ => exact absurd hr (by cases b <;> simp [Bracket.rule])
  | scalar h => exact absurd hr h.ne_string
  | @string _ p q _ _ _ ht _ _ =>
    obtain ⟨c, hc, hf⟩ := ht.mem k h1 h2
    rcases hf with hf | ⟨hno, -⟩
    · exact at_iff.2 ⟨c, hc, by simp [isQuotable, hf]⟩
    · exact absurd hno (by decide)

/-- **What is no document does not become one.** -/
theorem RedactedBodyText.json_none (hb : RedactedBodyText s i e u us k l)
    (hr : ∀ m, i ≤ m → s[m]? = t[m]? ∨
      ∃ σ, Occurs σ (u :: us) ∧ σ.asRule = .string ∧ NewString t σ ∧ Covered σ m)
    (hend : s.length ≤ skip s .nonAtomic e) (hno : Grammar.json s .nonAtomic i = none) :
    Grammar.json t .nonAtomic i = none := by
  have hsame : s[i]? = t[i]? := by
    rcases hr i le_rfl with heq | ⟨σ, hσ, hrule, -, hcov⟩
    · exact heq
    · have := hcov.1
      have := hb.string_bounds hσ hrule
      omega
  rw [Option.eq_none_iff_forall_ne_some]
  rintro ⟨y, ts⟩ hj
  obtain ⟨hdoc, b, hopen⟩ := (json_eq_some (by decide)).1 hj
  -- turned around, every string overwritten stands between quotes of the document
  have hback : ∀ m, i ≤ m → m ≤ y →
      t[m]? = s[m]? ∨ BetweenQuotes t ts m ∧ At isQuotable s m = true := by
    intro m hm1 hm2
    rcases hr m hm1 with heq | ⟨σ, hσ, hrule, -, hcov⟩
    · exact Or.inl heq.symm
    refine Or.inr ?_
    obtain ⟨w, hw, hin⟩ := hσ.exists_mem
    obtain ⟨x, z, -, -, hs⟩ := hb.mem hw
    obtain ⟨x', z', hx, -, ht⟩ := (hb.overwrite hr hend).mem hw
    obtain ⟨q, v, hk, hv, hσv⟩ := ht.value_of_string (occurs_singleton.2 hin) hrule
    obtain ⟨q', v', -, hv', hσv'⟩ := hs.value_of_string (occurs_singleton.2 hin) hrule
    have h1 := hv.string_bounds hσv hrule
    have h2 := hcov.1
    obtain ⟨z'', valuePair, hocc, hval⟩ := hdoc.pair_of_keyColon hk (by omega) (by omega)
    obtain ⟨ws, hws, -, -, hbetween⟩ := hv.loosen_strings
    obtain ⟨c, hc, hf⟩ := hv.first
    rw [skip_self hc (not_whitespace_of_valueStart hf)] at hval
    obtain ⟨-, rfl⟩ := hval.value_unique (by decide) hws
    have hquotes : BetweenQuotes t [valuePair] m := hbetween m ⟨σ, hσv, hrule, hcov⟩
    exact ⟨hquotes.mono fun τ hτ => hocc.of_inner (Occurs.tail hτ),
      hv'.string_quotable hσv' hrule hcov.1 hcov.2⟩
  obtain ⟨us', hus⟩ := hdoc.requote hback (Or.inr ⟨rfl, b, hopen⟩)
  rw [(json_eq_some (by decide)).2 ⟨hus, b, hsame.trans hopen⟩] at hno
  exact absurd hno (by simp)

/-- A document with strings overwritten is the same document. -/
theorem json_overwrite (hd : Derives s .nonAtomic .value i j ts)
    (hopen : ∃ b : Bracket, s[i]? = some b.opening)
    (hr : ∀ m, i ≤ m → m ≤ j → s[m]? = t[m]? ∨
      ∃ σ, Occurs σ ts ∧ σ.asRule = .string ∧ NewString t σ ∧ Covered σ m) :
    Derives t .nonAtomic .value i j ts ∧ ∃ b : Bracket, t[i]? = some b.opening := by
  obtain ⟨b, hb⟩ := hopen
  refine ⟨hd.overwrite hr (Or.inr ⟨rfl, b, hb⟩), b, ?_⟩
  rcases hr i le_rfl hd.lt.le with heq | ⟨σ, hσ, hrule, -, hcov⟩
  · exact heq ▸ hb
  · have := hcov.1
    have := hd.string_bounds hσ hrule
    omega

/-- A chunked body with strings overwritten is the same body. -/
theorem ChunkedText.overwrite (hc : ChunkedText s i j ts k l)
    (hr : ∀ m, i ≤ m → s[m]? = t[m]? ∨
      ∃ σ, Occurs σ ts ∧ σ.asRule = .string ∧ NewString t σ ∧ Covered σ m) :
    ChunkedText t i j ts k l := by
  have h1 := (chunkSize_iff.1 hc.size).2.le
  have h2 : i + 1 ≤ skip s .nonAtomic (i + 1) := le_skipTo
  have h3 : k ≤ skip s .nonAtomic k := le_skipTo
  have h4 := hc.json.lt
  have h5 : l ≤ skip s .nonAtomic l := le_skipTo
  have hag : ∀ {x y}, i ≤ x → (y ≤ skip s .nonAtomic k + 1 ∨ l ≤ x) → Agree s t x y := by
    intro x y hx hy m hm1 hm2
    rcases hr m (by omega) with heq | ⟨σ, hσ, hrule, -, hcov⟩
    · exact heq
    · have := hcov.1
      have := hcov.2
      have := hc.json.string_bounds hσ hrule
      omega
  have hsize : ChunkSize t i k := hc.size.agree (hag le_rfl (Or.inl le_rfl))
  have hk : skip s .nonAtomic k = skip t .nonAtomic k :=
    Agree.skip (hag (by omega) (Or.inl le_rfl)) rfl
  have hl : skip s .nonAtomic l = skip t .nonAtomic l :=
    Agree.skip (hag (by omega) (Or.inr le_rfl)) rfl
  obtain ⟨hd, hopen⟩ := json_overwrite hc.json hc.opening fun m hm1 _ => hr m (by omega)
  refine ⟨hsize, hk ▸ hd, hk ▸ hopen, ?_, hl ▸ hc.stop⟩
  rw [← hl, ← hag (x := l) (y := skip s .nonAtomic l + 1) (by omega) (Or.inr le_rfl) _ h5
    (Nat.lt_succ_self _)]
  exact hc.zero

/-- **A body with strings overwritten is the same body.** -/
theorem body_overwrite (hb : Peg.optional Grammar.body s .nonAtomic i = some (e, bs))
    (hi : skip s .nonAtomic i = i)
    (hr : ∀ m, i ≤ m → s[m]? = t[m]? ∨
      ∃ σ, Occurs σ bs ∧ σ.asRule = .string ∧ NewString t σ ∧ Covered σ m)
    (hend : s.length ≤ skip s .nonAtomic e) :
    Peg.optional Grammar.body t .nonAtomic i = some (e, bs) := by
  obtain ⟨x, hix, -, hbounds⟩ := body_front hb hi hend
  have hfront : ∀ m, i ≤ m → m ≤ x → s[m]? = t[m]? := by
    intro m hm1 hm2
    rcases hr m hm1 with heq | ⟨σ, hσ, hrule, -, hcov⟩
    · exact heq
    · have := hcov.1
      have := hbounds σ hσ hrule
      omega
  have hsame : s[i]? = t[i]? := hfront i le_rfl hix
  -- where no digit stands there is no chunked body
  have hchunk : (∀ c, s[i]? = some c → Grammar.isAsciiHexDigit c = false) →
      Grammar.chunkedBody t .nonAtomic i = none := by
    intro hno
    rw [Option.eq_none_iff_forall_ne_some]
    rintro ⟨j, us⟩ hc
    obtain ⟨k, l, hc⟩ := chunkedBody_eq_some.1 hc
    obtain ⟨c, hct, hf⟩ := at_iff.1 (chunkSize_iff.1 hc.size).1
    rw [hno c (hsame.trans hct)] at hf
    exact absurd hf (by simp)
  rcases optional_eq_some.1 hb with hb | ⟨hb, rfl, rfl⟩
  · refine optional_eq_some.2 (Or.inl (body_eq_some.2 ?_))
    rcases body_eq_some.1 hb with hb | ⟨-, hb | ⟨hno, hb⟩⟩
    · obtain ⟨k, l, hc⟩ := chunkedBody_eq_some.1 hb
      exact Or.inl (chunkedBody_eq_some.2 ⟨k, l, hc.overwrite hr⟩)
    · obtain ⟨hd, hopen⟩ := (json_eq_some (by decide)).1 hb
      refine Or.inr ⟨hchunk fun c hc => ?_, Or.inl ((json_eq_some (by decide)).2
        (json_overwrite hd hopen fun m hm1 _ => hr m hm1))⟩
      obtain ⟨b, hb⟩ := hopen
      rw [hc, Option.some.injEq] at hb
      exact hb ▸ b.not_hexDigit
    · obtain ⟨u, us, k, l, hred, rfl⟩ := bodyRedacted_eq_some.1 hb
      refine Or.inr ⟨hchunk fun c hc => ?_, Or.inr ⟨hred.json_none hr hend hno,
        bodyRedacted_eq_some.2 ⟨u, us, k, l, hred.overwrite hr hend, rfl⟩⟩⟩
      rcases hred.front hi with h | h
      · rw [hc, Option.some.injEq] at h
        rw [h]
        decide
      · rw [hc, Option.some.injEq] at h
        rw [h]
        decide
  · refine optional_eq_some.2 (Or.inr ⟨?_, rfl, rfl⟩)
    rw [Option.eq_none_iff_forall_ne_some]
    rintro ⟨j, us⟩ hbody
    obtain ⟨c, hc⟩ : ∃ c, t[e]? = some c := ⟨_, List.getElem?_eq_getElem (lt_length_of_body hbody)⟩
    have := lt_length (hsame.trans hc)
    omega

end Syntax

/-! ## The same header lines -/

/-- The text of a header's value, in another message. -/
def NewValue (t : List UInt8) (σ : Token) : Prop :=
  σ.asRule = .headerValue ∧ AllIn isHeaderValueChar t σ.start σ.stop

/-- The value in a header line, if there is one, stands behind its start. -/
theorem Syntax.HeaderText.value_bounds (hu : HeaderText s i j u) (hσ : Occurs σ [u])
    (hr : σ.asRule = .headerValue) :
    ∃ n w, u = headerToken i n w j ∧ σ = .node .headerValue (n + 2) w [] ∧ i < n ∧ w < j := by
  cases hu with
  | @full n w _ hs he =>
    rcases occurs_singleton.1 hσ with rfl | hσ
    · simp [headerToken] at hr
    rcases occurs_cons.1 hσ with rfl | hσ | hσ
    · simp at hr
    · exact absurd hσ not_occurs_nil
    · rcases occurs_singleton.1 hσ with rfl | hσ
      · exact ⟨n, w, rfl, rfl, hs.name.lt, he.newline.bounds.1⟩
      · exact absurd hσ not_occurs_nil
  | bare _ _ =>
    rcases occurs_singleton.1 hσ with rfl | hσ
    · simp [bareHeaderToken] at hr
    rcases occurs_cons.1 hσ with rfl | hσ | hσ
    · simp at hr
    · exact absurd hσ not_occurs_nil
    · exact absurd hσ not_occurs_nil

/-- A value of a section's lines lies within it. -/
theorem HeaderChain.value_extent (hc : HeaderChain s l h hs) (hσ : Occurs σ hs)
    (hr : σ.asRule = .headerValue) : l < σ.start ∧ σ.stop < h := by
  obtain ⟨u, hu, hin⟩ := hσ.exists_mem
  obtain ⟨htext, h1, h2⟩ := HeaderChain.mem hc hu
  obtain ⟨n, w, -, rfl, h3, h4⟩ := htext.value_bounds (occurs_singleton.2 hin) hr
  simp only [Pair.start_node, Pair.stop_node]
  omega

/-- **A header section with values overwritten has the same lines**, as
long as no further line starts behind it. -/
theorem HeaderChain.overwrite (hc : HeaderChain s l h hs)
    (hfull : ∀ u ∈ hs, ∃ i n w j, u = headerToken i n w j)
    (hr : ∀ k, l ≤ k → k ≤ skip s .nonAtomic h →
      s[k]? = t[k]? ∨ ∃ σ, Occurs σ hs ∧ NewValue t σ ∧ Covered σ k)
    (hend : Grammar.header t .nonAtomic (skip s .nonAtomic h) = none) :
    HeaderChain t l h hs ∧ skip s .nonAtomic l = skip t .nonAtomic l := by
  induction hc with
  | stop _ =>
    have hskip : skip s .nonAtomic _ = skip t .nonAtomic _ := Agree.skip (fun k hk1 hk2 => by
      rcases hr k hk1 (by omega) with heq | ⟨σ, hσ, -⟩
      · exact heq
      · exact absurd hσ not_occurs_nil) rfl
    refine ⟨Chain.stop (next_eq_none.2 ?_), hskip⟩
    rw [hskip] at hend
    exact hend
  | @step l m h us vs hm hrest ih =>
    obtain ⟨u, hu, rfl⟩ := header_eq_some.1 (next_eq_some.1 hm)
    change HeaderText s (skip s .nonAtomic l) m u at hu
    have h1 : l ≤ skip s .nonAtomic l := le_skipTo
    have h2 := hu.bounds.1
    have h3 := HeaderChain.le hrest
    have h4 : h ≤ skip s .nonAtomic h := le_skipTo
    obtain ⟨a, n, w, b, rfl⟩ := hfull u (List.mem_append_left _ List.mem_cons_self)
    obtain ⟨rfl, rfl⟩ : a = skip s .nonAtomic l ∧ b = m := hu.span
    -- a value stands in the first line or in one of the others
    have hin : ∀ σ, Occurs σ ([headerToken (skip s .nonAtomic l) n w b] ++ vs) →
        σ.asRule = .headerValue →
        (n + 2 = σ.start ∧ w = σ.stop ∧ skip s .nonAtomic l < n ∧ w < b) ∨
          (Occurs σ vs ∧ b < σ.start) := by
      intro σ hσ hrule
      rcases occurs_append.1 hσ with hσ | hσ
      · obtain ⟨n', w', heq, rfl, h5, h6⟩ := hu.value_bounds hσ hrule
        simp only [headerToken, Pair.node.injEq, List.cons.injEq, true_and, and_true] at heq
        obtain ⟨rfl, -, rfl⟩ := heq
        exact Or.inl ⟨rfl, rfl, h5, h6⟩
      · exact Or.inr ⟨hσ, (HeaderChain.value_extent hrest hσ hrule).1⟩
    obtain ⟨hrest', hskip⟩ := ih (fun u hu => hfull u (List.mem_append_right _ hu))
      (fun k hk1 hk2 => by
        rcases hr k (by omega) hk2 with heq | ⟨σ, hσ, hnew, hcov⟩
        · exact Or.inl heq
        · rcases hin σ hσ hnew.1 with h5 | h5
          · have := hcov.2
            omega
          · exact Or.inr ⟨σ, h5.1, hnew, hcov⟩) hend
    have hskip' : skip s .nonAtomic l = skip t .nonAtomic l := Agree.skip (fun k hk1 hk2 => by
      rcases hr k hk1 (by omega) with heq | ⟨σ, hσ, hnew, hcov⟩
      · exact heq
      · have := hcov.1
        have := hin σ hσ hnew.1
        omega) rfl
    have hu' : HeaderText t (skip s .nonAtomic l) b (headerToken (skip s .nonAtomic l) n w b) := by
      refine hu.overwrite fun k hk1 hk2 => ?_
      rcases hr k (by omega) (by omega) with heq | ⟨σ, hσ, hnew, hcov⟩
      · exact Or.inl heq
      · have h5 := hcov.1
        have h6 := hcov.2
        rcases hin σ hσ hnew.1 with ⟨h7, h8, -⟩ | ⟨-, h7⟩
        · exact Or.inr ⟨by omega, by omega, at_iff.2 (hnew.2 k h5 h6)⟩
        · omega
    refine ⟨Chain.step (next_eq_some.2 (header_eq_some.2 ⟨_, ?_, rfl⟩)) hrest', hskip'⟩
    rw [hskip'] at hu'
    change HeaderText t (skip t .nonAtomic l) b _
    exact hskip' ▸ hu'

/-! ## The same response -/

/-- **A message with values overwritten**: it is as long, and a byte of it
is as it was, or it stands in a value that another text replaces. -/
structure Overwritten (vals : Token → Prop) (s t : List UInt8) : Prop where
  length : t.length = s.length
  text : ∀ σ, vals σ → NewValue t σ ∨ σ.asRule = .string ∧ NewString t σ
  same : ∀ k, s[k]? = t[k]? ∨ ∃ σ, vals σ ∧ Covered σ k

/-- **Values of a message**: those of its header lines, and strings of its
body. -/
def ValuesOf (hs bs : List Token) (σ : Token) : Prop :=
  σ.asRule = .headerValue ∧ Occurs σ hs ∨ σ.asRule = .string ∧ Occurs σ bs

/-- **A response with values overwritten has the same layout**, and the same
whitespace between its parts. -/
theorem ResponseText.overwrite {vals : Token → Prop} (ht : ResponseText s d l hs h bs e)
    (hfull : ∀ u ∈ hs, ∃ i n w j, u = headerToken i n w j)
    (hv : ∀ σ, vals σ → ValuesOf hs bs σ) (ho : Overwritten vals s t) :
    ResponseText t d l hs h bs e ∧ skip s .nonAtomic 0 = skip t .nonAtomic 0 ∧
      skip s .nonAtomic l = skip t .nonAtomic l ∧ skip s .nonAtomic e = skip t .nonAtomic e := by
  have hself : skip s .nonAtomic (skip s .nonAtomic h) = skip s .nonAtomic h := skipTo_skipTo
  obtain ⟨x, hix, hx, hbody⟩ := body_front ht.message.body hself ht.message.stop
  have h1 := ht.status.lt
  have h2 := HeaderChain.le ht.message.headers
  have h3 : h ≤ skip s .nonAtomic h := le_skipTo
  have h4 := (bodyText_of_body ht.message.body).le
  -- a value overwritten stands in a header line, or in the body behind its start
  have hwhere : ∀ σ, vals σ → NewValue t σ ∧ Occurs σ hs ∧ l < σ.start ∧ σ.stop < h ∨
      (σ.asRule = .string ∧ NewString t σ) ∧ Occurs σ bs ∧ x < σ.start ∧ σ.stop ≤ e := by
    intro σ hσ
    rcases hv σ hσ, ho.text σ hσ with ⟨⟨hr, hocc⟩ | ⟨hr, hocc⟩, hnew | hnew⟩
    · exact Or.inl ⟨hnew, hocc, HeaderChain.value_extent ht.message.headers hocc hr⟩
    · rw [hr] at hnew
      exact absurd hnew.1 (by decide)
    · rw [NewValue, hr] at hnew
      exact absurd hnew.1 (by decide)
    · exact Or.inr ⟨hnew, hocc, hbody σ hocc hr⟩
  have hag : ∀ {y z}, z ≤ l + 1 ∨ h ≤ y ∧ z ≤ x + 1 ∨ e ≤ y → Agree s t y z := by
    intro y z hyz k hk1 hk2
    rcases ho.same k with heq | ⟨σ, hσ, hcov⟩
    · exact heq
    · have := hcov.1
      have := hcov.2
      have := hwhere σ hσ
      omega
  have h0 : skip s .nonAtomic 0 = skip t .nonAtomic 0 := Agree.skip (hag (by omega)) rfl
  have hh : skip s .nonAtomic h = skip t .nonAtomic h :=
    Agree.skip (hag (Or.inr (Or.inl ⟨le_rfl, by omega⟩))) rfl
  have he : skip s .nonAtomic e = skip t .nonAtomic e := Agree.skip (hag (Or.inr (Or.inr le_rfl))) rfl
  have hno : Grammar.header t .nonAtomic (skip s .nonAtomic h) = none := by
    have hstop := next_eq_none.1 (Chain.stops ht.message.headers)
    exact header_none hstop (hag (Or.inr (Or.inl ⟨h3, le_rfl⟩))) hix hx
  obtain ⟨hlines, hl⟩ := HeaderChain.overwrite ht.message.headers hfull (fun k hk1 hk2 => by
    rcases ho.same k with heq | ⟨σ, hσ, hcov⟩
    · exact Or.inl heq
    · rcases hwhere σ hσ with ⟨hnew, hocc, -⟩ | ⟨-, -, hlt, -⟩
      · exact Or.inr ⟨σ, hocc, hnew, hcov⟩
      · have := hcov.1
        omega) hno
  have hbody' := body_overwrite ht.message.body hself (fun k hk => by
    rcases ho.same k with heq | ⟨σ, hσ, hcov⟩
    · exact Or.inl heq
    · rcases hwhere σ hσ with ⟨-, -, -, hlt⟩ | ⟨hnew, hocc, -⟩
      · have := hcov.2
        omega
      · exact Or.inr ⟨σ, hocc, hnew.1, hnew.2, hcov⟩) ht.message.stop
  have hstatus : StatusLineText t (skip t .nonAtomic 0) d l := h0 ▸ ht.status.agree (hag (by omega))
  refine ⟨⟨hstatus, statusLine_eq_some.2 ⟨d, hstatus, rfl⟩, hlines, hh ▸ hbody', ?_⟩, h0, hl, he⟩
  rw [← he, ho.length]
  exact ht.message.stop

end TlsnDemo
