import TlsnDemo.Reading.Headers
import TlsnDemo.Reading.Redacted
import TlsnDemo.Syntax.Overwrite

/-!
# A message with values overwritten

The value of a header and the text of a string decide nothing but their own
spans. With other texts in their place a message has the same lines, the
same kind of body and the same tokens: the header lines end where they did,
and what is no document does not become one.
-/

namespace TlsnDemo

open Peg Support Syntax

variable {s t : List UInt8} {i j k l m h e x y : ℕ} {u v σ : Token} {ts us vs hs bs : List Token}

namespace Syntax

/-! ## First lines and single headers -/

theorem RunText.agree {f : UInt8 → Bool} (hr : RunText f s i j) (hag : Agree s t i (j + 1)) :
    RunText f t i j :=
  ⟨hr.lt, (hag.mono le_rfl (Nat.le_succ j)).allIn hr.allIn,
    hr.stops.congr (hag j hr.lt.le (Nat.lt_succ_self j))⟩

theorem StatusLineText.lt {d : ℕ} (hl : StatusLineText s i d j) : i < j := by
  obtain ⟨-, p, hp, -, hd⟩ := hl.protocol
  have h1 := hp.lt
  have h2 := hd.lt
  have h3 := hl.status.lt
  omega

theorem StatusLineText.agree {d : ℕ} (hl : StatusLineText s i d j) (hag : Agree s t i (j + 1)) :
    StatusLineText t i d j := by
  obtain ⟨hlit, p, hp, hdot, hd⟩ := hl.protocol
  have h1 := hp.lt
  have h2 := hd.lt
  have h3 := hl.status.lt
  have hprotocol : ProtocolText t i d :=
    ⟨(hag.mono le_rfl (by omega)).literalAt hlit, p, hp.agree (hag.mono (by omega) (by omega)),
      hag.get hdot (by omega) (by omega), hd.agree (hag.mono (by omega) (by omega))⟩
  refine ⟨hprotocol, hag.get hl.space (by omega) (by omega), fun k hk1 hk2 => ?_,
    hag.get hl.space' (by omega) (by omega), hl.status.agree (hag.mono (by omega) le_rfl)⟩
  rw [← hag k (by omega) (by omega)]
  exact hl.code k hk1 hk2

theorem NewlineText.agree (hn : NewlineText s i j) (hag : Agree s t i (j + 1)) :
    NewlineText t i j := by
  rcases hn with ⟨h, rfl⟩ | ⟨h, ⟨h', rfl⟩ | ⟨h', rfl⟩⟩
  · exact Or.inl ⟨hag.get h le_rfl (by omega), rfl⟩
  · exact Or.inr ⟨hag.get h le_rfl (by omega), Or.inl ⟨hag.get h' (by omega) (by omega), rfl⟩⟩
  · refine Or.inr ⟨hag.get h le_rfl (by omega), Or.inr ⟨?_, rfl⟩⟩
    rw [← hag (i + 1) (by omega) (by omega)]
    exact h'

theorem HeaderStart.agree {n : ℕ} (hh : HeaderStart s i n) (hag : Agree s t i (n + 2)) :
    HeaderStart t i n := by
  have h1 := hh.name.lt
  exact ⟨hh.name.agree (hag.mono le_rfl (by omega)), hag.get hh.colon (by omega) (by omega),
    hag.get hh.space (by omega) (by omega)⟩

/-- A header with a value, by its token. -/
theorem HeaderText.parts {n w : ℕ} (hh : HeaderText s x y (headerToken i n w j)) :
    x = i ∧ y = j ∧ HeaderStart s i n ∧ HeaderEnd s (n + 2) w j := by
  generalize hu : headerToken i n w j = u at hh
  cases hh with
  | bare _ _ => simp [headerToken, bareHeaderToken] at hu
  | full hs he =>
    simp only [headerToken, Pair.node.injEq, List.cons.injEq, true_and, and_true] at hu
    obtain ⟨rfl, rfl, ⟨-, rfl⟩, -, rfl⟩ := hu
    exact ⟨rfl, rfl, hs, he⟩

/-- A header with its value overwritten, or not. -/
theorem HeaderText.overwrite {n w : ℕ} (hh : HeaderText s i j (headerToken i n w j))
    (hr : ∀ k, i ≤ k → k ≤ j →
      s[k]? = t[k]? ∨ n + 2 ≤ k ∧ k < w ∧ At isHeaderValueChar t k = true) :
    HeaderText t i j (headerToken i n w j) := by
  obtain ⟨-, -, hs, he⟩ := hh.parts
  have h1 := hs.name.lt
  have h2 := he.value.lt
  have h3 := he.newline.bounds.1
  have hout : ∀ k, i ≤ k → k ≤ j → (k < n + 2 ∨ w ≤ k) → s[k]? = t[k]? := by
    intro k hk1 hk2 hk
    rcases hr k hk1 hk2 with heq | ⟨h, h', -⟩
    · exact heq
    · omega
  have hvalue : AllIn isHeaderValueChar t (n + 2) w := by
    intro k hk1 hk2
    rcases hr k (by omega) (by omega) with heq | ⟨-, -, hf⟩
    · rw [← heq]
      exact he.value.mem k hk1 hk2
    · exact at_iff.1 hf
  exact HeaderText.full
    (hs.agree fun k hk1 hk2 => hout k hk1 (by omega) (Or.inl hk2))
    ⟨⟨h2, hvalue, he.value.stops.congr (hout w (by omega) (by omega) (Or.inr le_rfl))⟩,
      he.newline.agree fun k hk1 hk2 => hout k (by omega) (by omega) (Or.inr hk1)⟩

/-- What starts no header starts none, where the bytes agree up to one that
is in no header's start. -/
theorem header_none (hn : Grammar.header s .nonAtomic i = none) (hag : Agree s t i (x + 1))
    (hix : i ≤ x) (hx : ∀ c, s[x]? = some c → isHeaderNameChar c = false ∧ c ≠ colon) :
    Grammar.header t .nonAtomic i = none := by
  rw [Option.eq_none_iff_forall_ne_some] at hn ⊢
  rintro ⟨j, us⟩ hh
  obtain ⟨u, hu, -⟩ := header_eq_some.1 hh
  obtain ⟨n, hstart⟩ : ∃ n, HeaderStart t i n := by
    cases hu with
    | full h _ => exact ⟨_, h⟩
    | bare h _ => exact ⟨_, h⟩
  have hlt : n < x := by
    by_contra hge
    rcases Nat.eq_or_lt_of_le (Nat.le_of_not_lt hge) with rfl | hgt
    · exact (hx _ ((hag x hix (Nat.lt_succ_self x)).trans hstart.colon)).2 rfl
    · obtain ⟨c, hc, hf⟩ := hstart.name.mem x hix hgt
      rw [(hx c ((hag x hix (Nat.lt_succ_self x)).trans hc)).1] at hf
      exact absurd hf (by simp)
  have hstart' : HeaderStart s i n := hstart.agree (hag.symm.mono le_rfl (by omega))
  by_cases he : ∃ w j, HeaderEnd s (n + 2) w j
  · obtain ⟨w, j, he⟩ := he
    exact hn _ (header_eq_some.2 ⟨_, HeaderText.full hstart' he, rfl⟩)
  · refine hn _ (header_eq_some.2 ⟨_, HeaderText.bare hstart' fun w j hw => he ⟨w, j, hw⟩, rfl⟩)

/-! ## Chunk sizes -/

/-- A chunk size is a digit, and digits with whitespace among them. -/
theorem chunkSize_iff : ChunkSize s i k ↔
    At Grammar.isAsciiHexDigit s i = true ∧
      Spaced Grammar.isAsciiHexDigit isWhitespace s (skip s .nonAtomic (i + 1)) k := by
  have hrep : ∀ {ts : List Token},
      Peg.rep (satisfy isWhitespace) (satisfy Grammar.isAsciiHexDigit) s .nonAtomic
        (skip s .nonAtomic (i + 1)) = some (k, ts) ↔
      Spaced Grammar.isAsciiHexDigit isWhitespace s (skip s .nonAtomic (i + 1)) k ∧ ts = [] :=
    rep_satisfy_nonAtomic fun c hc => runEnd_stops hc
  rw [ChunkSize, rep1_eq, Peg.rep1, Grammar.asciiHexDigit, seq_cons_eq_some, at_iff]
  simp only [seq_singleton, satisfy_eq_some]
  constructor
  · rintro ⟨_, us, vs, ⟨hc, rfl, rfl⟩, h, -⟩
    exact ⟨hc, (hrep.1 h).1⟩
  · rintro ⟨hc, h⟩
    exact ⟨i + 1, [], [], ⟨hc, rfl, rfl⟩, hrep.2 ⟨h, rfl⟩, rfl⟩

theorem ChunkSize.agree (hc : ChunkSize s i k) (hag : Agree s t i (skip s .nonAtomic k + 1)) :
    ChunkSize t i k := by
  obtain ⟨hd, hsp⟩ := chunkSize_iff.1 hc
  have h1 : i + 1 ≤ skip s .nonAtomic (i + 1) := le_skipTo
  have h2 := hsp.le
  have h3 : k ≤ skip s .nonAtomic k := le_skipTo
  have hskip : skip s .nonAtomic (i + 1) = skip t .nonAtomic (i + 1) :=
    Agree.skip (hag.mono (by omega) (by omega)) rfl
  have hskip' : skip s .nonAtomic k = skip t .nonAtomic k :=
    Agree.skip (hag.mono (by omega) le_rfl) rfl
  refine chunkSize_iff.2 ⟨?_, hskip ▸ ⟨h2, fun m hm1 hm2 => ?_, fun hlt => ?_, fun c hc => ?_⟩⟩
  · rw [← hag.at_eq le_rfl (by omega)]
    exact hd
  · rw [← hag m (by omega) (by omega)]
    exact hsp.mem m hm1 hm2
  · rw [← hag (k - 1) (by omega) (by omega)]
    exact hsp.last hlt
  · rw [← skip_nonAtomic, ← hskip'] at hc
    exact hsp.stops c ((hag _ (by omega) (Nat.lt_succ_self _)).trans hc)

/-! ## Redacted pairs -/

/-- A string of a redacted pair is one of its value. -/
theorem RedactedText.value_of_string (hu : RedactedText s i j u) (hσ : Occurs σ [u])
    (hr : σ.asRule = .string) :
    ∃ e w, KeyColon s i e ∧ Derives s .compoundAtomic .value (e + 2) j [w] ∧ Occurs σ [w] := by
  obtain ⟨e, us, rfl, hk, hus⟩ := hu.parts
  rcases occurs_singleton.1 hσ with rfl | hσ
  · simp [redactedToken] at hr
  rcases occurs_cons.1 hσ with rfl | hσ | hσ
  · simp at hr
  · exact absurd hσ not_occurs_nil
  · rcases hus with ⟨rfl, -⟩ | ⟨w, rfl, hw⟩
    · exact absurd hσ not_occurs_nil
    · exact ⟨e, w, hk, hw, hσ⟩

/-- So it lies within the pair, behind its start. -/
theorem RedactedText.string_bounds (hu : RedactedText s i j u) (hσ : Occurs σ [u])
    (hr : σ.asRule = .string) : i < σ.start ∧ σ.stop < j := by
  obtain ⟨e, w, hk, hw, hσ⟩ := hu.value_of_string hσ hr
  have h1 := hk.lt
  have h2 := hw.string_bounds hσ hr
  omega

/-- **What may follow a redacted pair without a value**: no value, or a key
and a colon. -/
def Unvalued (s : List UInt8) (k : ℕ) : Prop :=
  Stops isValueStart s k ∨ ∃ e, KeyColon s k e

/-- There is a colon behind a value that stands there. -/
theorem Unvalued.colon (h : Unvalued s k) (hv : Derives s .compoundAtomic .value k j ts) :
    s[j]? = some Syntax.colon := by
  obtain ⟨c, hc, hf⟩ := hv.first
  rcases h with hstop | ⟨e, hk⟩
  · rw [hstop c hc] at hf
    exact absurd hf (by simp)
  have hq := hk.opening
  cases hv with
  | empty b hopen _ _ =>
    rw [hopen, Option.some.injEq] at hq
    cases b <;> exact absurd hq (by decide)
  | filled b hopen _ _ _ _ =>
    rw [hopen, Option.some.injEq] at hq
    cases b <;> exact absurd hq (by decide)
  | scalar hs =>
    obtain ⟨d, hd, -, -, -, hne⟩ := hs.first
    rw [hd, Option.some.injEq] at hq
    exact absurd hq hne
  | @string _ b w l hq hb ht hl hq' =>
    have h1 := le_of_skip hb
    have h2 := ht.le
    have h3 := le_of_skip hl
    obtain rfl : e = l := hk.closing_eq hq' (by omega)
      fun m => ne_quote_inside hb hl fun m => ht.ne_quote
    exact hk.colon

/-- A redacted pair with strings overwritten has the same token. -/
theorem RedactedText.overwrite (hu : RedactedText s i j u)
    (hr : ∀ k, i ≤ k → k ≤ j → s[k]? = t[k]? ∨
      ∃ σ, Occurs σ [u] ∧ σ.asRule = .string ∧ NewString t σ ∧ Covered σ k)
    (hstop : Stops isNumberNext s j) (hfollow : Unvalued t j) : RedactedText t i j u := by
  have hag : ∀ {x y}, i ≤ x → y ≤ j + 1 → (∀ σ, Occurs σ [u] → σ.asRule = .string →
      ∀ k, x ≤ k → k < y → ¬ Covered σ k) → Agree s t x y := by
    intro x y hx hy hno k hk1 hk2
    rcases hr k (hx.trans hk1) (by omega) with heq | ⟨σ, hσ, hrule, -, hk⟩
    · exact heq
    · exact absurd hk (hno σ hσ hrule k hk1 hk2)
  have hb := hu.bounds.1
  cases hu with
  | @full e _ w hk hw hc =>
    have hlt := hw.lt
    have hin : ∀ σ, Occurs σ [redactedToken i e j [w]] → σ.asRule = .string →
        Occurs σ [w] ∧ e + 2 < σ.start ∧ σ.stop < j := by
      intro σ hσ hrule
      rcases occurs_singleton.1 hσ with rfl | hσ
      · simp [redactedToken] at hrule
      rcases occurs_cons.1 hσ with rfl | hσ | hσ
      · simp at hrule
      · exact absurd hσ not_occurs_nil
      · exact ⟨hσ, hw.string_bounds hσ hrule⟩
    have hk' : KeyColon t i e := KeyColon.transfer hk (hag le_rfl (by omega)
      fun σ hσ hrule k _ hk2 hcov => by
        have := hin σ hσ hrule
        have := hcov.1
        omega) le_rfl
    have hw' : Derives t .compoundAtomic .value (e + 2) j [w] := by
      refine hw.overwrite (fun k hk1 hk2 => ?_) (Or.inl hstop)
      have := hk.lt
      rcases hr k (by omega) hk2 with heq | ⟨σ, hσ, hrule, hnew, hcov⟩
      · exact Or.inl heq
      · exact Or.inr ⟨σ, (hin σ hσ hrule).1, hrule, hnew, hcov⟩
    have hcolon : s[j]? = t[j]? := hag (x := j) (y := j + 1) hb.le le_rfl
      (fun σ hσ hrule k hk1 _ hcov => by
        have := hin σ hσ hrule
        have := hcov.2
        omega) j le_rfl (Nat.lt_succ_self j)
    exact RedactedText.full hk' hw' (hcolon ▸ hc)
  | @bare e hk _ =>
    have hk' : KeyColon t i e := KeyColon.transfer hk (hag le_rfl (by omega)
      fun σ hσ hrule k _ _ _ => by
        rcases occurs_singleton.1 hσ with rfl | hσ
        · simp [redactedToken] at hrule
        rcases occurs_cons.1 hσ with rfl | hσ | hσ
        · simp at hrule
        · exact absurd hσ not_occurs_nil
        · exact absurd hσ not_occurs_nil) le_rfl
    exact RedactedText.bare hk' fun y w hw => hfollow.colon hw

/-! ## Redacted bodies -/

/-- A string of the further pairs lies within them. -/
theorem chain_string_bounds
    (hc : Chain (next (Peg.satisfy isWhitespace) furtherPair) s .nonAtomic k l us)
    (hσ : Occurs σ us) (hr : σ.asRule = .string) : k < σ.start ∧ σ.stop < l := by
  obtain ⟨u, hu, hin⟩ := hσ.exists_mem
  obtain ⟨x, y, hx, hy, hred⟩ := redacted_of_chain hc hu
  have := hred.string_bounds (occurs_singleton.2 hin) hr
  omega

/-- **Further pairs with strings overwritten** are the same pairs. What
comes in front of them may follow a pair without a value. -/
theorem chain_overwrite
    (hc : Chain (next (Peg.satisfy isWhitespace) furtherPair) s .nonAtomic k l us)
    (hr : ∀ m, k ≤ m → m ≤ l → s[m]? = t[m]? ∨
      ∃ σ, Occurs σ us ∧ σ.asRule = .string ∧ NewString t σ ∧ Covered σ m)
    (hstop : Stops isNumberNext s l) (hfollow : Unvalued t l)
    (hend : next (Peg.satisfy isWhitespace) furtherPair t .nonAtomic l = none) :
    Chain (next (Peg.satisfy isWhitespace) furtherPair) t .nonAtomic k l us ∧
      Stops isNumberNext s k ∧ Unvalued t k := by
  induction hc with
  | stop _ => exact ⟨Chain.stop hend, hstop, hfollow⟩
  | @step k m l ts vs hm hrest ih =>
    obtain ⟨u, hu, rfl⟩ := furtherPair_eq_some.1 (next_eq_some.1 hm)
    -- whitespace, perhaps a comma, and whitespace lead up to the pair
    change RedactedText s (skip s .nonAtomic (past comma s (skip s .nonAtomic k))) m u at hu
    generalize hp : skip s .nonAtomic k = p at hu
    generalize hq : past comma s p = q at hu
    generalize hx : skip s .nonAtomic q = x at hu
    have h1 : k ≤ p := hp ▸ le_skipTo
    have h2 : p ≤ q := hq ▸ le_past
    have h3 : q ≤ x := hx ▸ le_skipTo
    have h4 := hu.bounds.1
    have h5 := Chain.le progress_furtherPair.next hrest
    have hin : ∀ σ, Occurs σ ([u] ++ vs) → σ.asRule = .string →
        (Occurs σ [u] ∧ x < σ.start ∧ σ.stop < m) ∨ (Occurs σ vs ∧ m < σ.start) := by
      intro σ hσ hrule
      rcases occurs_append.1 hσ with hσ | hσ
      · exact Or.inl ⟨hσ, hu.string_bounds hσ hrule⟩
      · exact Or.inr ⟨hσ, (chain_string_bounds hrest hσ hrule).1⟩
    obtain ⟨hrest', hstop', hfollow'⟩ := ih (fun n hn1 hn2 => by
      rcases hr n (by omega) hn2 with heq | ⟨σ, hσ, hrule, hnew, hcov⟩
      · exact Or.inl heq
      · rcases hin σ hσ hrule with h | h
        · have := hcov.2
          omega
        · exact Or.inr ⟨σ, h.1, hrule, hnew, hcov⟩) hstop hfollow hend
    have hag : Agree s t k (x + 1) := by
      intro n hn1 hn2
      rcases hr n hn1 (by omega) with heq | ⟨σ, hσ, hrule, -, hcov⟩
      · exact heq
      · have := hcov.1
        have := hin σ hσ hrule
        omega
    have hp' : p = skip t .nonAtomic k := (hag.mono le_rfl (by omega)).skip hp.symm
    have hq' : past comma t p = q := by
      rw [past, ← hag p h1 (by omega), ← hq, past]
    have hx' : x = skip t .nonAtomic q := (hag.mono (by omega) le_rfl).skip hx.symm
    have hu' : RedactedText t x m u := by
      refine hu.overwrite (fun n hn1 hn2 => ?_) hstop' hfollow'
      rcases hr n (by omega) (by omega) with heq | ⟨σ, hσ, hrule, hnew, hcov⟩
      · exact Or.inl heq
      · rcases hin σ hσ hrule with h | h
        · exact Or.inr ⟨σ, h.1, hrule, hnew, hcov⟩
        · have := hcov.1
          omega
    refine ⟨Chain.step (next_eq_some.2 (furtherPair_eq_some.2 ⟨u, ?_, rfl⟩)) hrest', ?_, ?_⟩
    · rw [← skip, ← hp', hq', ← hx']
      exact hu'
    · exact stops_before_pair (y := m) (t := u) (by rw [hp, hq, hx]; exact hu)
    · by_cases hv : Stops isValueStart t k
      · exact Or.inl hv
      · -- a byte that starts a value is neither skipped nor a comma, so it is the key's quote
        have hex : ∃ c, t[k]? = some c ∧ isValueStart c = true := by
          by_contra hno
          exact hv fun c hc => by
            by_contra hf
            exact hno ⟨c, hc, by simpa using hf⟩
        obtain ⟨c, hc, hf⟩ := hex
        have hstay : skip t .nonAtomic k = k := skip_self hc (not_whitespace_of_valueStart hf)
        have hcomma : past comma t k = k := by
          rw [past, if_neg]
          rw [hc, Option.some.injEq]
          exact ne_of_class hf (by decide)
        rw [hstay] at hp'
        subst hp'
        rw [hcomma] at hq'
        subst hq'
        rw [hstay] at hx'
        subst hx'
        obtain ⟨e, us, -, hk, -⟩ := hu'.parts
        exact Or.inr ⟨e, hk⟩

theorem valueStart_not {c : UInt8} (h : isValueStart c = true) :
    isWhitespace c = false ∧ c ≠ closeBrace :=
  ⟨not_whitespace_of_valueStart h, ne_of_class h (by decide)⟩

/-- A string of a redacted body lies within it. -/
theorem RedactedBodyText.string_bounds (hb : RedactedBodyText s i e u us k l)
    (hσ : Occurs σ (u :: us)) (hr : σ.asRule = .string) : i < σ.start ∧ σ.stop < l := by
  have h1 : i ≤ skip s .nonAtomic (past openBrace s i) := le_past.trans le_skipTo
  have h2 := hb.first.bounds.1
  have h3 := Chain.le progress_furtherPair.next hb.further
  rcases occurs_append.1 (show Occurs σ ([u] ++ us) from hσ) with hσ | hσ
  · have := hb.first.string_bounds hσ hr
    omega
  · have := chain_string_bounds hb.further hσ hr
    omega

/-- **A redacted body with strings overwritten** is the same body. -/
theorem RedactedBodyText.overwrite (hb : RedactedBodyText s i e u us k l)
    (hr : ∀ m, i ≤ m → s[m]? = t[m]? ∨
      ∃ σ, Occurs σ (u :: us) ∧ σ.asRule = .string ∧ NewString t σ ∧ Covered σ m)
    (hend : s.length ≤ skip s .nonAtomic e) : RedactedBodyText t i e u us k l := by
  generalize hp : past openBrace s i = p
  generalize hx : skip s .nonAtomic p = x
  have hfirst := hb.first
  rw [hp, hx] at hfirst
  have h1 : i ≤ p := hp ▸ le_past
  have h2 : p ≤ x := hx ▸ le_skipTo
  have h3 := hfirst.bounds.1
  have h4 := Chain.le progress_furtherPair.next hb.further
  have h5 : l ≤ skip s .nonAtomic l := le_skipTo
  have hin : ∀ σ, Occurs σ (u :: us) → σ.asRule = .string →
      (Occurs σ [u] ∧ x < σ.start ∧ σ.stop < k) ∨ (Occurs σ us ∧ k < σ.start ∧ σ.stop < l) := by
    intro σ hσ hrule
    rcases occurs_append.1 (show Occurs σ ([u] ++ us) from hσ) with hσ | hσ
    · exact Or.inl ⟨hσ, hfirst.string_bounds hσ hrule⟩
    · exact Or.inr ⟨hσ, chain_string_bounds hb.further hσ hrule⟩
  have hag : Agree s t i (x + 1) := by
    intro n hn1 hn2
    rcases hr n hn1 with heq | ⟨σ, hσ, hrule, -, hcov⟩
    · exact heq
    · have := hcov.1
      have := hin σ hσ hrule
      omega
  have hbehind : ∀ n, l ≤ n → s[n]? = t[n]? := by
    intro n hn
    rcases hr n (by omega) with heq | ⟨σ, hσ, hrule, -, hcov⟩
    · exact heq
    · have := hcov.2
      have := hin σ hσ hrule
      omega
  have hnone : next (Peg.satisfy isWhitespace) furtherPair t .nonAtomic l = none := by
    rw [Option.eq_none_iff_forall_ne_some]
    rintro ⟨y, ws⟩ hm
    obtain ⟨w, hw, -⟩ := furtherPair_eq_some.1 (next_eq_some.1 hm)
    obtain ⟨e', us', -, hk, -⟩ := hw.parts
    have hle : l ≤ skip t .nonAtomic (past comma t (skip t .nonAtomic l)) :=
      le_skipTo.trans (le_past.trans le_skipTo)
    rcases hb.behind hend hle ((hbehind _ hle).trans hk.opening) with hw | heq
    · exact absurd hw (by decide)
    · exact absurd heq (by decide)
  have hstop : Stops isNumberNext s l := hb.stops_of_class hend fun _ => numberNext_not
  have hvalue : Stops isValueStart t l :=
    (hb.stops_of_class hend fun _ => valueStart_not).congr (hbehind l le_rfl)
  obtain ⟨hfurther, hstop', hfollow⟩ := chain_overwrite hb.further (fun n hn1 hn2 => by
    rcases hr n (by omega) with heq | ⟨σ, hσ, hrule, hnew, hcov⟩
    · exact Or.inl heq
    · rcases hin σ hσ hrule with h | h
      · have := hcov.2
        omega
      · exact Or.inr ⟨σ, h.1, hrule, hnew, hcov⟩) hstop (Or.inl hvalue) hnone
  have hfirst' : RedactedText t x k u := by
    refine hfirst.overwrite (fun n hn1 hn2 => ?_) hstop' hfollow
    rcases hr n (by omega) with heq | ⟨σ, hσ, hrule, hnew, hcov⟩
    · exact Or.inl heq
    · rcases hin σ hσ hrule with h | h
      · exact Or.inr ⟨σ, h.1, hrule, hnew, hcov⟩
      · have := hcov.1
        omega
  have hp' : past openBrace t i = p := by
    rw [past, ← hag i le_rfl (by omega), ← hp, past]
  have hx' : x = skip t .nonAtomic p := (hag.mono h1 le_rfl).skip hx.symm
  have hl' : skip s .nonAtomic l = skip t .nonAtomic l :=
    Agree.skip (fun n hn1 _ => hbehind n hn1) rfl
  refine ⟨by rw [hp', ← hx']; exact hfirst', hfurther, ?_⟩
  rw [hb.stop, past, past, ← hl', hbehind _ h5]

end Syntax

end TlsnDemo
