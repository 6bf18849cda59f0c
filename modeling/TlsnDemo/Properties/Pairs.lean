import TlsnDemo.Properties.Completeness

/-!
# A pair the verifier reads back

The prover reads a pair with whitespace wherever the grammar admits it, the
verifier reads it without. The two come to the same field exactly where the
pair is compact and its string, if its value is one, has no space at its
ends: the prover's span of a string leaves such a space out.
-/

namespace TlsnDemo

open Peg Grammar Syntax

variable {s t u : List UInt8} {a : Atomicity} {i j x y : ℕ} {p q v w : Token} {ts us : List Token}

/-- **The same field**, in two readings of a pair: the text of the key, and
the kind and the span of the value. -/
def SameField (t u : List UInt8) (p q : Token) : Prop :=
  ∃ keyPair valuePair keyPair' valuePair', p.intoInner = [keyPair, valuePair] ∧
    q.intoInner = [keyPair', valuePair'] ∧ asStr t keyPair = asStr u keyPair' ∧
    valuePair.asRule = valuePair'.asRule ∧ extractRange valuePair = extractRange valuePair'

/-- **A pair that can be read back**: it is compact, and a string that is
its value reaches from quote to quote. -/
structure ReadsBack (t : List UInt8) (p : Token) : Prop where
  compact : Compact t [p] p.start p.stop
  string : ∀ v ∈ p.intoInner, v.asRule = .string →
    t[v.start - 1]? = some quote ∧ t[v.stop]? = some quote

/-! ## Strings from quote to quote -/

/-- The span of a string reaches its quotes where quotes stand beside it. -/
theorem Syntax.Derives.string_tight (h : Derives s .nonAtomic .value i j [v])
    (hr : v.asRule = .string) (hopen : s[v.start - 1]? = some quote)
    (hclose : s[v.stop]? = some quote) : v.start = i + 1 ∧ j = v.stop + 1 := by
  cases h with
  | empty b _ _ _ => cases b <;> simp [Bracket.rule] at hr
  | filled b _ _ _ _ _ => cases b <;> simp [Bracket.rule] at hr
  | @string _ b e l hq hb ht hl hq' =>
    have h1 := le_of_skip hb
    simp only [Pair.start_node, Pair.stop_node] at hopen hclose ⊢
    have hend : l = e := by rw [hl, skip_self hclose not_whitespace_quote]
    refine ⟨?_, by omega⟩
    -- a quote is not skipped, so the text starts behind the opening one
    by_contra hne
    have hlt : b - 1 < skip s .nonAtomic (i + 1) := by omega
    exact ne_quote_of_skip (show i + 1 ≤ b - 1 by omega) hlt hopen
  | scalar h => exact absurd hr h.ne_string

/-- Without whitespace, quotes stand beside every string. -/
theorem Syntax.Derives.string_quotes (h : Derives s .compoundAtomic .value i j [v])
    (hr : v.asRule = .string) : s[v.start - 1]? = some quote ∧ s[v.stop]? = some quote := by
  cases h with
  | empty b _ _ _ => cases b <;> simp [Bracket.rule] at hr
  | filled b _ _ _ _ _ => cases b <;> simp [Bracket.rule] at hr
  | string hq hj ht hl hq' =>
    rw [skip_compoundAtomic] at hj hl
    subst hj hl
    exact ⟨hq, hq'⟩
  | scalar h => exact absurd hr h.ne_string

/-- **The spans of a value in the two readings** are one, but perhaps those
of a string. -/
theorem Syntax.Derives.span_eq (h : Derives s .nonAtomic .value i j [v])
    (h' : Derives s .compoundAtomic .value i j [w]) (hr : v.asRule = w.asRule)
    (hquotes : v.asRule = .string → s[v.start - 1]? = some quote ∧ s[v.stop]? = some quote) :
    extractRange v = extractRange w := by
  obtain ⟨v', hv', -, hspan, -⟩ := h.value_token
  obtain ⟨w', hw', -, hspan', -⟩ := h'.value_token
  simp only [List.cons.injEq, and_true] at hv' hw'
  subst hv' hw'
  simp only [extractRange, Range.mk.injEq]
  by_cases hs : v.asRule = .string
  · obtain ⟨hopen, hclose⟩ := hquotes hs
    have h1 := h.string_tight hs hopen hclose
    have h2 := h'.string_span (hr ▸ hs)
    omega
  · have h1 := hspan hs
    have h2 := hspan' (hr ▸ hs)
    omega

/-! ## The two readings -/

theorem agree_append {c : UInt8} : Agree t (t ++ [c]) 0 t.length := by
  intro k _ hk
  rw [List.getElem?_append_left hk]

theorem getElem?_behind {c : UInt8} : (t ++ [c])[t.length]? = some c := by simp

theorem asStr_append {c : UInt8} (hp : p.start ≤ p.stop) (hlen : p.stop ≤ t.length) :
    asStr (t ++ [c]) p = asStr t p := by
  have hdrop : (t ++ [c]).drop p.start = t.drop p.start ++ [c] :=
    List.drop_append_of_le_length (by omega)
  have htake : (t.drop p.start ++ [c]).take (p.stop - p.start) =
      (t.drop p.start).take (p.stop - p.start) :=
    List.take_append_of_le_length (by rw [List.length_drop]; omega)
  simp only [asStr, slice, extractRange, hdrop, htake]

/-- Every pair without whitespace is a key, its colon and a value without it. -/
theorem Syntax.Derives.keyColon_of_pair (h : Derives t .compoundAtomic .pair i j ts) :
    ∃ e w, KeyColon t i e ∧ Derives t .compoundAtomic .value (e + 2) j [w] := by
  cases h with
  | pair hq hkb hk hqe hq' hc hcol hv hval =>
    rw [skip_compoundAtomic] at hkb hqe hc hv
    subst hkb hqe hc hv
    obtain ⟨w, rfl, -⟩ := hval.value_token
    exact ⟨_, w, KeyColon.of_keyText hq hk hq' hcol, hval⟩

theorem Syntax.Derives.pair_span (h : Derives s a .pair i j [p]) : p.start = i ∧ p.stop = j := by
  cases h with
  | pair => exact ⟨rfl, rfl⟩

/-- **Read with whitespace and without, a pair has the same parts**: the
key stands at the same place, the value is of the same kind, and the pair
is compact. -/
theorem same_parts {e : ℕ} (hp : Derives t .nonAtomic .pair i j [p]) (hk : KeyColon t i e)
    (hw : Derives t .compoundAtomic .value (e + 2) j [w]) :
    ∃ v, p = .node .pair i j [.node .key (i + 1) e [], v] ∧ v.asRule = w.asRule ∧
      Derives t .nonAtomic .value (e + 2) j [v] ∧ Compact t [p] i j := by
  obtain ⟨us, hus, -, hcompact⟩ := (hk.derives_pair hw).loosen
  obtain ⟨-, rfl⟩ := hp.pair_unique (by decide) hus
  obtain ⟨v, rfl, hval⟩ := hp.pair_parts hk
  obtain ⟨c, hc, hf⟩ := hw.first
  rw [skip_self hc (not_whitespace_of_valueStart hf)] at hval
  obtain ⟨vs, hvs, hrules, -⟩ := hw.loosen
  obtain ⟨-, rfl⟩ := hval.value_unique (by decide) hvs
  exact ⟨v, rfl, by simpa using hrules, hval, hcompact⟩

/-- **The parts of a pair that can be read back**, read without whitespace. -/
theorem ReadsBack.parts (hb : ReadsBack t p) (hp : Derives t .nonAtomic .pair i j [p]) :
    ∃ e v w, p = .node .pair i j [.node .key (i + 1) e [], v] ∧ KeyColon t i e ∧
      Derives t .compoundAtomic .value (e + 2) j [w] ∧ v.asRule = w.asRule ∧
      Derives t .nonAtomic .value (e + 2) j [v] ∧ extractRange v = extractRange w := by
  have hcompact := hb.compact
  rw [hp.pair_span.1, hp.pair_span.2] at hcompact
  obtain ⟨us, hus, -⟩ := hp.tighten hcompact
  obtain ⟨e, w, hk, hw⟩ := hus.keyColon_of_pair
  obtain ⟨v, rfl, hr, hv, -⟩ := same_parts hp hk hw
  exact ⟨e, v, w, rfl, hk, hw, hr, hv, hv.span_eq hw hr (hb.string v (by simp))⟩

/-! ## What is read back -/

/-- The byte behind the text ends it. -/
theorem stops_behind : Stops isNumberNext (t ++ [0]) t.length :=
  Stops.of_eq getElem?_behind (by decide)

theorem stops_end : Stops isNumberNext t t.length := by
  intro c hc
  rw [List.getElem?_eq_none le_rfl] at hc
  exact absurd hc (by simp)

/-- **A pair is read back exactly where it is compact**, and its string
reaches its quotes. -/
theorem pair_read_back_iff (a : Atomicity)
    (h : Grammar.pair t .nonAtomic 0 = some (t.length, [p])) :
    (∃ q, pairRedacted (t ++ [0]) a 0 = some (t.length, [q]) ∧ SameField t (t ++ [0]) p q) ↔
      ReadsBack t p := by
  have hp : Derives t .nonAtomic .pair 0 t.length [p] := (pair_eq_some (by decide)).1 h
  have hag : Agree t (t ++ [0]) 0 t.length := agree_append
  constructor
  · rintro ⟨q, hq, keyPair, valuePair, keyPair', valuePair', hinner, hinner', -, hrule, hspan⟩
    obtain ⟨q', hred, hqq⟩ := pairRedacted_eq_some.1 hq
    simp only [List.cons.injEq, and_true] at hqq
    subst hqq
    obtain ⟨e, us, rfl, hk, ⟨rfl, -⟩ | ⟨w, rfl, hw⟩⟩ := hred.parts
    · simp [redactedToken] at hinner'
    have hlt := hw.lt
    have hk' : KeyColon t 0 e := KeyColon.transfer hk hag.symm (by omega)
    have hw' : Derives t .compoundAtomic .value (e + 2) t.length [w] :=
      hw.transfer (hag.symm.mono (by omega) le_rfl) stops_end
    obtain ⟨v, rfl, hr, hv, hcompact⟩ := same_parts hp hk' hw'
    refine ⟨hcompact, fun u hu hs => ?_⟩
    simp only [Pair.intoInner_node, redactedToken, List.cons.injEq, and_true] at hinner hinner'
    obtain ⟨rfl, rfl⟩ := hinner
    obtain ⟨rfl, rfl⟩ := hinner'
    simp only [Pair.intoInner_node, List.mem_cons, List.not_mem_nil, or_false] at hu
    rcases hu with rfl | rfl
    · simp at hs
    · simp only [extractRange, Range.mk.injEq] at hspan
      rw [hspan.1, hspan.2]
      exact hw'.string_quotes (hr ▸ hs)
  · intro hb
    obtain ⟨e, v, w, rfl, hk, hw, hr, -, hspan⟩ := hb.parts hp
    have hlt := hw.lt
    have hlt' := hk.lt
    have hk' : KeyColon (t ++ [0]) 0 e := KeyColon.transfer hk hag (by omega)
    have hw' : Derives (t ++ [0]) .compoundAtomic .value (e + 2) t.length [w] :=
      hw.transfer (hag.mono (by omega) le_rfl) stops_behind
    have hcolon : (t ++ [0])[t.length]? ≠ some colon := by
      rw [getElem?_behind]
      decide
    refine ⟨_, pairRedacted_eq_some.2 ⟨_, RedactedText.full hk' hw' hcolon, rfl⟩, _, v, _, w, rfl,
      rfl, ?_, hr, hspan⟩
    have hkey : (Pair.node Rule.key (0 + 1) e []).stop ≤ t.length := by
      rw [Pair.stop_node]
      omega
    exact (asStr_append (by rw [Pair.start_node, Pair.stop_node]; omega) hkey).symm

/-! ## Pairs that are not compact -/

/-- A pair with a space behind the colon. -/
def spacedPair : List UInt8 := bytes "\"a\": 1"

/-- A pair without one. -/
def tightPair : List UInt8 := bytes "\"a\":1"

/-- The pair without the space is read back. -/
theorem pair_read_back_tightPair : ∃ p,
    Grammar.pair tightPair .nonAtomic 0 = some (tightPair.length, [p]) ∧
    ∃ q, pairRedacted (tightPair ++ [0]) .nonAtomic 0 = some (tightPair.length, [q]) ∧
      SameField tightPair (tightPair ++ [0]) p q := by
  have hv : Derives tightPair .nonAtomic .value 4 5 [.node .number 4 5 []] :=
    Derives.scalar (.number (by decide))
  have hkey : KeyText tightPair .nonAtomic 1 2 :=
    ⟨⟨_, rfl, by decide⟩, by decide, fun k h1 h2 => by
      obtain rfl : k = 1 := by omega
      exact ⟨_, rfl, Or.inl (by decide)⟩, fun _ => Or.inl (by decide)⟩
  have hp : Derives tightPair .nonAtomic .pair 0 5 [.node .pair 0 5 [.node .key 1 2 [],
      .node .number 4 5 []]] :=
    Derives.pair (q := 2) (c := 3) rfl (by decide) hkey (by decide) rfl (by decide) rfl
      (by decide) hv
  have h := (pair_eq_some (by decide)).2 hp
  have hsolid : AllIn (fun c => !isWhitespace c) tightPair 0 5 := by
    intro k _ hk
    have hall : tightPair.all (fun c => !isWhitespace c) = true := by decide
    have hlt : k < tightPair.length := hk
    exact ⟨_, List.getElem?_eq_getElem hlt, List.all_eq_true.1 hall _ (List.getElem_mem hlt)⟩
  have hcompact : Compact tightPair [.node .pair 0 5 [.node .key 1 2 [], .node .number 4 5 []]] 0 5 :=
    Compact.of_allIn hsolid fun c hc => by simpa using hc
  exact ⟨_, h, (pair_read_back_iff .nonAtomic h).2 ⟨hcompact, by simp⟩⟩

/-- So the prover reads pairs that the verifier does not read back. -/
theorem not_forall_pair_read_back :
    ¬ ∀ (t : List UInt8) (p : Token),
      Grammar.pair t .nonAtomic 0 = some (t.length, [p]) →
      ∃ q, pairRedacted (t ++ [0]) .nonAtomic 0 = some (t.length, [q]) ∧
        SameField t (t ++ [0]) p q := by
  intro hall
  have hread : (Grammar.pair spacedPair .nonAtomic 0).map Prod.fst = some spacedPair.length := by
    decide +kernel
  obtain ⟨⟨j, ts⟩, hp, hj⟩ := Option.map_eq_some_iff.1 hread
  simp only at hj
  subst hj
  obtain ⟨p, rfl⟩ : ∃ p, ts = [p] := by
    cases (pair_eq_some (by decide)).1 hp with
    | pair => exact ⟨_, rfl⟩
  obtain ⟨q, hq, -⟩ := hall spacedPair p hp
  have hstop : (pairRedacted (spacedPair ++ [0]) .nonAtomic 0).map Prod.fst = some 4 := by
    decide +kernel
  rw [hq, Option.map_some, Option.some.injEq] at hstop
  have hlen : spacedPair.length = 6 := by decide
  omega

end TlsnDemo
