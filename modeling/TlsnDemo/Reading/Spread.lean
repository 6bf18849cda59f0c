import TlsnDemo.Reading.SameTokens

/-!
# Redacted pairs spread over a text

A text with redacted pairs on it and whitespace between them (`Spread`) is
read as these pairs, in their order: a redacted body has no other tokens,
and its map has their entries (`response_of_spread`).
-/

namespace TlsnDemo

open Peg Support Syntax

variable {d : List UInt8} {i j k l h v : ℕ} {t : Token} {ts us : List Token}

/-- **Redacted pairs spread over a text** from a position to its end, with
nothing but whitespace between them. -/
inductive Spread (d : List UInt8) : ℕ → List Token → Prop
  | nil {i : ℕ} : AllIn isWhitespace d i d.length → Spread d i []
  | cons {i j k : ℕ} {t : Token} {ts : List Token} : i ≤ j → AllIn isWhitespace d i j →
      RedactedText d j k t → Spread d k ts → Spread d i (t :: ts)

/-- Whitespace is skipped up to a byte that is none. -/
theorem skip_allIn (hij : i ≤ j) (h : AllIn isWhitespace d i j) (hstop : Stops isWhitespace d j) :
    skip d .nonAtomic i = j := by
  rw [skip_nonAtomic]
  exact Peg.runEnd_eq hij h hstop

theorem skip_skip : skip d .nonAtomic (skip d .nonAtomic i) = skip d .nonAtomic i := skipTo_skipTo

/-- And up to the end, where there is none. -/
theorem length_le_skip (h : AllIn isWhitespace d i d.length) :
    d.length ≤ skip d .nonAtomic i := by
  by_contra hlt
  obtain ⟨c, hc, hw⟩ := h (skip d .nonAtomic i) le_skipTo (by omega)
  rw [stops_skip rfl c hc] at hw
  exact absurd hw (by simp)

theorem stops_quote (hq : d[j]? = some quote) : Stops isWhitespace d j :=
  Stops.of_eq hq not_whitespace_quote

/-- A quote is neither a comma nor a brace. -/
theorem past_quote {c : UInt8} (hq : d[j]? = some quote) (hc : quote ≠ c) : past c d j = j :=
  if_neg (by rw [hq, Option.some.injEq]; exact hc)

/-- A redacted pair starts with a quote. -/
theorem Syntax.RedactedText.opening (ht : RedactedText d j k t) : d[j]? = some quote := by
  obtain ⟨e, us, -, hk, -⟩ := ht.token
  exact hk.opening

/-- **The pairs are read one after the other**, up to the end. -/
theorem Spread.chain (h : Spread d i ts) :
    ∃ l, Chain (next (Peg.satisfy isWhitespace) furtherPair) d .nonAtomic i l ts ∧
      d.length ≤ skip d .nonAtomic l := by
  induction h with
  | @nil i hws =>
    have hend := length_le_skip hws
    refine ⟨i, Chain.stop (next_eq_none.2 ?_), hend⟩
    rw [Option.eq_none_iff_forall_ne_some]
    rintro ⟨k, us⟩ hpair
    obtain ⟨t, ht, -⟩ := furtherPair_eq_some.1 hpair
    have h1 := lt_length ht.opening
    have h2 : skip d .nonAtomic i ≤ past comma d (skip d .nonAtomic i) := le_past
    have h3 : past comma d (skip d .nonAtomic i) ≤
      skip d .nonAtomic (past comma d (skip d .nonAtomic i)) := le_skipTo
    exact absurd (hend.trans (h2.trans h3)) (Nat.not_le_of_lt h1)
  | @cons i j k t ts hij hws ht _ ih =>
    obtain ⟨l, hc, hend⟩ := ih
    have hq := ht.opening
    have hskip : skip d .nonAtomic i = j := skip_allIn hij hws (stops_quote hq)
    have hpair : furtherPair d .nonAtomic (skip d .nonAtomic i) = some (k, [t]) := by
      refine furtherPair_eq_some.2 ⟨t, ?_, rfl⟩
      rw [hskip, past_quote hq (by decide), skip_self hq not_whitespace_quote]
      exact ht
    exact ⟨l, Chain.step (next_eq_some.2 hpair) hc, hend⟩

/-- Whitespace in front of the pairs may be left out. -/
theorem Spread.extend (h : Spread d k ts) (hik : i ≤ k) (hws : AllIn isWhitespace d i k) :
    Spread d i ts := by
  cases h with
  | nil hend => exact Spread.nil (hws.append hend)
  | cons hkj hkws ht hrest => exact Spread.cons (hik.trans hkj) (hws.append hkws) ht hrest

/-- **Pairs one behind the other, and whitespace elsewhere**, are spread
over the text. -/
theorem spread_of_sorted (hsorted : ts.Pairwise fun t u => t.stop ≤ u.start)
    (hts : ∀ t ∈ ts, i ≤ t.start ∧ RedactedText d t.start t.stop t)
    (hrest : ∀ k, i ≤ k → k < d.length → (∀ t ∈ ts, k < t.start ∨ t.stop ≤ k) →
      ∃ c, d[k]? = some c ∧ isWhitespace c = true) : Spread d i ts := by
  induction ts generalizing i with
  | nil => exact Spread.nil fun k h1 h2 => hrest k h1 h2 (by simp)
  | cons t ts ih =>
    obtain ⟨hbehind, hsorted⟩ := List.pairwise_cons.1 hsorted
    obtain ⟨hi, ht⟩ := hts t List.mem_cons_self
    have hlt := ht.bounds
    refine Spread.cons hi (fun k h1 h2 => hrest k h1 (by omega) fun u hu => ?_) ht
      (ih hsorted (fun u hu => ⟨hbehind u hu, (hts u (List.mem_cons_of_mem _ hu)).2⟩)
        fun k h1 h2 hout => hrest k (by omega) h2 fun u hu => ?_)
    · left
      rcases List.mem_cons.1 hu with rfl | hu
      · exact h2
      · have := hbehind u hu
        omega
    · rcases List.mem_cons.1 hu with rfl | hu
      · exact Or.inr h1
      · exact hout u hu

/-- Whitespace in front of the pairs is skipped. -/
theorem Spread.skipped (h : Spread d i ts) : Spread d (skip d .nonAtomic i) ts := by
  have hle : i ≤ skip d .nonAtomic i := le_skipTo
  cases h with
  | nil hws => exact Spread.nil fun k h1 h2 => hws k (hle.trans h1) h2
  | cons hij hws ht hrest =>
    rw [skip_allIn hij hws (stops_quote ht.opening)]
    exact Spread.cons le_rfl (fun k h1 h2 => absurd h1 (by omega)) ht hrest

/-! ## An opening brace in front -/

/-- After the key and the colon of a pair without a value, and after a pair
with one, comes a quote or the end. -/
theorem Spread.next (h : Spread d i ts) :
    d.length ≤ skip d .nonAtomic i ∨ d[skip d .nonAtomic i]? = some quote := by
  cases h with
  | nil hws => exact Or.inl (length_le_skip hws)
  | cons hij hws ht _ =>
    right
    rw [skip_allIn hij hws (stops_quote ht.opening)]
    exact ht.opening

/-- A pair of an object that starts where redacted pairs do is followed by
no comma and no brace. -/
theorem Spread.pair_next {x m : ℕ} {ps : List Token} (h : Spread d i (t :: ts))
    (hx : x = skip d .nonAtomic i) (hp : Derives d .nonAtomic .pair x m ps) :
    d[skip d .nonAtomic m]? ≠ some comma ∧ d[skip d .nonAtomic m]? ≠ some closeBrace := by
  have hno : ∀ {k}, d.length ≤ k ∨ d[k]? = some quote →
      d[k]? ≠ some comma ∧ d[k]? ≠ some closeBrace := by
    rintro k (hk | hq)
    · simp [List.getElem?_eq_none hk]
    · rw [hq]
      exact ⟨by decide, by decide⟩
  cases h with
  | @cons _ j k _ _ hij hws ht hrest =>
    obtain rfl : x = j := hx.trans (skip_allIn hij hws (stops_quote ht.opening))
    cases ht with
    | full hk hv _ =>
      obtain ⟨us, hus, -⟩ := (hk.derives_pair hv).loosen
      obtain ⟨rfl, -⟩ := hp.pair_unique (by decide) hus
      exact hno hrest.next
    | @bare e hk _ =>
      -- what is read as the value is the key of the next pair
      obtain ⟨y, hval⟩ : ∃ vs, Derives d .nonAtomic .value (skip d .nonAtomic (e + 2)) m vs := by
        cases hp with
        | @pair _ kb ke q c v _ _ hq hkb hkt hqe hq' hc hcol hv hval =>
          have hno' : ∀ k, x < k → k < q → d[k]? ≠ some quote := fun k h1 h2 =>
            ne_quote_inside hkb hqe (fun m => hkt.ne_quote) h1 h2
          have h1 := le_of_skip hkb
          have h2 := hkt.lt
          have h3 := le_of_skip hqe
          obtain rfl := hk.closing_eq hq' (by omega) hno'
          rw [skip_self hk.colon (by decide)] at hc
          subst hc
          exact ⟨_, hv ▸ hval⟩
      cases hrest with
      | nil hws' =>
        obtain ⟨c, hc, -⟩ := hval.first
        have h1 := lt_length hc
        have h2 := length_le_skip hws'
        omega
      | @cons _ j' k' _ _ hij' hws' ht' _ =>
        obtain ⟨e', us, -, hk', -⟩ := ht'.token
        rw [skip_allIn hij' hws' (stops_quote hk'.opening)] at hval
        have hm : m = e' + 1 := by
          cases hval with
          | empty b hopen _ _ =>
            rw [hk'.opening] at hopen
            cases b <;> exact absurd hopen (by decide)
          | filled b hopen _ _ _ _ =>
            rw [hk'.opening] at hopen
            cases b <;> exact absurd hopen (by decide)
          | string _ hj ht hl hq' =>
            have h1 := le_of_skip hj
            have h2 := le_of_skip hl
            have h3 := ht.le
            rw [hk'.closing_eq hq' (by omega) fun k h1 h2 =>
              ne_quote_inside hj hl (fun m => ht.ne_quote) h1 h2]
          | scalar hs =>
            obtain ⟨c, hc, -, -, -, hne⟩ := hs.first
            rw [hk'.opening, Option.some.injEq] at hc
            exact absurd hc.symm hne
        rw [hm, skip_self hk'.colon (by decide), hk'.colon]
        exact ⟨by decide, by decide⟩

/-- So with a brace in front they are no document. -/
theorem Spread.not_document (h : Spread d (i + 1) (t :: ts)) (hb : d[i]? = some openBrace) :
    Grammar.json d .nonAtomic i = none := by
  rw [Option.eq_none_iff_forall_ne_some]
  rintro ⟨m, us⟩ hjson
  obtain ⟨hd, -⟩ := (json_eq_some (by decide)).1 hjson
  have hopen : d[i]? = some Bracket.object.opening := hb
  rcases hd.of_opening hopen with ⟨x, hx, hclose, -⟩ | ⟨x, z, w, vs, hx, hitems, hw, hclose, -⟩
  · rcases h.next with hlen | hq
    · have := lt_length hclose
      omega
    · rw [← hx, hclose] at hq
      exact absurd hq (by decide)
  · cases hitems with
    | last _ hp =>
      have hp' : Derives d .nonAtomic .pair x z vs := hp
      exact (h.pair_next hx hp').2 (hw ▸ hclose)
    | more _ hp hc hcom _ _ =>
      exact (h.pair_next hx hp).1 (hc ▸ hcom)

/-! ## Responses -/

/-- **Redacted pairs are the body of a message**, up to its end, with an
opening brace in front of them or without. -/
theorem Spread.body (h : Spread d (past openBrace d (skip d .nonAtomic i)) ts)
    (hbrace : d[skip d .nonAtomic i]? = some openBrace → ts ≠ []) :
    ∃ e, Peg.optional Grammar.body d .nonAtomic (skip d .nonAtomic i) = some (e, ts) ∧
      d.length ≤ skip d .nonAtomic e := by
  have hle : skip d .nonAtomic i ≤ past openBrace d (skip d .nonAtomic i) := le_past
  cases ts with
  | nil =>
    rw [past, if_neg fun hb => hbrace hb rfl] at h
    have hend : d.length ≤ skip d .nonAtomic (skip d .nonAtomic i) := by
      rcases h.next with hlen | hq
      · exact hlen
      · cases h with
        | nil hws => exact length_le_skip hws
    refine ⟨_, optional_eq_some.2 (Or.inr ⟨?_, rfl, rfl⟩), hend⟩
    rw [Option.eq_none_iff_forall_ne_some]
    rintro ⟨k, us⟩ hbody
    have := lt_length_of_body hbody
    rw [skip_skip] at hend
    omega
  | cons t ts =>
    -- the first byte is a brace or a quote
    have hfirst : d[skip d .nonAtomic i]? = some openBrace ∨ d[skip d .nonAtomic i]? = some quote := by
      by_cases hb : d[skip d .nonAtomic i]? = some openBrace
      · exact Or.inl hb
      · rw [past, if_neg hb] at h
        rcases h.next with hlen | hq
        · cases h with
          | cons hij hws ht _ =>
            rw [skip_allIn hij hws (stops_quote ht.opening)] at hlen
            have := lt_length ht.opening
            omega
        · exact Or.inr (skip_skip ▸ hq)
    have hjson : Grammar.json d .nonAtomic (skip d .nonAtomic i) = none := by
      rcases hfirst with hb | hq
      · rw [past, if_pos hb] at h
        exact h.not_document hb
      · rw [Option.eq_none_iff_forall_ne_some]
        rintro ⟨m, us⟩ hjson
        obtain ⟨-, b, hb⟩ := (json_eq_some (by decide)).1 hjson
        rw [hq, Option.some.injEq] at hb
        cases b <;> exact absurd hb (by decide)
    have hchunked : Grammar.chunkedBody d .nonAtomic (skip d .nonAtomic i) = none := by
      rw [Option.eq_none_iff_forall_ne_some]
      rintro ⟨m, us⟩ hchunked
      obtain ⟨n, p, hc⟩ := chunkedBody_eq_some.1 hchunked
      obtain ⟨c, hcs, hf⟩ := at_iff.1 (chunkSize_iff.1 hc.size).1
      rcases hfirst with hb | hq
      · rw [hb, Option.some.injEq] at hcs
        rw [← hcs] at hf
        exact absurd hf (by decide)
      · rw [hq, Option.some.injEq] at hcs
        rw [← hcs] at hf
        exact absurd hf (by decide)
    cases h with
    | @cons _ j k _ _ hij hws ht hrest =>
      obtain ⟨l, hc, hend⟩ := hrest.chain
      have hredacted : RedactedBodyText d (skip d .nonAtomic i) (skip d .nonAtomic l) t ts k l := by
        refine ⟨?_, hc, ?_⟩
        · rw [skip_allIn hij hws (stops_quote ht.opening)]
          exact ht
        · rw [past, if_neg]
          intro hb
          have := lt_length hb
          omega
      exact ⟨_, optional_eq_some.2 (Or.inl (body_eq_some.2 (Or.inr ⟨hchunked, Or.inr ⟨hjson,
        bodyRedacted_eq_some.2 ⟨t, ts, k, l, hredacted, rfl⟩⟩⟩))), skip_skip.symm ▸ hend⟩

section

variable [ToLowercase] {ps : List (String × Header (Option Range))}

/-- **A response with pairs spread over it is read as these.** -/
theorem response_of_spread (hst : StatusLineText d (skip d .nonAtomic 0) v l)
    (hc : HeaderChain d l h us) (hps : ReadsHeaders d us ps)
    (hs : Spread d (past openBrace d (skip d .nonAtomic h)) ts)
    (hbrace : d[skip d .nonAtomic h]? = some openBrace → ts ≠ []) :
    parseRedactedResponse d = .ok ⟨⟨skip d .nonAtomic 0, v⟩, ⟨v + 1, v + 4⟩, ⟨v + 5, l⟩,
      pushAll ∅ ps, insertAll ∅ (ts.map fun t => (redactedKey d t, redactedField t))⟩ := by
  obtain ⟨e, hbody, hend⟩ := hs.body hbrace
  have hread : parseRedactedBody d (ts ++ [eoiToken d e]) =
      .ok (insertAll ∅ (ts.map fun t => (redactedKey d t, redactedField t))) := by
    cases bodyText_of_body hbody with
    | document _ _ hd =>
      cases hs with
      | cons _ _ ht _ =>
        have hrule := ht.asRule
        rcases hd.root.1 with hroot | hroot <;> rw [hroot] at hrule <;> exact absurd hrule (by decide)
    | redacted ht => exact parseRedactedBody_redacted ht
    | none => exact parseRedactedBody_other (by simp [eoiToken])
  have htext : ResponseText d v l us h ts e :=
    ⟨hst, statusLine_eq_some.2 ⟨v, hst, rfl⟩, hc, hbody, hend⟩
  exact parseResponseInner_eq_ok.2 ⟨v, l, us, h, ts, e, ps, htext, hps, hread, rfl, rfl, rfl, rfl⟩

end

end TlsnDemo
