import TlsnDemo.Reading.Documents
import TlsnDemo.Syntax.Agreement
import TlsnDemo.Syntax.Compact
import TlsnDemo.BalanceVerifier
import TlsnDemo.Disclosing.Plan

/-!
# What a redacted message says

The redacted parser reads every message that has the layout of one: the
pairs of a redacted body become entries under their keys, the last of a
key winning, and any other body is no entry at all.
-/

namespace TlsnDemo

open Peg Support Syntax

variable {s : List UInt8} {i j k l h e : ℕ} {t : Token} {ts us bs : List Token}

/-! ## The pairs of a redacted body -/

/-- The path a redacted pair is entered under. -/
def redactedKey (input : List UInt8) (t : Token) : String :=
  PathStack.render ⟨t.intoInner.head?.toList.map fun keyPair => .key (asStr input keyPair)⟩

/-- What is entered for a redacted pair. -/
def redactedField (t : Token) : RedactedBody :=
  match t.intoInner with
  | keyPair :: inner => .keyValue (extractRange keyPair) (inner.head?.map extractRange)
  | [] => .value (extractRange t)

theorem redactedLoop_cons {m : StringMap RedactedBody} {x e : ℕ} (hv : us = [] ∨ ∃ v, us = [v]) :
    redactedLoop s (redactedToken x e j us :: ts) m {} =
      redactedLoop s ts (m.insert (redactedKey s (redactedToken x e j us))
        (redactedField (redactedToken x e j us))) {} := by
  rcases hv with rfl | ⟨v, rfl⟩ <;> rfl

/-- The parts of a redacted pair: a key, and at most one value. -/
theorem Syntax.RedactedText.parts (h : RedactedText s i j t) :
    ∃ e us, t = redactedToken i e j us ∧ KeyColon s i e ∧
      (us = [] ∧ j = e + 2 ∨ ∃ v, us = [v] ∧ Derives s .compoundAtomic .value (e + 2) j [v]) := by
  cases h with
  | full hk hv _ => exact ⟨_, _, rfl, hk, Or.inr ⟨_, rfl, hv⟩⟩
  | bare hk _ => exact ⟨_, _, rfl, hk, Or.inl ⟨rfl, rfl⟩⟩

theorem Syntax.RedactedText.token (h : RedactedText s i j t) :
    ∃ e us, t = redactedToken i e j us ∧ KeyColon s i e ∧ (us = [] ∨ ∃ v, us = [v]) := by
  obtain ⟨e, us, ht, hk, hus⟩ := h.parts
  exact ⟨e, us, ht, hk, hus.imp And.left fun ⟨v, hv, _⟩ => ⟨v, hv⟩⟩

theorem Syntax.RedactedText.span (h : RedactedText s i j t) : t.start = i ∧ t.stop = j := by
  cases h <;> exact ⟨rfl, rfl⟩

theorem redactedLoop_pairs {m : StringMap RedactedBody} {u : Token}
    (hts : ∀ t ∈ ts, ∃ i j, RedactedText s i j t) (hu : u.asRule ≠ .pairRedacted) :
    redactedLoop s (ts ++ [u]) m {} =
      .ok (insertAll m (ts.map fun t => (redactedKey s t, redactedField t))) := by
  induction ts generalizing m with
  | nil =>
    rw [List.nil_append, redactedLoop, if_pos hu]
    rfl
  | cons t ts ih =>
    obtain ⟨i, j, ht⟩ := hts t List.mem_cons_self
    obtain ⟨e, us, rfl, -, hus⟩ := ht.token
    rw [List.cons_append, redactedLoop_cons hus, ih fun t ht => hts t (List.mem_cons_of_mem _ ht)]
    rfl

/-- The further pairs of a redacted body, one after the other. -/
theorem redacted_of_chain
    (h : Chain (next (Peg.satisfy isWhitespace) furtherPair) s .nonAtomic k l us) (ht : t ∈ us) :
    ∃ x y, k ≤ x ∧ y ≤ l ∧ RedactedText s x y t := by
  induction h with
  | stop _ => simp at ht
  | @step k m l us vs hm hc ih =>
    obtain ⟨u, hu, rfl⟩ := furtherPair_eq_some.1 (next_eq_some.1 hm)
    have h1 := (progress_furtherPair.next hm).1
    have h2 := hc.le progress_furtherPair.next
    simp only [List.cons_append, List.nil_append, List.mem_cons] at ht
    rcases ht with rfl | ht
    · refine ⟨_, _, ?_, h2, hu⟩
      have h3 : k ≤ skip s .nonAtomic k := le_skipTo
      have h4 : skip s .nonAtomic k ≤ past comma s (skip s .nonAtomic k) := by
        unfold past
        split <;> omega
      exact h3.trans (h4.trans le_skipTo)
    · obtain ⟨x, y, hx, hy, hr⟩ := ih ht
      exact ⟨x, y, by omega, hy, hr⟩

theorem le_past {c : UInt8} : i ≤ past c s i := by
  unfold past
  split <;> omega

/-- **The tokens of a redacted body** are redacted pairs of its text. -/
theorem Syntax.RedactedBodyText.mem (h : RedactedBodyText s i j t us k l) {u : Token}
    (hu : u ∈ t :: us) : ∃ x y, i ≤ x ∧ y ≤ j ∧ RedactedText s x y u := by
  have h1 : i ≤ skip s .nonAtomic (past openBrace s i) := le_past.trans le_skipTo
  have h2 := h.first.bounds.1
  have h3 := h.further.le progress_furtherPair.next
  have h4 : l ≤ j := h.stop ▸ (le_skipTo.trans le_past)
  rcases List.mem_cons.1 hu with rfl | hu
  · exact ⟨_, _, h1, by omega, h.first⟩
  · obtain ⟨x, y, hx, hy, hr⟩ := redacted_of_chain h.further hu
    exact ⟨x, y, by omega, by omega, hr⟩

/-- The further pairs come one after the other. -/
theorem pairwise_of_chain
    (h : Chain (next (Peg.satisfy isWhitespace) furtherPair) s .nonAtomic k l us) :
    us.Pairwise fun t u => t.stop ≤ u.start := by
  induction h with
  | stop _ => exact List.Pairwise.nil
  | @step k m l us vs hm hrest ih =>
    obtain ⟨u, hu, rfl⟩ := furtherPair_eq_some.1 (next_eq_some.1 hm)
    rw [List.cons_append, List.nil_append, List.pairwise_cons]
    refine ⟨fun v hv => ?_, ih⟩
    obtain ⟨x, y, hx, -, hr⟩ := redacted_of_chain hrest hv
    rw [hu.span.2, hr.span.1]
    exact hx

/-- **The tokens of a redacted body** come one after the other. -/
theorem Syntax.RedactedBodyText.pairwise (h : RedactedBodyText s i j t us k l) :
    (t :: us).Pairwise fun t u => t.stop ≤ u.start := by
  rw [List.pairwise_cons]
  refine ⟨fun v hv => ?_, pairwise_of_chain h.further⟩
  obtain ⟨x, y, hx, -, hr⟩ := redacted_of_chain h.further hv
  rw [h.first.span.2, hr.span.1]
  exact hx

/-- The first of them starts in front. -/
theorem Syntax.RedactedBodyText.first_le (h : RedactedBodyText s i j t us k l) {v : Token}
    (hv : v ∈ t :: us) : t.start ≤ v.start := by
  rcases List.mem_cons.1 hv with rfl | hv
  · exact le_rfl
  · have hlt := h.first.bounds.1
    have hle := (List.pairwise_cons.1 h.pairwise).1 v hv
    rw [h.first.span.2] at hle
    rw [h.first.span.1]
    omega

/-- Two pairs of a redacted body are one, or one ends before the other starts. -/
theorem Syntax.RedactedBodyText.apart (h : RedactedBodyText s i j t us k l) {u v : Token}
    (hu : u ∈ t :: us) (hv : v ∈ t :: us) : u = v ∨ u.stop ≤ v.start ∨ v.stop ≤ u.start :=
  eq_or_of_pairwise h.pairwise hu hv

section Cover

variable {p : ℕ} {c : UInt8}

theorem whitespace_of_lt_skip (h1 : i ≤ p) (h2 : p < skip s .nonAtomic i) (hc : s[p]? = some c) :
    isWhitespace c = true := by
  obtain ⟨d, hd, hw⟩ := of_lt_skipTo h1 h2
  rw [hc, Option.some.injEq] at hd
  exact hd ▸ hw

theorem eq_of_lt_past {d : UInt8} (h1 : i ≤ p) (h2 : p < past d s i) (hc : s[p]? = some c) :
    c = d := by
  unfold past at h2
  split at h2
  · next hd =>
    obtain rfl : p = i := by omega
    rw [hc, Option.some.injEq] at hd
    exact hd
  · omega

/-- What stands between the further pairs of a redacted body is whitespace or
a comma. -/
theorem cover_of_chain
    (h : Chain (next (Peg.satisfy isWhitespace) furtherPair) s .nonAtomic k l us) (h1 : k ≤ p)
    (h2 : p < l) (hc : s[p]? = some c) : isWhitespace c = true ∨ c = comma ∨
      ∃ x y, ∃ u ∈ us, RedactedText s x y u ∧ x ≤ p ∧ p < y := by
  induction h with
  | stop _ => omega
  | @step k m l us vs hm _ ih =>
    obtain ⟨u, hu, rfl⟩ := furtherPair_eq_some.1 (next_eq_some.1 hm)
    rcases Nat.lt_or_ge p m with hlt | hge
    · by_cases hspace : p < skip s .nonAtomic k
      · exact Or.inl (whitespace_of_lt_skip h1 hspace hc)
      by_cases hcomma : p < past comma s (skip s .nonAtomic k)
      · exact Or.inr (Or.inl (eq_of_lt_past (by omega) hcomma hc))
      by_cases hspace' : p < skip s .nonAtomic (past comma s (skip s .nonAtomic k))
      · exact Or.inl (whitespace_of_lt_skip (by omega) hspace' hc)
      · exact Or.inr (Or.inr ⟨_, m, u, List.mem_append_left _ List.mem_cons_self, hu,
          Nat.le_of_not_lt hspace', hlt⟩)
    · rcases ih hge h2 with hw | hcomma | ⟨x, y, u, hmem, hpair⟩
      · exact Or.inl hw
      · exact Or.inr (Or.inl hcomma)
      · exact Or.inr (Or.inr ⟨x, y, u, List.mem_append_right _ hmem, hpair⟩)

/-- From its first pair on, **what stands in a redacted body** is whitespace, a
comma, its closing brace or a pair. -/
theorem Syntax.RedactedBodyText.cover_pairs (h : RedactedBodyText s i j t us k l)
    (h1 : t.start ≤ p) (h2 : p < j) (hc : s[p]? = some c) :
    isWhitespace c = true ∨ c ∈ [comma, closeBrace] ∨
      ∃ x y, ∃ u ∈ t :: us, RedactedText s x y u ∧ x ≤ p ∧ p < y := by
  rw [h.first.span.1] at h1
  rcases Nat.lt_or_ge p k with hlt | hge
  · exact Or.inr (Or.inr ⟨_, k, t, List.mem_cons_self, h.first, h1, hlt⟩)
  rcases Nat.lt_or_ge p l with hlt | hge'
  · rcases cover_of_chain h.further hge hlt hc with hw | hcomma | ⟨x, y, u, hmem, hpair⟩
    · exact Or.inl hw
    · exact Or.inr (Or.inl (by simp [hcomma]))
    · exact Or.inr (Or.inr ⟨x, y, u, List.mem_cons_of_mem _ hmem, hpair⟩)
  by_cases hspace : p < skip s .nonAtomic l
  · exact Or.inl (whitespace_of_lt_skip hge' hspace hc)
  · have hbrace : p < past closeBrace s (skip s .nonAtomic l) := h.stop ▸ h2
    exact Or.inr (Or.inl (by simp [eq_of_lt_past (by omega) hbrace hc]))

/-- **What stands in a redacted body** is whitespace, punctuation or a pair. -/
theorem Syntax.RedactedBodyText.cover (h : RedactedBodyText s i j t us k l) (h1 : i ≤ p)
    (h2 : p < j) (hc : s[p]? = some c) :
    isWhitespace c = true ∨ c ∈ [openBrace, comma, closeBrace] ∨
      ∃ x y, ∃ u ∈ t :: us, RedactedText s x y u ∧ x ≤ p ∧ p < y := by
  by_cases hbrace : p < past openBrace s i
  · exact Or.inr (Or.inl (by simp [eq_of_lt_past h1 hbrace hc]))
  by_cases hspace : p < skip s .nonAtomic (past openBrace s i)
  · exact Or.inl (whitespace_of_lt_skip (by omega) hspace hc)
  rcases h.cover_pairs (h.first.span.1 ▸ Nat.le_of_not_lt hspace) h2 hc with hw | hpunct | hpair
  · exact Or.inl hw
  · exact Or.inr (Or.inl (List.mem_cons_of_mem _ hpunct))
  · exact Or.inr (Or.inr hpair)

/-- It starts with a brace or with the quote of its first pair. -/
theorem Syntax.RedactedBodyText.opening (h : RedactedBodyText s i j t us k l)
    (hc : s[i]? = some c) (hw : isWhitespace c = false) : c = openBrace ∨ c = quote := by
  refine or_iff_not_imp_left.2 fun hne => ?_
  obtain ⟨e, us, -, hk, -⟩ := h.first.token
  have hpast : past openBrace s i = i := if_neg (by rw [hc, Option.some.injEq]; exact hne)
  have hq := hk.opening
  rw [hpast, skip_self hc hw, hc, Option.some.injEq] at hq
  exact hq

end Cover

/-- A further pair starts where the one before it ends, or past whitespace
and a comma. -/
theorem stops_before_pair {y : ℕ}
    (h : RedactedText s (skip s .nonAtomic (past comma s (skip s .nonAtomic k))) y t) :
    Stops isNumberNext s k := by
  have hq : s[skip s .nonAtomic (past comma s (skip s .nonAtomic k))]? = some quote := by
    obtain ⟨e, us, -, hk, -⟩ := h.token
    exact hk.opening
  intro c hc
  by_contra hn
  have hnext : isNumberNext c = true := by simpa using hn
  have hw : isWhitespace c = false := not_whitespace_of_class (by decide) (by decide) hnext
  have hcomma : c ≠ comma := ne_of_class hnext (by decide)
  have hquote : c ≠ quote := ne_of_class hnext (by decide)
  have hstay : skip s .nonAtomic k = k := skipTo_of_false fun d hd => by
    rw [hc, Option.some.injEq] at hd
    rw [← hd, hw]
  rw [hstay, past, if_neg (by rw [hc]; simpa using hcomma), hstay, hc, Option.some.injEq] at hq
  exact hquote hq

/-- No pair among the further ones runs on, but perhaps the last. -/
theorem stops_of_chain
    (h : Chain (next (Peg.satisfy isWhitespace) furtherPair) s .nonAtomic k l us) (ht : t ∈ us) :
    ∃ x y, RedactedText s x y t ∧ (y = l ∨ Stops isNumberNext s y) := by
  induction h with
  | stop _ => simp at ht
  | @step k m l us vs hm hc ih =>
    obtain ⟨u, hu, rfl⟩ := furtherPair_eq_some.1 (next_eq_some.1 hm)
    simp only [List.cons_append, List.nil_append, List.mem_cons] at ht
    rcases ht with rfl | ht
    · refine ⟨_, m, hu, ?_⟩
      cases hc with
      | stop _ => exact Or.inl rfl
      | step hm' _ =>
        obtain ⟨w, hw, -⟩ := furtherPair_eq_some.1 (next_eq_some.1 hm')
        exact Or.inr (stops_before_pair hw)
    · exact ih ht

/-- Behind its last pair a redacted body has a brace and whitespace, where
the message ends with it. -/
theorem Syntax.RedactedBodyText.behind (h : RedactedBodyText s i j t us k l)
    (hend : s.length ≤ skip s .nonAtomic j) {m : ℕ} (hm : l ≤ m) {c : UInt8} (hc : s[m]? = some c) :
    isWhitespace c = true ∨ c = closeBrace := by
  have hlt := lt_length hc
  have hj := h.stop
  rcases Nat.lt_trichotomy m (skip s .nonAtomic l) with hl | rfl | hg
  · obtain ⟨d, hd, hw⟩ := of_lt_skipTo hm hl
    rw [hc, Option.some.injEq] at hd
    exact Or.inl (hd ▸ hw)
  · by_contra hno
    rw [not_or] at hno
    rw [past, if_neg (by rw [hc]; simpa using hno.2)] at hj
    rw [hj, skip, skip, skipTo_skipTo] at hend
    rw [skip] at hlt
    omega
  · have hle : j ≤ m := by
      rw [hj, past]
      split <;> omega
    obtain ⟨d, hd, hw⟩ := of_lt_skipTo (f := isWhitespace) (a := .nonAtomic) hle
      (Nat.lt_of_lt_of_le hlt hend)
    rw [hc, Option.some.injEq] at hd
    exact Or.inl (hd ▸ hw)

/-- So a class without these stops there. -/
theorem Syntax.RedactedBodyText.stops_of_class (h : RedactedBodyText s i j t us k l)
    (hend : s.length ≤ skip s .nonAtomic j) {f : UInt8 → Bool}
    (hf : ∀ c, f c = true → isWhitespace c = false ∧ c ≠ closeBrace) : Stops f s l := by
  intro c hc
  by_contra hn
  obtain ⟨hw, hbrace⟩ := hf c (by simpa using hn)
  rcases h.behind hend le_rfl hc with hw' | heq
  · rw [hw] at hw'
    exact absurd hw' (by simp)
  · exact hbrace heq

theorem numberNext_not {c : UInt8} (h : isNumberNext c = true) :
    isWhitespace c = false ∧ c ≠ closeBrace :=
  ⟨not_whitespace_of_class (by decide) (by decide) h, ne_of_class h (by decide)⟩

/-- **After each pair of a redacted body comes no byte a number may go on
with**, where the message ends with the body. -/
theorem Syntax.RedactedBodyText.stops (h : RedactedBodyText s i j t us k l)
    (hend : s.length ≤ skip s .nonAtomic j) {u : Token} (hu : u ∈ t :: us) :
    ∃ x y, RedactedText s x y u ∧ Stops isNumberNext s y := by
  have hlast : Stops isNumberNext s l := h.stops_of_class hend fun _ => numberNext_not
  rcases List.mem_cons.1 hu with rfl | hu
  · refine ⟨_, k, h.first, ?_⟩
    have hfurther := h.further
    cases hfurther with
    | stop _ => exact hlast
    | step hm _ =>
      obtain ⟨w, hw, -⟩ := furtherPair_eq_some.1 (next_eq_some.1 hm)
      exact stops_before_pair hw
  · obtain ⟨x, y, hr, rfl | hs⟩ := stops_of_chain h.further hu
    · exact ⟨x, y, hr, hlast⟩
    · exact ⟨x, y, hr, hs⟩

/-! ## The redacted body map -/

theorem parseRedactedBody_redacted (h : RedactedBodyText s i j t us k l) :
    parseRedactedBody s (t :: us ++ [eoiToken s e]) =
      .ok (insertAll ∅ ((t :: us).map fun t => (redactedKey s t, redactedField t))) :=
  redactedLoop_pairs (fun _ hu => by
    obtain ⟨x, y, -, -, hr⟩ := h.mem hu
    exact ⟨x, y, hr⟩) (by simp [eoiToken])

theorem parseRedactedBody_other {rest : List Token} (hu : t.asRule ≠ .pairRedacted) :
    parseRedactedBody s (t :: rest) = .ok ∅ := by
  rw [parseRedactedBody, redactedLoop, if_pos hu]

section

variable [ToLowercase] {r : RedactedResponse} {p : String} {field : RedactedBody}

/-- **An entry of the redacted body map comes from a redacted pair**, the last
one of its key. -/
theorem last_of_lookup (hp : parseRedactedResponse s = .ok r)
    (hf : r.body.lookup p = some field) :
    ∃ d l hs h bs e ps t us k m, ReadsResponse s (parseRedactedBody s) r d l hs h bs e ps ∧
      bs = t :: us ∧ RedactedBodyText s (skip s .nonAtomic h) e t us k m ∧
      ∃ u ∈ t :: us, redactedKey s u = p ∧ redactedField u = field ∧
        ∀ v ∈ t :: us, redactedKey s v = p → v.start ≤ u.start := by
  obtain ⟨d, l, hs, h, bs, e, ps, hr⟩ := parseResponseInner_eq_ok.1 hp
  have hbody := hr.readsBody
  cases bodyText_of_body hr.text.message.body with
  | document _ _ hd =>
    rw [List.cons_append, parseRedactedBody_other (by
      rcases hd.root.1 with h | h <;> rw [h] <;> decide), Except.ok.injEq] at hbody
    rw [← hbody] at hf
    simp at hf
  | @redacted _ k m t us ht =>
    rw [parseRedactedBody_redacted ht, Except.ok.injEq] at hbody
    have hord : (t :: us).Pairwise fun v w => v.start < w.start := by
      refine ht.pairwise.imp_of_mem fun {v w} hv _ hle => ?_
      obtain ⟨x, y, -, -, hred⟩ := ht.mem hv
      have hlt := hred.bounds.1
      rw [← hred.span.1, ← hred.span.2] at hlt
      omega
    rw [← hbody, lookup_insertAll_eq_some hord] at hf
    exact ⟨d, l, hs, h, _, e, ps, t, us, k, m, hr, rfl, ht, hf⟩
  | none =>
    rw [List.nil_append, parseRedactedBody_other (by simp [eoiToken]), Except.ok.injEq] at hbody
    rw [← hbody] at hf
    simp at hf

theorem redacted_of_lookup (hp : parseRedactedResponse s = .ok r)
    (hf : r.body.lookup p = some field) :
    ∃ d l hs h bs e ps t us k m, ReadsResponse s (parseRedactedBody s) r d l hs h bs e ps ∧
      bs = t :: us ∧ RedactedBodyText s (skip s .nonAtomic h) e t us k m ∧
      ∃ u ∈ t :: us, redactedKey s u = p ∧ redactedField u = field := by
  obtain ⟨d, l, hs, h, bs, e, ps, t, us, k, m, hr, hbs, ht, u, hu, hkey, hfield, -⟩ :=
    last_of_lookup hp hf
  exact ⟨d, l, hs, h, bs, e, ps, t, us, k, m, hr, hbs, ht, u, hu, hkey, hfield⟩

end

/-! ## The verifier's two fields -/

/-- The span a field's text is read from. -/
def fieldRange : RedactedBody → Option Range
  | .keyValue _ value => value
  | .value range => some range

theorem bodyText_eq_ok {body : StringMap RedactedBody} {data out : List UInt8} {key : String} :
    bodyText body data key = .ok out ↔
      ∃ field range, body.lookup key = some field ∧ fieldRange field = some range ∧
        ByteArray.validateUTF8 ⟨(slice data range).toArray⟩ = true ∧ out = slice data range := by
  have hread : ∀ range, (Except.mapError (fun _ => BalanceVerifyError.utf8)
      (fromUtf8 (slice data range)) = .ok out ↔
      ByteArray.validateUTF8 ⟨(slice data range).toArray⟩ = true ∧ out = slice data range) :=
    fun range => mapError_eq_ok.trans fromUtf8_eq_ok
  have hfound : ∀ field range, fieldRange field = some range →
      ((∃ f range, some field = some f ∧ fieldRange f = some range ∧
        ByteArray.validateUTF8 ⟨(slice data range).toArray⟩ = true ∧ out = slice data range) ↔
        ByteArray.validateUTF8 ⟨(slice data range).toArray⟩ = true ∧ out = slice data range) := by
    intro field range hrange
    constructor
    · rintro ⟨f, range', hf, hr, h⟩
      rw [← Option.some.inj hf, hrange, Option.some.injEq] at hr
      exact hr ▸ h
    · exact fun h => ⟨field, range, rfl, hrange, h⟩
  unfold bodyText
  cases body.lookup key with
  | none => simp [throw, throwThe, MonadExceptOf.throw, bind, Except.bind]
  | some field =>
    cases field with
    | keyValue k v =>
      cases v with
      | none => simp [throw, throwThe, MonadExceptOf.throw, bind, Except.bind, pure, Except.pure,
          fieldRange]
      | some range => exact (hread range).trans (hfound _ range rfl).symm
    | value range => exact (hread range).trans (hfound _ range rfl).symm

theorem extractBalance_eq_ok [ToLowercase] {data : List UInt8} {out : BalanceOutput} :
    extractBalance data = .ok out ↔
      ByteArray.validateUTF8 ⟨data.toArray⟩ = true ∧ ∃ r, parseRedactedResponse data = .ok r ∧
        bodyText r.body data ".CHF" = .ok out.chfBalance ∧
        bodyText r.body data ".last_audit" = .ok out.lastAudit := by
  unfold extractBalance
  simp only [bind_eq_ok, mapError_eq_ok, fromUtf8_eq_ok, pure_eq_ok]
  constructor
  · rintro ⟨_, ⟨hv, rfl⟩, r, hr, chf, hc, audit, hau, rfl⟩
    exact ⟨hv, r, hr, hc, hau⟩
  · rintro ⟨hv, r, hr, hc, hau⟩
    exact ⟨data, ⟨hv, rfl⟩, r, hr, out.chfBalance, hc, out.lastAudit, hau, rfl⟩

end TlsnDemo
