import TlsnDemo.Reading.Overwritten
import TlsnDemo.Reading.Transcript

/-!
# The view of a revealed response

A response that is revealed by rules shows its first line with the byte
after it, some header lines, each up to the byte after its value, and bytes
of its document (`ResponseView`). The redacted parser reads every line that
is shown before it comes to the document (`passes_lines`), so the pairs of
a redacted body lie in the document (`pair_in_document`).
-/

namespace TlsnDemo

open Peg Support Syntax

variable {s : List UInt8} {shown : ℕ → Bool} {i l h x y p q m n w j k : ℕ} {hs us : List Token}
  {t u : Token}

/-- A header line is shown from its name to the byte after its value. -/
def ShownLine (shown : ℕ → Bool) (i w : ℕ) : Prop := ∀ k, i ≤ k → k ≤ w → shown k = true

/-- **What a revealed response shows**: its first line from `i` to the byte
at `l`, whole header lines, and bytes of its document from `x` to `y`. -/
structure ResponseView (s : List UInt8) (shown : ℕ → Bool) (i l h : ℕ) (hs : List Token)
    (x y : ℕ) : Prop where
  lines : HeaderChain s l h hs
  full : ∀ u ∈ hs, ∃ j n w k, u = headerToken j n w k
  document : h ≤ x
  opening : ∀ c, s[x]? = some c → isKeyChar c = false
  first : ∀ k, i ≤ k → k ≤ l → shown k = true
  line : ∀ {j n w m k}, headerToken j n w m ∈ hs → j ≤ k → k < m → l < k → shown k = true →
    ShownLine shown j w ∧ k ≤ w
  parts : ∀ {k}, shown k = true →
    i ≤ k ∧ (k ≤ l ∨ (∃ t ∈ hs, t.start ≤ k ∧ k < t.stop) ∨ x ≤ k ∧ k < y)

/-! ## The first line -/

/-- A byte the view skips to is a byte of the response. -/
theorem shown_skip (hk : k = skip (redact s shown) .nonAtomic p) (hlt : k < s.length) :
    shown k = true := by
  have hstop := stops_skip hk
  by_contra hhidden
  have hzero := hstop 0 (getElem?_redact_of_hidden (by simpa using hhidden) hlt)
  exact absurd hzero (by decide)

/-- **The first line is there to be read.** -/
theorem ResponseView.status_line {d : ℕ} (hv : ResponseView s shown i l h hs x y)
    (hi : i = skip s .nonAtomic 0) (hst : StatusLineText s i d l) :
    skip (redact s shown) .nonAtomic 0 = i ∧ StatusLineText (redact s shown) i d l := by
  have hlt := hst.lt
  have hag : Agree s (redact s shown) i (l + 1) := fun k h1 h2 =>
    (getElem?_redact_of_shown (hv.first k h1 (by omega))).symm
  obtain ⟨c, hc, hsolid⟩ := hst.solid i le_rfl hlt
  refine ⟨?_, hst.agree hag⟩
  -- nothing is shown in front of the line
  rw [skip_nonAtomic]
  refine Peg.runEnd_eq (Nat.zero_le i) (fun k _ hk => ?_) ?_
  · have hhidden : shown k = false := by
      by_contra hshown
      have := (hv.parts (by simpa using hshown)).1
      omega
    exact ⟨0, getElem?_redact_of_hidden hhidden (hk.trans (lt_length hc)), by decide⟩
  · exact (stops_skip hi).congr (hag i le_rfl (by omega))

/-- And it is read as it is. -/
theorem ResponseView.first_line {d d' l' : ℕ} (hv : ResponseView s shown i l h hs x y)
    (hi : i = skip s .nonAtomic 0) (hst : StatusLineText s i d l)
    (hst' : StatusLineText (redact s shown) (skip (redact s shown) .nonAtomic 0) d' l') :
    l' = l := by
  obtain ⟨hskip, hst''⟩ := hv.status_line hi hst
  rw [hskip] at hst'
  have hline := statusLine_eq_some (a := .nonAtomic).2 ⟨d, hst'', rfl⟩
  rw [statusLine_eq_some.2 ⟨d', hst', rfl⟩] at hline
  simp only [Option.some.injEq, Prod.mk.injEq] at hline
  exact hline.1

/-! ## Header lines -/

theorem ResponseView.text (hv : ResponseView s shown i l h hs x y)
    (ht : headerToken j n w m ∈ hs) :
    HeaderStart s j n ∧ HeaderEnd s (n + 2) w m ∧ l ≤ j ∧ j < n ∧ n + 2 < w ∧ w < m ∧ m ≤ h := by
  obtain ⟨htext, h1, h2⟩ := HeaderChain.mem hv.lines ht
  obtain ⟨-, -, hs, he⟩ := htext.parts
  exact ⟨hs, he, h1, hs.name.lt, he.value.lt, he.newline.bounds.1, h2⟩

/-- **A line that is shown is read as a line**, up to the byte after its
value: of a line that ends with two bytes, the second is hidden. -/
theorem ResponseView.header_text (hv : ResponseView s shown i l h hs x y)
    (ht : headerToken j n w m ∈ hs) (hshown : ShownLine shown j w) :
    HeaderText (redact s shown) j (w + 1) (headerToken j n w (w + 1)) := by
  obtain ⟨hstart, hend, h1, h2, h3, h4, -⟩ := hv.text ht
  have hag : Agree s (redact s shown) j (w + 1) := fun k hk1 hk2 =>
    (getElem?_redact_of_shown (hshown k hk1 (by omega))).symm
  refine HeaderText.full (hstart.agree (hag.mono le_rfl (by omega)))
    ⟨hend.value.agree (hag.mono (by omega) le_rfl), ?_⟩
  rcases hend.newline with ⟨hn, -⟩ | ⟨hr, hrest⟩
  · exact Or.inl ⟨hag.get hn (by omega) (by omega), rfl⟩
  · refine Or.inr ⟨hag.get hr (by omega) (by omega), Or.inr ⟨fun hn => ?_, rfl⟩⟩
    obtain ⟨hk, hn'⟩ := shown_of_ne_zero hn (by decide)
    rcases hrest with ⟨-, rfl⟩ | ⟨hne, -⟩
    · have := (hv.line ht (by omega) (by omega) (by omega) hk).2
      omega
    · exact hne hn'

/-- What is shown between the first line and the document is of a line that
is shown. -/
theorem ResponseView.exists_line (hv : ResponseView s shown i l h hs x y)
    (hk : shown k = true) (h1 : l < k) (h2 : k < x) :
    ∃ j n w m, headerToken j n w m ∈ hs ∧ j ≤ k ∧ k ≤ w ∧ ShownLine shown j w := by
  rcases (hv.parts hk).2 with hle | ⟨t, ht, hs1, hs2⟩ | hle
  · omega
  · obtain ⟨j, n, w, m, rfl⟩ := hv.full t ht
    obtain ⟨hline, hkw⟩ := hv.line ht hs1 hs2 h1 hk
    exact ⟨j, n, w, m, ht, hs1, hkw, hline⟩
  · omega

/-- What is shown from the document on is of the document. -/
theorem ResponseView.lt_stop (hv : ResponseView s shown i l h hs x y) (hk : shown k = true)
    (hl : l < k) (hx : x ≤ k) : k < y := by
  have hdoc := hv.document
  rcases (hv.parts hk).2 with hle | ⟨t, ht, -, hlt⟩ | hin
  · omega
  · have := (HeaderChain.mem hv.lines ht).2.2
    omega
  · exact hin.2

/-! ## The header section -/

/-- A position is past a line or in front of it, for every line shown. -/
def Past (shown : ℕ → Bool) (hs : List Token) (p : ℕ) : Prop :=
  ∀ j n w m, headerToken j n w m ∈ hs → ShownLine shown j w → p ≤ j ∨ w < p

/-- The first byte of a line that is shown is not skipped. -/
theorem ResponseView.skip_le_line (hv : ResponseView s shown i l h hs x y)
    (ht : headerToken j n w m ∈ hs) (hshown : ShownLine shown j w) (hp : p ≤ j) :
    skip (redact s shown) .nonAtomic p ≤ j := by
  obtain ⟨hstart, -, -, h1, h2, -⟩ := hv.text ht
  obtain ⟨c, hc, hf⟩ := hstart.name.mem j le_rfl h1
  have hc' : (redact s shown)[j]? = some c :=
    (getElem?_redact_of_shown (hshown j le_rfl (by omega))).trans hc
  exact Syntax.skip_le hp hc' (not_whitespace_of_class (by decide) (by decide) hf)

/-- **In front of a line that is shown**, what is not skipped is the first
byte of such a line, or the byte after the first line. -/
theorem ResponseView.next_line (hv : ResponseView s shown i l h hs x y) (hpast : Past shown hs p)
    (hp : l ≤ p) (ht : headerToken j n w m ∈ hs) (hshown : ShownLine shown j w) (hpj : p ≤ j)
    (hq : q = skip (redact s shown) .nonAtomic p) :
    q ≤ j ∧ (q = l ∨ ∃ n w m, headerToken q n w m ∈ hs ∧ ShownLine shown q w) := by
  have hqj : q ≤ j := hq ▸ hv.skip_le_line ht hshown hpj
  obtain ⟨hstart, -, -, h1, h2, h3, h4⟩ := hv.text ht
  have hdoc := hv.document
  have hlt : j < s.length := by
    obtain ⟨c, hc, -⟩ := hstart.name.mem j le_rfl h1
    exact lt_length hc
  have hpq : p ≤ q := hq ▸ le_skipTo
  refine ⟨hqj, ?_⟩
  rcases Nat.eq_or_lt_of_le (hp.trans hpq) with rfl | hlq
  · exact Or.inl rfl
  · obtain ⟨j', n', w', m', ht', hj', hw', hshown'⟩ :=
      hv.exists_line (shown_skip hq (by omega)) hlq (by omega)
    have hpj' : p ≤ j' := (hpast _ _ _ _ ht' hshown').resolve_right (by omega)
    have hqj' : q ≤ j' := hq ▸ hv.skip_le_line ht' hshown' hpj'
    obtain rfl : q = j' := by omega
    exact Or.inr ⟨n', w', m', ht', hshown'⟩

/-- A line is read at the byte after the first line only if it is shown. -/
theorem ResponseView.line_at_first (hv : ResponseView s shown i l h hs x y) (hil : i ≤ l)
    (hlh : l < h) (hnw : ∀ c, s[l]? = some c → isWhitespace c = false) :
    ∃ n w m, headerToken l n w m ∈ hs ∧
      ((∃ n', HeaderStart (redact s shown) l n') → ShownLine shown l w) := by
  obtain ⟨t, ht, h1, h2⟩ : ∃ t ∈ hs, t.start ≤ l ∧ l < t.stop := by
    rcases HeaderChain.cover hv.lines le_rfl hlh with ⟨c, hc, hw⟩ | ht
    · rw [hnw c hc] at hw
      exact absurd hw (by simp)
    · exact ht
  obtain ⟨j, n, w, m, rfl⟩ := hv.full t ht
  simp only [headerToken, Pair.start_node, Pair.stop_node] at h1 h2
  obtain ⟨-, -, h3, h4, h5, h6, -⟩ := hv.text ht
  obtain rfl : j = l := by omega
  refine ⟨n, w, m, ht, fun hread => ?_⟩
  obtain ⟨n', hstart⟩ := hread
  have hn' := hstart.name.lt
  -- the byte behind is part of the name or the colon, so it is shown
  have hnext : shown (j + 1) = true := by
    rcases Nat.eq_or_lt_of_le hn' with heq | hlt
    · exact (shown_of_ne_zero (heq ▸ hstart.colon) (by decide)).1
    · obtain ⟨c, hc, hf⟩ := hstart.name.mem (j + 1) (by omega) hlt
      refine (shown_of_ne_zero hc ?_).1
      rintro rfl
      exact absurd hf (by decide)
  exact (hv.line ht (by omega) (by omega) (by omega) hnext).1

/-- **A header the view reads** from a position past or in front of every
line leads to such a position. -/
theorem ResponseView.past_header (hv : ResponseView s shown i l h hs x y) (hil : i ≤ l)
    (hpast : Past shown hs p) (hp : l ≤ p)
    (hm : HeaderText (redact s shown) (skip (redact s shown) .nonAtomic p) k u) :
    Past shown hs k := by
  intro j n w m ht hshown
  have hpq : p ≤ skip (redact s shown) .nonAtomic p := le_skipTo
  have hqk := hm.bounds.1
  rcases hpast j n w m ht hshown with hpj | hwp
  swap
  · exact Or.inr (by omega)
  obtain ⟨hqj, hq⟩ := hv.next_line hpast hp ht hshown hpj rfl
  -- the header that is read is a line that is shown
  obtain ⟨n', w', m', ht', hshown'⟩ :
      ∃ n w m, headerToken (skip (redact s shown) .nonAtomic p) n w m ∈ hs ∧
        ShownLine shown (skip (redact s shown) .nonAtomic p) w := by
    rcases hq with hq | hq
    swap
    · exact hq
    obtain ⟨-, -, -, h1, h2, h3, h4⟩ := hv.text ht
    rw [hq] at hm ⊢
    obtain ⟨n', hstart⟩ := hm.exists_start
    obtain ⟨n, w, m, ht', hline⟩ := hv.line_at_first hil (by omega) fun c hc => by
      obtain ⟨c', hc', hf⟩ := hstart.name.mem l le_rfl hstart.name.lt
      have hw : isWhitespace c' = false := not_whitespace_of_class (by decide) (by decide) hf
      have hne : c' ≠ 0 := by
        rintro rfl
        exact absurd hw (by decide)
      rw [(shown_of_ne_zero hc' hne).2, Option.some.injEq] at hc
      exact hc ▸ hw
    exact ⟨n, w, m, ht', hline ⟨n', hstart⟩⟩
  obtain rfl : k = w' + 1 := by
    have h1 := header_eq_some (a := .nonAtomic).2 ⟨_, hm, rfl⟩
    rw [header_eq_some.2 ⟨_, hv.header_text ht' hshown', rfl⟩] at h1
    simp only [Option.some.injEq, Prod.mk.injEq] at h1
    exact h1.1.symm
  obtain ⟨-, -, -, h1, h2, h3, -⟩ := hv.text ht'
  rcases HeaderChain.apart hv.lines ht' ht with heq | hlt | hlt
  · simp only [headerToken, Pair.node.injEq, List.cons.injEq, true_and, and_true] at heq
    exact Or.inr (by omega)
  · simp only [headerToken, Pair.start_node, Pair.stop_node] at hlt
    exact Or.inl (by omega)
  · obtain ⟨-, -, -, h4, h5, h6, -⟩ := hv.text ht
    simp only [headerToken, Pair.start_node, Pair.stop_node] at hlt
    omega

/-- The headers of the view lead past or in front of every line. -/
theorem ResponseView.past_headers (hv : ResponseView s shown i l h hs x y) (hil : i ≤ l)
    (hc : HeaderChain (redact s shown) p k us) (hpast : Past shown hs p) (hp : l ≤ p) :
    Past shown hs k := by
  induction hc with
  | stop _ => exact hpast
  | @step p m k ts us hm _ ih =>
    obtain ⟨u, hu, -⟩ := header_eq_some.1 (next_eq_some.1 hm)
    have h1 : p ≤ skipTo isWhitespace (redact s shown) .nonAtomic p := le_skipTo
    have h2 := hu.bounds.1
    exact ih (hv.past_header hil hpast hp hu) (by omega)

/-- **The headers of the view go past every line that is shown**, unless
they stop at a name of which the first line's range shows the first byte. -/
theorem ResponseView.passes_lines (hv : ResponseView s shown i l h hs x y) (hil : i ≤ l)
    (hc : HeaderChain (redact s shown) l k us) :
    (∀ j n w m, headerToken j n w m ∈ hs → ShownLine shown j w → w < k) ∨
      k = l ∧ ∃ c, (redact s shown)[l]? = some c ∧ isHeaderNameChar c = true := by
  have hstart : Past shown hs l := fun j n w m ht _ => Or.inl (hv.text ht).2.2.1
  have hpast := hv.past_headers hil hc hstart le_rfl
  have hlk := HeaderChain.le hc
  refine or_iff_not_imp_right.2 fun hno j n w m ht hshown => ?_
  refine (hpast j n w m ht hshown).resolve_left fun hkj => ?_
  obtain ⟨hqj, hq⟩ := hv.next_line hpast hlk ht hshown hkj rfl
  have hstop := next_eq_none.1 hc.stops
  rcases hq with hq | ⟨n', w', m', ht', hshown'⟩
  · -- the headers stop at the byte after the first line
    have hkq : k ≤ skip (redact s shown) .nonAtomic k := le_skipTo
    obtain rfl : k = l := by omega
    obtain ⟨-, -, -, h1, h2, h3, h4⟩ := hv.text ht
    have hnw : ∀ c, s[k]? = some c → isWhitespace c = false := by
      intro c hc'
      exact stops_skip hq.symm c ((getElem?_redact_of_shown (hv.first k hil le_rfl)).trans hc')
    obtain ⟨n', w', m', ht', -⟩ := hv.line_at_first hil (by omega) hnw
    obtain ⟨hname, -, -, h5, -⟩ := hv.text ht'
    obtain ⟨c, hc', hf⟩ := hname.name.mem k le_rfl h5
    exact hno ⟨rfl, c, (getElem?_redact_of_shown (hv.first k hil le_rfl)).trans hc', hf⟩
  · rw [← Syntax.skip, header_eq_some.2 ⟨_, hv.header_text ht' hshown', rfl⟩] at hstop
    exact absurd hstop (by simp)

/-! ## The lines of the view -/

/-- **The lines of a view**, in order: each line that is shown, up to the
byte after its value. -/
inductive ShownLines (shown : ℕ → Bool) : List Token → List Token → Prop
  | nil : ShownLines shown [] []
  | shown {j n w m : ℕ} {hs us : List Token} : ShownLine shown j w → ShownLines shown hs us →
      ShownLines shown (headerToken j n w m :: hs) (headerToken j n w (w + 1) :: us)
  | hidden {j n w m : ℕ} {hs us : List Token} : ¬ ShownLine shown j w → ShownLines shown hs us →
      ShownLines shown (headerToken j n w m :: hs) us

/-- **The byte behind the first line**, which is shown with it, starts no
line that is hidden: it is whitespace, or of a line that is shown, or the
first byte of the document. -/
def FirstByte (s : List UInt8) (shown : ℕ → Bool) (l : ℕ) (hs : List Token) (x : ℕ) : Prop :=
  ∀ c, s[l]? = some c → isWhitespace c = true ∨
    (∃ n w m, headerToken l n w m ∈ hs ∧ ShownLine shown l w) ∨ x = l

theorem allIn_redact (h : AllIn isWhitespace s p q) : AllIn isWhitespace (redact s shown) p q := by
  intro k h1 h2
  obtain ⟨c, hc, hw⟩ := h k h1 h2
  by_cases hk : shown k = true
  · exact ⟨c, (getElem?_redact_of_shown hk).trans hc, hw⟩
  · exact ⟨0, getElem?_redact_of_hidden (by simpa using hk) (lt_length hc), by decide⟩

theorem allIn_skip {d : List UInt8} : AllIn isWhitespace d p (skip d .nonAtomic p) := by
  intro k h1 h2
  exact of_lt_skipTo h1 h2

/-- A line is known by where it starts. -/
theorem ResponseView.line_end_eq (hv : ResponseView s shown i l h hs x y) {n' w' m' : ℕ}
    (ht : headerToken j n w m ∈ hs) (ht' : headerToken j n' w' m' ∈ hs) : w' = w := by
  obtain ⟨-, -, -, h1, h2, h3, -⟩ := hv.text ht
  obtain ⟨-, -, -, h4, h5, h6, -⟩ := hv.text ht'
  rcases HeaderChain.apart hv.lines ht ht' with heq | hlt | hlt
  · simp only [headerToken, Pair.node.injEq, List.cons.injEq, true_and, and_true] at heq
    exact heq.2.2.2.symm
  · simp only [headerToken, Pair.stop_node, Pair.start_node] at hlt
    omega
  · simp only [headerToken, Pair.stop_node, Pair.start_node] at hlt
    omega

/-- A line that is hidden is whitespace in the view. -/
theorem ResponseView.blank_line (hv : ResponseView s shown i l h hs x y)
    (hfirst : FirstByte s shown l hs x) (ht : headerToken j n w m ∈ hs)
    (hhidden : ¬ ShownLine shown j w) : AllIn isWhitespace (redact s shown) j m := by
  obtain ⟨hstart, hend, h1, h2, h3, h4, h5⟩ := hv.text ht
  have hlt : m ≤ s.length := hend.newline.bounds.2
  have hdoc := hv.document
  intro k hk1 hk2
  refine ⟨0, getElem?_redact_of_hidden ?_ (by omega), by decide⟩
  by_contra hshown
  have hshown : shown k = true := by simpa using hshown
  rcases Nat.eq_or_lt_of_le (h1.trans hk1) with rfl | hlk
  · -- the first byte of the line would be the byte behind the first line
    obtain rfl : j = l := by omega
    obtain ⟨c, hc, hf⟩ := hstart.name.mem j le_rfl h2
    rcases hfirst c hc with hw | ⟨n', w', m', ht', hline⟩ | hx
    · have hnot : isWhitespace c = false := not_whitespace_of_class (by decide) (by decide) hf
      rw [hw] at hnot
      exact absurd hnot (by simp)
    · exact hhidden (hv.line_end_eq ht ht' ▸ hline)
    · omega
  · exact hhidden (hv.line ht hk1 hk2 hlk hshown).1

/-- **The lines of the view are read one after the other.** Between them
and behind them there is whitespace. -/
theorem ResponseView.read_lines (hv : ResponseView s shown i l h hs x y)
    (hfirst : FirstByte s shown l hs x) (hc : HeaderChain s p k us) (hmem : ∀ u ∈ us, u ∈ hs)
    (hqp : q ≤ p) (hws : AllIn isWhitespace (redact s shown) q p) :
    ∃ q' us', ShownLines shown us us' ∧ q ≤ q' ∧ q' ≤ k ∧
      AllIn isWhitespace (redact s shown) q' k ∧
      ∀ m ts, HeaderChain (redact s shown) q' m ts → HeaderChain (redact s shown) q m (us' ++ ts) := by
  induction hc generalizing q with
  | stop _ => exact ⟨q, [], ShownLines.nil, le_rfl, hqp, hws, fun _ _ hrest => hrest⟩
  | @step p m k ts us hm hrest ih =>
    obtain ⟨u, hu, rfl⟩ := header_eq_some.1 (next_eq_some.1 hm)
    have ht := hmem u (by simp)
    have hmem' : ∀ u ∈ us, u ∈ hs := fun u hu => hmem u (by simp [hu])
    obtain ⟨j, n, w, m', rfl⟩ := hv.full u ht
    obtain ⟨hj, hm'⟩ := hu.span
    simp only [headerToken, Pair.start_node, Pair.stop_node] at hj hm'
    subst hm'
    have hpj : p ≤ j := hj ▸ le_skipTo
    obtain ⟨hstart, hend, -, h2, h3, h4, -⟩ := hv.text ht
    have hfront : AllIn isWhitespace (redact s shown) q j := by
      refine hws.append (allIn_redact ?_)
      rw [hj]
      exact allIn_skip
    by_cases hshown : ShownLine shown j w
    · -- the line is read, and the byte left of its end is whitespace
      have hback : AllIn isWhitespace (redact s shown) (w + 1) m' := by
        refine allIn_redact fun k h5 h6 => ?_
        rcases hend.newline with ⟨-, rfl⟩ | ⟨-, ⟨hn, rfl⟩ | ⟨-, rfl⟩⟩
        · omega
        · obtain rfl : k = w + 1 := by omega
          exact ⟨_, hn, by decide⟩
        · omega
      obtain ⟨q', us', hlines, h5, h6, hws', hread⟩ := ih hmem' (show w + 1 ≤ m' by omega) hback
      refine ⟨q', headerToken j n w (w + 1) :: us', ShownLines.shown hshown hlines, by omega, h6, hws',
        fun m ts hts => ?_⟩
      obtain ⟨c, hc, hf⟩ := hstart.name.mem j le_rfl h2
      have hskip : skip (redact s shown) .nonAtomic q = j := by
        rw [skip_nonAtomic]
        refine Peg.runEnd_eq (by omega) hfront ?_
        exact Stops.of_eq ((getElem?_redact_of_shown (hshown j le_rfl (by omega))).trans hc)
          (not_whitespace_of_class (by decide) (by decide) hf)
      have hline : Grammar.header (redact s shown) .nonAtomic (skip (redact s shown) .nonAtomic q) =
          some (w + 1, [headerToken j n w (w + 1)]) := by
        rw [hskip]
        exact header_eq_some.2 ⟨_, hv.header_text ht hshown, rfl⟩
      have hstep : HeaderChain (redact s shown) q m ([headerToken j n w (w + 1)] ++ (us' ++ ts)) :=
        Chain.step (next_eq_some.2 hline) (hread m ts hts)
      exact hstep
    · have hback := hfront.append (hv.blank_line hfirst ht hshown)
      obtain ⟨q', us', hlines, h5, h6, hws', hread⟩ := ih hmem' (show q ≤ m' by omega) hback
      exact ⟨q', us', ShownLines.hidden hshown hlines, h5, h6, hws', hread⟩

/-- Behind the lines, up to the document, there is whitespace. -/
theorem ResponseView.blank_behind (hv : ResponseView s shown i l h hs x y)
    (hfirst : FirstByte s shown l hs x) (hx : x ≤ s.length) :
    AllIn isWhitespace (redact s shown) h x := by
  intro k h1 h2
  have hlh := HeaderChain.le hv.lines
  by_cases hk : shown k = true
  · -- only the byte behind the first line may be shown there
    have hkl : k ≤ l := by
      rcases (hv.parts hk).2 with hle | ⟨t, ht, -, hlt⟩ | ⟨hle, -⟩
      · exact hle
      · have := (HeaderChain.mem hv.lines ht).2.2
        omega
      · omega
    obtain rfl : k = l := by omega
    have hlt : k < s.length := by omega
    rcases hfirst _ (List.getElem?_eq_getElem hlt) with hw | ⟨n, w, m, ht, -⟩ | rfl
    · exact ⟨_, (getElem?_redact_of_shown hk).trans (List.getElem?_eq_getElem hlt), hw⟩
    · obtain ⟨-, -, -, h3, h4, h5, h6⟩ := hv.text ht
      omega
    · omega
  · exact ⟨0, getElem?_redact_of_hidden (by simpa using hk) (by omega), by decide⟩

/-- **The header section of the view**: its lines are those that are shown,
where what follows starts no header. -/
theorem ResponseView.header_section (hv : ResponseView s shown i l h hs x y)
    (hfirst : FirstByte s shown l hs x) (hx : x ≤ s.length)
    (hnext : ∀ c, (redact s shown)[skip (redact s shown) .nonAtomic x]? = some c →
      isHeaderNameChar c = false) :
    ∃ q us, HeaderChain (redact s shown) l q us ∧ ShownLines shown hs us ∧
      skip (redact s shown) .nonAtomic q = skip (redact s shown) .nonAtomic x := by
  obtain ⟨q, us, hlines, -, hqh, hws, hread⟩ :=
    hv.read_lines hfirst hv.lines (fun _ hu => hu) le_rfl (fun k h1 h2 => absurd h1 (by omega))
  have hqx : q ≤ x := hqh.trans hv.document
  have hback := hws.append (hv.blank_behind hfirst hx)
  have hskip : skip (redact s shown) .nonAtomic q = skip (redact s shown) .nonAtomic x := by
    have hle : x ≤ skip (redact s shown) .nonAtomic x := le_skipTo
    conv_lhs => rw [skip_nonAtomic]
    exact Peg.runEnd_eq (hqx.trans hle) (hback.append allIn_skip) (stops_skip rfl)
  have hnone : Grammar.header (redact s shown) .nonAtomic (skip (redact s shown) .nonAtomic q) = none := by
    rw [Option.eq_none_iff_forall_ne_some]
    rintro ⟨k, ts⟩ hheader
    obtain ⟨u, hu, -⟩ := header_eq_some.1 hheader
    obtain ⟨n, hstart⟩ := hu.exists_start
    obtain ⟨c, hc, hf⟩ := hstart.name.mem _ le_rfl hstart.name.lt
    rw [hnext c (hskip ▸ hc)] at hf
    exact absurd hf (by simp)
  refine ⟨q, us, ?_, hlines, hskip⟩
  rw [← List.append_nil us]
  exact hread q [] (Chain.stop (next_eq_none.2 hnone))

/-! ## The body -/

/-- A redacted body does not start at a byte of a header name. -/
theorem not_redacted_of_name {d : List UInt8} {e : ℕ} (hb : RedactedBodyText d i e t us k l)
    {c : UInt8} (hc : d[i]? = some c) : isHeaderNameChar c = false := by
  by_contra hf
  have hname : isHeaderNameChar c = true := by simpa using hf
  rcases hb.opening hc (not_whitespace_of_class (by decide) (by decide) hname) with rfl | rfl
  · exact absurd hname (by decide)
  · exact absurd hname (by decide)

/-- **The pairs of a redacted body lie in the document.** -/
theorem ResponseView.pair_in_document (hv : ResponseView s shown i l h hs x y) (hil : i ≤ l)
    {hs' : List Token} {h' e b q : ℕ} (hc : HeaderChain (redact s shown) l h' hs')
    (hb : RedactedBodyText (redact s shown) (skip (redact s shown) .nonAtomic h') e t us m n)
    (hle : skip (redact s shown) .nonAtomic h' ≤ b) (hk : KeyColon (redact s shown) b q) :
    x ≤ b ∧ q + 1 < y := by
  have hlh := HeaderChain.le hc
  have hskip : h' ≤ skip (redact s shown) .nonAtomic h' := le_skipTo
  have hbq := hk.lt
  obtain ⟨hshown, hquote⟩ := shown_of_ne_zero hk.opening (by decide)
  have hcolon := (shown_of_ne_zero hk.colon (by decide)).1
  have hpasses : ∀ j n w m, headerToken j n w m ∈ hs → ShownLine shown j w → w < h' := by
    refine (hv.passes_lines hil hc).resolve_right ?_
    rintro ⟨rfl, c, hc', hname⟩
    have hstay := skip_self (a := .nonAtomic) hc'
      (not_whitespace_of_class (by decide) (by decide) hname)
    rw [hstay] at hb
    rw [not_redacted_of_name hb hc'] at hname
    exact absurd hname (by simp)
  have hdoc := hv.document
  have hlh' := HeaderChain.le hv.lines
  -- the quote is no byte of the first line, nor of a header line
  have hxb : x ≤ b := by
    by_contra hlt
    rcases Nat.eq_or_lt_of_le (show l ≤ b by omega) with rfl | hlb
    · rcases Nat.eq_or_lt_of_le hlh' with rfl | hlt'
      · -- there is no header line, so the key is in the document
        obtain ⟨c, hc', hf⟩ := hk.key.mem (l + 1) le_rfl hbq
        have hne : c ≠ 0 := by
          rintro rfl
          exact absurd hf (by decide)
        obtain ⟨hkey, hc'⟩ := shown_of_ne_zero hc' hne
        rcases (hv.parts hkey).2 with hle' | ⟨u, hu, h1, h2⟩ | ⟨hle', -⟩
        · omega
        · have := HeaderChain.mem hv.lines hu
          omega
        · obtain rfl : x = l + 1 := by omega
          rw [hv.opening c hc'] at hf
          exact absurd hf (by simp)
      · obtain ⟨n', w', m', ht, -⟩ := hv.line_at_first hil hlt' fun c hc' => by
          rw [hquote, Option.some.injEq] at hc'
          rw [← hc']
          decide
        obtain ⟨hname, -, -, h1, -⟩ := hv.text ht
        obtain ⟨c, hc', hf⟩ := hname.name.mem l le_rfl h1
        rw [hquote, Option.some.injEq] at hc'
        rw [← hc'] at hf
        exact absurd hf (by decide)
    · obtain ⟨j, n', w', m', ht, -, hbw, hline⟩ := hv.exists_line hshown hlb (by omega)
      have := hpasses _ _ _ _ ht hline
      omega
  exact ⟨hxb, hv.lt_stop hcolon (by omega) (by omega)⟩

section Entries

variable [ToLowercase] {r : RedactedResponse} {field : RedactedBody} {d e : ℕ} {path : String}

/-- **A pair of the view**, which lies in the document. -/
structure ViewPair (s : List UInt8) (shown : ℕ → Bool) (x y : ℕ) (u : Token) : Prop where
  text : RedactedText (redact s shown) u.start u.stop u
  stops : Stops isNumberNext (redact s shown) u.stop
  start : x ≤ u.start
  colon : ∀ q, KeyColon (redact s shown) u.start q → q + 1 < y

/-- **What is read of a view**: header lines, and pairs of the document. -/
structure ReadsPairs (s : List UInt8) (shown : ℕ → Bool) (x y l h : ℕ) (hs : List Token) (e : ℕ)
    (t : Token) (us : List Token) (k m : ℕ) : Prop where
  lines : HeaderChain (redact s shown) l h hs
  body : RedactedBodyText (redact s shown) (skip (redact s shown) .nonAtomic h) e t us k m
  stop : (redact s shown).length ≤ skip (redact s shown) .nonAtomic e
  pair : ∀ u ∈ t :: us, ViewPair s shown x y u

/-- **An entry the view is read to have** comes from a pair of the document, the
last one of its key that is read. -/
theorem ResponseView.last_entry (hv : ResponseView s shown i l h hs x y)
    (hi : i = skip s .nonAtomic 0) (hst : StatusLineText s i d l)
    (hr : parseRedactedResponse (redact s shown) = .ok r) (hf : r.body.lookup path = some field) :
    ∃ h' hs' e t us k m, ReadsPairs s shown x y l h' hs' e t us k m ∧
      ∃ u ∈ t :: us, redactedKey (redact s shown) u = path ∧ redactedField u = field ∧
        ∀ v ∈ t :: us, redactedKey (redact s shown) v = path → v.start ≤ u.start := by
  obtain ⟨d', l', hs', h', bs, e, ps, t, us, k, m, hread, rfl, ht, hlast⟩ := last_of_lookup hr hf
  obtain rfl : l' = l := hv.first_line hi hst hread.text.status
  have hil : i ≤ l' := hst.lt.le
  refine ⟨h', hs', e, t, us, k, m, ⟨hread.text.message.headers, ht, hread.text.message.stop,
    fun u hu => ?_⟩, hlast⟩
  obtain ⟨b, j, hred, hstop⟩ := ht.stops hread.text.message.stop hu
  obtain ⟨b', j', hle, -, hred'⟩ := ht.mem hu
  obtain ⟨rfl, rfl⟩ := hred.span
  obtain ⟨q, ws, -, hk, -⟩ := hred.token
  have hdoc : ∀ q, KeyColon (redact s shown) u.start q → x ≤ u.start ∧ q + 1 < y := fun q hk =>
    hv.pair_in_document hil hread.text.message.headers ht (hred'.span.1 ▸ hle) hk
  exact ⟨hred, hstop, (hdoc q hk).1, fun q hk => (hdoc q hk).2⟩

/-- So it comes from a pair of the document. -/
theorem ResponseView.entry (hv : ResponseView s shown i l h hs x y)
    (hi : i = skip s .nonAtomic 0) (hst : StatusLineText s i d l)
    (hr : parseRedactedResponse (redact s shown) = .ok r) (hf : r.body.lookup path = some field) :
    ∃ u, ViewPair s shown x y u ∧ redactedKey (redact s shown) u = path ∧
      redactedField u = field := by
  obtain ⟨h', hs', e, t, us, k, m, hread, u, hu, hkey, hfield, -⟩ := hv.last_entry hi hst hr hf
  exact ⟨u, hread.pair u hu, hkey, hfield⟩

end Entries

end TlsnDemo
