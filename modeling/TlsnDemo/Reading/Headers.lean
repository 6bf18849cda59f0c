import TlsnDemo.Reading.Messages
import TlsnDemo.Syntax.Compact

/-!
# The header lines of a message

The header tokens of a message are its header lines in order, one after
the other. The standard parser accepts a header section in which every
line has a value, and groups the lines by name.
-/

namespace TlsnDemo

open Peg Support Syntax

variable {s : List UInt8} {l h i j : ℕ} {hs : List Token} {t u : Token}

/-- The lines of a header section from `l` up to `h`. -/
abbrev HeaderChain (s : List UInt8) (l h : ℕ) (hs : List Token) : Prop :=
  Chain (next (Peg.satisfy isWhitespace) Grammar.header) s .nonAtomic l h hs

theorem Syntax.HeaderText.span (ht : HeaderText s i j t) : t.start = i ∧ t.stop = j := by
  cases ht <;> exact ⟨rfl, rfl⟩

theorem Syntax.HeaderText.exists_start (ht : HeaderText s i j t) : ∃ n, HeaderStart s i n := by
  cases ht with
  | full hs _ => exact ⟨_, hs⟩
  | bare hs _ => exact ⟨_, hs⟩

theorem HeaderChain.le (hc : HeaderChain s l h hs) : l ≤ h := Chain.le progress_header.next hc

theorem HeaderChain.mem (hc : HeaderChain s l h hs) (ht : t ∈ hs) :
    HeaderText s t.start t.stop t ∧ l ≤ t.start ∧ t.stop ≤ h := by
  induction hc with
  | stop _ => simp at ht
  | @step l m h us vs hm hrest ih =>
    obtain ⟨u, hu, rfl⟩ := header_eq_some.1 (next_eq_some.1 hm)
    have h1 := le_skipTo (f := isWhitespace) (s := s) (a := .nonAtomic) (i := l)
    have h2 := hu.bounds.1
    have h3 := Chain.le progress_header.next hrest
    simp only [List.cons_append, List.nil_append, List.mem_cons] at ht
    rcases ht with rfl | ht
    · obtain ⟨h4, h5⟩ := hu.span
      rw [h4, h5]
      exact ⟨hu, h1, h3⟩
    · obtain ⟨h4, h5, h6⟩ := ih ht
      exact ⟨h4, by omega, h6⟩

/-- A line ends before the next one starts. -/
theorem HeaderChain.pairwise (hc : HeaderChain s l h hs) :
    hs.Pairwise fun t u => t.stop ≤ u.start := by
  induction hc with
  | stop _ => exact List.Pairwise.nil
  | @step l m h us vs hm hrest ih =>
    obtain ⟨u, hu, rfl⟩ := header_eq_some.1 (next_eq_some.1 hm)
    rw [List.cons_append, List.nil_append, List.pairwise_cons]
    refine ⟨fun w hw => ?_, ih⟩
    rw [hu.span.2]
    exact (HeaderChain.mem hrest hw).2.1

/-- **Between the lines there is only whitespace.** -/
theorem HeaderChain.cover {k : ℕ} (hc : HeaderChain s l h hs) (h1 : l ≤ k) (h2 : k < h) :
    (∃ c, s[k]? = some c ∧ isWhitespace c = true) ∨ ∃ t ∈ hs, t.start ≤ k ∧ k < t.stop := by
  induction hc with
  | stop _ => omega
  | @step l m h us vs hm hrest ih =>
    obtain ⟨u, hu, rfl⟩ := header_eq_some.1 (next_eq_some.1 hm)
    obtain ⟨h3, h4⟩ := hu.span
    rcases Nat.lt_or_ge k m with hlt | hge
    · rcases Nat.lt_or_ge k (skip s .nonAtomic l) with hlt' | hge'
      · exact Or.inl (of_lt_skipTo h1 hlt')
      · exact Or.inr ⟨u, List.mem_append_left _ List.mem_cons_self, h3 ▸ hge', h4 ▸ hlt⟩
    · rcases ih hge h2 with hw | ⟨t, ht, h5⟩
      · exact Or.inl hw
      · exact Or.inr ⟨t, List.mem_append_right _ ht, h5⟩

/-- Two lines are the same or apart. -/
theorem HeaderChain.apart (hc : HeaderChain s l h hs) (ht : t ∈ hs) (hu : u ∈ hs) :
    t = u ∨ t.stop ≤ u.start ∨ u.stop ≤ t.start :=
  eq_or_of_pairwise hc.pairwise ht hu

/-! ## A line that is there -/

variable {k m n p w : ℕ}

/-- No byte of a line in front of its end is one that ends a line. -/
theorem not_newline_of_line (hstart : HeaderStart s j n)
    (hvalue : RunText isHeaderValueChar s (n + 2) w) (h1 : j ≤ k) (h2 : k < w) :
    s[k]? ≠ some 0x0a ∧ s[k]? ≠ some 0x0d := by
  have hclass : ∀ {f : UInt8 → Bool}, f 0x0a = false → f 0x0d = false →
      (∃ c, s[k]? = some c ∧ f c = true) → s[k]? ≠ some 0x0a ∧ s[k]? ≠ some 0x0d := by
    rintro f hn hr ⟨c, hc, hf⟩
    rw [hc, ne_eq, ne_eq, Option.some.injEq, Option.some.injEq]
    constructor
    · rintro rfl
      rw [hn] at hf
      exact absurd hf (by simp)
    · rintro rfl
      rw [hr] at hf
      exact absurd hf (by simp)
  rcases Nat.lt_or_ge k n with hlt | hge
  · exact hclass (by decide) (by decide) (hstart.name.mem k h1 hlt)
  · rcases Nat.lt_or_ge k (n + 2) with hlt | hge'
    · obtain rfl | rfl : k = n ∨ k = n + 1 := by omega
      · rw [hstart.colon]
        decide
      · rw [hstart.space]
        decide
    · exact hclass (by decide) (by decide) (hvalue.mem k hge' h2)

/-- **A header that takes in part of a line's name goes past the line.** -/
theorem Syntax.HeaderText.past_line (ht : HeaderText s p k t) (hstart : HeaderStart s j n)
    (hend : HeaderEnd s (n + 2) w m) (hp : p < n) (hk : j < k) : w < k := by
  obtain ⟨c, hc, hname⟩ := hstart.name.mem j le_rfl hstart.name.lt
  cases ht with
  | @full n' v' _ hs he =>
    by_contra hle
    have hlt := he.newline.bounds.1
    rcases Nat.lt_or_ge v' j with hv | hv
    · -- the line would start at the second of the two bytes that end the header
      rcases he.newline with ⟨-, rfl⟩ | ⟨-, ⟨hb, rfl⟩ | ⟨-, rfl⟩⟩
      · omega
      · obtain rfl : j = v' + 1 := by omega
        exact (not_newline_of_line hstart hend.value le_rfl (by omega)).1 hb
      · omega
    · obtain ⟨hn, hr⟩ := not_newline_of_line hstart hend.value hv (by omega)
      rcases he.newline with ⟨hb, -⟩ | ⟨hb, -⟩
      · exact hn hb
      · exact hr hb
  | @bare n' hs hno =>
    -- its name ends at the line's colon, and then its value is that of the line
    have hn' : n' = n := by
      rcases Nat.lt_trichotomy n' n with hlt | heq | hlt
      · rcases Nat.lt_or_ge n' j with hlt' | hge
        · obtain rfl : j = n' + 1 := by omega
          rw [hs.space, Option.some.injEq] at hc
          exact absurd hc.symm (ne_of_class hname (by decide))
        · obtain ⟨c', hc', hname'⟩ := hstart.name.mem n' hge hlt
          rw [hs.colon, Option.some.injEq] at hc'
          exact absurd hc'.symm (ne_of_class hname' (by decide))
      · exact heq
      · obtain ⟨c', hc', hname'⟩ := hs.name.mem n hp.le hlt
        rw [hstart.colon, Option.some.injEq] at hc'
        exact absurd hc'.symm (ne_of_class hname' (by decide))
    subst hn'
    exact absurd hend (hno w m)

/-- **A header section that ends behind the start of a line goes past the
line**, wherever it starts in front of the line's colon. -/
theorem HeaderChain.past_line (hc : HeaderChain s l h hs) (hstart : HeaderStart s j n)
    (hend : HeaderEnd s (n + 2) w m) (hl : l < n) : h ≤ j ∨ w < h := by
  refine or_iff_not_imp_left.2 fun hj => ?_
  have hjh : j < h := by omega
  rcases Nat.lt_or_ge j l with hlt | hge
  · -- the section starts within the name, so it starts with a header
    have hname : RunText isHeaderNameChar s l n :=
      ⟨hl, fun k h1 h2 => hstart.name.mem k (by omega) h2, hstart.name.stops⟩
    obtain ⟨c, hc', hf⟩ := hname.mem l le_rfl hl
    have hskip : skipTo isWhitespace s .nonAtomic l = l :=
      skip_self hc' (not_whitespace_of_class (by decide) (by decide) hf)
    have hheader := header_eq_some (a := .nonAtomic).2
      ⟨_, HeaderText.full ⟨hname, hstart.colon, hstart.space⟩ hend, rfl⟩
    cases hc with
    | stop hnone =>
      rw [next_eq_none, hskip, hheader] at hnone
      exact absurd hnone (by simp)
    | @step _ k _ ts us hm hrest =>
      obtain ⟨u, hu, -⟩ := header_eq_some.1 (next_eq_some.1 hm)
      rw [hskip] at hu
      have hlk := hu.bounds.1
      have hpast := hu.past_line hstart hend hl (by omega)
      exact hpast.trans_le (HeaderChain.le hrest)
  · rcases HeaderChain.cover hc hge hjh with ⟨c, hc', hw⟩ | ⟨t, ht, h1, h2⟩
    · obtain ⟨c', hc'', hf⟩ := hstart.name.mem j le_rfl hstart.name.lt
      rw [hc', Option.some.injEq] at hc''
      subst hc''
      rw [not_whitespace_of_class (by decide) (by decide) hf] at hw
      exact absurd hw (by simp)
    · obtain ⟨htext, -, hth⟩ := HeaderChain.mem hc ht
      have hpast := htext.past_line hstart hend (h1.trans_lt hstart.name.lt) h2
      exact hpast.trans_le hth

/-- A quote in a header line stands in its value. -/
theorem Syntax.HeaderText.quote_in_value (ht : HeaderText s i j t) (hq : s[k]? = some quote)
    (h1 : i ≤ k) (h2 : k < j) :
    ∃ n v, t = headerToken i n v j ∧ n + 2 ≤ k ∧ k < v ∧ NewlineText s v j := by
  have hpos : ∀ {n}, HeaderStart s i n → n + 2 ≤ k := by
    intro n hs
    by_contra hlt
    rcases Nat.lt_or_ge k n with hkn | hkn
    · obtain ⟨c, hc, hf⟩ := hs.name.mem k h1 hkn
      rw [hq, Option.some.injEq] at hc
      rw [← hc] at hf
      exact absurd hf (by decide)
    · rcases Nat.eq_or_lt_of_le hkn with rfl | hgt
      · have := hs.colon
        rw [hq] at this
        exact absurd this (by decide)
      · obtain rfl : k = n + 1 := by omega
        have := hs.space
        rw [hq] at this
        exact absurd this (by decide)
  cases ht with
  | full hs he =>
    refine ⟨_, _, rfl, hpos hs, ?_, he.newline⟩
    by_contra hge
    rename_i n v
    rcases he.newline with ⟨hn, rfl⟩ | ⟨hr, ⟨hn, rfl⟩ | ⟨-, rfl⟩⟩
    · obtain rfl : k = v := by omega
      rw [hq] at hn
      exact absurd hn (by decide)
    · obtain rfl | rfl : k = v ∨ k = v + 1 := by omega
      · rw [hq] at hr
        exact absurd hr (by decide)
      · rw [hq] at hn
        exact absurd hn (by decide)
    · obtain rfl : k = v := by omega
      rw [hq] at hr
      exact absurd hr (by decide)
  | bare hs _ =>
    have := hpos hs
    omega

section

variable [ToLowercase] {headers : StringMap (List StandardHeader)} {body : StringMap StandardBody}
  {ps : List (String × StandardHeader)} {name : String} {header : StandardHeader}

/-- **What the standard parser reads of a header section**: each line has a
name and a value. -/
theorem ReadsHeaders.mem (hc : HeaderChain s l h hs) (hr : ReadsHeaders s hs ps)
    (hp : (name, header) ∈ ps) :
    ∃ i n v j, headerToken i n v j ∈ hs ∧ HeaderStart s i n ∧ HeaderEnd s (n + 2) v j ∧ l ≤ i ∧
      j ≤ h ∧ name = headerKey s i n ∧ header = ⟨⟨i, n⟩, ⟨n + 2, v⟩⟩ := by
  obtain ⟨t, ht, hread⟩ := exists_of_forall₂_right hr hp
  obtain ⟨htext, h1, h2⟩ := hc.mem ht
  generalize hi : t.start = i at htext h1
  generalize hj : t.stop = j at htext h2
  cases htext with
  | full hs hv =>
    rw [parseHeader_standard, Except.ok.injEq, Prod.mk.injEq] at hread
    exact ⟨_, _, _, _, ht, hs, hv, h1, h2, hread.1.symm, hread.2.symm⟩
  | bare hs _ =>
    rw [parseHeader_standard_bare] at hread
    exact absurd hread (by simp)

/-- The lines the standard parser reads have values. -/
theorem ReadsHeaders.full (hc : HeaderChain s l h hs) (hr : ReadsHeaders s hs ps) :
    ∀ u ∈ hs, ∃ i n w j, u = headerToken i n w j := by
  intro u hu
  obtain ⟨p, -, hread⟩ := exists_of_forall₂_left hr hu
  obtain ⟨htext, -, -⟩ := HeaderChain.mem hc hu
  generalize u.start = i, u.stop = j at htext
  cases htext with
  | full _ _ => exact ⟨_, _, _, _, rfl⟩
  | bare _ _ =>
    rw [parseHeader_standard_bare] at hread
    exact absurd hread (by simp)

/-- A header line the configuration reveals is read under a name it gives. -/
theorem ReadsMessage.revealed_header (hr : ReadsMessage s headers body l hs h bs e ps)
    {name : String} {group : List StandardHeader} {header : StandardHeader}
    (hl : headers.lookup (toLowercase name) = some group) (hh : header ∈ group) :
    ∃ i n v j, headerToken i n v j ∈ hs ∧ toLowercase name = headerKey s i n ∧ l ≤ i ∧ i < n ∧
      v < j ∧ j ≤ h ∧ header = ⟨⟨i, n⟩, ⟨n + 2, v⟩⟩ := by
  rw [hr.headers_eq, lookup_pushAll] at hl
  split at hl
  · simp at hl
  · simp only [AList.lookup_empty, Option.getD_none, List.nil_append, Option.some.injEq] at hl
    subst hl
    obtain ⟨i, n, v, j, ht, hs, he, h1, h2, hkey, rfl⟩ :=
      ReadsHeaders.mem hr.lines hr.readsHeaders (mem_valuesOf.1 hh)
    exact ⟨i, n, v, j, ht, hkey, h1, hs.name.lt, he.newline.bounds.1, h2, rfl⟩

end

end TlsnDemo
