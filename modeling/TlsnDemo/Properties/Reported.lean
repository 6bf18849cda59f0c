import TlsnDemo.Properties.Members

/-!
# The fields of a report are members of the document

The prover selects by path, the verifier reads by key. Whatever a
configuration reveals of a response, each text the verifier reports is the
value of a member of its document under that key that is revealed whole,
from the quote in front of its key to the end of its value; of several such
members it is the last that lies in no other member that is revealed
(`reported_members`). It need not be the member the path leads to, unless
this is the only one under the key that is revealed.
-/

namespace TlsnDemo

open Peg Support Syntax PathNode

variable {s : List UInt8} {shown : ℕ → Bool} {i j k l h e x y m : ℕ} {hs us bs : List Token}
  {root t u : Token} {n p : PathNode} {name : String} {text : List UInt8}

/-! ## Members of a key -/

/-- **A member by its key**: a node of the document whose path ends with
the key. -/
structure MemberNamed (s : List UInt8) (root : Token) (name : String) (n : PathNode) : Prop where
  node : TreeNode s root n
  key : n.path.getLast? = some (.key name)

/-- **A member that is revealed** by its key: the whole pair is shown, from
the quote in front of the key over the colon to the end of the value. -/
structure RevealedMember (s : List UInt8) (shown : ℕ → Bool) (root : Token) (name : String)
    (n : PathNode) : Prop where
  named : MemberNamed s root name n
  whole : ∀ k, n.token.start ≤ k → k < n.token.stop → shown k = true

/-- A node lies in another one. -/
def PathNode.LiesIn (n p : PathNode) : Prop :=
  p.token.start < n.token.start ∧ n.token.start < p.token.stop

/-- **An outer member**: one that is revealed and lies in no other member that
is shown. -/
structure OuterMember (s : List UInt8) (shown : ℕ → Bool) (root : Token) (name : String)
    (n : PathNode) : Prop where
  revealed : RevealedMember s shown root name n
  outer : ∀ p, ShownMember s shown root p → ¬ n.LiesIn p

/-- **The member that is read under a key**: the last outer one. -/
structure ReadMember (s : List UInt8) (shown : ℕ → Bool) (root : Token) (name : String)
    (n : PathNode) : Prop where
  outer : OuterMember s shown root name n
  last : ∀ n', OuterMember s shown root name n' → n'.token.start ≤ n.token.start

/-- **A text reported for a path**: that of the member that is read under the
last key of the path. The entry of the path, where there is one, is a member
under this key, and the one reported where no other such member is revealed. -/
def ReportedMember (s : List UInt8) (shown : ℕ → Bool) (root : Token)
    (body : StringMap StandardBody) (above : List PathSegment) (name : String)
    (text : List UInt8) : Prop :=
  ∃ n, ReadMember s shown root name n ∧ ValueText s n text ∧
    ∀ field, body.lookup (PathStack.render ⟨above ++ [.key name]⟩) = some field →
      ∃ m, MemberNamed s root name m ∧ m.path = above ++ [.key name] ∧ m.field = field ∧
        ((∀ m', RevealedMember s shown root name m' → m' = m) → n = m)

/-- A node whose path ends with a key is a member. -/
theorem MemberNamed.isMember (h : MemberNamed s root name n) : n.IsMember := by
  obtain ⟨hnode, hkey⟩ := h
  cases hnode with
  | root => simp [PathNode.element] at hkey
  | element _ _ _ => simp [PathNode.element] at hkey
  | member _ _ _ _ => exact ⟨_, _, rfl⟩

/-- The entry of a path that ends with a key is a member under it. -/
theorem IsDocument.entry_named (hd : IsDocument s x y root) {above : List PathSegment}
    {field : StandardBody} (hpath : IsPath (above ++ [.key name]))
    (hl : (bodyMap s root).lookup (PathStack.render ⟨above ++ [.key name]⟩) = some field) :
    ∃ m, MemberNamed s root name m ∧ m.path = above ++ [.key name] ∧ m.field = field := by
  obtain ⟨m, hm, rfl⟩ := hd.lookup_eq_some.1 hl
  have hmpath : m.path = above ++ [.key name] := render_inj (hd.isPath hm.node) hpath hm.name
  exact ⟨m, ⟨hm.node, by rw [hmpath, List.getLast?_concat]⟩, hmpath, rfl⟩

/-- So the text of the member that is read is reported for the path. -/
theorem IsDocument.reportedMember (hd : IsDocument s x y root)
    {above : List PathSegment} (hpath : IsPath (above ++ [.key name]))
    (hn : ReadMember s shown root name n) (htext : ValueText s n text) :
    ReportedMember s shown root (bodyMap s root) above name text := by
  refine ⟨n, hn, htext, fun field hl => ?_⟩
  obtain ⟨m, hm, hmpath, hfield⟩ := hd.entry_named hpath hl
  exact ⟨m, hm, hmpath, hfield, fun honly => honly n hn.outer.revealed⟩

/-! ## Where members lie -/

/-- A member starts with a quote, and no colon stands behind it. -/
theorem IsDocument.member_start (hd : IsDocument s x y root) (hn : TreeNode s root n)
    (hm : n.IsMember) : s[n.token.start]? = some quote ∧ s[n.token.start + 1]? ≠ some colon ∧
      n.token.start < n.token.stop ∧ x < n.token.start := by
  obtain ⟨i, j, keyPair, valuePair, above, rfl, hp, hocc⟩ := hd.member_pair hn hm
  have hx : x < i := by
    rcases occurs_singleton.1 hocc with heq | hin
    · have hroot := hd.root.1
      rw [← heq] at hroot
      exact absurd hroot (by simp)
    · exact (hd.derives.value_inner_lt hin).1
  have hlt := hp.lt
  cases hp with
  | pair hq hkb hk _ _ _ _ _ _ =>
    refine ⟨hq, fun hcolon => ?_, hlt, hx⟩
    have hcolon' : s[i + 1]? = some colon := hcolon
    obtain ⟨c, hc, hkey⟩ := hk.first
    rw [hkb, skip_self hcolon' (by decide), hcolon', Option.some.injEq] at hc
    rw [← hc] at hkey
    exact absurd hkey (by decide)

/-- **A member that starts within another one** lies below its value. -/
theorem IsDocument.member_inside (hd : IsDocument s x y root) (hn : TreeNode s root n)
    (hm : n.IsMember) (hp : TreeNode s root p) (hmp : p.IsMember) (hin : n.LiesIn p) :
    Occurs n.token p.valueToken.intoInner ∧ n.token.stop ≤ p.token.stop := by
  obtain ⟨i, j, keyPair, valuePair, above, rfl, hpair, hocc⟩ := hd.member_pair hp hmp
  obtain ⟨i', j', keyPair', valuePair', above', rfl, -, hocc'⟩ := hd.member_pair hn hm
  obtain ⟨hlt, hlt'⟩ := hin
  simp only [PathNode.member, Pair.start_node, Pair.stop_node] at hlt hlt'
  have hbelow : Occurs (.node .pair i' j' [keyPair', valuePair'])
      (Pair.node Rule.pair i j [keyPair, valuePair]).intoInner := by
    have hle := (hd.derives.bounds hocc).2.1
    have hle' := (hd.derives.bounds hocc').2.1
    rcases hd.derives.laminar hocc hocc' (by simp) (by simp) with heq | hin | hin | hlt | hlt
    · simp only [Pair.node.injEq, true_and] at heq
      omega
    · exact hin
    · have := (hd.derives.inner_bounds hocc' hin).1
      simp only [Pair.start_node] at this
      omega
    · simp only [Pair.start_node, Pair.stop_node] at hlt
      omega
    · simp only [Pair.start_node, Pair.stop_node] at hlt hle'
      omega
  refine ⟨?_, (hd.derives.inner_bounds hocc hbelow).2.2⟩
  obtain ⟨hkey, hnone, -, -, -, v, -, hval⟩ := hpair.pair_ranges
  have hvalue : valuePair.asRule ≠ .pair := by
    obtain ⟨w, hw, hrule, -⟩ := hval.value_token
    simp only [List.cons.injEq, and_true] at hw
    subst hw
    intro heq
    rw [heq] at hrule
    exact absurd hrule (by decide)
  rcases occurs_cons.1 hbelow with rfl | hbelow | hbelow
  · exact absurd hkey (by simp)
  · exact absurd (hnone ▸ hbelow) not_occurs_nil
  · rcases occurs_singleton.1 hbelow with rfl | hbelow
    · exact absurd rfl hvalue
    · exact hbelow

/-- No member starts in a key of the view, or in the colon behind it. -/
theorem IsDocument.not_in_key {b q : ℕ} (hd : IsDocument s x y root) (hn : TreeNode s root n)
    (hm : n.IsMember) (hk : KeyColon (redact s shown) b q) (hlt : b < n.token.start) :
    q + 2 ≤ n.token.start := by
  obtain ⟨hquote, hcolon, -, -⟩ := hd.member_start hn hm
  have hk' : KeyColon s b q := KeyColon.transfer hk (agree_redact hk.solid) le_rfl
  by_contra hin
  rcases Nat.lt_trichotomy n.token.start q with hkey | heq | hbehind
  · obtain ⟨c, hc, hf⟩ := hk'.key.mem _ hlt hkey
    rw [hquote, Option.some.injEq] at hc
    rw [← hc] at hf
    exact absurd hf (by decide)
  · exact hcolon (heq ▸ hk'.colon)
  · have heq : n.token.start = q + 1 := by omega
    rw [heq, hk'.colon] at hquote
    exact absurd hquote (by decide)

/-! ## Headers and pairs of the view -/

/-- **A header of the view that goes into the document** starts in it. -/
theorem ResponseView.header_in_document {n v z c : ℕ} (hv : ResponseView s shown i l h hs x y)
    (hd : IsDocument s x y root) (hstart : HeaderStart (redact s shown) j n)
    (hend : HeaderEnd (redact s shown) (n + 2) v z) (hl : l ≤ j) (hx : x ≤ c) (hc : c < v) :
    x ≤ j := by
  by_contra hlt
  have hname := hstart.name.lt
  -- the byte behind the first one is of the name, or the colon
  obtain ⟨b, hb, hclass⟩ : ∃ b, (redact s shown)[j + 1]? = some b ∧
      (isHeaderNameChar b = true ∨ b = colon) := by
    rcases Nat.eq_or_lt_of_le (show j + 1 ≤ n from hname) with heq | hlt
    · exact ⟨_, heq ▸ hstart.colon, Or.inr rfl⟩
    · obtain ⟨b, hb, hf⟩ := hstart.name.mem (j + 1) (by omega) hlt
      exact ⟨b, hb, Or.inl hf⟩
  have hne : b ≠ 0 := by
    rintro rfl
    rcases hclass with hf | hf <;> exact absurd hf (by decide)
  obtain ⟨hshown, hb'⟩ := shown_of_ne_zero hb hne
  rcases Nat.eq_or_lt_of_le (show j + 1 ≤ x by omega) with heq | hjx
  · obtain ⟨bracket, hopen⟩ := hd.opening
    rw [heq, hopen, Option.some.injEq] at hb'
    subst hb'
    rcases hclass with hf | hf
    · rw [bracket.not_headerNameChar.1] at hf
      exact absurd hf (by simp)
    · exact bracket.not_headerNameChar.2 hf
  · -- so it is of a line that is shown, which ends in front of the document
    obtain ⟨j', n', w, m, ht, hj', hw, hline⟩ := hv.exists_line hshown (by omega) hjx
    obtain ⟨-, hend', -, -, -, hwm, hmh⟩ := hv.text ht
    have hdoc := hv.document
    have hlast : (redact s shown)[w]? = s[w]? := getElem?_redact_of_shown (hline w (by omega) le_rfl)
    obtain ⟨hn, hr⟩ := not_newline_of_line hstart hend.value (show j ≤ w by omega) (by omega)
    rcases hend'.newline with ⟨hb, -⟩ | ⟨hb, -⟩
    · exact hn (hlast.trans hb)
    · exact hr (hlast.trans hb)

/-- The bytes of a header of the view are shown. -/
theorem shown_of_line {n v : ℕ} (hstart : HeaderStart (redact s shown) j n)
    (hvalue : RunText isHeaderValueChar (redact s shown) (n + 2) v) (h1 : j ≤ k) (h2 : k < v) :
    shown k = true := by
  have hclass : ∀ {f : UInt8 → Bool}, f 0 = false →
      (∃ c, (redact s shown)[k]? = some c ∧ f c = true) → shown k = true := by
    rintro f hzero ⟨c, hc, hf⟩
    refine (shown_of_ne_zero hc ?_).1
    rintro rfl
    rw [hzero] at hf
    exact absurd hf (by simp)
  rcases Nat.lt_or_ge k n with hlt | hge
  · exact hclass (by decide) (hstart.name.mem k h1 hlt)
  · rcases Nat.lt_or_ge k (n + 2) with hlt | hge'
    · obtain rfl | rfl : k = n ∨ k = n + 1 := by omega
      · exact (shown_of_ne_zero hstart.colon (by decide)).1
      · exact (shown_of_ne_zero hstart.space (by decide)).1
    · exact hclass (by decide) (hvalue.mem k hge' h2)

/-- In the document, the colon of such a header stands in a string. -/
theorem IsDocument.string_of_header {n : ℕ} (hd : IsDocument s x y root)
    (hstart : HeaderStart (redact s shown) j n) (hx : x ≤ j) (hy : n < y) :
    ∃ σ o q, Occurs σ [root] ∧ σ.asRule = .string ∧ InQuotes s (extractRange σ) o q ∧ x ≤ o ∧
      σ.start ≤ n ∧ n < σ.stop := by
  have hname := hstart.name.lt
  obtain ⟨k, rfl⟩ : ∃ k, n = k + 1 := ⟨n - 1, by omega⟩
  obtain ⟨c, hc, hf⟩ := hstart.name.mem k (by omega) (Nat.lt_succ_self k)
  have hne : ∀ {b : UInt8}, isHeaderNameChar b = false → c ≠ b := by
    rintro b hb rfl
    rw [hb] at hf
    exact absurd hf (by simp)
  obtain ⟨σ, hσ, hrule, h1, h2⟩ := hd.derives.string_of_colon (by omega) hy
    (shown_of_ne_zero hstart.colon (by decide)).2 (shown_of_ne_zero hc (hne (by decide))).2
    (not_whitespace_of_class (by decide) (by decide) hf) (hne (by decide))
  obtain ⟨o, z, hxo, -, hval⟩ := hd.derives.value_of_occurs hσ (by rw [hrule]; rfl)
  obtain ⟨q, rfl⟩ : ∃ q, z = q + 1 := ⟨z - 1, by have := hval.lt; omega⟩
  exact ⟨σ, o, q, hσ, hrule, hval.inQuotes hrule, hxo, h1, h2⟩

/-- A quote that is shown behind the headers of the view is in a pair of it. -/
theorem ReadsPairs.pair_at (hread : ReadsPairs s shown x y l h hs e t us k m)
    (hle : skip (redact s shown) .nonAtomic h ≤ j) (hq : (redact s shown)[j]? = some quote) :
    ∃ v ∈ t :: us, ViewPair s shown x y v ∧ v.start ≤ j ∧ j < v.stop := by
  have hlt : j < e := by
    by_contra hge
    obtain ⟨c, hc, hw⟩ := of_lt_skipTo (f := isWhitespace) (a := .nonAtomic) (Nat.le_of_not_lt hge)
      ((lt_length hq).trans_le hread.stop)
    rw [hq, Option.some.injEq] at hc
    rw [← hc] at hw
    exact absurd hw (by decide)
  rcases hread.body.cover hle hlt hq with hw | hpunct | ⟨b, c, v, hv, hred, h1, h2⟩
  · exact absurd hw (by decide)
  · exact absurd hpunct (by decide)
  · obtain ⟨rfl, rfl⟩ := hred.span
    exact ⟨v, hv, hread.pair v hv, h1, h2⟩

/-- Behind a pair without a value, and in front of another pair, no bracket is
shown. -/
theorem ReadsPairs.not_bracket_behind {b : Bracket} {q : ℕ} {v : Token}
    (hread : ReadsPairs s shown x y l h hs e t us k m) (hv : v ∈ t :: us)
    (hbare : v.stop = q + 2) (hu : u ∈ t :: us) (hlt : skip s .nonAtomic (q + 2) < u.start)
    (hopen : s[skip s .nonAtomic (q + 2)]? = some b.opening) :
    shown (skip s .nonAtomic (q + 2)) ≠ true := by
  intro hshown
  have hview := (getElem?_redact_of_shown hshown).trans hopen
  have hle : q + 2 ≤ skip s .nonAtomic (q + 2) := le_skipTo
  have hvstop := (hread.pair v hv).text.bounds.1
  have hfirst := hread.body.first_le hv
  have hend : u.start < e := by
    obtain ⟨c, c', -, hc', hred⟩ := hread.body.mem hu
    obtain ⟨rfl, rfl⟩ := hred.span
    exact hred.bounds.1.trans_le hc'
  rcases hread.body.cover_pairs (by omega) (hlt.trans hend) hview with hw | hpunct | hpair
  · rw [not_whitespace_opening b] at hw
    exact absurd hw (by simp)
  · cases b <;> exact absurd hpunct (by decide)
  · -- a pair with the bracket in it would start with a quote between the two
    obtain ⟨c, c', w, hw, hred, h1, h2⟩ := hpair
    obtain ⟨rfl, rfl⟩ := hred.span
    have hquote := (shown_of_ne_zero hred.opening (by decide)).2
    rcases Nat.eq_or_lt_of_le h1 with heq | hlt'
    · rw [heq, hopen, Option.some.injEq] at hquote
      cases b <;> exact absurd hquote (by decide)
    rcases hread.body.apart hw hv with rfl | hbefore | hafter
    · omega
    · omega
    · have hblank := whitespace_of_lt_skip (by omega) hlt' hquote
      exact absurd hblank (by decide)

/-! ## Which member is read -/

section View

variable [ToLowercase] {config : RevealConfig} {parsed : StandardResponse} {d h' e' : ℕ}
  {ps : List (String × StandardHeader)} {r : RedactedResponse} {hs' : List Token}

/-! The response is read and has a document, and what is shown of it are the
ranges revealed. -/

variable (hr : ReadsResponse s (parseStandardBody s) parsed d l hs h bs e ps)
  (hshown : ∀ k, shown k = true ↔
    ∃ range, Reveals parsed.headers parsed.body (statusLineRange parsed) config range ∧
      range.Contains k)
  (hx : h ≤ x) (hd : IsDocument s x y root) (hbody : parsed.body = bodyMap s root)

include hr hshown hx hd hbody

/-- **Behind the last pair of a key** that is read, a member of the key that is
revealed lies in another one that is shown. -/
theorem shown_around (hread : ReadsPairs s shown x y l h' hs' e' t us k m) (hu : u ∈ t :: us)
    (hlast : ∀ v ∈ t :: us, redactedKey (redact s shown) v = PathStack.render ⟨[.key name]⟩ →
      v.start ≤ u.start)
    (hn : RevealedMember s shown root name n) (hlt : u.start < n.token.start) :
    ∃ p, ShownMember s shown root p ∧ n.LiesIn p := by
  obtain ⟨hnamed, hwhole⟩ := hn
  have hmember := hnamed.isMember
  obtain ⟨hquote, -, hstop, -⟩ := hd.member_start hnamed.node hmember
  have hbehind : skip (redact s shown) .nonAtomic h' ≤ n.token.start := by
    obtain ⟨b, c, hle, -, hred⟩ := hread.body.mem hu
    rw [← hred.span.1] at hle
    omega
  obtain ⟨v, hv, hpair, hle, hin⟩ := hread.pair_at hbehind
    ((getElem?_redact_of_shown (hwhole _ le_rfl hstop)).trans hquote)
  obtain ⟨q, ws, hvu, hk, hws⟩ := hpair.text.parts
  rcases Nat.eq_or_lt_of_le hle with heq | hlt'
  · -- a pair that starts with the member has its key, and is not the last of it
    obtain ⟨above, z, valuePair, hnode, -⟩ :=
      hd.node_of_keyColon hk hpair.start (hpair.colon q hk)
    have hsame := hd.node_eq hnamed.node hnode heq.symm
    have hkey := hnamed.key
    rw [hsame, PathNode.member, List.getLast?_concat, Option.some.injEq,
      PathSegment.key.injEq] at hkey
    have hread : redactedKey (redact s shown) v = PathStack.render ⟨[.key name]⟩ := by
      rw [hvu, ← hkey]
      rfl
    have := hlast v hv hread
    omega
  · rcases hws with ⟨-, hbare⟩ | ⟨w, rfl, hw⟩
    · have := hd.not_in_key hnamed.node hmember hk hlt'
      omega
    · obtain ⟨p, hp, hstart, hstop', -⟩ := member_of_viewPair hr hshown hx hd hbody hpair hk hw
      exact ⟨p, hp, hstart ▸ hlt', hstop' ▸ hin⟩

/-- **No header of the view has a quote of the document.** Its colon would
stand in a string that is shown with both of its quotes, and the first of
them would be in a header before. -/
theorem no_quote_in_headers (hc : HeaderChain (redact s shown) l h' hs') (hj : x ≤ j)
    (hjh : j < h') : (redact s shown)[j]? ≠ some quote := by
  have hv := responseView_document hr hshown hx hd hbody
  induction j using Nat.strong_induction_on with
  | _ j ih =>
    intro hquote
    have hlh := HeaderChain.le hr.text.message.headers
    rcases HeaderChain.cover hc (show l ≤ j by omega) hjh with ⟨b, hb, hw⟩ | ⟨u, hu, h1, h2⟩
    · rw [hquote, Option.some.injEq] at hb
      rw [← hb] at hw
      exact absurd hw (by decide)
    obtain ⟨htext, hlu, -⟩ := HeaderChain.mem hc hu
    obtain ⟨n, v, hu', hnj, hjv, -⟩ := htext.quote_in_value hquote h1 h2
    rw [hu'] at htext
    obtain ⟨-, -, hstart, hend⟩ := htext.parts
    have hname := hstart.name.lt
    have hxu := hv.header_in_document hd hstart hend hlu hj hjv
    obtain ⟨hsj, hqj⟩ := shown_of_ne_zero hquote (by decide)
    have hjy := hv.lt_stop hsj (by omega) hj
    obtain ⟨σ, o, q, hσ, hrule, hin, hxo, hσn, hnσ⟩ :=
      hd.string_of_header hstart hxu (show n < y by omega)
    have hoσ := hin.lt
    have hσq := hin.le
    simp only [extractRange] at hoσ hσq
    -- the string closes in the header, in front of the quote or with it
    have hqj' : q ≤ j := by
      by_contra hlt
      rcases Nat.lt_or_ge j σ.stop with hjσ | hσj
      · exact hd.derives.ne_quote hσ (by rw [hrule]; rfl) (by omega) hjσ hqj
      · have := Blank.le hin.blank' hσj hqj (by decide)
        omega
    have hso := opening_of_closing hr hshown hx hd hbody hσ hrule hin
      (shown_of_line hstart hend.value (by omega) (by omega))
    exact ih o (by omega) hxo (by omega) ((getElem?_redact_of_shown hso).trans hin.opening)

/-- **Around a pair that is read** no member is shown. -/
theorem not_around (hread : ReadsPairs s shown x y l h' hs' e' t us k m) (hu : u ∈ t :: us)
    (hn : TreeNode s root n) (hm : n.IsMember) (hstart : n.token.start = u.start)
    (hp : ShownMember s shown root p) : ¬ n.LiesIn p := by
  rintro ⟨hlt, hin'⟩
  obtain ⟨hquote, -, hstop, hxp⟩ := hd.member_start hp.node hp.member
  have hview : (redact s shown)[p.token.start]? = some quote :=
    (getElem?_redact_of_shown (hp.whole _ le_rfl hstop)).trans hquote
  have hge : skip (redact s shown) .nonAtomic h' ≤ p.token.start := by
    by_contra hlt
    refine no_quote_in_headers hr hshown hx hd hbody hread.lines hxp.le ?_ hview
    by_contra hge
    have hw := whitespace_of_lt_skip (Nat.le_of_not_lt hge) (Nat.lt_of_not_le hlt) hview
    exact absurd hw (by decide)
  obtain ⟨v, hv, hpair, hle, hlt'⟩ := hread.pair_at hge hview
  -- the pair that the start of the member is in ends in front of the one around
  -- which it is
  have hapart : v.stop ≤ u.start := by
    have hustop := (hread.pair u hu).text.bounds.1
    rcases hread.body.apart hv hu with rfl | hbefore | hafter
    · omega
    · exact hbefore
    · omega
  obtain ⟨q, ws, hvu, hk, hws⟩ := hpair.text.parts
  rcases hws with ⟨-, hbare⟩ | ⟨w, rfl, hw⟩
  · rcases Nat.eq_or_lt_of_le hle with heq | hvp
    swap
    · have := hd.not_in_key hp.node hp.member hk hvp
      omega
    -- only the key of the member would be read, but there is a bracket behind it
    obtain ⟨above, z, valuePair, hnode, hvalue⟩ :=
      hd.node_of_keyColon hk hpair.start (hpair.colon q hk)
    have hsame := hd.node_eq hp.node hnode heq.symm
    obtain ⟨hocc, -⟩ := hd.member_inside hn hm hp.node hp.member ⟨hlt, hin'⟩
    rw [hsame] at hocc
    have hocc' : Occurs n.token valuePair.intoInner := hocc
    obtain ⟨b, hopen⟩ := hvalue.opening_of_inner hocc'
    have hbelow := (hvalue.value_inner_lt hocc').1
    have hstop' : p.token.stop = z := by rw [hsame]; rfl
    have hkey := hk.lt
    have hbracket : q + 2 ≤ skip s .nonAtomic (q + 2) := le_skipTo
    exact hread.not_bracket_behind hv hbare hu (by omega) hopen
      (hp.whole _ (by omega) (hstop' ▸ hvalue.lt))
  · obtain ⟨p', hp', hstart', hstop', -⟩ := member_of_viewPair hr hshown hx hd hbody hpair hk hw
    have hstops : p.token.stop ≤ v.stop := by
      rcases Nat.eq_or_lt_of_le hle with heq | hvp
      · rw [hd.node_eq hp.node hp'.node (by omega), hstop']
      · rw [← hstop']
        exact (hd.member_inside hp.node hp.member hp'.node hp'.member ⟨by omega, by omega⟩).2
    omega

/-- **A text that is read** is that of the member that is read under its key. -/
theorem member_of_bodyText (hview : parseRedactedResponse (redact s shown) = .ok r)
    (htext : bodyText r.body (redact s shown) (PathStack.render ⟨[.key name]⟩) = .ok text) :
    ∃ n, ReadMember s shown root name n ∧ ValueText s n text := by
  have hv := responseView_document hr hshown hx hd hbody
  obtain ⟨field, range, hf, hrange, -, rfl⟩ := bodyText_eq_ok.1 htext
  obtain ⟨h', hs', e', t, us, k, m, hread, u, hu, hkey, rfl, hlast⟩ :=
    hv.last_entry rfl hr.text.status hview hf
  have hpair := hread.pair u hu
  obtain ⟨q, ws, hut, hk, hws⟩ := hpair.text.parts
  rcases hws with ⟨rfl, -⟩ | ⟨v, rfl, hval⟩
  · rw [hut] at hrange
    simp [redactedField, redactedToken, fieldRange] at hrange
  rw [hut] at hrange
  simp only [redactedField, redactedToken, Pair.intoInner_node, List.head?_cons, Option.map_some,
    fieldRange, Option.some.injEq] at hrange
  subst hrange
  obtain ⟨n, hn, hstart, -, hpath, htext⟩ :=
    member_of_viewPair hr hshown hx hd hbody hpair hk hval
  have hname : asStr (redact s shown) (.node .key (u.start + 1) q []) = name := by
    rw [hut] at hkey
    exact render_key_inj hkey
  rw [hname] at hpath
  refine ⟨n, ⟨⟨⟨⟨hn.node, hpath⟩, hn.whole⟩, fun p hp => ?_⟩, fun n' hn' => ?_⟩, htext⟩
  · exact not_around hr hshown hx hd hbody hread hu hn.node hn.member hstart hp
  · by_contra hlt
    obtain ⟨p, hp, hin⟩ := shown_around hr hshown hx hd hbody hread hu hlast hn'.revealed
      (by omega)
    exact hn'.outer p hp hin

end View

/-! ## Reports -/

theorem isPath_accounts_CHF : IsPath ([.key "accounts"] ++ [.key "CHF"]) := by
  intro k hk
  simp only [List.cons_append, List.nil_append, List.mem_cons, PathSegment.key.injEq,
    List.not_mem_nil, or_false] at hk
  rcases hk with rfl | rfl
  · exact ⟨bytes "accounts", .compoundAtomic, 0, 8, .node .key 0 8 [], rfl, rfl⟩
  · exact ⟨bytes "CHF", .compoundAtomic, 0, 3, .node .key 0 3 [], rfl, rfl⟩

theorem isPath_last_audit : IsPath ([] ++ [.key "last_audit"]) := by
  intro k hk
  simp only [List.nil_append, List.mem_singleton, PathSegment.key.injEq] at hk
  exact hk ▸ ⟨bytes "last_audit", .compoundAtomic, 0, 10, .node .key 0 10 [], rfl, rfl⟩

section Report

variable [ToLowercase] {tlsn : Tlsn} {config : RevealConfig} {parsed : StandardResponse}

/-- **The fields of a report are members of the document.** Whatever a run
that succeeds reveals, each text the verifier reports is the value, in full,
of a member of the response's document under the key that is revealed whole:
of the entry of the prover's path, where no other member under that key is
revealed. -/
theorem reported_members {out : BalanceOutput} (hp : parseStandardResponse s = .ok parsed)
    (hok : (revealResponse tlsn s config).Succeeds)
    (hout : extractBalance (redact s (revealedBy (revealResponse tlsn s config).calls)) = .ok out) :
    ∃ root, HasDocument s parsed.body root ∧
      ReportedMember s (revealedBy (revealResponse tlsn s config).calls) root parsed.body
        [.key "accounts"] "CHF" out.chfBalance ∧
      ReportedMember s (revealedBy (revealResponse tlsn s config).calls) root parsed.body
        [] "last_audit" out.lastAudit := by
  obtain ⟨-, r, hview, hchf, haudit⟩ := extractBalance_eq_ok.1 hout
  obtain ⟨d, l, hs, h, bs, e, ps, hr⟩ := parseResponseInner_eq_ok.1 hp
  have hshown := fun k => shown_iff (k := k) hp hok
  have hread : ReadsMessage s parsed.headers parsed.body l hs h bs e ps :=
    ⟨hr.text.message.headers, hr.text.message.body, hr.readsHeaders, hr.headers, hr.readsBody⟩
  rcases hread.empty_or_document with hbody | ⟨x, y, root, hx, -, rfl, hd, hbody⟩
  · obtain ⟨field, range, hf, -⟩ := bodyText_eq_ok.1 hchf
    exact absurd hf (not_entry_of_empty hr hshown hbody hview)
  · have hx' : h ≤ x := le_skipTo.trans hx
    have hchfPath : ".CHF" = PathStack.render ⟨[.key "CHF"]⟩ := rfl
    have hauditPath : ".last_audit" = PathStack.render ⟨[.key "last_audit"]⟩ := rfl
    obtain ⟨chf, hn, htext⟩ := member_of_bodyText hr hshown hx' hd hbody hview (hchfPath ▸ hchf)
    obtain ⟨audit, hn', htext'⟩ := member_of_bodyText hr hshown hx' hd hbody hview (hauditPath ▸ haudit)
    refine ⟨root, ⟨⟨_, _, _, _, _, AcceptedAs.response
      (parse_response_eq_some.2 ⟨_, _, _, _, _, _, hr.text, rfl⟩) hp⟩, hd.root.1⟩, ?_⟩
    rw [hbody]
    exact ⟨hd.reportedMember isPath_accounts_CHF hn htext,
      hd.reportedMember isPath_last_audit hn' htext'⟩

end Report

/-- A response with a key in an object and beside it. -/
def keyTwice : List UInt8 :=
  bytes "HTTP/1.1 200 OK\n\n\x7b\"accounts\":\x7b\"CHF\":1\x7d,\"CHF\":2,\"last_audit\":3\x7d"

/-- The member beside it is revealed. -/
def revealBeside : RevealConfig :=
  { revealBodyFields := [.unquoted ".CHF", .unquoted ".last_audit"] }

/-- What that shows of the response. -/
def shownBeside : ℕ → Bool :=
  revealedBy (@revealResponse asciiLowercase acceptAll keyTwice revealBeside).calls

/-- What is seen of that response. -/
def viewBeside : List UInt8 := redact keyTwice shownBeside

theorem succeeds_keyTwice :
    (@revealResponse asciiLowercase acceptAll keyTwice revealBeside).Succeeds :=
  ⟨(), by decide +kernel⟩

theorem extractBalance_keyTwice :
    @extractBalance asciiLowercase viewBeside = .ok ⟨bytes "2", bytes "3"⟩ := by
  decide +kernel

theorem parsedField_keyTwice :
    @parsedField asciiLowercase keyTwice ".accounts.CHF" = some (.keyValue ⟨31, 34⟩ ⟨36, 37⟩) := by
  decide +kernel

/-- The verifier reads the member that is revealed. -/
theorem reported_members_keyTwice :
    ∃ body root, @HasDocument asciiLowercase keyTwice body root ∧
      ReportedMember keyTwice shownBeside root body [.key "accounts"] "CHF" (bytes "2") ∧
      ReportedMember keyTwice shownBeside root body [] "last_audit" (bytes "3") := by
  let _ := asciiLowercase
  obtain ⟨parsed, hp, -⟩ := parsedField_eq_some.1 parsedField_keyTwice
  obtain ⟨root, h⟩ := reported_members hp succeeds_keyTwice extractBalance_keyTwice
  exact ⟨_, root, h⟩

/-- So the value read under the key need not be that of the path. -/
theorem not_forall_path_reported :
    ¬ ∀ (_ : ToLowercase) (tlsn : Tlsn) (s : List UInt8) (config : RevealConfig)
      (parsed : StandardResponse) (out : BalanceOutput), parseStandardResponse s = .ok parsed →
      (revealResponse tlsn s config).Succeeds →
      extractBalance (redact s (revealedBy (revealResponse tlsn s config).calls)) = .ok out →
      (∃ key value, parsed.body.lookup ".accounts.CHF" = some (.keyValue key value) ∧
        out.chfBalance = slice s value) ∧
      ∃ key value, parsed.body.lookup ".last_audit" = some (.keyValue key value) ∧
        out.lastAudit = slice s value := by
  intro hall
  obtain ⟨parsed, hp, hf⟩ :=
    (@parsedField_eq_some _ asciiLowercase _ _).1 parsedField_keyTwice
  obtain ⟨⟨key, value, hl, hchf⟩, -⟩ := hall asciiLowercase _ _ _ _ _ hp succeeds_keyTwice
    extractBalance_keyTwice
  rw [hf, Option.some.injEq, Body.keyValue.injEq] at hl
  obtain ⟨-, rfl⟩ := hl
  exact absurd hchf (by decide +kernel)

end TlsnDemo
