import TlsnDemo.Properties.BodyPaths
import TlsnDemo.Properties.Completeness
import TlsnDemo.Properties.Disclosure
import TlsnDemo.Properties.Selection
import TlsnDemo.Reading.Revealed
import TlsnDemo.Syntax.Quotes

/-!
# Members in the view of a response

Whatever rules reveal of a response, its view shows the first line, whole
header lines, and bytes of the document, of which a scalar is shown whole or
not at all. So a pair with a value that is read of the view is a member of
the document that is shown whole (`member_of_viewPair`).
-/

namespace TlsnDemo

open Peg Support Syntax PathNode

variable {s : List UInt8} {shown : ℕ → Bool} {i j k l h e x y : ℕ} {hs bs : List Token}
  {root σ : Token} {p : String}

/-! ## Where the ranges of body rules lie -/

/-- The selected range of an entry takes in its value. -/
theorem IsDocument.value_selected (hd : IsDocument s x y root) {bodyField : StandardBody}
    (hf : (bodyMap s root).lookup p = some bodyField) (field : BodyFieldConfig) :
    (valueSpan bodyField).Within (field.selectionRange bodyField) := by
  rcases hd.entry hf with ⟨-, rfl⟩ | ⟨n, -, -, rfl, hn, -⟩
  · cases field <;> exact ⟨le_rfl, le_rfl⟩
  · cases hn with
    | member hp =>
      obtain ⟨-, -, -, h1, -, v, -, hval⟩ := hp.pair_ranges
      have hkey := (hp.bounds (Occurs.inner Occurs.head)).2.1
      cases field <;>
        simp only [Range.Within, valueSpan, BodyFieldConfig.selectionRange, PathNode.member,
          Range.fullPairQuoted, Range.fullPairUnquoted, Range.extendTo, extractRange] <;> omega
    | element _ => cases field <;> exact ⟨le_rfl, le_rfl⟩

/-- The selected range of an entry lies in the document. -/
theorem IsDocument.selection_within (hd : IsDocument s x y root) {bodyField : StandardBody}
    (hf : (bodyMap s root).lookup p = some bodyField) (field : BodyFieldConfig) :
    (field.selectionRange bodyField).Within ⟨x, y⟩ := by
  refine ⟨hd.selection_start hf field, ?_⟩
  rcases hd.entry hf with ⟨-, rfl⟩ | ⟨n, -, -, rfl, hn, hocc⟩
  · have hspan : field.selectionRange (.value (extractRange root)) = extractRange root := by
      cases field <;> rfl
    rw [hspan]
    exact hd.root.2.2.le
  · cases hn with
    | @member path i j keyPair valuePair hp =>
      obtain ⟨-, -, -, -, h1, -⟩ := hp.pair_ranges
      have h2 : j < y := by
        rcases occurs_singleton.1 hocc with heq | hin
        · have hroot := hd.root.1
          rw [← heq] at hroot
          exact absurd hroot (by simp [PathNode.member])
        · exact (hd.derives.value_inner_lt hin).2
      cases field <;>
        simp only [BodyFieldConfig.selectionRange, PathNode.member, Range.fullPairQuoted,
          Range.fullPairUnquoted, Range.extendTo, extractRange] <;> omega
    | element _ =>
      have hspan : ∀ path value, field.selectionRange (PathNode.element path value).field =
          extractRange value := fun _ _ => by cases field <;> rfl
      rw [hspan]
      exact (hd.derives.bounds hocc).2.2

/-- **A selected range takes in a scalar whole or not at all.** -/
theorem IsDocument.scalar_selected (hd : IsDocument s x y root) {bodyField : StandardBody}
    (hf : (bodyMap s root).lookup p = some bodyField) (field : BodyFieldConfig)
    (hσ : Occurs σ [root]) (hr : isScalar σ.asRule = true) (hk : (extractRange σ).Contains k)
    (hsel : (field.selectionRange bodyField).Contains k) :
    (extractRange σ).Within (field.selectionRange bodyField) := by
  have hin : (extractRange σ).Within (valueSpan bodyField) := by
    by_contra hout
    exact hd.selection_disjoint hf field hσ hr hout hk hsel
  have hvalue := hd.value_selected hf field
  exact ⟨hvalue.1.trans hin.1, hin.2.trans hvalue.2⟩

section Quotes

variable {o q : ℕ} {t keyPair valuePair : Token}

/-- No comma stands between a string and its closing quote. -/
theorem InQuotes.no_comma (h : InQuotes s (extractRange σ) o q) (h1 : σ.stop ≤ k) (h2 : k < q) :
    s[k]? ≠ some comma := by
  intro hcomma
  have := Blank.le h.blank' h1 hcomma (by decide)
  omega

/-- **A value that has the closing quote of a string** has its opening quote. -/
theorem IsDocument.opening_in_value (hd : IsDocument s x y root) (hσ : Occurs σ [root])
    (hr : σ.asRule = .string) (hq : InQuotes s (extractRange σ) o q) (ht : Occurs t [root])
    (hv : isValue t.asRule = true) (hin : (extractRange t).Contains q) :
    (extractRange t).Contains o := by
  have hbσ := hd.derives.bounds hσ
  obtain ⟨hle, hlt⟩ := hin
  have hlt' := hq.lt
  have hstop := hq.le
  simp only [extractRange] at hle hlt hlt' hstop
  refine ⟨?_, by simp only [extractRange]; omega⟩
  simp only [extractRange]
  by_cases hscalar : isScalar t.asRule = true
  · exact absurd hq.closing (hd.derives.ne_quote ht hscalar hle hlt)
  have hkey : t.asRule ≠ .key := fun he => by rw [he] at hv; simp [isValue, isScalar] at hv
  rcases hd.derives.laminar ht hσ hkey (by rw [hr]; decide) with rfl | hin | hin | hapart | hapart
  · rw [hr] at hscalar
    exact absurd rfl hscalar
  · -- the container starts with a bracket, so not between the quote and the string
    obtain ⟨i, j, -, -, hval⟩ := hd.derives.value_of_occurs ht hv
    have hstart : t.start = i := by
      obtain ⟨t', ht', -, hspan, -⟩ := hval.value_token
      simp only [List.cons.injEq, and_true] at ht'
      subst ht'
      exact (hspan fun he => hscalar (by rw [he]; rfl)).1
    obtain ⟨b, hb⟩ := hval.opening_of_inner hin
    have hbelow := (hd.derives.inner_bounds ht hin).1
    by_contra hout
    have := Blank.le hq.blank (by omega) (hstart ▸ hb) (not_whitespace_opening b)
    simp only [extractRange] at this
    omega
  · rw [hd.derives.scalar_inner hσ (by rw [hr]; rfl)] at hin
    exact absurd hin not_occurs_nil
  · omega
  · obtain ⟨k, h1, h2, hcomma⟩ :=
      hd.derives.comma_between hσ ht (by rw [hr]; decide) hkey hapart
    exact absurd hcomma (hq.no_comma h1 (by omega))

/-- So does a pair, from the byte in front of its key on. -/
theorem IsDocument.opening_in_pair (hd : IsDocument s x y root) (hσ : Occurs σ [root])
    (hr : σ.asRule = .string) (hq : InQuotes s (extractRange σ) o q)
    (ht : Occurs (.node .pair i j [keyPair, valuePair]) [root]) (h1 : keyPair.start - 1 ≤ q)
    (h2 : q ≤ j) : keyPair.start - 1 ≤ o := by
  have hbσ := hd.derives.bounds hσ
  have hlt' := hq.lt
  have hstop := hq.le
  simp only [extractRange] at hlt' hstop
  rcases hd.derives.laminar ht hσ (by simp) (by rw [hr]; decide) with rfl | hin | hin | hapart | hapart
  · simp at hr
  · -- the key starts with a byte of a key, so not between the quote and the string
    by_contra hout
    have hp := hd.derives.pair_of_occurs ht rfl
    obtain ⟨hkey, hnone, -, hcolon, -, v, -, hval⟩ := hp.pair_ranges
    have hkb := (hp.bounds (Occurs.inner Occurs.head)).2.1
    have hvalue : valuePair.start ≤ σ.start := by
      rcases occurs_cons.1 hin with rfl | hin | hin
      · rw [hkey] at hr
        exact absurd hr (by decide)
      · exact absurd (hnone ▸ hin) not_occurs_nil
      · rcases occurs_singleton.1 hin with rfl | hin
        · exact le_rfl
        · exact (hval.inner_bounds Occurs.head hin).1.le
    obtain ⟨c, hc, hf⟩ : ∃ c, s[keyPair.start]? = some c ∧ isKeyChar c = true := by
      cases hp with
      | pair _ _ hk _ _ _ _ _ _ => exact hk.first
    have := Blank.le hq.blank (by omega) hc (not_whitespace_of_keyChar hf)
    simp only [extractRange] at this
    omega
  · rw [hd.derives.scalar_inner hσ (by rw [hr]; rfl)] at hin
    exact absurd hin not_occurs_nil
  · simp only [Pair.stop_node] at hapart
    omega
  · have hp := (hd.derives.pair_of_occurs ht rfl).pair_ranges.2.2.1
    simp only [Pair.start_node] at hapart hp
    obtain ⟨k, h3, h4, hcomma⟩ :=
      hd.derives.comma_between hσ ht (by rw [hr]; decide) (by simp) hapart
    simp only [Pair.start_node] at h4
    exact absurd hcomma (hq.no_comma h3 (by omega))

/-- **A selected range that has the closing quote of a string** has its
opening quote. -/
theorem IsDocument.opening_selected (hd : IsDocument s x y root) {bodyField : StandardBody}
    (hf : (bodyMap s root).lookup p = some bodyField) (field : BodyFieldConfig)
    (hσ : Occurs σ [root]) (hr : σ.asRule = .string) (hq : InQuotes s (extractRange σ) o q)
    (hin : (field.selectionRange bodyField).Contains q) :
    (field.selectionRange bodyField).Contains o := by
  have hoq : o < q := by
    have hbσ := hd.derives.bounds hσ
    have hlt := hq.lt
    have hstop := hq.le
    simp only [extractRange] at hlt hstop
    omega
  rcases hd.entry hf with ⟨-, rfl⟩ | ⟨n, -, -, rfl, hn, hocc⟩
  · have hspan : field.selectionRange (.value (extractRange root)) = extractRange root := by
      cases field <;> rfl
    rw [hspan] at hin ⊢
    have hvalue : isValue root.asRule = true := by
      rcases hd.root.1 with h | h <;> rw [h] <;> rfl
    exact hd.opening_in_value hσ hr hq Occurs.head hvalue hin
  · cases hn with
    | @member path i j keyPair valuePair hp =>
      have hstop := hp.pair_ranges.2.2.2.2.1
      obtain ⟨hle, hlt⟩ := hin
      refine ⟨?_, hoq.trans hlt⟩
      have hstart : (field.selectionRange (PathNode.member path (.node .pair i j
          [keyPair, valuePair]) keyPair valuePair).field).start = keyPair.start - 1 := by
        cases field <;> rfl
      have hend : (field.selectionRange (PathNode.member path (.node .pair i j
          [keyPair, valuePair]) keyPair valuePair).field).stop ≤ j + 1 := by
        cases field <;>
          simp only [BodyFieldConfig.selectionRange, PathNode.member, Range.fullPairQuoted,
            Range.fullPairUnquoted, Range.extendTo, extractRange] <;> omega
      rw [hstart] at hle ⊢
      exact hd.opening_in_pair hσ hr hq hocc hle (by omega)
    | element hv =>
      have hspan : ∀ path value, field.selectionRange (PathNode.element path value).field =
          extractRange value := fun _ _ => by cases field <;> rfl
      rw [hspan] at hin ⊢
      exact hd.opening_in_value hσ hr hq hocc hv hin

end Quotes

/-! ## Members -/

/-- **A member that is shown**: its whole pair is, from the quote in front of
the key over the colon to the end of the value. -/
structure ShownMember (s : List UInt8) (shown : ℕ → Bool) (root : Token) (n : PathNode) : Prop where
  node : TreeNode s root n
  member : n.IsMember
  whole : ∀ k, n.token.start ≤ k → k < n.token.stop → shown k = true

/-- **The text of a node's value**: what stands between the quotes of a
string, and the whole span of any other value. -/
def ValueText (s : List UInt8) (n : PathNode) (text : List UInt8) : Prop :=
  ∃ value, CompleteValue s n.valueToken value ∧ text = slice s value

/-- The path of a key names the key. -/
theorem render_key_inj {key name : String}
    (h : PathStack.render ⟨[.key key]⟩ = PathStack.render ⟨[.key name]⟩) : key = name := by
  have hlist := congrArg String.toList h
  rw [toList_render_cons, toList_render_cons, toList_render_key, toList_render_key,
    List.append_left_inj, List.cons.injEq] at hlist
  exact String.toList_inj.1 hlist.2

/-- The key that stands in the view is the key of the document. -/
theorem asStr_shown_key {q : ℕ} (hk : KeyColon (redact s shown) k q) :
    asStr (redact s shown) (.node .key (k + 1) q []) = asStr s (.node .key (k + 1) q []) := by
  have hagree := (agree_redact hk.solid).mono (Nat.le_succ k) (by omega : q ≤ q + 2)
  exact (asStr_of_agree hagree).symm

/-- Where the view has a key and a colon, the document has a member of this
key. -/
theorem IsDocument.node_of_keyColon {q : ℕ} (hd : IsDocument s x y root)
    (hk : KeyColon (redact s shown) k q) (hx : x ≤ k) (hy : q + 1 < y) :
    ∃ above z valuePair, TreeNode s root
        (member (above ++ [.key (asStr (redact s shown) (.node .key (k + 1) q []))])
          (.node .pair k z [.node .key (k + 1) q [], valuePair]) (.node .key (k + 1) q []) valuePair) ∧
      Derives s .nonAtomic .value (skip s .nonAtomic (q + 2)) z [valuePair] := by
  have hk' : KeyColon s k q := KeyColon.transfer hk (agree_redact hk.solid) le_rfl
  obtain ⟨z, valuePair, hocc, hval⟩ := hd.derives.pair_of_keyColon hk' hx hy
  obtain ⟨above, hnode⟩ := hd.treeNode_of_pair hocc
  rw [← asStr_shown_key hk] at hnode
  exact ⟨above, z, valuePair, hnode, hval⟩

/-! ## The view -/

section View

variable [ToLowercase] {tlsn : Tlsn} {config : RevealConfig} {parsed : StandardResponse} {d : ℕ}
  {ps : List (String × StandardHeader)} {r : RedactedResponse} {name : String} {text : List UInt8}

/-- What a successful run shows are the ranges the configuration reveals. -/
theorem shown_iff (hp : parseStandardResponse s = .ok parsed)
    (hok : (revealResponse tlsn s config).Succeeds) :
    revealedBy (revealResponse tlsn s config).calls k = true ↔
      ∃ range, Reveals parsed.headers parsed.body (statusLineRange parsed) config range ∧
        range.Contains k := by
  rw [revealedBy_eq_true, (follows_revealResponse hp).calls_eq hok]
  constructor
  · rintro ⟨⟨direction, action, range⟩, hmem, rfl, hk⟩
    obtain rfl : direction = .received := plan_direction hmem
    exact ⟨range, mem_plan.1 hmem, hk⟩
  · rintro ⟨range, hrev, hk⟩
    exact ⟨⟨.received, .reveal, range⟩, mem_plan.2 hrev, rfl, hk⟩

/-! The response is read, and what is shown of it are the ranges revealed. -/

variable (hr : ReadsResponse s (parseStandardBody s) parsed d l hs h bs e ps)
  (hshown : ∀ k, shown k = true ↔
    ∃ range, Reveals parsed.headers parsed.body (statusLineRange parsed) config range ∧
      range.Contains k)

include hr hshown

/-- What is shown behind the first line and in front of the body rules is of
a line that a rule names. -/
theorem line_of_shown
    (hfield : ∀ p bodyField (field : BodyFieldConfig), parsed.body.lookup p = some bodyField →
      x ≤ (field.selectionRange bodyField).start)
    (hkey : ∀ p key value, parsed.body.lookup p = some (.keyValue key value) →
      x ≤ key.withQuotesAndColon.start)
    (hlk : l < k) (hkx : k < x) (hk : shown k = true) :
    ∃ name ∈ config.revealHeaders, ∃ j n w m, headerToken j n w m ∈ hs ∧
      toLowercase name = headerKey s j n ∧ j ≤ k ∧ k ≤ w ∧ ShownLine shown j w := by
  have hread : ReadsMessage s parsed.headers parsed.body l hs h bs e ps :=
    ⟨hr.text.message.headers, hr.text.message.body, hr.readsHeaders, hr.headers, hr.readsBody⟩
  obtain ⟨range, hrev, hk1, hk2⟩ := (hshown k).1 hk
  cases hrev with
  | startLine =>
    simp only [statusLineRange, Range.withNewline, Range.adjust, hr.status] at hk2
    omega
  | @header name group header hname hl hh =>
    obtain ⟨j, n, w, m, ht, hkey, -, -, -, -, rfl⟩ := hread.revealed_header hl hh
    simp only [Range.headerFullRange, Range.spanTo] at hk1 hk2
    refine ⟨name, hname, j, n, w, m, ht, hkey, hk1, by omega, fun k' h1 h2 => ?_⟩
    refine (hshown k').2 ⟨_, Reveals.header hname hl hh, h1, ?_⟩
    simp only [Range.headerFullRange, Range.spanTo]
    omega
  | @field field bodyField _ hl =>
    have := hfield _ _ field hl
    omega
  | key _ hl =>
    have := hkey _ _ _ hl
    omega

/-- **The view of a response that is revealed by rules**, where every range
of a body rule lies between `x` and `y`. -/
theorem responseView
    (hx : h ≤ x) (hopen : ∀ c, s[x]? = some c → isKeyChar c = false)
    (hfield : ∀ p bodyField (field : BodyFieldConfig), parsed.body.lookup p = some bodyField →
      x ≤ (field.selectionRange bodyField).start ∧ (field.selectionRange bodyField).stop ≤ y)
    (hkey : ∀ p key value, parsed.body.lookup p = some (.keyValue key value) →
      x ≤ key.withQuotesAndColon.start ∧ key.withQuotesAndColon.stop ≤ y) :
    ResponseView s shown (skip s .nonAtomic 0) l h hs x y := by
  have hc : HeaderChain s l h hs := hr.text.message.headers
  have hread : ReadsMessage s parsed.headers parsed.body l hs h bs e ps :=
    ⟨hc, hr.text.message.body, hr.readsHeaders, hr.headers, hr.readsBody⟩
  have hlt := hr.text.status.lt
  have hstart : ∀ k, (statusLineRange parsed).Contains k ↔ skip s .nonAtomic 0 ≤ k ∧ k ≤ l := by
    intro k
    simp only [statusLineRange, Range.Contains, Range.withNewline, Range.adjust, hr.status,
      hr.protocolVersion]
    omega
  have hlh := HeaderChain.le hc
  refine ⟨hc, ReadsHeaders.full hc hr.readsHeaders, hx, hopen, fun k h1 h2 => ?_, ?_, ?_⟩
  · exact (hshown k).2 ⟨_, Reveals.startLine, (hstart k).2 ⟨h1, h2⟩⟩
  · intro j n w m k ht h1 h2 h3 hk
    have hmh := (HeaderChain.mem hc ht).2.2
    simp only [headerToken, Pair.stop_node] at hmh
    obtain ⟨name, -, j', n', w', m', ht', -, h4, h5, hline⟩ := line_of_shown hr hshown
      (fun p bodyField field hl => (hfield p bodyField field hl).1)
      (fun p key value hl => (hkey p key value hl).1) h3 (show k < x by omega) hk
    have hend := (HeaderChain.mem hc ht').1.parts.2.2.2.newline.bounds.1
    rcases HeaderChain.apart hc ht ht' with heq | hlt | hlt
    · simp only [headerToken, Pair.node.injEq, List.cons.injEq, true_and, and_true] at heq
      obtain ⟨rfl, rfl, -, -, rfl⟩ := heq
      exact ⟨hline, h5⟩
    · simp only [headerToken, Pair.stop_node, Pair.start_node] at hlt
      omega
    · simp only [headerToken, Pair.stop_node, Pair.start_node] at hlt
      omega
  · intro k hk
    obtain ⟨range, hrev, hk1, hk2⟩ := (hshown k).1 hk
    cases hrev with
    | startLine =>
      obtain ⟨h1, h2⟩ := (hstart k).1 ⟨hk1, hk2⟩
      exact ⟨h1, Or.inl h2⟩
    | header hname hl hh =>
      obtain ⟨j', n', w', m', ht', -, h1, h2, h3, -, rfl⟩ := hread.revealed_header hl hh
      simp only [Range.headerFullRange, Range.spanTo] at hk1 hk2
      exact ⟨by omega, Or.inr (Or.inl ⟨_, ht', hk1, by simp only [headerToken, Pair.stop_node]; omega⟩)⟩
    | @field field bodyField _ hl =>
      obtain ⟨h1, h2⟩ := hfield _ _ field hl
      exact ⟨by omega, Or.inr (Or.inr ⟨by omega, by omega⟩)⟩
    | key _ hl =>
      obtain ⟨h1, h2⟩ := hkey _ _ _ hl
      exact ⟨by omega, Or.inr (Or.inr ⟨by omega, by omega⟩)⟩

/-- **The view of a response without a document** shows lines only. -/
theorem responseView_empty
    (hbody : parsed.body = ∅) :
    ResponseView s shown (skip s .nonAtomic 0) l h hs s.length s.length := by
  have hl : l ≤ s.length := by
    have hlt := hr.text.status.lt
    obtain ⟨c, hc, -⟩ := hr.text.status.solid (l - 1) (by omega) (by omega)
    have := lt_length hc
    omega
  have hh : h ≤ s.length := Chain.le_length progress_header.next hl hr.text.message.headers
  refine responseView hr hshown hh (fun c hc => ?_) (fun p bodyField field hf => ?_)
    fun p key value hf => ?_
  · exact absurd (lt_length hc) (lt_irrefl _)
  · rw [hbody] at hf
    simp at hf
  · rw [hbody] at hf
    simp at hf

/-- So no entry is read of it. -/
theorem not_entry_of_empty {field : RedactedBody} (hbody : parsed.body = ∅)
    (hview : parseRedactedResponse (redact s shown) = .ok r) : r.body.lookup p ≠ some field := by
  intro hf
  obtain ⟨u, hpair, -⟩ :=
    (responseView_empty hr hshown hbody).entry rfl hr.text.status hview hf
  obtain ⟨q, us, -, hk, -⟩ := hpair.text.token
  have h1 := hpair.start
  have h2 := hpair.colon q hk
  have h3 := hk.lt
  omega

/-! The response has a document. -/

variable (hx : h ≤ x) (hd : IsDocument s x y root) (hbody : parsed.body = bodyMap s root)

include hx hd hbody

omit hshown hx in
/-- The range revealed of a key starts where that of its pair does, and lies
in it. -/
theorem key_selected {key value : Range} (hf : parsed.body.lookup p = some (.keyValue key value)) :
    key.withQuotesAndColon.start = (key.fullPairUnquoted value).start ∧
      key.withQuotesAndColon.stop ≤ (key.fullPairUnquoted value).stop := by
  have hwithin := (hd.key_disjoint (k := 0) (hbody ▸ hf)).2.1
  have hle : value.start ≤ value.stop := by
    obtain ⟨i, j, keyPair, valuePair, hp, -, rfl⟩ :=
      (Accepted.response (parseResponseInner_eq_ok.2 ⟨d, l, hs, h, bs, e, ps, hr⟩)).pair_of_lookup hf
    exact (hp.bounds (Occurs.inner (Occurs.tail Occurs.head))).2.1
  refine ⟨?_, hwithin.trans hle⟩
  simp only [Range.fullPairUnquoted, Range.extendTo, Range.withQuotesAndColon, Range.adjust]
  omega

omit hshown hx in
/-- So it lies in the document. -/
theorem key_within {key value : Range} (hf : parsed.body.lookup p = some (.keyValue key value)) :
    key.withQuotesAndColon.Within ⟨x, y⟩ := by
  obtain ⟨h1, h2⟩ := key_selected hr hd hbody hf
  obtain ⟨h3, h4⟩ := hd.selection_within (hbody ▸ hf) (.unquoted p)
  exact ⟨h1 ▸ h3, h2.trans h4⟩

/-- **The view of a response with a document.** -/
theorem responseView_document :
    ResponseView s shown (skip s .nonAtomic 0) l h hs x y := by
  refine responseView hr hshown hx (fun c hc => ?_) (fun p bodyField field hf => ?_)
    fun p key value hf => ?_
  · obtain ⟨b, hb⟩ := hd.opening
    rw [hc, Option.some.injEq] at hb
    rw [hb]
    cases b <;> decide
  · exact hd.selection_within (hbody ▸ hf) field
  · exact key_within hr hd hbody hf

/-- A scalar of the document is shown whole or not at all. -/
theorem scalar_shown
    (hσ : Occurs σ [root]) (hrule : isScalar σ.asRule = true) (hk : (extractRange σ).Contains k)
    (hsk : shown k = true) : ∀ m, (extractRange σ).Contains m → shown m = true := by
  have hc : HeaderChain s l h hs := hr.text.message.headers
  have hread : ReadsMessage s parsed.headers parsed.body l hs h bs e ps :=
    ⟨hc, hr.text.message.body, hr.readsHeaders, hr.headers, hr.readsBody⟩
  have hlh := HeaderChain.le hc
  have hstart : x < σ.start := by
    rcases occurs_singleton.1 hσ with rfl | hin
    · rcases hd.root.1 with h | h <;> rw [h] at hrule <;> simp [isScalar] at hrule
    · exact (hd.derives.value_inner_lt hin).1
  intro m hm
  refine (hshown m).2 ?_
  obtain ⟨range, hrev, hk1, hk2⟩ := (hshown k).1 hsk
  have hkσ : σ.start ≤ k := hk.1
  cases hrev with
  | startLine =>
    simp only [statusLineRange, Range.withNewline, Range.adjust, hr.status] at hk2
    omega
  | header _ hl hh =>
    obtain ⟨i, n, w, j, -, -, -, -, h1, h2, rfl⟩ := hread.revealed_header hl hh
    simp only [Range.headerFullRange, Range.spanTo] at hk2
    omega
  | @field field bodyField hmem hl =>
    obtain ⟨h1, h2⟩ := hd.scalar_selected (hbody ▸ hl) field hσ hrule hk ⟨hk1, hk2⟩
    exact ⟨_, Reveals.field hmem hl, h1.trans hm.1, hm.2.trans_le h2⟩
  | key _ hl => exact absurd ⟨hk1, hk2⟩ ((hd.key_disjoint (hbody ▸ hl)).2.2 σ hσ hrule hk)

/-- **With the closing quote of a string its opening quote is shown.** -/
theorem opening_of_closing {o q : ℕ} (hσ : Occurs σ [root]) (hrule : σ.asRule = .string)
    (hq : InQuotes s (extractRange σ) o q) (hsq : shown q = true) : shown o = true := by
  have hread : ReadsMessage s parsed.headers parsed.body l hs h bs e ps :=
    ⟨hr.text.message.headers, hr.text.message.body, hr.readsHeaders, hr.headers, hr.readsBody⟩
  have hlh := HeaderChain.le hr.text.message.headers
  have hbσ := hd.derives.bounds hσ
  have hlt := hq.lt
  have hle := hq.le
  simp only [extractRange] at hlt hle
  have hstart : x < σ.start := by
    rcases occurs_singleton.1 hσ with rfl | hin
    · rcases hd.root.1 with h | h <;> rw [h] at hrule <;> exact absurd hrule (by decide)
    · exact (hd.derives.value_inner_lt hin).1
  obtain ⟨range, hrev, hin⟩ := (hshown q).1 hsq
  refine (hshown o).2 ⟨range, hrev, ?_⟩
  cases hrev with
  | startLine =>
    obtain ⟨-, hin⟩ := hin
    simp only [statusLineRange, Range.withNewline, Range.adjust, hr.status] at hin
    omega
  | header _ hl hh =>
    obtain ⟨i, n, w, j, -, -, -, -, h1, h2, rfl⟩ := hread.revealed_header hl hh
    obtain ⟨-, hin⟩ := hin
    simp only [Range.headerFullRange, Range.spanTo] at hin
    omega
  | @field field bodyField _ hl => exact hd.opening_selected (hbody ▸ hl) field hσ hrule hq hin
  | @key rule key value _ hl =>
    obtain ⟨h1, h2⟩ := key_selected hr hd hbody hl
    obtain ⟨hle', hlt'⟩ := hin
    have hlookup : (bodyMap s root).lookup rule.keypath = some (.keyValue key value) := hbody ▸ hl
    have hopening := hd.opening_selected hlookup (.unquoted rule.keypath) hσ hrule hq
      ⟨h1 ▸ hle', hlt'.trans_le h2⟩
    exact ⟨h1 ▸ hopening.1, by omega⟩

/-- A value that is shown is all of the value, a number too. -/
theorem completeValue_of_shown
    {valuePair : Token} {value : Range} (hocc : Occurs valuePair [root])
    (hvalue : ShownValue s shown valuePair value) (hfirst : shown value.start = true) :
    CompleteValue s valuePair value := by
  refine ⟨hvalue.string, fun hstring => ?_⟩
  by_cases hnumber : valuePair.asRule = .number
  · obtain ⟨h1, h2, h3, hcut⟩ := hvalue.number hnumber
    have hwhole := scalar_shown hr hshown hx hd hbody hocc (by rw [hnumber]; rfl)
      ⟨h1.ge, h2.trans_le h3⟩ hfirst
    -- no byte of the number is hidden, so none is left out
    have hstop : value.stop = valuePair.stop := by
      by_contra hne
      have hlt : value.stop < valuePair.stop := by omega
      have hhidden := hcut hlt
      rw [hwhole value.stop ⟨by simp only [extractRange]; omega, hlt⟩] at hhidden
      exact absurd hhidden (by simp)
    obtain ⟨start, stop⟩ := value
    simp only at h1 hstop
    rw [extractRange, h1, hstop]
  · exact hvalue.other hstring hnumber

/-- **A pair with a value that is read of the view** is a member of the
document that is shown, and the text of its value is what is read. -/
theorem member_of_viewPair {u v : Token} {q : ℕ} (hu : ViewPair s shown x y u)
    (hk : KeyColon (redact s shown) u.start q)
    (hval : Derives (redact s shown) .compoundAtomic .value (q + 2) u.stop [v]) :
    ∃ n, ShownMember s shown root n ∧ n.token.start = u.start ∧ n.token.stop = u.stop ∧
      n.path.getLast? = some (.key (asStr (redact s shown) (.node .key (u.start + 1) q []))) ∧
      ValueText s n (slice (redact s shown) (extractRange v)) := by
  obtain ⟨z, valuePair, hocc, hvaluePair, hvalue⟩ :=
    hd.shown_pair rfl hk hval hu.stops hu.start (hu.colon q hk)
  obtain ⟨above, hnode⟩ := hd.treeNode_of_pair hocc
  have hbounds := hval.bounds (t := v) Occurs.head
  have hagree := agree_redact hval.solid
  have hfirst : shown v.start = true := by
    obtain ⟨w, hw, -, hspan, hstring⟩ := hval.value_token
    simp only [List.cons.injEq, and_true] at hw
    subst hw
    refine shown_of_solid hval.solid hbounds.1 ?_
    by_cases hrule : v.asRule = .string
    · have := (hval.string_span hrule).2.2
      omega
    · rw [(hspan hrule).1]
      exact hval.lt
  have hcomplete : CompleteValue s valuePair (extractRange v) :=
    completeValue_of_shown hr hshown hx hd hbody (hocc.of_inner (Occurs.tail Occurs.head)) hvalue
      hfirst
  -- the pair ends where the view has read its value, so all of it is shown
  obtain rfl : z = u.stop := hcomplete.end_eq hval hvaluePair
  refine ⟨_, ⟨hnode, ⟨_, _, rfl⟩, fun k h1 h2 => ?_⟩, rfl, rfl, ?_, extractRange v, hcomplete,
    slice_of_agree (hagree.symm.mono hbounds.1 hbounds.2.2)⟩
  · simp only [PathNode.member, Pair.start_node, Pair.stop_node] at h1 h2
    rcases Nat.lt_or_ge k (q + 2) with hlt | hge
    · exact shown_of_solid hk.solid h1 hlt
    · exact shown_of_solid hval.solid hge h2
  · rw [PathNode.member, List.getLast?_concat, asStr_shown_key hk]

end View

end TlsnDemo
