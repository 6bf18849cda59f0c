import TlsnDemo.Properties.Members
import TlsnDemo.Properties.Selection

/-!
# The view of a selection

The rules of a configuration select members of the document. Where each
rule is quoted as the value it selects, and the members are written without
whitespace, the transcript shows these members and nothing else of the
document. The redacted parser then reads the first line, the header lines
that are revealed, and one entry for each member outside of the others
(`read_view`).
-/

namespace TlsnDemo

open Peg Support Syntax PathNode

variable {s : List UInt8} {shown : ℕ → Bool} {config : RevealConfig} {i j k l h e x y d : ℕ}
  {hs us bs : List Token} {root v : Token} {p : String}

/-! ## The members that rules select -/

section Rules

variable {n : PathNode}

/-- A rule for a value in quotes. -/
def BodyFieldConfig.isQuoted : BodyFieldConfig → Bool
  | quoted _ => true
  | unquoted _ => false

/-- **The selection of a configuration**: the members its body rules lead
to, by the last node of each path. -/
def RevealConfig.selection (config : RevealConfig) (s : List UInt8) (root : Token) : Selection where
  pair n := ∃ field ∈ config.revealBodyFields, IsLast s root field.keypath n
  key n := ∃ rule ∈ config.revealKeysCommitValues, IsLast s root rule.keypath n

/-- A member that a rule shows as it is written: the pair can be read back,
and the rule is quoted where the value is a string. -/
structure Suits (s : List UInt8) (field : BodyFieldConfig) (n : PathNode) : Prop where
  member : n.IsMember
  readsBack : ReadsBack s n.token
  quoted : field.isQuoted = true ↔ n.valueToken.asRule = .string

/-- **Rules that suit the document**: each leads to a member it shows as it
is written. -/
structure SuitingRules (s : List UInt8) (root : Token) (config : RevealConfig) : Prop where
  field : ∀ field ∈ config.revealBodyFields, ∀ n, IsLast s root field.keypath n → Suits s field n
  key : ∀ rule ∈ config.revealKeysCommitValues, ∀ n, IsLast s root rule.keypath n →
    n.IsMember ∧ ∃ e, KeyColon s n.token.start e

theorem SuitingRules.selects (h : SuitingRules s root config) : (config.selection s root).Of s root where
  node := by
    rintro n (⟨field, hfield, hn⟩ | ⟨rule, hrule, hn⟩)
    · exact ⟨hn.node, (h.field field hfield n hn).member⟩
    · exact ⟨hn.node, (h.key rule hrule n hn).1⟩
  readsBack := by
    rintro n ⟨field, hfield, hn⟩
    exact (h.field field hfield n hn).readsBack
  keyColon := by
    rintro n ⟨rule, hrule, hn⟩
    exact (h.key rule hrule n hn).2

/-- **A rule that suits a member reveals its pair.** -/
theorem Suits.selectionRange {field : BodyFieldConfig} (hd : IsDocument s x y root)
    (hn : TreeNode s root n) (h : Suits s field n) :
    field.selectionRange n.field = ⟨n.token.start, n.token.stop⟩ := by
  obtain ⟨i, j, keyPair, valuePair, above, rfl, hp, -⟩ := hd.member_pair hn h.member
  have hb : ReadsBack s (.node .pair i j [keyPair, valuePair]) := h.readsBack
  obtain ⟨e, v, w, heq, hk, -, -, hval, -⟩ := hb.parts hp
  simp only [Pair.node.injEq, List.cons.injEq, and_true, true_and] at heq
  obtain ⟨rfl, rfl⟩ := heq
  have hquoted : field.isQuoted = true ↔ valuePair.asRule = .string := h.quoted
  have hstop : field.isQuoted = true → valuePair.stop + 1 = j := by
    intro hf
    obtain ⟨hopen, hclose⟩ := hb.string valuePair (by simp) (hquoted.1 hf)
    exact (hval.string_tight (hquoted.1 hf) hopen hclose).2.symm
  have hstop' : field.isQuoted = false → valuePair.stop = j := by
    intro hf
    obtain ⟨v', hv', -, hspan, -⟩ := hval.value_token
    simp only [List.cons.injEq, and_true] at hv'
    subst hv'
    refine (hspan fun hrule => ?_).2
    rw [hquoted.2 hrule] at hf
    exact absurd hf (by simp)
  cases field with
  | quoted path =>
    have := hstop rfl
    simp only [BodyFieldConfig.selectionRange, PathNode.member, Range.fullPairQuoted, Range.extendTo,
      extractRange, Pair.start_node, Pair.stop_node, Range.mk.injEq]
    omega
  | unquoted path =>
    have := hstop' rfl
    simp only [BodyFieldConfig.selectionRange, PathNode.member, Range.fullPairUnquoted,
      Range.extendTo, extractRange, Pair.start_node, Pair.stop_node, Range.mk.injEq]
    omega

/-- The range revealed of a key, up to its colon. -/
theorem keyRange_eq (hd : IsDocument s x y root) (hn : TreeNode s root n) {key value : Range}
    (hf : n.field = .keyValue key value) (hk : KeyColon s n.token.start e) :
    key.withQuotesAndColon = ⟨n.token.start, n.colonEnd⟩ := by
  obtain ⟨i, j, keyPair, valuePair, above, rfl, hp, -⟩ := hd.member_pair hn ⟨_, _, hf⟩
  have hk' : KeyColon s i e := hk
  obtain ⟨v, heq, -⟩ := hp.pair_parts hk'
  simp only [Pair.node.injEq, List.cons.injEq, and_true, true_and] at heq
  obtain ⟨rfl, rfl⟩ := heq
  simp only [PathNode.member, Body.keyValue.injEq] at hf
  obtain ⟨rfl, rfl⟩ := hf
  simp only [Range.withQuotesAndColon, Range.adjust, colonEnd, PathNode.member, extractRange,
    Pair.start_node, Pair.stop_node, Range.mk.injEq]
  omega

end Rules

/-! ## The view of the header section -/

section Headers

variable [ToLowercase] {ps : List (String × StandardHeader)}

/-- A header as the redacted parser has it. -/
def seenHeader (header : StandardHeader) : Header (Option Range) :=
  ⟨header.name, some header.value⟩

/-- A name that a header rule gives, in lower case. -/
def RevealConfig.NamesHeader (config : RevealConfig) (key : String) : Prop :=
  ∃ name ∈ config.revealHeaders, toLowercase name = key

instance (config : RevealConfig) : DecidablePred config.NamesHeader := fun _ =>
  inferInstanceAs (Decidable (∃ name ∈ _, _))

/-- **What is read of the lines shown** is what the standard parser has for
them. -/
theorem ShownLines.reads {named : String → Prop} [DecidablePred named]
    (hlines : ShownLines shown hs us) (hr : ReadsHeaders s hs ps)
    (hnamed : ∀ {j n w m}, headerToken j n w m ∈ hs → n ≤ w ∧
      (ShownLine shown j w ↔ named (headerKey s j n))) :
    ReadsHeaders (redact s shown) us
      ((ps.filter fun p => named p.1).map fun p => (p.1, seenHeader p.2)) := by
  induction hlines generalizing ps with
  | nil =>
    cases hr
    exact List.Forall₂.nil
  | @shown j n w m hs us hline _ ih =>
    cases hr with
    | @cons _ p _ ps hp hr =>
      rw [parseHeader_standard, Except.ok.injEq] at hp
      obtain ⟨hnw, hiff⟩ := hnamed List.mem_cons_self
      have hkey : headerKey (redact s shown) j n = headerKey s j n := by
        refine congrArg toLowercase (asStr_of_agree fun k h1 h2 => ?_)
        simp only [Pair.start_node, Pair.stop_node] at h1 h2
        rw [getElem?_redact_of_shown (hline k h1 (by omega))]
      subst hp
      rw [List.filter_cons_of_pos (by simpa using hiff.1 hline), List.map_cons]
      refine List.Forall₂.cons ?_ (ih hr fun ht => hnamed (List.mem_cons_of_mem _ ht))
      rw [parseHeader_redacted, hkey]
      rfl
  | @hidden j n w m hs us hline _ ih =>
    cases hr with
    | @cons _ p _ ps hp hr =>
      rw [parseHeader_standard, Except.ok.injEq] at hp
      obtain ⟨-, hiff⟩ := hnamed List.mem_cons_self
      subst hp
      rw [List.filter_cons_of_neg (by simpa using fun hname => hline (hiff.2 hname))]
      exact ih hr fun ht => hnamed (List.mem_cons_of_mem _ ht)

omit [ToLowercase] in
/-- The groups of the headers that are kept. -/
theorem lookup_pushAll_filter {V W : Type} {named : String → Prop} [DecidablePred named]
    {ps : List (String × V)} {f : V → W} {name : String} :
    (pushAll ∅ ((ps.filter fun p => named p.1).map fun p => (p.1, f p.2)) :
        StringMap (List W)).lookup name =
      if named name then ((pushAll ∅ ps : StringMap (List V)).lookup name).map (List.map f)
      else none := by
  have hval : valuesOf name ((ps.filter fun p => named p.1).map fun p => (p.1, f p.2)) =
      if named name then (valuesOf name ps).map f else [] := by
    induction ps with
    | nil => simp
    | cons p ps ih =>
      by_cases hp : named p.1
      · rw [List.filter_cons_of_pos (by simpa using hp), List.map_cons, valuesOf_cons, ih,
          valuesOf_cons]
        by_cases hname : p.1 = name
        · subst hname
          simp [hp]
        · simp [hname]
      · rw [List.filter_cons_of_neg (by simpa using hp), ih, valuesOf_cons]
        by_cases hname : p.1 = name
        · subst hname
          simp [hp]
        · simp [hname]
  rw [lookup_pushAll, lookup_pushAll, hval]
  by_cases hname : named name
  · by_cases hempty : valuesOf name ps = [] <;> simp [hname, hempty]
  · simp [hname]

end Headers

/-! ## The view of the document -/

section View

variable [ToLowercase] {parsed : StandardResponse} {ps : List (String × StandardHeader)}

variable (hr : ReadsResponse s (parseStandardBody s) parsed d l hs h bs e ps)
  (hshown : ∀ k, shown k = true ↔
    ∃ range, Reveals parsed.headers parsed.body (statusLineRange parsed) config range ∧
      range.Contains k)
  (hx : h ≤ x) (hd : IsDocument s x y root) (hbody : parsed.body = bodyMap s root)

include hr hshown hx hd hbody

/-- **A line is shown exactly if a rule names it.** -/
theorem line_shown_iff {n w m : ℕ} (ht : headerToken j n w m ∈ hs) :
    n ≤ w ∧ (ShownLine shown j w ↔ config.NamesHeader (headerKey s j n)) := by
  have hv := responseView_document hr hshown hx hd hbody
  have hc : HeaderChain s l h hs := hr.text.message.headers
  have hread : ReadsMessage s parsed.headers parsed.body l hs h bs e ps :=
    ⟨hc, hr.text.message.body, hr.readsHeaders, hr.headers, hr.readsBody⟩
  obtain ⟨-, -, h1, h2, h3, h4, h5⟩ := hv.text ht
  refine ⟨by omega, fun hline => ?_, fun hname => ?_⟩
  · obtain ⟨name, hname, j', n', w', m', ht', hkey, h6, h7, -⟩ := line_of_shown hr hshown
      (fun p bodyField field hl => (hd.selection_within (hbody ▸ hl) field).1)
      (fun p key value hl => (key_within hr hd hbody hl).1) (show l < j + 1 by omega)
      (show j + 1 < x by omega) (hline (j + 1) (by omega) (by omega))
    obtain ⟨-, -, -, h8, h9, h10, -⟩ := hv.text ht'
    rcases HeaderChain.apart hc ht ht' with heq | hlt | hlt
    · simp only [headerToken, Pair.node.injEq, List.cons.injEq, true_and, and_true] at heq
      obtain ⟨rfl, -, ⟨-, rfl⟩, -⟩ := heq
      exact ⟨name, hname, hkey⟩
    · simp only [headerToken, Pair.stop_node, Pair.start_node] at hlt
      omega
    · simp only [headerToken, Pair.stop_node, Pair.start_node] at hlt
      omega
  · obtain ⟨name, hname, hkey⟩ := hname
    obtain ⟨p, hp, hparse⟩ := exists_of_forall₂_left hr.readsHeaders ht
    rw [parseHeader_standard, Except.ok.injEq] at hparse
    subst hparse
    have hmem := mem_valuesOf.2 hp
    have hlookup : parsed.headers.lookup (toLowercase name) =
        some (valuesOf (headerKey s j n) ps) := by
      rw [hr.headers, lookup_pushAll, hkey, if_neg (List.ne_nil_of_mem hmem)]
      simp
    intro k h6 h7
    refine (hshown k).2 ⟨_, Reveals.header hname hlookup hmem, h6, ?_⟩
    simp only [Range.headerFullRange, Range.spanTo]
    omega

variable (hrules : SuitingRules s root config)

include hrules

/-- What is shown from the opening bracket on is the byte behind the first
line, or shown of a member that is selected. -/
theorem selected_of_shown (hk : x ≤ k) (hsk : shown k = true) :
    k ≤ l ∨ ∃ n, (config.selection s root).Takes n ∧ n.token.start ≤ k ∧
      k < (config.selection s root).stop n := by
  obtain ⟨range, hrev, hk1, hk2⟩ := (hshown k).1 hsk
  cases hrev with
  | startLine =>
    simp only [statusLineRange, Range.withNewline, Range.adjust, hr.status] at hk2
    left
    omega
  | header _ hl hh =>
    have hread : ReadsMessage s parsed.headers parsed.body l hs h bs e ps :=
      ⟨hr.text.message.headers, hr.text.message.body, hr.readsHeaders, hr.headers, hr.readsBody⟩
    obtain ⟨i, n, w, j, -, -, -, -, h1, h2, rfl⟩ := hread.revealed_header hl hh
    simp only [Range.headerFullRange, Range.spanTo] at hk2
    omega
  | @field field bodyField hmem hl =>
    obtain ⟨n, hlast, rfl⟩ := hd.lookup_eq_some.1 (hbody ▸ hl)
    have hpair : (config.selection s root).pair n := ⟨field, hmem, hlast⟩
    rw [(hrules.field field hmem n hlast).selectionRange hd hlast.node] at hk1 hk2
    refine Or.inr ⟨n, Or.inl hpair, hk1, ?_⟩
    rw [Selection.stop_of_pair hpair]
    exact hk2
  | @key rule key value hmem hl =>
    obtain ⟨n, hlast, hfield⟩ := hd.lookup_eq_some.1 (hbody ▸ hl)
    obtain ⟨-, e, hk'⟩ := hrules.key rule hmem n hlast
    rw [keyRange_eq hd hlast.node hfield hk'] at hk1 hk2
    refine Or.inr ⟨n, Or.inr ⟨rule, hmem, hlast⟩, hk1, ?_⟩
    by_cases hpair : (config.selection s root).pair n
    · have hcolon : n.colonEnd ≤ n.token.stop := by
        obtain ⟨i, j, keyPair, valuePair, above, rfl, hp, -⟩ := hd.member_pair hlast.node ⟨_, _, hfield⟩
        obtain ⟨-, -, -, h1, h2, v, -, hval⟩ := hp.pair_ranges
        have h3 := (hp.bounds (Occurs.inner (Occurs.tail Occurs.head))).2.1
        simp only [colonEnd, PathNode.member, extractRange, Pair.stop_node]
        omega
      rw [Selection.stop_of_pair hpair]
      exact hk2.trans_le hcolon
    · rw [Selection.stop_of_not_pair hpair]
      exact hk2

/-- **Of the document, the selection is shown** and nothing else. -/
theorem selection_shown : (config.selection s root).Shown shown x := by
  have hsel := hrules.selects
  have hlookup : ∀ {p n}, IsLast s root p n → parsed.body.lookup p = some n.field := by
    intro p n hn
    rw [hbody, hd.lookup_eq_some]
    exact ⟨n, hn, rfl⟩
  have hlh := HeaderChain.le hr.text.message.headers
  refine ⟨fun {n k} hn h1 h2 => ?_, fun {k} hk hsk => ?_⟩
  · refine (hshown k).2 ?_
    by_cases hpair : (config.selection s root).pair n
    · rw [Selection.stop_of_pair hpair] at h2
      obtain ⟨field, hfield, hlast⟩ := hpair
      refine ⟨_, Reveals.field hfield (hlookup hlast), ?_⟩
      rw [(hrules.field field hfield n hlast).selectionRange hd hlast.node]
      exact ⟨h1, h2⟩
    · rw [Selection.stop_of_not_pair hpair] at h2
      obtain ⟨rule, hrule, hlast⟩ := hn.resolve_left hpair
      obtain ⟨⟨key, value, hfield⟩, e, hk⟩ := hrules.key rule hrule n hlast
      refine ⟨_, Reveals.key hrule (hfield ▸ hlookup hlast), ?_⟩
      rw [keyRange_eq hd hlast.node hfield hk]
      exact ⟨h1, h2⟩
  · exact (selected_of_shown hr hshown hx hd hbody hrules hk.le hsk).resolve_left (by omega)

/-- The opening bracket is shown only as the byte behind the first line. -/
theorem opening_shown (hxs : shown x = true) : x = l := by
  have hlh := HeaderChain.le hr.text.message.headers
  rcases selected_of_shown hr hshown hx hd hbody hrules le_rfl hxs with hle | ⟨n, hn, hle, -⟩
  · omega
  · have := Selection.lt_start hd hrules.selects hn
    omega

/-- **The view is read** as the first line, the lines shown, and the members
outside of the others. The byte behind the first line starts no line that
is hidden, and an opening bracket that is shown is a brace with a member
behind it. -/
theorem read_view (hfirst : FirstByte s shown l hs x)
    (hopen : shown x = true → s[x]? = some openBrace ∧ ∃ n, (config.selection s root).Outer n) :
    parseRedactedResponse (redact s shown) =
      .ok ⟨parsed.protocolVersion, parsed.statusCode, parsed.status,
        pushAll ∅ ((ps.filter fun p => config.NamesHeader p.1).map fun p => (p.1, seenHeader p.2)),
        insertAll ∅ (((config.selection s root).outer s root).map fun n =>
          (n.leaf, (config.selection s root).field n))⟩ := by
  have hv := responseView_document hr hshown hx hd hbody
  have hsel := hrules.selects
  obtain ⟨ts, hspread, hmap⟩ :=
    Selection.spread hd hsel (selection_shown hr hshown hx hd hbody hrules)
  have hlt : x < s.length := by
    obtain ⟨b, hb⟩ := hd.opening
    exact lt_length hb
  -- behind the header section come the members, with a brace in front or without
  have hfront : ((redact s shown)[skip (redact s shown) .nonAtomic x]? = some openBrace → ts ≠ []) ∧
      Spread (redact s shown) (past openBrace (redact s shown) (skip (redact s shown) .nonAtomic x)) ts ∧
      ∀ c, (redact s shown)[skip (redact s shown) .nonAtomic x]? = some c →
        isHeaderNameChar c = false := by
    by_cases hxs : shown x = true
    · obtain ⟨hbrace, n, hn⟩ := hopen hxs
      have hbrace' := (getElem?_redact_of_shown hxs).trans hbrace
      rw [skip_self hbrace' (by decide), past, if_pos hbrace']
      refine ⟨fun _ hnil => ?_, hspread, fun c hc => ?_⟩
      · have hmem : n ∈ (config.selection s root).outer s root :=
          Selection.mem_outer.2 ⟨(hsel.node hn.1).1, hn⟩
        rw [hnil, List.map_nil, eq_comm, List.map_eq_nil_iff] at hmap
        rw [hmap] at hmem
        exact absurd hmem List.not_mem_nil
      · rw [hbrace', Option.some.injEq] at hc
        rw [← hc]
        decide
    · have hzero := getElem?_redact_of_hidden (by simpa using hxs) hlt
      have hspread' := hspread.extend (Nat.le_succ x) (AllIn.single hzero (by decide))
      have hnext := hspread'.next
      have hquote : ∀ c, (redact s shown)[skip (redact s shown) .nonAtomic x]? = some c →
          c = quote := by
        intro c hc
        have := lt_length hc
        have hq := hnext.resolve_left (by omega)
        rw [hc, Option.some.injEq] at hq
        exact hq
      have hno : (redact s shown)[skip (redact s shown) .nonAtomic x]? ≠ some openBrace := by
        intro hc
        exact absurd (hquote _ hc) (by decide)
      rw [past, if_neg hno]
      refine ⟨fun hc => absurd hc hno, hspread'.skipped, fun c hc => ?_⟩
      rw [hquote c hc]
      decide
  obtain ⟨hbrace, hfrom, hnext⟩ := hfront
  obtain ⟨q, us, hc, hlines, hskip⟩ := hv.header_section hfirst hlt.le hnext
  obtain ⟨hstart, hst⟩ := hv.status_line rfl hr.text.status
  have hread := hlines.reads hr.readsHeaders fun ht =>
    line_shown_iff hr hshown hx hd hbody ht
  rw [← hskip] at hbrace hfrom
  rw [response_of_spread (hstart.symm ▸ hst) hc hread hfrom hbrace, hmap, hstart,
    hr.protocolVersion, hr.statusCode, hr.status]

end View

end TlsnDemo
