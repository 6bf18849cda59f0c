import TlsnDemo.Properties.SelectedView
import TlsnDemo.Syntax.Ascii

/-!
# What is revealed is read back

In a compact document every pair can be read back. So whatever members the
rules name, each as it is quoted and none in another, the redacted parser
reads these from what is seen of the response, with the lines that are
revealed, and the verifier reports their texts (`round_trip`).
-/

namespace TlsnDemo

open Peg Support Syntax PathNode

variable {s : List UInt8} {shown : ℕ → Bool} {config : RevealConfig} {i l e x y d : ℕ}
  {hs bs : List Token} {root : Token} {p : String}

/-! ## Compact documents -/

section Compact

variable {n m : PathNode} {t : Token}

/-- **A compact document**: its only whitespace is spaces inside strings, and
no string starts or ends with one. -/
structure CompactDocument (s : List UInt8) (root : Token) : Prop where
  compact : Compact s [root] root.start root.stop
  strings : ∀ σ, Occurs σ [root] → σ.asRule = .string →
    s[σ.start - 1]? = some quote ∧ s[σ.stop]? = some quote

/-- **Every pair of a compact document can be read back.** -/
theorem CompactDocument.readsBack (h : CompactDocument s root) (hd : IsDocument s x y root)
    (hocc : Occurs t [root]) (hr : t.asRule = .pair) : ReadsBack s t := by
  have hp := hd.derives.pair_of_occurs hocc hr
  obtain ⟨-, hx, hy⟩ := hd.root
  have hb := hd.derives.bounds hocc
  refine ⟨fun k c h1 h2 hc hw => ?_, fun σ hσ => h.strings σ (hocc.of_inner (Occurs.of_mem hσ))⟩
  obtain ⟨hspace, σ, v, w, hσ, hrule, hval, h3, h4⟩ := h.compact k c (by omega) (by omega) hc hw
  refine ⟨hspace, σ, v, w, ?_, hrule, hval, h3, h4⟩
  -- the string with the space has no byte but its own between its quotes
  obtain ⟨hopen, hclose⟩ := h.strings σ hσ hrule
  have htight := hval.string_tight hrule hopen hclose
  rcases hd.derives.laminar hocc hσ (by rw [hr]; decide) (by rw [hrule]; decide) with
    heq | hin | hin | hlt | hlt
  · exact heq ▸ Occurs.head
  · exact Occurs.inner hin
  · rw [hd.derives.scalar_inner hσ (by rw [hrule]; rfl)] at hin
    exact absurd hin not_occurs_nil
  · omega
  · omega

/-- A document without whitespace is compact. -/
theorem IsDocument.compact_of_not_whitespace (hd : IsDocument s x y root)
    (hno : ∀ k c, x ≤ k → k < y → s[k]? = some c → isWhitespace c = false) :
    CompactDocument s root := by
  obtain ⟨-, hx, hy⟩ := hd.root
  refine ⟨fun k c h1 h2 hc hw => ?_, fun σ hσ hr => ?_⟩
  · rw [hno k c (by omega) (by omega) hc] at hw
    exact absurd hw (by simp)
  · obtain ⟨v, w, h1, h2, hval⟩ := hd.derives.value_of_occurs hσ (by rw [hr]; rfl)
    have hskip : ∀ {k}, x ≤ k → k < y → skip s .nonAtomic k = k := fun h1 h2 =>
      skipTo_of_false fun c hc => hno _ c h1 h2 hc
    cases hval with
    | empty b _ _ _ => cases b <;> simp [Bracket.rule] at hr
    | filled b _ _ _ _ _ => cases b <;> simp [Bracket.rule] at hr
    | @string _ j k l hq hj ht hl hq' =>
      have h3 := le_of_skip hj
      have h4 := ht.le
      have h5 := le_of_skip hl
      rw [hskip (by omega) (by omega)] at hj hl
      subst hj hl
      exact ⟨hq, hq'⟩
    | scalar hs => exact absurd hr hs.ne_string

/-- A path leads to one last node. -/
theorem IsDocument.last_unique (hd : IsDocument s x y root) (hm : IsLast s root p m)
    (hn : IsLast s root p n) : m = n :=
  hd.node_eq hm.node hn.node
    (le_antisymm (hn.last m hm.node hm.name) (hm.last n hn.node hn.name))

/-- What lies in the pair of a member is led to by a longer path. -/
theorem IsDocument.path_of_inside (hd : IsDocument s x y root) (hm : TreeNode s root m)
    (hmm : m.IsMember) (hn : TreeNode s root n) (hnm : n.IsMember)
    (hin : Occurs n.token m.token.intoInner) : ∃ seg rest, n.path = m.path ++ seg :: rest := by
  obtain ⟨i, j, keyPair, valuePair, above, rfl, hp, hocc⟩ := hd.member_pair hm hmm
  obtain ⟨i', j', keyPair', valuePair', above', rfl, hp', -⟩ := hd.member_pair hn hnm
  obtain ⟨hkey, hinner, -, -, -, v, -, hval⟩ := hp.pair_ranges
  simp only [PathNode.member, Pair.intoInner_node] at hin
  have hin' : Occurs (.node .pair i' j' [keyPair', valuePair']) [valuePair] := by
    rcases occurs_cons.1 hin with heq | hin | hin
    · rw [← heq] at hkey
      simp at hkey
    · rw [hinner] at hin
      exact absurd hin not_occurs_nil
    · exact hin
  have hvisit : ∃ n ∈ nodesOf s (above ++ [.key (asStr s keyPair)]) 0 .value [valuePair], ∃ above,
      n = member (above ++ [.key (asStr s keyPair')])
        (.node .pair i' j' [keyPair', valuePair']) keyPair' valuePair' := hval.visits_pair hin'
  obtain ⟨n, hn', above'', rfl⟩ := hvisit
  have hpath := nodesOf_path hval hn'
  have hnode : TreeNode s root (member (above'' ++ [.key (asStr s keyPair')])
      (.node .pair i' j' [keyPair', valuePair']) keyPair' valuePair') := by
    have hmem : member (above'' ++ [.key (asStr s keyPair')])
        (.node .pair i' j' [keyPair', valuePair']) keyPair' valuePair' ∈
          nodesValue s (above ++ [.key (asStr s keyPair)]) valuePair := by
      simpa [nodesOf] using hn'
    exact treeNode_of_mem hm hmem
  rw [hd.node_eq hn hnode rfl]
  exact hpath

end Compact

/-! ## The texts that are read -/

section Texts

variable {body : StringMap RedactedBody} {data : List UInt8} {value : Range} {n : PathNode}

theorem ascii_redact (h : ∀ b ∈ s, b < 0x80) : ∀ b ∈ redact s shown, b < 0x80 := by
  intro b hb
  obtain ⟨k, hk⟩ := List.getElem?_of_mem hb
  rcases getElem?_redact_cases hk with hk | rfl
  · exact h b (List.mem_of_getElem? hk)
  · decide

/-- **An entry with a value is read as the text of the value**, in ASCII. -/
theorem bodyText_of_entry {key : Range} (hascii : ∀ b ∈ data, b < 0x80)
    (hl : body.lookup p = some (.keyValue key (some value))) :
    bodyText body data p = .ok (slice data value) := by
  refine bodyText_eq_ok.2 ⟨_, value, hl, rfl, validateUTF8_of_ascii fun b hb => ?_, rfl⟩
  exact hascii b (List.mem_of_mem_drop (List.mem_of_mem_take hb))

/-- The text of a member's value is that of the document. -/
theorem Selection.slice_value {sel : Selection} {key : Range} (hd : IsDocument s x y root)
    (hsel : sel.Of s root) (hs : sel.Shown shown x) (hn : sel.pair n)
    (hf : n.field = .keyValue key value) : slice (redact s shown) value = slice s value := by
  obtain ⟨hnode, hmember⟩ := hsel.node (Or.inl hn)
  have hag : Agree s (redact s shown) n.token.start (sel.stop n) := Selection.agree hs (Or.inl hn)
  rw [stop_of_pair hn] at hag
  obtain ⟨i, j, keyPair, valuePair, above, rfl, hp, -⟩ := hd.member_pair hnode hmember
  obtain ⟨-, -, h1, h2, h3, -⟩ := hp.pair_ranges
  simp only [PathNode.member, Body.keyValue.injEq] at hf
  obtain ⟨-, rfl⟩ := hf
  have h4 := (hp.bounds (Occurs.inner Occurs.head)).2.1
  refine slice_of_agree (hag.mono ?_ ?_)
  · simp only [PathNode.member, Pair.start_node, extractRange]
    omega
  · simp only [PathNode.member, Pair.stop_node, extractRange]
    omega

end Texts

/-! ## Round trips -/

/-- **The document of a response**: the token after its header section, an
object or an array. -/
structure ResponseDocument (s : List UInt8) (root : Token) : Prop where
  tokens : ∃ line headersPair rest,
    Grammar.parse Grammar.response s = some (line :: headersPair :: root :: rest)
  container : root.asRule = .object ∨ root.asRule = .array

section RoundTrip

variable [ToLowercase] {tlsn : Tlsn} {parsed : StandardResponse} {ps : List (String × StandardHeader)}

theorem ResponseDocument.located (h : ResponseDocument s root)
    (hr : ReadsResponse s (parseStandardBody s) parsed d l hs i bs e ps) :
    ∃ x y, skip s .nonAtomic i ≤ x ∧ bs = [root] ∧ IsDocument s x y root ∧
      parsed.body = bodyMap s root := by
  obtain ⟨line, headersPair, rest, htokens⟩ := h.tokens
  rw [parse_response_eq_some.2 ⟨d, l, hs, i, bs, e, hr.text, rfl⟩, Option.some.injEq] at htokens
  simp only [messageTokens, statusLineTokens, List.cons_append, List.nil_append,
    List.cons.injEq] at htokens
  obtain ⟨-, -, htokens⟩ := htokens
  have hcontainer := h.container
  have hbody := hr.readsBody
  cases bodyText_of_body hr.text.message.body with
  | document h1 h2 hd =>
    simp only [List.cons_append, List.cons.injEq] at htokens
    obtain ⟨rfl, -⟩ := htokens
    rw [List.cons_append, parseStandardBody, if_pos hcontainer] at hbody
    exact ⟨_, _, h1, rfl, hd, traverse_ok hbody⟩
  | redacted ht =>
    simp only [List.cons_append, List.cons.injEq] at htokens
    rw [← htokens.1, ht.first.asRule] at hcontainer
    exact absurd hcontainer (by decide)
  | none =>
    simp only [List.nil_append, List.cons.injEq] at htokens
    rw [← htokens.1] at hcontainer
    exact absurd hcontainer (by simp)

/-- **Rules that name members**: they lead to entries with a key and a value,
and a body rule is quoted exactly where the value is in quotes. -/
structure NamesMembers (s : List UInt8) (body : StringMap StandardBody) (config : RevealConfig) :
    Prop where
  field : ∀ field ∈ config.revealBodyFields, ∃ key value,
    body.lookup field.keypath = some (.keyValue key value) ∧
      (field.isQuoted = true ↔ s[value.start - 1]? = some quote)
  key : ∀ rule ∈ config.revealKeysCommitValues, ∃ key value,
    body.lookup rule.keypath = some (.keyValue key value)

omit [ToLowercase] in
/-- In a compact document, rules that name members suit them. -/
theorem NamesMembers.suits (h : NamesMembers s (bodyMap s root) config) (hd : IsDocument s x y root)
    (hcompact : CompactDocument s root) : SuitingRules s root config := by
  have hmember : ∀ {p n key value}, (bodyMap s root).lookup p = some (.keyValue key value) →
      IsLast s root p n → n.field = .keyValue key value := by
    intro p n key value hl hn
    have hl' : (bodyMap s root).lookup p = some n.field := hd.lookup_eq_some.2 ⟨n, hn, rfl⟩
    rw [hl, Option.some.injEq] at hl'
    exact hl'.symm
  have hback : ∀ n, TreeNode s root n → n.IsMember → ReadsBack s n.token := by
    intro n hn hm
    obtain ⟨i, j, keyPair, valuePair, above, rfl, -, hocc⟩ := hd.member_pair hn hm
    exact hcompact.readsBack hd hocc rfl
  refine ⟨fun field hfield n hn => ?_, fun rule hrule n hn => ?_⟩
  · obtain ⟨key, value, hl, hquoted⟩ := h.field field hfield
    have hf := hmember hl hn
    have hb := hback n hn.node ⟨_, _, hf⟩
    refine ⟨⟨_, _, hf⟩, hb, hquoted.trans ?_⟩
    -- in front of a value stands its quote, or the colon
    obtain ⟨i, j, keyPair, valuePair, above, rfl, hp, -⟩ := hd.member_pair hn.node ⟨_, _, hf⟩
    have hb' : ReadsBack s (.node .pair i j [keyPair, valuePair]) := hb
    obtain ⟨e, v, w, heq, hk, -, -, hval, -⟩ := hb'.parts hp
    simp only [Pair.node.injEq, List.cons.injEq, and_true, true_and] at heq
    obtain ⟨rfl, rfl⟩ := heq
    simp only [PathNode.member, Body.keyValue.injEq] at hf
    obtain ⟨-, rfl⟩ := hf
    have hvalue : (member (above ++ [.key (asStr s (.node .key (i + 1) e []))])
        (.node .pair i j [.node .key (i + 1) e [], valuePair]) (.node .key (i + 1) e [])
        valuePair).valueToken = valuePair := rfl
    rw [hvalue, extractRange]
    constructor
    · intro hq
      by_contra hrule
      obtain ⟨v', hv', -, hspan, -⟩ := hval.value_token
      simp only [List.cons.injEq, and_true] at hv'
      subst hv'
      have hcolon := hk.colon
      rw [(hspan hrule).1] at hq
      have hpos : e + 2 - 1 = e + 1 := by omega
      rw [hpos, hcolon] at hq
      exact absurd hq (by decide)
    · intro hrule
      exact (hb'.string valuePair (by simp) hrule).1
  · obtain ⟨key, value, hl⟩ := h.key rule hrule
    have hf := hmember hl hn
    have hb := hback n hn.node ⟨_, _, hf⟩
    refine ⟨⟨_, _, hf⟩, ?_⟩
    obtain ⟨i, j, keyPair, valuePair, above, rfl, hp, -⟩ := hd.member_pair hn.node ⟨_, _, hf⟩
    obtain ⟨e, v, w, -, hk, -⟩ := ReadsBack.parts hb hp
    exact ⟨e, hk⟩

/-- **What the redacted parser makes of a view**: the first line, the
headers that are named, and an entry for each member selected, under its
key, with the value where the pair is revealed. The verifier reads the text
of such a value, and reports those of its two keys. -/
structure ReadsView (s view : List UInt8) (root : Token) (parsed : StandardResponse)
    (config : RevealConfig) (r : RedactedResponse) : Prop where
  protocolVersion : r.protocolVersion = parsed.protocolVersion
  statusCode : r.statusCode = parsed.statusCode
  status : r.status = parsed.status
  headers : ∀ name, r.headers.lookup name =
    if config.NamesHeader name then (parsed.headers.lookup name).map (List.map seenHeader) else none
  body : ∀ p field, r.body.lookup p = some field ↔
    ∃ n, (config.selection s root).Takes n ∧ n.leaf = p ∧ (config.selection s root).field n = field
  text : ∀ n key value, (config.selection s root).pair n → n.field = .keyValue key value →
    bodyText r.body view n.leaf = .ok (slice s value)
  report : ∀ m n key value key' value', (config.selection s root).pair m → m.leaf = ".CHF" →
    m.field = .keyValue key value → (config.selection s root).pair n → n.leaf = ".last_audit" →
    n.field = .keyValue key' value' →
    extractBalance view = .ok ⟨slice s value, slice s value'⟩

/-- A view of a response with a compact document is read as it was revealed. -/
theorem readsView_of_shown (hr : ReadsResponse s (parseStandardBody s) parsed d l hs i bs e ps)
    (hshown : ∀ k, shown k = true ↔
      ∃ range, Reveals parsed.headers parsed.body (statusLineRange parsed) config range ∧
        range.Contains k)
    (hx' : i ≤ x) (hd : IsDocument s x y root) (hbody : parsed.body = bodyMap s root)
    (hcompact : CompactDocument s root) (hline : ∃ j, NewlineText s parsed.status.stop j)
    (hrules : NamesMembers s parsed.body config)
    (hnest : ∀ m n, (config.selection s root).Takes m → (config.selection s root).Takes n →
      m.path <+: n.path → m = n)
    (hkeys : ∀ m n, (config.selection s root).Takes m → (config.selection s root).Takes n →
      m.leaf = n.leaf → m = n) :
    ∃ r, parseRedactedResponse (redact s shown) = .ok r ∧
      ReadsView s (redact s shown) root parsed config r := by
  have hsuits := (hbody ▸ hrules).suits hd hcompact
  have hsel := hsuits.selects
  have hstop : parsed.status.stop = l := by rw [hr.status]
  -- the line ends with whitespace, so the document does not start there
  obtain ⟨c, hc, hw⟩ : ∃ c, s[l]? = some c ∧ isWhitespace c = true := by
    obtain ⟨j, hj | hj⟩ := hline
    · exact ⟨_, hstop ▸ hj.1, by decide⟩
    · exact ⟨_, hstop ▸ hj.1, by decide⟩
  have hfirst : FirstByte s shown l hs x := by
    intro c' hc'
    rw [hc, Option.some.injEq] at hc'
    exact Or.inl (hc' ▸ hw)
  have hopen : shown x = true → s[x]? = some openBrace ∧ ∃ n, (config.selection s root).Outer n := by
    intro hxs
    obtain rfl := opening_shown hr hshown hx' hd hbody hsuits hxs
    obtain ⟨b, hb⟩ := hd.opening
    rw [hc, Option.some.injEq] at hb
    rw [hb] at hw
    cases b <;> exact absurd hw (by decide)
  have houter : ∀ n, (config.selection s root).Takes n → (config.selection s root).Outer n := by
    refine fun n hn => ⟨hn, fun m hm hin => ?_⟩
    obtain ⟨hnode, hmember⟩ := hsel.node hn
    obtain ⟨hnode', hmember'⟩ := hsel.node (Or.inl hm)
    obtain ⟨seg, rest, hpath⟩ := hd.path_of_inside hnode' hmember' hnode hmember hin
    have heq := hnest m n (Or.inl hm) hn ⟨seg :: rest, hpath.symm⟩
    rw [heq] at hpath
    exact absurd hpath (by simp)
  have hlookup : ∀ p field, (insertAll ∅ (((config.selection s root).outer s root).map fun n =>
        (n.leaf, (config.selection s root).field n)) : StringMap RedactedBody).lookup p = some field ↔
      ∃ n, (config.selection s root).Takes n ∧ n.leaf = p ∧
        (config.selection s root).field n = field := by
    intro p field
    rw [Selection.lookup_outer hd]
    constructor
    · rintro ⟨n, hn, hfield⟩
      exact ⟨n, hn.outer.1, hn.leaf, hfield⟩
    · rintro ⟨n, hn, hleaf, hfield⟩
      refine ⟨n, ⟨(hsel.node hn).1, houter n hn, hleaf, fun m _ hm hleaf' => ?_⟩, hfield⟩
      rw [hkeys m n hm.1 hn (hleaf'.trans hleaf.symm)]
  have hview := read_view hr hshown hx' hd hbody hsuits hfirst hopen
  have hascii := ascii_of_parse_response (parse_response_eq_some.2 ⟨d, l, hs, i, bs, e, hr.text, rfl⟩)
  have htext : ∀ {n key value}, (config.selection s root).pair n → n.field = .keyValue key value →
      bodyText (insertAll ∅ (((config.selection s root).outer s root).map fun n =>
        (n.leaf, (config.selection s root).field n)) : StringMap RedactedBody)
        (redact s shown) n.leaf = .ok (slice s value) := by
    intro n key value hn hf
    have hs' := selection_shown hr hshown hx' hd hbody hsuits
    rw [← Selection.slice_value hd hsel hs' hn hf]
    exact bodyText_of_entry (ascii_redact hascii) ((hlookup _ _).2
      ⟨n, Or.inl hn, rfl, Selection.field_of_pair hn hf⟩)
  refine ⟨_, hview, rfl, rfl, rfl, fun name => ?_, hlookup, fun n key value hn hf => htext hn hf,
    fun m n key value key' value' hm hleaf hf hn hleaf' hf' => ?_⟩
  · rw [lookup_pushAll_filter, hr.headers]
  · exact extractBalance_eq_ok.2 ⟨validateUTF8_of_ascii (ascii_redact hascii), _, hview,
      hleaf ▸ htext hm hf, hleaf' ▸ htext hn hf'⟩

/-- **The round trip.** Of a response with a newline directly behind its status
and a compact document, reveal any headers, and any members none of which lies
in another, under keys that differ. The redacted parser accepts what is seen, and reads what was
revealed: the same first line, the lines that were named, and each member
with its value, or without it where only the key was revealed. -/
theorem round_trip (hp : parseStandardResponse s = .ok parsed)
    (hok : (revealResponse tlsn s config).Succeeds) (hroot : ResponseDocument s root)
    (hcompact : CompactDocument s root) (hline : ∃ j, NewlineText s parsed.status.stop j)
    (hrules : NamesMembers s parsed.body config)
    (hnest : ∀ m n, (config.selection s root).Takes m → (config.selection s root).Takes n →
      m.path <+: n.path → m = n)
    (hkeys : ∀ m n, (config.selection s root).Takes m → (config.selection s root).Takes n →
      m.leaf = n.leaf → m = n) :
    ∃ r, parseRedactedResponse (redact s (revealedBy (revealResponse tlsn s config).calls)) = .ok r ∧
      ReadsView s (redact s (revealedBy (revealResponse tlsn s config).calls)) root parsed config r := by
  obtain ⟨d, l, hs, h, bs, e, ps, hr⟩ := parseResponseInner_eq_ok.1 hp
  have hshown := fun k => shown_iff (k := k) hp hok
  generalize revealedBy (revealResponse tlsn s config).calls = shown at hshown ⊢
  obtain ⟨x, y, hx, -, hd, hbody⟩ := hroot.located hr
  exact readsView_of_shown hr hshown (le_skipTo.trans hx) hd hbody hcompact hline hrules hnest hkeys

/-- An entry of the body map comes with the document. -/
theorem exists_responseDocument {field : StandardBody} (hp : parseStandardResponse s = .ok parsed)
    (hf : parsed.body.lookup p = some field) :
    ∃ x y root, ResponseDocument s root ∧ IsDocument s x y root ∧ parsed.body = bodyMap s root := by
  obtain ⟨d, l, hs, h, bs, e, ps, hr⟩ := parseResponseInner_eq_ok.1 hp
  have hread : ReadsMessage s parsed.headers parsed.body l hs h bs e ps :=
    ⟨hr.text.message.headers, hr.text.message.body, hr.readsHeaders, hr.headers, hr.readsBody⟩
  obtain ⟨x, y, root, -, -, rfl, hd, hbody⟩ := hread.document hf
  exact ⟨x, y, root, ⟨⟨_, _, _, parse_response_eq_some.2 ⟨d, l, hs, h, _, e, hr.text, rfl⟩⟩,
    hd.root.1⟩, hd, hbody⟩

end RoundTrip

/-- A response with a string, an object and a number. -/
def smallAccount : List UInt8 :=
  bytes "HTTP/1.1 200 OK\r\nA: b\r\nC: d\r\n\r\n\x7b\"CHF\":\"12\",\"last_audit\":\x7b\"day\":3\x7d,\"id\":7\x7d"

/-- One header, two members and a key of it. -/
def revealAccount : RevealConfig :=
  { revealHeaders := ["A"]
    revealBodyFields := [.quoted ".CHF", .unquoted ".last_audit"]
    revealKeysCommitValues := [⟨".id", none⟩] }

/-- What is seen of that response. -/
def viewAccount : List UInt8 :=
  redact smallAccount
    (revealedBy (@revealResponse asciiLowercase acceptAll smallAccount revealAccount).calls)

theorem succeeds_smallAccount :
    (@revealResponse asciiLowercase acceptAll smallAccount revealAccount).Succeeds :=
  ⟨(), by decide +kernel⟩

theorem parsedField_smallAccount :
    ["", ".CHF", ".last_audit", ".id"].map (@parsedField asciiLowercase smallAccount) =
      [some (.value ⟨31, 73⟩), some (.keyValue ⟨33, 36⟩ ⟨39, 41⟩),
        some (.keyValue ⟨44, 54⟩ ⟨56, 65⟩), some (.keyValue ⟨67, 69⟩ ⟨71, 72⟩)] := by
  decide +kernel

theorem isKeyText_smallAccount {k : String} (hk : k ∈ ["CHF", "last_audit", "id"]) :
    IsPath [.key k] := by
  intro k' hk'
  rw [List.mem_singleton, PathSegment.key.injEq] at hk'
  subst hk'
  simp only [List.mem_cons, List.not_mem_nil, or_false] at hk
  rcases hk with rfl | rfl | rfl
  · exact ⟨bytes "CHF", .compoundAtomic, 0, 3, .node .key 0 3 [], rfl, rfl⟩
  · exact ⟨bytes "last_audit", .compoundAtomic, 0, 10, .node .key 0 10 [], rfl, rfl⟩
  · exact ⟨bytes "id", .compoundAtomic, 0, 2, .node .key 0 2 [], rfl, rfl⟩

theorem status_smallAccount :
    (@parseStandardResponse asciiLowercase smallAccount).toOption.map (fun r => r.status) =
      some ⟨13, 15⟩ := by
  decide +kernel

theorem not_whitespace_smallAccount :
    ∀ c ∈ smallAccount.drop 31, isWhitespace c = false := by
  decide +kernel

/-- Its document, which is compact, and the entries of its members. -/
theorem document_smallAccount :
    ∃ parsed root y, @parseStandardResponse asciiLowercase smallAccount = .ok parsed ∧
      ResponseDocument smallAccount root ∧ IsDocument smallAccount 31 y root ∧
      parsed.body = bodyMap smallAccount root ∧ CompactDocument smallAccount root ∧
      parsed.status = ⟨13, 15⟩ ∧
      parsed.body.lookup ".CHF" = some (.keyValue ⟨33, 36⟩ ⟨39, 41⟩) ∧
      parsed.body.lookup ".last_audit" = some (.keyValue ⟨44, 54⟩ ⟨56, 65⟩) ∧
      parsed.body.lookup ".id" = some (.keyValue ⟨67, 69⟩ ⟨71, 72⟩) := by
  let _ := asciiLowercase
  have hfields := parsedField_smallAccount
  simp only [List.map_cons, List.map_nil, List.cons.injEq, and_true] at hfields
  obtain ⟨hroot, hchf, haudit, hid⟩ := hfields
  obtain ⟨parsed, hp, hroot⟩ := parsedField_eq_some.1 hroot
  have hlookup : ∀ {p field}, parsedField smallAccount p = some field →
      parsed.body.lookup p = some field := by
    intro p field hf
    obtain ⟨parsed', hp', hf⟩ := parsedField_eq_some.1 hf
    rw [hp, Except.ok.injEq] at hp'
    exact hp' ▸ hf
  obtain ⟨x, y, root, hdoc, hd, hbody⟩ := exists_responseDocument hp hroot
  have hspan := hd.root_entry (hbody ▸ hroot)
  simp only [Body.value.injEq, Range.mk.injEq] at hspan
  obtain ⟨rfl, -⟩ := hspan
  have hstatus : parsed.status = ⟨13, 15⟩ := by
    have := status_smallAccount
    rw [hp] at this
    simpa [Except.toOption] using this
  have hcompact : CompactDocument smallAccount root := by
    refine hd.compact_of_not_whitespace fun k c h1 _ hc => not_whitespace_smallAccount c ?_
    refine List.mem_of_getElem? (i := k - 31) ?_
    rw [List.getElem?_drop, Nat.add_sub_cancel' h1]
    exact hc
  exact ⟨parsed, root, y, hp, hdoc, hd, hbody, hcompact, hstatus, hlookup hchf, hlookup haudit,
    hlookup hid⟩

/-- A member it is led to by a key has the key as its path. -/
theorem path_smallAccount {y : ℕ} {k : String} {n : PathNode} (hd : IsDocument smallAccount 31 y root)
    (hk : k ∈ ["CHF", "last_audit", "id"])
    (hn : IsLast smallAccount root (PathStack.render ⟨[.key k]⟩) n) : n.path = [.key k] :=
  render_inj (hd.isPath hn.node) (isKeyText_smallAccount hk) hn.name

/-- What is seen of it is read back. -/
theorem round_trip_smallAccount :
    ∃ root parsed r, @parseRedactedResponse asciiLowercase viewAccount = .ok r ∧
      @ReadsView asciiLowercase smallAccount viewAccount root parsed revealAccount r := by
  let _ := asciiLowercase
  obtain ⟨parsed, root, y, hp, hdoc, hd, hbody, hcompact, hstatus, hchf, haudit, hid⟩ :=
    document_smallAccount
  -- a member selected has one of three paths
  have hpath : ∀ {n}, (revealAccount.selection smallAccount root).Takes n →
      ∃ k ∈ ["CHF", "last_audit", "id"], n.path = [.key k] ∧
        IsLast smallAccount root (PathStack.render ⟨[.key k]⟩) n := by
    intro n hn
    obtain ⟨k, hk, hlast⟩ : ∃ k ∈ ["CHF", "last_audit", "id"],
        IsLast smallAccount root (PathStack.render ⟨[.key k]⟩) n := by
      rcases hn with ⟨field, hfield, hlast⟩ | ⟨rule, hrule, hlast⟩
      · simp only [revealAccount, List.mem_cons, List.not_mem_nil, or_false] at hfield
        rcases hfield with rfl | rfl
        · exact ⟨"CHF", by simp, hlast⟩
        · exact ⟨"last_audit", by simp, hlast⟩
      · simp only [revealAccount, List.mem_singleton] at hrule
        subst hrule
        exact ⟨"id", by simp, hlast⟩
    exact ⟨k, hk, path_smallAccount hd hk hlast, hlast⟩
  have heq : ∀ {m n k}, IsLast smallAccount root (PathStack.render ⟨[.key k]⟩) m →
      IsLast smallAccount root (PathStack.render ⟨[.key k]⟩) n → m = n := hd.last_unique
  have hnames : NamesMembers smallAccount parsed.body revealAccount := by
    refine ⟨fun field hfield => ?_, fun rule hrule => ?_⟩
    · simp only [revealAccount, List.mem_cons, List.not_mem_nil, or_false] at hfield
      rcases hfield with rfl | rfl
      · exact ⟨_, _, hchf, by decide⟩
      · exact ⟨_, _, haudit, by decide⟩
    · simp only [revealAccount, List.mem_singleton] at hrule
      subst hrule
      exact ⟨_, _, hid⟩
  obtain ⟨r, hr, hread⟩ := round_trip hp succeeds_smallAccount hdoc hcompact
    ⟨17, hstatus ▸ Or.inr ⟨rfl, Or.inl ⟨rfl, rfl⟩⟩⟩ hnames
    (fun m n hm hn hpre => by
      obtain ⟨k, -, hpm, hlastm⟩ := hpath hm
      obtain ⟨k', -, hpn, hlastn⟩ := hpath hn
      rw [hpm, hpn, List.cons_prefix_cons, PathSegment.key.injEq] at hpre
      exact heq hlastm (hpre.1 ▸ hlastn))
    fun m n hm hn hleaf => by
      obtain ⟨k, -, hpm, hlastm⟩ := hpath hm
      obtain ⟨k', -, hpn, hlastn⟩ := hpath hn
      rw [leaf, leaf, hpm, hpn] at hleaf
      exact heq hlastm (render_key_inj hleaf ▸ hlastn)
  exact ⟨root, parsed, r, hr, hread⟩

end TlsnDemo
