import TlsnDemo.Properties.RoundTrip
import TlsnDemo.Reading.SameTokens

/-!
# Revealing more

A report does not change when more headers are revealed, nor when more
members are, if these are under other keys, contain no member that the
report is read from, and are shown as they are written
(`extractBalance_more`).
-/

namespace TlsnDemo

open Peg Support Syntax PathNode

variable {s : List UInt8} {shown : ℕ → Bool} {i j k l h e x y d q m : ℕ} {hs us bs : List Token}
  {root t : Token}

/-! ## The byte behind the first line -/

/-- In front of a document that starts behind the header section stands the
size of a chunk. -/
theorem document_front (hb : Peg.optional Grammar.body s .nonAtomic i = some (e, [root]))
    (hd : IsDocument s x y root) :
    x = i ∨ ∃ c, s[i]? = some c ∧ Grammar.isAsciiHexDigit c = true := by
  obtain ⟨hrule, hx, -⟩ := hd.root
  rcases optional_eq_some.1 hb with hb | ⟨-, -, hnil⟩
  · rcases body_eq_some.1 hb with hb | ⟨-, hb | ⟨-, hb⟩⟩
    · obtain ⟨k, m, hc⟩ := chunkedBody_eq_some.1 hb
      exact Or.inr (at_iff.1 (chunkSize_iff.1 hc.size).1)
    · obtain ⟨hval, b, hopen⟩ := (json_eq_some (by decide)).1 hb
      have hd' : IsDocument s i e root := ⟨hval, b, hopen⟩
      exact Or.inl (hx.symm.trans hd'.root.2.1)
    · obtain ⟨t, us, k, m, hr, htokens⟩ := bodyRedacted_eq_some.1 hb
      simp only [List.cons.injEq] at htokens
      rw [htokens.1, hr.first.asRule] at hrule
      exact absurd hrule (by decide)
  · exact absurd hnil (by simp)

/-- **Where the view has a redacted body**, the byte behind the first line
starts no line that is hidden, and if the document starts there, it does
with a brace. -/
theorem ResponseView.first_byte (hv : ResponseView s shown i l h hs x y) (hil : i ≤ l)
    (hb : Peg.optional Grammar.body s .nonAtomic (skip s .nonAtomic h) = some (e, [root]))
    (hd : IsDocument s x y root) (hc : HeaderChain (redact s shown) l q us)
    (ht : RedactedBodyText (redact s shown) (skip (redact s shown) .nonAtomic q) j t bs k m) :
    FirstByte s shown l hs x ∧ (x = l → s[x]? = some openBrace) := by
  obtain ⟨b, hopening⟩ := hd.opening
  have hbracket := b.not_headerNameChar
  have hlh := HeaderChain.le hv.lines
  have hdoc := hv.document
  by_cases hw : ∀ c, s[l]? = some c → isWhitespace c = true
  · refine ⟨fun c hc' => Or.inl (hw c hc'), fun hxl => ?_⟩
    have hspace := hw _ (hxl ▸ hopening)
    cases b <;> exact absurd hspace (by decide)
  · obtain ⟨c, hcs, hsolid⟩ : ∃ c, s[l]? = some c ∧ isWhitespace c = false := by
      simpa using hw
    have hcv : (redact s shown)[l]? = some c :=
      (getElem?_redact_of_shown (hv.first l hil le_rfl)).trans hcs
    have hstay := skip_self (a := .nonAtomic) hcv hsolid
    have hnw : ∀ c, s[l]? = some c → isWhitespace c = false := by
      intro c' hc'
      rw [hcs, Option.some.injEq] at hc'
      exact hc' ▸ hsolid
    cases hc with
    | step hm _ =>
      -- a line is read at the byte, which is one that is shown
      obtain ⟨u, hu, -⟩ := header_eq_some.1 (next_eq_some.1 hm)
      rw [← Syntax.skip, hstay] at hu
      obtain ⟨n, hstart⟩ : ∃ n, HeaderStart (redact s shown) l n := by
        cases hu with
        | full hstart _ => exact ⟨_, hstart⟩
        | bare hstart _ => exact ⟨_, hstart⟩
      rcases Nat.eq_or_lt_of_le hlh with rfl | hlt
      · have hname := hstart.name.lt
        obtain ⟨c', hc', hnext⟩ : ∃ c, (redact s shown)[l + 1]? = some c ∧
            (isHeaderNameChar c = true ∨ c = colon) := by
          rcases Nat.eq_or_lt_of_le (show l + 1 ≤ n from hname) with heq | hlt
          · exact ⟨_, heq ▸ hstart.colon, Or.inr rfl⟩
          · obtain ⟨c, hc, hf⟩ := hstart.name.mem (l + 1) (by omega) hlt
            exact ⟨c, hc, Or.inl hf⟩
        have hne : c' ≠ 0 := by
          rintro rfl
          rcases hnext with hf | hf <;> exact absurd hf (by decide)
        obtain ⟨hsl, hcl⟩ := shown_of_ne_zero hc' hne
        have hxl : x ≤ l + 1 := by
          rcases (hv.parts hsl).2 with h1 | ⟨t, htmem, h1, h2⟩ | h1
          · omega
          · have := HeaderChain.mem hv.lines htmem
            omega
          · exact h1.1
        exfalso
        rcases Nat.eq_or_lt_of_le hdoc with rfl | hlx
        · obtain ⟨c'', hc'', hf⟩ := hstart.name.mem l le_rfl hname
          rw [hcv, Option.some.injEq] at hc''
          rw [hcs, Option.some.injEq] at hopening
          rw [← hc'', hopening, hbracket.1] at hf
          exact absurd hf (by simp)
        · obtain rfl : x = l + 1 := by omega
          rw [hcl, Option.some.injEq] at hopening
          rcases hnext with hf | hf
          · rw [hopening, hbracket.1] at hf
            exact absurd hf (by simp)
          · exact hbracket.2 (hopening.symm.trans hf)
      · obtain ⟨n', w, m', htmem, hline⟩ := hv.line_at_first hil hlt hnw
        exact ⟨fun _ _ => Or.inr (Or.inl ⟨n', w, m', htmem, hline ⟨n, hstart⟩⟩), fun hxl => by omega⟩
    | stop _ =>
      rw [hstay] at ht
      have hfront : c = openBrace ∨ c = quote := by
        rcases ht.front hstay with hf | hf
        · rw [hcv, Option.some.injEq] at hf
          exact Or.inl hf
        · rw [hcv, Option.some.injEq] at hf
          exact Or.inr hf
      rcases Nat.eq_or_lt_of_le hlh with rfl | hlt
      · rw [skip_self hcs hsolid] at hb
        rcases document_front hb hd with hx | ⟨c', hc', hhex⟩
        · subst hx
          refine ⟨fun _ _ => Or.inr (Or.inr rfl), fun _ => ?_⟩
          rcases hfront with rfl | rfl
          · exact hcs
          · rw [hcs, Option.some.injEq] at hopening
            cases b <;> exact absurd hopening (by decide)
        · rw [hcs, Option.some.injEq] at hc'
          subst hc'
          rcases hfront with rfl | rfl <;> exact absurd hhex (by decide)
      · obtain ⟨n', w, m', htmem, -⟩ := hv.line_at_first hil hlt hnw
        obtain ⟨hname, -, -, h1, -⟩ := hv.text htmem
        obtain ⟨c', hc', hf⟩ := hname.name.mem l le_rfl h1
        rw [hcs, Option.some.injEq] at hc'
        subst hc'
        rcases hfront with rfl | rfl <;> exact absurd hf (by decide)

/-! ## A selection that takes more -/

namespace Selection

variable {sel more : Selection} {n : PathNode} {p : String}

/-- **A selection takes more than another**, apart from the members under a
leaf: what it takes besides is not under the leaf, and none that the other
takes under it lies in what is added. -/
structure Adds (more sel : Selection) (p : String) : Prop where
  pair : ∀ {n}, sel.pair n → more.pair n
  key : ∀ {n}, more.key n ↔ sel.key n
  leaf : ∀ {n}, more.pair n → ¬ sel.pair n → n.leaf ≠ p
  inside : ∀ {n m}, more.pair n → ¬ sel.pair n → sel.Takes m → m.leaf = p →
    ¬ Occurs m.token n.token.intoInner

theorem Adds.takes (h : more.Adds sel p) (hn : sel.Takes n) : more.Takes n :=
  hn.imp h.pair h.key.2

/-- Under the leaf, both take the same. -/
theorem Adds.takes_of_leaf (h : more.Adds sel p) (hn : more.Takes n) (hp : n.leaf = p) :
    sel.Takes n := by
  by_cases hpair : sel.pair n
  · exact Or.inl hpair
  · exact Or.inr (h.key.1 (hn.resolve_left fun hmore => h.leaf hmore hpair hp))

/-- A member under the leaf stays outside of the others. -/
theorem Adds.outer (h : more.Adds sel p) (hn : sel.Outer n) (hp : n.leaf = p) : more.Outer n := by
  refine ⟨h.takes hn.1, fun m hm hin => ?_⟩
  by_cases hpair : sel.pair m
  · exact hn.2 m hpair hin
  · exact h.inside hm hpair hn.1 hp hin

/-- **The last member under the leaf is the same.** -/
theorem Adds.lastOuter (h : more.Adds sel p) (hn : sel.LastOuter s root p n) :
    more.LastOuter s root p n where
  node := hn.node
  outer := h.outer hn.outer hn.leaf
  leaf := hn.leaf
  last m hm hout hleaf :=
    hn.last m hm ⟨h.takes_of_leaf hout.1 hleaf, fun q hq => hout.2 q (h.pair hq)⟩ hleaf

end Selection

/-! ## Two configurations -/

section Configurations

variable [ToLowercase] {tlsn : Tlsn} {parsed : StandardResponse} {ps : List (String × StandardHeader)}
  {a b : RevealConfig} {out : BalanceOutput}

/-- **A configuration with more rules**: it reveals more headers and more
members, and commits to the same. -/
structure RevealConfig.HasRulesOf (b a : RevealConfig) : Prop where
  revealHeaders : ∀ name ∈ a.revealHeaders, name ∈ b.revealHeaders
  commitHeaders : b.commitHeaders = a.commitHeaders
  revealBodyFields : ∀ field ∈ a.revealBodyFields, field ∈ b.revealBodyFields
  commitBodyFields : b.commitBodyFields = a.commitBodyFields
  revealKeysCommitValues : b.revealKeysCommitValues = a.revealKeysCommitValues

/-- **The rules that are added leave a key alone**: each leads to a member
under another key, in which no member that is selected under the key lies. -/
def LeaveAlone (s : List UInt8) (root : Token) (a b : RevealConfig) (p : String) : Prop :=
  ∀ field ∈ b.revealBodyFields, field ∉ a.revealBodyFields → ∀ n, IsLast s root field.keypath n →
    n.leaf ≠ p ∧ ∀ m, (a.selection s root).Takes m → m.leaf = p →
      ¬ Occurs m.token n.token.intoInner

omit [ToLowercase] in
theorem RevealConfig.HasRulesOf.adds (h : b.HasRulesOf a) (hp : LeaveAlone s root a b p) :
    (b.selection s root).Adds (a.selection s root) p := by
  have hadded : ∀ {n}, (b.selection s root).pair n → ¬ (a.selection s root).pair n →
      n.leaf ≠ p ∧ ∀ m, (a.selection s root).Takes m → m.leaf = p →
        ¬ Occurs m.token n.token.intoInner := by
    rintro n ⟨field, hfield, hn⟩ hno
    exact hp field hfield (fun hold => hno ⟨field, hold, hn⟩) n hn
  refine ⟨?_, ?_, fun h1 h2 => (hadded h1 h2).1, fun h1 h2 h3 h4 => (hadded h1 h2).2 _ h3 h4⟩
  · rintro n ⟨field, hfield, hn⟩
    exact ⟨field, h.revealBodyFields field hfield, hn⟩
  · intro n
    simp only [RevealConfig.selection, h.revealKeysCommitValues]

omit [ToLowercase] in
theorem RevealConfig.HasRulesOf.suiting (h : b.HasRulesOf a) (hb : SuitingRules s root b) :
    SuitingRules s root a where
  field field hfield := hb.field field (h.revealBodyFields field hfield)
  key rule hrule := hb.key rule (h.revealKeysCommitValues.symm ▸ hrule)

section View

variable {r : RedactedResponse} {p : String}
  (hr : ReadsResponse s (parseStandardBody s) parsed d l hs h [root] e ps)
  (hshown : ∀ k, shown k = true ↔
    ∃ range, Reveals parsed.headers parsed.body (statusLineRange parsed) a range ∧
      range.Contains k)
  (hx : h ≤ x) (hd : IsDocument s x y root) (hbody : parsed.body = bodyMap s root)
  (hrules : SuitingRules s root a) (hparse : parseRedactedResponse (redact s shown) = .ok r)

include hr hshown hx hd hbody hrules hparse

/-- **A view in which an entry is read** is read as what its rules select. -/
theorem reads_of_entry {field : RedactedBody} (hf : r.body.lookup p = some field) :
    FirstByte s shown l hs x ∧ (x = l → s[x]? = some openBrace) ∧
      r.body = insertAll ∅ (((a.selection s root).outer s root).map fun n =>
        (n.leaf, (a.selection s root).field n)) := by
  have hv := responseView_document hr hshown hx hd hbody
  have hsel := hrules.selects
  have hil := hr.text.status.lt.le
  obtain ⟨d', l', hs', h', bs, e', ps', t, us, k, m, hread, rfl, ht, -⟩ := redacted_of_lookup hparse hf
  obtain rfl : l' = l := hv.first_line rfl hr.text.status hread.text.status
  obtain ⟨hfirst, hbrace⟩ := hv.first_byte hil hr.text.message.body hd hread.text.message.headers ht
  -- the entry is of a member that is shown, so there is one
  obtain ⟨u, hpair, -⟩ := hv.entry rfl hr.text.status hparse hf
  have hxq := hpair.start
  have hquote := hpair.text.opening
  obtain ⟨hsq, hq⟩ := shown_of_ne_zero hquote (by decide)
  have houter : ∃ n, (a.selection s root).Outer n := by
    rcases selected_of_shown hr hshown hx hd hbody hrules hxq hsq with hql | ⟨n, hn, -⟩
    · have hlh := HeaderChain.le hv.lines
      obtain rfl : x = u.start := by omega
      obtain ⟨b, hb⟩ := hd.opening
      rw [hq, Option.some.injEq] at hb
      cases b <;> exact absurd hb (by decide)
    · obtain ⟨n, hn, -⟩ := Selection.exists_outer hd hsel hn
      exact ⟨n, hn⟩
  have hview := read_view hr hshown hx hd hbody hrules hfirst fun hxs =>
    ⟨hbrace (opening_shown hr hshown hx hd hbody hrules hxs), houter⟩
  rw [hparse, Except.ok.injEq] at hview
  exact ⟨hfirst, hbrace, congrArg Response.body hview⟩

/-- **A text that is read** is that of the last member under the leaf. -/
theorem text_of_view {text : List UInt8} (htext : bodyText r.body (redact s shown) p = .ok text) :
    ∃ n key value, (a.selection s root).LastOuter s root p n ∧ (a.selection s root).pair n ∧
      n.field = .keyValue key value ∧ text = slice s value := by
  have hsel := hrules.selects
  obtain ⟨field, range, hf, hrange, -, rfl⟩ := bodyText_eq_ok.1 htext
  obtain ⟨-, -, hbody'⟩ := reads_of_entry hr hshown hx hd hbody hrules hparse hf
  rw [hbody', Selection.lookup_outer hd] at hf
  obtain ⟨n, hn, rfl⟩ := hf
  obtain ⟨key, value, hfield⟩ := (hsel.node hn.outer.1).2
  have hpair : (a.selection s root).pair n := by
    by_contra hpair
    rw [Selection.field_of_not_pair hpair hfield] at hrange
    simp [fieldRange] at hrange
  rw [Selection.field_of_pair hpair hfield, fieldRange, Option.some.injEq] at hrange
  subst hrange
  exact ⟨n, key, value, hn, hpair, hfield,
    Selection.slice_value hd hsel (selection_shown hr hshown hx hd hbody hrules) hpair hfield⟩

end View

/-- **Revealing more does not change the report.** Where the rules suit the
document, and those that are added leave the two keys alone, the verifier
reports of the larger view what it reports of the smaller one. -/
theorem extractBalance_more (hp : parseStandardResponse s = .ok parsed)
    (ha : (revealResponse tlsn s a).Succeeds) (hb : (revealResponse tlsn s b).Succeeds)
    (hroot : ResponseDocument s root) (hrules : SuitingRules s root b) (hmore : b.HasRulesOf a)
    (hchf : LeaveAlone s root a b ".CHF") (haudit : LeaveAlone s root a b ".last_audit")
    (hout : extractBalance (redact s (revealedBy (revealResponse tlsn s a).calls)) = .ok out) :
    extractBalance (redact s (revealedBy (revealResponse tlsn s b).calls)) = .ok out := by
  obtain ⟨d, l, hs, h, bs, e, ps, hr⟩ := parseResponseInner_eq_ok.1 hp
  have hshowna := fun k => shown_iff (k := k) hp ha
  have hshownb := fun k => shown_iff (k := k) hp hb
  generalize revealedBy (revealResponse tlsn s a).calls = shown at hshowna hout
  generalize revealedBy (revealResponse tlsn s b).calls = shown' at hshownb ⊢
  obtain ⟨x, y, hx, rfl, hd, hbody⟩ := hroot.located hr
  have hx' : h ≤ x := le_skipTo.trans hx
  have hrulesa := hmore.suiting hrules
  have hsel := hrules.selects
  have hascii := ascii_of_parse_response (parse_response_eq_some.2 ⟨d, l, hs, h, _, e, hr.text, rfl⟩)
  obtain ⟨-, r, hparse, htext1, htext2⟩ := extractBalance_eq_ok.1 hout
  obtain ⟨n, key, value, hn, hpair, hfield, htext⟩ :=
    text_of_view hr hshowna hx' hd hbody hrulesa hparse htext1
  obtain ⟨n', key', value', hn', hpair', hfield', htext'⟩ :=
    text_of_view hr hshowna hx' hd hbody hrulesa hparse htext2
  -- what the larger view starts with is as in the smaller one
  obtain ⟨field, -, hf, -⟩ := bodyText_eq_ok.1 htext1
  obtain ⟨hfirst, hbrace, -⟩ := reads_of_entry hr hshowna hx' hd hbody hrulesa hparse hf
  have hfirst' : FirstByte s shown' l hs x := by
    intro c hc
    rcases hfirst c hc with hw | ⟨n, w, m, ht, hline⟩ | hxl
    · exact Or.inl hw
    · obtain ⟨name, hname, hkey⟩ := (line_shown_iff hr hshowna hx' hd hbody ht).2.1 hline
      have hline' := (line_shown_iff hr hshownb hx' hd hbody ht).2.2
        ⟨name, hmore.revealHeaders name hname, hkey⟩
      exact Or.inr (Or.inl ⟨n, w, m, ht, hline'⟩)
    · exact Or.inr (Or.inr hxl)
  have hlast := (hmore.adds hchf).lastOuter hn
  have hlast' := (hmore.adds haudit).lastOuter hn'
  have hview := read_view hr hshownb hx' hd hbody hrules hfirst' fun hxs =>
    ⟨hbrace (opening_shown hr hshownb hx' hd hbody hrules hxs), n, hlast.outer⟩
  have hread : ∀ {p n key value}, (b.selection s root).LastOuter s root p n →
      (b.selection s root).pair n → n.field = .keyValue key value →
      bodyText (insertAll ∅ (((b.selection s root).outer s root).map fun n =>
        (n.leaf, (b.selection s root).field n)) : StringMap RedactedBody) (redact s shown') p =
        .ok (slice s value) := by
    intro p n key value hlast hpair hfield
    rw [← Selection.slice_value hd hsel (selection_shown hr hshownb hx' hd hbody hrules) hpair hfield]
    exact bodyText_of_entry (ascii_redact hascii) ((Selection.lookup_outer hd).2
      ⟨n, hlast, Selection.field_of_pair hpair hfield⟩)
  refine extractBalance_eq_ok.2 ⟨validateUTF8_of_ascii (ascii_redact hascii), _, hview, ?_, ?_⟩
  · exact htext ▸ hread hlast ((hmore.adds hchf).pair hpair) hfield
  · exact htext' ▸ hread hlast' ((hmore.adds haudit).pair hpair') hfield'

end Configurations

/-- Two members of a response, one of them an object. -/
def revealTwo : RevealConfig :=
  { revealBodyFields := [.quoted ".CHF", .unquoted ".last_audit"] }

/-- And a header and a member more. -/
def revealThree : RevealConfig :=
  { revealHeaders := ["A"]
    revealBodyFields := [.quoted ".CHF", .unquoted ".last_audit", .unquoted ".id"] }

/-- What is seen of a response under a configuration. -/
def viewOf (s : List UInt8) (config : RevealConfig) : List UInt8 :=
  redact s (revealedBy (@revealResponse asciiLowercase acceptAll s config).calls)

theorem two_subset_three {field : BodyFieldConfig} (h : field ∈ revealTwo.revealBodyFields) :
    field ∈ revealThree.revealBodyFields := by
  simp only [revealTwo, List.mem_cons, List.not_mem_nil, or_false] at h
  rcases h with rfl | rfl <;> simp [revealThree]

theorem succeeds_revealTwo :
    (@revealResponse asciiLowercase acceptAll smallAccount revealTwo).Succeeds :=
  ⟨(), by decide +kernel⟩

theorem succeeds_revealThree :
    (@revealResponse asciiLowercase acceptAll smallAccount revealThree).Succeeds :=
  ⟨(), by decide +kernel⟩

theorem extractBalance_revealTwo :
    @extractBalance asciiLowercase (viewOf smallAccount revealTwo) =
      .ok ⟨bytes "12", bytes "\x7b\"day\":3\x7d"⟩ := by
  decide +kernel

/-- The larger configuration leaves the two keys alone. -/
theorem leaveAlone_smallAccount {y : ℕ} {p k : String} (hd : IsDocument smallAccount 31 y root)
    (hrules : SuitingRules smallAccount root revealThree) (hk : k ∈ ["CHF", "last_audit"])
    (hp : PathStack.render ⟨[.key k]⟩ = p) :
    LeaveAlone smallAccount root revealTwo revealThree p := by
  have hpath : ∀ {k' n}, k' ∈ ["CHF", "last_audit", "id"] →
      IsLast smallAccount root (PathStack.render ⟨[.key k']⟩) n → n.path = [.key k'] :=
    fun hk hn => path_smallAccount hd hk hn
  intro field hb ha n hn
  have hid : IsLast smallAccount root (PathStack.render ⟨[.key "id"]⟩) n := by
    simp only [revealThree, List.mem_cons, List.not_mem_nil, or_false] at hb
    rcases hb with rfl | rfl | rfl
    · exact absurd (show _ ∈ revealTwo.revealBodyFields by simp [revealTwo]) ha
    · exact absurd (show _ ∈ revealTwo.revealBodyFields by simp [revealTwo]) ha
    · exact hn
  have hn' := hpath (by simp) hid
  refine ⟨fun hleaf => ?_, fun m hm _ hin => ?_⟩
  · rw [← hp, leaf, hn'] at hleaf
    have := render_key_inj hleaf
    subst this
    simp at hk
  · -- what lies in the member has a longer path than one that is selected
    obtain ⟨field', hfield', hlast⟩ : (revealTwo.selection smallAccount root).pair m :=
      hm.resolve_right (by simp [RevealConfig.selection, revealTwo])
    obtain ⟨k', hm'⟩ : ∃ k', m.path = [.key k'] := by
      simp only [revealTwo, List.mem_cons, List.not_mem_nil, or_false] at hfield'
      rcases hfield' with rfl | rfl
      · exact ⟨_, @hpath "CHF" _ (by simp) hlast⟩
      · exact ⟨_, @hpath "last_audit" _ (by simp) hlast⟩
    obtain ⟨seg, rest, h⟩ := hd.path_of_inside hn.node (hrules.field field hb n hn).member
      hlast.node (hrules.field field' (two_subset_three hfield') m hlast).member hin
    rw [hm', hn'] at h
    simp at h

/-- The report stays as it is. -/
theorem extractBalance_more_smallAccount :
    @extractBalance asciiLowercase (viewOf smallAccount revealThree) =
      .ok ⟨bytes "12", bytes "\x7b\"day\":3\x7d"⟩ := by
  let _ := asciiLowercase
  obtain ⟨parsed, root, y, hp, hdoc, hd, hbody, hcompact, -, hchf, haudit, hid⟩ :=
    document_smallAccount
  have hnames : NamesMembers smallAccount parsed.body revealThree := by
    refine ⟨fun field hfield => ?_, fun rule hrule => by simp [revealThree] at hrule⟩
    simp only [revealThree, List.mem_cons, List.not_mem_nil, or_false] at hfield
    rcases hfield with rfl | rfl | rfl
    · exact ⟨_, _, hchf, by decide⟩
    · exact ⟨_, _, haudit, by decide⟩
    · exact ⟨_, _, hid, by decide⟩
  have hmore : revealThree.HasRulesOf revealTwo :=
    ⟨by simp [revealTwo], rfl, fun _ hfield => two_subset_three hfield, rfl, rfl⟩
  have hrules := (hbody ▸ hnames).suits hd hcompact
  have hchf := leaveAlone_smallAccount (k := "CHF") hd hrules (by simp) rfl
  have haudit := leaveAlone_smallAccount (k := "last_audit") hd hrules (by simp) rfl
  exact extractBalance_more hp succeeds_revealTwo succeeds_revealThree hdoc hrules hmore hchf
    haudit extractBalance_revealTwo

end TlsnDemo
