import TlsnDemo.Properties.Reported

/-!
# The report of rules for strings

Where every body rule leads to a member with a string, nothing else of the
document is shown, so each text that the verifier reads is that of such a
member, as it stands between its quotes (`read_of_rule`). The document
need not be compact, nor need the rules be quoted.
-/

namespace TlsnDemo

open Peg Support Syntax PathNode

variable {s : List UInt8} {shown : ℕ → Bool} {config : RevealConfig} {l h e x y d k : ℕ}
  {hs bs : List Token} {root : Token} {n m : PathNode} {name : String} {text : List UInt8}

/-- **A member with a string.** -/
structure PathNode.IsString (n : PathNode) : Prop where
  member : n.IsMember
  string : n.valueToken.asRule = .string

/-- **Rules for strings**: each body rule leads to a member with a string, and
no rule reveals a key alone. -/
structure StringRules (s : List UInt8) (root : Token) (config : RevealConfig) : Prop where
  field : ∀ field ∈ config.revealBodyFields, ∀ n, IsLast s root field.keypath n → n.IsString
  key : config.revealKeysCommitValues = []

/-- The selected range of a member with a string lies in its pair. -/
theorem selected_within (hd : IsDocument s x y root) (hn : TreeNode s root n) (hstring : n.IsString)
    (field : BodyFieldConfig) (hk : (field.selectionRange n.field).Contains k) :
    n.token.start ≤ k ∧ k < n.token.stop := by
  obtain ⟨i, j, keyPair, valuePair, above, rfl, hp, -⟩ := hd.member_pair hn hstring.member
  obtain ⟨-, -, h1, -, h2, v, -, hval⟩ := hp.pair_ranges
  have hrule : valuePair.asRule = .string := hstring.string
  obtain ⟨v', hv', -, -, hspan⟩ := hval.value_token
  simp only [List.cons.injEq, and_true] at hv'
  subst hv'
  have hquotes := hspan hrule
  cases field <;>
    simp only [BodyFieldConfig.selectionRange, PathNode.member, Range.fullPairQuoted,
      Range.fullPairUnquoted, Range.extendTo, Range.Contains, extractRange, Pair.start_node,
      Pair.stop_node] at hk ⊢ <;> omega

/-- **Two members with a byte in common** are the same, if the one that starts
before it has a string. -/
theorem IsDocument.member_eq (hd : IsDocument s x y root) (hn : TreeNode s root n)
    (hstring : n.IsString) (hm : TreeNode s root m) (hmember : m.IsMember)
    (hle : n.token.start ≤ m.token.start) (hlt : m.token.start < n.token.stop) : m = n := by
  rcases Nat.eq_or_lt_of_le hle with heq | hlt'
  · exact hd.node_eq hm hn heq.symm
  · -- a pair with a string has no pair in it
    obtain ⟨hin, -⟩ := hd.member_inside hm hmember hn hstring.member ⟨hlt', hlt⟩
    obtain ⟨i, j, keyPair, valuePair, above, rfl, -, hocc⟩ := hd.member_pair hn hstring.member
    have hrule : valuePair.asRule = .string := hstring.string
    have hval : Occurs valuePair [root] := hocc.of_inner (Occurs.tail Occurs.head)
    have hinner := hd.derives.scalar_inner hval (by rw [hrule]; rfl)
    exact absurd (hinner ▸ hin) not_occurs_nil

section View

variable [ToLowercase] {parsed : StandardResponse} {ps : List (String × StandardHeader)}
  {r : RedactedResponse}
  (hr : ReadsResponse s (parseStandardBody s) parsed d l hs h bs e ps)
  (hshown : ∀ k, shown k = true ↔
    ∃ range, Reveals parsed.headers parsed.body (statusLineRange parsed) config range ∧
      range.Contains k)
  (hx : h ≤ x) (hd : IsDocument s x y root) (hbody : parsed.body = bodyMap s root)
  (hrules : StringRules s root config)

include hr hshown hx hd hbody hrules

/-- What is shown behind the opening bracket is of a member that a rule leads
to. -/
theorem member_of_shown (hk : x < k) (hsk : shown k = true) :
    ∃ field ∈ config.revealBodyFields, ∃ n, IsLast s root field.keypath n ∧
      n.token.start ≤ k ∧ k < n.token.stop := by
  have hlh := HeaderChain.le hr.text.message.headers
  obtain ⟨range, hrev, hk1, hk2⟩ := (hshown k).1 hsk
  cases hrev with
  | startLine =>
    simp only [statusLineRange, Range.withNewline, Range.adjust, hr.status] at hk2
    omega
  | header _ hl hh =>
    have hread : ReadsMessage s parsed.headers parsed.body l hs h bs e ps :=
      ⟨hr.text.message.headers, hr.text.message.body, hr.readsHeaders, hr.headers, hr.readsBody⟩
    obtain ⟨i, n, w, j, -, -, -, -, h1, h2, rfl⟩ := hread.revealed_header hl hh
    simp only [Range.headerFullRange, Range.spanTo] at hk2
    omega
  | @field field bodyField hmem hl =>
    obtain ⟨n, hlast, rfl⟩ := hd.lookup_eq_some.1 (hbody ▸ hl)
    exact ⟨field, hmem, n, hlast,
      selected_within hd hlast.node (hrules.field field hmem n hlast) field ⟨hk1, hk2⟩⟩
  | key hmem _ =>
    rw [hrules.key] at hmem
    exact absurd hmem List.not_mem_nil

/-- **A text that is read** is that of a member that a rule leads to, under the
key that it is read by. -/
theorem read_of_rule (hview : parseRedactedResponse (redact s shown) = .ok r)
    (htext : bodyText r.body (redact s shown) (PathStack.render ⟨[.key name]⟩) = .ok text) :
    ∃ field ∈ config.revealBodyFields, ∃ n, IsLast s root field.keypath n ∧
      n.path.getLast? = some (.key name) ∧ ValueText s n text := by
  obtain ⟨n, hn, hvalue⟩ := member_of_bodyText hr hshown hx hd hbody hview htext
  obtain ⟨hnode, hkey⟩ := hn.outer.revealed.named
  have hmember := hn.outer.revealed.named.isMember
  obtain ⟨-, -, hstop, hlt⟩ := hd.member_start hnode hmember
  -- the member starts behind the opening bracket, and is shown
  obtain ⟨rule, hrule, m, hlast, hle, hlt'⟩ :=
    member_of_shown hr hshown hx hd hbody hrules hlt (hn.outer.revealed.whole _ le_rfl hstop)
  -- and it is the pair of the rule, since this has no pair in it
  obtain rfl : n = m :=
    hd.member_eq hlast.node (hrules.field rule hrule m hlast) hnode hmember hle hlt'
  exact ⟨rule, hrule, n, hlast, hkey, hvalue⟩

end View

end TlsnDemo
