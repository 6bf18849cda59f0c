import TlsnDemo.Reading.Paths
import TlsnDemo.Properties.Offsets

/-!
# The body map and the paths of the document

The body map of an accepted message enumerates the paths of its document:
a string leads to the last node whose path prints as it, and to nothing
else. Entries are nested as their paths say, one way only: the node behind
an entry lies in a node whose path is the entry's without its last
segment, but where a key is repeated that node need not be the one the
shorter path leads to.
-/

namespace TlsnDemo

open Peg Syntax PathNode

variable {s : List UInt8} {root : Token} {n m c : PathNode} {p : String}

/-- **The document of an accepted message**: the token after its header
section, an object or an array. -/
structure HasDocument [ToLowercase] (s : List UInt8) (body : StringMap StandardBody)
    (root : Token) : Prop where
  accepted : ∃ line headersPair rest startLine headers,
    AcceptedAs s (line :: headersPair :: root :: rest) startLine headers body
  container : root.asRule = .object ∨ root.asRule = .array

section Document

variable [ToLowercase] {body : StringMap StandardBody} {headers : StringMap (List StandardHeader)}

theorem HasDocument.document (h : HasDocument s body root) :
    (∃ x y, IsDocument s x y root) ∧ body = bodyMap s root := by
  obtain ⟨line, headersPair, rest, startLine, headers, ha⟩ := h.accepted
  obtain ⟨line', a, b, l, hs, i, bs, e, ps, hts, -, hr⟩ := ha.reads
  simp only [List.cons.injEq] at hts
  obtain ⟨-, -, hts⟩ := hts
  have hbody := hr.readsBody
  rw [← hts, parseStandardBody, if_pos h.container] at hbody
  refine ⟨?_, ?_⟩
  · cases bodyText_of_body hr.body_eq with
    | document _ _ hd =>
      rw [List.cons_append, List.cons.injEq] at hts
      exact ⟨_, _, hts.1 ▸ hd⟩
    | redacted ht =>
      rw [List.cons_append, List.cons.injEq] at hts
      have hc := h.container
      rw [hts.1, ht.first.asRule] at hc
      exact absurd hc (by decide)
    | none =>
      rw [List.nil_append, List.cons.injEq] at hts
      have hc := h.container
      rw [hts.1] at hc
      exact absurd hc (by simp [eoiToken])
  · exact traverse_ok hbody

/-- An entry of the body map comes with a document. -/
theorem Accepted.exists_document {startLine : Range} {field : StandardBody}
    (ha : Accepted s startLine headers body) (hf : body.lookup p = some field) :
    ∃ root, HasDocument s body root := by
  obtain ⟨ts, hts⟩ := ha.exists_tokens
  obtain ⟨line, a, b, l, hs, h, bs, e, ps, rfl, -, hr⟩ := hts.reads
  obtain ⟨x, y, root, -, -, rfl, hd, -⟩ := hr.document hf
  exact ⟨root, ⟨line, _, _, startLine, headers, hts⟩, hd.root.1⟩

/-- **The body map enumerates the paths of the document.** A string leads
to the last node whose path prints as it; there is an entry whenever there
is such a node; and two nodes share an entry only if they have one path,
since a path whose keys are keys of the grammar is read back in one way. -/
theorem body_enumerates_paths (h : HasDocument s body root) :
    (∀ p field, body.lookup p = some field ↔ ∃ n, IsLast s root p n ∧ n.field = field) ∧
    (∀ p, (body.lookup p).isSome = true ↔ ∃ n, TreeNode s root n ∧ n.name = p) ∧
    (∀ m n, TreeNode s root m → TreeNode s root n → m.name = n.name → m.path = n.path) ∧
    (∀ n, TreeNode s root n → IsPath n.path) ∧
    ∀ ps qs, IsPath ps → IsPath qs → PathStack.render ⟨ps⟩ = PathStack.render ⟨qs⟩ → ps = qs := by
  obtain ⟨⟨x, y, hd⟩, rfl⟩ := h.document
  refine ⟨fun p field => hd.lookup_eq_some, fun p => isSome_lookup_bodyMap,
    fun m n hm hn => hd.path_eq hm hn, fun n hn => hd.isPath hn, fun ps qs => render_inj⟩

end Document

/-- A response whose document repeats a key, and so does its header section. -/
def repeatedKey : List UInt8 :=
  bytes "HTTP/1.1 200 OK\nA: b\na: c\n\n\x7b\"a\":\x7b\"b\":1\x7d,\"a\":2\x7d"

theorem parsedField_repeatedKey :
    ["", ".a", ".a.b"].map (@parsedField asciiLowercase repeatedKey) =
      [some (.value ⟨27, 46⟩), some (.keyValue ⟨41, 42⟩ ⟨44, 45⟩),
        some (.keyValue ⟨34, 35⟩ ⟨37, 38⟩)] := by
  decide +kernel

/-- It is accepted, and three of its paths have these entries. -/
theorem exists_accepted_repeatedKey :
    ∃ startLine headers body root, @Accepted asciiLowercase repeatedKey startLine headers body ∧
      @HasDocument asciiLowercase repeatedKey body root ∧
      body.lookup "" = some (.value ⟨27, 46⟩) ∧
      body.lookup ".a" = some (.keyValue ⟨41, 42⟩ ⟨44, 45⟩) ∧
      body.lookup ".a.b" = some (.keyValue ⟨34, 35⟩ ⟨37, 38⟩) := by
  let _ := asciiLowercase
  have h := parsedField_repeatedKey
  simp only [List.map_cons, List.map_nil, List.cons.injEq, and_true] at h
  obtain ⟨h1, h2, h3⟩ := h
  obtain ⟨parsed, hp, h1⟩ := parsedField_eq_some.1 h1
  have hlookup : ∀ {p field}, parsedField repeatedKey p = some field →
      parsed.body.lookup p = some field := by
    intro p field hf
    obtain ⟨parsed', hp', hf⟩ := parsedField_eq_some.1 hf
    rw [hp, Except.ok.injEq] at hp'
    exact hp' ▸ hf
  obtain ⟨root, hroot⟩ := (Accepted.response hp).exists_document h1
  exact ⟨_, _, _, root, Accepted.response hp, hroot, h1, hlookup h2, hlookup h3⟩

/-- The paths of its document are those of its body map. -/
theorem body_enumerates_paths_repeatedKey :
    ∃ body root, @HasDocument asciiLowercase repeatedKey body root ∧
      ∃ n, IsLast repeatedKey root ".a" n ∧ n.field = .keyValue ⟨41, 42⟩ ⟨44, 45⟩ := by
  obtain ⟨_, _, body, root, -, h, -, ha, -⟩ := exists_accepted_repeatedKey
  exact ⟨body, root, h, ((@body_enumerates_paths _ _ asciiLowercase _ h).1 _ _).1 ha⟩

/-! ## Nesting -/

/-- The spans of an entry. -/
def spans : StandardBody → List Range
  | .keyValue key value => [key, value]
  | .value range => [range]

/-- The kind of value a segment goes into. -/
def PathSegment.bracket : PathSegment → Bracket
  | .key _ => .object
  | .index _ => .array

theorem Syntax.Bracket.rule_ne_string (b : Bracket) : b.rule ≠ .string := by cases b <;> decide

theorem TreeNode.valueSpan_eq (hn : TreeNode s root n) :
    valueSpan n.field = extractRange n.valueToken := by
  cases hn with
  | root => rfl
  | member _ _ _ hinner => simp [valueSpan, PathNode.member, valueToken, hinner]
  | element _ _ _ => rfl

/-- The value a node leads to is derived as one. -/
theorem IsDocument.value_derives {x y : ℕ} (hd : IsDocument s x y root) (hn : TreeNode s root n) :
    ∃ v w, Derives s .nonAtomic .value v w [n.valueToken] := by
  rcases hd.isNode hn with rfl | ⟨h, hocc⟩
  · exact ⟨x, y, hd.derives⟩
  · cases h with
    | member hp =>
      obtain ⟨-, -, -, -, -, v, -, hv⟩ := hp.pair_ranges
      exact ⟨v, _, hv⟩
    | element hr =>
      obtain ⟨v, w, -, -, hv⟩ := hd.derives.value_of_occurs hocc hr
      exact ⟨v, w, hv⟩

/-- **A child lies strictly inside the value it is a child of**, which is
of the kind the child's segment goes into. -/
theorem IsDocument.child_inside {x y : ℕ} (hd : IsDocument s x y root) (hm : TreeNode s root m)
    (hc : c ∈ children s m.path m.valueToken) :
    ∃ seg, c.path = m.path ++ [seg] ∧ m.valueToken.asRule = seg.bracket.rule ∧
      ∀ r ∈ spans c.field, r.Inside (valueSpan m.field) := by
  obtain ⟨v, w, hval⟩ := hd.value_derives hm
  rw [hm.valueSpan_eq]
  -- the spans of a container are where it is derived, and its tokens lie inside
  have hinside : ∀ b : Bracket, m.valueToken.asRule = b.rule → ∀ u, Occurs u m.valueToken.intoInner →
      (extractRange u).Inside (extractRange m.valueToken) := by
    intro b hb u hu
    obtain ⟨t, ht, -, hspan, -⟩ := hval.value_token
    rw [List.singleton_inj] at ht
    subst ht
    have hstart := hspan (hb ▸ b.rule_ne_string)
    have hlt := hval.value_inner_lt hu
    exact ⟨by simp only [extractRange]; omega, by simp only [extractRange]; omega⟩
  generalize m.valueToken = t at hc hinside
  unfold children at hc
  split at hc
  · obtain ⟨pair, hpair, hmem⟩ := List.mem_flatMap.1 hc
    split at hmem
    · next keyPair valuePair hinner =>
      rw [List.mem_singleton] at hmem
      subst hmem
      refine ⟨_, rfl, rfl, ?_⟩
      have hbelow : ∀ u ∈ pair.intoInner, (extractRange u).Inside _ := fun u hu =>
        hinside .object rfl u ((Occurs.of_mem hpair).of_inner (Occurs.of_mem hu))
      rw [hinner] at hbelow
      intro r hr
      simp only [spans, PathNode.member, List.mem_cons, List.not_mem_nil, or_false] at hr
      rcases hr with rfl | rfl
      · exact hbelow keyPair (by simp)
      · exact hbelow valuePair (by simp)
    · simp at hmem
  · obtain ⟨⟨u, k⟩, hp, rfl⟩ := List.mem_map.1 hc
    refine ⟨_, rfl, rfl, ?_⟩
    have hu := List.mem_of_getElem? (List.mem_zipIdx_iff_getElem?.1 hp)
    intro r hr
    simp only [spans, PathNode.element, List.mem_singleton] at hr
    subst hr
    exact hinside .array rfl u (Occurs.of_mem hu)
  · simp at hc

/-- A value of the kind a segment goes into stands at a range. -/
def IsContainer (s : List UInt8) (seg : PathSegment) (range : Range) : Prop :=
  ∃ t, Derives s .nonAtomic .value range.start range.stop [t] ∧ t.asRule = seg.bracket.rule

/-- **An entry lies in the entry of the path above it.** -/
def NestedIn (s : List UInt8) (body : StringMap StandardBody) (path : List PathSegment)
    (seg : PathSegment) (field : StandardBody) : Prop :=
  ∃ parent, body.lookup (PathStack.render ⟨path⟩) = some parent ∧
    IsContainer s seg (valueSpan parent) ∧ ∀ r ∈ spans field, r.Inside (valueSpan parent)

theorem IsDocument.isContainer {x y : ℕ} {seg : PathSegment} (hd : IsDocument s x y root)
    (hm : TreeNode s root m) (h : m.valueToken.asRule = seg.bracket.rule) :
    IsContainer s seg (valueSpan m.field) := by
  obtain ⟨v, w, hval⟩ := hd.value_derives hm
  obtain ⟨t, ht, -, hspan, -⟩ := hval.value_token
  rw [List.singleton_inj] at ht
  obtain ⟨hstart, hstop⟩ := hspan (by rw [← ht, h]; exact seg.bracket.rule_ne_string)
  refine ⟨m.valueToken, ?_, h⟩
  rw [hm.valueSpan_eq, extractRange, ht, hstart, hstop, ← ht]
  exact hval

/-- **Every entry lies in a node of the path above it.** The node `m` is
an object or an array, as the last segment of the entry's path says, and
the entry's spans lie strictly inside it. The path above has an entry too:
that of `m`, or that of a later node with the same path. Where `m` is the
only one, the entry lies in the entry of the path above it. -/
theorem entry_in_node_above [ToLowercase] {body : StringMap StandardBody} {field : StandardBody}
    {path : List PathSegment} {seg : PathSegment} (h : HasDocument s body root)
    (hpath : IsPath (path ++ [seg]))
    (hf : body.lookup (PathStack.render ⟨path ++ [seg]⟩) = some field) :
    ∃ m n parent, TreeNode s root m ∧ m.path = path ∧ n ∈ children s path m.valueToken ∧
      IsLast s root (PathStack.render ⟨path ++ [seg]⟩) n ∧ n.field = field ∧
      IsContainer s seg (valueSpan m.field) ∧ (∀ r ∈ spans field, r.Inside (valueSpan m.field)) ∧
      body.lookup (PathStack.render ⟨path⟩) = some parent ∧
      (parent = m.field ∨ ∃ m', IsLast s root (PathStack.render ⟨path⟩) m' ∧ m'.path = path ∧
        m'.field = parent ∧ Before m m') ∧
      ((∀ m', TreeNode s root m' → m'.path = path → m' = m) → NestedIn s body path seg field) := by
  obtain ⟨⟨x, y, hd⟩, rfl⟩ := h.document
  obtain ⟨n, hn, rfl⟩ := hd.lookup_eq_some.1 hf
  have hnpath : n.path = path ++ [seg] := render_inj (hd.isPath hn.node) hpath hn.name
  obtain rfl | ⟨m, hm, hc⟩ := hn.node.cases_child
  · exact absurd hnpath (by simp [PathNode.element])
  obtain ⟨seg', hcpath, hrule, hin⟩ := hd.child_inside hm hc
  rw [hnpath] at hcpath
  obtain ⟨rfl, hseg⟩ := List.append_inj' hcpath rfl
  rw [List.singleton_inj] at hseg
  subst hseg
  have hcont := hd.isContainer hm hrule
  -- the path above leads to `m`, or to the last node that shares its path
  obtain ⟨parent, hparent⟩ := Option.isSome_iff_exists.1 (isSome_lookup_bodyMap.2 ⟨m, hm, rfl⟩)
  obtain ⟨m', hm', hfield⟩ := hd.lookup_eq_some.1 hparent
  have hpath' : m'.path = m.path := hd.path_eq hm'.node hm hm'.name
  refine ⟨m, n, parent, hm, rfl, hc, hn, rfl, hcont, hin, hparent, ?_, fun huniq => ?_⟩
  · have hle := hm'.last m hm rfl
    rcases Support.eq_or_of_pairwise hd.ordered (treeNode_iff.1 hm) (treeNode_iff.1 hm'.node) with
      rfl | hlt | hlt
    · exact Or.inl hfield.symm
    · exact Or.inr ⟨m', hm', hpath', hfield, hlt⟩
    · exact absurd hle (Nat.not_le_of_lt hlt)
  · obtain rfl := huniq m' hm'.node hpath'
    exact ⟨parent, hparent, hfield ▸ hcont, hfield ▸ hin⟩

theorem isPath_a_b : IsPath ([.key "a"] ++ [.key "b"]) := by
  intro k hk
  simp only [List.cons_append, List.nil_append, List.mem_cons, PathSegment.key.injEq,
    List.not_mem_nil, or_false] at hk
  rcases hk with rfl | rfl
  · exact ⟨bytes "a", .compoundAtomic, 0, 1, .node .key 0 1 [], rfl, rfl⟩
  · exact ⟨bytes "b", .compoundAtomic, 0, 1, .node .key 0 1 [], rfl, rfl⟩

/-- In the document with the repeated key, `.a.b` lies in the object that
the first `.a` leads to. -/
theorem entry_in_node_above_repeatedKey :
    ∃ root m, TreeNode repeatedKey root m ∧ m.path = [.key "a"] ∧
      (⟨34, 35⟩ : Range).Inside (valueSpan m.field) := by
  obtain ⟨_, _, body, root, -, h, -, -, hab⟩ := exists_accepted_repeatedKey
  obtain ⟨m, n, parent, hm, hpath, -, -, -, -, hin, -⟩ :=
    @entry_in_node_above _ _ asciiLowercase _ _ _ _ h isPath_a_b hab
  exact ⟨root, m, hm, hpath, hin _ (by simp [spans])⟩

/-- **A repeated key** leaves the members of the value it first had behind:
`.a` leads to the number, and `.a.b` still leads into the object. -/
theorem not_forall_nestedIn :
    ¬ ∀ (_ : ToLowercase) (s : List UInt8) (startLine : Range)
      (headers : StringMap (List StandardHeader)) (body : StringMap StandardBody),
      Accepted s startLine headers body → ∀ path seg field, IsPath (path ++ [seg]) →
      body.lookup (PathStack.render ⟨path ++ [seg]⟩) = some field →
      NestedIn s body path seg field := by
  intro hall
  obtain ⟨startLine, headers, body, root, hacc, -, -, ha, hab⟩ := exists_accepted_repeatedKey
  obtain ⟨parent, hparent, -, hin⟩ := hall asciiLowercase _ _ _ _ hacc _ _ _ isPath_a_b hab
  have hpa : body.lookup (PathStack.render ⟨[.key "a"]⟩) = some (.keyValue ⟨41, 42⟩ ⟨44, 45⟩) := ha
  rw [hpa, Option.some.injEq] at hparent
  subst hparent
  have hinside := (hin ⟨34, 35⟩ (by simp [spans])).1
  exact absurd hinside (by decide)

end TlsnDemo
