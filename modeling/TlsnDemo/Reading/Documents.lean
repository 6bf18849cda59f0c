import TlsnDemo.Reading.Messages

/-!
# The document of a message

The body of a message is a document, chunked or not, or a list of redacted
pairs, or nothing. The body map of an accepted message is that of its
document, so each entry of the map is a node of the document.
-/

namespace TlsnDemo

open Peg Syntax

variable {s : List UInt8} {i l h e : ℕ} {hs bs : List Token}

/-- **A document**: the root of a JSON text, and where it lies. -/
structure IsDocument (s : List UInt8) (x y : ℕ) (root : Token) : Prop where
  derives : Derives s .nonAtomic .value x y [root]
  opening : ∃ b : Bracket, s[x]? = some b.opening

theorem IsDocument.root {x y : ℕ} {root : Token} (h : IsDocument s x y root) :
    (root.asRule = .object ∨ root.asRule = .array) ∧ root.start = x ∧ root.stop = y := by
  obtain ⟨b, hb⟩ := h.opening
  have hd := h.derives
  cases hd with
  | empty b' _ _ _ => cases b' <;> simp [Bracket.rule]
  | filled b' _ _ _ _ _ => cases b' <;> simp [Bracket.rule]
  | string hq _ _ _ _ =>
    rw [hb] at hq
    cases b <;> exact absurd hq (by decide)
  | scalar hs =>
    obtain ⟨c, hc, -, h1, h2, -⟩ := hs.first
    rw [hb, Option.some.injEq] at hc
    cases b
    · exact absurd hc.symm h1
    · exact absurd hc.symm h2

/-- **What the body of a message is**, from `i` up to `e`. -/
inductive BodyText (s : List UInt8) (i : ℕ) : ℕ → List Token → Prop
  | document {x y e : ℕ} {root : Token} : i ≤ x → y ≤ e → IsDocument s x y root →
      BodyText s i e [root]
  | redacted {e k l : ℕ} {t : Token} {us : List Token} : RedactedBodyText s i e t us k l →
      BodyText s i e (t :: us)
  | none : BodyText s i i []

theorem bodyText_of_body (h : Peg.optional Grammar.body s .nonAtomic i = some (e, bs)) :
    BodyText s i e bs := by
  rcases optional_eq_some.1 h with h | ⟨-, rfl, rfl⟩
  · rcases body_eq_some.1 h with h | ⟨-, h | ⟨-, h⟩⟩
    · obtain ⟨k, m, hc⟩ := chunkedBody_eq_some.1 h
      obtain ⟨root, rfl, -⟩ := hc.json.value_token
      have h1 := (Progress.rep1 progress_whitespace Progress.satisfy hc.size).1
      have h2 : k ≤ skip s .nonAtomic k := le_skipTo
      have h3 : m ≤ skip s .nonAtomic m := le_skipTo
      have h4 := hc.stop
      exact BodyText.document (by omega) (by omega) ⟨hc.json, hc.opening⟩
    · obtain ⟨hd, hb⟩ := (json_eq_some (by decide)).1 h
      obtain ⟨root, rfl, -⟩ := hd.value_token
      exact BodyText.document le_rfl le_rfl ⟨hd, hb⟩
    · obtain ⟨t, us, k, l, hr, rfl⟩ := bodyRedacted_eq_some.1 h
      exact BodyText.redacted hr
  · exact BodyText.none

theorem Syntax.RedactedText.asRule {j : ℕ} {t : Token} (h : RedactedText s i j t) :
    t.asRule = .pairRedacted := by
  cases h <;> rfl

section Entries

variable [ToLowercase] {headers : StringMap (List StandardHeader)} {body : StringMap StandardBody}
  {ps : List (String × StandardHeader)} {p : String} {field : StandardBody}

/-- **The body map of a message** is empty, or that of its document. -/
theorem ReadsMessage.empty_or_document (hr : ReadsMessage s headers body l hs h bs e ps) :
    body = ∅ ∨ ∃ x y root, skip s .nonAtomic h ≤ x ∧ y ≤ e ∧ bs = [root] ∧ IsDocument s x y root ∧
      body = bodyMap s root := by
  refine (parseStandardBody_ok hr.readsBody).imp_right ?_
  rintro ⟨root, rest, hpairs, hrule, hbody⟩
  cases bodyText_of_body hr.body_eq with
  | document h1 h2 hd =>
    simp only [List.cons_append, List.cons.injEq] at hpairs
    exact ⟨_, _, _, h1, h2, rfl, hd, hpairs.1 ▸ hbody⟩
  | redacted ht =>
    simp only [List.cons_append, List.cons.injEq] at hpairs
    rw [← hpairs.1, ht.first.asRule] at hrule
    exact absurd hrule (by decide)
  | none =>
    simp only [List.nil_append, List.cons.injEq] at hpairs
    rw [← hpairs.1] at hrule
    exact absurd hrule (by simp [eoiToken])

/-- **An entry of the body map comes from a document.** -/
theorem ReadsMessage.document (hr : ReadsMessage s headers body l hs h bs e ps)
    (hf : body.lookup p = some field) :
    ∃ x y root, skip s .nonAtomic h ≤ x ∧ y ≤ e ∧ bs = [root] ∧ IsDocument s x y root ∧
      body = bodyMap s root := by
  refine hr.empty_or_document.resolve_left ?_
  rintro rfl
  simp at hf

omit [ToLowercase] in
/-- An entry of a document's map is its root or one of its nodes. -/
theorem IsDocument.entry {x y : ℕ} {root : Token} (hd : IsDocument s x y root)
    (hf : (bodyMap s root).lookup p = some field) :
    p = "" ∧ field = .value (extractRange root) ∨
      ∃ n ∈ nodesValue s [] root, PathStack.render ⟨n.path⟩ = p ∧ n.field = field ∧
        IsNode s .nonAtomic n ∧ Occurs n.token [root] := by
  rcases lookup_bodyMap hf with h | ⟨n, hn, hp, hfield⟩
  · exact Or.inl h
  · have hn' : n ∈ nodesOf s [] 0 .value [root] := by simpa [nodesOf] using hn
    obtain ⟨h1, h2⟩ := hd.derives.nodes hn'
    exact Or.inr ⟨n, hn, hp, hfield, h1, h2⟩

omit [ToLowercase] in
/-- The entry of the empty path is the root. -/
theorem IsDocument.root_entry {x y : ℕ} {root : Token} (hd : IsDocument s x y root)
    (hf : (bodyMap s root).lookup "" = some field) : field = .value ⟨x, y⟩ := by
  rcases lookup_bodyMap hf with ⟨-, rfl⟩ | ⟨n, hn, hp, -⟩
  · obtain ⟨-, h1, h2⟩ := hd.root
    rw [extractRange, h1, h2]
  · have hn' : n ∈ nodesOf s [] 0 .value [root] := by simpa [nodesOf] using hn
    obtain ⟨seg, rest, hpath⟩ := nodesOf_path hd.derives hn'
    rw [hpath, List.nil_append] at hp
    exact absurd hp render_cons_ne

/-- **The body of an accepted message**, as the map has it. -/
theorem Accepted.body_document {startLine range : Range} (ha : Accepted s startLine headers body)
    (hf : body.lookup "" = some (.value range)) :
    ∃ root, IsDocument s range.start range.stop root ∧ body = bodyMap s root := by
  obtain ⟨l, hs, h, bs, e, ps, -, hr⟩ := ha.reads
  obtain ⟨x, y, root, -, -, -, hd, rfl⟩ := hr.document hf
  have hrange := hd.root_entry hf
  simp only [Body.value.injEq] at hrange
  subst hrange
  exact ⟨root, hd, rfl⟩

/-- **A key-value entry is a pair of the document.** -/
theorem Accepted.pair_of_lookup {startLine key value : Range}
    (ha : Accepted s startLine headers body) (hf : body.lookup p = some (.keyValue key value)) :
    ∃ i j keyPair valuePair,
      Derives s .nonAtomic .pair i j [.node .pair i j [keyPair, valuePair]] ∧
      key = extractRange keyPair ∧ value = extractRange valuePair := by
  obtain ⟨l, hs, h, bs, e, ps, -, hr⟩ := ha.reads
  obtain ⟨x, y, root, -, -, -, hd, rfl⟩ := hr.document hf
  rcases hd.entry hf with ⟨-, hv⟩ | ⟨n, -, -, hfield, hn, -⟩
  · exact absurd hv (by simp)
  · cases hn with
    | member hp =>
      simp only [PathNode.member, Body.keyValue.injEq] at hfield
      exact ⟨_, _, _, _, hp, hfield.1.symm, hfield.2.symm⟩
    | element _ => exact absurd hfield (by simp [PathNode.element])

end Entries

end TlsnDemo
