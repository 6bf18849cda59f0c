import TlsnDemo.Properties.Pairs
import TlsnDemo.Reading.Paths
import TlsnDemo.Reading.Spread

/-!
# Members shown of a document

A selection takes members of a document: of some the whole pair is shown,
of others the key with its colon. The members that lie in no pair shown
(`Selection.Outer`) are apart, so a transcript that shows a selection and
nothing else of the document has these spread over it, and is read as
these in document order.
-/

namespace TlsnDemo

open Peg Support Syntax PathNode

variable {s : List UInt8} {shown : ℕ → Bool} {i j k x y e : ℕ} {root t v w : Token}
  {ts us : List Token} {n m : PathNode}

/-! ## What follows a pair -/

/-- What follows an item of a bracket: a comma or a closing bracket, past
whitespace. -/
def ItemEnd (s : List UInt8) (j : ℕ) : Prop :=
  ∃ c, s[skip s .nonAtomic j]? = some c ∧ (c = comma ∨ ∃ b : Bracket, c = b.closing)

/-- **Behind each pair of a document its object goes on or is closed.** -/
theorem Syntax.Derives.itemEnd {φ : Phrase} (h : Derives s .nonAtomic φ i j ts)
    (hend : φ ≠ .value → ItemEnd s j) (hocc : Occurs t ts) (hr : t.asRule = .pair) :
    ItemEnd s t.stop := by
  induction h with
  | empty b _ _ _ =>
    rcases occurs_singleton.1 hocc with rfl | hin
    · cases b <;> simp [Bracket.rule] at hr
    · exact absurd hin not_occurs_nil
  | filled b _ _ _ hl hclose ih =>
    rcases occurs_singleton.1 hocc with rfl | hin
    · cases b <;> simp [Bracket.rule] at hr
    · exact ih (fun _ => ⟨_, hl ▸ hclose, Or.inr ⟨b, rfl⟩⟩) hin
  | string _ _ _ _ _ =>
    rcases occurs_singleton.1 hocc with rfl | hin
    · simp at hr
    · exact absurd hin not_occurs_nil
  | scalar hs =>
    rcases occurs_singleton.1 hocc with rfl | hin
    · have hscalar := hs.isScalar
      rw [Pair.asRule_node] at hr
      rw [hr] at hscalar
      exact absurd hscalar (by decide)
    · exact absurd hin not_occurs_nil
  | pair _ _ _ _ _ _ _ _ _ ih =>
    rcases occurs_singleton.1 hocc with rfl | hin
    · exact hend (by simp)
    · rcases occurs_cons.1 hin with rfl | hin | hin
      · simp at hr
      · exact absurd hin not_occurs_nil
      · exact ih (fun hne => absurd rfl hne) hin
  | last b _ ih => exact ih (fun _ => hend (by simp)) hocc
  | more b _ hc hcom _ _ ih1 ih2 =>
    rcases occurs_append.1 hocc with hin | hin
    · exact ih1 (fun _ => ⟨_, hc ▸ hcom, Or.inl rfl⟩) hin
    · exact ih2 hend hin

/-- The byte at an item's end is none a number goes on with, and no colon. -/
theorem ItemEnd.byte {c : UInt8} (h : ItemEnd s j) (hc : s[j]? = some c) :
    isNumberNext c = false ∧ c ≠ colon := by
  obtain ⟨c', hc', hsep⟩ := h
  rcases Nat.eq_or_lt_of_le (le_skipTo (f := isWhitespace) (s := s) (a := .nonAtomic) (i := j)) with
    heq | hlt
  · rw [Syntax.skip, ← heq, hc, Option.some.injEq] at hc'
    subst hc'
    rcases hsep with rfl | ⟨b, rfl⟩
    · decide
    · cases b <;> decide
  · obtain ⟨d, hd, hw⟩ := of_lt_skipTo le_rfl hlt
    rw [hc, Option.some.injEq] at hd
    subst hd
    rcases whitespace_iff.1 hw with rfl | rfl | rfl | rfl | rfl <;> decide

/-- A byte of a transcript is the message's, or zero. -/
theorem getElem?_redact_cases {c : UInt8} (hc : (redact s shown)[k]? = some c) :
    s[k]? = some c ∨ c = 0 := by
  by_cases hzero : c = 0
  · exact Or.inr hzero
  · exact Or.inl (shown_of_ne_zero hc hzero).2

/-! ## Members -/

/-- A node that is a member of an object. -/
def PathNode.IsMember (n : PathNode) : Prop := ∃ key value, n.field = .keyValue key value

/-- The last segment of a node's path, as a path of its own. -/
def PathNode.leaf (n : PathNode) : String := PathStack.render ⟨n.path.getLast?.toList⟩

/-- Where the key and the colon of a node end, when nothing is between them. -/
def PathNode.colonEnd (n : PathNode) : ℕ :=
  match n.field with
  | .keyValue key _ => key.stop + 2
  | .value range => range.stop

/-- **A member of a document is a pair of it.** -/
theorem IsDocument.member_pair (hd : IsDocument s x y root) (hn : TreeNode s root n)
    (hm : n.IsMember) :
    ∃ i j keyPair valuePair above,
      n = member (above ++ [.key (asStr s keyPair)]) (.node .pair i j [keyPair, valuePair])
        keyPair valuePair ∧
      Derives s .nonAtomic .pair i j [.node .pair i j [keyPair, valuePair]] ∧
      Occurs (.node .pair i j [keyPair, valuePair]) [root] := by
  obtain ⟨key, value, hfield⟩ := hm
  cases hn with
  | root => simp [PathNode.element] at hfield
  | element _ _ _ => simp [PathNode.element] at hfield
  | @member m _ _ _ pair keyPair valuePair hm hv hpair hinner =>
    have hnode := TreeNode.member hm hv hpair hinner
    obtain ⟨i, j, rfl, hp⟩ := hd.pair_of_member hinner hnode
    rcases hd.isNode hnode with heq | ⟨-, hocc⟩
    · exact absurd (congrArg PathNode.field heq) (by simp [PathNode.member, PathNode.element])
    · exact ⟨i, j, keyPair, valuePair, m.path, rfl, hp, hocc⟩

/-- A node is known by where its token starts. -/
theorem IsDocument.node_eq (hd : IsDocument s x y root) (hn : TreeNode s root n)
    (hm : TreeNode s root m) (h : n.token.start = m.token.start) : n = m := by
  rcases eq_or_of_pairwise hd.ordered (treeNode_iff.1 hn) (treeNode_iff.1 hm) with heq | hlt | hlt
  · exact heq
  · have : n.token.start < m.token.start := hlt
    omega
  · have : m.token.start < n.token.start := hlt
    omega

/-! ## Selections -/

/-- **A selection of members**: those whose pair is shown, and those whose
key is shown with its colon. -/
structure Selection where
  pair : PathNode → Prop
  key : PathNode → Prop

namespace Selection

variable {sel : Selection} {d : List UInt8} {p : String}

/-- A selection takes a member in one of the two ways. -/
def Takes (sel : Selection) (n : PathNode) : Prop := sel.pair n ∨ sel.key n

/-- A member that is taken, and lies in no other pair shown. -/
def Outer (sel : Selection) (n : PathNode) : Prop :=
  sel.Takes n ∧ ∀ m, sel.pair m → ¬ Occurs n.token m.token.intoInner

open Classical in
/-- Where what is shown of a member ends. -/
noncomputable def stop (sel : Selection) (n : PathNode) : ℕ :=
  if sel.pair n then n.token.stop else n.colonEnd

open Classical in
/-- What is read of a member, by what is shown of it. -/
noncomputable def field (sel : Selection) (n : PathNode) : RedactedBody :=
  match n.field with
  | .keyValue key value => .keyValue key (if sel.pair n then some value else none)
  | .value range => .value range

open Classical in
/-- The members outside of the others, in document order. -/
noncomputable def outer (sel : Selection) (s : List UInt8) (root : Token) : List PathNode :=
  (subtree s (element [] root)).filter fun n => sel.Outer n

/-- **A selection of a document**: the pairs it takes can be read back, and
so can the keys. -/
structure Of (sel : Selection) (s : List UInt8) (root : Token) : Prop where
  node : ∀ {n}, sel.Takes n → TreeNode s root n ∧ n.IsMember
  readsBack : ∀ {n}, sel.pair n → ReadsBack s n.token
  keyColon : ∀ {n}, sel.key n → ∃ e, KeyColon s n.token.start e

/-- **What is shown of a document is a selection**, from its opening
bracket on. -/
structure Shown (sel : Selection) (shown : ℕ → Bool) (x : ℕ) : Prop where
  sound : ∀ {n k}, sel.Takes n → n.token.start ≤ k → k < sel.stop n → shown k = true
  only : ∀ {k}, x < k → shown k = true → ∃ n, sel.Takes n ∧ n.token.start ≤ k ∧ k < sel.stop n

theorem stop_of_pair (h : sel.pair n) : sel.stop n = n.token.stop := if_pos h

theorem stop_of_not_pair (h : ¬ sel.pair n) : sel.stop n = n.colonEnd := if_neg h

theorem field_of_pair {key value : Range} (h : sel.pair n) (hf : n.field = .keyValue key value) :
    sel.field n = .keyValue key (some value) := by
  simp [field, hf, h]

theorem field_of_not_pair {key value : Range} (h : ¬ sel.pair n)
    (hf : n.field = .keyValue key value) : sel.field n = .keyValue key none := by
  simp [field, hf, h]

theorem mem_outer : n ∈ sel.outer s root ↔ TreeNode s root n ∧ sel.Outer n := by
  simp [outer, treeNode_iff]

/-! ## The members outside of the others -/

section Outer

variable (hd : IsDocument s x y root) (hsel : sel.Of s root)

include hd hsel

/-- The parts of a member that is taken. -/
theorem parts (hn : sel.Takes n) :
    ∃ e j v above, n = member (above ++ [.key (asStr s (.node .key (n.token.start + 1) e []))])
        (.node .pair n.token.start j [.node .key (n.token.start + 1) e [], v])
        (.node .key (n.token.start + 1) e []) v ∧
      KeyColon s n.token.start e ∧
      Derives s .nonAtomic .pair n.token.start j
        [.node .pair n.token.start j [.node .key (n.token.start + 1) e [], v]] ∧
      Derives s .nonAtomic .value (skip s .nonAtomic (e + 2)) j [v] ∧ Occurs n.token [root] := by
  obtain ⟨hnode, hmember⟩ := hsel.node hn
  obtain ⟨i, j, keyPair, valuePair, above, rfl, hp, hocc⟩ := hd.member_pair hnode hmember
  obtain ⟨e, hk⟩ : ∃ e, KeyColon s i e := by
    rcases hn with hpair | hkey
    · obtain ⟨e, v, w, -, hk, -⟩ := (hsel.readsBack hpair).parts hp
      exact ⟨e, hk⟩
    · exact hsel.keyColon hkey
  obtain ⟨v, heq, hval⟩ := hp.pair_parts hk
  simp only [Pair.node.injEq, List.cons.injEq, and_true, true_and] at heq
  obtain ⟨rfl, rfl⟩ := heq
  exact ⟨e, j, _, above, rfl, hk, hp, hval, hocc⟩

/-- What is shown of a member starts with it and lies in it. -/
theorem bounds (hn : sel.Takes n) : n.token.start < sel.stop n ∧ sel.stop n ≤ n.token.stop := by
  obtain ⟨e, j, v, above, heq, hk, hp, hval, -⟩ := parts hd hsel hn
  have h1 := hk.lt
  have h2 : e + 2 ≤ skip s .nonAtomic (e + 2) := le_skipTo
  have h3 := hval.lt
  have hstop : n.token.stop = j := by
    rw [heq]
    rfl
  by_cases hpair : sel.pair n
  · rw [stop_of_pair hpair]
    omega
  · have hcolon : n.colonEnd = e + 2 := by
      rw [heq]
      rfl
    rw [stop_of_not_pair hpair]
    omega

theorem rule_pair (hn : sel.Takes n) : n.token.asRule = .pair := by
  obtain ⟨e, j, v, above, heq, -⟩ := parts hd hsel hn
  rw [heq]
  rfl

/-- Of a member whose key is shown, what is shown ends before its value. -/
theorem stop_lt_of_key (hn : sel.Takes n) (hkey : ¬ sel.pair n) (hm : sel.Takes m)
    (hin : Occurs m.token n.token.intoInner) : sel.stop n < m.token.start := by
  have hrule := rule_pair hd hsel hm
  obtain ⟨e, j, v, above, heq, hk, hp, hval, -⟩ := parts hd hsel hn
  have hcolon : n.colonEnd = e + 2 := by
    rw [heq]
    rfl
  rw [stop_of_not_pair hkey, hcolon]
  rw [heq] at hin
  rcases occurs_cons.1 hin with htoken | hin | hin
  · rw [htoken] at hrule
    exact absurd hrule (by simp)
  · exact absurd hin not_occurs_nil
  · rcases occurs_singleton.1 hin with htoken | hin
    · obtain ⟨v', hv', hvalue, -⟩ := hval.value_token
      simp only [List.cons.injEq, and_true] at hv'
      rw [← hv', ← htoken, hrule] at hvalue
      exact absurd hvalue (by decide)
    · have h1 : e + 2 ≤ skip s .nonAtomic (e + 2) := le_skipTo
      have h2 := (hval.value_inner_lt hin).1
      omega

/-- **A member outside of the others is apart** from every other one that
is taken, but for those in its own pair. -/
theorem apart (hn : sel.Outer n) (hm : sel.Takes m) :
    n = m ∨ sel.pair n ∧ Occurs m.token n.token.intoInner ∨
      sel.stop n < m.token.start ∨ sel.stop m < n.token.start := by
  have hoccn : Occurs n.token [root] := by
    obtain ⟨e, j, v, above, -, -, -, -, hocc⟩ := parts hd hsel hn.1
    exact hocc
  have hoccm : Occurs m.token [root] := by
    obtain ⟨e, j, v, above, -, -, -, -, hocc⟩ := parts hd hsel hm
    exact hocc
  have hstopn := (bounds hd hsel hn.1).2
  have hstopm := (bounds hd hsel hm).2
  rcases hd.derives.laminar hoccn hoccm (by rw [rule_pair hd hsel hn.1]; decide)
    (by rw [rule_pair hd hsel hm]; decide) with heq | hin | hin | hlt | hlt
  · exact Or.inl (hd.node_eq (hsel.node hn.1).1 (hsel.node hm).1 (congrArg Pair.start heq))
  · by_cases hpair : sel.pair n
    · exact Or.inr (Or.inl ⟨hpair, hin⟩)
    · exact Or.inr (Or.inr (Or.inl (stop_lt_of_key hd hsel hn.1 hpair hm hin)))
  · refine Or.inr (Or.inr (Or.inr (stop_lt_of_key hd hsel hm (fun hpair => ?_) hn.1 hin)))
    exact hn.2 m hpair hin
  · exact Or.inr (Or.inr (Or.inl (by omega)))
  · exact Or.inr (Or.inr (Or.inr (by omega)))

/-- **Every member that is taken lies in one outside of the others**, or is
one. -/
theorem exists_outer (hm : sel.Takes m) :
    ∃ n, sel.Outer n ∧ (n = m ∨ sel.pair n ∧ Occurs m.token n.token.intoInner) := by
  -- the members around it start further and further in front
  induction hk : m.token.start using Nat.strong_induction_on generalizing m with
  | _ k ih =>
    by_cases hout : sel.Outer m
    · exact ⟨m, hout, Or.inl rfl⟩
    · obtain ⟨p, hpair, hin⟩ : ∃ p, sel.pair p ∧ Occurs m.token p.token.intoInner := by
        by_contra hno
        exact hout ⟨hm, fun p hpair hin => hno ⟨p, hpair, hin⟩⟩
      have hocc : Occurs p.token [root] := by
        obtain ⟨e, j, v, above, -, -, -, -, hocc⟩ := parts hd hsel (Or.inl hpair)
        exact hocc
      have hlt := (hd.derives.inner_bounds hocc hin).1
      rcases ih p.token.start (by omega) (Or.inl hpair) rfl with ⟨n, hn, heq | ⟨hpairn, hinn⟩⟩
      · exact ⟨n, hn, Or.inr ⟨heq ▸ hpair, heq ▸ hin⟩⟩
      · exact ⟨n, hn, Or.inr ⟨hpairn, hinn.of_inner hin⟩⟩

/-- A member lies behind the opening bracket of the document. -/
theorem lt_start (hn : sel.Takes n) : x < n.token.start := by
  have hrule := rule_pair hd hsel hn
  obtain ⟨e, j, v, above, -, -, -, -, hocc⟩ := parts hd hsel hn
  rcases occurs_singleton.1 hocc with heq | hin
  · rw [heq] at hrule
    rcases hd.root.1 with hroot | hroot <;> rw [hroot] at hrule <;> exact absurd hrule (by decide)
  · exact (hd.derives.value_inner_lt hin).1

/-! ## What is read of them -/

variable (hs : sel.Shown shown x)

include hs

omit hd hsel in
/-- The bytes of a member that is taken are as in the document. -/
theorem agree (hn : sel.Takes n) : Agree s (redact s shown) n.token.start (sel.stop n) := by
  intro k h1 h2
  rw [getElem?_redact_of_shown (hs.sound hn h1 h2)]

/-- Behind a key that is shown for itself, nothing is. -/
theorem hidden_of_key (hn : sel.Outer n) (hkey : ¬ sel.pair n) : shown (sel.stop n) = false := by
  by_contra hshown
  have hlt := (bounds hd hsel hn.1).1
  have hx := lt_start hd hsel hn.1
  obtain ⟨m, hm, h1, h2⟩ := hs.only (show x < sel.stop n by omega) (by simpa using hshown)
  rcases apart hd hsel hn hm with rfl | ⟨hpair, -⟩ | h3 | h3
  · omega
  · exact hkey hpair
  · omega
  · omega

/-- **Each member outside of the others is read as a redacted pair.** -/
theorem exists_item (hn : sel.Outer n) :
    ∃ t, t.start = n.token.start ∧ t.stop = sel.stop n ∧
      RedactedText (redact s shown) t.start t.stop t ∧ redactedKey (redact s shown) t = n.leaf ∧
      redactedField t = sel.field n := by
  have hag : Agree s (redact s shown) n.token.start (sel.stop n) := agree hs hn.1
  obtain ⟨e, j, v, above, heq, hk, hp, hval, hocc⟩ := parts hd hsel hn.1
  have hlt := hk.lt
  have hskip : e + 2 ≤ skip s .nonAtomic (e + 2) := le_skipTo
  have hvj := hval.lt
  have hstop : n.token.stop = j := by
    rw [heq]
    rfl
  have hfield : n.field =
      .keyValue (extractRange (.node .key (n.token.start + 1) e [])) (extractRange v) := by
    rw [heq]
    rfl
  have hleaf : n.leaf =
      PathStack.render ⟨[.key (asStr s (.node .key (n.token.start + 1) e []))]⟩ := by
    rw [heq, leaf, PathNode.member, List.getLast?_concat]
    rfl
  have hname : ∀ {m}, Agree s (redact s shown) n.token.start m → e < m →
      asStr (redact s shown) (.node .key (n.token.start + 1) e []) =
        asStr s (.node .key (n.token.start + 1) e []) := by
    intro m hag hm
    exact asStr_of_agree (hag.mono (Nat.le_succ _) (by simp only [Pair.stop_node]; omega))
  by_cases hpair : sel.pair n
  · rw [stop_of_pair hpair, hstop] at hag
    obtain ⟨e', v', w, htoken, hk', hw, -, -, hspan⟩ := (hsel.readsBack hpair).parts (by
      rw [heq]
      exact hp)
    have htoken' := htoken.symm.trans (congrArg PathNode.token heq)
    simp only [PathNode.member, Pair.node.injEq, List.cons.injEq, and_true, true_and] at htoken'
    obtain ⟨rfl, rfl⟩ := htoken'
    have hend : ItemEnd s j := by
      have := hd.derives.itemEnd (fun hne => absurd rfl hne) hocc (rule_pair hd hsel hn.1)
      rwa [hstop] at this
    have hbyte : ∀ c, (redact s shown)[j]? = some c → isNumberNext c = false ∧ c ≠ colon := by
      intro c hc
      rcases getElem?_redact_cases hc with hc | rfl
      · exact hend.byte hc
      · decide
    refine ⟨redactedToken n.token.start e' j [w], rfl, by rw [stop_of_pair hpair, hstop]; rfl,
      RedactedText.full (hk.transfer hag (by omega))
        (hw.transfer (hag.mono (by omega) le_rfl) fun c hc => (hbyte c hc).1)
        fun hc => (hbyte _ hc).2 rfl, ?_, ?_⟩
    · rw [hleaf]
      exact congrArg (fun k => PathStack.render ⟨[.key k]⟩) (hname hag (by omega))
    · rw [field_of_pair hpair hfield, hspan]
      rfl
  · have hcolon : sel.stop n = e + 2 := by
      rw [stop_of_not_pair hpair, heq]
      rfl
    have hhidden := hidden_of_key hd hsel hs hn hpair
    rw [hcolon] at hag hhidden
    refine ⟨redactedToken n.token.start e (e + 2) [], rfl, hcolon.symm,
      RedactedText.bare (hk.transfer hag le_rfl) fun m u hu => ?_, ?_, ?_⟩
    · -- no value starts with a hidden byte
      obtain ⟨c, hc, hf⟩ := hu.first
      have hne : c ≠ 0 := by
        rintro rfl
        exact absurd hf (by decide)
      rw [(shown_of_ne_zero hc hne).1] at hhidden
      exact absurd hhidden (by simp)
    · rw [hleaf]
      exact congrArg (fun k => PathStack.render ⟨[.key k]⟩) (hname hag (by omega))
    · rw [field_of_not_pair hpair hfield]
      rfl

/-- What is shown behind the opening bracket is shown of a member outside
of the others. -/
theorem outer_of_shown (hx : x < k) (hk : shown k = true) :
    ∃ n, sel.Outer n ∧ n.token.start ≤ k ∧ k < sel.stop n := by
  obtain ⟨m, hm, h1, h2⟩ := hs.only hx hk
  rcases exists_outer hd hsel hm with ⟨n, hn, rfl | ⟨hpair, hin⟩⟩
  · exact ⟨n, hn, h1, h2⟩
  · obtain ⟨e, j, v, above, -, -, -, -, hocc⟩ := parts hd hsel hn.1
    have hinner := hd.derives.inner_bounds hocc hin
    have hstop := (bounds hd hsel hm).2
    refine ⟨n, hn, by omega, ?_⟩
    rw [stop_of_pair hpair]
    omega

/-- **The members outside of the others are spread over the transcript**,
from behind the opening bracket on. -/
theorem spread :
    ∃ ts, Spread (redact s shown) (x + 1) ts ∧
      (ts.map fun t => (redactedKey (redact s shown) t, redactedField t)) =
        (sel.outer s root).map fun n => (n.leaf, sel.field n) := by
  have hitem : ∀ n, ∃ t, sel.Outer n → t.start = n.token.start ∧ t.stop = sel.stop n ∧
      RedactedText (redact s shown) t.start t.stop t ∧
      redactedKey (redact s shown) t = n.leaf ∧ redactedField t = sel.field n := by
    intro n
    by_cases hn : sel.Outer n
    · obtain ⟨t, ht⟩ := exists_item hd hsel hs hn
      exact ⟨t, fun _ => ht⟩
    · exact ⟨root, fun h => absurd h hn⟩
  choose item hitem using hitem
  have hmem : ∀ {t}, t ∈ (sel.outer s root).map item ↔ ∃ n, (TreeNode s root n ∧ sel.Outer n) ∧
      item n = t := by
    intro t
    simp only [List.mem_map, mem_outer]
  refine ⟨(sel.outer s root).map item, spread_of_sorted ?_ (fun t ht => ?_) (fun k h1 h2 hout => ?_),
    ?_⟩
  · -- one member ends before the next one starts
    rw [List.pairwise_map]
    refine (hd.ordered.filter _).imp_of_mem fun {n m} hn hm hlt => ?_
    obtain ⟨-, hn⟩ := mem_outer.1 hn
    obtain ⟨-, hm⟩ := mem_outer.1 hm
    have hbefore : n.token.start < m.token.start := hlt
    rw [(hitem n hn).2.1, (hitem m hm).1]
    rcases apart hd hsel hn hm.1 with rfl | ⟨hpair, hin⟩ | h3 | h3
    · omega
    · exact absurd hin (hm.2 n hpair)
    · omega
    · have := (bounds hd hsel hm.1).1
      omega
  · obtain ⟨n, ⟨-, hn⟩, rfl⟩ := hmem.1 ht
    obtain ⟨hstart, -, hred, -⟩ := hitem n hn
    have := lt_start hd hsel hn.1
    exact ⟨by omega, hred⟩
  · by_cases hk : shown k = true
    · obtain ⟨n, hn, h3, h4⟩ := outer_of_shown hd hsel hs (show x < k by omega) hk
      obtain ⟨hstart, hstop, -⟩ := hitem n hn
      have := hout (item n) (hmem.2 ⟨n, ⟨(hsel.node hn.1).1, hn⟩, rfl⟩)
      omega
    · rw [length_redact] at h2
      exact ⟨0, getElem?_redact_of_hidden (by simpa using hk) h2, by decide⟩
  · rw [List.map_map]
    refine List.map_congr_left fun n hn => ?_
    obtain ⟨-, hn⟩ := mem_outer.1 hn
    obtain ⟨-, -, -, hkey, hfield⟩ := hitem n hn
    simp only [Function.comp_apply, hkey, hfield]

end Outer

/-! ## The map of what is read -/

/-- **The last member of a leaf** among those outside of the others. -/
structure LastOuter (sel : Selection) (s : List UInt8) (root : Token) (p : String) (n : PathNode) :
    Prop where
  node : TreeNode s root n
  outer : sel.Outer n
  leaf : n.leaf = p
  last : ∀ m, TreeNode s root m → sel.Outer m → m.leaf = p → m.token.start ≤ n.token.start

/-- **A leaf leads to the last member under it.** -/
theorem lookup_outer (hd : IsDocument s x y root) {field : RedactedBody} :
    (insertAll ∅ ((sel.outer s root).map fun n => (n.leaf, sel.field n)) :
        StringMap RedactedBody).lookup p = some field ↔
      ∃ n, sel.LastOuter s root p n ∧ sel.field n = field := by
  have hord : (sel.outer s root).Pairwise fun n m => n.token.start < m.token.start :=
    hd.ordered.filter _
  rw [lookup_insertAll_eq_some hord]
  simp only [mem_outer]
  constructor
  · rintro ⟨n, ⟨hn, houter⟩, hleaf, hfield, hmax⟩
    exact ⟨n, ⟨hn, houter, hleaf, fun m h1 h2 h3 => hmax m ⟨h1, h2⟩ h3⟩, hfield⟩
  · rintro ⟨n, h, hfield⟩
    exact ⟨n, ⟨h.node, h.outer⟩, h.leaf, hfield, fun m hm hleaf => h.last m hm.1 hm.2 hleaf⟩

end Selection

end TlsnDemo
