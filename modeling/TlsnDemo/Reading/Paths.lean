import TlsnDemo.Reading.Documents

/-!
# Paths of a document

A node of a JSON tree is reached from the root by a path of keys and
indices. The walk that builds the body map visits exactly the nodes of the
tree, from left to right (`treeNode_iff`, `IsDocument.ordered`), and a path
is read back from its printed form in one way (`render_inj`), since no key
has a dot or an opening bracket in it. So an entry of the map is the last
node with that path.
-/

namespace TlsnDemo

open Peg Syntax Support

/-! ## Printed paths -/

/-- A text the `key` rule can capture. -/
def IsKeyText (k : String) : Prop :=
  ∃ (s : List UInt8) (a : Atomicity) (i j : ℕ) (t : Token),
    Grammar.key s a i = some (j, [t]) ∧ asStr s t = k

/-- A path whose keys are such texts. -/
def IsPath (path : List PathSegment) : Prop := ∀ k, .key k ∈ path → IsKeyText k

/-- The characters that open a segment. -/
def opensSegment (c : Char) : Bool := c == '.' || c == '['

/-- A list is cut at its first element of a class in one way. -/
theorem append_eq_append_of_class {α : Type} {f : α → Bool} {us vs rs qs : List α}
    (hu : ∀ c ∈ us, f c = false) (hv : ∀ c ∈ vs, f c = false)
    (hr : ∀ c ∈ rs.head?, f c = true) (hq : ∀ c ∈ qs.head?, f c = true)
    (h : us ++ rs = vs ++ qs) : us = vs ∧ rs = qs := by
  induction us generalizing vs with
  | nil =>
    cases vs with
    | nil => exact ⟨rfl, h⟩
    | cons d vs =>
      rw [List.nil_append, List.cons_append] at h
      have htrue := hr d (by rw [h]; rfl)
      rw [hv d List.mem_cons_self] at htrue
      exact absurd htrue (by decide)
  | cons c us ih =>
    cases vs with
    | nil =>
      rw [List.nil_append, List.cons_append] at h
      have htrue := hq c (by rw [← h]; rfl)
      rw [hu c List.mem_cons_self] at htrue
      exact absurd htrue (by decide)
    | cons d vs =>
      simp only [List.cons_append, List.cons.injEq] at h
      obtain ⟨rfl, h⟩ := h
      obtain ⟨rfl, rfl⟩ := ih (fun e he => hu e (List.mem_cons_of_mem _ he))
        (fun e he => hv e (List.mem_cons_of_mem _ he)) h
      exact ⟨rfl, rfl⟩

theorem toList_render_cons {seg : PathSegment} {rest : List PathSegment} :
    (PathStack.render ⟨seg :: rest⟩).toList =
      seg.render.toList ++ (PathStack.render ⟨rest⟩).toList := by
  simp [PathStack.render]

theorem toList_render_key {k : String} : (PathSegment.key k).render.toList = '.' :: k.toList := by
  simp [PathSegment.render]

theorem toList_render_index {i : ℕ} :
    (PathSegment.index i).render.toList = '[' :: (Nat.toDigits 10 i ++ [']']) := by
  simp [PathSegment.render]

/-- What is printed after a segment is nothing, or opens a segment. -/
theorem head_render {path : List PathSegment} :
    ∀ c ∈ (PathStack.render ⟨path⟩).toList.head?, opensSegment c = true := by
  intro c hc
  cases path with
  | nil => simp [PathStack.render] at hc
  | cons seg rest =>
    rw [toList_render_cons] at hc
    cases seg with
    | key k =>
      rw [toList_render_key] at hc
      simp only [List.cons_append, List.head?_cons, Option.mem_some_iff] at hc
      subst hc
      rfl
    | index i =>
      rw [toList_render_index] at hc
      simp only [List.cons_append, List.head?_cons, Option.mem_some_iff] at hc
      subst hc
      rfl

theorem toDigits_inj {i j : ℕ} (h : Nat.toDigits 10 i = Nat.toDigits 10 j) : i = j := by
  have h1 := congrArg (Nat.ofDigitChars 10 · 0) h
  simpa using h1

/-- The characters of a token's text, back in the input. -/
theorem mem_asStr {s : List UInt8} {t : Token} {c : Char} (hc : c ∈ (asStr s t).toList) :
    ∃ k b, t.start ≤ k ∧ k < t.stop ∧ s[k]? = some b ∧ c = Char.ofNat b.toNat := by
  simp only [asStr, String.toList_ofList, List.mem_map] at hc
  obtain ⟨b, hb, rfl⟩ := hc
  obtain ⟨k, hk⟩ := List.getElem?_of_mem hb
  rw [slice, List.getElem?_take] at hk
  split at hk
  · next hlt =>
    rw [List.getElem?_drop] at hk
    simp only [extractRange] at hk hlt
    exact ⟨t.start + k, b, by omega, by omega, hk, rfl⟩
  · simp at hk

theorem toNat_ofNat_byte {b : UInt8} : (Char.ofNat b.toNat).toNat = b.toNat := by
  have hlt := b.toNat_lt
  have hv : b.toNat.isValidChar := Or.inl (by omega)
  rw [Char.ofNat, dif_pos hv]
  rfl

theorem opensSegment_byte {b : UInt8} (h : opensSegment (Char.ofNat b.toNat) = true) :
    b = 0x2e ∨ b = 0x5b := by
  simp only [opensSegment, Bool.or_eq_true, beq_iff_eq] at h
  refine h.imp (fun h => ?_) fun h => ?_
  · have hn := congrArg Char.toNat h
    rw [toNat_ofNat_byte] at hn
    exact UInt8.toNat_inj.1 hn
  · have hn := congrArg Char.toNat h
    rw [toNat_ofNat_byte] at hn
    exact UInt8.toNat_inj.1 hn

/-- What the `key` rule captures, in a mode that emits it. -/
theorem key_eq_some {s : List UInt8} {a : Atomicity} {i j : ℕ} {t : Token}
    (h : Grammar.key s a i = some (j, [t])) : KeyText s a i j ∧ t = .node .key i j [] := by
  have ha : a ≠ .atomic := by
    rintro rfl
    rw [Grammar.key, keyChar_eq, rule, rep1_eq] at h
    split at h
    · exact absurd h (by simp)
    · next k ts hrun =>
      obtain ⟨m, us, vs, h1, h2, rfl⟩ := seq_cons_eq_some.1 hrun
      obtain ⟨-, rfl, rfl⟩ := satisfy_eq_some.1 h1
      rw [seq_singleton, rep_satisfy (by decide)] at h2
      simp only [Option.some.injEq, Prod.mk.injEq] at h2
      obtain ⟨-, rfl⟩ := h2
      simp at h
  rw [Grammar.key, keyChar_eq, rule_eq_some ha] at h
  obtain ⟨us, hrun, ht⟩ := h
  obtain ⟨htext, rfl⟩ := keyText_of_rep1 ha hrun
  exact ⟨htext, List.singleton_inj.1 ht⟩

/-- No key has a character in it that opens a segment. -/
theorem IsKeyText.not_opens {k : String} (h : IsKeyText k) :
    ∀ c ∈ k.toList, opensSegment c = false := by
  obtain ⟨s, a, i, j, t, hk, rfl⟩ := h
  obtain ⟨htext, rfl⟩ := key_eq_some hk
  intro c hc
  obtain ⟨k, b, h1, h2, hb, rfl⟩ := mem_asStr hc
  obtain ⟨d, hd, hclass⟩ := htext.mem k h1 h2
  rw [hb, Option.some.injEq] at hd
  subst hd
  by_contra hopen
  have hf : (isKeyChar b || isWhitespace b) = true := by
    rcases hclass with h | ⟨-, h⟩ <;> simp [h]
  rcases opensSegment_byte (by simpa using hopen) with rfl | rfl
  · exact absurd hf (by decide)
  · exact absurd hf (by decide)

/-- **A printed path is read back in one way.** -/
theorem render_inj : ∀ {ps qs : List PathSegment}, IsPath ps → IsPath qs →
    PathStack.render ⟨ps⟩ = PathStack.render ⟨qs⟩ → ps = qs
  | [], [], _, _, _ => rfl
  | [], _ :: _, _, _, h => absurd h.symm render_cons_ne
  | _ :: _, [], _, _, h => absurd h render_cons_ne
  | p :: ps, q :: qs, hp, hq, h => by
    have hlist := congrArg String.toList h
    rw [toList_render_cons, toList_render_cons] at hlist
    have hps : IsPath ps := fun k hk => hp k (List.mem_cons_of_mem _ hk)
    have hqs : IsPath qs := fun k hk => hq k (List.mem_cons_of_mem _ hk)
    cases p with
    | key k =>
      rw [toList_render_key] at hlist
      cases q with
      | key l =>
        rw [toList_render_key, List.cons_append, List.cons_append, List.cons.injEq] at hlist
        obtain ⟨hkl, hrest⟩ := append_eq_append_of_class (hp k List.mem_cons_self).not_opens
          (hq l List.mem_cons_self).not_opens head_render head_render hlist.2
        rw [String.toList_inj.1 hkl, render_inj hps hqs (String.toList_inj.1 hrest)]
      | index i =>
        rw [toList_render_index, List.cons_append, List.cons_append, List.cons.injEq] at hlist
        exact absurd hlist.1 (by decide)
    | index i =>
      rw [toList_render_index] at hlist
      cases q with
      | key k =>
        rw [toList_render_key, List.cons_append, List.cons_append, List.cons.injEq] at hlist
        exact absurd hlist.1 (by decide)
      | index j =>
        rw [toList_render_index, List.cons_append, List.cons_append, List.cons.injEq,
          List.append_assoc, List.append_assoc] at hlist
        have hdigit : ∀ n, ∀ c ∈ Nat.toDigits 10 n, (c == ']') = false := by
          intro n c hc
          have hd := Nat.isDigit_of_mem_toDigits (by decide) (by decide) hc
          rw [beq_eq_false_iff_ne]
          rintro rfl
          exact absurd hd (by decide)
        obtain ⟨hij, hrest⟩ := append_eq_append_of_class (hdigit i) (hdigit j) (by simp) (by simp)
          hlist.2
        simp only [List.cons_append, List.nil_append, List.cons.injEq, true_and] at hrest
        rw [toDigits_inj hij, render_inj hps hqs (String.toList_inj.1 hrest)]

/-! ## The nodes of a tree -/

open PathNode

variable {s : List UInt8} {root t : Token} {n m c : PathNode} {path : List PathSegment}

/-- The value a node leads to: the second token of a member's pair, the
token itself of any other node. -/
def PathNode.valueToken (n : PathNode) : Token :=
  match n.field with
  | .keyValue _ _ => n.token.intoInner.getLastD n.token
  | .value _ => n.token

/-- **A node of the tree under a root**: the root, a pair of an object's,
or an element of an array's, with the path of keys and indices to it. -/
inductive TreeNode (s : List UInt8) (root : Token) : PathNode → Prop
  | root : TreeNode s root (element [] root)
  | member {n : PathNode} {i j : ℕ} {ts : List Token} {pair keyPair valuePair : Token} :
      TreeNode s root n → n.valueToken = .node .object i j ts → pair ∈ ts →
      pair.intoInner = [keyPair, valuePair] →
      TreeNode s root (member (n.path ++ [.key (asStr s keyPair)]) pair keyPair valuePair)
  | element {n : PathNode} {i j k : ℕ} {ts : List Token} {t : Token} :
      TreeNode s root n → n.valueToken = .node .array i j ts → ts[k]? = some t →
      TreeNode s root (element (n.path ++ [.index k]) t)

/-- The nodes one step below a value. -/
def children (s : List UInt8) (path : List PathSegment) : Token → List PathNode
  | .node .object _ _ ts => ts.flatMap fun pair =>
      match pair.intoInner with
      | [keyPair, valuePair] => [member (path ++ [.key (asStr s keyPair)]) pair keyPair valuePair]
      | _ => []
  | .node .array _ _ ts => ts.zipIdx.map fun p => element (path ++ [.index p.2]) p.1
  | _ => []

/-- A node with all the nodes below it. -/
def subtree (s : List UInt8) (n : PathNode) : List PathNode :=
  n :: nodesValue s n.path n.valueToken

theorem nodesMember_eq {pair keyPair valuePair : Token} (h : pair.intoInner = [keyPair, valuePair]) :
    nodesMember s path pair =
      subtree s (member (path ++ [.key (asStr s keyPair)]) pair keyPair valuePair) := by
  simp only [nodesMember, h, subtree, valueToken, PathNode.member]
  rfl

theorem nodesArray_eq {k : ℕ} {ts : List Token} :
    nodesArray s path k ts =
      (ts.zipIdx k).flatMap fun p => subtree s (element (path ++ [.index p.2]) p.1) := by
  induction ts generalizing k with
  | nil => rfl
  | cons t ts ih =>
    rw [List.zipIdx_cons, List.flatMap_cons, ← ih]
    rfl

theorem nodesObject_eq {ts : List Token} :
    nodesObject s path ts = ts.flatMap (nodesMember s path) := by
  induction ts with
  | nil => rfl
  | cons t ts ih => rw [nodesObject_cons, List.flatMap_cons, ih]

/-- **The nodes below a value are its children, each with the nodes below
it.** -/
theorem nodesValue_eq : nodesValue s path t = (children s path t).flatMap (subtree s) := by
  obtain ⟨r, i, j, ts⟩ := t
  unfold nodesValue
  split
  · next hr =>
    subst hr
    rw [nodesObject_eq, children, List.flatMap_assoc]
    refine List.flatMap_congr fun pair _ => ?_
    split
    · next h => rw [nodesMember_eq h, List.flatMap_singleton]
    · next h =>
      unfold nodesMember
      split
      · next h' => exact absurd h' (h _ _)
      · rfl
  · split
    · next hr =>
      subst hr
      rw [nodesArray_eq, children, List.flatMap_map]
    · next h1 h2 =>
      have hnil : children s path (.node r i j ts) = [] := by
        unfold children
        split <;> simp_all
      rw [hnil]
      rfl

theorem mem_children_member {i j : ℕ} {ts : List Token} {pair keyPair valuePair : Token}
    (hv : m.valueToken = .node .object i j ts) (hpair : pair ∈ ts)
    (h : pair.intoInner = [keyPair, valuePair]) :
    PathNode.member (m.path ++ [.key (asStr s keyPair)]) pair keyPair valuePair ∈
      children s m.path m.valueToken := by
  rw [hv]
  refine List.mem_flatMap.2 ⟨pair, hpair, ?_⟩
  rw [h]
  exact List.mem_singleton.2 rfl

theorem mem_children_element {i j k : ℕ} {ts : List Token}
    (hv : m.valueToken = .node .array i j ts) (ht : ts[k]? = some t) :
    PathNode.element (m.path ++ [.index k]) t ∈ children s m.path m.valueToken := by
  rw [hv]
  exact List.mem_map.2 ⟨(t, k), List.mem_zipIdx_iff_getElem?.2 ht, rfl⟩

theorem treeNode_of_child (hm : TreeNode s root m) (hc : c ∈ children s m.path m.valueToken) :
    TreeNode s root c := by
  generalize hv : m.valueToken = v at hc
  unfold children at hc
  split at hc
  · obtain ⟨pair, hpair, hmem⟩ := List.mem_flatMap.1 hc
    split at hmem
    · next h =>
      rw [List.mem_singleton] at hmem
      subst hmem
      exact TreeNode.member hm hv hpair h
    · simp at hmem
  · obtain ⟨⟨u, k⟩, hp, rfl⟩ := List.mem_map.1 hc
    exact TreeNode.element hm hv (List.mem_zipIdx_iff_getElem?.1 hp)
  · simp at hc

/-- A node other than the root is a child of a node. -/
theorem TreeNode.cases_child (hn : TreeNode s root n) :
    n = PathNode.element [] root ∨ ∃ m, TreeNode s root m ∧ n ∈ children s m.path m.valueToken := by
  cases hn with
  | root => exact Or.inl rfl
  | member hm hv hpair hinner => exact Or.inr ⟨_, hm, mem_children_member hv hpair hinner⟩
  | element hm hv ht => exact Or.inr ⟨_, hm, mem_children_element hv ht⟩

theorem sizeOf_valueToken_lt (hc : c ∈ children s path t) : sizeOf c.valueToken < sizeOf t := by
  unfold children at hc
  split at hc
  · obtain ⟨pair, hpair, hmem⟩ := List.mem_flatMap.1 hc
    split at hmem
    · next keyPair valuePair h =>
      rw [List.mem_singleton] at hmem
      subst hmem
      obtain ⟨r, i, j, inner⟩ := pair
      simp only [Pair.intoInner_node] at h
      subst h
      have h1 := List.sizeOf_lt_of_mem hpair
      simp only [valueToken, PathNode.member, Pair.intoInner_node, List.getLastD, Pair.node.sizeOf_spec,
        List.cons.sizeOf_spec] at h1 ⊢
      simp
      omega
    · simp at hmem
  · obtain ⟨⟨u, k⟩, hp, rfl⟩ := List.mem_map.1 hc
    have hu := List.mem_of_getElem? (List.mem_zipIdx_iff_getElem?.1 hp)
    have h1 := List.sizeOf_lt_of_mem hu
    simp only [valueToken, PathNode.element, Pair.node.sizeOf_spec] at h1 ⊢
    omega
  · simp at hc

/-- What the walk below a node visits are nodes of the tree. -/
theorem treeNode_of_mem (hm : TreeNode s root m) (hn : n ∈ nodesValue s m.path m.valueToken) :
    TreeNode s root n := by
  induction hk : sizeOf m.valueToken using Nat.strong_induction_on generalizing m with
  | _ k ih =>
    subst hk
    rw [nodesValue_eq] at hn
    obtain ⟨c, hc, hn⟩ := List.mem_flatMap.1 hn
    have hchild := treeNode_of_child hm hc
    rcases List.mem_cons.1 hn with rfl | hn
    · exact hchild
    · exact ih _ (sizeOf_valueToken_lt hc) hchild hn rfl

/-- The walk from the root visits a node and all nodes below it. -/
theorem TreeNode.subtree_subset (hn : TreeNode s root n) :
    subtree s n ⊆ subtree s (PathNode.element [] root) := by
  have hchild : ∀ {m c}, subtree s m ⊆ subtree s (PathNode.element [] root) →
      c ∈ children s m.path m.valueToken → subtree s c ⊆ subtree s (PathNode.element [] root) := by
    intro m c hm hc x hx
    refine hm (List.mem_cons_of_mem _ ?_)
    rw [nodesValue_eq]
    exact List.mem_flatMap.2 ⟨c, hc, hx⟩
  induction hn with
  | root => exact List.Subset.refl _
  | member _ hv hpair hinner ih => exact hchild ih (mem_children_member hv hpair hinner)
  | element _ hv ht ih => exact hchild ih (mem_children_element hv ht)

/-- **The walk visits the nodes of the tree**, all of them and no other. -/
theorem treeNode_iff :
    TreeNode s root n ↔ n ∈ subtree s (PathNode.element [] root) := by
  constructor
  · exact fun hn => hn.subtree_subset List.mem_cons_self
  · intro hn
    rcases List.mem_cons.1 hn with rfl | hn
    · exact TreeNode.root
    · exact treeNode_of_mem TreeNode.root hn

/-- What is visited of an item is visited of a list that starts with it. -/
theorem visits_item {b : Bracket} {a : Atomicity} {i j idx : ℕ} {ts : List Token}
    {P : PathNode → Prop} (hi : Derives s a b.item i j ts)
    (h : ∀ path idx, ∃ n ∈ nodesOf s path idx b.item ts, P n) :
    ∃ n ∈ nodesOf s path idx (.items b) ts, P n := by
  cases b with
  | object => exact h path idx
  | array =>
    obtain ⟨v, rfl, -⟩ := Syntax.Derives.value_token hi
    rw [nodesOf_last_array]
    obtain ⟨n, hn, hp⟩ := h (path ++ [.index idx]) 0
    exact ⟨n, List.mem_cons_of_mem _ hn, hp⟩

/-- **Every pair of a derivation is visited**, under a path that ends with
its key. -/
theorem Syntax.Derives.visits_pair {a : Atomicity} {φ : Phrase} {i j x y idx : ℕ} {ts : List Token}
    {keyPair valuePair : Token} (h : Derives s a φ i j ts)
    (hocc : Occurs (.node .pair x y [keyPair, valuePair]) ts) :
    ∃ n ∈ nodesOf s path idx φ ts, ∃ above, n = member (above ++ [.key (asStr s keyPair)])
      (.node .pair x y [keyPair, valuePair]) keyPair valuePair := by
  induction h generalizing path idx with
  | empty b _ _ _ =>
    rcases occurs_singleton.1 hocc with heq | hocc
    · cases b <;> simp [Bracket.rule] at heq
    · exact absurd hocc not_occurs_nil
  | filled b _ _ _ _ _ ih =>
    rw [nodesOf_bracket]
    rcases occurs_singleton.1 hocc with heq | hocc
    · cases b <;> simp [Bracket.rule] at heq
    · exact ih hocc
  | string _ _ _ _ _ =>
    rcases occurs_singleton.1 hocc with heq | hocc
    · simp at heq
    · exact absurd hocc not_occurs_nil
  | scalar h =>
    rcases occurs_singleton.1 hocc with heq | hocc
    · have hr := h.isScalar
      simp only [Pair.node.injEq] at heq
      rw [← heq.1] at hr
      exact absurd hr (by decide)
    · exact absurd hocc not_occurs_nil
  | pair _ _ _ _ _ _ _ _ hval ih =>
    obtain ⟨v, rfl, -⟩ := hval.value_token
    rw [nodesOf_pair]
    rcases occurs_singleton.1 hocc with heq | hocc
    · simp only [Pair.node.injEq, List.cons.injEq, and_true, true_and] at heq
      obtain ⟨rfl, rfl, rfl, rfl⟩ := heq
      exact ⟨_, List.mem_cons_self, path, rfl⟩
    · rcases occurs_cons.1 hocc with heq | hocc | hocc
      · simp at heq
      · exact absurd hocc not_occurs_nil
      · obtain ⟨n, hn, hp⟩ := ih hocc
        exact ⟨n, List.mem_cons_of_mem _ hn, hp⟩
  | last b hi ih => exact visits_item hi fun _ _ => ih hocc
  | more b hi _ _ _ _ ih1 ih2 =>
    rw [nodesOf_append]
    rcases occurs_append.1 hocc with hocc | hocc
    · obtain ⟨n, hn, hp⟩ := visits_item hi fun _ _ => ih1 hocc
      exact ⟨n, List.mem_append_left _ hn, hp⟩
    · obtain ⟨n, hn, hp⟩ := ih2 hocc
      exact ⟨n, List.mem_append_right _ hn, hp⟩

/-- So every pair of a document is a node of its tree. -/
theorem IsDocument.treeNode_of_pair {x y i j : ℕ} {keyPair valuePair : Token}
    (hd : IsDocument s x y root) (hocc : Occurs (.node .pair i j [keyPair, valuePair]) [root]) :
    ∃ above, TreeNode s root (member (above ++ [.key (asStr s keyPair)])
      (.node .pair i j [keyPair, valuePair]) keyPair valuePair) := by
  have hvisit : ∃ n ∈ nodesOf s [] 0 .value [root], ∃ above,
      n = member (above ++ [.key (asStr s keyPair)]) (.node .pair i j [keyPair, valuePair])
        keyPair valuePair := hd.derives.visits_pair hocc
  obtain ⟨n, hn, above, rfl⟩ := hvisit
  simp only [nodesOf, List.flatMap_cons, List.flatMap_nil, List.append_nil] at hn
  exact ⟨above, treeNode_iff.2 (List.mem_cons_of_mem _ hn)⟩

/-! ## Document order -/

section Order

variable {a : Atomicity} {φ : Phrase} {i j idx : ℕ} {ts : List Token}

/-- One node is visited before another: it starts further left. -/
def Before (m n : PathNode) : Prop := m.token.start < n.token.start

theorem Syntax.Derives.node_bounds (h : Derives s a φ i j ts) (hn : n ∈ nodesOf s path idx φ ts) :
    i ≤ n.token.start ∧ n.token.start ≤ j := by
  have hb := h.bounds (h.nodes hn).2
  omega

/-- The nodes below a value start after it. -/
theorem Syntax.Derives.before_nodes (h : Derives s a .value i j [t])
    (hn : n ∈ nodesOf s path idx .value [t]) : t.start < n.token.start := by
  cases h with
  | empty b _ _ _ =>
    rw [nodesOf_bracket] at hn
    cases b <;> simp [nodesOf, nodesObject, nodesArray] at hn
  | filled b _ hj hitems _ _ =>
    rw [nodesOf_bracket] at hn
    have h1 := le_of_skip hj
    have h2 := (hitems.node_bounds hn).1
    simp only [Pair.start_node]
    omega
  | string _ _ _ _ _ =>
    rw [nodesOf_scalar rfl] at hn
    simp at hn
  | scalar h =>
    rw [nodesOf_scalar h.isScalar] at hn
    simp at hn

theorem ordered_item {b : Bracket} (hi : Derives s a b.item i j ts)
    (h : ∀ path idx, (nodesOf s path idx b.item ts).Pairwise Before) :
    (nodesOf s path idx (.items b) ts).Pairwise Before := by
  cases b with
  | object => exact h path idx
  | array =>
    obtain ⟨t, rfl, -⟩ := Derives.value_token hi
    rw [nodesOf_last_array, List.pairwise_cons]
    exact ⟨fun n hn => Derives.before_nodes hi hn, h _ _⟩

/-- **The walk visits the nodes from left to right.** -/
theorem Syntax.Derives.ordered (h : Derives s a φ i j ts) :
    (nodesOf s path idx φ ts).Pairwise Before := by
  induction h generalizing path idx with
  | empty b _ _ _ =>
    rw [nodesOf_bracket]
    cases b <;> simp [nodesOf, nodesObject, nodesArray]
  | filled b _ _ _ _ _ ih =>
    rw [nodesOf_bracket]
    exact ih
  | string _ _ _ _ _ =>
    rw [nodesOf_scalar rfl]
    exact List.Pairwise.nil
  | scalar h =>
    rw [nodesOf_scalar h.isScalar]
    exact List.Pairwise.nil
  | @pair i kb ke q c v j ts hq hkb hk hqe hq' hc hcol hv hval ih =>
    obtain ⟨t, rfl, -⟩ := hval.value_token
    rw [nodesOf_pair, List.pairwise_cons]
    refine ⟨fun n hn => ?_, ih⟩
    have h1 := le_of_skip hkb
    have h2 := hk.lt
    have h3 := le_of_skip hqe
    have h4 := le_of_skip hc
    have h5 := le_of_skip hv
    have h6 := (hval.node_bounds hn).1
    change i < n.token.start
    omega
  | last b hi ih => exact ordered_item hi fun _ _ => ih
  | @more b i j c m k ts us hi hc hcom hm hitems ih1 ih2 =>
    rw [nodesOf_append, List.pairwise_append]
    refine ⟨ordered_item hi fun _ _ => ih1, ih2, fun x hx y hy => ?_⟩
    have h1 := ((Derives.last b hi).node_bounds hx).2
    have h2 := le_of_skip hc
    have h3 := le_of_skip hm
    have h4 := (hitems.node_bounds hy).1
    change x.token.start < y.token.start
    omega

/-- The walk from the root of a document goes from left to right. -/
theorem IsDocument.ordered {x y : ℕ} (hd : IsDocument s x y root) :
    (subtree s (PathNode.element [] root)).Pairwise Before := by
  have heq : nodesOf s [] 0 .value [root] = nodesValue s [] root := by simp [nodesOf]
  rw [subtree, List.pairwise_cons]
  constructor
  · intro n hn
    have hn' : n ∈ nodesOf s [] 0 .value [root] := heq ▸ hn
    exact hd.derives.before_nodes hn'
  · have hord : (nodesOf s [] 0 .value [root]).Pairwise Before := hd.derives.ordered
    exact heq ▸ hord

end Order

/-! ## The entry of a path -/

variable {p : String} {field : StandardBody}

/-- What a node is entered under. -/
def PathNode.name (n : PathNode) : String := PathStack.render ⟨n.path⟩

/-- The nodes of a tree with a printed path. -/
def nodesNamed (s : List UInt8) (root : Token) (p : String) : List PathNode :=
  (subtree s (element [] root)).filter fun n => n.name = p

theorem mem_nodesNamed : n ∈ nodesNamed s root p ↔ TreeNode s root n ∧ n.name = p := by
  simp [nodesNamed, treeNode_iff]

theorem lookup_bodyMap_eq :
    (bodyMap s root).lookup p = (nodesNamed s root p).getLast?.map PathNode.field := by
  have hmap : bodyMap s root = insertAll ∅ ((subtree s (element [] root)).map entry) := rfl
  have hval : valuesOf p ((subtree s (element [] root)).map entry) =
      (nodesNamed s root p).map PathNode.field := valuesOf_map
  rw [hmap, lookup_insertAll, hval, List.getLast?_map]
  simp

/-- **The last node of a name.** -/
structure IsLast (s : List UInt8) (root : Token) (p : String) (n : PathNode) : Prop where
  node : TreeNode s root n
  name : n.name = p
  last : ∀ m, TreeNode s root m → m.name = p → m.token.start ≤ n.token.start

theorem IsDocument.getLast?_eq_some {x y : ℕ} (hd : IsDocument s x y root) :
    (nodesNamed s root p).getLast? = some n ↔ IsLast s root p n := by
  rw [getLast?_eq_some_iff_max (f := fun n => n.token.start) (hd.ordered.filter _)]
  simp only [mem_nodesNamed]
  exact ⟨fun h => ⟨h.1.1, h.1.2, fun m h1 h2 => h.2 m ⟨h1, h2⟩⟩,
    fun h => ⟨⟨h.node, h.name⟩, fun m hm => h.last m hm.1 hm.2⟩⟩

theorem IsDocument.lookup_eq_some {x y : ℕ} (hd : IsDocument s x y root) :
    (bodyMap s root).lookup p = some field ↔ ∃ n, IsLast s root p n ∧ n.field = field := by
  rw [lookup_bodyMap_eq, Option.map_eq_some_iff]
  simp only [hd.getLast?_eq_some]

theorem isSome_lookup_bodyMap :
    ((bodyMap s root).lookup p).isSome = true ↔ ∃ n, TreeNode s root n ∧ n.name = p := by
  rw [lookup_bodyMap_eq, Option.isSome_map, List.getLast?_isSome, ne_eq,
    List.eq_nil_iff_forall_not_mem, not_forall_not]
  simp only [mem_nodesNamed]

/-- A node other than the root is one of the document's. -/
theorem IsDocument.isNode {x y : ℕ} (hd : IsDocument s x y root) (hn : TreeNode s root n) :
    n = element [] root ∨ IsNode s .nonAtomic n ∧ Occurs n.token [root] := by
  rcases List.mem_cons.1 (treeNode_iff.1 hn) with h | h
  · exact Or.inl h
  · have hmem : n ∈ nodesOf s [] 0 .value [root] := by
      simpa [nodesOf, PathNode.element, valueToken] using h
    exact Or.inr (hd.derives.nodes hmem)

/-- A pair that is a node is derived as one. -/
theorem IsDocument.pair_of_member {x y : ℕ} (hd : IsDocument s x y root)
    {pair keyPair valuePair : Token} {path : List PathSegment}
    (hinner : pair.intoInner = [keyPair, valuePair])
    (hn : TreeNode s root (member path pair keyPair valuePair)) :
    ∃ i j, pair = .node .pair i j [keyPair, valuePair] ∧
      Derives s .nonAtomic .pair i j [.node .pair i j [keyPair, valuePair]] := by
  rcases hd.isNode hn with h | ⟨h, -⟩
  · exact absurd (congrArg PathNode.field h) (by simp [PathNode.member, PathNode.element])
  · generalize hm : member path pair keyPair valuePair = n at h
    cases h with
    | member hp =>
      have htoken := congrArg PathNode.token hm
      simp only [PathNode.member] at htoken
      subst htoken
      simp only [Pair.intoInner_node, List.cons.injEq, and_true] at hinner
      obtain ⟨rfl, rfl⟩ := hinner
      exact ⟨_, _, rfl, hp⟩
    | element _ => exact absurd (congrArg PathNode.field hm) (by simp [PathNode.member, PathNode.element])

/-- The key of a pair is a text the `key` rule captures. -/
theorem isKeyText_of_pair {i j : ℕ} {keyPair valuePair : Token}
    (hp : Derives s .nonAtomic .pair i j [.node .pair i j [keyPair, valuePair]]) :
    IsKeyText (asStr s keyPair) := by
  cases hp with
  | @pair _ kb ke _ _ _ _ _ hq hkb hk hqe hq' hc hcol hv hval =>
    have hstop : Stops isKeyChar s (skip s .nonAtomic ke) :=
      Stops.of_eq (hqe ▸ hq') (by decide)
    have hrun := hk.rep1 (by decide) hstop
    refine ⟨s, .nonAtomic, kb, ke, .node .key kb ke [], ?_, rfl⟩
    rw [Grammar.key, keyChar_eq, rule_eq_some (by decide)]
    exact ⟨[], hrun, rfl⟩

theorem IsDocument.isPath {x y : ℕ} (hd : IsDocument s x y root) (hn : TreeNode s root n) :
    IsPath n.path := by
  induction hn with
  | root => exact fun k hk => absurd hk List.not_mem_nil
  | member hm hv hpair hinner ih =>
    obtain ⟨i, j, -, hp⟩ := hd.pair_of_member hinner (TreeNode.member hm hv hpair hinner)
    intro k hk
    rcases List.mem_append.1 hk with hk | hk
    · exact ih k hk
    · rw [List.mem_singleton, PathSegment.key.injEq] at hk
      exact hk ▸ isKeyText_of_pair hp
  | element _ _ _ ih =>
    intro k hk
    rcases List.mem_append.1 hk with hk | hk
    · exact ih k hk
    · exact absurd (List.mem_singleton.1 hk) (by simp)

/-- Two nodes with one name have one path. -/
theorem IsDocument.path_eq {x y : ℕ} (hd : IsDocument s x y root) (hm : TreeNode s root m)
    (hn : TreeNode s root n) (h : m.name = n.name) : m.path = n.path :=
  render_inj (hd.isPath hm) (hd.isPath hn) h

end TlsnDemo
