import TlsnDemo.Parser.Traversal
import TlsnDemo.Syntax.Geometry
import TlsnDemo.Support.Maps

/-!
# The body map as a list of nodes

The traversal of a JSON body inserts one entry a node, in document order,
under the path it has pushed so far. `nodesValue` is that list of nodes:
each with its path and its token, a pair for a member of an object and a
value for an element of an array. A traversal that succeeds has inserted
exactly these (`traverse_ok`), so what the map holds is an entry of a
token that occurs in the document.
-/

namespace TlsnDemo

open Peg Support

variable {input : List UInt8} {t u : Token} {ts : List Token}

/-- A path, the token it leads to, and what the body map holds for it. -/
structure PathNode where
  path : List PathSegment
  token : Token
  field : StandardBody

namespace PathNode

/-- A member of an object, as the pair of its key and its value. -/
def member (path : List PathSegment) (pair keyPair valuePair : Token) : PathNode :=
  ⟨path, pair, .keyValue (extractRange keyPair) (extractRange valuePair)⟩

/-- An element of an array. -/
def element (path : List PathSegment) (value : Token) : PathNode :=
  ⟨path, value, .value (extractRange value)⟩

/-- A node as an entry of the map. -/
def entry (n : PathNode) : String × StandardBody := (PathStack.render ⟨n.path⟩, n.field)

end PathNode

/-- The span of what an entry leads to. -/
def valueSpan : StandardBody → Range
  | .keyValue _ value => value
  | .value range => range

/-- A range lies within another. -/
def Range.Within (self outer : Range) : Prop := outer.start ≤ self.start ∧ self.stop ≤ outer.stop

/-- A range lies within another, at neither of its ends. -/
def Range.Inside (self outer : Range) : Prop := outer.start < self.start ∧ self.stop < outer.stop

open PathNode

mutual

/-- The nodes below a value that a path leads to. -/
def nodesValue (input : List UInt8) (path : List PathSegment) : Token → List PathNode
  | .node rule _ _ inner =>
    if rule = .object then nodesObject input path inner
    else if rule = .array then nodesArray input path 0 inner
    else []

/-- The members of an object, each with the nodes below it. -/
def nodesObject (input : List UInt8) (path : List PathSegment) : List Token → List PathNode
  | [] => []
  | .node rule start stop inner :: rest =>
    (match inner with
      | [keyPair, valuePair] =>
        member (path ++ [.key (asStr input keyPair)]) (.node rule start stop [keyPair, valuePair])
          keyPair valuePair ::
          nodesValue input (path ++ [.key (asStr input keyPair)]) valuePair
      | _ => []) ++ nodesObject input path rest

/-- The elements of an array from an index on, each with the nodes below it. -/
def nodesArray (input : List UInt8) (path : List PathSegment) (idx : ℕ) : List Token → List PathNode
  | [] => []
  | t :: rest =>
    element (path ++ [.index idx]) t :: nodesValue input (path ++ [.index idx]) t ++
      nodesArray input path (idx + 1) rest

end

theorem PathStack.pop_push {path : PathStack} {seg : PathSegment} : (path.push seg).pop = path := by
  simp [push, pop]

theorem assertRule_eq_ok {r : Rule} {field : String} {x : Unit} :
    assertRule t r field = .ok x ↔ t.asRule = r := by
  unfold assertRule
  split <;> simp_all

theorem assertEndOfIterator_eq_ok {context : String} {x : Unit} :
    assertEndOfIterator ts context = .ok x ↔ ts = [] := by
  cases ts <;> simp [assertEndOfIterator]

/-! ## One step of each walker -/

theorem traverseValue_node {r : Rule} {i j : ℕ} {st st' : Traversal} :
    traverseValue input (.node r i j ts) st = .ok st' ↔
      ∃ st₁, (if r = .object then traverseObject input ts st
        else if r = .array then traverseArray input 0 ts st else .ok st) = .ok st₁ ∧
        st' = { st₁ with path := st₁.path.pop } := by
  unfold traverseValue
  dsimp only
  split
  · exact bind_eq_ok.trans (exists_congr fun _ => and_congr_right fun _ => by
      rw [pure_eq_ok, eq_comm])
  · split
    · exact bind_eq_ok.trans (exists_congr fun _ => and_congr_right fun _ => by
        rw [pure_eq_ok, eq_comm])
    · exact bind_eq_ok.trans (exists_congr fun _ => and_congr_right fun _ => by
        rw [pure_eq_ok, eq_comm])

theorem traverseObject_cons {r : Rule} {i j : ℕ} {inner rest : List Token} {st st' : Traversal} :
    traverseObject input (.node r i j inner :: rest) st = .ok st' ↔
      ∃ keyPair valuePair st₁, r = .pair ∧ inner = [keyPair, valuePair] ∧
        traverseValue input valuePair
          ⟨st.body.insert (st.path.push (.key (asStr input keyPair))).render
            (.keyValue (extractRange keyPair) (extractRange valuePair)),
            st.path.push (.key (asStr input keyPair))⟩ = .ok st₁ ∧
        traverseObject input rest st₁ = .ok st' := by
  conv_lhs => unfold traverseObject
  simp only [bind_eq_ok, assertRule_eq_ok, Pair.asRule_node]
  constructor
  · rintro ⟨-, rfl, h⟩
    match inner, h with
    | [], h => simp [throw, throwThe, MonadExceptOf.throw] at h
    | [_], h => simp [throw, throwThe, MonadExceptOf.throw] at h
    | keyPair :: valuePair :: more, h =>
      simp only [bind_eq_ok, assertEndOfIterator_eq_ok] at h
      obtain ⟨-, rfl, st₁, h₁, h₂⟩ := h
      exact ⟨keyPair, valuePair, st₁, rfl, rfl, h₁, h₂⟩
  · rintro ⟨keyPair, valuePair, st₁, rfl, rfl, h₁, h₂⟩
    refine ⟨(), rfl, ?_⟩
    simp only [bind_eq_ok, assertEndOfIterator_eq_ok]
    exact ⟨(), trivial, st₁, h₁, h₂⟩

theorem traverseArray_cons {idx : ℕ} {st st' : Traversal} :
    traverseArray input idx (t :: ts) st = .ok st' ↔
      ∃ st₁, traverseValue input t
          ⟨st.body.insert (st.path.push (.index idx)).render (.value (extractRange t)),
            st.path.push (.index idx)⟩ = .ok st₁ ∧
        traverseArray input (idx + 1) ts st₁ = .ok st' := by
  rw [traverseArray]
  simp only [bind_eq_ok]

/-! ## Whole runs -/

theorem insertAll_entries {m : StringMap StandardBody} {n : PathNode} {ns ns' : List PathNode} :
    insertAll (insertAll (m.insert n.entry.1 n.entry.2) (ns.map entry)) (ns'.map entry) =
      insertAll m ((n :: ns ++ ns').map entry) := by
  rw [List.map_append, insertAll_append, List.map_cons, insertAll_cons]

mutual

/-- **A traversal inserts its nodes**, and leaves the path it was at. -/
theorem traverseValue_ok : ∀ {t : Token} {st st' : Traversal}, traverseValue input t st = .ok st' →
    st' = ⟨insertAll st.body ((nodesValue input st.path.segments t).map entry), st.path.pop⟩
  | .node rule start stop inner, st, st', h => by
    obtain ⟨st₁, h₁, rfl⟩ := traverseValue_node.1 h
    unfold nodesValue
    split at h₁
    · next hr =>
      obtain rfl := traverseObject_ok h₁
      rw [if_pos hr]
    · next hr =>
      split at h₁
      · next hr' =>
        obtain rfl := traverseArray_ok h₁
        rw [if_neg hr, if_pos hr']
      · next hr' =>
        simp only [Except.ok.injEq] at h₁
        subst h₁
        rw [if_neg hr, if_neg hr']
        rfl

theorem traverseObject_ok : ∀ {ts : List Token} {st st' : Traversal},
    traverseObject input ts st = .ok st' →
    st' = ⟨insertAll st.body ((nodesObject input st.path.segments ts).map entry), st.path⟩
  | [], st, st', h => by
    simp only [traverseObject, Except.ok.injEq] at h
    subst h
    rfl
  | .node rule start stop inner :: rest, st, st', h => by
    obtain ⟨keyPair, valuePair, st₁, rfl, rfl, h₁, h₂⟩ := traverseObject_cons.1 h
    obtain rfl := traverseValue_ok h₁
    obtain rfl := traverseObject_ok h₂
    rw [PathStack.pop_push]
    congr 1
    exact insertAll_entries (n := member _ (.node .pair start stop [keyPair, valuePair]) _ _)

theorem traverseArray_ok : ∀ {ts : List Token} {idx : ℕ} {st st' : Traversal},
    traverseArray input idx ts st = .ok st' →
    st' = ⟨insertAll st.body ((nodesArray input st.path.segments idx ts).map entry), st.path⟩
  | [], idx, st, st', h => by
    simp only [traverseArray, Except.ok.injEq] at h
    subst h
    rfl
  | t :: rest, idx, st, st', h => by
    obtain ⟨st₁, h₁, h₂⟩ := traverseArray_cons.1 h
    obtain rfl := traverseValue_ok h₁
    obtain rfl := traverseArray_ok h₂
    rw [PathStack.pop_push]
    congr 1
    exact insertAll_entries (n := element _ t)

end

/-! ## What the nodes of a document are -/

section Nodes

variable {path : List PathSegment} {i j idx : ℕ}

/-- The nodes of one member. -/
def nodesMember (input : List UInt8) (path : List PathSegment) (pair : Token) : List PathNode :=
  match pair.intoInner with
  | [keyPair, valuePair] =>
    member (path ++ [.key (asStr input keyPair)]) pair keyPair valuePair ::
      nodesValue input (path ++ [.key (asStr input keyPair)]) valuePair
  | _ => []

theorem nodesObject_cons : nodesObject input path (t :: ts) =
    nodesMember input path t ++ nodesObject input path ts := by
  obtain ⟨r, i, j, inner⟩ := t
  conv_lhs => unfold nodesObject
  match inner with
  | [] => rfl
  | [_] => rfl
  | [_, _] => rfl
  | _ :: _ :: _ :: _ => rfl

theorem nodesObject_append {us : List Token} :
    nodesObject input path (ts ++ us) = nodesObject input path ts ++ nodesObject input path us := by
  induction ts with
  | nil => rfl
  | cons t ts ih => rw [List.cons_append, nodesObject_cons, nodesObject_cons, ih, List.append_assoc]

theorem nodesArray_append {us : List Token} :
    nodesArray input path idx (ts ++ us) =
      nodesArray input path idx ts ++ nodesArray input path (idx + ts.length) us := by
  induction ts generalizing idx with
  | nil => rfl
  | cons t ts ih =>
    simp only [List.cons_append, nodesArray, ih, List.append_assoc, List.length_cons]
    rw [Nat.add_right_comm, Nat.add_assoc]

/-- The nodes of what a phrase derives. -/
def nodesOf (input : List UInt8) (path : List PathSegment) (idx : ℕ) :
    Syntax.Phrase → List Token → List PathNode
  | .value, ts => ts.flatMap (nodesValue input path)
  | .pair, ts => nodesObject input path ts
  | .items .object, ts => nodesObject input path ts
  | .items .array, ts => nodesArray input path idx ts

/-- **A node of a document** is a pair with its key and its value, or a
value that is an element. -/
inductive IsNode (s : List UInt8) (a : Atomicity) : PathNode → Prop
  | member {path : List PathSegment} {i j : ℕ} {keyPair valuePair : Token} :
      Syntax.Derives s a .pair i j [.node .pair i j [keyPair, valuePair]] →
      IsNode s a (member path (.node .pair i j [keyPair, valuePair]) keyPair valuePair)
  | element {path : List PathSegment} {value : Token} :
      Syntax.isValue value.asRule = true → IsNode s a (element path value)

theorem nodesOf_bracket {b : Syntax.Bracket} :
    nodesOf input path idx .value [.node b.rule i j ts] = nodesOf input path 0 (.items b) ts := by
  cases b with
  | object => simp [nodesOf, nodesValue, Syntax.Bracket.rule]
  | array => simp [nodesOf, nodesValue, Syntax.Bracket.rule]

theorem nodesOf_scalar {r : Rule} (hr : Syntax.isScalar r = true) :
    nodesOf input path idx .value [.node r i j ts] = [] := by
  have h1 : r ≠ .object := by rintro rfl; simp [Syntax.isScalar] at hr
  have h2 : r ≠ .array := by rintro rfl; simp [Syntax.isScalar] at hr
  simp [nodesOf, nodesValue, h1, h2]

theorem nodesOf_pair {keyPair : Token} :
    nodesOf input path idx .pair [.node .pair i j [keyPair, t]] =
      member (path ++ [.key (asStr input keyPair)]) (.node .pair i j [keyPair, t]) keyPair t ::
        nodesOf input (path ++ [.key (asStr input keyPair)]) 0 .value [t] := by
  simp [nodesOf, nodesObject]

theorem nodesOf_last_array :
    nodesOf input path idx (.items .array) [t] =
      element (path ++ [.index idx]) t :: nodesOf input (path ++ [.index idx]) 0 .value [t] := by
  simp [nodesOf, nodesArray]

theorem nodesOf_append {b : Syntax.Bracket} {us : List Token} :
    nodesOf input path idx (.items b) (ts ++ us) =
      nodesOf input path idx (.items b) ts ++ nodesOf input path (idx + ts.length) (.items b) us := by
  cases b with
  | object => exact nodesObject_append
  | array => exact nodesArray_append

/-- Over the same keys, a document has the same nodes. -/
theorem Syntax.Derives.nodesOf_congr {s t : List UInt8} {a : Atomicity} {φ : Syntax.Phrase}
    (h : Syntax.Derives s a φ i j ts)
    (hkeys : ∀ x y keyPair valuePair, Occurs (.node .pair x y [keyPair, valuePair]) ts →
      asStr t keyPair = asStr s keyPair) :
    nodesOf t path idx φ ts = nodesOf s path idx φ ts := by
  induction h generalizing path idx with
  | empty b _ _ _ =>
    rw [nodesOf_bracket, nodesOf_bracket]
    cases b <;> rfl
  | filled b _ _ _ _ _ ih =>
    rw [nodesOf_bracket, nodesOf_bracket]
    exact ih fun x y kp vp hocc => hkeys x y kp vp (Occurs.inner hocc)
  | string _ _ _ _ _ => rw [nodesOf_scalar rfl, nodesOf_scalar rfl]
  | scalar h => rw [nodesOf_scalar h.isScalar, nodesOf_scalar h.isScalar]
  | pair _ _ _ _ _ _ _ _ hval ih =>
    obtain ⟨v, rfl, -⟩ := hval.value_token
    have hkey := hkeys _ _ _ v Occurs.head
    have hvalue : ∀ path, nodesOf t path 0 .value [v] = nodesOf s path 0 .value [v] := fun path =>
      ih fun x y kp vp hocc => hkeys x y kp vp (Occurs.inner (Occurs.tail hocc))
    rw [nodesOf_pair, nodesOf_pair, hkey, hvalue]
  | last b hi ih =>
    cases b with
    | object =>
      have hpair : nodesOf t path idx .pair _ = nodesOf s path idx .pair _ := ih hkeys
      exact hpair
    | array =>
      obtain ⟨v, rfl, -⟩ := Syntax.Derives.value_token hi
      have hvalue : ∀ path, nodesOf t path 0 .value [v] = nodesOf s path 0 .value [v] := fun path =>
        ih hkeys
      rw [nodesOf_last_array, nodesOf_last_array, hvalue]
  | more b hi _ _ _ _ ih1 ih2 =>
    rw [nodesOf_append, nodesOf_append,
      ih2 fun x y kp vp hocc => hkeys x y kp vp (occurs_append.2 (Or.inr hocc))]
    congr 1
    have hfirst : ∀ path idx, nodesOf t path idx b.item _ = nodesOf s path idx b.item _ :=
      fun path idx => ih1 fun x y kp vp hocc => hkeys x y kp vp (occurs_append.2 (Or.inl hocc))
    cases b with
    | object => exact hfirst path idx
    | array =>
      obtain ⟨v, rfl, -⟩ := Syntax.Derives.value_token hi
      have hvalue : ∀ path, nodesOf t path 0 .value [v] = nodesOf s path 0 .value [v] := fun path =>
        hfirst path 0
      rw [nodesOf_last_array, nodesOf_last_array, hvalue]

/-- **What the traversal visits are the nodes of the document.** -/
theorem Syntax.Derives.nodes {s : List UInt8} {a : Atomicity} {φ : Syntax.Phrase}
    (h : Syntax.Derives s a φ i j ts) {n : PathNode} (hn : n ∈ nodesOf input path idx φ ts) :
    IsNode s a n ∧ Occurs n.token ts := by
  induction h generalizing path idx with
  | empty b _ _ _ =>
    rw [nodesOf_bracket] at hn
    cases b <;> simp [nodesOf, nodesObject, nodesArray] at hn
  | filled b _ _ _ _ _ ih =>
    rw [nodesOf_bracket] at hn
    obtain ⟨h1, h2⟩ := ih hn
    exact ⟨h1, Occurs.inner h2⟩
  | string _ _ _ _ _ =>
    rw [nodesOf_scalar rfl] at hn
    simp at hn
  | scalar h =>
    rw [nodesOf_scalar h.isScalar] at hn
    simp at hn
  | pair hq hkb hk hqe hq' hc hcol hv hval ih =>
    obtain ⟨t, rfl, -⟩ := hval.value_token
    rw [nodesOf_pair] at hn
    rcases List.mem_cons.1 hn with rfl | hn
    · exact ⟨IsNode.member (Syntax.Derives.pair hq hkb hk hqe hq' hc hcol hv hval), Occurs.head⟩
    · obtain ⟨h1, h2⟩ := ih hn
      exact ⟨h1, Occurs.inner (Occurs.tail h2)⟩
  | last b hi ih =>
    cases b with
    | object =>
      have hpair : n ∈ nodesOf input path idx .pair _ := hn
      exact ih hpair
    | array =>
      obtain ⟨t, rfl, ht, -⟩ := Syntax.Derives.value_token hi
      rw [nodesOf_last_array] at hn
      rcases List.mem_cons.1 hn with rfl | hn
      · exact ⟨IsNode.element ht, Occurs.head⟩
      · exact ih hn
  | more b hi hc hcom hm hitems ih1 ih2 =>
    rw [nodesOf_append] at hn
    rcases List.mem_append.1 hn with hn | hn
    · cases b with
      | object =>
        have hpair : n ∈ nodesOf input path idx .pair _ := hn
        obtain ⟨h1, h2⟩ := ih1 hpair
        exact ⟨h1, occurs_append.2 (Or.inl h2)⟩
      | array =>
        obtain ⟨t, rfl, ht, -⟩ := Syntax.Derives.value_token hi
        rw [nodesOf_last_array] at hn
        rcases List.mem_cons.1 hn with rfl | hn
        · exact ⟨IsNode.element ht, occurs_append.2 (Or.inl Occurs.head)⟩
        · obtain ⟨h1, h2⟩ := ih1 hn
          exact ⟨h1, occurs_append.2 (Or.inl h2)⟩
    · obtain ⟨h1, h2⟩ := ih2 hn
      exact ⟨h1, occurs_append.2 (Or.inr h2)⟩

/-- The path of a node goes on from where the traversal started. -/
theorem nodesOf_path {s : List UInt8} {a : Atomicity} {φ : Syntax.Phrase}
    (h : Syntax.Derives s a φ i j ts) {n : PathNode} (hn : n ∈ nodesOf input path idx φ ts) :
    ∃ seg rest, n.path = path ++ seg :: rest := by
  induction h generalizing path idx with
  | empty b _ _ _ =>
    rw [nodesOf_bracket] at hn
    cases b <;> simp [nodesOf, nodesObject, nodesArray] at hn
  | filled b _ _ _ _ _ ih =>
    rw [nodesOf_bracket] at hn
    exact ih hn
  | string _ _ _ _ _ =>
    rw [nodesOf_scalar rfl] at hn
    simp at hn
  | scalar h =>
    rw [nodesOf_scalar h.isScalar] at hn
    simp at hn
  | pair _ _ _ _ _ _ _ _ hval ih =>
    obtain ⟨t, rfl, -⟩ := hval.value_token
    rw [nodesOf_pair] at hn
    rcases List.mem_cons.1 hn with rfl | hn
    · exact ⟨_, [], rfl⟩
    · obtain ⟨seg, rest, hp⟩ := ih hn
      exact ⟨_, seg :: rest, by rw [hp, List.append_assoc]; rfl⟩
  | last b hi ih =>
    cases b with
    | object =>
      have hpair : n ∈ nodesOf input path idx .pair _ := hn
      exact ih hpair
    | array =>
      obtain ⟨t, rfl, -⟩ := Syntax.Derives.value_token hi
      rw [nodesOf_last_array] at hn
      rcases List.mem_cons.1 hn with rfl | hn
      · exact ⟨_, [], rfl⟩
      · obtain ⟨seg, rest, hp⟩ := ih hn
        exact ⟨_, seg :: rest, by rw [hp, List.append_assoc]; rfl⟩
  | more b hi _ _ _ _ ih1 ih2 =>
    rw [nodesOf_append] at hn
    rcases List.mem_append.1 hn with hn | hn
    · cases b with
      | object =>
        have hpair : n ∈ nodesOf input path idx .pair _ := hn
        exact ih1 hpair
      | array =>
        obtain ⟨t, rfl, -⟩ := Syntax.Derives.value_token hi
        rw [nodesOf_last_array] at hn
        rcases List.mem_cons.1 hn with rfl | hn
        · exact ⟨_, [], rfl⟩
        · obtain ⟨seg, rest, hp⟩ := ih1 hn
          exact ⟨_, seg :: rest, by rw [hp, List.append_assoc]; rfl⟩
    · exact ih2 hn

/-- No path of a node is printed as the path of the root. -/
theorem render_cons_ne {seg : PathSegment} {rest : List PathSegment} :
    PathStack.render ⟨seg :: rest⟩ ≠ "" := by
  intro h
  have hlen := congrArg String.length h
  cases seg <;> simp [PathStack.render, PathSegment.render] at hlen

/-! ## What a body map holds -/

/-- The body map of a document with a root. -/
def bodyMap (input : List UInt8) (root : Token) : StringMap StandardBody :=
  insertAll ((∅ : StringMap StandardBody).insert "" (.value (extractRange root)))
    ((nodesValue input [] root).map entry)

theorem traverse_ok {root : Token} {m : StringMap StandardBody} (h : traverse input root = .ok m) :
    m = bodyMap input root := by
  obtain ⟨st, hst, hm⟩ := bind_eq_ok.1 h
  obtain rfl := traverseValue_ok hst
  rw [pure_eq_ok] at hm
  exact hm.symm

theorem parseStandardBody_ok {pairs : List Token} {m : StringMap StandardBody}
    (h : parseStandardBody input pairs = .ok m) :
    m = ∅ ∨ ∃ root rest, pairs = root :: rest ∧ (root.asRule = .object ∨ root.asRule = .array) ∧
      m = bodyMap input root := by
  match pairs, h with
  | [], h => exact Or.inl (Except.ok.inj h).symm
  | root :: rest, h =>
    simp only [parseStandardBody] at h
    split at h
    · next hr => exact Or.inr ⟨root, rest, rfl, hr, traverse_ok h⟩
    · exact Or.inl (Except.ok.inj h).symm

theorem lookup_bodyMap {root : Token} {p : String} {field : StandardBody}
    (h : (bodyMap input root).lookup p = some field) :
    p = "" ∧ field = .value (extractRange root) ∨
      ∃ n ∈ nodesValue input [] root, PathStack.render ⟨n.path⟩ = p ∧ n.field = field := by
  rcases mem_of_lookup_insertAll h with h | h
  · obtain ⟨n, hn, he⟩ := List.mem_map.1 h
    simp only [PathNode.entry, Prod.mk.injEq] at he
    exact Or.inr ⟨n, hn, he⟩
  · by_cases hp : p = ""
    · subst hp
      rw [AList.lookup_insert, Option.some.injEq] at h
      exact Or.inl ⟨rfl, h.symm⟩
    · rw [AList.lookup_insert_ne hp] at h
      simp at h

end Nodes

end TlsnDemo
