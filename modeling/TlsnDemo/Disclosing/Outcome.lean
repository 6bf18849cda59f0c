import TlsnDemo.Disclosing.Plan

/-!
# The outcome of a disclosure

The builders may refuse any call, and a run then fails with their error.
Unless they do, a run yields calls and an outcome that the rules alone
determine: all the calls of rules that match, or those before the first
rule that does not, and the error of that one.
-/

namespace TlsnDemo

variable {α β : Type}

namespace Disclose

variable {tlsn : Tlsn} {n : ℕ}

/-- **A run that is refused** one of its calls: it has made those before
it, and the builders' error is its outcome. -/
def RefusedOf (tlsn : Tlsn) (n : ℕ) (m : Disclose α) (p calls : List Disclosure) : Prop :=
  ∃ q c, q ++ [c] <+: p ∧ tlsn n (calls ++ q) c = false ∧
    m.runFrom calls = (.error .tlsn, calls ++ q)

/-- **What a run yields**, unless the builders refuse a call. -/
def Yields (tlsn : Tlsn) (n : ℕ) (m : Disclose α) (p : List Disclosure) (r : Except Error α) :
    Prop :=
  ∀ calls, m.runFrom calls = (r, calls ++ p) ∨ RefusedOf tlsn n m p calls

/-- **A run begins with calls**, unless the builders refuse one of them,
and goes on with calls from the front of others. -/
def Begins (tlsn : Tlsn) (n : ℕ) (m : Disclose α) (p p' : List Disclosure) : Prop :=
  ∀ calls, (∃ q, q <+: p' ∧ (m.runFrom calls).2 = calls ++ (p ++ q)) ∨ RefusedOf tlsn n m p calls

section

variable {m : Disclose α} {f : α → Disclose β} {p p₁ p₂ calls : List Disclosure} {x : α}

theorem RefusedOf.bind (h : RefusedOf tlsn n m p calls) : RefusedOf tlsn n (m >>= f) (p ++ p₁) calls := by
  obtain ⟨q, c, hq, hc, hrun⟩ := h
  refine ⟨q, c, hq.trans (List.prefix_append _ _), hc, ?_⟩
  rw [runFrom_bind, hrun]

theorem RefusedOf.after (hm : m.runFrom calls = (.ok x, calls ++ p))
    (h : RefusedOf tlsn n (f x) p₁ (calls ++ p)) : RefusedOf tlsn n (m >>= f) (p ++ p₁) calls := by
  obtain ⟨q, c, hq, hc, hrun⟩ := h
  refine ⟨p ++ q, c, ?_, by rwa [← List.append_assoc], ?_⟩
  · rw [List.append_assoc]
    exact (List.prefix_append_right_inj _).2 hq
  · rw [runFrom_bind, hm, ← List.append_assoc]
    exact hrun

theorem Begins.of_yields {f : α → Disclose Unit} (hm : Yields tlsn n m p (.ok x))
    (hf : Follows (f x) p₁) : Begins tlsn n (m >>= f) p p₁ := by
  intro calls
  rcases hm calls with h | h
  · obtain ⟨q, hq, hlog, -⟩ := hf (calls ++ p)
    refine Or.inl ⟨q, hq, ?_⟩
    rw [runFrom_bind, h, ← List.append_assoc]
    exact hlog
  · exact Or.inr (List.append_nil p ▸ h.bind)

theorem Begins.bind (hm : Yields tlsn n m p (.ok x)) (hf : Begins tlsn n (f x) p₁ p₂) :
    Begins tlsn n (m >>= f) (p ++ p₁) p₂ := by
  intro calls
  rcases hm calls with h | h
  · rcases hf (calls ++ p) with ⟨q, hq, hlog⟩ | h'
    · refine Or.inl ⟨q, hq, ?_⟩
      rw [runFrom_bind, h, List.append_assoc, ← List.append_assoc]
      exact hlog
    · exact Or.inr (RefusedOf.after h h')
  · exact Or.inr h.bind

end

namespace Yields

variable {m : Disclose α} {p p' : List Disclosure} {e : Error}

theorem pure {x : α} : Yields tlsn n (pure x) [] (.ok x) := fun calls =>
  Or.inl (by rw [runFrom_pure, List.append_nil])

theorem lift {x : Except Error α} : Yields tlsn n (liftM x) [] x := fun calls =>
  Or.inl (by rw [runFrom_lift, List.append_nil])

theorem bind {x : α} {f : α → Disclose β} {r : Except Error β} (hm : Yields tlsn n m p (.ok x))
    (hf : Yields tlsn n (f x) p' r) : Yields tlsn n (m >>= f) (p ++ p') r := by
  intro calls
  rcases hm calls with h | h
  · rcases hf (calls ++ p) with h' | h'
    · refine Or.inl ?_
      rw [runFrom_bind, h, ← List.append_assoc]
      exact h'
    · exact Or.inr (RefusedOf.after h h')
  · exact Or.inr h.bind

theorem bind_error {f : α → Disclose β} (hm : Yields tlsn n m p (.error e)) :
    Yields tlsn n (m >>= f) p (.error e) := by
  intro calls
  rcases hm calls with h | h
  · refine Or.inl ?_
    rw [runFrom_bind, h]
  · exact Or.inr (List.append_nil p ▸ h.bind)

/-- A loop whose steps all succeed yields the calls of each. -/
theorem forM {xs : List α} {f : α → Disclose Unit} {p : α → List Disclosure}
    (hf : ∀ x ∈ xs, Yields tlsn n (f x) (p x) (.ok ())) :
    Yields tlsn n (xs.forM f) (xs.flatMap p) (.ok ()) := by
  induction xs with
  | nil => exact pure
  | cons x xs ih =>
    rw [List.flatMap_cons]
    exact bind (hf x List.mem_cons_self) (ih fun y hy => hf y (List.mem_cons_of_mem x hy))

/-- A loop ends at its first step that fails. -/
theorem forM_error {xs ys : List α} {x : α} {f : α → Disclose Unit} {p : α → List Disclosure}
    (hf : ∀ y ∈ xs, Yields tlsn n (f y) (p y) (.ok ())) (hx : Yields tlsn n (f x) [] (.error e)) :
    Yields tlsn n ((xs ++ x :: ys).forM f) (xs.flatMap p) (.error e) := by
  induction xs with
  | nil => exact bind_error hx
  | cons y xs ih =>
    rw [List.flatMap_cons]
    exact bind (hf y List.mem_cons_self) (ih fun z hz => hf z (List.mem_cons_of_mem y hz))

/-- With builders that accept every call, a run makes the calls it yields. -/
theorem calls_eq {r : Except Error α} (hm : Yields tlsn n m p r)
    (haccept : ∀ calls c, tlsn n calls c = true) : m.calls = p := by
  rcases hm [] with h | ⟨q, c, -, hc, -⟩
  · rw [calls, h, List.nil_append]
  · rw [haccept] at hc
    exact absurd hc (by decide)

end Yields

end Disclose

open Disclose

section

variable {tlsn : Tlsn} {direction : TranscriptDirection} {source : List UInt8} {e : Error}

theorem yields_applyDisclosure {action : DisclosureAction} {range : Range} :
    Yields tlsn source.length (applyDisclosure tlsn direction source action range)
      [⟨direction, action, range⟩] (.ok ()) := by
  intro calls
  cases hc : tlsn source.length calls ⟨direction, action, range⟩ with
  | true => exact Or.inl (by rw [runFrom_applyDisclosure, hc, if_pos rfl])
  | false =>
    refine Or.inr ⟨[], ⟨direction, action, range⟩, List.prefix_rfl, ?_, ?_⟩
    · rw [List.append_nil, hc]
    · rw [runFrom_applyDisclosure, hc, if_neg (by decide), List.append_nil]

variable {R T : Type} {n : ℕ} {rules pre post : List R} {rule : R} {find : R → Except Error T}
  {disclose : R → T → Disclose Unit} {p : R → List Disclosure}

/-- Rules that all match disclose what each leads to. -/
theorem yields_applyRules
    (h : ∀ rule ∈ rules, ∃ x, find rule = .ok x ∧ Yields tlsn n (disclose rule x) (p rule) (.ok ())) :
    Yields tlsn n (applyRules rules find disclose) (rules.flatMap p) (.ok ()) := by
  refine Yields.forM fun rule hrule => ?_
  obtain ⟨x, hx, hy⟩ := h rule hrule
  rw [hx]
  exact Yields.lift.bind hy

/-- The first rule that does not match ends the loop with its error. -/
theorem yields_applyRules_error
    (h : ∀ rule ∈ pre, ∃ x, find rule = .ok x ∧ Yields tlsn n (disclose rule x) (p rule) (.ok ()))
    (hr : find rule = .error e) :
    Yields tlsn n (applyRules (pre ++ rule :: post) find disclose) (pre.flatMap p) (.error e) := by
  refine Yields.forM_error (fun rule hrule => ?_) ?_
  · obtain ⟨x, hx, hy⟩ := h rule hrule
    rw [hx]
    exact Yields.lift.bind hy
  · rw [hr]
    exact Yields.lift.bind_error

/-- The lines of a group are disclosed one after the other. -/
theorem yields_discloseHeaders {action : DisclosureAction} {group : List StandardHeader} :
    Yields tlsn source.length (discloseHeaders tlsn direction source action group)
      (group.map fun header => ⟨direction, action, header.name.headerFullRange header.value⟩)
      (.ok ()) := by
  have h : Yields tlsn source.length (discloseHeaders tlsn direction source action group)
      (group.flatMap fun header => [⟨direction, action, header.name.headerFullRange header.value⟩])
      (.ok ()) := Yields.forM fun _ _ => yields_applyDisclosure
  rwa [← List.map_eq_flatMap] at h

end

/-! ## Rules that all match -/

section Matching

variable [ToLowercase] {headers : StringMap (List StandardHeader)} {body : StringMap StandardBody}
  {config : RevealConfig}

/-- **Every rule matches**: a header, an entry, or a key with its value. -/
structure RulesMatch (headers : StringMap (List StandardHeader)) (body : StringMap StandardBody)
    (config : RevealConfig) : Prop where
  names : ∀ name ∈ config.revealHeaders ++ config.commitHeaders,
    (headers.lookup (toLowercase name)).isSome = true
  fields : ∀ field ∈ config.revealBodyFields ++ config.commitBodyFields,
    (body.lookup field.keypath).isSome = true
  keys : ∀ rule ∈ config.revealKeysCommitValues,
    ∃ key value, body.lookup rule.keypath = some (.keyValue key value)

variable {tlsn : Tlsn} {direction : TranscriptDirection} {source : List UInt8}
  {M : Type} [HttpMessage M StandardHeader StandardBody] {message : M} {action : DisclosureAction}

theorem yields_headerPlan {names : List String}
    (h : ∀ name ∈ names, ((HttpMessage.headers message).lookup (toLowercase name)).isSome = true) :
    Yields tlsn source.length
      (applyRules names (findHeader direction message)
        fun _ headers => discloseHeaders tlsn direction source action headers)
      (headerPlan direction (HttpMessage.headers message) action names) (.ok ()) := by
  refine yields_applyRules fun name hname => ?_
  obtain ⟨group, hlookup⟩ := Option.isSome_iff_exists.1 (h name hname)
  rw [findHeader, hlookup]
  exact ⟨group, rfl, yields_discloseHeaders⟩

omit [ToLowercase] in
theorem yields_fieldPlan {fields : List BodyFieldConfig}
    (h : ∀ field ∈ fields, ((HttpMessage.body message).lookup field.keypath).isSome = true) :
    Yields tlsn source.length
      (applyRules fields (findBodyField direction message) fun field bodyField =>
        applyDisclosure tlsn direction source action (field.selectionRange bodyField))
      (fieldPlan direction (HttpMessage.body message) action fields) (.ok ()) := by
  refine yields_applyRules fun field hfield => ?_
  obtain ⟨bodyField, hlookup⟩ := Option.isSome_iff_exists.1 (h field hfield)
  rw [findBodyField, hlookup]
  exact ⟨bodyField, rfl, yields_applyDisclosure⟩

omit [ToLowercase] in
theorem yields_keyPlan {rules : List KeyValueCommitConfig}
    (h : ∀ rule ∈ rules, ∃ key value,
      (HttpMessage.body message).lookup rule.keypath = some (.keyValue key value)) :
    Yields tlsn source.length
      (applyRules rules (findKeyValue direction message) fun rule (key, value) => do
        applyDisclosure tlsn direction source .reveal key.withQuotesAndColon
        applyDisclosure tlsn direction source .commit (rule.valueRange value))
      (keyPlan direction (HttpMessage.body message) rules) (.ok ()) := by
  refine yields_applyRules fun rule hrule => ?_
  obtain ⟨key, value, hlookup⟩ := h rule hrule
  rw [findKeyValue, hlookup]
  exact ⟨(key, value), rfl, yields_applyDisclosure.bind yields_applyDisclosure⟩

/-- **Where every rule matches, a run yields its whole plan.** -/
theorem yields_plan {start : Range}
    (h : RulesMatch (HttpMessage.headers message) (HttpMessage.body message) config) :
    Yields tlsn source.length (applyMessageRevealConfig tlsn direction source message start config)
      (plan direction (HttpMessage.headers message) (HttpMessage.body message) start config)
      (.ok ()) := by
  unfold applyMessageRevealConfig
  simp only [List.forIn_cons, List.forIn_nil, bind_assoc, pure_bind]
  have hnames := h.names
  have hfields := h.fields
  simp only [List.forall_mem_append] at hnames hfields
  exact yields_applyDisclosure.bind <| (yields_headerPlan hnames.1).bind <|
    (yields_headerPlan hnames.2).bind <| (yields_fieldPlan hfields.1).bind <|
    (yields_fieldPlan hfields.2).bind <| yields_keyPlan h.keys

end Matching

end TlsnDemo
