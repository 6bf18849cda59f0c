import TlsnDemo.Disclosing.Outcome

/-!
# The rules of a configuration, one after the other

What becomes of a message is settled by its rules in their order: the calls
of each, up to the first that does not match, whose error ends the run.
This is what a run against the builders yields, whatever the message and
the configuration (`yields_settled`); so it succeeds only if every rule
matches (`rulesMatch_of_run`).
-/

namespace TlsnDemo

namespace Disclose

/-- **What rules settle**, each given by its calls or its error: the calls up
to the first that fails, and its error. -/
def settle : List (Except Error (List Disclosure)) → List Disclosure × Except Error Unit
  | [] => ([], .ok ())
  | .error e :: _ => ([], .error e)
  | .ok p :: rules => (p ++ (settle rules).1, (settle rules).2)

variable {rules rules' : List (Except Error (List Disclosure))} {e : Error} {tlsn : Tlsn} {n : ℕ}

/-- **Rules that settle without an error** all match. -/
theorem settle_eq_ok : (settle rules).2 = .ok () ↔ ∀ rule ∈ rules, ∃ p, rule = .ok p := by
  induction rules with
  | nil => simp [settle]
  | cons rule rules ih =>
    cases rule with
    | error e => simp [settle]
    | ok p => simp [settle, ih]

/-- Behind rules that match, the others are settled. -/
theorem settle_append_of_ok (h : (settle rules).2 = .ok ()) :
    settle (rules ++ rules') = ((settle rules).1 ++ (settle rules').1, (settle rules').2) := by
  induction rules with
  | nil => rfl
  | cons rule rules ih =>
    cases rule with
    | error e => exact nomatch h
    | ok p =>
      have htail : (settle rules).2 = .ok () := h
      rw [List.cons_append, settle, ih htail, settle, List.append_assoc]

/-- The first error is final. -/
theorem settle_append_of_error (h : (settle rules).2 = .error e) :
    settle (rules ++ rules') = settle rules := by
  induction rules with
  | nil => exact nomatch h
  | cons rule rules ih =>
    cases rule with
    | error e => rfl
    | ok p =>
      have htail : (settle rules).2 = .error e := h
      rw [List.cons_append, settle, ih htail, settle]

/-- A run for some rules, and then one for others, yields what they settle
together. -/
theorem Yields.settle_append {m : Disclose Unit} {f : Unit → Disclose Unit}
    (hm : Yields tlsn n m (settle rules).1 (settle rules).2)
    (hf : Yields tlsn n (f ()) (settle rules').1 (settle rules').2) :
    Yields tlsn n (m >>= f) (settle (rules ++ rules')).1 (settle (rules ++ rules')).2 := by
  cases hr : (settle rules).2 with
  | ok x =>
    rw [hr] at hm
    rw [settle_append_of_ok hr]
    exact hm.bind hf
  | error e =>
    rw [settle_append_of_error hr, hr]
    rw [hr] at hm
    exact hm.bind_error

end Disclose

open Disclose

section

variable {R T : Type} {tlsn : Tlsn} {n : ℕ} {find : R → Except Error T}
  {disclose : R → T → Disclose Unit} {p : R → T → List Disclosure}

/-- **Rules yield what they settle**, each by what it finds. -/
theorem yields_applyRules_settle (rules : List R)
    (h : ∀ rule x, find rule = .ok x → Yields tlsn n (disclose rule x) (p rule x) (.ok ())) :
    Yields tlsn n (applyRules rules find disclose)
      (settle (rules.map fun rule => (find rule).map (p rule))).1
      (settle (rules.map fun rule => (find rule).map (p rule))).2 := by
  induction rules with
  | nil => exact Yields.pure
  | cons rule rules ih =>
    cases hx : find rule with
    | error e =>
      have hstop : Yields tlsn n (liftM (find rule) >>= disclose rule) [] (.error e) := by
        rw [hx]
        exact Yields.lift.bind_error
      rw [List.map_cons, hx]
      exact hstop.bind_error
    | ok x =>
      have hfirst : Yields tlsn n (liftM (find rule) >>= disclose rule) (p rule x) (.ok ()) := by
        rw [hx]
        exact Yields.lift.bind (h rule x hx)
      rw [List.map_cons, hx]
      exact hfirst.bind ih

end

/-! ## A message -/

section Message

variable [ToLowercase] {M : Type} [HttpMessage M StandardHeader StandardBody]

/-- What each rule of a configuration comes to in a message, in order. -/
def outcomes (direction : TranscriptDirection) (message : M) (config : RevealConfig) :
    List (Except Error (List Disclosure)) :=
  let ofHeader (action : DisclosureAction) (name : String) :=
    (findHeader direction message name).map fun group =>
      group.map fun header => ⟨direction, action, header.name.headerFullRange header.value⟩
  let ofField (action : DisclosureAction) (field : BodyFieldConfig) :=
    (findBodyField direction message field).map fun bodyField =>
      [⟨direction, action, field.selectionRange bodyField⟩]
  let ofKey (rule : KeyValueCommitConfig) :=
    (findKeyValue direction message rule).map fun entry =>
      [⟨direction, .reveal, entry.1.withQuotesAndColon⟩,
        ⟨direction, .commit, rule.valueRange entry.2⟩]
  config.revealHeaders.map (ofHeader .reveal) ++ (config.commitHeaders.map (ofHeader .commit) ++
    (config.revealBodyFields.map (ofField .reveal) ++
    (config.commitBodyFields.map (ofField .commit) ++ config.revealKeysCommitValues.map ofKey)))

variable {tlsn : Tlsn} {direction : TranscriptDirection} {source : List UInt8} {message : M}
  {start : Range} {config : RevealConfig}

/-- A run discloses the start line, and what comes behind yields what the rules
settle. -/
theorem exists_rules (tlsn : Tlsn) (direction : TranscriptDirection) (source : List UInt8)
    (message : M) (start : Range) (config : RevealConfig) :
    ∃ rules, applyMessageRevealConfig tlsn direction source message start config =
        (applyDisclosure tlsn direction source .reveal start >>= fun _ => rules) ∧
      Yields tlsn source.length rules (settle (outcomes direction message config)).1
        (settle (outcomes direction message config)).2 := by
  unfold applyMessageRevealConfig
  simp only [List.forIn_cons, List.forIn_nil, bind_assoc, pure_bind]
  refine ⟨_, rfl, ?_⟩
  refine Yields.settle_append (yields_applyRules_settle _ fun _ _ _ => yields_discloseHeaders) ?_
  refine Yields.settle_append (yields_applyRules_settle _ fun _ _ _ => yields_discloseHeaders) ?_
  refine Yields.settle_append (yields_applyRules_settle _ fun _ _ _ => yields_applyDisclosure) ?_
  refine Yields.settle_append (yields_applyRules_settle _ fun _ _ _ => yields_applyDisclosure) ?_
  refine yields_applyRules_settle _ ?_
  intro rule entry _
  exact yields_applyDisclosure.bind yields_applyDisclosure

/-- **A run yields what the rules settle**, behind the start line. Unless the
builders refuse a call, the outcome is that of the first rule that does not
match, and the calls are those of the rules before it; or all of them,
where every rule matches. -/
theorem yields_settled (tlsn : Tlsn) (direction : TranscriptDirection) (source : List UInt8)
    (message : M) (start : Range) (config : RevealConfig) :
    Yields tlsn source.length (applyMessageRevealConfig tlsn direction source message start config)
      (⟨direction, .reveal, start⟩ :: (settle (outcomes direction message config)).1)
      (settle (outcomes direction message config)).2 := by
  obtain ⟨rules, heq, hrules⟩ := exists_rules tlsn direction source message start config
  rw [heq]
  exact yields_applyDisclosure.bind hrules

/-- The rules settle without an error exactly if every one of them matches. -/
theorem settle_outcomes_eq_ok :
    (settle (outcomes direction message config)).2 = .ok () ↔
      RulesMatch (HttpMessage.headers message) (HttpMessage.body message) config := by
  have hheader : ∀ action name, (∃ p, ((findHeader direction message name).map fun group =>
      group.map fun header => (⟨direction, action, header.name.headerFullRange header.value⟩ :
        Disclosure)) = .ok p) ↔
      ((HttpMessage.headers message).lookup (toLowercase name)).isSome = true := by
    intro action name
    unfold findHeader
    cases (HttpMessage.headers message).lookup (toLowercase name) <;> simp [Except.map]
  have hfield : ∀ action field, (∃ p, ((findBodyField direction message field).map fun bodyField =>
      [(⟨direction, action, field.selectionRange bodyField⟩ : Disclosure)]) = .ok p) ↔
      ((HttpMessage.body message).lookup field.keypath).isSome = true := by
    intro action field
    unfold findBodyField
    cases (HttpMessage.body message).lookup field.keypath <;> simp [Except.map]
  have hkey : ∀ rule, (∃ p, ((findKeyValue direction message rule).map fun entry =>
      [(⟨direction, .reveal, entry.1.withQuotesAndColon⟩ : Disclosure),
        ⟨direction, .commit, rule.valueRange entry.2⟩]) = .ok p) ↔
      ∃ key value, (HttpMessage.body message).lookup rule.keypath = some (.keyValue key value) := by
    intro rule
    unfold findKeyValue
    cases (HttpMessage.body message).lookup rule.keypath with
    | none => simp [Except.map]
    | some field => cases field <;> simp [Except.map]
  rw [settle_eq_ok]
  simp only [outcomes, List.forall_mem_append, List.forall_mem_map, hheader, hfield, hkey]
  constructor
  · rintro ⟨h1, h2, h3, h4, h5⟩
    exact ⟨List.forall_mem_append.2 ⟨h1, h2⟩, List.forall_mem_append.2 ⟨h3, h4⟩, h5⟩
  · rintro ⟨h1, h2, h3⟩
    obtain ⟨h11, h12⟩ := List.forall_mem_append.1 h1
    obtain ⟨h21, h22⟩ := List.forall_mem_append.1 h2
    exact ⟨h11, h12, h21, h22, h3⟩

/-- **A run that succeeds** had rules that all match. -/
theorem rulesMatch_of_run {calls calls' : List Disclosure}
    (h : (applyMessageRevealConfig tlsn direction source message start config).runFrom calls =
      (.ok (), calls')) :
    RulesMatch (HttpMessage.headers message) (HttpMessage.body message) config := by
  obtain ⟨rules, heq, hrules⟩ := exists_rules tlsn direction source message start config
  have hyields : Yields tlsn source.length
      (applyDisclosure tlsn direction source .reveal start >>= fun _ => rules) _ _ :=
    yields_applyDisclosure.bind hrules
  rw [← heq] at hyields
  rcases hyields calls with hrun | hrefused
  · rw [hrun] at h
    exact settle_outcomes_eq_ok.1 (Prod.mk.inj h).1
  · obtain ⟨q, c, -, -, hrun⟩ := hrefused
    rw [hrun] at h
    exact nomatch (Prod.mk.inj h).1

end Message

end TlsnDemo
