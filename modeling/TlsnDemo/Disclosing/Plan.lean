import TlsnDemo.Reveal

/-!
# The plan of a disclosure

A configuration and a parsed message determine a list of calls, rule by
rule in order (`plan`). A run makes the calls of its plan from the front:
all of them if it succeeds, and those before the failure if it does not
(`follows_applyMessageRevealConfig`).
-/

namespace TlsnDemo

variable {α β : Type}

namespace Disclose

/-- A run, after the calls made so far: what it returns, and all calls
made by then. -/
def runFrom (m : Disclose α) (calls : List Disclosure) : Except Error α × List Disclosure :=
  (m.run).run calls

/-- The calls of a run from the start. -/
def calls (m : Disclose α) : List Disclosure := (m.runFrom []).2

/-- Whether a run from the start succeeds. -/
def Succeeds (m : Disclose α) : Prop := ∃ x, (m.runFrom []).1 = .ok x

theorem runFrom_pure {x : α} {calls : List Disclosure} :
    (pure x : Disclose α).runFrom calls = (.ok x, calls) := rfl

theorem runFrom_bind {m : Disclose α} {f : α → Disclose β} {calls : List Disclosure} :
    (m >>= f).runFrom calls =
      match m.runFrom calls with
      | (.ok x, calls') => (f x).runFrom calls'
      | (.error e, calls') => (.error e, calls') := by
  change (ExceptT.bind m f).run.run calls = _
  unfold runFrom ExceptT.bind
  simp only [ExceptT.run, ExceptT.mk, StateT.run, bind, StateT.bind]
  rcases m calls with ⟨x | x, calls'⟩ <;> rfl

theorem runFrom_lift {x : Except Error α} {calls : List Disclosure} :
    ((liftM x : Disclose α)).runFrom calls = (x, calls) := by
  cases x <;> rfl

/-- **A run follows a list of calls**: it makes them from the front, and
all of them if it succeeds. -/
def Follows (m : Disclose Unit) (p : List Disclosure) : Prop :=
  ∀ calls, ∃ q, q <+: p ∧ (m.runFrom calls).2 = calls ++ q ∧
    ∀ x, (m.runFrom calls).1 = .ok x → q = p

namespace Follows

variable {m m' : Disclose Unit} {p p' : List Disclosure}

theorem nil : Follows (pure ()) [] := fun calls =>
  ⟨[], List.prefix_rfl, (List.append_nil calls).symm, fun _ _ => rfl⟩

theorem bind {f : Unit → Disclose Unit} (hm : Follows m p) (hf : ∀ x, Follows (f x) p') :
    Follows (m >>= f) (p ++ p') := by
  intro calls
  obtain ⟨q, hq, hlog, hok⟩ := hm calls
  rw [runFrom_bind]
  rcases hr : m.runFrom calls with ⟨_ | x, calls'⟩
  · rw [hr] at hlog
    refine ⟨q, hq.trans (List.prefix_append _ _), hlog, fun x h => ?_⟩
    exact absurd h (by simp)
  · rw [hr] at hlog hok
    obtain rfl := hok x rfl
    obtain ⟨q', hq', hlog', hok'⟩ := hf x calls'
    refine ⟨q ++ q', (List.prefix_append_right_inj _).2 hq', ?_, fun x h => ?_⟩
    · rw [hlog']
      simp only at hlog
      rw [hlog, List.append_assoc]
    · rw [hok' x h]

/-- What a step that may fail without a call leaves to do. -/
def planOf (x : Except Error α) (p : α → List Disclosure) : List Disclosure :=
  match x with
  | .ok y => p y
  | .error _ => []

theorem lift {x : Except Error α} {f : α → Disclose Unit} {p : α → List Disclosure}
    (hf : ∀ y, x = .ok y → Follows (f y) (p y)) :
    Follows ((liftM x : Disclose α) >>= f) (planOf x p) := by
  intro calls
  rw [runFrom_bind, runFrom_lift]
  cases x with
  | error e => exact ⟨[], List.prefix_rfl, by simp, fun x h => absurd h (by simp)⟩
  | ok y => exact hf y rfl calls

/-- Such a step, where its value does not change what is left to do. -/
theorem after {x : Except Error α} {f : α → Disclose Unit}
    (hf : ∀ y, x = .ok y → Follows (f y) p) : Follows ((liftM x : Disclose α) >>= f) p := by
  intro calls
  rw [runFrom_bind, runFrom_lift]
  cases x with
  | error e => exact ⟨[], List.nil_prefix, by simp, fun x h => absurd h (by simp)⟩
  | ok y => exact hf y rfl calls

theorem forM {xs : List α} {f : α → Disclose Unit} {p : α → List Disclosure}
    (hf : ∀ x ∈ xs, Follows (f x) (p x)) : Follows (xs.forM f) (xs.flatMap p) := by
  induction xs with
  | nil => exact nil
  | cons x xs ih =>
    rw [List.flatMap_cons]
    exact bind (hf x List.mem_cons_self) fun _ => ih fun y hy => hf y (List.mem_cons_of_mem x hy)

/-- From the start, every call is one of the plan. -/
theorem mem {c : Disclosure} (hm : Follows m p) (hc : c ∈ m.calls) : c ∈ p := by
  obtain ⟨q, hq, hlog, -⟩ := hm []
  rw [calls, hlog, List.nil_append] at hc
  exact hq.mem hc

/-- A run that succeeds makes its whole plan. -/
theorem calls_eq (hm : Follows m p) (h : m.Succeeds) : m.calls = p := by
  obtain ⟨q, -, hlog, hok⟩ := hm []
  obtain ⟨x, hx⟩ := h
  rw [calls, hlog, List.nil_append, hok x hx]

end Follows

end Disclose

section

variable {tlsn : Tlsn} {direction : TranscriptDirection} {source : List UInt8}

open Disclose Follows

theorem runFrom_applyDisclosure {action : DisclosureAction} {range : Range}
    {calls : List Disclosure} :
    (applyDisclosure tlsn direction source action range).runFrom calls =
      if tlsn source.length calls ⟨direction, action, range⟩ then
        (.ok (), calls ++ [⟨direction, action, range⟩])
      else (.error .tlsn, calls) := by
  have hget : (get : Disclose (List Disclosure)).runFrom calls = (.ok calls, calls) := rfl
  rw [applyDisclosure, runFrom_bind, hget]
  dsimp only
  split <;> rfl

theorem follows_applyDisclosure {action : DisclosureAction} {range : Range} :
    Follows (applyDisclosure tlsn direction source action range) [⟨direction, action, range⟩] := by
  intro calls
  rw [runFrom_applyDisclosure]
  split
  · exact ⟨_, List.prefix_rfl, rfl, fun _ _ => rfl⟩
  · exact ⟨[], List.nil_prefix, by simp, fun x h => absurd h (by simp)⟩

theorem follows_applyRules {R T : Type} (rules : List R) (find : R → Except Error T)
    (disclose : R → T → Disclose Unit) (p : R → T → List Disclosure)
    (h : ∀ rule ∈ rules, ∀ x, find rule = .ok x → Follows (disclose rule x) (p rule x)) :
    Follows (applyRules rules find disclose)
      (rules.flatMap fun rule => planOf (find rule) (p rule)) :=
  Follows.forM fun rule hrule => Follows.lift (h rule hrule)

end

/-! ## The plan of a message -/

section Plan

variable [ToLowercase] (direction : TranscriptDirection) (headers : StringMap (List StandardHeader))
  (body : StringMap StandardBody)

/-- The calls for the header rules of one action. -/
def headerPlan (action : DisclosureAction) (names : List String) : List Disclosure :=
  names.flatMap fun name => ((headers.lookup (toLowercase name)).getD []).map fun header =>
    ⟨direction, action, header.name.headerFullRange header.value⟩

omit [ToLowercase] in
/-- The calls for the body rules of one action. -/
def fieldPlan (action : DisclosureAction) (fields : List BodyFieldConfig) : List Disclosure :=
  fields.flatMap fun field => (body.lookup field.keypath).toList.map fun bodyField =>
    ⟨direction, action, field.selectionRange bodyField⟩

/-- The calls for what a path of a key rule leads to. -/
def keyValueCalls (rule : KeyValueCommitConfig) : StandardBody → List Disclosure
  | .keyValue key value =>
    [⟨direction, .reveal, key.withQuotesAndColon⟩, ⟨direction, .commit, rule.valueRange value⟩]
  | .value _ => []

omit [ToLowercase] in
/-- The calls for the key rules. -/
def keyPlan (rules : List KeyValueCommitConfig) : List Disclosure :=
  rules.flatMap fun rule => (body.lookup rule.keypath).toList.flatMap (keyValueCalls direction rule)

/-- **The plan**: the start line, the headers, the fields and the keys. -/
def plan (startLineRange : Range) (config : RevealConfig) : List Disclosure :=
  ⟨direction, .reveal, startLineRange⟩ ::
    (headerPlan direction headers .reveal config.revealHeaders ++
    (headerPlan direction headers .commit config.commitHeaders ++
    (fieldPlan direction body .reveal config.revealBodyFields ++
    (fieldPlan direction body .commit config.commitBodyFields ++
    keyPlan direction body config.revealKeysCommitValues))))

end Plan

section Reveals

variable [ToLowercase] {direction : TranscriptDirection}
  {headers : StringMap (List StandardHeader)} {body : StringMap StandardBody}
  {startLineRange range : Range} {config : RevealConfig}

/-- **The ranges a configuration reveals** of a message, by rule. -/
inductive Reveals (headers : StringMap (List StandardHeader)) (body : StringMap StandardBody)
    (startLineRange : Range) (config : RevealConfig) : Range → Prop
  | startLine : Reveals headers body startLineRange config startLineRange
  | header {name : String} {group : List StandardHeader} {header : StandardHeader} :
      name ∈ config.revealHeaders → headers.lookup (toLowercase name) = some group →
      header ∈ group →
      Reveals headers body startLineRange config (header.name.headerFullRange header.value)
  | field {field : BodyFieldConfig} {bodyField : StandardBody} :
      field ∈ config.revealBodyFields → body.lookup field.keypath = some bodyField →
      Reveals headers body startLineRange config (field.selectionRange bodyField)
  | key {rule : KeyValueCommitConfig} {key value : Range} :
      rule ∈ config.revealKeysCommitValues →
      body.lookup rule.keypath = some (.keyValue key value) →
      Reveals headers body startLineRange config key.withQuotesAndColon

/-! The calls of a plan, by kind of rule. -/

theorem mem_headerPlan {action : DisclosureAction} {names : List String} {call : Disclosure} :
    call ∈ headerPlan direction headers action names ↔
      call.direction = direction ∧ call.action = action ∧
        ∃ name ∈ names, ∃ group, headers.lookup (toLowercase name) = some group ∧
          ∃ header ∈ group, header.name.headerFullRange header.value = call.range := by
  unfold headerPlan
  simp only [List.mem_flatMap, List.mem_map]
  constructor
  · rintro ⟨name, hname, header, hh, rfl⟩
    cases hl : headers.lookup (toLowercase name) with
    | none => simp [hl] at hh
    | some group => exact ⟨rfl, rfl, name, hname, group, hl, header, by simpa [hl] using hh, rfl⟩
  · obtain ⟨d, act, r⟩ := call
    rintro ⟨rfl, rfl, name, hname, group, hl, header, hh, rfl⟩
    exact ⟨name, hname, header, by simpa [hl] using hh, rfl⟩

omit [ToLowercase] in
theorem mem_fieldPlan {action : DisclosureAction} {fields : List BodyFieldConfig}
    {call : Disclosure} :
    call ∈ fieldPlan direction body action fields ↔
      call.direction = direction ∧ call.action = action ∧
        ∃ field ∈ fields, ∃ bodyField, body.lookup field.keypath = some bodyField ∧
          field.selectionRange bodyField = call.range := by
  unfold fieldPlan
  simp only [List.mem_flatMap, List.mem_map, Option.mem_toList]
  constructor
  · rintro ⟨field, hfield, bodyField, hl, rfl⟩
    exact ⟨rfl, rfl, field, hfield, bodyField, hl, rfl⟩
  · obtain ⟨d, act, r⟩ := call
    rintro ⟨rfl, rfl, field, hfield, bodyField, hl, rfl⟩
    exact ⟨field, hfield, bodyField, hl, rfl⟩

omit [ToLowercase] in
theorem mem_keyPlan {rules : List KeyValueCommitConfig} {call : Disclosure} :
    call ∈ keyPlan direction body rules ↔
      call.direction = direction ∧
        ∃ rule ∈ rules, ∃ key value, body.lookup rule.keypath = some (.keyValue key value) ∧
          (call.action = .reveal ∧ key.withQuotesAndColon = call.range ∨
            call.action = .commit ∧ rule.valueRange value = call.range) := by
  unfold keyPlan
  simp only [List.mem_flatMap, Option.mem_toList]
  constructor
  · rintro ⟨rule, hrule, bodyField, hl, hmem⟩
    cases bodyField with
    | keyValue key value =>
      simp only [keyValueCalls, List.mem_cons, List.not_mem_nil, or_false] at hmem
      rcases hmem with rfl | rfl
      · exact ⟨rfl, rule, hrule, key, value, hl, Or.inl ⟨rfl, rfl⟩⟩
      · exact ⟨rfl, rule, hrule, key, value, hl, Or.inr ⟨rfl, rfl⟩⟩
    | value _ => simp [keyValueCalls] at hmem
  · obtain ⟨d, act, r⟩ := call
    rintro ⟨rfl, rule, hrule, key, value, hl, ⟨rfl, rfl⟩ | ⟨rfl, rfl⟩⟩
    · exact ⟨rule, hrule, _, hl, List.mem_cons_self⟩
    · exact ⟨rule, hrule, _, hl, List.mem_cons_of_mem _ List.mem_cons_self⟩

/-- Every call of a plan is in its direction. -/
theorem plan_direction {c : Disclosure}
    (hc : c ∈ plan direction headers body startLineRange config) : c.direction = direction := by
  unfold plan at hc
  rcases List.mem_cons.1 hc with rfl | hc
  · rfl
  · simp only [List.mem_append] at hc
    rcases hc with h | h | h | h | h
    · exact (mem_headerPlan.1 h).1
    · exact (mem_headerPlan.1 h).1
    · exact (mem_fieldPlan.1 h).1
    · exact (mem_fieldPlan.1 h).1
    · exact (mem_keyPlan.1 h).1

/-- The reveal calls of the plan are of these ranges. -/
theorem mem_plan :
    ⟨direction, .reveal, range⟩ ∈ plan direction headers body startLineRange config ↔
      Reveals headers body startLineRange config range := by
  simp only [plan, List.mem_cons, List.mem_append, mem_headerPlan, mem_fieldPlan, mem_keyPlan,
    Disclosure.mk.injEq, true_and, reduceCtorEq, false_and, false_or, or_false]
  constructor
  · rintro (rfl | ⟨name, hname, group, hl, header, hh, rfl⟩ |
      ⟨field, hfield, bodyField, hl, rfl⟩ | ⟨rule, hrule, key, value, hl, rfl⟩)
    · exact Reveals.startLine
    · exact Reveals.header hname hl hh
    · exact Reveals.field hfield hl
    · exact Reveals.key hrule hl
  · rintro (_ | ⟨hname, hl, hh⟩ | ⟨hfield, hl⟩ | ⟨hrule, hl⟩)
    · exact Or.inl rfl
    · exact Or.inr (Or.inl ⟨_, hname, _, hl, _, hh, rfl⟩)
    · exact Or.inr (Or.inr (Or.inl ⟨_, hfield, _, hl, rfl⟩))
    · exact Or.inr (Or.inr (Or.inr ⟨_, hrule, _, _, hl, rfl⟩))

end Reveals

section

open Disclose Follows

variable [ToLowercase] {tlsn : Tlsn} {direction : TranscriptDirection} {source : List UInt8}
  {M : Type} [HttpMessage M StandardHeader StandardBody] {message : M}

theorem follows_headers {action : DisclosureAction} {names : List String} :
    Follows (applyRules names (findHeader direction message)
        fun _ headers => discloseHeaders tlsn direction source action headers)
      (headerPlan direction (HttpMessage.headers message) action names) := by
  have h := follows_applyRules names (findHeader direction message)
    (fun _ headers => discloseHeaders tlsn direction source action headers)
    (fun _ headers => headers.flatMap fun header =>
      [⟨direction, action, header.name.headerFullRange header.value⟩])
    fun _ _ headers _ => Follows.forM fun header _ => follows_applyDisclosure
  convert h using 1
  refine List.flatMap_congr fun name _ => ?_
  unfold findHeader planOf
  cases (HttpMessage.headers message).lookup (toLowercase name) with
  | none => rfl
  | some hs => exact List.map_eq_flatMap

omit [ToLowercase] in
theorem follows_fields {action : DisclosureAction} {fields : List BodyFieldConfig} :
    Follows (applyRules fields (findBodyField direction message)
        fun field bodyField =>
          applyDisclosure tlsn direction source action (field.selectionRange bodyField))
      (fieldPlan direction (HttpMessage.body message) action fields) := by
  have h := follows_applyRules fields (findBodyField direction message)
    (fun field bodyField =>
      applyDisclosure tlsn direction source action (field.selectionRange bodyField))
    (fun field bodyField => [⟨direction, action, field.selectionRange bodyField⟩])
    fun _ _ _ _ => follows_applyDisclosure
  convert h using 1
  refine List.flatMap_congr fun field _ => ?_
  unfold findBodyField planOf
  cases (HttpMessage.body message).lookup field.keypath <;> rfl

omit [ToLowercase] in
theorem follows_keys {rules : List KeyValueCommitConfig} :
    Follows (applyRules rules (findKeyValue direction message)
        fun rule (key, value) => do
          applyDisclosure tlsn direction source .reveal key.withQuotesAndColon
          applyDisclosure tlsn direction source .commit (rule.valueRange value))
      (keyPlan direction (HttpMessage.body message) rules) := by
  have h := follows_applyRules rules (findKeyValue direction message)
    (fun rule x => do
      applyDisclosure tlsn direction source .reveal x.1.withQuotesAndColon
      applyDisclosure tlsn direction source .commit (rule.valueRange x.2))
    (fun rule x => [⟨direction, .reveal, x.1.withQuotesAndColon⟩] ++
      [⟨direction, .commit, rule.valueRange x.2⟩])
    fun _ _ _ _ => follows_applyDisclosure.bind fun _ => follows_applyDisclosure
  convert h using 1
  refine List.flatMap_congr fun rule _ => ?_
  unfold findKeyValue planOf
  cases (HttpMessage.body message).lookup rule.keypath with
  | none => rfl
  | some field => cases field <;> rfl

/-- **A run makes the calls of its plan**, from the front. -/
theorem follows_applyMessageRevealConfig {startLineRange : Range} {config : RevealConfig} :
    Follows (applyMessageRevealConfig tlsn direction source message startLineRange config)
      (plan direction (HttpMessage.headers message) (HttpMessage.body message) startLineRange
        config) := by
  unfold applyMessageRevealConfig
  simp only [List.forIn_cons, List.forIn_nil, bind_assoc, pure_bind]
  exact follows_applyDisclosure.bind fun _ => follows_headers.bind fun _ =>
    follows_headers.bind fun _ => follows_fields.bind fun _ => follows_fields.bind fun _ =>
    follows_keys

end

/-! ## Revealing a message -/

theorem fromUtf8_eq_ok {b c : List UInt8} :
    fromUtf8 b = .ok c ↔ ByteArray.validateUTF8 ⟨b.toArray⟩ = true ∧ c = b := by
  unfold fromUtf8
  split
  · next h => simp [h, eq_comm]
  · next h => simp [h]

theorem mapError_eq_ok {ε δ : Type} {x : Except ε α} {f : ε → δ} {y : α} :
    x.mapError f = .ok y ↔ x = .ok y := by
  cases x <;> simp [Except.mapError]

/-- The start line of a response, and the byte after it. -/
def statusLineRange (parsed : StandardResponse) : Range :=
  ⟨parsed.protocolVersion.start, parsed.status.withNewline.stop⟩

/-- The start line of a request, and the byte after it. -/
def requestLineRange (parsed : StandardRequest) : Range :=
  ⟨parsed.method.start, parsed.protocolVersion.withNewline.stop⟩

/-- A configuration without a rule. -/
def RevealConfig.IsEmpty (config : RevealConfig) : Prop :=
  config.revealHeaders = [] ∧ config.commitHeaders = [] ∧ config.revealBodyFields = [] ∧
    config.commitBodyFields = [] ∧ config.revealKeysCommitValues = []

section

open Disclose Follows

variable [ToLowercase] {tlsn : Tlsn} {config : RevealConfig}

/-- **Revealing a response** follows the plan of what it parses to. -/
theorem follows_revealResponse {response : List UInt8} {parsed : StandardResponse}
    (h : parseStandardResponse response = .ok parsed) :
    Follows (revealResponse tlsn response config)
      (plan .received parsed.headers parsed.body (statusLineRange parsed) config) := by
  refine Follows.after fun raw hraw => Follows.after fun parsed' hparsed => ?_
  obtain ⟨-, rfl⟩ := fromUtf8_eq_ok.1 hraw
  rw [mapError_eq_ok, h, Except.ok.injEq] at hparsed
  subst hparsed
  exact follows_applyMessageRevealConfig

/-- **Revealing a request** does so too, where there is a rule. -/
theorem follows_revealRequest {request : List UInt8} {parsed : StandardRequest}
    (h : parseStandardRequest request = .ok parsed) (hc : ¬ config.IsEmpty) :
    Follows (revealRequest tlsn request config)
      (plan .sent parsed.headers parsed.body (requestLineRange parsed) config) := by
  rw [revealRequest, if_neg]
  · refine Follows.after fun raw hraw => Follows.after fun parsed' hparsed => ?_
    obtain ⟨-, rfl⟩ := fromUtf8_eq_ok.1 hraw
    rw [mapError_eq_ok, h, Except.ok.injEq] at hparsed
    subst hparsed
    exact follows_applyMessageRevealConfig
  · simpa [RevealConfig.IsEmpty, and_assoc] using hc

end

end TlsnDemo
