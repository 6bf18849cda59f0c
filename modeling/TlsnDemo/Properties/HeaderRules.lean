import TlsnDemo.Disclosing.Outcome
import TlsnDemo.Reading.Headers
import TlsnDemo.Properties.BodyPaths

/-!
# Header rules and header lines

The lines of a header section are grouped by lower-cased name, and a rule
discloses one range for each line of its group. Grouping loses nothing:
rule by rule, the calls are those of the lines of that name, in the order
of the message. A name without a line ends the run with its error.
-/

namespace TlsnDemo

open Peg Support Syntax Disclose

variable {s : List UInt8} {i j l h : ℕ} {hs : List Token} {t : Token}

/-! ## Lines and groups -/

section Lines

variable [ToLowercase]

/-- The name of a header line, lower-cased. -/
def lineName (s : List UInt8) (t : Token) : String :=
  match t.intoInner with
  | namePair :: _ => toLowercase (asStr s namePair)
  | [] => ""

omit [ToLowercase] in
/-- A header line from its name through the first byte after its value. -/
def lineRange (t : Token) : Range :=
  match t.intoInner with
  | namePair :: valuePair :: _ => ⟨namePair.start, valuePair.stop + 1⟩
  | _ => extractRange t

/-- Some line has the name of a rule. -/
def Matched (s : List UInt8) (hs : List Token) (name : String) : Prop :=
  ∃ t ∈ hs, lineName s t = toLowercase name

/-- One call for each line of each name. -/
def lineCalls (direction : TranscriptDirection) (s : List UInt8) (hs : List Token)
    (action : DisclosureAction) (names : List String) : List Disclosure :=
  names.flatMap fun name => (hs.filter fun t => lineName s t = toLowercase name).map fun t =>
    ⟨direction, action, lineRange t⟩

variable {ps : List (String × StandardHeader)} {p : String × StandardHeader} {k : String}

theorem parseHeader_line (ht : HeaderText s i j t) (hp : parseHeader s t = .ok p) :
    p.1 = lineName s t ∧ p.2.name.headerFullRange p.2.value = lineRange t := by
  cases ht with
  | full _ _ =>
    rw [parseHeader_standard, Except.ok.injEq] at hp
    subst hp
    exact ⟨rfl, rfl⟩
  | bare _ _ =>
    rw [parseHeader_standard_bare] at hp
    exact absurd hp (by simp)

/-- **A group is the lines of its name**, in the order of the message. -/
theorem ReadsHeaders.group (hr : ReadsHeaders s hs ps)
    (hall : ∀ t ∈ hs, ∃ i j, HeaderText s i j t) :
    (valuesOf k ps).map (fun header => header.name.headerFullRange header.value) =
      (hs.filter fun t => lineName s t = k).map lineRange := by
  induction hr with
  | nil => rfl
  | @cons t p hs ps hp _ ih =>
    obtain ⟨i, j, ht⟩ := hall t List.mem_cons_self
    obtain ⟨h1, h2⟩ := parseHeader_line ht hp
    have ih := ih fun u hu => hall u (List.mem_cons_of_mem _ hu)
    rw [valuesOf_cons, List.filter_cons, h1]
    by_cases hk : lineName s t = k
    · simp only [hk, if_true, decide_true, List.map_cons, h2, ih]
    · simp only [hk, if_false, decide_false, Bool.false_eq_true, ih]

theorem ReadsHeaders.valuesOf_ne_nil (hr : ReadsHeaders s hs ps)
    (hall : ∀ t ∈ hs, ∃ i j, HeaderText s i j t) :
    valuesOf k ps ≠ [] ↔ ∃ t ∈ hs, lineName s t = k := by
  rw [ne_eq, ← List.map_eq_nil_iff, hr.group hall, List.map_eq_nil_iff, List.filter_eq_nil_iff]
  simp

end Lines

/-! ## Rules -/

section Rules

variable [ToLowercase] {tlsn : Tlsn} {direction : TranscriptDirection}
  {M : Type} [HttpMessage M StandardHeader StandardBody] {message : M}
  {ps : List (String × StandardHeader)} {action : DisclosureAction}

/-- The header map of a message is that of a list of lines. -/
structure Groups (s : List UInt8) (hs : List Token) (headers : StringMap (List StandardHeader)) :
    Prop where
  group : ∀ k group, headers.lookup k = some group →
    group.map (fun header => header.name.headerFullRange header.value) =
      (hs.filter fun t => lineName s t = k).map lineRange
  isSome : ∀ k, (headers.lookup k).isSome = true ↔ ∃ t ∈ hs, lineName s t = k

theorem HeaderChain.groups (hc : HeaderChain s l h hs) (hr : ReadsHeaders s hs ps) :
    Groups s hs (pushAll ∅ ps) := by
  have hall : ∀ t ∈ hs, ∃ i j, HeaderText s i j t := fun t ht =>
    ⟨_, _, (HeaderChain.mem hc ht).1⟩
  constructor
  · intro k group hg
    rw [lookup_pushAll] at hg
    split at hg
    · simp at hg
    · rw [← hr.group hall]
      simp only [AList.lookup_empty, Option.getD_none, List.nil_append, Option.some.injEq] at hg
      rw [hg]
  · intro k
    rw [lookup_pushAll]
    split
    · next hv =>
      rw [← hr.valuesOf_ne_nil hall]
      simp [hv]
    · next hv =>
      rw [← hr.valuesOf_ne_nil hall]
      simp [hv]

variable (hg : Groups s hs (HttpMessage.headers message))
include hg

/-- Names that all have a line disclose the lines of each. -/
theorem yields_header {name : String} (hm : Matched s hs name) :
    ∃ x, findHeader direction message name = .ok x ∧
      Yields tlsn s.length (discloseHeaders tlsn direction s action x)
        ((hs.filter fun t => lineName s t = toLowercase name).map fun t =>
          ⟨direction, action, lineRange t⟩) (.ok ()) := by
  obtain ⟨group, hlookup⟩ := Option.isSome_iff_exists.1 ((hg.isSome (toLowercase name)).2 hm)
  refine ⟨group, by rw [findHeader, hlookup], ?_⟩
  have hranges := congrArg (List.map fun range => (⟨direction, action, range⟩ : Disclosure))
    (hg.group _ _ hlookup)
  rw [List.map_map, List.map_map] at hranges
  exact hranges ▸ yields_discloseHeaders

theorem yields_headers {names : List String} (hm : ∀ name ∈ names, Matched s hs name) :
    Yields tlsn s.length (applyRules names (findHeader direction message)
        fun _ headers => discloseHeaders tlsn direction s action headers)
      (lineCalls direction s hs action names) (.ok ()) :=
  yields_applyRules fun name hname => yields_header hg (hm name hname)

/-- The first name without a line is the error. -/
theorem yields_headers_error {names others : List String} {name : String}
    (hm : ∀ name ∈ names, Matched s hs name) (hno : ¬ Matched s hs name) :
    Yields tlsn s.length (applyRules (names ++ name :: others) (findHeader direction message)
        fun _ headers => discloseHeaders tlsn direction s action headers)
      (lineCalls direction s hs action names)
      (.error (.revealRuleNotMatched direction.label "header" name)) := by
  refine yields_applyRules_error (fun name hname => yields_header hg (hm name hname)) ?_
  have hnone : (HttpMessage.headers message).lookup (toLowercase name) = none := by
    rw [← Option.not_isSome_iff_eq_none, hg.isSome]
    exact hno
  rw [findHeader, hnone]

end Rules

/-! ## Messages -/

section Messages

variable [ToLowercase] {M : Type} [HttpMessage M StandardHeader StandardBody] {message : M}

omit [ToLowercase] in
/-- **The geometry of header lines**: a line's range goes from its name
through the first byte of the terminator behind its value. -/
structure LineExtent (s : List UInt8) (t namePair valuePair : Token) : Prop where
  inner : t.intoInner = [namePair, valuePair]
  range : lineRange t = ⟨namePair.start, valuePair.stop + 1⟩
  start : namePair.start = t.start
  terminator : NewlineText s valuePair.stop t.stop

/-- Every line the standard parser reads has a value, and so an extent. -/
theorem lineExtent {ps : List (String × StandardHeader)} (hc : HeaderChain s l h hs)
    (hr : ReadsHeaders s hs ps) (ht : t ∈ hs) :
    ∃ namePair valuePair, LineExtent s t namePair valuePair := by
  obtain ⟨p, -, hp⟩ := exists_of_forall₂_left hr ht
  have htext := (HeaderChain.mem hc ht).1
  generalize hi : t.start = i at htext
  generalize hj : t.stop = j at htext
  cases htext with
  | full _ hv => exact ⟨_, _, rfl, rfl, hi.symm, hj ▸ hv.newline⟩
  | bare _ _ =>
    rw [parseHeader_standard_bare] at hp
    exact absurd hp (by simp)

/-- **What the calls of the body rules are.** -/
def bodyPlan (direction : TranscriptDirection) (body : StringMap StandardBody)
    (config : RevealConfig) : List Disclosure :=
  fieldPlan direction body .reveal config.revealBodyFields ++
    (fieldPlan direction body .commit config.commitBodyFields ++
      keyPlan direction body config.revealKeysCommitValues)

/-- **Header rules cover every line once.** The lines of an accepted
message have ranges that start at the name and end at the terminator, and
do not overlap. Where every rule of a header has a line, a run reveals the
start line, and then, rule by rule, each line of the name and no other,
in the order of the message, before any rule of the body. Where some rule
has none, the run makes the calls of the rules before the first such one,
and fails with its error. All that unless the builders refuse a call. -/
theorem header_rules_cover_lines {line : Token} {a b : ℕ} {rest : List Token} {startLine : Range}
    (ha : AcceptedAs s (line :: .node .headers a b hs :: rest) startLine
      (HttpMessage.headers message) (HttpMessage.body message))
    (tlsn : Tlsn) (direction : TranscriptDirection) (start : Range) (config : RevealConfig) :
    (∀ t ∈ hs, ∃ namePair valuePair, LineExtent s t namePair valuePair) ∧
    hs.Pairwise (fun t u => (lineRange t).stop ≤ (lineRange u).start) ∧
    ((∀ name ∈ config.revealHeaders ++ config.commitHeaders, Matched s hs name) →
      Begins tlsn s.length (applyMessageRevealConfig tlsn direction s message start config)
        (⟨direction, .reveal, start⟩ ::
          (lineCalls direction s hs .reveal config.revealHeaders ++
            lineCalls direction s hs .commit config.commitHeaders))
        (bodyPlan direction (HttpMessage.body message) config)) ∧
    (∀ names name others, config.revealHeaders = names ++ name :: others →
      (∀ name ∈ names, Matched s hs name) → ¬ Matched s hs name →
      Yields tlsn s.length (applyMessageRevealConfig tlsn direction s message start config)
        (⟨direction, .reveal, start⟩ :: lineCalls direction s hs .reveal names)
        (.error (.revealRuleNotMatched direction.label "header" name))) ∧
    ∀ names name others, config.commitHeaders = names ++ name :: others →
      (∀ name ∈ config.revealHeaders ++ names, Matched s hs name) → ¬ Matched s hs name →
      Yields tlsn s.length (applyMessageRevealConfig tlsn direction s message start config)
        (⟨direction, .reveal, start⟩ :: (lineCalls direction s hs .reveal config.revealHeaders ++
          lineCalls direction s hs .commit names))
        (.error (.revealRuleNotMatched direction.label "header" name)) := by
  obtain ⟨line', a', b', l, hs', h, bs, e, ps, hts, -, hr⟩ := ha.reads
  simp only [List.cons.injEq, Pair.node.injEq] at hts
  obtain ⟨-, ⟨-, -, -, rfl⟩, -⟩ := hts
  have hc : HeaderChain s l h hs := hr.lines
  have hg : Groups s hs (HttpMessage.headers message) :=
    hr.headers_eq ▸ HeaderChain.groups hc hr.readsHeaders
  have hext : ∀ t ∈ hs, ∃ namePair valuePair, LineExtent s t namePair valuePair :=
    fun t ht => lineExtent hc hr.readsHeaders ht
  refine ⟨hext, ?_, fun hall => ?_, fun names name others heq hm hno => ?_,
    fun names name others heq hm hno => ?_⟩
  · refine (HeaderChain.pairwise hc).imp_of_mem fun {t u} ht hu hlt => ?_
    obtain ⟨namePair, valuePair, hex⟩ := hext t ht
    obtain ⟨namePair', valuePair', hex'⟩ := hext u hu
    have hend := hex.terminator.bounds.1
    rw [hex.range, hex'.range, hex'.start]
    change valuePair.stop + 1 ≤ u.start
    omega
  all_goals
    unfold applyMessageRevealConfig
    simp only [List.forIn_cons, List.forIn_nil, bind_assoc, pure_bind]
  · have hreveal : ∀ name ∈ config.revealHeaders, Matched s hs name := fun name h =>
      hall name (List.mem_append_left _ h)
    have hcommit : ∀ name ∈ config.commitHeaders, Matched s hs name := fun name h =>
      hall name (List.mem_append_right _ h)
    exact Begins.bind yields_applyDisclosure <| Begins.bind (yields_headers hg hreveal) <|
      Begins.of_yields (yields_headers hg hcommit) <|
      follows_fields.bind fun _ => follows_fields.bind fun _ => follows_keys
  · rw [heq]
    exact Yields.bind yields_applyDisclosure (yields_headers_error hg hm hno).bind_error
  · have hreveal : ∀ name ∈ config.revealHeaders, Matched s hs name := fun name h =>
      hm name (List.mem_append_left _ h)
    have hnames : ∀ name ∈ names, Matched s hs name := fun name h =>
      hm name (List.mem_append_right _ h)
    rw [heq]
    exact Yields.bind yields_applyDisclosure <| Yields.bind (yields_headers hg hreveal)
      (yields_headers_error hg hnames hno).bind_error

end Messages

/-- How many lines the standard parser has under a name, if it accepts. -/
def linesUnder [ToLowercase] (s : List UInt8) (name : String) : Option ℕ :=
  match parseStandardResponse s with
  | .ok parsed => (parsed.headers.lookup name).map List.length
  | .error _ => none

theorem linesUnder_repeatedKey : @linesUnder asciiLowercase repeatedKey "a" = some 2 := by
  decide +kernel

/-- The name that both lines of the response have is revealed and committed. -/
def bothLines : RevealConfig := { revealHeaders := ["A"], commitHeaders := ["a"] }

/-- On that response the two rules begin with the two lines each. -/
theorem header_rules_cover_lines_repeatedKey :
    ∃ (parsed : StandardResponse) (line : Token) (a b : ℕ) (hs rest : List Token),
      @parseStandardResponse asciiLowercase repeatedKey = .ok parsed ∧
      Grammar.parse Grammar.response repeatedKey = some (line :: .node .headers a b hs :: rest) ∧
      Begins (fun _ _ _ => true) repeatedKey.length
        (@applyMessageRevealConfig (fun _ _ _ => true) .received repeatedKey asciiLowercase _ _ parsed ⟨0, 16⟩
          bothLines)
        (⟨.received, .reveal, ⟨0, 16⟩⟩ ::
          (@lineCalls asciiLowercase .received repeatedKey hs .reveal ["A"] ++
            @lineCalls asciiLowercase .received repeatedKey hs .commit ["a"]))
        (bodyPlan .received parsed.body bothLines) := by
  let _ := asciiLowercase
  have hlines := linesUnder_repeatedKey
  unfold linesUnder at hlines
  split at hlines
  · next parsed hp =>
    obtain ⟨d, l, hs, i, bs, e, ps, hr⟩ := parseResponseInner_eq_ok.1 hp
    have hts := parse_response_eq_some.2 ⟨d, l, hs, i, bs, e, hr.text, rfl⟩
    have hg : Groups repeatedKey hs parsed.headers :=
      hr.headers ▸ HeaderChain.groups hr.text.message.headers hr.readsHeaders
    have ha : ∃ t ∈ hs, lineName repeatedKey t = "a" := by
      obtain ⟨group, hlookup, -⟩ := Option.map_eq_some_iff.1 hlines
      exact (hg.isSome "a").1 (by rw [hlookup]; rfl)
    refine ⟨parsed, _, _, _, hs, _, hp, hts, (header_rules_cover_lines (AcceptedAs.response hts hp)
      _ .received ⟨0, 16⟩ bothLines).2.2.1 fun name hname => ?_⟩
    have hlower : toLowercase name = "a" := by
      simp only [bothLines, List.cons_append, List.nil_append, List.mem_cons, List.not_mem_nil,
        or_false] at hname
      change String.map Char.toLower name = "a"
      rw [← String.toList_inj, String.toList_map]
      rcases hname with rfl | rfl <;> rfl
    rw [Matched, hlower]
    exact ha
  · exact absurd hlines (by simp)

end TlsnDemo
