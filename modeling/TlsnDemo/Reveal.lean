import TlsnDemo.Parser.Traversal

/-!
# Disclosure

How the prover turns a reveal configuration into calls on the two tlsn
builders: the range of each rule, the order of the calls, and the errors
of a rule that matches nothing.

The builders are outside this repository. What they are given is recorded
as a list of calls, and whether they accept a call is the parameter
`Tlsn`, a function of the transcript's length, the calls made so far and
the call at hand. A run keeps the calls it made when it fails.
-/

namespace TlsnDemo

/-! ## Ranges

`JsonFieldRangeExt`, on `Range<usize>`. -/

namespace Range

def adjust (self : Range) (startOff endOff : ℤ) : Range :=
  ⟨(max ((self.start : ℤ) + startOff) 0).toNat, ((self.stop : ℤ) + endOff).toNat⟩

def extendTo (self : Range) (stop : ℕ) : Range := ⟨self.start - 1, stop⟩

def spanTo (self : Range) (stop : ℕ) : Range := ⟨self.start, stop⟩

def withQuotesAndColon (self : Range) : Range := self.adjust (-1) 2

def fullPairQuoted (self value : Range) : Range := self.extendTo (value.stop + 1)

def fullPairUnquoted (self value : Range) : Range := self.extendTo value.stop

def withNewline (self : Range) : Range := self.adjust 0 1

def headerFullRange (self value : Range) : Range := self.spanTo (value.stop + 1)

/-- The positions of a range. -/
def Contains (self : Range) (k : ℕ) : Prop := self.start ≤ k ∧ k < self.stop

instance (self : Range) (k : ℕ) : Decidable (self.Contains k) :=
  inferInstanceAs (Decidable (_ ∧ _))

end Range

/-! ## Configuration -/

inductive BodyFieldConfig where
  | quoted (keypath : String)
  | unquoted (keypath : String)
  deriving DecidableEq, Repr

namespace BodyFieldConfig

def keypath : BodyFieldConfig → String
  | quoted s => s
  | unquoted s => s

def selectionRange : BodyFieldConfig → StandardBody → Range
  | quoted _, .keyValue key value => key.fullPairQuoted value
  | unquoted _, .keyValue key value => key.fullPairUnquoted value
  | _, .value range => range

end BodyFieldConfig

structure KeyValueCommitConfig where
  keypath : String
  commitmentLength : Option ℕ
  deriving DecidableEq, Repr

/-- The value's range, padded to the commitment length where it is shorter. -/
def KeyValueCommitConfig.valueRange (self : KeyValueCommitConfig) (value : Range) : Range :=
  match self.commitmentLength with
  | some len => if value.stop - value.start < len then ⟨value.start, value.start + len⟩ else value
  | none => value

structure RevealConfig where
  revealHeaders : List String := []
  commitHeaders : List String := []
  revealBodyFields : List BodyFieldConfig := []
  commitBodyFields : List BodyFieldConfig := []
  revealKeysCommitValues : List KeyValueCommitConfig := []
  deriving DecidableEq, Repr

/-! ## Calls on the builders -/

inductive TranscriptDirection where
  | sent
  | received
  deriving DecidableEq, Repr

def TranscriptDirection.label : TranscriptDirection → String
  | sent => "request"
  | received => "response"

inductive DisclosureAction where
  | reveal
  | commit
  deriving DecidableEq, Repr

/-- One call: `reveal_sent`, `reveal_recv`, `commit_sent` or `commit_recv`. -/
structure Disclosure where
  direction : TranscriptDirection
  action : DisclosureAction
  range : Range
  deriving DecidableEq, Repr

inductive Error where
  | utf8
  | parser (error : ParseError)
  | revealRuleNotMatched (direction target rule : String)
  | revealStructureMismatch (rule expected actual : String)
  | tlsn
  deriving DecidableEq, Repr

/-- Whether the builders over a transcript of a given length accept a
call, given the calls before it. -/
abbrev Tlsn := ℕ → List Disclosure → Disclosure → Bool

/-- A run against the builders: it makes calls, and returns or fails. -/
abbrev Disclose := ExceptT Error (StateM (List Disclosure))

/-- Every string of the source is a byte string that is valid UTF-8. -/
def fromUtf8 (b : List UInt8) : Except Error (List UInt8) :=
  if ByteArray.validateUTF8 ⟨b.toArray⟩ then .ok b else .error .utf8

section

variable (tlsn : Tlsn) (direction : TranscriptDirection) (source : List UInt8)

def applyDisclosure (action : DisclosureAction) (range : Range) : Disclose Unit := do
  let call : Disclosure := ⟨direction, action, range⟩
  if tlsn source.length (← get) call then
    modify fun calls => calls ++ [call]
  else
    throw .tlsn

/-- Each rule in order: what it names, then what it discloses. -/
def applyRules {R T : Type} (rules : List R) (find : R → Except Error T)
    (disclose : R → T → Disclose Unit) : Disclose Unit :=
  rules.forM fun rule => do
    let target ← (find rule : Except Error T)
    disclose rule target

section

variable [ToLowercase] {M : Type} [HttpMessage M StandardHeader StandardBody] (message : M)

def findHeader (name : String) : Except Error (List StandardHeader) :=
  match (HttpMessage.headers message).lookup (toLowercase name) with
  | some headers => .ok headers
  | none => .error (.revealRuleNotMatched direction.label "header" name)

def discloseHeaders (action : DisclosureAction) (headers : List StandardHeader) : Disclose Unit :=
  headers.forM fun header =>
    applyDisclosure tlsn direction source action (header.name.headerFullRange header.value)

omit [ToLowercase] in
def findBodyField (field : BodyFieldConfig) : Except Error StandardBody :=
  match (HttpMessage.body message).lookup field.keypath with
  | some bodyField => .ok bodyField
  | none => .error (.revealRuleNotMatched direction.label "body" field.keypath)

omit [ToLowercase] in
def findKeyValue (rule : KeyValueCommitConfig) : Except Error (Range × Range) :=
  match (HttpMessage.body message).lookup rule.keypath with
  | some (.keyValue key value) => .ok (key, value)
  | some (.value _) => .error (.revealStructureMismatch rule.keypath "key-value" "value")
  | none => .error (.revealRuleNotMatched direction.label "body-key-value" rule.keypath)

def applyMessageRevealConfig (startLineRange : Range) (config : RevealConfig) : Disclose Unit := do
  applyDisclosure tlsn direction source .reveal startLineRange
  for (names, action) in [(config.revealHeaders, DisclosureAction.reveal),
      (config.commitHeaders, .commit)] do
    applyRules names (findHeader direction message)
      (fun _ headers => discloseHeaders tlsn direction source action headers)
  for (fields, action) in [(config.revealBodyFields, DisclosureAction.reveal),
      (config.commitBodyFields, .commit)] do
    applyRules fields (findBodyField direction message)
      (fun field bodyField =>
        applyDisclosure tlsn direction source action (field.selectionRange bodyField))
  applyRules config.revealKeysCommitValues (findKeyValue direction message)
    (fun rule (key, value) => do
      applyDisclosure tlsn direction source .reveal key.withQuotesAndColon
      applyDisclosure tlsn direction source .commit (rule.valueRange value))

end

end

section

variable [ToLowercase] (tlsn : Tlsn)

def revealRequest (request : List UInt8) (config : RevealConfig) : Disclose Unit := do
  if config.revealHeaders.isEmpty && config.commitHeaders.isEmpty
      && config.revealBodyFields.isEmpty && config.commitBodyFields.isEmpty
      && config.revealKeysCommitValues.isEmpty then
    applyDisclosure tlsn .sent request .reveal ⟨0, request.length⟩
  else
    let raw ← (fromUtf8 request : Except Error _)
    let parsed ← ((parseStandardRequest raw).mapError Error.parser : Except Error _)
    let startRange : Range := ⟨parsed.method.start, parsed.protocolVersion.withNewline.stop⟩
    applyMessageRevealConfig tlsn .sent request parsed startRange config

def revealResponse (response : List UInt8) (config : RevealConfig) : Disclose Unit := do
  let raw ← (fromUtf8 response : Except Error _)
  let parsed ← ((parseStandardResponse raw).mapError Error.parser : Except Error _)
  let startRange : Range := ⟨parsed.protocolVersion.start, parsed.status.withNewline.stop⟩
  applyMessageRevealConfig tlsn .received response parsed startRange config

end

end TlsnDemo
