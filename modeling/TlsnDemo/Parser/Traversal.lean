import TlsnDemo.Parser.Types

/-!
# From tokens to a message

The walkers over the token tree: headers into the header map, a JSON body
into the map of its paths, and the pairs of a redacted body into a flat
map. Every unexpected token is an error of its own.
-/

namespace TlsnDemo

open Peg

/-! ## Paths -/

inductive PathSegment where
  | key (k : String)
  | index (i : ℕ)
  deriving DecidableEq, Repr

/-- One segment, as the path prints it. -/
def PathSegment.render : PathSegment → String
  | key k => "." ++ k
  | index i => "[" ++ toString i ++ "]"

/-- The segments from the root, outermost first. -/
structure PathStack where
  segments : List PathSegment := []
  deriving DecidableEq, Repr

namespace PathStack

def push (path : PathStack) (segment : PathSegment) : PathStack :=
  ⟨path.segments ++ [segment]⟩

def pop (path : PathStack) : PathStack := ⟨path.segments.dropLast⟩

def render (path : PathStack) : String := String.join (path.segments.map PathSegment.render)

end PathStack

/-! ## Headers -/

/-- How a header's value is read off its remaining tokens. -/
class HeaderValue (V : Type) where
  parse : List Token → Except ParseError (V × List Token)

/-- The standard parser needs a value. -/
instance : HeaderValue Range where
  parse
    | [] => .error (.missingField "header value")
    | valuePair :: inner => do
      assertRule valuePair .headerValue "header_value"
      return (extractRange valuePair, inner)

/-- The redacted parser does without. -/
instance : HeaderValue (Option Range) where
  parse
    | [] => .ok (none, [])
    | valuePair :: inner => do
      assertRule valuePair .headerValue "header_value"
      return (some (extractRange valuePair), inner)

section Headers

variable [ToLowercase] {V : Type} [HeaderValue V]

def parseHeader (input : List UInt8) (pair : Token) : Except ParseError (String × Header V) := do
  assertRule pair .header "header"
  match pair.intoInner with
  | [] => throw (.missingField "header name")
  | namePair :: inner =>
    assertRule namePair .headerName "header_name"
    let name := toLowercase (asStr input namePair)
    let (value, inner) ← HeaderValue.parse inner
    assertEndOfIterator inner "header"
    return (name, ⟨extractRange namePair, value⟩)

/-- `acc.entry(name).or_default().push(header)` -/
def pushHeader (acc : StringMap (List (Header V))) (name : String) (header : Header V) :
    StringMap (List (Header V)) :=
  acc.insert name ((acc.lookup name).getD [] ++ [header])

def parseHeaders (input : List UInt8) (headersPair : Token) :
    Except ParseError (StringMap (List (Header V))) := do
  assertRule headersPair .headers "headers"
  headersPair.intoInner.foldlM (fun acc pair => do
    let (name, header) ← parseHeader input pair
    return pushHeader acc name header) ∅

end Headers

/-! ## The standard body -/

/-- What the traversal of a JSON body carries. -/
structure Traversal where
  body : StringMap StandardBody
  path : PathStack

mutual

/-- Descend into a value, and leave its path. -/
def traverseValue (input : List UInt8) : Token → Traversal → Except ParseError Traversal
  | .node rule _ _ inner, st => do
    let st ←
      if rule = .object then traverseObject input inner st
      else if rule = .array then traverseArray input 0 inner st
      else pure st
    return { st with path := st.path.pop }

/-- The loop over an object's pairs. -/
def traverseObject (input : List UInt8) : List Token → Traversal → Except ParseError Traversal
  | [], st => .ok st
  | .node rule start stop inner :: rest, st => do
    assertRule (.node rule start stop inner) .pair "pair"
    match inner with
    | [] => throw (.missingField "object key")
    | [_] => throw (.missingField "object value")
    | keyPair :: valuePair :: more =>
      assertEndOfIterator more "pair"
      let path := st.path.push (.key (asStr input keyPair))
      let body := st.body.insert path.render
        (.keyValue (extractRange keyPair) (extractRange valuePair))
      let st ← traverseValue input valuePair ⟨body, path⟩
      traverseObject input rest st

/-- The loop over an array's elements, from index `idx` on. -/
def traverseArray (input : List UInt8) (idx : ℕ) :
    List Token → Traversal → Except ParseError Traversal
  | [], st => .ok st
  | pair :: rest, st => do
    let path := st.path.push (.index idx)
    let body := st.body.insert path.render (.value (extractRange pair))
    let st ← traverseValue input pair ⟨body, path⟩
    traverseArray input (idx + 1) rest st

end

/-- `StandardBodyTraverser::new(root).traverse()` -/
def traverse (input : List UInt8) (root : Token) : Except ParseError (StringMap StandardBody) := do
  let st ← traverseValue input root ⟨(∅ : StringMap StandardBody).insert "" (.value (extractRange root)), {}⟩
  return st.body

def parseStandardBody (input : List UInt8) (pairs : List Token) :
    Except ParseError (StringMap StandardBody) :=
  match pairs with
  | bodyPair :: _ =>
    if bodyPair.asRule = .object ∨ bodyPair.asRule = .array then traverse input bodyPair else .ok ∅
  | [] => .ok ∅

/-! ## The redacted body -/

/-- The loop over the pairs of a redacted body, up to the first other token. -/
def redactedLoop (input : List UInt8) :
    List Token → StringMap RedactedBody → PathStack → Except ParseError (StringMap RedactedBody)
  | [], body, _ => .ok body
  | pair :: pairs, body, path =>
    if pair.asRule ≠ .pairRedacted then .ok body
    else do
      match pair.intoInner with
      | [] => throw (.missingField "key in pair")
      | keyPair :: inner =>
        let value := inner.head?.map extractRange
        assertEndOfIterator inner.tail "pair"
        let path := path.push (.key (asStr input keyPair))
        let body := body.insert path.render (.keyValue (extractRange keyPair) value)
        redactedLoop input pairs body path.pop

def parseRedactedBody (input : List UInt8) (pairs : List Token) :
    Except ParseError (StringMap RedactedBody) :=
  redactedLoop input pairs ∅ {}

/-! ## Messages -/

/-- The three fields of a first line. All three are read before any
error is reported, and the first error is the one that is. -/
def parseThreeFieldLine (line : Token) (lineRule : Rule) (lineLabel : String)
    (fieldA fieldB fieldC : Rule × String) : Except ParseError (Range × Range × Range) := do
  assertRule line lineRule lineLabel
  let field (inner : List Token) (f : Rule × String) : Except ParseError Token :=
    match inner with
    | [] => .error (.missingField f.2)
    | pair :: _ => do
      assertRule pair f.1 f.2
      return pair
  let inner := line.intoInner
  let a ← field inner fieldA
  let b ← field inner.tail fieldB
  let c ← field inner.tail.tail fieldC
  assertEndOfIterator inner.tail.tail.tail lineLabel
  return (extractRange a, extractRange b, extractRange c)

section Messages

variable [ToLowercase] {V B : Type} [HeaderValue V]

def parseRequestInner (input : List UInt8)
    (parseBody : List Token → Except ParseError (StringMap B)) :
    Except ParseError (Request (Header V) B) := do
  match Grammar.parse Grammar.request input with
  | none => throw .invalidSyntax
  | some [] => throw (.missingField "first line")
  | some [_] => throw (.missingField "headers section")
  | some (firstLinePair :: headersPair :: pairs) =>
    let (method, url, protocolVersion) ← parseThreeFieldLine firstLinePair .requestLine
      "request_line" (.method, "method") (.url, "url") (.protocolVersion, "protocol_version")
    let headers ← parseHeaders input headersPair
    let body ← parseBody pairs
    return { method, url, protocolVersion, headers, body }

def parseResponseInner (input : List UInt8)
    (parseBody : List Token → Except ParseError (StringMap B)) :
    Except ParseError (Response (Header V) B) := do
  match Grammar.parse Grammar.response input with
  | none => throw .invalidSyntax
  | some [] => throw (.missingField "first line")
  | some [_] => throw (.missingField "headers section")
  | some (firstLinePair :: headersPair :: pairs) =>
    let (protocolVersion, statusCode, status) ← parseThreeFieldLine firstLinePair .statusLine
      "status_line" (.protocolVersion, "protocol_version") (.statusCode, "status_code")
      (.status, "status")
    let headers ← parseHeaders input headersPair
    let body ← parseBody pairs
    return { protocolVersion, statusCode, status, headers, body }

def parseStandardRequest (input : List UInt8) : Except ParseError StandardRequest :=
  parseRequestInner input (parseStandardBody input)

def parseStandardResponse (input : List UInt8) : Except ParseError StandardResponse :=
  parseResponseInner input (parseStandardBody input)

def parseRedactedRequest (input : List UInt8) : Except ParseError RedactedRequest :=
  parseRequestInner input (parseRedactedBody input)

def parseRedactedResponse (input : List UInt8) : Except ParseError RedactedResponse :=
  parseResponseInner input (parseRedactedBody input)

end Messages

end TlsnDemo
