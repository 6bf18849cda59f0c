import TlsnDemo.Parser.Grammar
import Mathlib.Data.List.AList

/-!
# Parsed messages

What the two parsers return: byte ranges into the message, headers
grouped by lower-cased name, and a body map keyed by rendered path. The
hash maps are association lists without duplicate keys, since the code
only inserts and looks up.
-/

namespace TlsnDemo

open Peg

/-- `Range<usize>`: the bytes from `start` up to `stop`. -/
structure Range where
  start : ℕ
  stop : ℕ
  deriving DecidableEq, Repr

/-- `str::to_lowercase`. Header names are ASCII, but the names of a
configuration are any strings, so the whole Unicode mapping is a
parameter. -/
class ToLowercase where
  toLowercase : String → String

export ToLowercase (toLowercase)

/-- The mapping on ASCII names, the only ones a header line has. -/
@[reducible] def asciiLowercase : ToLowercase := ⟨String.toLower⟩

/-- `HashMap<String, _>`. -/
abbrev StringMap (V : Type) := AList fun _ : String => V

/-- Errors of the parser. The text of a syntax error is pest's own. -/
inductive ParseError where
  | invalidSyntax
  | unexpectedRule (text : String)
  | missingField (text : String)
  deriving DecidableEq, Repr

structure Header (V : Type) where
  name : Range
  value : V
  deriving DecidableEq, Repr

inductive Body (V : Type) where
  | keyValue (key : Range) (value : V)
  | value (range : Range)
  deriving DecidableEq, Repr

structure Request (H B : Type) where
  method : Range
  url : Range
  protocolVersion : Range
  headers : StringMap (List H)
  body : StringMap B

structure Response (H B : Type) where
  protocolVersion : Range
  statusCode : Range
  status : Range
  headers : StringMap (List H)
  body : StringMap B

/-- What the disclosure rules read of a message, request or response. -/
class HttpMessage (M : Type) (H B : outParam Type) where
  headers : M → StringMap (List H)
  body : M → StringMap B

instance {H B : Type} : HttpMessage (Request H B) H B where
  headers := Request.headers
  body := Request.body

instance {H B : Type} : HttpMessage (Response H B) H B where
  headers := Response.headers
  body := Response.body

abbrev StandardHeader := Header Range
abbrev StandardBody := Body Range
abbrev StandardRequest := Request StandardHeader StandardBody
abbrev StandardResponse := Response StandardHeader StandardBody

abbrev RedactedHeader := Header (Option Range)
abbrev RedactedBody := Body (Option Range)
abbrev RedactedRequest := Request RedactedHeader RedactedBody
abbrev RedactedResponse := Response RedactedHeader RedactedBody

/-- The span of a token. -/
def extractRange (pair : Token) : Range := ⟨pair.start, pair.stop⟩

/-- The bytes of a range. -/
def slice (input : List UInt8) (range : Range) : List UInt8 :=
  (input.drop range.start).take (range.stop - range.start)

/-- The text of a token. Whatever the grammar matches is ASCII, one byte
to a character. -/
def asStr (input : List UInt8) (pair : Token) : String :=
  String.ofList ((slice input (extractRange pair)).map fun b => Char.ofNat b.toNat)

def assertRule (pair : Token) (expected : Rule) (field : String) : Except ParseError Unit :=
  if pair.asRule ≠ expected then
    .error (.unexpectedRule s!"expected {field}, got {pair.asRule.debug}")
  else
    .ok ()

def assertEndOfIterator (iter : List Token) (context : String) : Except ParseError Unit :=
  match iter with
  | _ :: _ => .error (.unexpectedRule s!"expected end of iterator in {context}")
  | [] => .ok ()

end TlsnDemo
