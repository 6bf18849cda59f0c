import TlsnDemo.Peg.Runs

/-!
# The HTTP and JSON grammar

The rules of `grammar.pest`, one definition each, over the bytes of the
input. A silent rule is its expression; an ordinary rule emits a pair
(`rule`); `$` and `@` change the mode. Literals and alternatives are in
the order of the grammar, since choice is ordered.

`value` is the one recursive rule. `valueOf` takes the depth it may still
nest to, and `value` starts it above the length of the input: a nested
value lies behind the bracket that opens it, so the depth is never what
makes it fail.
-/

namespace TlsnDemo

open Peg

/-- The bytes of a string literal of the source, all of them ASCII. -/
def bytes (t : String) : List UInt8 := t.toList.map Char.toUInt8

/-- The grammar's rules, and the end-of-input token. -/
inductive Rule where
  | eoi
  | request
  | response
  | method
  | url
  | protocolVersion
  | statusCode
  | status
  | requestLine
  | statusLine
  | headers
  | header
  | headerName
  | headerValue
  | body
  | bodyFull
  | chunkSize
  | chunkedBody
  | contentLengthBody
  | bodyRedacted
  | json
  | pair
  | object
  | array
  | pairRedacted
  | quotedKey
  | key
  | value
  | boolean
  | null
  | quotedString
  | string
  | number
  deriving DecidableEq, Repr

/-- A rule as the generated `Debug` prints it. -/
def Rule.debug : Rule → String
  | eoi => "EOI"
  | request => "request"
  | response => "response"
  | method => "method"
  | url => "url"
  | protocolVersion => "protocol_version"
  | statusCode => "status_code"
  | status => "status"
  | requestLine => "request_line"
  | statusLine => "status_line"
  | headers => "headers"
  | header => "header"
  | headerName => "header_name"
  | headerValue => "header_value"
  | body => "body"
  | bodyFull => "body_full"
  | chunkSize => "chunk_size"
  | chunkedBody => "chunked_body"
  | contentLengthBody => "content_length_body"
  | bodyRedacted => "body_redacted"
  | json => "json"
  | pair => "pair"
  | object => "object"
  | array => "array"
  | pairRedacted => "pair_redacted"
  | quotedKey => "quoted_key"
  | key => "key"
  | value => "value"
  | boolean => "boolean"
  | null => "null"
  | quotedString => "quoted_string"
  | string => "string"
  | number => "number"

/-- A pair of the token tree. -/
abbrev Token := Pair Rule

namespace Grammar

/-- A parser of this grammar. -/
abbrev P := Parser UInt8 Rule

/-! ## Terminals -/

/-- A string literal. -/
def str (t : String) : P := matchString (bytes t)

/-- A run of alternatives that are single characters. -/
def oneOf (t : String) : P := satisfy fun c => (bytes t).contains c

/-- A character range. -/
def inRange (lo hi : Char) (c : UInt8) : Bool := lo.toUInt8 ≤ c && c ≤ hi.toUInt8

def isAsciiDigit : UInt8 → Bool := inRange '0' '9'

def isAsciiNonzeroDigit : UInt8 → Bool := inRange '1' '9'

def isAsciiAlphaUpper : UInt8 → Bool := inRange 'A' 'Z'

def isAsciiHexDigit (c : UInt8) : Bool :=
  inRange '0' '9' c || inRange 'a' 'f' c || inRange 'A' 'F' c

def isAsciiAlphanumeric (c : UInt8) : Bool :=
  inRange 'a' 'z' c || inRange 'A' 'Z' c || inRange '0' '9' c

def asciiDigit : P := satisfy isAsciiDigit

def asciiNonzeroDigit : P := satisfy isAsciiNonzeroDigit

def asciiAlphaUpper : P := satisfy isAsciiAlphaUpper

def asciiHexDigit : P := satisfy isAsciiHexDigit

def asciiAlphanumeric : P := satisfy isAsciiAlphanumeric

def newline : P := choice [str "\n", str "\r\n", str "\r"]

def whitespace : P :=
  withAtomicity .atomic (choice [str " ", str "\t", str "\r", newline, str "\x00"])

/-- `a ~ b ~ …` -/
def seq : List P → P := Peg.seq whitespace

/-- `a*` -/
def rep : P → P := Peg.rep whitespace

/-- `a+` -/
def rep1 : P → P := Peg.rep1 whitespace

/-- A `$` rule. -/
def compound (r : Rule) (p : P) : P := withAtomicity .compoundAtomic (rule r p)

/-- An `@` rule. -/
def atomic (r : Rule) (p : P) : P := rule r (withAtomicity .atomic p)

/-! ## The first line -/

def method : P :=
  rule .method (choice [str "GET", str "POST", str "PUT", str "DELETE", str "PATCH",
    str "HEAD", str "OPTIONS"])

def url : P := rule .url (rep1 (choice [asciiAlphanumeric, oneOf "/:.-_?=&%~@"]))

def protocolVersion : P :=
  rule .protocolVersion (seq [str "HTTP/", rep1 asciiDigit, str ".", rep1 asciiDigit])

def statusCode : P := rule .statusCode (seq [asciiDigit, asciiDigit, asciiDigit])

def status : P := rule .status (rep1 asciiAlphaUpper)

def requestLine : P :=
  compound .requestLine (seq [method, str " ", url, str " ", protocolVersion])

def statusLine : P :=
  compound .statusLine (seq [protocolVersion, str " ", statusCode, str " ", status])

/-! ## Headers -/

def headerName : P := rule .headerName (rep1 (choice [asciiAlphanumeric, oneOf "-"]))

def headerValue : P :=
  rule .headerValue (rep1 (choice [asciiAlphanumeric, oneOf "-; :,/'\".=+*_\x7b\x7d"]))

def header : P :=
  compound .header (seq [headerName, str ": ", optional (seq [headerValue, newline])])

def headers : P := rule .headers (rep header)

/-! ## JSON -/

def key : P := rule .key (rep1 (choice [asciiAlphanumeric, oneOf "_"]))

def quotedKey : P := seq [str "\"", key, str "\""]

def boolean : P := rule .boolean (choice [str "true", str "false"])

def null : P := rule .null (str "null")

def string : P :=
  rule .string (rep (choice [asciiAlphanumeric,
    oneOf "@.-_ :/,;=+*%~!#$&'()[]\x7b\x7d<>?|\\^`"]))

def quotedString : P := seq [str "\"", string, str "\""]

def number : P :=
  atomic .number (seq [
    optional (str "-"),
    choice [str "0", seq [asciiNonzeroDigit, rep asciiDigit]],
    optional (seq [str ".", rep asciiDigit]),
    optional (seq [choice [str "e", str "E"], optional (choice [str "+", str "-"]),
      rep1 asciiDigit])])

/-- `pair`, given the rule for its value. -/
def pairOf (value : P) : P := rule .pair (seq [quotedKey, str ":", value])

/-- What `object` and `array` share: a bracketed list, perhaps empty. -/
def bracketed (opening : String) (item : P) (closing : String) : P :=
  choice [
    seq [str opening, str closing],
    seq [str opening, item, rep (seq [str ",", item]), str closing]]

/-- `object`, given the rule for its values. -/
def objectOf (value : P) : P := rule .object (bracketed "\x7b" (pairOf value) "\x7d")

/-- `array`, given the rule for its elements. -/
def arrayOf (value : P) : P := rule .array (bracketed "[" value "]")

/-- `value`, nested at most `n` deep. -/
def valueOf : ℕ → P
  | 0 => fun _ _ _ => none
  | n + 1 =>
    choice [objectOf (valueOf n), arrayOf (valueOf n), quotedString, number, boolean, null]

def value : P := fun s a i => valueOf (s.length + 1) s a i

def pair : P := pairOf value

def object : P := objectOf value

def array : P := arrayOf value

def json : P := choice [object, array]

/-! ## Bodies -/

def pairRedacted : P :=
  compound .pairRedacted
    (seq [quotedKey, str ":", optional (seq [value, notFollowedBy (str ":")])])

def chunkSize : P := rep1 asciiHexDigit

def chunkedBody : P := seq [chunkSize, json, str "0"]

def contentLengthBody : P := json

def bodyRedacted : P :=
  seq [optional (str "\x7b"), pairRedacted, rep (seq [optional (str ","), pairRedacted]),
    optional (str "\x7d")]

def bodyFull : P := choice [chunkedBody, contentLengthBody]

def body : P := choice [bodyFull, bodyRedacted]

def eoi : P := rule .eoi endOfInput

def request : P := seq [startOfInput, requestLine, headers, optional body, eoi]

def response : P := seq [startOfInput, statusLine, headers, optional body, eoi]

/-- Run a rule over a whole input, as the generated parser does: from the
start, skipping whitespace. -/
def parse (p : P) (input : List UInt8) : Option (List Token) :=
  (p input .nonAtomic 0).map Prod.snd

end Grammar

end TlsnDemo
