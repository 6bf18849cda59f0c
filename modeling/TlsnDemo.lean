import TlsnDemo.BalanceVerifier
import TlsnDemo.Peg.Lists
import TlsnDemo.Syntax.Leaves
import TlsnDemo.Syntax.Derivation
import TlsnDemo.Peg.Forest
import TlsnDemo.Syntax.Geometry
import TlsnDemo.Syntax.Messages
import TlsnDemo.Support.Maps
import TlsnDemo.Reading.BodyMap
import TlsnDemo.Reading.Messages
import TlsnDemo.Disclosing.Plan
import TlsnDemo.Reading.Documents
import TlsnDemo.Properties.Offsets
import TlsnDemo.Syntax.Bytes
import TlsnDemo.Reading.Redacted
import TlsnDemo.Properties.Authenticity
import TlsnDemo.Reading.Headers
import TlsnDemo.Reading.Transcript
import TlsnDemo.Properties.Disclosure
import TlsnDemo.Syntax.Agreement
import TlsnDemo.Syntax.Compact
import TlsnDemo.Properties.Completeness
import TlsnDemo.Properties.Boundary
import TlsnDemo.Reading.Paths
import TlsnDemo.Properties.BodyPaths
import TlsnDemo.Properties.Acceptance
import TlsnDemo.Disclosing.Outcome
import TlsnDemo.Properties.HeaderRules
import TlsnDemo.Disclosing.Machine
import TlsnDemo.Properties.Bounds
import TlsnDemo.Support.Mealy
import TlsnDemo.Wasm.Io
import TlsnDemo.Wasm.Reads
import TlsnDemo.Wasm.Writes
import TlsnDemo.Wasm.Futures
import TlsnDemo.Demo.Connect
import TlsnDemo.Demo.Preamble
import TlsnDemo.Syntax.Rfc
import TlsnDemo.Syntax.Quotes
import TlsnDemo.Properties.Structure
import TlsnDemo.Properties.Pairs
import TlsnDemo.Peg.Covers
import TlsnDemo.Syntax.Ascii
import TlsnDemo.Reading.Overwritten
import TlsnDemo.Reading.SameTokens
import TlsnDemo.Properties.Noninterference
import TlsnDemo.Demo.Dispatch
import TlsnDemo.Demo.Outcome
import TlsnDemo.Properties.OutcomeFrame
import TlsnDemo.Demo.Tls
import TlsnDemo.Demo.Validity
import TlsnDemo.Demo.Page
import TlsnDemo.Properties.Members
import TlsnDemo.Properties.Reported
import TlsnDemo.Reading.Spread
import TlsnDemo.Properties.Selection
import TlsnDemo.Properties.RoundTrip
import TlsnDemo.Properties.RevealMore
import TlsnDemo.Wasm.Duplex
import TlsnDemo.Support.Join
import TlsnDemo.Demo.Relay
import TlsnDemo.Support.Script
import TlsnDemo.Demo.Verifier
import TlsnDemo.Properties.Session
import TlsnDemo.Disclosing.Rules
import TlsnDemo.Disclosing.Prove
import TlsnDemo.Wasm.Streams
import TlsnDemo.Properties.Report
import TlsnDemo.Demo.Worker
import TlsnDemo.Properties.Bank
import TlsnDemo.Properties.Answer
import TlsnDemo.Demo.Roles
import TlsnDemo.Demo.Handle
import TlsnDemo.Properties.Secrets
import TlsnDemo.Demo.Pinning
import TlsnDemo.Wasm.Incoming
import TlsnDemo.Properties.Delivery
import TlsnDemo.Properties.Shown
