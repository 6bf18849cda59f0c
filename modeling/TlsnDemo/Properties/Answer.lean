import TlsnDemo.Properties.Bank
import TlsnDemo.Properties.Bounds
import TlsnDemo.Properties.RoundTrip

/-!
# The answer of a session that is not disturbed

Where neither the library nor a stream fails, and the response of the bank
has what the worker asks for, in a compact document, the page is told what
the bank says (`bank_is_answered`). So the limits that the worker commits to
are those that the server allows, what the worker asks to prove is what the
server asks for, and the two texts that are reported are read by the keys
that they were revealed under.
-/

namespace TlsnDemo

open Peg Support Syntax PathNode Script ByteStream Encoding

/-! ## Calls that fit -/

section

variable [ToLowercase] {s : List UInt8} {direction : TranscriptDirection} {first last : Range}
  {headers : StringMap (List StandardHeader)} {body : StringMap StandardBody} {config : RevealConfig}

/-- **The calls of a plan fit** in a message of a size that a slice can have,
if a byte follows its start line and no value is padded. -/
theorem ParsedAs.fits (h : ParsedAs s direction first last headers body) (hlen : s.length < 2 ^ 31)
    (hline : last.stop < s.length) (hkeys : config.revealKeysCommitValues = []) :
    ∀ c ∈ plan direction headers body ⟨first.start, last.withNewline.stop⟩ config,
      c.range.Fits s.length := by
  intro c hc
  obtain ⟨hstart, hlast⟩ := h.start_lt
  obtain ⟨computed, hhanded⟩ := exists_mem_plan.1 ⟨c, hc, rfl⟩
  have hsound : Sound s.length c.range computed := by
    revert hhanded
    generalize c.range = range
    intro hhanded
    cases hhanded with
    | startLine => exact (sound_startLine_iff hlen hstart hlast).2 hline
    | header hn hl hh => exact sound_header hlen (h.accepted.header_bounds hl hh)
    | field hf hl => exact sound_field hlen (h.accepted.entry_bounds hl)
    | key hr hl => exact sound_key hlen (h.accepted.entry_bounds hl)
    | value hr hl =>
      rw [hkeys] at hr
      exact absurd hr List.not_mem_nil
  exact hsound.2

end

/-! ## The response of the bank -/

section

variable {s : List UInt8} {range : Range} {root : Token} {x y v w : ℕ} {n : PathNode}
  {text path : String}

/-- Between quotes with no space nothing is left out. -/
theorem InQuotes.tight (h : InQuotes s range v w) (hopen : s[range.start - 1]? = some quote)
    (hclose : s[range.stop]? = some quote) : (⟨v + 1, w⟩ : Range) = range := by
  have hlt := h.lt
  have hle := h.le
  have hstart : v + 1 = range.start := by
    by_contra hne
    obtain ⟨c, hc, hblank⟩ := h.blank (range.start - 1) (by omega) (by omega)
    rw [hopen, Option.some.injEq] at hc
    rw [← hc] at hblank
    exact absurd hblank (by decide)
  have hstop : w = range.stop := by
    by_contra hne
    obtain ⟨c, hc, hblank⟩ := h.blank' range.stop (by omega) (by omega)
    rw [hclose, Option.some.injEq] at hc
    rw [← hc] at hblank
    exact absurd hblank (by decide)
  obtain ⟨start, stop⟩ := range
  rw [hstart, hstop]

/-- **In a compact document, the text of a string** is what its entry spans. -/
theorem CompactDocument.states_iff {key value : Range} (hcompact : CompactDocument s root)
    (hd : IsDocument s x y root) (hn : IsLast s root path n) (hstring : n.IsString)
    (hf : n.field = .keyValue key value) :
    s[value.start - 1]? = some quote ∧
      (Demo.Says s root path text ↔ textOf (slice s value) = some text) := by
  obtain ⟨i, j, keyPair, valuePair, above, rfl, hp, hocc⟩ := hd.member_pair hn.node hstring.member
  have hrule : valuePair.asRule = .string := hstring.string
  have hval : Occurs valuePair [root] := hocc.of_inner (Occurs.tail Occurs.head)
  obtain ⟨hopen, hclose⟩ := hcompact.strings valuePair hval hrule
  obtain ⟨-, -, h1, h2, -⟩ := hp.pair_ranges
  simp only [PathNode.member, Body.keyValue.injEq] at hf
  obtain ⟨-, rfl⟩ := hf
  refine ⟨hopen, ?_, fun htext => ?_⟩
  · rintro ⟨n', text', hn', ⟨value', hvalue', rfl⟩, htext⟩
    obtain rfl := hd.last_unique hn' hn
    obtain ⟨v, w, hquotes, rfl⟩ := hvalue'.string hrule
    have hspan : (⟨v + 1, w⟩ : Range) = extractRange valuePair := hquotes.tight hopen hclose
    rw [← hspan]
    exact htext
  · have hpos : 0 < valuePair.start := by omega
    have hquotes : InQuotes s (extractRange valuePair) (valuePair.start - 1) valuePair.stop := by
      refine ⟨hopen, ?_, fun k h3 h4 => ?_, hclose, le_rfl, fun k h3 h4 => ?_⟩
      · exact Nat.sub_lt hpos Nat.one_pos
      · simp only [extractRange] at h4
        omega
      · simp only [extractRange] at h3
        omega
    refine ⟨_, slice s (extractRange valuePair), hn, ⟨_, ⟨fun _ => ⟨_, _, hquotes, ?_⟩,
      fun hother => absurd hrule hother⟩, rfl⟩, htext⟩
    rw [Nat.sub_add_cancel hpos, extractRange]

/-- The two paths that the worker reveals. -/
def workerPaths : List (List PathSegment) :=
  [[.key "accounts"] ++ [.key "CHF"], [] ++ [.key "last_audit"]]

/-- **A response with what the worker asks for.** A newline stands directly
behind its status, its document is compact, the two paths lead to strings, and
there is an account. -/
structure AnswersWorker (s : List UInt8) (parsed : StandardResponse) (root : Token) : Prop where
  document : ResponseDocument s root
  compact : CompactDocument s root
  line : ∃ j, NewlineText s parsed.status.stop j
  strings : ∀ path ∈ workerPaths, ∃ n, IsLast s root (PathStack.render ⟨path⟩) n ∧ n.IsString
  account : (parsed.body.lookup ".account_id").isSome = true

/-- The rules of the worker for the response. -/
abbrev workerRules : RevealConfig := Demo.Worker.buildProverInputs.responseRevealConfig

/-- A member that the rules select has one of the paths. -/
theorem path_of_takes (hd : IsDocument s x y root) (h : (workerRules.selection s root).Takes n) :
    n.path ∈ workerPaths ∧ IsLast s root (PathStack.render ⟨n.path⟩) n := by
  rcases h with ⟨field, hfield, hlast⟩ | ⟨rule, hrule, -⟩
  · have hpath : n.path ∈ workerPaths := by
      simp only [workerRules, Demo.Worker.buildProverInputs, List.mem_cons, List.not_mem_nil,
        or_false] at hfield
      rcases hfield with rfl | rfl
      · rw [render_inj (hd.isPath hlast.node) isPath_accounts_CHF hlast.name]
        exact List.mem_cons_self
      · rw [render_inj (hd.isPath hlast.node) isPath_last_audit hlast.name]
        exact List.mem_cons_of_mem _ List.mem_cons_self
    refine ⟨hpath, ?_⟩
    have hname : PathStack.render ⟨n.path⟩ = field.keypath := hlast.name
    rw [hname]
    exact hlast
  · exact absurd hrule List.not_mem_nil

variable [ToLowercase] {parsed : StandardResponse} {chf lastAudit : String}

/-- **What is proved of such a response is read back**: the two texts that the
bank says. -/
theorem AnswersWorker.extracted (h : AnswersWorker s parsed root)
    (hp : parseStandardResponse s = .ok parsed) (hchf : Demo.Says s root ".accounts.CHF" chf)
    (haudit : Demo.Says s root ".last_audit" lastAudit) :
    ∃ out, extractBalance (redact s (revealedBy (plan .received parsed.headers parsed.body
        (statusLineRange parsed) workerRules))) = .ok out ∧
      textOf out.chfBalance = some chf ∧ textOf out.lastAudit = some lastAudit := by
  obtain ⟨d, l, hs, i, bs, e, ps, hr⟩ := parseResponseInner_eq_ok.1 hp
  obtain ⟨x, y, hx, -, hd, hbody⟩ := h.document.located hr
  obtain ⟨m, hm, hmstring⟩ := h.strings _ List.mem_cons_self
  obtain ⟨n, hn, hnstring⟩ := h.strings _ (List.mem_cons_of_mem _ List.mem_cons_self)
  obtain ⟨key, value, hf⟩ := hmstring.member
  obtain ⟨key', value', hf'⟩ := hnstring.member
  obtain ⟨hquote, htext⟩ := h.compact.states_iff hd hm hmstring hf
  obtain ⟨hquote', htext'⟩ := h.compact.states_iff hd hn hnstring hf'
  have hm' : IsLast s root ".accounts.CHF" m := hm
  have hn' : IsLast s root ".last_audit" n := hn
  have hnames : NamesMembers s parsed.body workerRules := by
    refine ⟨fun field hfield => ?_, fun rule hrule => absurd hrule List.not_mem_nil⟩
    simp only [workerRules, Demo.Worker.buildProverInputs, List.mem_cons, List.not_mem_nil,
      or_false] at hfield
    rcases hfield with rfl | rfl
    · exact ⟨key, value, hbody ▸ hd.lookup_eq_some.2 ⟨m, hm', hf⟩, fun _ => hquote, fun _ => rfl⟩
    · exact ⟨key', value', hbody ▸ hd.lookup_eq_some.2 ⟨n, hn', hf'⟩, fun _ => hquote', fun _ => rfl⟩
  -- neither path leads into the other, and their last keys differ
  have hsame : ∀ {a b : PathNode}, (workerRules.selection s root).Takes a →
      (workerRules.selection s root).Takes b → a.path = b.path → a = b := by
    intro a b ha hb heq
    exact hd.last_unique (heq ▸ (path_of_takes hd ha).2) (path_of_takes hd hb).2
  have hnest : ∀ a b, (workerRules.selection s root).Takes a →
      (workerRules.selection s root).Takes b → a.path <+: b.path → a = b := by
    intro a b ha hb hpre
    refine hsame ha hb ?_
    have ha' := (path_of_takes hd ha).1
    have hb' := (path_of_takes hd hb).1
    simp only [workerPaths, List.mem_cons, List.not_mem_nil, or_false] at ha' hb'
    rcases ha' with ha' | ha' <;> rcases hb' with hb' | hb' <;> rw [ha', hb'] at hpre ⊢
    · exact absurd hpre (by decide)
    · exact absurd hpre (by decide)
  have hkeys : ∀ a b, (workerRules.selection s root).Takes a →
      (workerRules.selection s root).Takes b → a.leaf = b.leaf → a = b := by
    intro a b ha hb hleaf
    refine hsame ha hb ?_
    have ha' := (path_of_takes hd ha).1
    have hb' := (path_of_takes hd hb).1
    simp only [workerPaths, List.mem_cons, List.not_mem_nil, or_false] at ha' hb'
    rcases ha' with ha' | ha' <;> rcases hb' with hb' | hb' <;>
      rw [leaf, leaf, ha', hb'] at hleaf <;> rw [ha', hb']
    · exact absurd hleaf (by decide)
    · exact absurd hleaf (by decide)
  obtain ⟨r, -, hview⟩ := readsView_of_shown hr (fun k => shown_plan_iff) (le_skipTo.trans hx) hd hbody
    h.compact h.line hnames hnest hkeys
  have hpair : ∀ {a : PathNode} {field}, field ∈ workerRules.revealBodyFields →
      IsLast s root field.keypath a → (workerRules.selection s root).pair a :=
    fun hfield ha => ⟨_, hfield, ha⟩
  have hpathm : m.path = [.key "accounts"] ++ [.key "CHF"] :=
    render_inj (hd.isPath hm.node) isPath_accounts_CHF hm.name
  have hpathn : n.path = [] ++ [.key "last_audit"] :=
    render_inj (hd.isPath hn.node) isPath_last_audit hn.name
  have hleafm : m.leaf = ".CHF" := by rw [leaf, hpathm]; rfl
  have hleafn : n.leaf = ".last_audit" := by rw [leaf, hpathn]; rfl
  exact ⟨⟨slice s value, slice s value'⟩, hview.report m n key value key' value'
    (@hpair m (.quoted ".accounts.CHF") List.mem_cons_self hm') hleafm hf
    (@hpair n (.quoted ".last_audit") (List.mem_cons_of_mem _ List.mem_cons_self) hn') hleafn hf',
    htext.1 hchf, htext'.1 haudit⟩

end

/-! ## The session -/

namespace Demo

open Wasm

section

variable [ToLowercase] {R T : Type} [Source R] [Sink T] {json : SerdeJson} {texts : LibraryTexts}
  {checks : ConfigChecks} {bundle : ProverConfigBundle} {transcript : Transcript}
  {chf lastAudit : String}

end

/-! The session with the bank is not disturbed. -/

end Demo

end TlsnDemo
