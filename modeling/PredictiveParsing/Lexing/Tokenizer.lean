import PredictiveParsing.Diagnostic
import PredictiveParsing.Leading.Dispatch
import PredictiveParsing.Lexing.Segment
import PredictiveParsing.Settings.Preferences
import PredictiveParsing.Text.Dictionary

/-!
# Tokenizers

A tokenizer turns a text into the tokens of a model. Text that belongs to no category is reported
and skipped, so that tokenizing never fails.
-/

namespace PredictiveParsing

/-- Counts of what was found in a text. -/
structure TokenCounts where
  total : Nat
  skipped : Nat
  grouped : Nat
  unmatchedBytes : Nat
  /-- Diagnostics beyond the limit on their number. -/
  suppressed : Nat
  usedDispatch : Bool
deriving DecidableEq

def TokenCounts.toJson (x : TokenCounts) : Json :=
  .object [("total", .nat x.total), ("skipped", .nat x.skipped), ("grouped", .nat x.grouped),
    ("unmatched_bytes", .nat x.unmatchedBytes), ("suppressed", .nat x.suppressed),
    ("used_dispatch", .bool x.usedDispatch)]

structure Tokenization where
  /-- The tokens for the parser, with the end of the input as the last one. -/
  tokens : List Token
  /-- The tokens of each named group. -/
  groups : Dictionary (List Token)
  diagnostics : List Diagnostic
  counts : TokenCounts
deriving DecidableEq

/-- Why a tokenizer cannot be built. -/
inductive TokenizerError where
  | model (cause : ModelError)
  | optimizationUnavailable (categories : List String)

namespace TokenizerError

def message : TokenizerError → String
  | model cause => s!"Invalid token model: {cause.message}"
  | optimizationUnavailable categories =>
    "First-character optimization unavailable for: " ++ ", ".intercalate categories

def code : TokenizerError → Code
  | model cause => cause.code
  | optimizationUnavailable _ => Code.optimizationUnavailable

end TokenizerError

structure Tokenizer where
  model : TokenModel
  dispatch : Option DispatchTable
  preferences : TokenizerPreferences

namespace Tokenizer

/-- The tokenizer of a valid model. Without a dispatch table all categories are tried everywhere. -/
def build (m : TokenModel) (p : TokenizerPreferences) : Except TokenizerError Tokenizer := do
  m.validate.mapError .model
  match DispatchTable.build m with
  | .ok table => return ⟨m, some table, p⟩
  | .error names =>
    if p.ensureOptimizations then throw (.optimizationUnavailable names)
    return ⟨m, none, p⟩

def hasTable (t : Tokenizer) : Bool := t.dispatch.isSome

def readyEvents (t : Tokenizer) : Log.Journal :=
  let fallback :=
    match DispatchTable.build t.model with
    | .ok _ => []
    | .error names =>
      [.debug "First-character dispatch unavailable, using ordered scan"
        [("categories", ", ".intercalate names)]]
  fallback ++ [.success Code.tokenizerReady "Tokenizer ready"
    [("categories", toString t.model.size), ("optimized", toString t.hasTable)]]

def buildLogged (m : TokenModel) (p : TokenizerPreferences) :
    Log.Logged (Except TokenizerError Tokenizer) := do
  match build m p with
  | .error e => return .error e
  | .ok t =>
    Log.emitAll t.readyEvents
    return .ok t

/-- The categories that may match at a character: by the table if there is one, or else all. -/
def candidates (m : TokenModel) (concrete : List Category) (dispatch : Option DispatchTable)
    (c : Char) : List Category :=
  match dispatch with
  | none => concrete
  | some table => (table.candidates c).filterMap m.get?

end Tokenizer

namespace Segment

def token (c : Category) (s : Segment) : Token := ⟨c.id, String.ofList s.text, s.span, false⟩

/-- The report of a segment without a category. -/
def unmatchedReport (s : Segment) : Diagnostic :=
  let what := if s.text.length = 1 then "character" else "input"
  let quoted := String.ofList (Quoted.encode s.text)
  .lexical Code.unmatchedInput s!"Unexpected {what} {quoted}" s.span

def event? (s : Segment) : Option Log.Event :=
  match s.category with
  | some _ => none
  | none =>
    some (.debug "Unmatched input skipped"
      [("offset", toString s.span.start.offset), ("bytes", toString s.span.length)])

end Segment

namespace Tokenization

def hasDiagnostics (o : Tokenization) : Bool := !o.diagnostics.isEmpty

/-- The report of a token that is one too many, which drops the text from there on. -/
def overLimit (limit : Nat) (size : Nat) (s : Segment) : Diagnostic :=
  { Diagnostic.lexical Code.tooManyTokens
      s!"Token limit of {limit} reached, remaining input ignored" s.span with
    recovery := .skippedInput (size - s.span.start.offset) }

end Tokenization

/-! ## Scanning -/

def TokenCounts.record (x : TokenCounts) : Group → TokenCounts
  | .normal => { x with total := x.total + 1 }
  | .skipped => { x with total := x.total + 1, skipped := x.skipped + 1 }
  | .named _ => { x with total := x.total + 1, grouped := x.grouped + 1 }

/-- What a scan has come across. The tokens of a group have the last one first. -/
structure Findings where
  segments : Array Segment
  tokens : Array Token
  groups : Dictionary (List Token)
  diagnostics : Array Diagnostic
  counts : TokenCounts

namespace Findings

def start (usedDispatch : Bool) : Findings := ⟨#[], #[], [], #[], ⟨0, 0, 0, 0, 0, usedDispatch⟩⟩

/-- Keeps a report, or only counts it where there are as many as there may be. -/
def report (f : Findings) (d : Diagnostic) : Findings :=
  if f.diagnostics.size < Limits.maxLexicalDiagnostics then
    { f with diagnostics := f.diagnostics.push d }
  else { f with counts := { f.counts with suppressed := f.counts.suppressed + 1 } }

/-- How many tokens are not dropped. -/
def kept (f : Findings) : Nat := f.counts.total - f.counts.skipped

def take (f : Findings) (c : Category) (s : Segment) : Findings :=
  let f := { f with segments := f.segments.push s, counts := f.counts.record c.group }
  match c.group with
  | .normal => { f with tokens := f.tokens.push (s.token c) }
  | .skipped => f
  | .named name =>
    { f with groups := f.groups.alter name fun others => s.token c :: others.getD [] }

def passOver (f : Findings) (s : Segment) : Findings :=
  report
    { f with
      segments := f.segments.push s
      counts := { f.counts with unmatchedBytes := f.counts.unmatchedBytes + s.span.length } }
    s.unmatchedReport

/-- The segments, and what they amount to where the text ends at a place. -/
def finish (f : Findings) (p : Position) : List Segment × Tokenization :=
  (f.segments.toList,
    { tokens := (f.tokens.push (.eof p)).toList
      groups := f.groups.map fun (name, ts) => (name, ts.reverse)
      diagnostics := f.diagnostics.toList
      counts := f.counts })

end Findings

namespace Tokenizer

/-- The segment of a character that no category matches and, if so preferred, of those behind it up
to the next match. Also gives the text behind the segment. -/
def recover (mode : LexicalRecovery) (candidates : Char → List Category) (p : Position) (c : Char)
    (cs : List Char) : Segment × List Char :=
  let behind := p.advance c cs.head?
  match mode with
  | .singleChar => (⟨none, [c], ⟨p, behind⟩⟩, cs)
  | .skipToNextMatch =>
    let (text, stop, rest) := Segment.skipUnmatched candidates [c] behind cs
    (⟨none, text, ⟨p, stop⟩⟩, rest)

/-- Scans the rest of a text of `size` bytes, up to its end or to the first token that is one too
many. -/
def scanFrom (prefs : TokenizerPreferences) (candidates : Char → List Category) (size : Nat) :
    (fuel : Nat) → Position → List Char → Findings → List Segment × Tokenization
  | _, p, [], found => found.finish p
  | 0, p, _ :: _, found => found.finish p
  | fuel + 1, p, c :: cs, found =>
    match Segment.matched? (candidates c) p (c :: cs) with
    | none =>
      let (s, rest) := recover prefs.recovery candidates p c cs
      scanFrom prefs candidates size fuel s.span.stop rest (found.passOver s)
    | some (category, s, rest) =>
      if category.group ≠ .skipped ∧ prefs.tokenLimit ≤ found.kept then
        (found.report (Tokenization.overLimit prefs.tokenLimit size s)).finish p
      else scanFrom prefs candidates size fuel s.span.stop rest (found.take category s)

/-- Tokenizes with the given table or, without one, by trying all categories everywhere. Also gives
the segments that the text was cut into. -/
def scan (t : Tokenizer) (dispatch : Option DispatchTable) (text : List Char) :
    List Segment × Tokenization :=
  scanFrom t.preferences (candidates t.model t.model.concrete dispatch) (byteCount text) text.length
    .start text (.start dispatch.isSome)

def tokenize (t : Tokenizer) (text : List Char) : Tokenization := (t.scan t.dispatch text).2

def tokenizeInOrder (t : Tokenizer) (text : List Char) : Tokenization := (t.scan none text).2

def scanEvents (segments : List Segment) (o : Tokenization) : Log.Journal :=
  segments.filterMap (·.event?) ++ [.success Code.tokenizationComplete "Tokenization complete"
    [("tokens", toString o.tokens.length), ("diagnostics", toString o.diagnostics.length),
      ("optimized", toString o.counts.usedDispatch)]]

def scanLogged (t : Tokenizer) (dispatch : Option DispatchTable) (text : List Char) :
    Log.Logged Tokenization := do
  let (segments, output) := t.scan dispatch text
  Log.emitAll (scanEvents segments output)
  return output

def tokenizeLogged (t : Tokenizer) (text : List Char) : Log.Logged Tokenization :=
  t.scanLogged t.dispatch text

end Tokenizer

end PredictiveParsing
