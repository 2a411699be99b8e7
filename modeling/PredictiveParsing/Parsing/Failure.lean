import PredictiveParsing.Token.Model
import PredictiveParsing.Token.Stream

/-!
# Failures

A failure ends the rule in which it occurs, unless it is repaired. It has a cause and the token that
came next when the rule failed.
-/

namespace PredictiveParsing

namespace Failure

inductive Cause where
  /-- The next token is of another category. -/
  | mismatch (expected : List CategoryId)
  /-- The next tokens begin no alternative; the description says what should have been there. -/
  | noAlternative (expected : List CategoryId) (description : Option String)
  /-- What has to be there at least once is not there. -/
  | earlyExit (expected : List CategoryId)
  /-- Rules call each other too deep. -/
  | tooDeep (depth : Nat)
  | unknownRule (name : String)
  /-- A decision that is not among those of the rule. -/
  | unrecorded (kind : String) (idx : Nat)
deriving DecidableEq

end Failure

structure Failure where
  cause : Failure.Cause
  actual : Token
deriving DecidableEq

def Token.text (t : Token) : String := if t.isEof then "end of input" else s!"'{t.image}'"

namespace Failure

def code (f : Failure) : Code :=
  match f.cause with
  | .mismatch _ => Code.mismatchedToken
  | .noAlternative .. => Code.noViableAlternative
  | .earlyExit _ => Code.earlyExit
  | .tooDeep _ => Code.recursionLimit
  | .unknownRule _ => Code.unknownRuleName
  | .unrecorded .. => Code.internalError

def expected (f : Failure) : List CategoryId :=
  match f.cause with
  | .mismatch expected => expected
  | .noAlternative expected _ => expected
  | .earlyExit expected => expected
  | _ => []

def message (f : Failure) : String :=
  match f.cause with
  | .mismatch _ => s!"Mismatched token '{f.actual.image}'"
  | .noAlternative .. => s!"No viable alternative at '{f.actual.image}'"
  | .earlyExit _ => s!"Expected at least one iteration before '{f.actual.image}'"
  | .tooDeep depth => s!"Rule nesting exceeded {depth} levels"
  | .unknownRule name => s!"Rule '{name}' is not defined"
  | .unrecorded kind idx => s!"Decision {kind}#{idx} was not seen while recording the rule"

def describe (m : TokenModel) (f : Failure) : String :=
  match f.cause with
  | .mismatch expected => s!"Expecting {m.describe expected} but found {f.actual.text}"
  | .noAlternative _ (some description) => s!"Expecting {description} but found {f.actual.text}"
  | .noAlternative expected none =>
    s!"Expecting one of {m.describe expected} but found {f.actual.text}"
  | .earlyExit expected =>
    s!"Expecting at least one of {m.describe expected} but found {f.actual.text}"
  | _ => f.message

/-- Whether parsing can go on behind the rule that failed. -/
def isLocal (f : Failure) : Bool :=
  match f.cause with
  | .mismatch _ => true
  | .noAlternative .. => true
  | .earlyExit _ => true
  | _ => false

end Failure

end PredictiveParsing
