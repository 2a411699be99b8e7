/-!
# Message codes

Every diagnostic, error and event carries a short code; the table says what each code of a problem
means and what to do about it.
-/

namespace PredictiveParsing

abbrev Code := String

namespace Code

def internalError : Code := "ERR001"
def initializationFailure : Code := "ERR002"
def configurationError : Code := "ERR003"

def duplicateCategory : Code := "E010"
def invalidHierarchy : Code := "E011"
def invalidPattern : Code := "E012"
def abstractWithoutDescendant : Code := "E013"

def unmatchedInput : Code := "E020"
def optimizationUnavailable : Code := "E021"
def tooManyTokens : Code := "E027"

def tooManyRules : Code := "E038"
def duplicateRule : Code := "E039"
def mismatchedToken : Code := "E040"
def noViableAlternative : Code := "E041"
def earlyExit : Code := "E042"
def notAllInputParsed : Code := "E045"
def recursionLimit : Code := "E047"
def notFinalized : Code := "E048"
def unknownRuleName : Code := "E049"

def leftRecursion : Code := "E060"
def unknownRule : Code := "E061"
def duplicateOccurrence : Code := "E062"
def unresolvedHierarchy : Code := "E063"
def recordingFailed : Code := "E064"

def ambiguousDecision : Code := "W050"
def pathLimitReached : Code := "W051"

def loggingReady : Code := "I001"
def tokenizerReady : Code := "I010"
def tokenizationComplete : Code := "I020"
def analysisComplete : Code := "I030"
def parseComplete : Code := "I040"
def pipelineComplete : Code := "I050"

/-- The code of remarks that have none of their own. -/
def remark : Code := "D000"

end Code

inductive Severity where
  | critical | high | medium | low
deriving DecidableEq

def Severity.text : Severity → String
  | critical => "Critical"
  | high => "High"
  | medium => "Medium"
  | low => "Low"

/-- What the code of a problem means. -/
structure CodeEntry where
  code : Code
  category : String
  severity : Severity
  recoverable : Bool
  halts : Bool
  description : String
  action : String

def codeTable : List CodeEntry := [
  ⟨"ERR001", "System", .critical, false, true,
    "Critical internal engine error",
    "File a bug report with the grammar and input that triggered it"⟩,
  ⟨"ERR002", "System", .critical, false, true,
    "Logging or engine initialization failure",
    "Check that initialization runs once per process"⟩,
  ⟨"ERR003", "System", .high, false, true,
    "Runtime configuration could not be loaded",
    "Check the configuration file and DESCENT_* environment variables"⟩,
  ⟨"E010", "TokenModel", .high, false, true,
    "Token category name registered twice",
    "Give every token category a unique name"⟩,
  ⟨"E011", "TokenModel", .high, false, true,
    "Token category parent is unknown or forms a cycle",
    "Define parent categories before their children"⟩,
  ⟨"E012", "TokenModel", .high, false, true,
    "Token category pattern is not a valid regular expression",
    "Fix the pattern syntax"⟩,
  ⟨"E013", "TokenModel", .high, false, true,
    "Abstract token category has no concrete descendant",
    "Add a category with a real pattern below the abstract one"⟩,
  ⟨"E020", "Lexical", .medium, true, false,
    "Input text matched no token category",
    "Remove the character or add a category that matches it"⟩,
  ⟨"E021", "Lexical", .high, false, true,
    "First-character dispatch table could not be built in strict mode",
    "Attach explicit leading characters to the listed categories"⟩,
  ⟨"E027", "Lexical", .high, false, false,
    "Token count limit exceeded; tokenization stopped",
    "Split the input or raise max_token_count in the build profile"⟩,
  ⟨"E038", "Syntax", .high, false, true,
    "Registry holds the maximum number of rules",
    "Raise max_rules in the build profile or split the grammar"⟩,
  ⟨"E039", "Syntax", .high, false, true,
    "Grammar rule name registered twice",
    "Remove the existing rule before redefining it"⟩,
  ⟨"E040", "Syntax", .medium, true, false,
    "Token did not match the expected category",
    "Check the input near the reported position"⟩,
  ⟨"E041", "Syntax", .medium, true, false,
    "No alternative of a choice matches the lookahead",
    "Check the input near the reported position"⟩,
  ⟨"E042", "Syntax", .medium, true, false,
    "Repetition requiring at least one iteration found none",
    "Check the input near the reported position"⟩,
  ⟨"E045", "Syntax", .medium, true, false,
    "Start rule finished before the end of input",
    "Remove trailing input or extend the start rule"⟩,
  ⟨"E047", "Syntax", .high, false, false,
    "Rule call depth limit exceeded",
    "Reduce input nesting or raise max_parse_depth in the build profile"⟩,
  ⟨"E048", "Syntax", .high, false, true,
    "Parse attempted on a registry that is not finalized",
    "Call finalize() after defining rules"⟩,
  ⟨"E049", "Syntax", .high, false, true,
    "Rule name is not defined in the registry",
    "Check the rule name or define the rule first"⟩,
  ⟨"E060", "Analysis", .critical, false, true,
    "Grammar rule is left recursive",
    "Rewrite the rule with a repetition instead of left recursion"⟩,
  ⟨"E061", "Analysis", .critical, false, true,
    "Grammar rule calls an undefined rule",
    "Define the called rule or fix the name"⟩,
  ⟨"E062", "Analysis", .critical, false, true,
    "Two productions in one rule share a kind and occurrence index",
    "Give each repeated production its own occurrence index"⟩,
  ⟨"E063", "Analysis", .critical, false, true,
    "Token category hierarchy is unresolved",
    "Give abstract categories concrete descendants"⟩,
  ⟨"E064", "Analysis", .critical, false, true,
    "A rule body failed while its structure was being recorded",
    "Keep semantic actions inside action() so recording does not run them"⟩,
  ⟨"W050", "Analysis", .low, true, false,
    "Decision alternatives overlap at the lookahead ceiling; first alternative wins",
    "Reorder alternatives, add a gate, or raise max_lookahead"⟩,
  ⟨"W051", "Analysis", .low, true, false,
    "Lookahead path limit reached for a decision",
    "Simplify the decision or raise max_paths_per_decision"⟩
]

namespace Code

def entry? (c : Code) : Option CodeEntry := codeTable.find? (·.code == c)

def category (c : Code) : String := (c.entry?.map (·.category)).getD "Unknown"

def severity (c : Code) : Severity := (c.entry?.map (·.severity)).getD .medium

def isRecoverable (c : Code) : Bool := (c.entry?.map (·.recoverable)).getD true

def halts (c : Code) : Bool := (c.entry?.map (·.halts)).getD false

def description (c : Code) : String := (c.entry?.map (·.description)).getD "Unknown error"

def action (c : Code) : String := (c.entry?.map (·.action)).getD "No specific action available"

end Code

end PredictiveParsing
