/-!
# Limits

The bounds that every tokenizer and parser keeps to, whatever its preferences are.
-/

namespace PredictiveParsing.Limits

def maxTokens : Nat := 1000000

def maxLexicalDiagnostics : Nat := 10000

/-- How deep rule calls may nest. -/
def maxParseDepth : Nat := 512

def maxDiagnostics : Nat := 1000

/-- How many tokens are looked at for a place where parsing can go on. -/
def maxRecoveryScan : Nat := 100000

def defaultLookahead : Nat := 4

def maxLookahead : Nat := 8

def maxPathsPerDecision : Nat := 4096

def maxRules : Nat := 10000

def report (loggingReady : Bool) : String :=
  "\n".intercalate [
    "Descent Pipeline:",
    s!"- Max Tokens: {maxTokens}",
    s!"- Max Lexical Diagnostics: {maxLexicalDiagnostics}",
    s!"- Max Parse Depth: {maxParseDepth}",
    s!"- Max Syntax Diagnostics: {maxDiagnostics}",
    s!"- Max Recovery Scan: {maxRecoveryScan} tokens",
    s!"- Lookahead: default {defaultLookahead}, ceiling {maxLookahead}",
    s!"- Max Paths per Decision: {maxPathsPerDecision}",
    s!"- Max Rules: {maxRules}",
    s!"- Global Logging: {loggingReady}"]

/-- The name of the set of limits. -/
def profile : String := "development"

def profileFolder : String := "config"

def profileSource : String := s!"Generated from {profileFolder}/{profile}.toml"

end PredictiveParsing.Limits
