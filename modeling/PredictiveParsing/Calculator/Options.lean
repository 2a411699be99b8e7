import PredictiveParsing.Settings.Preferences

/-!
# Command line options

What the calculator is asked for on its command line. A setting has a long name and may have a short
one, no setting is given twice, and everything behind `--` is an expression.
-/

namespace PredictiveParsing.Calculator

inductive Setting where
  | file | config | json | strict | noRecovery | lookahead | jobs | info | verbose | help | version
deriving DecidableEq

namespace Setting

def all : List Setting :=
  [file, config, json, strict, noRecovery, lookahead, jobs, info, verbose, help, version]

def long : Setting → String
  | file => "file"
  | config => "config"
  | json => "json"
  | strict => "strict"
  | noRecovery => "no-recovery"
  | lookahead => "lookahead"
  | jobs => "jobs"
  | info => "info"
  | verbose => "verbose"
  | help => "help"
  | version => "version"

def short? : Setting → Option Char
  | file => some 'f'
  | config => some 'c'
  | jobs => some 'j'
  | verbose => some 'v'
  | help => some 'h'
  | version => some 'V'
  | _ => none

def placeholder? : Setting → Option String
  | file => some "FILE"
  | config => some "PATH"
  | lookahead => some "K"
  | jobs => some "N"
  | _ => none

def takesValue (s : Setting) : Bool := s.placeholder?.isSome

def description : Setting → String
  | file => "Read expressions from a file, one per line"
  | config => "Runtime preferences file"
  | json => "Print one JSON report per expression"
  | strict => "Fail unless the tokenizer can use first-character dispatch"
  | noRecovery => "Disable parser error recovery"
  | lookahead => "Maximum lookahead depth for grammar analysis"
  | jobs => "Worker threads (defaults to the number of CPUs)"
  | info => "Print engine limits and the calculator's decision tables, then exit"
  | verbose => "Enable debug logging"
  | help => "Print help"
  | version => "Print version"

def ofLong? (name : String) : Option Setting := all.find? (·.long == name)

def ofShort? (c : Char) : Option Setting := all.find? (·.short? == some c)

def usage (s : Setting) : String :=
  let short := (s.short?.map fun c => s!"-{c}, ").getD "    "
  let value := (s.placeholder?.map fun p => s!" <{p}>").getD ""
  s!"{short}--{s.long}{value}"

end Setting

def programName : String := "descent-calc"

def versionText : String := s!"{programName} 0.1.0\n"

def usageWidth : Nat := (Setting.all.map (·.usage.length)).foldl max 0

/-- The row of a setting; all descriptions start in the same column. -/
def Setting.row (s : Setting) : String :=
  let gap := String.ofList (List.replicate (usageWidth - s.usage.length + 2) ' ')
  s!"  {s.usage}{gap}{s.description}\n"

def helpText : String :=
  "Evaluate arithmetic expressions with error recovery\n\n" ++
  s!"Usage: {programName} [OPTIONS] [EXPR]...\n\n" ++
  "Arguments:\n" ++
  "  [EXPR]...  Expressions to evaluate; stdin is read when none are given\n\n" ++
  "Options:\n" ++ String.join (Setting.all.map (·.row))

/-- Why there are no options. -/
inductive Stop where
  | help
  | version
  | unknown (argument : String)
  | missingValue (s : Setting)
  | needlessValue (s : Setting)
  | badValue (s : Setting) (value : String)
  | repeated (s : Setting)

def Stop.fault? : Stop → Option String
  | help => none
  | version => none
  | unknown a => some s!"unexpected argument '{a}' found"
  | missingValue s => some s!"a value is required for '--{s.long}' but none was supplied"
  | needlessValue s => some s!"unexpected value for '--{s.long}' found; no more were expected"
  | badValue s v => some s!"invalid value '{v}' for '--{s.long}'"
  | repeated s => some s!"the argument '--{s.long}' cannot be used multiple times"

/-- The expressions and settings of a command line. -/
structure Options where
  expressions : List String
  /-- The settings that are given, with their values. -/
  given : List (Setting × String)

namespace Options

def empty : Options := ⟨[], []⟩

def add (o : Options) (expression : String) : Options :=
  { o with expressions := o.expressions ++ [expression] }

def has (o : Options) (s : Setting) : Bool := o.given.any (·.1 == s)

def text? (o : Options) (s : Setting) : Option String := o.given.lookup s

def number? (o : Options) (s : Setting) : Option Nat := (o.text? s).bind readNat?

end Options

/-- Whether a text is a value of a setting: a number for some, and a path for others. -/
def Setting.isValue (s : Setting) (value : String) : Bool :=
  match s with
  | lookahead => (readNat? value).isSome
  | jobs => (readNat? value).isSome
  | _ => !value.isEmpty

namespace Options

def set (o : Options) (s : Setting) (value : String) : Except Stop Options :=
  if !s.isValue value then .error (.badValue s value)
  else if o.has s then .error (.repeated s)
  else .ok { o with given := (s, value) :: o.given }

def turnOn (o : Options) (s : Setting) : Except Stop Options :=
  match s with
  | .help => .error .help
  | .version => .error .version
  | _ => if o.has s then .error (.repeated s) else .ok { o with given := (s, "") :: o.given }

end Options

/-- The state in the middle of a command line. -/
structure Reading where
  options : Options
  /-- The setting whose value comes next. -/
  pending : Option Setting
  onlyExpressions : Bool

namespace Reading

/-- Reads short names in a row; the rest behind the first that takes a value is the value. -/
def readShort (argument : String) (o : Options) : List Char → Except Stop Reading
  | [] => .ok ⟨o, none, false⟩
  | c :: cs =>
    match Setting.ofShort? c with
    | none => .error (.unknown argument)
    | some s =>
      if s.takesValue then
        match cs with
        | [] => .ok ⟨o, some s, false⟩
        | '=' :: value => return ⟨← o.set s (String.ofList value), none, false⟩
        | value => return ⟨← o.set s (String.ofList value), none, false⟩
      else do readShort argument (← o.turnOn s) cs

/-- Reads a long name, with the value behind a sign of equality if there is one. -/
def readLong (argument : String) (o : Options) (cs : List Char) : Except Stop Reading :=
  match Setting.ofLong? (String.ofList (cs.takeWhile (· != '='))), cs.dropWhile (· != '=') with
  | none, _ => .error (.unknown argument)
  | some s, [] =>
    if s.takesValue then .ok ⟨o, some s, false⟩ else return ⟨← o.turnOn s, none, false⟩
  | some s, _ :: value =>
    if s.takesValue then return ⟨← o.set s (String.ofList value), none, false⟩
    else .error (.needlessValue s)

def step (r : Reading) (argument : String) : Except Stop Reading :=
  if r.onlyExpressions then .ok { r with options := r.options.add argument }
  else
    match r.pending, argument.toList with
    | some s, '-' :: _ :: _ => .error (.missingValue s)
    | some s, _ => return ⟨← r.options.set s argument, none, false⟩
    | none, ['-', '-'] => .ok { r with onlyExpressions := true }
    | none, '-' :: '-' :: cs => readLong argument r.options cs
    | none, '-' :: c :: cs => readShort argument r.options (c :: cs)
    | none, _ => .ok { r with options := r.options.add argument }

end Reading

def Options.ofArguments (arguments : List String) : Except Stop Options := do
  let r ← arguments.foldlM Reading.step ⟨.empty, none, false⟩
  match r.pending with
  | none => return r.options
  | some s => throw (.missingValue s)

end PredictiveParsing.Calculator
