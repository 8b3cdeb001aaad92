import Lox.Text.Digit
import Lox.Text.Quoted

/-! The options of the command line. A long name may be shortened as long as one option has it, short
names may be run together, and no option takes a value. The one other argument is the source. -/

namespace Lox

inductive Switch where
  | help
  | string
  | tokens
  | ast
  | repl
  | verbose
  deriving DecidableEq

namespace Switch

/-- Every name, in the order in which the options are listed. -/
def names : List (String × Switch) :=
  [("-h", help), ("--help", help), ("-s", string), ("--string", string), ("--tokens", tokens),
    ("--ast", ast), ("--repl", repl), ("--verbose", verbose)]

def title (s : Switch) : String :=
  "/".intercalate ((names.filter (·.2 = s)).map Prod.fst)

end Switch

inductive UsageError where
  | ambiguous (argument : String) (names : List String)
  | ignoredValue (switch : Switch) (value : String)
  | unrecognized (arguments : List String)

def UsageError.message : UsageError → String
  | ambiguous argument names =>
    "ambiguous option: " ++ argument ++ " could match " ++ ", ".intercalate names
  | ignoredValue switch value =>
    "argument " ++ switch.title ++ ": ignored explicit argument " ++ Text.quoted value
  | unrecognized arguments => "unrecognized arguments: " ++ " ".intercalate arguments

/-- What an argument is by its form. `separator` is the first `--`, after which all is positional. -/
inductive Argument where
  | positional (text : String)
  | separator
  | option (switch : Switch) (value : Option String)
  | bundle (switch : Switch) (rest : List Char)
  | unknown (text : String)

namespace Argument

/-- A minus sign with digits, or with digits around a point that some digit follows. A line feed at the
end does not count. -/
def isNegativeNumber (text : List Char) : Bool :=
  match if text.getLast? = some '\n' then text.dropLast else text with
  | '-' :: cs =>
    match cs.dropWhile Text.isDecimal with
    | [] => !cs.isEmpty
    | '.' :: ds => !ds.isEmpty && ds.all Text.isDecimal
    | _ => false
  | _ => false

/-- An argument that begins like an option and names none. -/
def nameless (text : String) : Argument :=
  if isNegativeNumber text.toList || text.contains ' ' then positional text else unknown text

def ofLong (text : String) : Except UsageError Argument :=
  let name := String.ofList (text.toList.takeWhile (· ≠ '='))
  let value := (text.toList.dropWhile (· ≠ '=')).tail?.map String.ofList
  match Switch.names.lookup name, Switch.names.filter fun n => name.isPrefixOf n.1 with
  | some s, _ | none, [(_, s)] => .ok (option s value)
  | none, [] => .ok (nameless text)
  | none, several => .error (.ambiguous text (several.map Prod.fst))

/-- What follows a short name: nothing, an equals sign without a value, or more short names, which an
equals sign may set off. -/
def ofShort (s : Switch) : List Char → Argument
  | [] => option s none
  | ['='] => option s (some "")
  | '=' :: cs | cs => bundle s cs

def ofText (text : String) : Except UsageError Argument :=
  match text.toList with
  | '-' :: '-' :: _ => ofLong text
  | '-' :: c :: cs =>
    .ok (((Switch.names.lookup (String.ofList ['-', c])).map (ofShort · cs)).getD (nameless text))
  | _ => .ok (positional text)

def ofTexts : List String → Except UsageError (List Argument)
  | [] => .ok []
  | "--" :: rest => .ok (separator :: rest.map positional)
  | text :: rest => do
    let a ← ofText text
    return a :: (← ofTexts rest)

end Argument

structure Options where
  source : Option String
  string : Bool
  tokens : Bool
  ast : Bool
  repl : Bool
  verbose : Bool

namespace Options

def default : Options := ⟨none, false, false, false, false, false⟩

def set (o : Options) : Switch → Options
  | .help => o
  | .string => { o with string := true }
  | .tokens => { o with tokens := true }
  | .ast => { o with ast := true }
  | .repl => { o with repl := true }
  | .verbose => { o with verbose := true }

/-- The short options that are run together from `s` on. What follows a name and begins with no other
name is a value, and no option takes one. -/
def bundle (s : Switch) : List Char → Except UsageError (List Switch)
  | [] => .ok [s]
  | c :: cs =>
    match Switch.names.lookup (String.ofList ['-', c]) with
    | some next => (s :: ·) <$> bundle next cs
    | none => .error (.ignoredValue s (String.ofList (c :: cs)))

/-- What the arguments ask for. `none` is a plea for help, which stops the reading. The source takes the
separator next to it along. -/
def ofArguments (o : Options) (extras : List String) (nextToSource : Bool) :
    List Argument → Except UsageError (Option Options)
  | [] => if extras.isEmpty then .ok (some o) else .error (.unrecognized extras)
  | .positional text :: rest =>
    if o.source.isNone then ofArguments { o with source := some text } extras true rest
    else ofArguments o (extras ++ [text]) false rest
  | .separator :: rest =>
    if o.source.isNone || nextToSource then ofArguments o extras false rest
    else ofArguments o (extras ++ ["--"]) false rest
  | .unknown text :: rest => ofArguments o (extras ++ [text]) false rest
  | .option s (some value) :: _ => .error (.ignoredValue s value)
  | .option s none :: rest =>
    if s = .help then .ok none else ofArguments (o.set s) extras false rest
  | .bundle s cs :: rest => do
    let switches ← bundle s cs
    if .help ∈ switches then pure none else ofArguments (switches.foldl set o) extras false rest

def parse (arguments : List String) : Except UsageError (Option Options) := do
  ofArguments default [] false (← Argument.ofTexts arguments)

end Options

def usage : String :=
  "usage: lox [-h] [-s] [--tokens] [--ast] [--repl] [--verbose] [source]\n"

def helpText : String :=
  usage ++ "
positional arguments:
  source        Filename or raw source (with -s)

options:
  -h, --help    show this help message and exit
  -s, --string  Interpret source as literal string
  --tokens      Print tokens and exit
  --ast         Print the parsed AST and exit
  --repl        Launch interactive REPL
  --verbose     Verbose REPL mode (if --repl)
"

def UsageError.text (e : UsageError) : String := usage ++ "lox: error: " ++ e.message ++ "\n"

end Lox
