import MatrixScript.Run

/-!
# The command line

`Request.ofArguments?` reads the arguments; `Request.answer` says what is
written where and with which exit code, given what the file holds.
-/

namespace MatrixScript

/-! ## Arguments -/

structure CommandOptions where
  tokens : Bool
  check : Bool
  noDump : Bool

inductive Flag where
  | tokens
  | check
  | noDump
  | version
deriving DecidableEq, Repr

namespace Flag

def ofLong? : String → Option Flag
  | "tokens" => some tokens
  | "check" => some check
  | "no-dump" => some noDump
  | "version" => some version
  | _ => none

def ofShort? : Char → Option Flag
  | 't' => some tokens
  | 'c' => some check
  | 'V' => some version
  | _ => none

end Flag

/-- An argument: flags, the end of all flags, or a file. -/
inductive Argument where
  | flags (flags : List (Option Flag))
  | endOfFlags
  | file (path : String)

/-- A lone dash is a file. A flag that is not known is kept as such, since a
flag before it may settle the request. -/
def Argument.ofText (text : String) : Argument :=
  match text.toList with
  | ['-'] => file text
  | ['-', '-'] => endOfFlags
  | '-' :: '-' :: name => flags [Flag.ofLong? (String.ofList name)]
  | '-' :: shorts => flags (shorts.map Flag.ofShort?)
  | _ => file text

inductive Request where
  | version
  | process (options : CommandOptions) (path : String)

structure CommandState where
  options : CommandOptions
  path : Option String

/-- Why reading the arguments ends early. -/
inductive CommandEnd where
  | misuse
  | version

namespace CommandState

def start : CommandState := ⟨⟨false, false, false⟩, none⟩

/-- A flag may be given once. -/
def flag (s : CommandState) : Option Flag → Except CommandEnd CommandState
  | some .tokens =>
    if s.options.tokens then .error .misuse else .ok { s with options.tokens := true }
  | some .check =>
    if s.options.check then .error .misuse else .ok { s with options.check := true }
  | some .noDump =>
    if s.options.noDump then .error .misuse else .ok { s with options.noDump := true }
  | some .version => .error .version
  | none => .error .misuse

def file (s : CommandState) (path : String) : Except CommandEnd CommandState :=
  if s.path.isSome || path.isEmpty then .error .misuse else .ok { s with path := some path }

def arguments (s : CommandState) : List String → Except CommandEnd CommandState
  | [] => .ok s
  | text :: rest => do
    match Argument.ofText text with
    | .flags flags => (← flags.foldlM flag s).arguments rest
    | .endOfFlags => rest.foldlM file s
    | .file path => (← s.file path).arguments rest

end CommandState

def Request.ofArguments? (arguments : List String) : Option Request :=
  match CommandState.start.arguments arguments with
  | .error .version => some .version
  | .error .misuse => none
  | .ok s => s.path.map (.process s.options)

/-! ## Answers -/

/-- Why a file has no text. -/
inductive Unreadable where
  | missing
  | directory
  | notText
  | other (cause : String)

def Unreadable.message : Unreadable → String
  | missing => "No such file or directory (os error 2)"
  | directory => "Is a directory (os error 21)"
  | notText => "stream did not contain valid UTF-8"
  | other cause => cause

structure CommandReport where
  exitCode : UInt8
  stdout : ByteArray
  stderr : String

def linesOf (texts : List String) : String := String.join (texts.map (· ++ "\n"))

namespace Request

def versionText : String := "matlang 0.1.0\n"

def unreadableText (path : String) (cause : Unreadable) : String :=
  "Failed to read the input file '" ++ path ++ "'. Perhaps this file does not exist?: "
    ++ cause.message ++ "\n"

def listTokens (source : String) : CommandReport :=
  let scanned := scan source
  let tokens := scanned.tokens.map fun t => t.line.repr ++ " " ++ t.token.text
  ⟨0, (linesOf tokens).toUTF8, linesOf (scanned.errors.map LexicalError.message)⟩

def runSource (fuel : Nat) (allocator : Allocator) (options : CommandOptions) (source : String) :
    CommandReport :=
  let r := run fuel ⟨!options.noDump, options.check⟩ allocator .unbounded source
  let findings := r.lexicalErrors.map LexicalError.message ++ r.diagnostics.map Diagnostic.message
  match r.outcome with
  | .ok _ => ⟨0, r.sink.stored, linesOf findings⟩
  | .error e => ⟨1, r.sink.stored, linesOf (findings ++ [e.message])⟩

/-- The answer to a request, with a way to read files. -/
def answer (fuel : Nat) (allocator : Allocator) (read : String → Except Unreadable String) :
    Request → CommandReport
  | version => ⟨0, versionText.toUTF8, ""⟩
  | process options path =>
    match read path with
    | .error cause => ⟨1, .empty, unreadableText path cause⟩
    | .ok source =>
      if options.tokens then listTokens source else runSource fuel allocator options source

end Request

end MatrixScript
