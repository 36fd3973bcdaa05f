import Formula.Session
import Formula.Value.Text

/-!
# The command line

Three commands: `parse` reads and evaluates an equation, `tokens` lists the tokens of a text, and `catalog`
lists the builtin functions and constants. `Invocation.read?` understands the arguments, and
`Invocation.run` gives what is printed and the exit code. What was printed before a failure stays.
-/

namespace Formula

/-! ## Arguments -/

/-- The options of `parse`. -/
structure ParseOptions where
  domain : Option String := none
  functions : List String := []
  constants : List (String × Float) := []
  symbols : List String := []
  maxNumber : Option Float := none
  maxExponent : Option Float := none
  maxFactorial : Option Float := none

inductive Command where
  | parse (equation : String) (options : ParseOptions)
  | tokens (text : String)
  | catalog

/-- A command, and the seconds it is given. -/
structure Invocation where
  command : Command
  timeout : Option Float := none

/-- An argument by its form. -/
inductive Argument where
  /-- `--name` or `--name=value`. -/
  | option (name : String) (value : Option String)
  /-- `--`, behind which nothing is an option. -/
  | separator
  /-- A dash with something behind it. -/
  | dashed
  | plain (text : String)

namespace Argument

/-- The text before the first `=`, and the text behind it if there is one. -/
def splitValue (cs : List Char) : String × Option String :=
  (String.ofList (cs.takeWhile (· ≠ '=')),
    match cs.dropWhile (· ≠ '=') with
    | [] => none
    | _ :: value => some (String.ofList value))

def ofText (text : String) : Argument :=
  match text.toList with
  | '-' :: '-' :: [] => separator
  | '-' :: '-' :: cs =>
    let (name, value) := splitValue cs
    option name value
  | '-' :: _ :: _ => dashed
  | _ => plain text

end Argument

/-- A double on the command line. -/
def readFloat? (text : String) : Option Float := Decimal.readFloat? text.toList

/-- A constant, written `NAME=VALUE`. -/
def readConstant? (text : String) : Option (String × Float) := do
  let (name, value) := Argument.splitValue text.toList
  return (Text.trim name, ← readFloat? (Text.trim (← value)))

/-- Sets what may be given only once. -/
def setOnce {α : Type} (old : Option α) (new : Option α) : Option (Option α) :=
  match old, new with
  | none, some x => some (some x)
  | _, _ => none

/-- The arguments behind the name of a command: the plain ones, the options of `parse`, and the timeout. -/
structure Arguments where
  plain : List String := []
  options : ParseOptions := {}
  timeout : Option Float := none

namespace Arguments

/-- Adds the value of an option. Only `parse` has options of its own. -/
def addOption? (isParse : Bool) (a : Arguments) (name value : String) : Option Arguments :=
  if name = "timeout" then do
    return { a with timeout := ← setOnce a.timeout (readFloat? value) }
  else if ¬ isParse then none
  else
    let o := a.options
    match name with
    | "domain" => do
      return { a with options := { o with domain := ← setOnce o.domain (some value) } }
    | "function" => some { a with options := { o with functions := o.functions ++ [value] } }
    | "constant" => do
      return { a with options := { o with constants := o.constants ++ [← readConstant? value] } }
    | "symbol" => some { a with options := { o with symbols := o.symbols ++ [value] } }
    | "max-number" => do
      return { a with options := { o with maxNumber := ← setOnce o.maxNumber (readFloat? value) } }
    | "max-exponent" => do
      return { a with options := { o with maxExponent := ← setOnce o.maxExponent (readFloat? value) } }
    | "max-factorial" => do
      return { a with options := { o with maxFactorial := ← setOnce o.maxFactorial (readFloat? value) } }
    | _ => none

/-- Reads arguments up to the end. The value of an option stands behind `=` or in the next argument, which
must not look like an option itself. -/
def read? (isParse : Bool) (a : Arguments) : List String → Option Arguments
  | [] => some a
  | text :: rest =>
    match Argument.ofText text with
    | .separator => some { a with plain := a.plain ++ rest }
    | .dashed => none
    | .plain text => read? isParse { a with plain := a.plain ++ [text] } rest
    | .option name (some value) => do read? isParse (← a.addOption? isParse name value) rest
    | .option name none =>
      match rest with
      | [] => none
      | next :: rest =>
        match Argument.ofText next with
        | .plain value => do read? isParse (← a.addOption? isParse name value) rest
        | _ => none

end Arguments

namespace Invocation

/-- The command with a name, behind a timeout that may have been given before it. -/
def ofCommand? (timeout : Option Float) (name : String) (args : List String) : Option Invocation := do
  let a ← Arguments.read? (name == "parse") {} args
  let command ← match name, a.plain with
    | "parse", [equation] => some (.parse equation a.options)
    | "tokens", [text] => some (.tokens text)
    | "catalog", [] => some .catalog
    | _, _ => none
  return ⟨command, a.timeout <|> timeout⟩

/-- Reads the arguments in front of the name of the command. -/
def readFrom? (timeout : Option Float) : List String → Option Invocation
  | [] => none
  | text :: rest =>
    match Argument.ofText text, rest with
    | .plain name, rest => ofCommand? timeout name rest
    | .option "timeout" (some value), rest => do
      let timeout ← setOnce timeout (readFloat? value)
      readFrom? timeout rest
    | .option "timeout" none, value :: rest =>
      match Argument.ofText value with
      | .plain value => do
        let timeout ← setOnce timeout (readFloat? value)
        readFrom? timeout rest
      | _ => none
    | _, _ => none

/-- The invocation that some arguments stand for, if their form is right. -/
def read? (args : List String) : Option Invocation := readFrom? none args

end Invocation

/-! ## Answers -/

/-- The lines printed before a command came to its end, and the error if that was a failure. -/
structure Printout where
  lines : List String := []
  failure : Option Error := none

namespace Printout

/-- Prints lines and goes on. -/
def andThen (lines : List String) (rest : Printout) : Printout :=
  { rest with lines := lines ++ rest.lines }

/-- Goes on with a result, or stops with its error. -/
def whenOk {α : Type} (e : Except Error α) (next : α → Printout) : Printout :=
  match e with
  | .ok a => next a
  | .error e => { failure := some e }

end Printout

/-- Fills a text with blanks in front up to a width. -/
def padLeft (width : Nat) (text : String) : String :=
  String.ofList (List.replicate (width - text.length) ' ') ++ text

namespace Command

open Printout (andThen whenOk)

/-- The problem that the arguments of `parse` describe. -/
def problemOf (equation : String) (o : ParseOptions) : Problem where
  equation
  domain := o.domain
  functions := o.functions
  constants := o.constants
  limits :=
    { number := o.maxNumber.getD (1 / 0)
      exponent := o.maxExponent.getD (1 / 0)
      factorial := o.maxFactorial.getD (1 / 0) }

/-- The domain of an equation, printed behind it. -/
def printDomain (s : Setting) : Option String → Printout
  | none => {}
  | some text =>
    whenOk (s.readDomain text) fun domain =>
      whenOk domain.evaluate fun value => andThen ["domain:    " ++ value.render] {}

/-- The tree, the value and the variables of an equation. -/
def printParse (equation : String) (o : ParseOptions) : Printout :=
  whenOk (problemOf equation o).setting fun start =>
    let s := o.symbols.foldl Setting.withSymbol start
    whenOk (s.read equation) fun reading =>
      andThen ["ast:       " ++ reading.root.render] <|
        whenOk reading.evaluate fun value =>
          andThen ["value:     " ++ value.render,
              "variables: " ++ ", ".intercalate reading.freeSymbols] <|
            andThen (reading.root.latex?.toList.map ("latex:     " ++ ·)) (printDomain s o.domain)

/-- A token on a line: its position, its kind and its text. -/
def tokenLine (t : Token) : String :=
  padLeft 6 t.position.render ++ "  " ++ t.symbol.label ++ " " ++ Text.quoted t.lexeme

/-- The tokens of a text. -/
def printTokens (text : String) : Printout :=
  let scan := tokenize text
  ⟨scan.tokens.map tokenLine, scan.failure⟩

/-- The functions and constants of a catalog. -/
def catalogLines (c : Catalog) : List String :=
  ("functions: " ++ ", ".intercalate (c.functions.map Callable.name)) ::
    c.constants.map fun (name, value) => "constant:  " ++ name ++ " = " ++ value.render

def print : Command → Printout
  | .parse equation options => printParse equation options
  | .tokens text => printTokens text
  | .catalog => ⟨catalogLines .builtin, none⟩

end Command

/-! ## Reports -/

/-- What an invocation leaves behind. -/
structure Report where
  code : UInt32
  stdout : String := ""
  stderr : String := ""

namespace Report

/-- Joins lines, each ended by a newline. -/
def unlines (lines : List String) : String :=
  String.join (lines.map (· ++ "\n"))

/-- A cause with its later lines indented like the first. -/
def indented (first later : String) (cause : String) : String :=
  first ++ ("\n" ++ later).intercalate (cause.splitOn "\n")

/-- The causes of a failure below each other, numbered if there are several. -/
def causes : List String → List String
  | [cause] => [indented "    " "    " cause]
  | cs => cs.zipIdx.map fun (cause, i) => indented (padLeft 5 (toString i) ++ ": ") "       " cause

/-- The report of an error. -/
def failureText (e : Error) : String :=
  unlines (["Error: mathnote failed", "", "Caused by:"] ++ causes e.chain)

def ofPrintout (p : Printout) : Report :=
  match p.failure with
  | none => ⟨0, unlines p.lines, ""⟩
  | some e => ⟨1, unlines p.lines, failureText e⟩

/-- The arguments were not understood. -/
def usage : Report :=
  ⟨2, "", unlines ["usage: [--timeout SECONDS] parse EQUATION [OPTIONS] | tokens TEXT | catalog"]⟩

end Report

/-- Why a number of seconds cannot be a timeout, if it cannot. -/
def timeoutProblem? (seconds : Float) : Option String :=
  match Text.Duration.ofSeconds seconds with
  | .ok d => if d.nanoseconds = 0 then some "must be positive" else none
  | .error refusal => some refusal.message

/-- Runs an invocation. A timeout is checked first. -/
def Invocation.run (i : Invocation) : Report :=
  match i.timeout.bind fun t => (timeoutProblem? t).map (t, ·) with
  | some (t, problem) =>
    ⟨1, "", "Error: invalid timeout " ++ renderFloat t ++ ": " ++ problem ++ "\n"⟩
  | none => .ofPrintout i.command.print

/-- The report for a row of arguments. -/
def Report.ofArguments (args : List String) : Report :=
  match Invocation.read? args with
  | some i => i.run
  | none => usage

end Formula
