import Formula.LR.Run
import Formula.Symbol
import Formula.Text.Duration
import Formula.Text.Position
import Formula.Text.Quoted
import Formula.Value.Substitution

/-!
# Errors

Everything that can go wrong between a text and its value, by cause. `Error.message` has the wording, and
`Error.chain` adds what lies behind an error.
-/

namespace Formula

open Text (Position Duration)

inductive Error where
  /-- A character that begins no token. -/
  | unrecognized (text : String) (position : Position)
  /-- A token that cannot stand where it stands. -/
  | unexpected (symbol : Symbol) (lexeme : String) (position : Position)
  | unexpectedEnd (position : Position)
  | numberTooLarge (literal : String) (limit : Float)
  | exponentTooLarge (value limit : Float)
  | factorialTooLarge (value limit : Float)
  /-- A text in the place of a domain that is none, or a set of numbers that has no such name. -/
  | invalidDomain (name : String)
  /-- A parameter of a definition that is not a plain symbol. -/
  | invalidParameter (function parameter : String)
  /-- A name that is no function, with none or several arguments behind it. -/
  | invalidCall (name : String) (count : Nat)
  | notADefinition (text : String) (cause : Error)
  | unknownFunction (name : String)
  | notCallable (text : String)
  | arityMismatch (mismatch : ArityMismatch)
  | timedOut (limit : Duration)
  /-- A job that ended without an answer. -/
  | workerLost
  | grammar (cause : LR.GrammarError)
  | fault (cause : LR.Fault)

namespace Error

def message : Error → String
  | unrecognized text position =>
    "Unrecognized input " ++ Text.quoted text ++ " @ " ++ position.render
  | unexpected symbol lexeme position =>
    "Encountered a " ++ symbol.label ++ ": '" ++ lexeme ++ "' @ " ++ position.render ++
      " where it was not expected"
  | unexpectedEnd position => "Unexpected end of input @ " ++ position.render
  | numberTooLarge literal limit =>
    "Number literal " ++ literal ++ " exceeds the maximum of " ++ renderFloat limit
  | exponentTooLarge value limit =>
    "Exponent " ++ renderFloat value ++ " exceeds the maximum of " ++ renderFloat limit
  | factorialTooLarge value limit =>
    "Factorial of " ++ renderFloat value ++ " exceeds the maximum of " ++ renderFloat limit
  | invalidDomain name =>
    "Invalid domain " ++ Text.quoted name ++
      ", expected one of complex, real, rational, integer, whole, natural"
  | invalidParameter function parameter =>
    "Argument " ++ parameter ++ " of " ++ function ++ " is not a symbol"
  | invalidCall name count =>
    name ++ " is not a function and cannot be applied to " ++ toString count ++ " arguments"
  | notADefinition text _ =>
    "Invalid function syntax: " ++ text ++ "\nCorrect Ex: f(x) = x^2"
  | unknownFunction name => "Unknown function " ++ Text.quoted name
  | notCallable text => text ++ " is not callable"
  | arityMismatch m =>
    m.name ++ " takes " ++ m.expected ++ " argument(s) but " ++ toString m.found ++ " were given"
  | timedOut limit => "Timed out after " ++ limit.render
  | workerLost => "worker thread exited without a result"
  | grammar cause => "grammar error: " ++ cause.message
  | fault cause => "parser fault: " ++ cause.message

/-- The message, and after it those of the causes. -/
def chain : Error → List String
  | notADefinition text cause => (notADefinition text cause).message :: cause.chain
  | grammar cause => [(grammar cause).message, cause.message]
  | fault cause => [(fault cause).message, cause.message]
  | e => [e.message]

end Error

end Formula
