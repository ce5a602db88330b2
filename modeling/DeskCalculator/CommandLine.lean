import DeskCalculator.Json
import DeskCalculator.Session

/-!
# The command line

**Batches** (`Batch.run`). A list of expressions, each with one record: its value, or its tree as
JSON, or its failure. A failure does not keep the other expressions from being worked on.

**Arguments** (`Options.ofArguments?`). `--ast` shows trees; `--max-depth` and `--max-length` set
the limits, with the number in the next argument or after an equals sign; `--verbose` or `-v` asks
for a log. Each of them may be given once. Every argument without a dash in front is an expression,
and so is a dash alone and everything after `--`. Other arguments are refused.

**Left out.** The log itself: a `Report` is what is written apart from it, so asking for a log
changes none. The texts for `--help`, `-h`, `--version` and `-V` are not part of this library
either; these arguments are refused like any other with a dash.

**Running** (`Options.run`). Expressions are worked on as a batch. Without any, a session answers
the input.
-/

namespace DeskCalculator

/-! ## Batches -/

/-- What a program writes apart from a log, and the code it ends with. -/
structure Report where
  code : Nat
  out : String
  err : String
deriving Repr, DecidableEq

/-- What a batch shows of an expression. -/
inductive View where
  | value
  | tree
deriving Repr, DecidableEq

namespace Batch

/-- What is shown of an expression if nothing fails. -/
def result (limits : Limits) (view : View) (expression : String) : Except Failure String :=
  match view with
  | .value => do
    let x ← evaluate limits expression
    return expression ++ " = " ++ Decimal.plainText x
  | .tree => do
    let e ← parse limits expression
    return e.toJson.write .indented

/-- The record of an expression: a line of output, or an error line. -/
def record (limits : Limits) (view : View) (expression : String) : Except String String :=
  match result limits view expression with
  | .ok line => .ok (line ++ "\n")
  | .error f => .error (expression ++ ": " ++ f.report ++ "\n")

/-- The record as output; an error has none. -/
def outOf : Except String String → String
  | .ok line => line
  | .error _ => ""

/-- The record as error; a result has none. -/
def errOf : Except String String → String
  | .ok _ => ""
  | .error line => line

/-- The record is a result. -/
def isResult : Except String String → Bool
  | .ok _ => true
  | .error _ => false

/-- Puts records together. The code tells whether all of them are results. -/
def report (records : List (Except String String)) : Report where
  code := if records.all isResult then 0 else 1
  out := String.join (records.map outOf)
  err := String.join (records.map errOf)

/-- Works on expressions, one after the other. -/
def run (limits : Limits) (view : View) (expressions : List String) : Report :=
  report (expressions.map (record limits view))

end Batch

/-! ## Arguments -/

/-- What the arguments ask for. An option that was not given is missing. -/
structure Options where
  tree : Bool := false
  log : Bool := false
  maxDepth : Option Nat := none
  maxLength : Option Nat := none
  expressions : List String := []
deriving Repr, DecidableEq

/-- A whole number below `2 ^ 64`: digits with at most one plus in front. -/
def limitOfChars? (s : List Char) : Option Nat :=
  let digits := match s with
    | '+' :: rest => rest
    | digits => digits
  (Decimal.naturalOfChars? digits).filter (· < 1 <<< 64)

namespace Options

/-- Shows trees, unless that has been asked for already. -/
def withTree? (o : Options) : Option Options :=
  if o.tree then none else some { o with tree := true }

/-- Asks for a log, unless that has been asked for already. -/
def withLog? (o : Options) : Option Options :=
  if o.log then none else some { o with log := true }

/-- Sets the depth limit to the number that `s` stands for, unless it has been set already. -/
def withMaxDepth? (o : Options) (s : List Char) : Option Options :=
  match o.maxDepth, limitOfChars? s with
  | none, some limit => some { o with maxDepth := some limit }
  | _, _ => none

/-- Sets the length limit to the number that `s` stands for, unless it has been set already. -/
def withMaxLength? (o : Options) (s : List Char) : Option Options :=
  match o.maxLength, limitOfChars? s with
  | none, some limit => some { o with maxLength := some limit }
  | _, _ => none

/-- Adds expressions. -/
def withExpressions (o : Options) (expressions : List String) : Options :=
  { o with expressions := o.expressions ++ expressions }

/-- The argument has a dash in front and more after it. -/
def isOption : List Char → Bool
  | '-' :: _ :: _ => true
  | _ => false

/-- Takes an argument that is complete in itself. -/
def withArgument? (o : Options) (argument : String) : Option Options :=
  let text := argument.toList
  let name := text.takeWhile (· != '=')
  let number := (text.dropWhile (· != '=')).drop 1
  if !isOption text then some (o.withExpressions [argument])
  else if argument = "--ast" then o.withTree?
  else if argument = "--verbose" ∨ argument = "-v" then o.withLog?
  else if name = "--max-depth".toList then o.withMaxDepth? number
  else if name = "--max-length".toList then o.withMaxLength? number
  else none

/-- Takes arguments, one after the other. The number of a limit has no dash in front. -/
def takeArguments? (o : Options) : List String → Option Options
  | [] => some o
  | "--" :: rest => some (o.withExpressions rest)
  | ["--max-depth"] | ["--max-length"] => none
  | "--max-depth" :: number :: rest =>
    (o.withMaxDepth? number.toList).bind fun o => o.takeArguments? rest
  | "--max-length" :: number :: rest =>
    (o.withMaxLength? number.toList).bind fun o => o.takeArguments? rest
  | argument :: rest => (o.withArgument? argument).bind fun o => o.takeArguments? rest

/-- What a list of arguments asks for, if it is accepted. -/
def ofArguments? (arguments : List String) : Option Options := takeArguments? {} arguments

/-- The limits for expressions. -/
def limits (o : Options) : Limits where
  maxLength := o.maxLength.getD ({} : Limits).maxLength
  maxDepth := o.maxDepth.getD ({} : Limits).maxDepth

/-- What a batch shows of each expression. -/
def view (o : Options) : View := if o.tree then .tree else .value

/-- Does what the arguments ask for, with a given input. -/
def run (o : Options) (input : String) : Report :=
  if o.expressions = [] then
    ⟨0, ({ limits := o.limits } : Session).transcript input, ""⟩
  else
    Batch.run o.limits o.view o.expressions

end Options

/-- The code for arguments that are refused. -/
def refusedCode : Nat := 2

end DeskCalculator
