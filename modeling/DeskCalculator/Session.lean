import DeskCalculator.Calculator

/-!
# Sessions

A session holds the limits for its expressions and the memory. It answers one line after the other.

**Command words** (`Keyword`). The words that make a line a command. Letter case does not matter.
`help` and `quit` have a second spelling each.

**Recognition** (`Command.ofLine`). The first word of a line decides. If it is a command word, the
rest of the line holds the arguments, which are checked in number only; every other line is an
expression. A line of blanks asks for nothing.

**Memory** (`Memory`). One register, which starts at zero. Numbers are added to it and subtracted
from it in doubles.

**Failures** (`Session.execute`). A command that fails has no new session, so it leaves the memory
as it was.

**The transcript** (`Session.transcript`). What the user of a session sees: a greeting, then a
prompt and an answer for every line. `quit` ends the transcript; the end of the input leaves a last
prompt behind. What is shown for one line, and whether the session goes on, is its `reply`.
-/

namespace DeskCalculator

/-! ## Command words -/

/-- A command word. -/
inductive Keyword where
  | addToMemory
  | subtractFromMemory
  | recallMemory
  | clearMemory
  | root
  | toRadians
  | toDegrees
  | help
  | quit
deriving Repr, DecidableEq

namespace Keyword

/-- Every command word. -/
def all : List Keyword :=
  [addToMemory, subtractFromMemory, recallMemory, clearMemory, root, toRadians, toDegrees, help,
    quit]

/-- How the word is written, in small letters. -/
def spellings : Keyword → List String
  | addToMemory => ["m+"]
  | subtractFromMemory => ["m-"]
  | recallMemory => ["mr"]
  | clearMemory => ["mc"]
  | root => ["root"]
  | toRadians => ["rad"]
  | toDegrees => ["deg"]
  | help => ["help", "?"]
  | quit => ["quit", "exit"]

/-- The command word that a word is, in any letter case. -/
def ofWord? (word : List Char) : Option Keyword :=
  all.find? fun k => k.spellings.any fun spelling => spelling.toList == word.flatMap Text.lowercase

/-- The word and the arguments that go with it. -/
def usage : Keyword → String
  | addToMemory => "m+ EXPR"
  | subtractFromMemory => "m- EXPR"
  | recallMemory => "mr"
  | clearMemory => "mc"
  | root => "root X N"
  | toRadians => "rad EXPR"
  | toDegrees => "deg EXPR"
  | help => "help"
  | quit => "quit"

end Keyword

/-! ## Commands -/

/-- What a line asks for. Arguments are texts that have not been read yet. -/
inductive Command where
  | evaluate (expression : String)
  | addToMemory (expression : String)
  | subtractFromMemory (expression : String)
  | recallMemory
  | clearMemory
  | root (radicand degree : String)
  | toRadians (expression : String)
  | toDegrees (expression : String)
  | help
  | quit
deriving Repr, DecidableEq

namespace Keyword

/-- Gives a command the argument that it needs. -/
def withArgument (k : Keyword) (command : String → Command) (argument : List Char) :
    Except Keyword Command :=
  if argument = [] then .error k else .ok (command (String.ofList argument))

/-- A command that has no argument. -/
def withoutArgument (k : Keyword) (command : Command) (argument : List Char) :
    Except Keyword Command :=
  if argument = [] then .ok command else .error k

/-- The command of a word with the rest of its line, which has no blanks around it. The word itself
is the error if the rest does not fit it. -/
def command (k : Keyword) (argument : List Char) : Except Keyword Command :=
  match k with
  | addToMemory => k.withArgument .addToMemory argument
  | subtractFromMemory => k.withArgument .subtractFromMemory argument
  | recallMemory => k.withoutArgument .recallMemory argument
  | clearMemory => k.withoutArgument .clearMemory argument
  | root =>
    match Text.words argument with
    | [radicand, degree] => .ok (.root (String.ofList radicand) (String.ofList degree))
    | _ => .error k
  | toRadians => k.withArgument .toRadians argument
  | toDegrees => k.withArgument .toDegrees argument
  | help => k.withoutArgument .help argument
  | quit => k.withoutArgument .quit argument

end Keyword

namespace Command

/-- The command of a line without blanks around it. -/
def ofTrimmed (line : List Char) : Except Keyword Command :=
  match Keyword.ofWord? (Text.firstWord line) with
  | some k => k.command (Text.trim (Text.afterFirstWord line))
  | none => .ok (.evaluate (String.ofList line))

/-- The command of a line, none for a line of blanks, or the command word with wrong arguments. -/
def ofLine (line : String) : Except Keyword (Option Command) :=
  let trimmed := Text.trim line.toList
  if trimmed = [] then .ok none else (ofTrimmed trimmed).map some

end Command

/-! ## Memory -/

/-- The memory register. -/
structure Memory where
  value : Float := 0.0
deriving Repr, DecidableEq

namespace Memory

/-- The memory with `x` added. -/
def add (m : Memory) (x : Float) : Memory := ⟨m.value + x⟩

/-- The memory with `x` subtracted. -/
def subtract (m : Memory) (x : Float) : Memory := ⟨m.value - x⟩

/-- The memory at its start. -/
def cleared : Memory := {}

end Memory

/-! ## Answers -/

/-- What a command has led to. -/
inductive Outcome where
  | value (x : Float)
  /-- The memory after a memory command. -/
  | memory (x : Float)
  | memoryCleared
  | help
  | quit
deriving Repr, DecidableEq

/-- Why a line has no outcome. -/
inductive Refusal where
  | failure (f : Failure)
  /-- The arguments do not fit the command word. -/
  | usage (k : Keyword)
deriving Repr, DecidableEq

namespace Refusal

/-- The refusal in one line. -/
def message : Refusal → String
  | failure f => f.message
  | usage k => "usage: " ++ k.usage

end Refusal

/-- The answer to a line: an outcome, nothing for a blank line, or a refusal. -/
abbrev Answer := Except Refusal (Option Outcome)

/-- The limits for expressions, and the memory. -/
structure Session where
  limits : Limits := {}
  memory : Memory := {}
deriving Repr, DecidableEq

namespace Session

/-- The value of an expression in this session. -/
def value (s : Session) (expression : String) : Except Failure Float := evaluate s.limits expression

/-- The session with another memory, and that memory as outcome. -/
def remember (s : Session) (m : Memory) : Outcome × Session :=
  (.memory m.value, { s with memory := m })

/-- Runs a command. The first part of the result is its outcome. -/
def execute (s : Session) : Command → Except Failure (Outcome × Session)
  | .evaluate expression => do
    let x ← s.value expression
    return (.value x, s)
  | .addToMemory expression => do
    let x ← s.value expression
    return s.remember (s.memory.add x)
  | .subtractFromMemory expression => do
    let x ← s.value expression
    return s.remember (s.memory.subtract x)
  | .recallMemory => return s.remember s.memory
  | .clearMemory => return (.memoryCleared, { s with memory := .cleared })
  | .root radicand degree => do
    let x ← s.value radicand
    let n ← s.value degree
    let y ← nthRoot x n
    return (.value y, s)
  | .toRadians expression => do
    let x ← s.value expression
    return (.value (DeskCalculator.toRadians x), s)
  | .toDegrees expression => do
    let x ← s.value expression
    return (.value (DeskCalculator.toDegrees x), s)
  | .help => return (.help, s)
  | .quit => return (.quit, s)

/-- Answers a line. -/
def step (s : Session) (line : String) : Answer × Session :=
  match Command.ofLine line with
  | .error k => (.error (.usage k), s)
  | .ok none => (.ok none, s)
  | .ok (some command) =>
    match s.execute command with
    | .error f => (.error (.failure f), s)
    | .ok (outcome, next) => (.ok (some outcome), next)

/-- Answers lines, one after the other. Each answer comes with the session after it. -/
def run (s : Session) : List String → List (Answer × Session)
  | [] => []
  | line :: rest => s.step line :: (s.step line).2.run rest

end Session

/-! ## The transcript -/

/-- What `help` shows. -/
def helpText : String :=
  "Enter an expression to evaluate it, e.g. 2+3*4, sin(45)+cos(30), 2^3+log(100).\n" ++
  "Functions (angles in degrees): sin cos tan log ln sqrt exp\n" ++
  "Operators: + - * / ^ and parentheses\n" ++
  "\n" ++
  "Commands:\n" ++
  "  m+ EXPR     add the value of EXPR to memory\n" ++
  "  m- EXPR     subtract the value of EXPR from memory\n" ++
  "  mr          recall memory\n" ++
  "  mc          clear memory\n" ++
  "  root X N    N-th root of X\n" ++
  "  rad EXPR    convert degrees to radians\n" ++
  "  deg EXPR    convert radians to degrees\n" ++
  "  help        show this text\n" ++
  "  quit        leave the calculator"

/-- What a session shows first. -/
def greeting : String := "Scientific calculator. Type 'help' for commands, 'quit' to leave.\n"

/-- What stands in front of every line. -/
def prompt : String := "> "

namespace Failure

/-- What kind of failure it is, for the user. -/
def label (f : Failure) : String := if f.isDomain then "math error" else "error"

/-- The failure with its kind in front. -/
def report (f : Failure) : String := f.label ++ ": " ++ f.message

theorem report_of_isDomain {f : Failure} (h : f.isDomain) :
    f.report = "math error: " ++ f.message := by
  rw [report, label, if_pos h]
  rfl

theorem report_of_not_isDomain {f : Failure} (h : ¬ f.isDomain) :
    f.report = "error: " ++ f.message := by
  rw [report, label, if_neg h]
  rfl

end Failure

/-- The outcome as it is shown. Leaving the session shows nothing. -/
def Outcome.text : Outcome → String
  | value x => Decimal.plainText x ++ "\n"
  | memory x => "memory: " ++ Decimal.plainText x ++ "\n"
  | memoryCleared => "memory cleared\n"
  | help => helpText ++ "\n"
  | quit => ""

/-- The refusal as it is shown. -/
def Refusal.text : Refusal → String
  | failure f => f.report ++ "\n"
  | usage k => "error: " ++ (usage k).message ++ "\n"

namespace Answer

/-- The answer as it is shown. -/
def text : Answer → String
  | .ok (some outcome) => outcome.text
  | .ok none => ""
  | .error refusal => refusal.text

/-- The session ends with this answer. -/
def quits (a : Answer) : Bool :=
  match a with
  | .ok (some .quit) => true
  | _ => false

end Answer

/-- Cuts a text into lines. What follows the last line feed is a line if it is not empty. -/
def linesOf : List Char → List (List Char)
  | [] => []
  | c :: rest =>
    if c = '\n' then
      [] :: linesOf rest
    else
      match linesOf rest with
      | [] => [[c]]
      | line :: lines => (c :: line) :: lines

namespace Session

/-- What is shown for a line, and the session that goes on. No session goes on after a line that
ends it. -/
def reply (s : Session) (line : String) : String × Option Session :=
  let (answer, next) := s.step line
  (answer.text, if answer.quits then none else some next)

theorem reply_of_quits {s : Session} {line : String} (h : (s.step line).1.quits) :
    s.reply line = ((s.step line).1.text, none) := by
  simp [reply, h]

theorem reply_of_not_quits {s : Session} {line : String} (h : ¬ (s.step line).1.quits) :
    s.reply line = ((s.step line).1.text, some (s.step line).2) := by
  simp [reply, h]

/-- The prompts and answers for the given lines, up to the first one that ends the session. -/
def converse (s : Session) : List String → String
  | [] => prompt
  | line :: rest =>
    match s.reply line with
    | (shown, none) => prompt ++ shown
    | (shown, some next) => prompt ++ shown ++ next.converse rest

/-- All that a session shows for an input. -/
def transcript (s : Session) (input : String) : String :=
  greeting ++ s.converse ((linesOf input.toList).map String.ofList)

end Session

end DeskCalculator
