import DeskCalculator.Expr

/-!
# JSON

**Values** (`Json`). Numbers come in two kinds: a whole number is kept exactly, and a number with a
fraction or an exponent is a double. Objects keep their members in order.

**Writing numbers** (`Json.numberChars`). A double has the shortest digits that read back. It is
positional, with at least one digit after the point, when its leading digit has an exponent from -5
to 15; otherwise it has one digit before the point and a signed exponent. A double that is infinite
or undefined has no number and is written `null`.

**Layouts** (`Json.Layout`). A value is written on one line without blanks, or with every member and
item on a line of its own, two blanks further in than what holds it.

**Expressions** (`Expr.toJson`). Each node is an object with one member, named for the kind of node.

- A literal is its number. A literal that is infinite or undefined has no number; it is written
  `null`, which does not read back.
- An operation names its operator and both operands.
- A call names its function and argument, and its place if its value may have no sign.
- A negation holds its operand.

**Reading expressions** (`Expr.ofJson?`). The order of members and members of other names do not
matter inside an operation or a call, and a missing place is the same as the place `null`. An
operator or function is named by a string, or by an object with that name as its only key and `null`
in it.
-/

namespace DeskCalculator

/-! ## Values -/

/-- A JSON value. -/
inductive Json where
  | null
  | bool (b : Bool)
  | whole (n : Int)
  | number (x : Float)
  | string (s : String)
  | array (items : List Json)
  | object (members : List (String × Json))
deriving Repr

namespace Json

/-- The member of an object with a given key. -/
def member? (key : String) : Json → Option Json
  | object members => members.lookup key
  | _ => none

theorem sizeOf_lookup_lt {key : String} {members : List (String × Json)} {v : Json}
    (h : members.lookup key = some v) : sizeOf v < sizeOf members := by
  induction members with
  | nil => simp at h
  | cons m rest ih =>
    obtain ⟨k, w⟩ := m
    rw [List.lookup_cons] at h
    simp only [List.cons.sizeOf_spec, Prod.mk.sizeOf_spec]
    split at h
    · cases h
      omega
    · have := ih h
      omega

/-- A member of an object is smaller than the object. -/
theorem sizeOf_member?_lt {key : String} {j v : Json} (h : j.member? key = some v) :
    sizeOf v < sizeOf j := by
  cases j with
  | object members =>
    have := sizeOf_lookup_lt h
    simp only [object.sizeOf_spec]
    omega
  | null => simp [member?] at h
  | bool _ => simp [member?] at h
  | whole _ => simp [member?] at h
  | number _ => simp [member?] at h
  | string _ => simp [member?] at h
  | array _ => simp [member?] at h

/-! ## Writing numbers -/

/-- A decimal with one digit before its point and a signed exponent. -/
def scientific (d : Decimal) : List Char :=
  let fraction := match d.numerals with
    | leading :: [] => [leading]
    | leading :: others => leading :: '.' :: others
    | [] => []
  let power := d.leadingExponent
  fraction ++ 'e' :: (if power < 0 then '-' else '+') :: Nat.toDigits 10 power.natAbs

/-- A decimal as a number with a fraction. -/
def decimalChars (d : Decimal) : List Char :=
  if -5 ≤ d.leadingExponent ∧ d.leadingExponent < 16 then
    if 0 ≤ d.exponent then d.positional ++ ['.', '0'] else d.positional
  else
    scientific d

/-- A double as a number. Of two equally near decimals the one with an even last digit is written.
-/
def numberChars (x : Float) : List Char :=
  match Binary64.ofFloat x with
  | .nan | .infinite _ => "null".toList
  | .finite negative mantissa exponent =>
    Decimal.withSign negative (decimalChars (Decimal.shortest .even x.abs mantissa exponent))

example : numberChars 100.0 = "100.0".toList := by decide +kernel

example : numberChars (-0.0) = "-0.0".toList := by decide +kernel

example : numberChars 1e-5 = "0.00001".toList := by decide +kernel

example : numberChars 1e-6 = "1e-6".toList := by decide +kernel

example : numberChars 1.5e300 = "1.5e+300".toList := by decide +kernel

example : numberChars 2.98023223876953125e-8 = "2.9802322387695312e-8".toList := by decide +kernel

/-! ## Writing strings -/

/-- A hexadecimal digit, in small letters. -/
def hexDigit (n : Nat) : Char := Nat.digitChar (n % 16)

/-- A character as it stands in a string. Quotes, backslashes and control characters are escaped. -/
def escape (c : Char) : List Char :=
  if c = '"' then ['\\', '"']
  else if c = '\\' then ['\\', '\\']
  else if c = '\n' then ['\\', 'n']
  else if c = '\r' then ['\\', 'r']
  else if c = '\t' then ['\\', 't']
  else if c.toNat = 0x08 then ['\\', 'b']
  else if c.toNat = 0x0C then ['\\', 'f']
  else if c.toNat < 0x20 then
    ['\\', 'u', '0', '0', hexDigit (c.toNat / 16), hexDigit c.toNat]
  else [c]

/-- A string in quotes. -/
def quote (s : String) : List Char := '"' :: (s.toList.flatMap escape ++ ['"'])

/-! ## Writing values -/

/-- How a value is spread over lines. -/
inductive Layout where
  | compact
  | indented
deriving Repr, DecidableEq

namespace Layout

/-- What stands between a bracket or comma and an item that is `depth` levels in. -/
def lineBreak (depth : Nat) : Layout → List Char
  | compact => []
  | indented => '\n' :: List.replicate (2 * depth) ' '

/-- What stands between a key and its value. -/
def colon : Layout → List Char
  | compact => [':']
  | indented => [':', ' ']

end Layout

mutual

/-- The text of a value `depth` levels in, followed by the text `rest`. -/
def writeBefore (layout : Layout) (depth : Nat) (rest : List Char) : Json → List Char
  | null => "null".toList ++ rest
  | bool true => "true".toList ++ rest
  | bool false => "false".toList ++ rest
  | whole n => (toString n).toList ++ rest
  | number x => numberChars x ++ rest
  | string s => quote s ++ rest
  | array [] => '[' :: ']' :: rest
  | array (item :: items) =>
    '[' :: (layout.lineBreak (depth + 1) ++
      item.writeBefore layout (depth + 1)
        (writeItemsBefore layout depth (layout.lineBreak depth ++ ']' :: rest) items))
  | object [] => '{' :: '}' :: rest
  | object ((key, v) :: members) =>
    '{' :: (layout.lineBreak (depth + 1) ++ quote key ++ layout.colon ++
      v.writeBefore layout (depth + 1)
        (writeMembersBefore layout depth (layout.lineBreak depth ++ '}' :: rest) members))

/-- The text of the items after the first one. -/
def writeItemsBefore (layout : Layout) (depth : Nat) (rest : List Char) : List Json → List Char
  | [] => rest
  | item :: items =>
    ',' :: (layout.lineBreak (depth + 1) ++
      item.writeBefore layout (depth + 1) (writeItemsBefore layout depth rest items))

/-- The text of the members after the first one. -/
def writeMembersBefore (layout : Layout) (depth : Nat) (rest : List Char) :
    List (String × Json) → List Char
  | [] => rest
  | (key, v) :: members =>
    ',' :: (layout.lineBreak (depth + 1) ++ quote key ++ layout.colon ++
      v.writeBefore layout (depth + 1) (writeMembersBefore layout depth rest members))

end

/-- The text of a value. -/
def write (layout : Layout) (j : Json) : String := String.ofList (j.writeBefore layout 0 [])

end Json

/-! ## Expressions -/

/-- The operator's name. -/
def Operator.name : Operator → String
  | add => "Add"
  | subtract => "Sub"
  | multiply => "Mul"
  | divide => "Div"
  | power => "Pow"

/-- The operator of a given name. -/
def Operator.ofName? (name : String) : Option Operator := all.find? (·.name == name)

theorem Operator.ofName?_name (op : Operator) : ofName? op.name = some op := by
  cases op <;> decide

namespace Expr

/-! ## Writing expressions -/

/-- The number of a literal, if it has one. -/
def literalToJson (x : Float) : Json := if x.isFinite then .number x else .null

/-- The expression as a JSON value. -/
def toJson : Expr → Json
  | literal x => .object [("literal", literalToJson x)]
  | binary op left right =>
    .object [("binary",
      .object [("op", .string op.name), ("left", left.toJson), ("right", right.toJson)])]
  | call f argument none =>
    .object [("call", .object [("func", .string f.name), ("arg", argument.toJson)])]
  | call f argument (some place) =>
    .object [("call",
      .object [("func", .string f.name), ("arg", argument.toJson), ("unsigned_at", .whole place)])]
  | negation operand => .object [("neg", operand.toJson)]

/-! ## Reading expressions -/

/-- The number of a literal. -/
def literalOfJson? : Json → Option Float
  | .whole n => some (Float.ofInt n)
  | .number x => some x
  | _ => none

/-- The name of an operator or function. -/
def nameOfJson? : Json → Option String
  | .string name => some name
  | .object [(name, .null)] => some name
  | _ => none

/-- The place of a call, which may be missing. -/
def placeOfJson? : Option Json → Option (Option Nat)
  | none | some .null => some none
  | some (.whole (.ofNat place)) => some (some place)
  | some _ => none

/-- The operator of an operation's members. -/
def operatorOfJson? (content : Json) : Option Operator :=
  ((content.member? "op").bind nameOfJson?).bind Operator.ofName?

/-- The function of a call's members. -/
def functionOfJson? (content : Json) : Option Function :=
  ((content.member? "func").bind nameOfJson?).bind fun name => Function.ofName? name.toList

/-- The expression that a JSON value stands for. -/
def ofJson? : Json → Option Expr
  | .object [(kind, content)] =>
    if kind = "literal" then
      (literalOfJson? content).map literal
    else if kind = "binary" then
      match _hl : content.member? "left", _hr : content.member? "right" with
      | some left, some right => do
        let op ← operatorOfJson? content
        return binary op (← ofJson? left) (← ofJson? right)
      | _, _ => none
    else if kind = "call" then
      match _ha : content.member? "arg" with
      | some argument => do
        let f ← functionOfJson? content
        let place ← placeOfJson? (content.member? "unsigned_at")
        return call f (← ofJson? argument) place
      | none => none
    else if kind = "neg" then
      (ofJson? content).map negation
    else
      none
  | _ => none
termination_by j => sizeOf j
decreasing_by
  all_goals simp only [Json.object.sizeOf_spec, List.cons.sizeOf_spec, Prod.mk.sizeOf_spec]
  · have := Json.sizeOf_member?_lt _hl
    omega
  · have := Json.sizeOf_member?_lt _hr
    omega
  · have := Json.sizeOf_member?_lt _ha
    omega
  · omega

end Expr

end DeskCalculator
