import SharedExpr.Code.Program

/-! Reading of functions from their texts. -/
namespace SharedExpr

/-- Splits characters at breaks. What stands in quotes is not split. -/
def fields (isBreak : Char → Bool) : Bool → List Char → List (List Char)
  | _, [] => [[]]
  | quoted, c :: cs =>
    if !quoted && isBreak c then [] :: fields isBreak false cs
    else (fields isBreak (quoted != (c == '"')) cs).modifyHead (c :: ·)

def isLineEnd (c : Char) : Bool :=
  c == '\n'

def isWordEnd (c : Char) : Bool :=
  c == ' ' || c == ',' || c == '(' || c == ')' || isLineEnd c

def splitLines (text : List Char) : List (List Char) :=
  fields isLineEnd false text

/-- The words of a line. Between breaks next to each other there is an empty word. -/
def splitWords (line : List Char) : List String :=
  (fields isWordEnd false line).map String.ofList

namespace Program

def readNumber (word : String) : Nat :=
  Nat.ofDigitChars 10 word.toList 0

def readType? : List String → Option (ReturnType × List String)
  | "void" :: rest => some (.void, rest)
  | "double" :: rest => some (.double, rest)
  | "\x7b" :: rest =>
    let members := rest.takeWhile (· ≠ "\x7d")
    some (.aggregate (members.count "double"), (rest.drop members.length).drop 1)
  | _ => none

def readTyped : List String → List (String × String)
  | type :: value :: "" :: rest => (type, value) :: readTyped rest
  | _ => []

def readIntrinsic? (word : String) : Option String :=
  (intrinsics.map Prod.fst).find? fun name => word = "@llvm." ++ name ++ ".f64"

def readReturn? (words : List String) : Option Instruction :=
  match readType? words with
  | some (.void, _) => some (.ret .void none)
  | some (type, [value]) => some (.ret type (some value))
  | _ => none

/-- The definition of a register, from its mnemonic on. -/
def readDefinition? (dest mnemonic : String) (operands : List String) : Option Instruction :=
  if mnemonic = "fneg" then
    match operands with
    | [_, operand] => some (.neg dest operand)
    | _ => none
  else if mnemonic = "call" then
    match operands with
    | _ :: function :: args =>
      (readIntrinsic? function).map (.call dest · ((readTyped args).map Prod.snd))
    | _ => none
  else if mnemonic = "getelementptr" then
    match operands with
    | [_, _, _, base, _, _, index] => some (.elementPtr dest base (readNumber index))
    | _ => none
  else if mnemonic = "load" then
    match operands with
    | [_, _, _, ptr] => some (.load dest ptr)
    | _ => none
  else if mnemonic = "insertvalue" then
    match readType? operands with
    | some (.aggregate width, [start, _, _, value, _, index]) =>
      let aggregate := if start = "undef" then none else some start
      some (.insertValue dest width aggregate value (readNumber index))
    | _ => none
  else
    match operands with
    | [_, lhs, _, rhs] => some (.arith dest mnemonic lhs rhs)
    | _ => none

def readInstruction? : List String → Option Instruction
  | _ :: _ :: first :: rest =>
    if first = "store" then
      match rest with
      | [_, value, _, _, ptr] => some (.store value ptr)
      | _ => none
    else if first = "ret" then readReturn? rest
    else
      match rest with
      | _ :: mnemonic :: operands => readDefinition? first mnemonic operands
      | _ => none
  | _ => none

def loads : Instruction → Bool
  | .elementPtr _ base _ => base = Register.input.text
  | .load .. => true
  | _ => false

def computes : Instruction → Bool
  | .arith .. | .neg .. | .call .. => true
  | _ => false

/-- Reads a function from its text, in which there are declarations in front of it. -/
def read? (text : String) : Option Program := do
  match (splitLines text.toList).drop (intrinsics.length + 1) with
  | heading :: _ :: body =>
    let (returns, rest) ← readType? ((splitWords heading).drop 1)
    let (name, params) ← rest.head?.map (·, readTyped (rest.drop 1))
    let instructions ← (body.take (body.length - 2)).mapM (readInstruction? ∘ splitWords)
    let prologue := instructions.takeWhile loads
    let rest := instructions.dropWhile loads
    return {
      name := String.ofList (name.toList.drop 1)
      returns
      params := params.map fun (type, value) => type ++ " " ++ value
      prologue
      body := rest.takeWhile computes
      epilogue := rest.dropWhile computes }
  | _ => none

end Program

end SharedExpr
