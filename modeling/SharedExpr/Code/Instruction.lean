import SharedExpr.Code.Register

/-! Instructions, each of which defines at most one register, and their texts. -/
namespace SharedExpr

inductive ReturnType where
  | void
  | double
  /-- As many doubles, be it a single one. -/
  | aggregate (width : Nat)
  deriving DecidableEq

def aggregateType (width : Nat) : String :=
  "\x7b " ++ ", ".intercalate (.replicate width "double") ++ " \x7d"

def ReturnType.text : ReturnType → String
  | void => "void"
  | double => "double"
  | aggregate width => aggregateType width

/-- A line of a function. Operands are texts, of a register or of a constant. -/
inductive Instruction where
  | arith (dest mnemonic lhs rhs : String)
  | neg (dest operand : String)
  /-- A call of the intrinsic function of that name. -/
  | call (dest intrinsic : String) (args : List String)
  | elementPtr (dest base : String) (index : Nat)
  | load (dest ptr : String)
  | store (value ptr : String)
  /-- An aggregate with one member set; without one to start from, the others are undefined. -/
  | insertValue (dest : String) (width : Nat) (aggregate : Option String) (value : String)
    (index : Nat)
  | ret (type : ReturnType) (value : Option String)
  deriving DecidableEq

namespace Instruction

def mnemonic : Instruction → String
  | arith _ mnemonic _ _ => mnemonic
  | neg .. => "fneg"
  | call .. => "call"
  | elementPtr .. => "getelementptr"
  | load .. => "load"
  | store .. => "store"
  | insertValue .. => "insertvalue"
  | ret .. => "ret"

def dest? : Instruction → Option String
  | arith dest .. | neg dest _ | call dest .. | elementPtr dest .. | load dest _
  | insertValue dest .. => some dest
  | store .. | ret .. => none

def reads : Instruction → List String
  | arith _ _ lhs rhs => [lhs, rhs]
  | neg _ operand => [operand]
  | call _ _ args => args
  | elementPtr _ base _ => [base]
  | load _ ptr => [ptr]
  | store value ptr => [value, ptr]
  | insertValue _ _ aggregate value _ => aggregate.toList ++ [value]
  | ret _ value => value.toList

def text : Instruction → String
  | arith dest mnemonic lhs rhs => s!"{dest} = {mnemonic} double {lhs}, {rhs}"
  | neg dest operand => s!"{dest} = fneg double {operand}"
  | call dest intrinsic args =>
    let args := ", ".intercalate (args.map ("double " ++ ·))
    s!"{dest} = call double @llvm.{intrinsic}.f64({args})"
  | elementPtr dest base index => s!"{dest} = getelementptr double, ptr {base}, i64 {index}"
  | load dest ptr => s!"{dest} = load double, ptr {ptr}"
  | store value ptr => s!"store double {value}, ptr {ptr}"
  | insertValue dest width aggregate value index =>
    let type := aggregateType width
    let start := aggregate.getD "undef"
    s!"{dest} = insertvalue {type} {start}, double {value}, {index}"
  | ret type (some value) => s!"ret {type.text} {value}"
  | ret _ none => "ret void"

end Instruction

def Unary.instruction (op : Unary) (dest x : String) : Instruction :=
  match op with
  | .neg => .neg dest x
  | _ => .call dest op.name [x]

def Binary.instruction (op : Binary) (dest x y : String) : Instruction :=
  match op with
  | .add => .arith dest "fadd" x y
  | .sub => .arith dest "fsub" x y
  | .mul => .arith dest "fmul" x y
  | .div => .arith dest "fdiv" x y
  | .pow => .call dest "pow" [x, y]

end SharedExpr
