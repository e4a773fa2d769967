import SharedExpr.Code.Instruction

/-! A function in code, and its text. -/
namespace SharedExpr

structure Program where
  name : String
  returns : ReturnType
  params : List String
  /-- The loads of parameters. -/
  prologue : List Instruction
  /-- An instruction for each operator node. -/
  body : List Instruction
  /-- The results and the return. -/
  epilogue : List Instruction
  deriving DecidableEq

namespace Program

def instructions (p : Program) : List Instruction :=
  p.prologue ++ p.body ++ p.epilogue

def intrinsics : List (String × Nat) :=
  [("pow", 2), ("log", 1), ("exp", 1), ("sin", 1), ("cos", 1)]

def declaration (name : String) (arity : Nat) : String :=
  let args := ", ".intercalate (.replicate arity "double")
  s!"declare double @llvm.{name}.f64({args})"

def lines (p : Program) : List String :=
  let params := ", ".intercalate p.params
  intrinsics.map (fun f => declaration f.1 f.2) ++
    ["", s!"define {p.returns.text} @{p.name}({params}) \x7b", "entry:"] ++
    p.instructions.map (fun i => "  " ++ i.text) ++
    ["\x7d"]

/-- The text of the function with the declarations it may need. -/
def text (p : Program) : String :=
  String.join (p.lines.map (· ++ "\n"))

end Program

end SharedExpr
