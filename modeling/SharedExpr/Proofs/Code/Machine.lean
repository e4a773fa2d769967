import SharedExpr.Code.Program

/-! A machine that carries out the instructions of a function one after the other. -/
namespace SharedExpr

class ReadableText (α : Type) extends ScalarText α where
  read? : String → Option α
  read?_constant : ∀ value : α, read? (constant value) = some value
  read?_register : ∀ text : String, text.toList.head? = some '%' → read? text = none

/-- What a register can hold. Members of an aggregate that were not set are undefined. -/
inductive Value (α : Type) where
  | number (value : α)
  | pointer (address : Nat)
  | aggregate (members : List (Option α))

inductive Answer (α : Type) where
  | void
  | number (value : α)
  | aggregate (members : List α)

/-- The registers that are defined, by their texts, and the memory, by word. -/
structure Machine (α : Type) where
  registers : String → Option (Value α)
  memory : Nat → α
  /-- The addresses stored to, in order. -/
  stores : List Nat

/-- What a call comes to: the answer, and the memory in the end with the addresses stored to. -/
structure Completion (α : Type) where
  answer : Answer α
  memory : Nat → α
  stores : List Nat

/-- The operator of a mnemonic. -/
def arithmetic? : String → Option Binary
  | "fadd" => some .add
  | "fsub" => some .sub
  | "fmul" => some .mul
  | "fdiv" => some .div
  | _ => none

def intrinsic? {α : Type} [Scalar α] : String → List α → Option α
  | "exp", [x] => some (Scalar.unary .exp x)
  | "log", [x] => some (Scalar.unary .log x)
  | "sin", [x] => some (Scalar.unary .sin x)
  | "cos", [x] => some (Scalar.unary .cos x)
  | "pow", [x, y] => some (Scalar.binary .pow x y)
  | _, _ => none

namespace Machine

variable {α : Type} [Scalar α] [ReadableText α]

def define (m : Machine α) (register : String) (value : Value α) : Machine α :=
  { m with registers := fun r => if r = register then some value else m.registers r }

def store (m : Machine α) (address : Nat) (value : α) : Machine α :=
  { m with
    memory := fun a => if a = address then value else m.memory a
    stores := m.stores ++ [address] }

/-- The number that an operand stands for: a constant, or what a register holds. -/
def operand? (m : Machine α) (text : String) : Option α :=
  match ReadableText.read? text with
  | some value => some value
  | none =>
    match m.registers text with
    | some (.number value) => some value
    | _ => none

def pointer? (m : Machine α) (register : String) : Option Nat :=
  match m.registers register with
  | some (.pointer address) => some address
  | _ => none

/-- The members of an aggregate of a given width, all of them undefined to start with. -/
def members? (m : Machine α) (width : Nat) : Option String → Option (List (Option α))
  | none => some (List.replicate width none)
  | some register =>
    match m.registers register with
    | some (.aggregate members) => if members.length = width then some members else none
    | _ => none

/-- Carries out an instruction. It fails at a register that is not defined or holds something
else. -/
def execute (m : Machine α) : Instruction → Option (Machine α)
  | .arith dest mnemonic lhs rhs => do
    let op ← arithmetic? mnemonic
    let x ← m.operand? lhs
    let y ← m.operand? rhs
    return m.define dest (.number (Scalar.binary op x y))
  | .neg dest operand => do
    let x ← m.operand? operand
    return m.define dest (.number (Scalar.unary .neg x))
  | .call dest intrinsic args => do
    let xs ← args.mapM m.operand?
    let value ← intrinsic? intrinsic xs
    return m.define dest (.number value)
  | .elementPtr dest base index => do
    let address ← m.pointer? base
    return m.define dest (.pointer (address + index))
  | .load dest ptr => do
    let address ← m.pointer? ptr
    return m.define dest (.number (m.memory address))
  | .store value ptr => do
    let x ← m.operand? value
    let address ← m.pointer? ptr
    return m.store address x
  | .insertValue dest width aggregate value index => do
    let members ← m.members? width aggregate
    let x ← m.operand? value
    if index < width then return m.define dest (.aggregate (members.set index (some x)))
    else failure
  | .ret .. => none

/-- What a return hands back. All members of an aggregate have to be defined. -/
def answer? (m : Machine α) : ReturnType → Option String → Option (Answer α)
  | .void, none => some .void
  | .double, some text => (m.operand? text).map .number
  | .aggregate width, some register => do
    let members ← m.members? width (some register)
    return .aggregate (← members.mapM id)
  | _, _ => none

/-- Carries out instructions up to the return, which is the last and of the declared type. -/
def run (returns : ReturnType) : List Instruction → Machine α → Option (Completion α)
  | [], _ => none
  | [.ret type value], m =>
    if type = returns then (m.answer? type value).map (⟨·, m.memory, m.stores⟩) else none
  | instruction :: rest, m => (m.execute instruction).bind (run returns rest)

end Machine

def Value.keyword {α : Type} : Value α → String
  | number _ => "double"
  | pointer _ => "ptr"
  | aggregate members => aggregateType members.length

/-- The registers of a function that is called: each entry of the parameter list names one, after
the keyword of its argument and a blank. -/
def parameters? {α : Type} : List String → List (Value α) → Option (String → Option (Value α))
  | [], [] => some fun _ => none
  | entry :: entries, value :: values => do
    let start := (value.keyword ++ " ").toList
    let registers ← parameters? entries values
    if entry.toList.take start.length = start then
      let name := String.ofList (entry.toList.drop start.length)
      return fun r => if r = name then some value else registers r
    else failure
  | _, _ => none

def Program.call {α : Type} [Scalar α] [ReadableText α] (p : Program) (args : List (Value α))
    (memory : Nat → α) : Option (Completion α) :=
  (parameters? p.params args).bind fun registers =>
    Machine.run p.returns p.instructions ⟨registers, memory, []⟩

/-- The register that an entry of a parameter list names, after its keyword and a blank. -/
def parameterName (entry : String) : String :=
  String.ofList ((entry.toList.dropWhile (· ≠ ' ')).drop 1)

/-- Every register that is read is named by the parameter list or defined by an earlier
instruction. -/
def Program.ReadsDefined (p : Program) : Prop :=
  ∀ done instruction rest, p.instructions = done ++ instruction :: rest →
    ∀ text ∈ instruction.reads, text.toList.head? = some '%' →
      text ∈ p.params.map parameterName ++ done.filterMap Instruction.dest?

end SharedExpr
