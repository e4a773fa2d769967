import SharedExpr.Code.Program
import SharedExpr.Double.Basic

/-! Statistics of the body of a function: how often each instruction occurs, and how far it is from
the definition of a register to its uses. -/
namespace SharedExpr

/-- The reads of a body, by the distance to the definition of what is read. -/
structure Reads where
  /-- At most two instructions. -/
  hot : Nat
  /-- Three to thirty-two instructions. -/
  warm : Nat
  /-- More than that. -/
  cold : Nat
  /-- Reads of what the body does not define before. -/
  inputs : Nat
  /-- The sum of all distances. -/
  distance : Nat
  deriving DecidableEq

namespace Reads

def none : Reads :=
  ⟨0, 0, 0, 0, 0⟩

def measured (r : Reads) : Nat :=
  r.hot + r.warm + r.cold

def far (r : Reads) (n : Nat) : Reads :=
  let r := { r with distance := r.distance + n }
  if n ≤ 2 then { r with hot := r.hot + 1 }
  else if n ≤ 32 then { r with warm := r.warm + 1 }
  else { r with cold := r.cold + 1 }

/-- Counts a read by the instruction at `i`, where registers were defined last at the given
places. -/
def add (defined : Std.HashMap String Nat) (i : Nat) (r : Reads) (operand : String) : Reads :=
  match defined[operand]? with
  | some j => r.far (i - j)
  | .none => { r with inputs := r.inputs + 1 }

def run (defined : Std.HashMap String Nat) (i : Nat) (r : Reads) : List Instruction → Reads
  | [] => r
  | instruction :: rest =>
    let r := instruction.reads.foldl (add defined i) r
    let defined :=
      match instruction.dest? with
      | some dest => defined.insert dest i
      | .none => defined
    run defined (i + 1) r rest

def ofBody (body : List Instruction) : Reads :=
  run ∅ 0 none body

def meanDistance (r : Reads) : Double :=
  if r.measured = 0 then .zero
  else Scalar.binary .div (Double.ofNat r.distance) (Double.ofNat r.measured)

end Reads

/-- One more in a table that is sorted by its keys. -/
def tally : List (String × Nat) → String → List (String × Nat)
  | [], key => [(key, 1)]
  | (k, n) :: rest, key =>
    if key = k then (k, n + 1) :: rest
    else if key < k then (key, 1) :: (k, n) :: rest
    else (k, n) :: tally rest key

structure Statistics where
  size : Nat
  /-- How often each mnemonic occurs in the body, by mnemonic. -/
  counts : List (String × Nat)
  reads : Reads

namespace Statistics

def count (s : Statistics) (mnemonic : String) : Nat :=
  (s.counts.lookup mnemonic).getD 0

end Statistics

def Program.statistics (p : Program) : Statistics where
  size := p.body.length
  counts := (p.body.map Instruction.mnemonic).foldl tally []
  reads := .ofBody p.body

end SharedExpr
