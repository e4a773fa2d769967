import SharedExpr.Dag.Basic

/-! The ways in which an operation on a graph can fail, and their texts. -/
namespace SharedExpr

/-- Uses of the library that it does not support, whatever the numbers. -/
inductive Misuse where
  /-- The number names no node of the graph. -/
  | foreign (node : NodeId)
  /-- A gradient needs one partial derivative for each of its variables. -/
  | partialsCount (partials vars : Nat)
  | notVariable (node : NodeId)
  | alreadyGradient (root : NodeId)
  | containsGradient (root : NodeId)
  | gradientDerivative (node : NodeId)
  | leafDerivative (node : NodeId)
  | notBinary (node : NodeId)
  | noAdjoint
  | notEvaluated (node : NodeId)
  | notGradient (node : NodeId)
  | unboundParameter (name : String)
  | notLowered (node : NodeId)
  | gradientValue (node : NodeId)
  /-- The text could not be written out. -/
  | sink (reason : String)
  | other (text : String)
  deriving DecidableEq

inductive Fault where
  | unboundVariable (name : String)
  /-- The values do not pair up with the free variables. -/
  | valueCount (expected actual : Nat)
  | unsupportedDerivative (node : NodeId) (reason : String)
  | misuse (cause : Misuse)
  deriving DecidableEq

inductive Fault.Category where
  | data | misuse
  deriving DecidableEq

def describe (node : NodeId) : String :=
  s!"NodeId({node})"

def Misuse.message : Misuse → String
  | .foreign node => s!"node {describe node} does not belong to this graph"
  | .partialsCount partials vars => s!"gradient has {partials} partials but {vars} variables"
  | .notVariable node => s!"node {describe node} is not a variable"
  | .alreadyGradient root => s!"node {describe root} is already a gradient bundle"
  | .containsGradient root => s!"the expression under {describe root} contains a gradient bundle"
  | .gradientDerivative node =>
    s!"node {describe node} is a gradient bundle and cannot be differentiated"
  | .leafDerivative node => s!"leaf node {describe node} has no operands"
  | .notBinary node => s!"node {describe node} is not a binary operation"
  | .noAdjoint => "adjoint accumulation ended without a value"
  | .notEvaluated node => s!"node {describe node} was not evaluated before its consumer"
  | .notGradient node => s!"node {describe node} is not a gradient"
  | .unboundParameter name => s!"variable '{name}' has no parameter binding"
  | .notLowered node => s!"node {describe node} was not lowered before its consumer"
  | .gradientValue node =>
    s!"gradient {describe node} has no single value and can only be emitted as the root"
  | .sink reason => s!"failed to write IR: {reason}"
  | .other text => text

namespace Fault

def message : Fault → String
  | unboundVariable name => s!"Unbound variable '{name}'"
  | valueCount expected actual =>
    s!"Expected {expected} values for the free variables, got {actual}"
  | unsupportedDerivative node reason =>
    s!"Unsupported derivative at node {describe node}: {reason}"
  | misuse cause => s!"Misuse: {cause.message}"

def category : Fault → Category
  | misuse _ => .misuse
  | _ => .data

def foreign (node : NodeId) : Fault :=
  misuse (.foreign node)

end Fault

def Dag.check {α : Type} [Scalar α] (d : Dag α) (node : NodeId) : Except Fault Unit :=
  if d.contains node then .ok () else .error (.foreign node)

end SharedExpr
