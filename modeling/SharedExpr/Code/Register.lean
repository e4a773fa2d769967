import SharedExpr.Dag.Basic

/-! The names of registers in code. -/
namespace SharedExpr

inductive Register where
  /-- The value of a variable. -/
  | value (name : String)
  /-- Where a variable stands in the input buffer. -/
  | address (name : String)
  /-- The result of an operator node. -/
  | result (node : NodeId)
  /-- Where a result goes in the output buffer. -/
  | slot (i : Nat)
  /-- An aggregate filled up to a member. -/
  | aggregate (i : Nat)
  | input
  | output
  deriving DecidableEq

namespace Register

def isBare (c : Char) : Bool :=
  c.isAlphanum || c == '_' || c == '.' || c == '$'

/-- A backslash or a quote by its code, any other character as it is. -/
def escape (c : Char) : List Char :=
  if c = '\\' then ['\\', '5', 'C'] else if c = '"' then ['\\', '2', '2'] else [c]

def quote (name : String) : String :=
  if name.toList.all isBare then "%" ++ name
  else "%\"" ++ String.ofList (name.toList.flatMap escape) ++ "\""

/-- The text of a register. No variable name leads into the registers of results, slots and
buffers, whose names begin with an underscore. -/
def text : Register → String
  | value name => quote ("v." ++ name)
  | address name => quote ("p." ++ name)
  | result node => s!"%_{node}"
  | slot i => s!"%_out{i}"
  | aggregate i => s!"%_agg{i}"
  | input => "%_input"
  | output => "%_output"

end Register

end SharedExpr
