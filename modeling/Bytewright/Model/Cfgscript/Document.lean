import Bytewright.Model.Cfgscript.Evaluator

/-! The document driver: statements into an evaluated tree. -/

namespace Bytewright.Cfgscript

open Bytewright.Common

/-- A node of the evaluated configuration. An include path is data only. -/
inductive Node where
  | assignment (path : List Bytes) (value : Value)
  | block (name : Bytes) (label : Option Bytes) (children : List Node)
  | include (path : Bytes)
  deriving Repr

structure Document where
  nodes : List Node := []
  deriving Repr

mutual

/-- The node of a statement, and the scopes behind it: an assignment binds the last component of its
path, a block has a scope of its own. -/
def buildNode (env : Environment) : ParsedStatement → Outcome (Node × Environment)
  | .assignment _ path expr => do
    let value ← evaluate env 1 expr
    let env := match path.getLast? with
      | some name => env.define name value
      | none => env
    return (.assignment path value, env)
  | .block _ name label children => do
    let (nodes, _) ← buildNodes ([] :: env) children
    return (.block name label nodes, env)
  | .include _ path => return (.include path, env)

def buildNodes (env : Environment) : List ParsedStatement → Outcome (List Node × Environment)
  | [] => return ([], env)
  | st :: stmts => do
    let (node, env) ← buildNode env st
    let (nodes, env) ← buildNodes env stmts
    return (node :: nodes, env)

end

def parse (data : Bytes) : Outcome Document := do
  let stmts ← parseSource data
  let (nodes, _) ← buildNodes [[]] stmts
  return { nodes }

end Bytewright.Cfgscript
