import ArrayKernel.Ast.Session

/-! # Kinds and wider kinds -/

namespace ArrayKernel.Ast

def Form.widerKinds : Form → List String
  | .vectorStore .. | .vectorBinop .. => ["BinopNode", "BinaryOperationNode", "ExprNode", "Node"]
  | .assign .. | .binop .. | .index .. => ["BinaryOperationNode", "ExprNode", "Node"]
  | .promotion _ | .unop .. | .cast _ | .dereference _ | .vectorLoad .. =>
    ["SingleOperandNode", "ExprNode", "Node"]
  | .var v =>
    match v.role with
    | .plain => ["ExprNode", "Node"]
    | .dataPointer _ | .stridePointer _ => ["ArrayAttribute", "Variable", "ExprNode", "Node"]
    | .element _ | .temporary _ | .register _ => ["Variable", "ExprNode", "Node"]
  | .jumpTarget _ => ["JumpNode", "Node"]
  | f => if f.isExpression then ["ExprNode", "Node"] else ["Node"]

def Form.kinds (f : Form) : List String := f.kindName :: f.widerKinds

def kindsOf : Operand → Action (List String)
  | .node id => return (← node id).form.kinds
  | .group _ => return ["list", "object"]
  | .datum (.bool _) => return ["bool", "int", "object"]
  | .datum d => return [d.kindWord, "object"]

def Form.isBinaryOperation (f : Form) : Bool := f.kinds.contains "BinaryOperationNode"

end ArrayKernel.Ast
