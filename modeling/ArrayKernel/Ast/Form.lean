import ArrayKernel.Ast.Node

/-! # Children and names of forms -/

namespace ArrayKernel.Ast

namespace Form

def children : Form → List (String × Operand)
  | .function f => [("body", f.body), ("arguments", f.arguments), ("scalar_arguments", f.scalarArguments)]
  | .call c a _ => [("func_or_pointer", c), ("args", a)]
  | .yield o => [("operand", o)]
  | .raise p e m a => [("posinfo", p), ("exc_var", e), ("msg_val", m), ("fmt_args", a)]
  | .argument _ vs _ _ => [("variables", vs)]
  | .arrayArgument _ _ d s _ _ => [("data_pointer", d), ("strides_pointer", s)]
  | .print a => [("args", a)]
  | .iterate b => [("body", b)]
  | .loop l => [("init", l.start), ("condition", l.condition), ("step", l.step), ("body", l.body)]
  | .branch b => [("cond", b.condition), ("body", b.body), ("else_body", b.otherwise)]
  | .sequence s => [("stats", s)]
  | .statement e => [("expr", e)]
  | .prepared s e => [("stat", s), ("expr", e)]
  | .assign l r _ | .binop _ l r | .index l r | .vectorStore _ l r | .vectorBinop _ l r =>
    [("lhs", l), ("rhs", r)]
  | .promotion o | .unop _ o | .cast o | .dereference o | .vectorLoad o _ => [("operand", o)]
  | .conditional c l r => [("cond", c), ("lhs", l), ("rhs", r)]
  | .var v =>
    match v.role with
    | .element e => [("element", e)]
    | .register w => [("variable", w)]
    | _ => []
  | .parallelLoop f c l p => [("for_node", f), ("if_clause", c), ("lastprivates", l), ("privates", p)]
  | .parallelChoice a b => [("if_body", a), ("else_body", b)]
  | .pragmaLoop f => [("for_node", f)]
  | .handler h =>
    [("error_var_init", h.errorStart), ("body", h.body), ("cleanup_jump", h.cleanupJump),
     ("error_target_label", h.errorTarget), ("error_set", h.errorSet),
     ("cleanup_target_label", h.cleanupTarget), ("cascade", h.cascade)]
  | .jump l | .jumpTarget l => [("label", l)]
  | _ => []

def setChild (name : String) (o : Operand) : Form → Form
  | .function f =>
    match name with
    | "body" => .function { f with body := o }
    | "arguments" => .function { f with arguments := o }
    | "scalar_arguments" => .function { f with scalarArguments := o }
    | _ => .function f
  | .call c a i =>
    match name with
    | "func_or_pointer" => .call o a i
    | "args" => .call c o i
    | _ => .call c a i
  | .yield x => if name == "operand" then .yield o else .yield x
  | .raise p e m a =>
    match name with
    | "posinfo" => .raise o e m a
    | "exc_var" => .raise p o m a
    | "msg_val" => .raise p e o a
    | "fmt_args" => .raise p e m o
    | _ => .raise p e m a
  | .argument v vs n u => if name == "variables" then .argument v o n u else .argument v vs n u
  | .arrayArgument v n d s vs u =>
    match name with
    | "data_pointer" => .arrayArgument v n o s vs u
    | "strides_pointer" => .arrayArgument v n d o vs u
    | _ => .arrayArgument v n d s vs u
  | .print a => if name == "args" then .print o else .print a
  | .iterate b => if name == "body" then .iterate o else .iterate b
  | .loop l =>
    match name with
    | "init" => .loop { l with start := o }
    | "condition" => .loop { l with condition := o }
    | "step" => .loop { l with step := o }
    | "body" => .loop { l with body := o }
    | _ => .loop l
  | .branch b =>
    match name with
    | "cond" => .branch { b with condition := o }
    | "body" => .branch { b with body := o }
    | "else_body" => .branch { b with otherwise := o }
    | _ => .branch b
  | .sequence s => if name == "stats" then .sequence o else .sequence s
  | .statement e => if name == "expr" then .statement o else .statement e
  | .prepared s e =>
    match name with
    | "stat" => .prepared o e
    | "expr" => .prepared s o
    | _ => .prepared s e
  | .assign l r m =>
    match name with
    | "lhs" => .assign o r m
    | "rhs" => .assign l o m
    | _ => .assign l r m
  | .binop p l r =>
    match name with
    | "lhs" => .binop p o r
    | "rhs" => .binop p l o
    | _ => .binop p l r
  | .index l r =>
    match name with
    | "lhs" => .index o r
    | "rhs" => .index l o
    | _ => .index l r
  | .vectorStore p l r =>
    match name with
    | "lhs" => .vectorStore p o r
    | "rhs" => .vectorStore p l o
    | _ => .vectorStore p l r
  | .vectorBinop p l r =>
    match name with
    | "lhs" => .vectorBinop p o r
    | "rhs" => .vectorBinop p l o
    | _ => .vectorBinop p l r
  | .promotion x => if name == "operand" then .promotion o else .promotion x
  | .unop p x => if name == "operand" then .unop p o else .unop p x
  | .cast x => if name == "operand" then .cast o else .cast x
  | .dereference x => if name == "operand" then .dereference o else .dereference x
  | .vectorLoad x n => if name == "operand" then .vectorLoad o n else .vectorLoad x n
  | .conditional c l r =>
    match name with
    | "cond" => .conditional o l r
    | "lhs" => .conditional c o r
    | "rhs" => .conditional c l o
    | _ => .conditional c l r
  | .var v =>
    match v.role, name with
    | .element _, "element" => .var { v with role := .element o }
    | .register _, "variable" => .var { v with role := .register o }
    | _, _ => .var v
  | .parallelLoop f c l p =>
    match name with
    | "for_node" => .parallelLoop o c l p
    | "if_clause" => .parallelLoop f o l p
    | "lastprivates" => .parallelLoop f c o p
    | "privates" => .parallelLoop f c l o
    | _ => .parallelLoop f c l p
  | .parallelChoice a b =>
    match name with
    | "if_body" => .parallelChoice o b
    | "else_body" => .parallelChoice a o
    | _ => .parallelChoice a b
  | .pragmaLoop f => if name == "for_node" then .pragmaLoop o else .pragmaLoop f
  | .handler h =>
    match name with
    | "error_var_init" => .handler { h with errorStart := o }
    | "body" => .handler { h with body := o }
    | "cleanup_jump" => .handler { h with cleanupJump := o }
    | "error_target_label" => .handler { h with errorTarget := o }
    | "error_set" => .handler { h with errorSet := o }
    | "cleanup_target_label" => .handler { h with cleanupTarget := o }
    | "cascade" => .handler { h with cascade := o }
    | _ => .handler h
  | .jump l => if name == "label" then .jump o else .jump l
  | .jumpTarget l => if name == "label" then .jumpTarget o else .jumpTarget l
  | f => f

/-! ## Names of forms -/

def kindName : Form → String
  | .function _ => "FunctionNode"
  | .call .. => "FuncCallNode"
  | .functionName .. => "FuncNameNode"
  | .yield _ => "ReturnNode"
  | .raise .. => "RaiseNode"
  | .positionInfo _ => "PositionInfoNode"
  | .argument .. => "FunctionArgument"
  | .arrayArgument .. => "ArrayFunctionArgument"
  | .print _ => "PrintNode"
  | .iterate _ => "NDIterate"
  | .loop _ => "ForNode"
  | .branch _ => "IfNode"
  | .sequence _ => "StatListNode"
  | .statement _ => "ExprStatNode"
  | .prepared .. => "ExprNodeWithStatement"
  | .foreign .. => "NodeWrapper"
  | .assign .. => "AssignmentExpr"
  | .binop .. => "BinopNode"
  | .index .. => "SingleIndexNode"
  | .vectorStore .. => "VectorStoreNode"
  | .vectorBinop .. => "VectorBinopNode"
  | .promotion _ => "PromotionNode"
  | .unop .. => "UnopNode"
  | .cast _ => "CastNode"
  | .dereference _ => "DereferenceNode"
  | .vectorLoad .. => "VectorLoadNode"
  | .conditional .. => "IfElseExprNode"
  | .constant _ => "ConstantNode"
  | .sizeof _ => "SizeofNode"
  | .var v =>
    match v.role with
    | .plain => "Variable"
    | .element _ => "ResolvedVariable"
    | .dataPointer _ => "DataPointer"
    | .stridePointer _ => "StridePointer"
    | .temporary _ => "TempNode"
    | .register _ => "VectorVariable"
  | .parallelLoop .. => "OpenMPLoopNode"
  | .parallelChoice .. => "OpenMPConditionalNode"
  | .pragmaLoop _ => "PragmaForLoopNode"
  | .handler _ => "ErrorHandler"
  | .jump _ => "JumpNode"
  | .jumpTarget _ => "JumpTargetNode"
  | .label .. => "LabelNode"
  | .noop => "NoopExpr"
  | .vectorConstant _ => "ConstantVectorNode"

def isExpression : Form → Bool
  | .call .. | .functionName .. | .argument .. | .arrayArgument .. | .foreign .. | .assign ..
  | .binop .. | .index .. | .vectorStore .. | .vectorBinop .. | .promotion _ | .unop .. | .cast _
  | .dereference _ | .vectorLoad .. | .conditional .. | .constant _ | .sizeof _ | .var _
  | .label .. | .noop | .vectorConstant _ => true
  | _ => false

def isBinop : Form → Bool
  | .binop .. | .vectorStore .. | .vectorBinop .. => true
  | _ => false

def isUnop : Form → Bool
  | .unop .. => true
  | _ => false

def isTemporary : Form → Bool
  | .var { role := .temporary _, .. } => true
  | _ => false

def isConstant : Form → Bool
  | .constant _ => true
  | _ => false

def isBinary : Form → Bool
  | .assign .. | .index .. => true
  | f => f.isBinop

def ancestry (f : Form) : List String :=
  let between := match f with
    | .vectorStore .. | .vectorBinop .. => ["BinopNode", "BinaryOperationNode"]
    | .binop .. | .assign .. | .index .. => ["BinaryOperationNode"]
    | .promotion _ | .unop .. | .cast _ | .dereference _ | .vectorLoad .. => ["SingleOperandNode"]
    | .var v =>
      match v.role with
      | .plain => []
      | .dataPointer _ | .stridePointer _ => ["ArrayAttribute", "Variable"]
      | _ => ["Variable"]
    | .jumpTarget _ => ["JumpNode"]
    | _ => []
  let expression := if f.isExpression then ["ExprNode"] else []
  [f.kindName] ++ between ++ expression ++ ["Node", "ComparableObjectMixin", "object"]

def operator? : Form → Option String
  | .binop p _ _ | .vectorStore p _ _ | .vectorBinop p _ _ | .unop p _ => some p
  | _ => none

end Form

end ArrayKernel.Ast
