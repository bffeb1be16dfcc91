import ArrayKernel.Ast.Session

/-!
# Equality of nodes

Temporaries and foreign nodes are equal only to themselves, variables if their names agree, elements if their
locations agree, operations if operators and operands agree, and all other nodes if they are of the same form
and their children and types agree.
-/

namespace ArrayKernel.Ast

def depthLimit : Nat := 1000

inductive Comparison where
  | never
  | names (a b : Name)
  | operands (as bs : List Operand)

def Node.comparedType (n : Node) : Option CType :=
  match n.type with
  | some .absent => none
  | other => other

def Node.presentChildren (n : Node) : List Operand :=
  (n.form.children.map (·.2)).filter fun o => !o.isAbsent

def Node.comparison (a b : Node) : Comparison :=
  match a.form, b.form with
  | .var v, .var w =>
    match v.role, w.role with
    | .temporary _, _ => .never
    | .element e, .element e' => .operands [e] [e']
    | .element _, _ => .never
    | .plain, .temporary _ => .never
    | .plain, .element _ => .never
    | _, _ => .names v.name w.name
  | .var _, _ => .never
  | .foreign .., _ => .never
  | .binop p l r, .binop p' l' r' => if p == p' then .operands [l, r] [l', r'] else .never
  | .vectorStore p l r, .vectorStore p' l' r' => if p == p' then .operands [l, r] [l', r'] else .never
  | .vectorBinop p l r, .vectorBinop p' l' r' => if p == p' then .operands [l, r] [l', r'] else .never
  | .unop p o, .unop p' o' => if p == p' then .operands [o] [o'] else .never
  | f, g =>
    if f.kindName != g.kindName then .never
    else match a.comparedType, b.comparedType with
      | none, none => .operands a.presentChildren b.presentChildren
      | some t, some u =>
        if t == u then .operands a.presentChildren b.presentChildren else .never
      | _, _ => .never

def allSame (same : Operand → Operand → Except Fault Bool) :
    List Operand → List Operand → Except Fault Bool
  | [], [] => .ok true
  | a :: as, b :: bs => do
    if ← same a b then allSame same as bs else return false
  | _, _ => .ok false

def sameWithin (nodes : Array Node) : Nat → Operand → Operand → Except Fault Bool
  | _, .datum a, .datum b => .ok (a == b)
  | 0, _, _ => .error .tooDeep
  | depth + 1, .group as, .group bs =>
    if as.length == bs.length then allSame (sameWithin nodes depth) as bs else .ok false
  | depth + 1, .node a, .node b =>
    if a == b then .ok true
    else match nodes[a.index]?, nodes[b.index]? with
      | some m, some n =>
        match m.comparison n with
        | .never => .ok false
        | .names x y => .ok (x.same y)
        | .operands as bs => allSame (sameWithin nodes depth) as bs
      | _, _ => .ok false
  | _, _, _ => .ok false

def same (a b : Operand) : Action Bool := do
  Action.ofExcept (sameWithin (← get).nodes depthLimit a b)

def isAmong (o : Operand) : List Operand → Action Bool
  | [] => return false
  | x :: xs => do if ← same x o then return true else isAmong o xs

/-! ## Keys -/

inductive KeyParts where
  | refused
  | operands (os : List Operand)

def Node.keyParts (n : Node) : KeyParts :=
  match n.form with
  | .var v =>
    match v.role with
    | .temporary _ => .operands []
    | .element _ => .refused
    | _ => if v.name.hashable then .operands [] else .refused
  | .foreign .. => .operands []
  | .binop _ l r | .vectorStore _ l r | .vectorBinop _ l r => .operands [l, r]
  | .unop _ o => .operands [o]
  | _ =>
    match n.comparedType with
    | some t => if t.hashable then .operands n.presentChildren else .refused
    | none => .operands n.presentChildren

def checkKeyWithin (nodes : Array Node) : Nat → Operand → Except Fault Unit
  | 0, _ => .error .tooDeep
  | depth + 1, o =>
    match o with
    | .datum d => if d.hashable then .ok () else .error .wrongKind
    | .group _ => .error .wrongKind
    | .node id =>
      match nodes[id.index]? with
      | none => .error .noSuchField
      | some n =>
        match n.keyParts with
        | .refused => .error .wrongKind
        | .operands os => os.forM (checkKeyWithin nodes depth)

def checkKey (o : Operand) : Action Unit := do
  Action.ofExcept (checkKeyWithin (← get).nodes depthLimit o)

end ArrayKernel.Ast
