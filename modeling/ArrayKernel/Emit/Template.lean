import ArrayKernel.Fault

/-! # Code templates -/

namespace ArrayKernel.Emit

def fillTemplate (template values file name : Datum) : Except Fault Datum :=
  if !template.truthy then .ok .null
  else
    match values with
    | .record _ => .error (.refused "Tempita was not installed")
    | _ =>
      if file.truthy || name.truthy then .error .wrongKind
      else .error (.refused "Tempita was not installed")

def fillTemplateWith : List Datum → Except Fault Datum
  | [t, v] => fillTemplate t v .null .null
  | [t, v, f] => fillTemplate t v f .null
  | [t, v, f, n] => fillTemplate t v f n
  | _ => .error .wrongKind

end ArrayKernel.Emit
