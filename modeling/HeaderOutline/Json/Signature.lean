import HeaderOutline.Json.TypeExpr
import HeaderOutline.Json.Words
import HeaderOutline.Signature
/-!
# Signatures in JSON

Templates are lists of names; parameters and signatures are records.
-/
namespace HeaderOutline

namespace TemplateParams

def toJson (t : TemplateParams) : Json :=
  .texts t.names

def ofJson? (j : Json) : Option TemplateParams :=
  j.texts?.map (⟨·⟩)

end TemplateParams

namespace Parameter

def toJson (p : Parameter) : Json :=
  .object [("ty", p.type.toJson), ("name", .optional .text p.name)]

def ofJson? (j : Json) : Option Parameter := do
  let fields ← j.record? ["ty", "name"]
  let type ← Json.required TypeExpr.ofJson? "ty" fields
  let name ← Json.optionalField Json.text? "name" fields
  some ⟨type, name⟩

end Parameter

namespace Signature

def keys : List String :=
  ["template", "return_type", "name", "params", "is_const", "is_static", "is_virtual", "specifier"]

def toJson (s : Signature) : Json :=
  .object [("template", .optional TemplateParams.toJson s.template),
    ("return_type", .optional TypeExpr.toJson s.returnType),
    ("name", .text s.name),
    ("params", .list (s.params.map Parameter.toJson)),
    ("is_const", .bool s.isConst),
    ("is_static", .bool s.isStatic),
    ("is_virtual", .bool s.isVirtual),
    ("specifier", .optional Specifier.toJson s.specifier)]

def ofJson? (j : Json) : Option Signature := do
  let fields ← j.record? keys
  let template ← Json.optionalField TemplateParams.ofJson? "template" fields
  let returnType ← Json.optionalField TypeExpr.ofJson? "return_type" fields
  let name ← Json.required Json.text? "name" fields
  let params ← Json.required (Json.list? Parameter.ofJson?) "params" fields
  let isConst ← Json.required Json.bool? "is_const" fields
  let isStatic ← Json.required Json.bool? "is_static" fields
  let isVirtual ← Json.required Json.bool? "is_virtual" fields
  let specifier ← Json.optionalField Specifier.ofJson? "specifier" fields
  some ⟨template, returnType, name, params, isConst, isStatic, isVirtual, specifier⟩

end Signature

end HeaderOutline
