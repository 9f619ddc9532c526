import HeaderOutline.Json.Signature
import HeaderOutline.Outline
/-!
# Outlines in JSON

Every item of an outline is a record, and so is the outline. A record is also read from the list of
its fields in the order of its keys.
-/
namespace HeaderOutline

namespace MacroDef

def toJson (m : MacroDef) : Json :=
  .object [("name", .text m.name), ("value", .text m.value)]

def ofJson? (j : Json) : Option MacroDef := do
  let fields ← j.record? ["name", "value"]
  let name ← Json.required Json.text? "name" fields
  let value ← Json.required Json.text? "value" fields
  some ⟨name, value⟩

end MacroDef

namespace MacroItem

def toJson (m : MacroItem) : Json :=
  .object [("def", m.definition.toJson), ("line", .natural m.line)]

def ofJson? (j : Json) : Option MacroItem := do
  let fields ← j.record? ["def", "line"]
  let definition ← Json.required MacroDef.ofJson? "def" fields
  let line ← Json.required Json.natural? "line" fields
  some ⟨definition, line⟩

end MacroItem

namespace NamespaceItem

def toJson (n : NamespaceItem) : Json :=
  .object [("name", .text n.name), ("scope_path", .texts n.path), ("line", .natural n.line)]

def ofJson? (j : Json) : Option NamespaceItem := do
  let fields ← j.record? ["name", "scope_path", "line"]
  let name ← Json.required Json.text? "name" fields
  let path ← Json.required Json.texts? "scope_path" fields
  let line ← Json.required Json.natural? "line" fields
  some ⟨name, path, line⟩

end NamespaceItem

namespace ClassItem

def keys : List String :=
  ["name", "qualified_name", "key", "template", "declared_access", "line"]

def toJson (c : ClassItem) : Json :=
  .object [("name", .text c.name),
    ("qualified_name", .text c.qualifiedName),
    ("key", c.key.toJson),
    ("template", .optional TemplateParams.toJson c.template),
    ("declared_access", .optional AccessLevel.toJson c.declaredAccess),
    ("line", .natural c.line)]

def ofJson? (j : Json) : Option ClassItem := do
  let fields ← j.record? keys
  let name ← Json.required Json.text? "name" fields
  let qualifiedName ← Json.required Json.text? "qualified_name" fields
  let key ← Json.required ClassKey.ofJson? "key" fields
  let template ← Json.optionalField TemplateParams.ofJson? "template" fields
  let declaredAccess ← Json.optionalField AccessLevel.ofJson? "declared_access" fields
  let line ← Json.required Json.natural? "line" fields
  some ⟨name, qualifiedName, key, template, declaredAccess, line⟩

end ClassItem

namespace EnumDecl

def toJson (e : EnumDecl) : Json :=
  .object [("name", .optional .text e.name), ("members", .texts e.members)]

def ofJson? (j : Json) : Option EnumDecl := do
  let fields ← j.record? ["name", "members"]
  let name ← Json.optionalField Json.text? "name" fields
  let members ← Json.required Json.texts? "members" fields
  some ⟨name, members⟩

end EnumDecl

namespace EnumItem

def toJson (e : EnumItem) : Json :=
  .object [("decl", e.decl.toJson), ("scope_path", .texts e.path), ("line", .natural e.line)]

def ofJson? (j : Json) : Option EnumItem := do
  let fields ← j.record? ["decl", "scope_path", "line"]
  let decl ← Json.required EnumDecl.ofJson? "decl" fields
  let path ← Json.required Json.texts? "scope_path" fields
  let line ← Json.required Json.natural? "line" fields
  some ⟨decl, path, line⟩

end EnumItem

namespace FunctionItem

def keys : List String :=
  ["kind", "signature", "scope_path", "is_definition", "access", "in_template_class", "line"]

def toJson (f : FunctionItem) : Json :=
  .object [("kind", f.kind.toJson),
    ("signature", f.signature.toJson),
    ("scope_path", .texts f.path),
    ("is_definition", .bool f.isDefinition),
    ("access", .optional AccessLevel.toJson f.access),
    ("in_template_class", .bool f.inTemplate),
    ("line", .natural f.line)]

def ofJson? (j : Json) : Option FunctionItem := do
  let fields ← j.record? keys
  let kind ← Json.required FunctionKind.ofJson? "kind" fields
  let signature ← Json.required Signature.ofJson? "signature" fields
  let path ← Json.required Json.texts? "scope_path" fields
  let isDefinition ← Json.required Json.bool? "is_definition" fields
  let access ← Json.optionalField AccessLevel.ofJson? "access" fields
  let inTemplate ← Json.required Json.bool? "in_template_class" fields
  let line ← Json.required Json.natural? "line" fields
  some ⟨kind, signature, path, isDefinition, access, inTemplate, line⟩

end FunctionItem

namespace Outline

def keys : List String :=
  ["file_path", "macros", "namespaces", "classes", "enums", "functions"]

def toJson (o : Outline) : Json :=
  .object [("file_path", .optional .text o.filePath),
    ("macros", .list (o.macros.map MacroItem.toJson)),
    ("namespaces", .list (o.namespaces.map NamespaceItem.toJson)),
    ("classes", .list (o.classes.map ClassItem.toJson)),
    ("enums", .list (o.enums.map EnumItem.toJson)),
    ("functions", .list (o.functions.map FunctionItem.toJson))]

def ofJson? (j : Json) : Option Outline := do
  let fields ← j.record? keys
  let filePath ← Json.optionalField Json.text? "file_path" fields
  let macros ← Json.required (Json.list? MacroItem.ofJson?) "macros" fields
  let namespaces ← Json.required (Json.list? NamespaceItem.ofJson?) "namespaces" fields
  let classes ← Json.required (Json.list? ClassItem.ofJson?) "classes" fields
  let enums ← Json.required (Json.list? EnumItem.ofJson?) "enums" fields
  let functions ← Json.required (Json.list? FunctionItem.ofJson?) "functions" fields
  some ⟨filePath, macros, namespaces, classes, enums, functions⟩

end Outline

end HeaderOutline
