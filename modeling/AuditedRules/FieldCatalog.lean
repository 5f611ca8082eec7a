import AuditedRules.Context

/-!
# Field catalogs

A catalog lists the fields that rules may refer to, with their types and examples. A catalog without
fields allows every name. Of several fields with the same name, the first is the one that the name
refers to.
-/

namespace AuditedRules

/-- A field that rules may refer to. -/
structure CatalogField where
  /-- The name in contexts. -/
  name : String
  /-- The type that values of the field have. -/
  type : ValueType
  /-- A value for sample contexts. -/
  sample : Option Value
  /-- What the field means. -/
  description : Option String

namespace CatalogField

instance : Inhabited CatalogField := ⟨⟨"", .number, none, none⟩⟩

/-- The JSON form of a field. A description that is not there is left out. -/
def toJson (field : CatalogField) : Json :=
  .object ([("name", .string field.name), ("type", .string field.type.name),
    ("example", .ofOption (field.sample.map Value.toJson))] ++
    (field.description.map fun text => ("description", Json.string text)).toList)

/-- Reads the name of a type. -/
def typeDecoder : Decoder ValueType :=
  .choice [("number", .number), ("string", .string), ("boolean", .boolean)]

/-- Reads a field. -/
def decoder : Decoder CatalogField :=
  .record "FieldDef"
    [.required "name" .text fun name f => { f with name },
      .required "type" typeDecoder fun type f => { f with type },
      .nullable "example" (.optional Value.decoder) fun sample f => { f with sample },
      .defaulted "description" (.optional .text) fun description f => { f with description }]
    default

end CatalogField

/-- The fields that rules may refer to. -/
structure FieldCatalog where
  fields : List CatalogField

namespace FieldCatalog

instance : Inhabited FieldCatalog := ⟨⟨[]⟩⟩

/-- The catalog lists no field, and so allows all. -/
def isEmpty (catalog : FieldCatalog) : Bool :=
  catalog.fields.isEmpty

/-- The field of a name. -/
def get? (catalog : FieldCatalog) (name : String) : Option CatalogField :=
  catalog.fields.find? fun field => field.name == name

/-- A field has the name. -/
def contains (catalog : FieldCatalog) (name : String) : Bool :=
  (catalog.get? name).isSome

/-- The names of the fields, as listed. -/
def names (catalog : FieldCatalog) : List String :=
  catalog.fields.map (·.name)

/-- The context of the examples; of several for one name the last counts. -/
def sampleContext (catalog : FieldCatalog) : Context :=
  .ofList (catalog.fields.filterMap fun field => field.sample.map fun value => (field.name, value))

/-- The first field of a predicate that the catalog does not allow. -/
def firstUnknown? (catalog : FieldCatalog) (p : Predicate) : Option String :=
  if catalog.isEmpty then none else p.fieldNames.find? fun name => !catalog.contains name

/-- The JSON form of a catalog: the list of its fields. -/
def toJson (catalog : FieldCatalog) : Json :=
  .array (catalog.fields.map CatalogField.toJson)

/-- Reads a catalog. -/
def decoder : Decoder FieldCatalog := fun format levels document =>
  (Decoder.list CatalogField.decoder format levels document).map .mk

end FieldCatalog

end AuditedRules
