import AuditedRules.Document.Fault

/-!
# Decoding documents

A decoder reads a value of one type out of a document. It goes through the document in the order of
the text, and the first problem decides: a malformed place that was not reached does not matter. An
unclosed sequence or mapping is malformed only at its end, after everything in it.

A decoder is told how many further levels of sequences and mappings may be opened; a document that
is nested deeper is refused where the limit is passed. Members that no field asks for are skipped at
any depth.

A record may be written as a mapping of its fields, in any order. In JSON it may also be written as
a sequence of its fields in their order.
-/

namespace AuditedRules

/-- A function that reads a value out of a document of a format, inside of which a number of further
levels may be opened. -/
abbrev Decoder (α : Type) := Format → Nat → Document → Except Fault α

namespace Decoder

variable {α β : Type}

/-- The fault of meeting a document where something else is expected. -/
def unexpected (expected : String) (found : Document) : Fault :=
  match found.scalar?, found with
  | some value, _ => .mismatch [] (.invalidType (.scalar value) expected)
  | none, .sequence .. => .mismatch [] (.invalidType .sequence expected)
  | none, .mapping .. => .mismatch [] (.invalidType .mapping expected)
  | none, _ => .malformed

/-- Succeeds at the end of a sequence or mapping that is closed. -/
def finish (closed : Bool) (value : α) : Except Fault α :=
  if closed then .ok value else .error .malformed

/-- Adds a step to the place of a fault. -/
def located (step : Place) (result : Except Fault α) : Except Fault α :=
  result.mapError (·.within step)

/-! ## Scalars -/

/-- A text; without quotes its spelling is taken. -/
def text : Decoder String := fun _ _ document =>
  match document.text? with
  | some s => .ok s
  | none => .error (unexpected "a string" document)

/-- A boolean. -/
def boolean : Decoder Bool := fun _ _ document =>
  match document.scalar? with
  | some (.bool b) => .ok b
  | _ => .error (unexpected "a boolean" document)

/-- A value or null. -/
def optional (decoder : Decoder α) : Decoder (Option α) := fun format levels document =>
  match document.scalar? with
  | some .null => .ok none
  | _ => (decoder format levels document).map some

/-- The option that a word names. -/
def chosen (options : List (String × α)) (word : String) : Except Fault α :=
  match options.find? (fun option => option.1 == word) with
  | some option => .ok option.2
  | none => .error (.mismatch [] (.unknownVariant word (options.map (·.1))))

/-- One of some words. In JSON the word may also be the name of a single member with the value
null. -/
def choice (options : List (String × α)) : Decoder α := fun format levels document =>
  match document.text?, format with
  | some word, _ => chosen options word
  | none, .yaml => .error (unexpected "a YAML tag starting with '!'" document)
  | none, .json => match levels, document with
    | 0, .mapping .. => .error .tooDeep
    | _, .mapping ((key, value) :: others) closed => match key.text? with
      | none => .error (unexpected "variant identifier" key)
      | some word => do
        -- An unknown word is a fault even where the text breaks off behind it.
        let option ← chosen options word
        if value.scalar? = some .null then
          finish (others.isEmpty && closed) option
        else .error (unexpected "unit" value)
    | _, _ => .error .malformed

/-! ## Sequences -/

/-- The items of a sequence, counted from `index`. -/
def items (item : Document → Except Fault α) : Nat → List Document → Except Fault (List α)
  | _, [] => .ok []
  | index, document :: documents => do
    let first ← located (.item index) (item document)
    let rest ← items item (index + 1) documents
    .ok (first :: rest)

/-- A list; in YAML it may be left out after its key. -/
def list (item : Decoder α) : Decoder (List α) := fun format levels document =>
  match levels, document with
  | 0, .sequence .. => .error .tooDeep
  | levels + 1, .sequence documents closed => do
    finish closed (← items (item format levels) 0 documents)
  | _, .plain "" => .ok []
  | _, document => .error (unexpected "a sequence" document)

/-! ## Names of members -/

/-- The name of a member. In JSON only a string can be one. -/
def memberName (format : Format) (expected : String) (key : Document) : Except Fault String :=
  match key.text?, format with
  | some name, _ => .ok name
  | none, .json => .error .malformed
  | none, .yaml => .error (unexpected expected key)

/-- The members of a mapping with their names, in written order. -/
def members (format : Format) (value : Document → Except Fault α) :
    List (Document × Document) → Except Fault (List (String × α))
  | [] => .ok []
  | (key, document) :: rest => do
    let name ← memberName format "a string key" key
    let first ← located (.member name) (value document)
    let others ← members format value rest
    .ok ((name, first) :: others)

/-- A mapping from names to values, in written order. -/
def mapping (value : Decoder α) : Decoder (List (String × α)) := fun format levels document =>
  match levels, document with
  | 0, .mapping .. => .error .tooDeep
  | levels + 1, .mapping documents closed => do
    finish closed (← members format (value format levels) documents)
  | _, .plain "" => .ok []
  | _, document => .error (unexpected "a map" document)

/-! ## Records -/

/-- A field of a record of type `α`: how its value is read and put into the record. -/
structure Slot (α : Type) where
  /-- The name of the field. -/
  name : String
  /-- The field may be missing from a mapping. -/
  mayBeMissing : Bool
  /-- The field may be missing from the end of a sequence. -/
  mayBeOmitted : Bool
  /-- Reads the value and puts it into a record. -/
  read : Decoder (α → α)

/-- A field that has to be there. -/
def Slot.required (name : String) (decoder : Decoder β) (put : β → α → α) : Slot α :=
  ⟨name, false, false, fun format levels document => (decoder format levels document).map put⟩

/-- A field whose value is given by the record before reading unless it is there. -/
def Slot.defaulted (name : String) (decoder : Decoder β) (put : β → α → α) : Slot α :=
  ⟨name, true, true, fun format levels document => (decoder format levels document).map put⟩

/-- A field that may be missing from a mapping and not from a sequence. -/
def Slot.nullable (name : String) (decoder : Decoder β) (put : β → α → α) : Slot α :=
  ⟨name, true, false, fun format levels document => (decoder format levels document).map put⟩

/-- Reads the members of a record, of which those named in `seen` have been read. -/
def namedFields (slots : List (Slot α)) (format : Format) (levels : Nat) :
    List (Document × Document) → List String → α → Except Fault (List String × α)
  | [], seen, record => .ok (seen, record)
  | (key, document) :: rest, seen, record => do
    let name ← memberName format "field identifier" key
    match slots.find? (fun slot => slot.name == name) with
    | none =>
      -- A value that is skipped is not asked what it stands for.
      if document.isComplete then namedFields slots format levels rest seen record
      else .error .malformed
    | some slot =>
      if seen.contains name then .error (.mismatch [] (.duplicateField name))
      else do
        let put ← located (.member name) (slot.read format levels document)
        namedFields slots format levels rest (name :: seen) (put record)

/-- The first field that has to be there and is not. -/
def firstMissing? (slots : List (Slot α)) (seen : List String) : Option String :=
  (slots.find? fun slot => !slot.mayBeMissing && !seen.contains slot.name).map (·.name)

/-- A record written as a mapping. -/
def named (slots : List (Slot α)) (format : Format) (levels : Nat)
    (documents : List (Document × Document)) (closed : Bool) (initial : α) : Except Fault α := do
  let (seen, record) ← namedFields slots format levels documents [] initial
  let _ ← finish closed ()
  match firstMissing? slots seen with
  | some name => .error (.mismatch [] (.missingField name))
  | none => .ok record

/-- A record written as a sequence, read from the field number `index` on. -/
def listed (record : String) (count : Nat) (format : Format) (levels : Nat) (closed : Bool) :
    Nat → List (Slot α) → List Document → α → Except Fault α
  | _, [], [], value => finish closed value
  | _, [], _ :: _, _ => .error .malformed
  | index, slot :: slots, document :: documents, value => do
    let put ← located (.item index) (slot.read format levels document)
    listed record count format levels closed (index + 1) slots documents (put value)
  | index, slot :: slots, [], value =>
    if !closed then .error .malformed
    else if slot.mayBeOmitted then
      listed record count format levels closed (index + 1) slots [] value
    else .error (.mismatch [] (.tooShort index record count))

/-- A record with a name for messages, from the record that holds the values of missing fields. -/
def record (name : String) (slots : List (Slot α)) (initial : α) : Decoder α :=
  fun format levels document =>
    match format, levels, document with
    | _, 0, .mapping .. => .error .tooDeep
    | _, levels + 1, .mapping documents closed => named slots format levels documents closed initial
    | .json, 0, .sequence .. => .error .tooDeep
    | .json, levels + 1, .sequence documents closed =>
      listed name slots.length .json levels closed 0 slots documents initial
    -- Nothing at all is a record without members.
    | _, levels, .plain "" => named slots format levels [] true initial
    | _, _, document => .error (unexpected ("struct " ++ name) document)

/-! ## JSON values -/

/-- A scalar as a JSON value; a number that is not finite is null. -/
def scalarJson : Scalar → Except Fault Json
  | .null => .ok .null
  | .bool b => .ok (.bool b)
  | .integer i => .ok (.number (.int i))
  | .wide _ => .error (.mismatch [] .outOfRange)
  | .float x => .ok (if x.isFinite then .number (.float x) else .null)
  | .string s => .ok (.string s)

/-- A leaf of a document as a JSON value. -/
def leafJson (document : Document) : Except Fault Json :=
  match document.scalar? with
  | some value => scalarJson value
  | none => .error .malformed

/-- Any JSON value; of members with the same name the last counts. -/
def json (format : Format) : Nat → Document → Except Fault Json
  | 0, .sequence .. => .error .tooDeep
  | 0, .mapping .. => .error .tooDeep
  | levels + 1, .sequence documents closed => do
    finish closed (.array (← items (fun document => json format levels document) 0 documents))
  | levels + 1, .mapping documents closed => do
    finish closed
      (.ofMembers (← members format (fun document => json format levels document) documents))
  | _, leaf => leafJson leaf

/-- Reads a document to its end without regard to what it says. -/
def skim (format : Format) : Nat → Document → Except Fault Unit
  | 0, .sequence .. => .error .tooDeep
  | 0, .mapping .. => .error .tooDeep
  | levels + 1, .sequence documents closed => do
    let _ ← items (fun document => skim format levels document) 0 documents
    finish closed ()
  | levels + 1, .mapping documents closed => do
    let _ ← items (fun document => skim format levels document) 0
      (documents.flatMap fun member => [member.1, member.2])
    finish closed ()
  | _, leaf => match leaf.scalar? with
    | some (.wide i) => .error (.mismatch [] (.invalidType (.scalar (.wide i)) "any value"))
    | some _ => .ok ()
    | none => .error .malformed

end Decoder

/-! ## Whole texts -/

/-- The number of levels of sequences and mappings that are read. -/
def Format.levels : Format → Nat
  | .json => 127
  | .yaml => 128

/-- Decodes the document of a text; what follows the document is looked at last. -/
def Reading.decode {α : Type} (reading : Reading) (format : Format) (decoder : Decoder α) :
    Except Fault α := do
  let value ← decoder format format.levels reading.root
  if reading.trailing then .error .malformed else .ok value

end AuditedRules
