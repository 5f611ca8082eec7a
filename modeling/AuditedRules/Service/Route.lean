import AuditedRules.Text.Digit

/-!
# Routes

The paths of the service, with the methods that each of them understands. The identifier of a rule
is one segment of a path; it is not empty, and bytes in it may be written as a percent sign with two
hexadecimal digits.
-/

namespace AuditedRules

/-- What a path asks for. -/
inductive Route
  | health
  | grammar
  | evaluate
  | render
  | rules
  | rule (id : List Char)
  | evaluateRule (id : List Char)
  | check
  | intake
deriving DecidableEq

namespace Route

/-- The method by which a route is called. -/
inductive Method
  | get
  | post
deriving DecidableEq

/-- The method that a route understands. -/
def method : Route → Method
  | .health => .get
  | .grammar => .get
  | .rules => .get
  | .rule _ => .get
  | .evaluate => .post
  | .render => .post
  | .evaluateRule _ => .post
  | .check => .post
  | .intake => .post

/-- A segment up to a slash, and what follows that. -/
def takeSegment (path : List Char) : List Char × List Char :=
  (path.takeWhile (· != '/'), path.dropWhile (· != '/'))

/-- What follows at the front of a text that starts with another one. -/
def after? : List Char → List Char → Option (List Char)
  | [], rest => some rest
  | c :: start, d :: rest => if c == d then after? start rest else none
  | _ :: _, [] => none

/-- The routes without a part that varies. -/
def fixed : List (String × Route) :=
  [("/api/health", .health), ("/api/grammar", .grammar), ("/api/evaluate", .evaluate),
    ("/api/render", .render), ("/api/rules", .rules), ("/api/check", .check),
    ("/api/intake", .intake)]

/-- The route of a path. -/
def ofPath? (path : List Char) : Option Route :=
  match fixed.find? fun entry => entry.1.toList == path with
  | some entry => some entry.2
  | none => match after? "/api/rules/".toList path with
    | none => none
    | some rest =>
      let (id, rest) := takeSegment rest
      if id.isEmpty then none
      else if rest.isEmpty then some (.rule id)
      else if rest == "/evaluate".toList then some (.evaluateRule id)
      else none

/-- The path of an address, without query and fragment. -/
def pathOf (address : List Char) : List Char :=
  address.takeWhile fun c => c != '?' && c != '#'

/-- The bytes of a text in which bytes may be written as a percent sign with two digits. -/
def decodedBytes : List Char → List UInt8
  | '%' :: a :: b :: rest => match Text.hexValue? a, Text.hexValue? b with
    | some m, some n => UInt8.ofNat (16 * m + n) :: decodedBytes rest
    | _, _ => '%'.toUInt8 :: decodedBytes (a :: b :: rest)
  | c :: rest => String.utf8EncodeChar c ++ decodedBytes rest
  | [] => []

/-- The identifier that a segment of a path stands for, if its bytes are a text. -/
def decodeId (segment : List Char) : Option String :=
  String.fromUTF8? ⟨(decodedBytes segment).toArray⟩

end Route

end AuditedRules
