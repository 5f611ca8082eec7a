import AuditedRules.RuleBook.Loading
import AuditedRules.Text.Digit

/-!
# Settings of the service

The settings are read from named variables. An empty host or path counts as not given; a port or a
limit that is given has to be a number, the limit a positive one.
-/

namespace AuditedRules

/-- Where the service listens and what it serves. -/
structure Settings where
  host : String
  port : Nat
  /-- The file of the rule book. -/
  rulesPath : Option String
  /-- The number of levels that predicates may have. -/
  limit : Nat

/-- Why the service cannot start. -/
inductive StartError
  /-- The settings are no good. -/
  | settings (reason : String)
  /-- There is no rule book. -/
  | book (error : RuleBookError)
deriving DecidableEq

/-- The message of settings that are no good. -/
def settingsMessage (reason : String) : String :=
  "Configuration error: " ++ reason

namespace Settings

/-- The settings where nothing else is given. -/
def default : Settings := ⟨"127.0.0.1", 3000, none, defaultLimit⟩

/-- A natural number in decimal digits, with or without a plus sign, of at most `greatest`. -/
def number? (greatest : Nat) (text : String) : Option Nat :=
  let digits := match text.toList with
    | '+' :: digits => digits
    | digits => digits
  (Text.numeral? 10 digits).filter (· ≤ greatest)

/-- A port, which fits into 16 bits. -/
def port? (text : String) : Option Nat :=
  number? 65535 text

/-- A limit on depth, which is positive and fits into 64 bits. -/
def limit? (text : String) : Option Nat :=
  (number? 18446744073709551615 text).filter (0 < ·)

/-- The number in a variable, read by `read?`, or a value for a variable that is not set. -/
def readVariable (name : String) (read? : String → Option Nat) (value : Option String)
    (otherwise : Nat) : Except StartError Nat :=
  match value with
  | none => .ok otherwise
  | some text => match read? text with
    | some n => .ok n
    | none => .error (.settings ("invalid " ++ name ++ ": " ++ text))

/-- The settings that variables give. -/
def ofVariables (lookup : String → Option String) : Except StartError Settings := do
  let host := ((lookup "VERDICT_HOST").filter (· != "")).getD default.host
  let port ← readVariable "VERDICT_PORT" port? (lookup "VERDICT_PORT") default.port
  let rulesPath := (lookup "VERDICT_RULES").filter (· != "")
  let limit ← readVariable "VERDICT_MAX_DEPTH" limit? (lookup "VERDICT_MAX_DEPTH") default.limit
  .ok ⟨host, port, rulesPath, limit⟩

/-- The address to listen at. -/
def address (s : Settings) : String :=
  s.host ++ ":" ++ toString s.port

/-! ## Addresses -/

/-- The parts of a text between separators. -/
def splitAt (separator : Char) : List Char → List (List Char)
  | [] => [[]]
  | c :: rest =>
    if c == separator then [] :: splitAt separator rest
    else match splitAt separator rest with
      | part :: parts => (c :: part) :: parts
      | [] => [[c]]

/-- A number of at most 255 without superfluous zeros. -/
def isOctet (digits : List Char) : Bool :=
  digits.length ≤ 3 && (digits.length == 1 || digits.head? != some '0') &&
    (Text.numeral? 10 digits).any (· ≤ 255)

/-- Four numbers of at most 255. -/
def isDottedAddress (host : List Char) : Bool :=
  let parts := splitAt '.' host
  parts.length == 4 && parts.all isOctet

/-- A group of one to four hexadecimal digits. -/
def isGroup (digits : List Char) : Bool :=
  digits.length ≤ 4 && (Text.numeral? 16 digits).isSome

/-- The number of groups of a part of an address, whose last group may be four numbers with dots and
then counts twice. -/
def groupCount? (part : List Char) : Option Nat :=
  if part.isEmpty then some 0
  else
    let groups := splitAt ':' part
    let last := groups.getLast?.getD []
    if groups.all isGroup then some groups.length
    else if groups.dropLast.all isGroup && isDottedAddress last then some (groups.length + 1)
    else none

/-- The two parts of an address around its first double colon. -/
def splitGap : List Char → Option (List Char × List Char)
  | ':' :: ':' :: rest => some ([], rest)
  | c :: rest => (splitGap rest).map fun parts => (c :: parts.1, parts.2)
  | [] => none

/-- Eight groups, or fewer with a double colon for the missing ones. -/
def isGroupAddress (host : List Char) : Bool :=
  match splitGap host with
  | none => groupCount? host == some 8
  | some (front, back) => match groupCount? front, groupCount? back with
    | some m, some n => m + n < 8
    | _, _ => false

/-- The host is an address in numbers that a service can listen at. -/
def isHostAddress (host : List Char) : Bool :=
  match host with
  | '[' :: rest => rest.getLast? == some ']' && isGroupAddress rest.dropLast
  | host => isDottedAddress host

/-- The rule book to serve, if everything is there that the service needs to start. -/
def prepare (s : Settings) (files : String → FileState) : Except StartError RuleBook := do
  -- The book comes first: a bad one is reported even where the address is bad, too.
  let book ← match s.rulesPath with
    | some path => (RuleBook.load files s.limit path).mapError .book
    | none => .ok Inhabited.default
  if isHostAddress s.host.toList then .ok book
  else .error (.settings ("invalid address " ++ s.address ++ ": invalid socket address syntax"))

end Settings

end AuditedRules
