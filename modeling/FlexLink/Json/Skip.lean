import FlexLink.Json.Reader

/-! # Passing over a value

A member that a record does not know is passed over without being built: brackets may nest to any
depth, numbers have no range and escapes need not pair up.  The brackets that are open stand in a
list, innermost first. -/
set_option autoImplicit false
namespace FlexLink.Json.Reader

inductive Bracket where
  | list
  | object
deriving DecidableEq

def Bracket.closing : Bracket → Char
  | .list => ']'
  | .object => '\x7d'

/-- The characters of an escape behind its backslash, of which only the form matters. -/
def escapeLength : List Char → Except Fault Nat
  | [] => stop .endInString []
  | 'u' :: rest =>
    match hexQuad rest with
    | .ok _ => .ok 5
    | .error fault => .error fault
  | c :: rest =>
    if ['"', '\\', '/', 'b', 'f', 'n', 'r', 't'].contains c then .ok 1
    else stopAtNext .invalidEscape (c :: rest)

/-- Behind the closing quote of a string whose opening quote is read. -/
def skipString : (skip : Nat) → List Char → Except Fault (List Char)
  | _, [] => stop .endInString []
  | skip + 1, _ :: rest => skipString skip rest
  | 0, c :: rest =>
    if c = '"' then .ok rest
    else if c = '\\' then
      match escapeLength rest with
      | .ok used => skipString used rest
      | .error fault => .error fault
    else if c < ' ' then stop .controlCharacter (c :: rest)
    else skipString 0 rest

def skipExponent (source : List Char) : Except Fault (List Char) :=
  let digits :=
    match source with
    | '+' :: rest => rest
    | '-' :: rest => rest
    | rest => rest
  match digits with
  | [] => stop .invalidNumber []
  | c :: rest =>
    if isDigit c then .ok (extraDigits 0 rest).2 else stopAtNext .invalidNumber (c :: rest)

def skipNumberTail : List Char → Except Fault (List Char)
  | 'e' :: rest => skipExponent rest
  | 'E' :: rest => skipExponent rest
  | rest => .ok rest

def skipFraction : List Char → Except Fault (List Char)
  | '.' :: rest =>
    match extraDigits 0 rest with
    | (0, rest) => stopAtNext .invalidNumber rest
    | (_, rest) => skipNumberTail rest
  | rest => skipNumberTail rest

def skipNumber : List Char → Except Fault (List Char)
  | [] => stop .invalidNumber []
  | '0' :: c :: rest =>
    if isDigit c then stopAtNext .invalidNumber (c :: rest) else skipFraction (c :: rest)
  | c :: rest =>
    if isDigit c then skipFraction (extraDigits 0 rest).2
    else stopAtNext .invalidNumber (c :: rest)

inductive Stage where
  | value
  | first
  | next

def skipName (source : List Char) : Except Fault (List Char) :=
  match skipBlanks source with
  | [] => stop .endInObject []
  | c :: rest =>
    if c = '"' then
      match skipString 0 rest with
      | .ok rest => colon rest
      | .error fault => .error fault
    else stopAtNext .nameNotString (c :: rest)

def skipToItem : Bracket → List Char → Except Fault (List Char)
  | .list, rest => .ok rest
  | .object, rest => skipName rest

/-- Behind a value that is not a bracket; the first character is not blank. -/
def skipScalar (c : Char) (rest : List Char) : Except Fault (List Char) :=
  if c = 'n' then word ['u', 'l', 'l'] rest
  else if c = 't' then word ['r', 'u', 'e'] rest
  else if c = 'f' then word ['a', 'l', 's', 'e'] rest
  else if c = '-' then skipNumber rest
  else if isDigit c then skipNumber (c :: rest)
  else if c = '"' then skipString 0 rest
  else stopAtNext .expectedValue (c :: rest)

/-- Each character is met at most three times, once in each stage. -/
def skipFrom : (fuel : Nat) → Stage → List Bracket → List Char → Except Fault (List Char)
  | 0, _, _, source => stop .endInValue source
  | fuel + 1, .value, opened, source =>
    match skipBlanks source with
    | [] => stop .endInValue []
    | c :: rest =>
      if c = '[' then skipFrom fuel .first (.list :: opened) rest
      else if c = '\x7b' then skipFrom fuel .first (.object :: opened) rest
      else
        match skipScalar c rest with
        | .ok rest => skipFrom fuel .next opened rest
        | .error fault => .error fault
  | _ + 1, .first, [], source => .ok source
  | _ + 1, .next, [], source => .ok source
  | fuel + 1, .first, b :: opened, source =>
    match skipBlanks source with
    | [] => stop (if b = .list then .endInList else .endInObject) []
    | c :: rest =>
      if c = b.closing then skipFrom fuel .next opened rest
      else
        match skipToItem b (c :: rest) with
        | .ok rest => skipFrom fuel .value (b :: opened) rest
        | .error fault => .error fault
  | fuel + 1, .next, b :: opened, source =>
    match skipBlanks source with
    | [] => stop (if b = .list then .endInList else .endInObject) []
    | c :: rest =>
      if c = b.closing then skipFrom fuel .next opened rest
      else if c = ',' then
        match skipToItem b rest with
        | .ok rest => skipFrom fuel .value (b :: opened) rest
        | .error fault => .error fault
      else
        stopAtNext (if b = .list then .expectedListEnd else .expectedObjectEnd) (c :: rest)

def skipValue (source : List Char) : Except Fault (List Char) :=
  skipFrom (3 * source.length + 3) .value [] source

end FlexLink.Json.Reader
