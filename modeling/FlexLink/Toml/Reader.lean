import FlexLink.Toml.Value
import FlexLink.Text.Hex
import FlexLink.Number.Text

/-! # Reading settings documents

A reader takes the unread characters and returns what it read with the characters behind it, or
nothing for a text that is no document.  `depth` bounds how deep brackets nest. -/
set_option autoImplicit false
namespace FlexLink.Toml.Reader

abbrev Read (α : Type) := Option (α × List Char)

/-- Brackets nest, and keys are dotted, less deep than this. -/
def depthLimit : Nat := 80

/-! ## Blanks and comments -/

def isSpace (c : Char) : Bool := c == ' ' || c == '\t'

def skipSpaces (source : List Char) : List Char := source.dropWhile isSpace

/-- A character that may stand in a line: no control character but the tab. -/
def isVisible (c : Char) : Bool := c == '\t' || (' ' ≤ c && c != '\x7f')

/-- What is left behind the end of a line, if the line ends here. -/
def newline? : List Char → Option (List Char)
  | '\n' :: rest => some rest
  | '\r' :: '\n' :: rest => some rest
  | _ => none

def lineEnd? : List Char → Option (List Char)
  | [] => some []
  | source => newline? source

def skipComment : List Char → List Char
  | '#' :: rest => rest.dropWhile isVisible
  | source => source

/-- The rest of a line behind a statement: blanks and perhaps a comment. -/
def trailing? (source : List Char) : Option (List Char) := lineEnd? (skipComment (skipSpaces source))

def skipGaps : (fuel : Nat) → List Char → List Char
  | 0, source => source
  | fuel + 1, source =>
    let rest := skipSpaces source
    match newline? (skipComment rest) with
    | some rest => skipGaps fuel rest
    | none => rest

/-! ## Strings -/

/-- The character that `count` hexadecimal digits name. -/
def codePoint (count : Nat) (source : List Char) : Option Char :=
  let digits := source.take count
  if digits.length = count then
    match digits.mapM Hex.value? with
    | some values =>
      let n := values.foldl (fun n d => n * 16 + d) 0
      if n.isValidChar then some (Char.ofNat n) else none
    | none => none
  else none

/-- The character that an escape stands for and how many characters it has behind the backslash. -/
def escape : List Char → Option (Char × Nat)
  | 'b' :: _ => some ('\x08', 1)
  | 't' :: _ => some ('\t', 1)
  | 'n' :: _ => some ('\n', 1)
  | 'f' :: _ => some ('\x0c', 1)
  | 'r' :: _ => some ('\r', 1)
  | '"' :: _ => some ('"', 1)
  | '\\' :: _ => some ('\\', 1)
  | 'u' :: rest => (codePoint 4 rest).map fun c => (c, 5)
  | 'U' :: rest => (codePoint 8 rest).map fun c => (c, 9)
  | _ => none

/-- A string between double quotes, behind the first one.  The first `skip` characters belong to
the escape before them. -/
def basic (done : List Char) : (skip : Nat) → List Char → Read (List Char)
  | _, [] => none
  | skip + 1, _ :: rest => basic done skip rest
  | 0, c :: rest =>
    if c = '"' then some (done.reverse, rest)
    else if c = '\\' then
      match escape rest with
      | some (e, used) => basic (e :: done) used rest
      | none => none
    else if isVisible c then basic (c :: done) 0 rest
    else none

def literal (done : List Char) : List Char → Read (List Char)
  | [] => none
  | c :: rest =>
    if c = '\x27' then some (done.reverse, rest)
    else if isVisible c then literal (c :: done) rest
    else none

/-- Where a run of quotes closes a text of several lines: up to two of the quotes belong to the
text, the next three close it. -/
def closing? (quote : Char) (source : List Char) : Option (List Char × List Char) :=
  let run := (source.takeWhile (· == quote)).length
  if run < 3 then none
  else
    let extra := min (run - 3) 2
    some (List.replicate extra quote, source.drop (extra + 3))

/-- Characters of a line end and of the blanks in front of the next text, behind a backslash. -/
def joinedLines (source : List Char) : Option Nat :=
  match newline? (skipSpaces source) with
  | some rest =>
    let rest := blanks rest.length rest
    some (source.length - rest.length)
  | none => none
where
  blanks : (fuel : Nat) → List Char → List Char
    | 0, source => source
    | fuel + 1, source =>
      let rest := skipSpaces source
      match newline? rest with
      | some rest => blanks fuel rest
      | none => rest

/-- A text of several lines between three double quotes each, behind the first three. -/
def basicLines (done : List Char) : (skip : Nat) → List Char → Read (List Char)
  | _, [] => none
  | skip + 1, _ :: rest => basicLines done skip rest
  | 0, c :: rest =>
    match closing? '"' (c :: rest) with
    | some (extra, rest) => some (done.reverse ++ extra, rest)
    | none =>
      if c = '\\' then
        match joinedLines rest with
        | some used => basicLines done used rest
        | none =>
          match escape rest with
          | some (e, used) => basicLines (e :: done) used rest
          | none => none
      else if c = '\n' then basicLines ('\n' :: done) 0 rest
      else if c = '\r' then
        if rest.head? = some '\n' then basicLines ('\n' :: done) 1 rest else none
      else if isVisible c then basicLines (c :: done) 0 rest
      else none

def literalLines (done : List Char) : (skip : Nat) → List Char → Read (List Char)
  | _, [] => none
  | skip + 1, _ :: rest => literalLines done skip rest
  | 0, c :: rest =>
    match closing? '\x27' (c :: rest) with
    | some (extra, rest) => some (done.reverse ++ extra, rest)
    | none =>
      if c = '\n' then literalLines ('\n' :: done) 0 rest
      else if c = '\r' then
        if rest.head? = some '\n' then literalLines ('\n' :: done) 1 rest else none
      else if isVisible c then literalLines (c :: done) 0 rest
      else none

def openLines (source : List Char) : List Char := (newline? source).getD source

def string : List Char → Read (List Char)
  | '"' :: '"' :: '"' :: rest => basicLines [] 0 (openLines rest)
  | '"' :: rest => basic [] 0 rest
  | '\x27' :: '\x27' :: '\x27' :: rest => literalLines [] 0 (openLines rest)
  | '\x27' :: rest => literal [] rest
  | _ => none

/-! ## Keys -/

def isBareKey (c : Char) : Bool :=
  ('A' ≤ c && c ≤ 'Z') || ('a' ≤ c && c ≤ 'z') || ('0' ≤ c && c ≤ '9') || c == '_' || c == '-'

def simpleKey : List Char → Read String
  | '"' :: rest => (basic [] 0 rest).map fun r => (String.ofList r.1, r.2)
  | '\x27' :: rest => (literal [] rest).map fun r => (String.ofList r.1, r.2)
  | source =>
    let name := source.takeWhile isBareKey
    if name.isEmpty then none else some (String.ofList name, source.dropWhile isBareKey)

/-- The parts of a dotted key with the blanks around them: those before the last, and the last. -/
def dottedKey : (fuel : Nat) → List Char → Read (List String × String)
  | 0, _ => none
  | fuel + 1, source =>
    match simpleKey (skipSpaces source) with
    | none => none
    | some (name, rest) =>
      match skipSpaces rest with
      | '.' :: rest =>
        match dottedKey fuel rest with
        | some ((path, last), rest) => some ((name :: path, last), rest)
        | none => none
      | rest => some (([], name), rest)

def key (source : List Char) : Read (List String × String) := dottedKey (depthLimit - 1) source

/-! ## Numbers and dates -/

/-- Digits of a base, single underscores between them. -/
def digitRun (isDigit : Char → Bool) (done : List Char) : List Char → Read (List Char)
  | [] => if done.isEmpty then none else some (done.reverse, [])
  | c :: rest =>
    if isDigit c then digitRun isDigit (c :: done) rest
    else if c = '_' then
      match rest with
      | d :: _ => if !done.isEmpty && isDigit d then digitRun isDigit done rest else none
      | [] => none
    else if done.isEmpty then none
    else some (done.reverse, c :: rest)

def isDecimal (c : Char) : Bool := '0' ≤ c && c ≤ '9'

def decimals (source : List Char) : Read (List Char) := digitRun isDecimal [] source

def digitsValue (base : Nat) (digits : List Char) : Nat :=
  digits.foldl (fun n c => n * base + (Hex.value? c).getD 0) 0

def integerOf (i : Int) (rest : List Char) : Read Node :=
  if -0x8000000000000000 ≤ i ∧ i < 0x8000000000000000 then some (.integer i, rest) else none

/-- Digits of a base other than ten, behind the letter that names it. -/
def based (base : Nat) (source : List Char) : Read Node :=
  match digitRun (fun c => (Hex.value? c).any (· < base)) [] source with
  | some (digits, rest) => integerOf (digitsValue base digits) rest
  | none => none

/-- Whether `n * 10 ^ e` is too large for a floating-point number. -/
def isHuge (n : Nat) (e : Int) : Bool :=
  let limit := twoTo 1024 - twoTo 970
  let size := (decimalDigits n).length + e
  if n = 0 ∨ size < 300 then false
  else if 320 < size then true
  else if 0 ≤ e then decide (limit ≤ n * tenTo e.toNat)
  else decide (limit * tenTo (-e).toNat ≤ n)

def exponent (source : List Char) : Read Int :=
  match source with
  | c :: rest =>
    if c = 'e' ∨ c = 'E' then
      let (negative, rest) :=
        match rest with
        | '-' :: rest => (true, rest)
        | '+' :: rest => (false, rest)
        | rest => (false, rest)
      match decimals rest with
      | some (digits, rest) =>
        let n : Int := digitsValue 10 digits
        some (if negative then -n else n, rest)
      | none => none
    else some (0, source)
  | [] => some (0, [])

/-- The part of a number behind its whole digits. -/
def fractional (negative : Bool) (whole source : List Char) : Read Node :=
  let finish (digits : List Char) (places : Nat) (source : List Char) : Read Node :=
    match exponent source with
    | some (e, rest) =>
      if !negative && isHuge (digitsValue 10 digits) (e - places) then none else some (.fraction, rest)
    | none => none
  match source with
  | '.' :: rest =>
    match decimals rest with
    | some (digits, rest) => finish (whole ++ digits) digits.length rest
    | none => none
  | _ => finish whole 0 source

/-- A decimal number behind its sign.  A zero stands alone in front. -/
def decimal (negative : Bool) (source : List Char) : Read Node :=
  let whole : Read (List Char) :=
    match source with
    | '0' :: rest => some (['0'], rest)
    | source => decimals source
  match whole with
  | none => none
  | some (digits, rest) =>
    match rest with
    | '.' :: _ | 'e' :: _ | 'E' :: _ => fractional negative digits rest
    | rest =>
      let n : Int := digitsValue 10 digits
      integerOf (if negative then -n else n) rest

def word? : List Char → List Char → Option (List Char)
  | [], rest => some rest
  | e :: es, c :: rest => if c = e then word? es rest else none
  | _ :: _, [] => none

/-- A number behind its sign, or one of the two words for what is no finite number. -/
def signed (negative : Bool) : List Char → Read Node
  | 'i' :: rest => (word? ['n', 'f'] rest).map fun rest => (.fraction, rest)
  | 'n' :: rest => (word? ['a', 'n'] rest).map fun rest => (.fraction, rest)
  | source => decimal negative source

def fixed (count : Nat) (source : List Char) : Read Nat :=
  let digits := source.take count
  if digits.length = count ∧ digits.all isDecimal then
    some (digitsValue 10 digits, source.drop count)
  else none

/-- A number of exactly two digits from `low` to `high`. -/
def twoDigits (low high : Nat) (source : List Char) : Read Nat :=
  (fixed 2 source).filter fun r => low ≤ r.1 && r.1 ≤ high

def char? (c : Char) : List Char → Option (List Char)
  | d :: rest => if d = c then some rest else none
  | [] => none

def hourAndMinute (source : List Char) : Option (List Char) := do
  let (_, rest) ← twoDigits 0 23 source
  let rest ← char? ':' rest
  let (_, rest) ← twoDigits 0 59 rest
  return rest

/-- A time of day, up to a leap second and with any fraction of it. -/
def timeOfDay (source : List Char) : Option (List Char) := do
  let rest ← hourAndMinute source
  let rest ← char? ':' rest
  let (_, rest) ← twoDigits 0 60 rest
  match rest with
  | '.' :: d :: rest => if isDecimal d then some (rest.dropWhile isDecimal) else none
  | rest => some rest

def daysIn (year month : Nat) : Nat :=
  if month = 2 then
    if year % 4 = 0 ∧ (year % 100 ≠ 0 ∨ year % 400 = 0) then 29 else 28
  else if month ∈ [4, 6, 9, 11] then 30
  else 31

def day (source : List Char) : Option (List Char) := do
  let (year, rest) ← fixed 4 source
  let rest ← char? '-' rest
  let (month, rest) ← twoDigits 1 12 rest
  let rest ← char? '-' rest
  let (_, rest) ← twoDigits 1 (daysIn year month) rest
  return rest

/-- The distance from universal time behind a time of day, if it is given. -/
def zone : List Char → Option (List Char)
  | 'Z' :: rest => some rest
  | 'z' :: rest => some rest
  | '+' :: rest => hourAndMinute rest
  | '-' :: rest => hourAndMinute rest
  | rest => some rest

def opensTime (source : List Char) : Bool :=
  (twoDigits 0 23 source).any fun r => r.2.head? == some ':'

/-- A day, perhaps with a time of day. -/
def date (source : List Char) : Option (List Char) :=
  match day source with
  | some (c :: rest) =>
    if (c = 'T' ∨ c = 't' ∨ c = ' ') ∧ opensTime rest then (timeOfDay rest).bind zone
    else some (c :: rest)
  | found => found

def number (source : List Char) : Read Node :=
  if (fixed 4 source).any fun r => r.2.head? == some '-' then
    (date source).map fun rest => (.date, rest)
  else if opensTime source then (timeOfDay source).map fun rest => (.date, rest)
  else
    match source with
    | '0' :: 'x' :: rest => based 16 rest
    | '0' :: 'o' :: rest => based 8 rest
    | '0' :: 'b' :: rest => based 2 rest
    | '+' :: rest => signed false rest
    | '-' :: rest => signed true rest
    | source => signed false source

/-! ## Values -/

def items (read : List Char → Read Node) (done : List Node) : (fuel : Nat) → List Char →
    Read (List Node)
  | 0, _ => none
  | fuel + 1, source =>
    match skipGaps source.length source with
    | ']' :: rest => some (done.reverse, rest)
    | source =>
      match read source with
      | none => none
      | some (v, rest) =>
        match skipGaps rest.length rest with
        | ',' :: rest => items read (v :: done) fuel rest
        | ']' :: rest => some ((v :: done).reverse, rest)
        | _ => none

def binding (read : List Char → Read Node) (source : List Char) :
    Read ((List String × String) × Node) :=
  match key source with
  | some (k, '=' :: rest) =>
    match read (skipSpaces rest) with
    | some (v, rest) => some ((k, v), rest)
    | none => none
  | _ => none

def members (read : List Char → Read Node) (ms : Members) : (fuel : Nat) → List Char → Read Members
  | 0, _ => none
  | fuel + 1, source =>
    match binding read source with
    | none => none
    | some (((path, name), v), rest) =>
      match ms.assign path name v .inline with
      | none => none
      | some ms =>
        match skipSpaces rest with
        | ',' :: rest => members read ms fuel rest
        | '\x7d' :: rest => some (ms, rest)
        | _ => none

def value : (depth : Nat) → List Char → Read Node
  | 0, _ => none
  | depth + 1, source =>
    match source with
    | '"' :: _ | '\x27' :: _ => (string source).map fun r => (.text (String.ofList r.1), r.2)
    | '[' :: rest =>
      if depth = 0 then none
      else (items (value depth) [] (rest.length + 1) rest).map fun r => (.array r.1, r.2)
    | '\x7b' :: rest =>
      if depth = 0 then none
      else
        match skipSpaces rest with
        | '\x7d' :: rest => some (.table .inline [], rest)
        | rest => (members (value depth) [] (rest.length + 1) rest).map fun r => (.table .inline r.1, r.2)
    | 't' :: rest => (word? ['r', 'u', 'e'] rest).map fun rest => (.bool true, rest)
    | 'f' :: rest => (word? ['a', 'l', 's', 'e'] rest).map fun rest => (.bool false, rest)
    | source => number source

/-! ## Documents -/

structure Page where
  root : Members := []
  here : List String := []

def header (page : Page) (source : List Char) : Read Page :=
  match source with
  | '[' :: rest =>
    match key rest with
    | some ((path, name), ']' :: ']' :: rest) =>
      (page.root.openItem path name).map fun root => (⟨root, path ++ [name]⟩, rest)
    | _ => none
  | source =>
    match key source with
    | some ((path, name), ']' :: rest) =>
      (page.root.openTable path name).map fun root => (⟨root, path ++ [name]⟩, rest)
    | _ => none

def statement (page : Page) (source : List Char) : Read Page :=
  match binding (value depthLimit) source with
  | some (((path, name), v), rest) =>
    (Members.changeAt .passage (fun origin ms => Members.assign path name v origin ms)
      page.here .header page.root).map fun root => ({ page with root }, rest)
  | none => none

def lines : (fuel : Nat) → Page → List Char → Option Members
  | 0, _, _ => none
  | fuel + 1, page, source =>
    match skipSpaces source with
    | [] => some page.root
    | c :: rest =>
      let read : Read Page :=
        if c = '#' ∨ c = '\n' ∨ c = '\r' then some (page, c :: rest)
        else if c = '[' then header page rest
        else statement page (c :: rest)
      match read with
      | none => none
      | some (page, rest) =>
        match trailing? rest with
        | some rest => lines fuel page rest
        | none => none

end Reader

def parse? (source : String) : Option Members :=
  let chars :=
    match source.toList with
    | '\ufeff' :: rest => rest
    | chars => chars
  Reader.lines (chars.length + 1) {} chars

end FlexLink.Toml
