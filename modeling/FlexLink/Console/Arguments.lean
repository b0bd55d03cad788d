import FlexLink.Settings.Environment
import FlexLink.Transport.Address

/-! # Arguments of the command line

Options stand in front of the command they are for, and each may be given once; some can be given
by a variable instead.  Anything else is a wrong usage.  A question for help or for the version is
answered as soon as it is met, unless something before it is wrong. -/
set_option autoImplicit false
namespace FlexLink.Console

inductive Action where
  | send (intent body : String) (corr : Option String)
  | tail (n : Nat)
  | replay (corr : String)
deriving DecidableEq

structure Arguments where
  peer : Option SocketAddress
  bind : SocketAddress
  /-- The directory of the journal, unless that of the settings is meant. -/
  journal : Option String
  /-- Seconds to wait for a final reply. -/
  timeout : Nat
  action : Action
deriving DecidableEq

inductive Topic where
  | tool
  | send
  | tail
  | replay
  | help
deriving DecidableEq

inductive Stop where
  | usage
  | version
  | help (topic : Topic)
deriving DecidableEq

structure ValueOption where
  long : String
  short : Option Char := none
deriving DecidableEq

inductive Word where
  | plain (text : String)
  | separator
  | help
  | version
  | option (o : ValueOption) (value : Option String)
  | unknown
deriving DecidableEq

def splitAtEquals (text : List Char) : String × Option String :=
  let name := String.ofList (text.takeWhile (· ≠ '='))
  match text.dropWhile (· ≠ '=') with
  | [] => (name, none)
  | _ :: value => (name, some (String.ofList value))

def Word.read (options : List ValueOption) (hasVersion : Bool) (argument : String) : Word :=
  match argument.toList with
  | ['-', '-'] => .separator
  | '-' :: '-' :: text =>
    match splitAtEquals text with
    | ("help", none) => .help
    | ("version", none) => if hasVersion then .version else .unknown
    | (name, value) =>
      match options.find? (·.long == name) with
      | some o => .option o value
      | none => .unknown
  | '-' :: c :: value =>
    if c = 'h' then .help
    else if c = 'V' && hasVersion then .version
    else
      match options.find? (·.short == some c), value with
      | none, _ => .unknown
      | some o, [] => .option o none
      | some o, '=' :: value | some o, value => .option o (some (String.ofList value))
  | _ => .plain argument

/-- An unsigned number below `2 ^ 64`, perhaps behind a plus sign. -/
def natural? (text : String) : Option Nat :=
  let digits :=
    match text.toList with
    | '+' :: digits => digits
    | digits => digits
  if digits.isEmpty then none
  else
    (digits.foldl (fun n c => do return (← n) * 10 + (← decimalValue? c)) (some 0)).filter
      fun n => decide (n < 0x10000000000000000)

/-! ## Commands -/

def sendOptions : List ValueOption := [⟨"corr", none⟩]

/-- Arguments of `send`: an intent, perhaps a body, and perhaps a correlation anywhere. -/
def readSend (raw : Bool) (words : List String) (corr : Option String) :
    List String → Except Stop Action
  | [] =>
    match words with
    | [intent] => .ok (.send intent "\x7b\x7d" corr)
    | [intent, body] => .ok (.send intent body corr)
    | _ => .error .usage
  | argument :: rest =>
    let plain (text : String) : Except Stop Action :=
      if words.length < 2 then readSend raw (words ++ [text]) corr rest else .error .usage
    if raw then plain argument
    else
      match Word.read sendOptions false argument with
      | .plain text => plain text
      | .separator => readSend true words corr rest
      | .help => .error (.help .send)
      | .version | .unknown => .error .usage
      | .option _ (some value) =>
        if corr.isSome then .error .usage else readSend raw words (some value) rest
      | .option _ none =>
        match corr, rest with
        | none, value :: rest =>
          match Word.read sendOptions false value with
          | .plain value => readSend raw words (some value) rest
          | _ => .error .usage
        | _, _ => .error .usage

/-- Arguments of a command that takes only plain words, at most one.  That word is looked at when
the next argument is met, so one that is not accepted is wrong before help is asked for. -/
def readOnly (topic : Topic) (accepts : String → Bool) (raw : Bool) (word : Option String) :
    List String → Except Stop (Option String)
  | [] => if word.all accepts then .ok word else .error .usage
  | argument :: rest =>
    let plain (text : String) : Except Stop (Option String) :=
      if word.isNone then readOnly topic accepts raw (some text) rest else .error .usage
    if raw then plain argument
    else
      match Word.read [] false argument with
      | .plain text => plain text
      | .separator => readOnly topic accepts true word rest
      | .help => if word.all accepts then .error (.help topic) else .error .usage
      | _ => .error .usage

def defaultTail : Nat := 20

def helpTopic : List String → Except Stop Action
  | [] => .error (.help .tool)
  | ["send"] => .error (.help .send)
  | ["tail"] => .error (.help .tail)
  | ["replay"] => .error (.help .replay)
  | ["help"] => .error (.help .help)
  | _ => .error .usage

def readAction? (name : String) (rest : List String) : Option (Except Stop Action) :=
  match name with
  | "send" => some (readSend false [] none rest)
  | "tail" =>
    some <|
      match readOnly .tail (fun text => (natural? text).isSome) false none rest with
      | .error stop => .error stop
      | .ok word => .ok (.tail ((word.bind natural?).getD defaultTail))
  | "replay" =>
    some <|
      match readOnly .replay (fun _ => true) false none rest with
      | .ok (some corr) => .ok (.replay corr)
      | .ok none => .error .usage
      | .error stop => .error stop
  | "help" => some (helpTopic rest)
  | _ => none

/-! ## Options of the tool -/

structure Given where
  peer : Option SocketAddress := none
  bind : Option SocketAddress := none
  journal : Option String := none
  timeout : Option Nat := none
deriving DecidableEq

def peerOption : ValueOption := ⟨"peer", some 'p'⟩
def bindOption : ValueOption := ⟨"bind", none⟩
def journalOption : ValueOption := ⟨"journal-dir", none⟩
def timeoutOption : ValueOption := ⟨"timeout", none⟩

def toolOptions : List ValueOption := [peerOption, bindOption, journalOption, timeoutOption]

def fill {α : Type} (old new : Option α) : Except Stop (Option α) :=
  match old, new with
  | none, some v => .ok (some v)
  | _, _ => .error .usage

def path? (text : String) : Option String := if text.isEmpty then none else some text

def Given.take (g : Given) (o : ValueOption) (value : String) : Except Stop Given :=
  if o = peerOption then (fill g.peer (SocketAddress.parse? value)).map fun v => { g with peer := v }
  else if o = bindOption then
    (fill g.bind (SocketAddress.parse? value)).map fun v => { g with bind := v }
  else if o = journalOption then (fill g.journal (path? value)).map fun v => { g with journal := v }
  else (fill g.timeout (natural? value)).map fun v => { g with timeout := v }

/-- The options in front of a command, and the command.  A value that stands alone directly before
the command is looked at only after the command. -/
def readTool (g : Given) : List String → Except Stop (Given × Action)
  | [] => .error .usage
  | argument :: rest =>
    match Word.read toolOptions true argument with
    | .plain name =>
      match readAction? name rest with
      | some action => action.map fun action => (g, action)
      | none => .error .usage
    | .help => .error (.help .tool)
    | .version => .error .version
    | .separator | .unknown => .error .usage
    | .option o (some value) =>
      match g.take o value with
      | .ok g => readTool g rest
      | .error stop => .error stop
    | .option o none =>
      match rest with
      | [] => .error .usage
      | value :: rest =>
        match Word.read toolOptions true value with
        | .plain value =>
          match g.take o value, rest.head?.bind fun name => readAction? name rest.tail with
          | .error _, some (.error stop) => .error stop
          | .error stop, _ => .error stop
          | .ok g, _ => readTool g rest
        | _ => .error .usage

def fromVariable {α : Type} (env : Environment) (name : String) (read : String → Option α)
    (given : Option α) : Except Stop (Option α) :=
  match given, env.get? name with
  | some v, _ => .ok (some v)
  | none, none => .ok none
  | none, some text =>
    match read text with
    | some v => .ok (some v)
    | none => .error .usage

def Arguments.parse (env : Environment) (arguments : List String) : Except Stop Arguments := do
  let (g, action) ← readTool {} arguments
  let peer ← fromVariable env "FLEXCTL_PEER" SocketAddress.parse? g.peer
  let bind ← fromVariable env "FLEXCTL_BIND" SocketAddress.parse? g.bind
  let journal ← fromVariable env "FLEXCTL_JOURNAL" path? g.journal
  return {
    peer
    bind := bind.getD ⟨.v4 ⟨0, 0, 0, 0⟩, 0, 0⟩
    journal
    timeout := g.timeout.getD 10
    action }

end FlexLink.Console
