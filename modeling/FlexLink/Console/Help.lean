import FlexLink.Console.Arguments
import FlexLink.Console.PlainText

/-! # Help

What the tool says about itself and its commands. -/
set_option autoImplicit false
namespace FlexLink.Console

def versionLine : String := "flexctl 0.1.0"

def unlines (lines : List String) : String := String.join (lines.map (· ++ "\n"))

def helpColumn : Nat := 35

/-- A text whose further lines begin in the column of the first. -/
def hanging (column : Nat) (text : String) : String :=
  String.ofList <| text.toList.flatMap fun c =>
    if c = '\n' then c :: List.replicate column ' ' else [c]

def variableNote (env : Environment) (name : String) : String :=
  "[env: " ++ name ++ "=" ++ hanging helpColumn ((env.get? name).getD "") ++ "]"

/-! ## Faces -/

/-- The sequence after which a terminal shows plain letters again. -/
def plainFace : String := "\x1b[0m"

def literal (text : String) : String := "\x1b[1m" ++ text ++ plainFace

def heading (text : String) : String := "\x1b[1m\x1b[4m" ++ text ++ plainFace

def usageLine (command rest : String) : String :=
  heading "Usage:" ++ " " ++ literal command ++ " " ++ rest

def helpOption : String := literal "-h" ++ ", " ++ literal "--help"

/-! ## Topics -/

def toolHelp (env : Environment) : List String := [
  usageLine "flexctl" "[OPTIONS] <COMMAND>",
  "",
  heading "Commands:",
  "  " ++ literal "send" ++ "    Send one request and print every reply for it",
  "  " ++ literal "tail" ++ "    Print the most recent journal records",
  "  " ++ literal "replay" ++ "  Send a journaled request again under a fresh timestamp",
  "  " ++ literal "help" ++ "    Print this message or the help of the given subcommand(s)",
  "",
  heading "Options:",
  "  " ++ literal "-p" ++ ", " ++ literal "--peer"
    ++ " <PEER>                Bridge to talk to. Overrides `session.peer_addr` "
    ++ variableNote env "FLEXCTL_PEER",
  "      " ++ literal "--bind" ++ " <BIND>                Local address for the client session "
    ++ variableNote env "FLEXCTL_BIND" ++ " [default: 0.0.0.0:0]",
  "      " ++ literal "--journal-dir"
    ++ " <JOURNAL_DIR>  Journal directory. Defaults to `bridge.journal_dir` "
    ++ variableNote env "FLEXCTL_JOURNAL",
  "      " ++ literal "--timeout"
    ++ " <TIMEOUT>          Seconds to wait for a final reply [default: 10]",
  "  " ++ helpOption ++ "                       Print help",
  "  " ++ literal "-V" ++ ", " ++ literal "--version" ++ "                    Print version"]

def helpLines (env : Environment) : Topic → List String
  | .tool => toolHelp env
  | .send => [
    "Send one request and print every reply for it",
    "",
    usageLine "flexctl send" "[OPTIONS] <INTENT> [BODY]",
    "",
    heading "Arguments:",
    "  <INTENT>  ",
    "  [BODY]    JSON object used as the request body [default: \x7b\x7d]",
    "",
    heading "Options:",
    "      " ++ literal "--corr"
      ++ " <CORR>  Correlation id. A random one is generated when omitted",
    "  " ++ helpOption ++ "         Print help"]
  | .tail => [
    "Print the most recent journal records",
    "",
    usageLine "flexctl tail" "[N]",
    "",
    heading "Arguments:",
    "  [N]  [default: 20]",
    "",
    heading "Options:",
    "  " ++ helpOption ++ "  Print help"]
  | .replay => [
    "Send a journaled request again under a fresh timestamp",
    "",
    usageLine "flexctl replay" "<CORR>",
    "",
    heading "Arguments:",
    "  <CORR>  ",
    "",
    heading "Options:",
    "  " ++ helpOption ++ "  Print help"]
  | .help => [
    "Print this message or the help of the given subcommand(s)",
    "",
    usageLine "flexctl help" "[COMMAND]...",
    "",
    heading "Arguments:",
    "  [COMMAND]...  Print help for the subcommand(s)"]

def hasText (env : Environment) (name : String) : Bool := (env.get? name).any fun v => !v.isEmpty

/-- Whether faces are wanted where no terminal shows them. -/
def wantsFaces (env : Environment) : Bool := hasText env "CLICOLOR_FORCE" && !hasText env "NO_COLOR"

/-- What is printed on a topic.  A sequence that a variable leaves open is ended by the next face,
also where faces are taken away. -/
def helpText (env : Environment) (topic : Topic) : String :=
  let text := unlines (helpLines env topic)
  if wantsFaces env then text else plainText text

end FlexLink.Console
