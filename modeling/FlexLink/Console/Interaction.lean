import FlexLink.Client.Options
import FlexLink.Client.Records
import FlexLink.Client.Request
import FlexLink.Console.Help

/-! # What the tool does

A run of the tool as the questions that it puts to its host, one after another, and what it leaves
behind.  The host answers from a real system or from one that is given as data. -/
set_option autoImplicit false
namespace FlexLink.Console

structure Output where
  code : Nat := 0
  out : String := ""
  err : String := ""
deriving DecidableEq

/-- A question to the host, with how to go on after each answer. -/
inductive Interaction where
  | done (output : Output)
  | readSettings (path : String) (next : FileState → Interaction)
  /-- Opens a journal, whose directory is made if need be. -/
  | openJournal (path : String) (next : Except JournalError JournalDirectory → Interaction)
  | exchange (options : SessionOptions) (request : Command) (timeout : Nat)
      (next : Except Failure Outcome → Interaction)

namespace Interaction

def finish (out : String) : Except Failure Unit → Interaction
  | .ok () => .done { out }
  | .error f => .done { code := 1, out, err := s!"Error: {f.report}\n" }

def fail (f : Failure) : Interaction := finish "" (.error f)

def request (settings : Settings) (arguments : Arguments) (request : Command) : Interaction :=
  match SessionOptions.ofClient settings arguments.bind arguments.peer with
  | .error f => fail f
  | .ok options =>
    .exchange options request arguments.timeout fun
      | .error f => fail f
      | .ok outcome => finish (unlines outcome.lines) outcome.verdict

def withJournal (path : String) (next : JournalDirectory → Interaction) : Interaction :=
  .openJournal path fun
    | .error e => fail (e.failure.under s!"failed to open journal at {path}")
    | .ok directory => next directory

def perform (settings : Settings) (arguments : Arguments) (now : Millis) (freshCorr : String) :
    Interaction :=
  let journal := arguments.journal.getD settings.bridge.journalDirectory
  match arguments.action with
  | .send intent body corr =>
    match makeRequest now (corr.getD freshCorr) intent body with
    | .error f => fail f
    | .ok envelope => request settings arguments envelope
  | .tail n =>
    withJournal journal fun directory =>
      match directory.tailLines n with
      | .error f => fail f
      | .ok lines => finish (unlines lines) (.ok ())
  | .replay corr =>
    withJournal journal fun directory =>
      match directory.requestAgain corr now with
      | .error f => fail f
      | .ok envelope => request settings arguments envelope

def run (env : Environment) (words : List String) (now : Millis) (freshCorr : String) :
    Interaction :=
  match Arguments.parse env words with
  | .error .usage => .done { code := 2 }
  | .error .version => .done { out := versionLine ++ "\n" }
  | .error (.help topic) => .done { out := helpText env topic }
  | .ok arguments =>
    let path := env.settingsFile
    .readSettings path fun file =>
      match Settings.load env path file with
      | .error e => fail ⟨"failed to load config", [e.message]⟩
      | .ok settings => perform settings arguments now freshCorr

end Interaction

end FlexLink.Console
