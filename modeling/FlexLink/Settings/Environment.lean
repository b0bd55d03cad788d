/-! # The environment

Named values that the host passes to the program, and the places of its files that follow from
them. -/
set_option autoImplicit false
namespace FlexLink

structure Environment where
  bindings : List (String × String)

namespace Environment

def get? (env : Environment) (name : String) : Option String := env.bindings.lookup name

/-- `name` inside `directory`; a slash separates them, and nothing does below the empty path. -/
def within (directory name : String) : String :=
  if name.startsWith "/" then name
  else if directory.isEmpty then name
  else if directory.endsWith "/" then directory ++ name
  else directory ++ "/" ++ name

def home (env : Environment) : String := (env.get? "HOME").getD "/tmp"

def configDirectory (env : Environment) : String :=
  within ((env.get? "XDG_CONFIG_HOME").getD (within env.home ".config")) "flexmidi"

def dataDirectory (env : Environment) : String :=
  within ((env.get? "XDG_DATA_HOME").getD (within (within env.home ".local") "share")) "flexmidi"

def settingsFile (env : Environment) : String :=
  (env.get? "FLEXMIDI_CONFIG").getD (within env.configDirectory "config.toml")

def journalDirectory (env : Environment) : String := within env.dataDirectory "journal"

end Environment
end FlexLink
