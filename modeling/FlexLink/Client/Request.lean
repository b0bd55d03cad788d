import FlexLink.Client.Exchange
import FlexLink.Text.Blank

/-! # Requests by hand

A request is made of an intent and the text of its body; what came of it is told reply by reply. -/
set_option autoImplicit false
namespace FlexLink

/-- A random correlation, of 16 random bytes: hexadecimal digits in groups, with the marks of
version 4 and of its variant. -/
def randomCorr (bytes : Vector UInt8 16) : String :=
  let marked := bytes.toList.mapIdx fun i b =>
    if i = 6 then b &&& 0x0F ||| 0x40 else if i = 8 then b &&& 0x3F ||| 0x80 else b
  let group (start size : Nat) : String := Hex.encode ((marked.drop start).take size)
  "-".intercalate [group 0 4, group 4 2, group 6 2, group 8 2, group 10 6]

def readBody (text : String) : Except Failure Json :=
  match Json.parse text with
  | .error e => .error ⟨"body is not valid JSON", [e.message]⟩
  | .ok (.object members) => .ok (.object members)
  | .ok _ => .error ⟨"body must be a JSON object", []⟩

def makeRequest (now : Millis) (corr intent body : String) : Except Failure Command :=
  if (Text.trim intent).isEmpty then .error ⟨"intent must not be empty", []⟩
  else
    match readBody body with
    | .error e => .error e
    | .ok body => .ok (.new now corr intent body)

namespace Outcome

def lines (o : Outcome) : List String := o.replies.map fun r => s!"{o.corr}  {r.describe}"

/-- Only a final success is a success. -/
def verdict (o : Outcome) : Except Failure Unit :=
  match o.final? with
  | none => .error ⟨s!"{o.corr} got no final reply", []⟩
  | some r => if r.success = some true then .ok () else .error ⟨s!"{o.corr} {r.describe}", []⟩

end Outcome
end FlexLink
