import FlexLink.Envelope.Command
import FlexLink.Table
import FlexLink.Text.Quoted

/-! # Handlers and routes

A handler answers a request with a reply or a refusal, at once or after a while, and may keep
something from one request to the next.  A router hands each request to the handler of its
intent. -/
set_option autoImplicit false
namespace FlexLink

inductive DispatchError where
  | notFound (intent : String)
  | invalidParams (why : String)
  | server (code : UInt16) (why : String)
deriving DecidableEq

def DispatchError.message : DispatchError → String
  | .notFound intent => s!"no route for intent {Text.quote intent}"
  | .invalidParams why => s!"invalid params: {why}"
  | .server code why => s!"server error {code.toNat}: {why}"

structure Handling where
  /-- Nanoseconds until the result is there. -/
  delay : Nat := 0
  /-- Nothing if the handler breaks down. -/
  result : Option (Except DispatchError Reply)

/-- Something that answers requests; what it keeps is of type `ρ`. -/
structure Handler (ρ : Type) where
  call : ρ → Command → ρ × Handling

namespace Handler

variable {ρ : Type}

def steady (answer : Command → Handling) : Handler ρ := ⟨fun kept request => (kept, answer request)⟩

def ping : Handler ρ := .steady fun _ => ⟨0, some (.ok .succeeded)⟩

def refusing (why : DispatchError) : Handler ρ := .steady fun _ => ⟨0, some (.error why)⟩

/-- A handler that keeps its calls and what they gave, newest first. -/
def logged (h : Handler ρ) : Handler (ρ × List (Command × Handling)) where
  call kept request :=
    let (next, handling) := h.call kept.1 request
    ((next, (request, handling) :: kept.2), handling)

end Handler

structure Router (ρ : Type) where
  routes : Table String (Handler ρ) := {}

namespace Router

variable {ρ : Type}

def register (r : Router ρ) (intent : String) (handler : Handler ρ) : Router ρ :=
  ⟨r.routes.insert intent handler⟩

def intents (r : Router ρ) : List String := r.routes.keys.mergeSort fun a b => decide (a ≤ b)

def handler (r : Router ρ) : Handler ρ where
  call kept request :=
    match r.routes.get? request.intent with
    | some handler => handler.call kept request
    | none => (kept, ⟨0, some (.error (.notFound request.intent))⟩)

end Router
end FlexLink
