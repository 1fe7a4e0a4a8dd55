import PineTools.Service.Call

/-! Requests, responses and the framework between them and the endpoints. It finds the endpoint of a
request, checks and reads the body, and makes responses of what the endpoints return and of how they
fail. -/
namespace PineTools.Service

structure Request where
  method : Text
  address : Text
  body : Option Json

inductive Body where
  | json (value : Json)
  | text (text : String)
  deriving Inhabited

structure Response where
  status : Nat
  body : Body
  deriving Inhabited

def Response.ofDetail (status : Nat) (detail : Json) : Response :=
  ⟨status, .json (.ofFields [("detail", detail)])⟩

structure Framework where
  /-- The call of a request, or the response to one that does not get to an endpoint. -/
  route : Request → Except Response Call
  answer : Call → Except Failure Json → Response

/-- A value that can be sent: a fraction may be no number, and half of a surrogate pair cannot be
encoded. -/
inductive Sendable : Json → Prop
  | null : Sendable .null
  | bool (b : Bool) : Sendable (.bool b)
  | int (n : Int) : Sendable (.int n)
  | str (t : Text) : Sendable (.str t)
  | arr {items : List Json} (all : ∀ v ∈ items, Sendable v) : Sendable (.arr items)
  | obj {fields : List (Text × Json)} (all : ∀ f ∈ fields, Sendable f.2) : Sendable (.obj fields)

/-- What a framework promises: a returned value is sent with the status of its endpoint, a failure
with its status and its detail, and an error that nothing catches as an internal one. Only the
status of an error is sure to have a body. -/
structure Framework.Conventional (f : Framework) : Prop where
  returned (call : Call) {value : Json} (sendable : Sendable value) :
    f.answer call (.ok value) = ⟨call.okStatus, .json value⟩
  failed (call : Call) {status : Nat} {detail : Json} (low : 400 ≤ status) (high : status < 600)
    (sendable : Sendable detail) :
    f.answer call (.error (.http status detail)) = .ofDetail status detail
  uncaught (call : Call) : (f.answer call (.error .uncaught)).status = 500

def respond {κ ι : Type} [Clock κ Float] [Clock ι Int] (f : Framework) (w : Workbench κ ι)
    (r : Request) : Response × Workbench κ ι :=
  match f.route r with
  | .error response => (response, w)
  | .ok call =>
    let (outcome, w) := call.serve w
    (f.answer call outcome, w)

end PineTools.Service
