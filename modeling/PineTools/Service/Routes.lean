import PineTools.Service.Endpoint
import PineTools.Service.Framework

namespace PineTools.Service

def scriptOf (fields : List (Text × Json)) : Checked Text :=
  Read.required fields "script" Read.text

def ValidateBody.ofFields (fields : List (Text × Json)) : Checked ValidateBody :=
  ValidateBody.mk <$> scriptOf fields
    <*> Read.field fields "version" none (Read.nullable Read.text)
    <*> Read.field fields "max_time" none (Read.nullable Read.positive)

def FormatBody.ofFields (fields : List (Text × Json)) : Checked FormatBody :=
  FormatBody.mk <$> scriptOf fields
    <*> Read.field fields "options" none
      (Read.nullable (Read.record .requestRecordType (FormatOptions.ofFields .standard)))

def ConvertBody.ofFields (fields : List (Text × Json)) : Checked ConvertBody :=
  ConvertBody.mk <$> scriptOf fields <*> Read.required fields "target_version" Read.text

def SaveBody.ofFields (fields : List (Text × Json)) : Checked SaveBody :=
  SaveBody.mk <$> scriptOf fields <*> Read.field fields "notes" none (Read.nullable Read.text)

def CompareBody.ofFields (fields : List (Text × Json)) : Checked CompareBody :=
  CompareBody.mk <$> Read.required fields "old" Read.text <*> Read.required fields "new" Read.text

/-- The value of a body that must hold a record. -/
def readBody {α : Type} (read : List (Text × Json) → Checked α) (body : Option Json) : Checked α :=
  let checked :=
    match body with
    | none | some .null => Checked.fault .missing
    | some value => Read.record .requestRecordType read value
  checked.within (.key "body")

def readIndex (part : Text) : Checked Int :=
  ((Read.int (.str part)).within (.key "index")).within (.key "path")

def Endpoint.call (body : Option Json) : Endpoint → Checked Call
  | .health => .ok .health
  | .validate => .validate <$> readBody ValidateBody.ofFields body
  | .fix => .fix <$> readBody scriptOf body
  | .format => .format <$> readBody FormatBody.ofFields body
  | .convert => .convert <$> readBody ConvertBody.ofFields body
  | .compare => .compare <$> readBody CompareBody.ofFields body
  | .save => .save <$> readBody SaveBody.ofFields body
  | .history id => .ok (.history id)
  | .latest id => .ok (.latest id)
  | .record id part => .record id <$> readIndex part

namespace Framework

/-- The call of a request whose endpoint is known and whose method is the right one. -/
def standardRoute (r : Request) : Except Response Call :=
  match Endpoint.ofPath? (Endpoint.pathOf r.address) with
  | none => .error (.ofDetail 404 (.ofString "Not Found"))
  | some e =>
    if r.method.map Char.toUpper == e.method.toList then
      match e.call r.body with
      | .ok call => .ok call
      | .bad faults => .error ⟨422, .json (.ofList Fault.toJson faults)⟩
    else .error (.ofDetail 405 (.ofString "Method Not Allowed"))

/-- The framework as it is set up. The response to a request for a head alone, which no endpoint
answers, has no body. -/
def standard : Framework where
  route r :=
    (standardRoute r).mapError fun response =>
      if r.method.map Char.toUpper == "HEAD".toList then { response with body := .text "" }
      else response
  answer call outcome :=
    match outcome with
    | .ok value => ⟨call.okStatus, .json value⟩
    | .error (.http status detail) => .ofDetail status detail
    | .error .uncaught => ⟨500, .text "Internal Server Error"⟩

theorem standard_conventional : standard.Conventional :=
  ⟨fun _ _ _ => rfl, fun _ _ _ _ _ _ => rfl, fun _ => rfl⟩

end Framework

end PineTools.Service
