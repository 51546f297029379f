import SegmentRouting.Http.MediaType
import SegmentRouting.Http.Target
import SegmentRouting.Registry.Rebuild
import SegmentRouting.Wire.Tables

/-! The broker's answers to requests. A request that is rejected before it
reaches the registry leaves it as it was. -/

namespace SegmentRouting.Http

structure Request where
  method : String
  target : String
  contentType : Option String
  body : String
deriving DecidableEq, Repr

inductive Body where
  | empty
  | json (value : Json.Value)
  | text (content : String)

structure Response where
  status : Nat
  body : Body

namespace Response

def rejection (status : Nat) : Response := ⟨status, .empty⟩

end Response

/-- Faults of the caller, of the lookup, and of the build itself. -/
def statusOf : RoutingError → Nat
  | .invalidConfig _ _ => 400
  | .tableMismatch _ _ => 400
  | .unknownTable _ => 404
  | .buildFailed _ => 500

def failure (e : RoutingError) : Response := ⟨statusOf e, .json e.json⟩

def isJsonContent (contentType : Option String) : Bool :=
  ((contentType.bind MediaType.ofHeader?).map (·.isJson)).getD false

/-- What follows the value of a body does not matter. -/
def readChange (body : String) : Except Response ChangeRequest :=
  match Json.readFront ChangeRequest.reader body with
  | .ok change => .ok change
  | .error .malformed => .error (.rejection 400)
  | .error .mismatch => .error (.rejection 422)

def acceptView (p : Planner) (r : Registry) (table : String) (change : ChangeRequest) :
    Response × Registry :=
  match r.rebuild p table (change.view table) change.members (fun _ => none)
      (List.range p.tableCount) with
  | (.ok set, r) => (⟨200, .json set.summary.json⟩, r)
  | (.error e, r) => (failure e, r)

/-- The content type is looked at before the body. -/
def putView (p : Planner) (r : Registry) (table : String) (q : Request) : Response × Registry :=
  if isJsonContent q.contentType then
    match readChange q.body with
    | .ok change => acceptView p r table change
    | .error rejected => (rejected, r)
  else (.rejection 415, r)

def getTables (r : Registry) (table : String) : Response :=
  match r.lookUp table with
  | .ok set => ⟨200, .json set.report.json⟩
  | .error e => failure e

def deleteTable (r : Registry) (table : String) : Response × Registry :=
  match r.drop table with
  | (true, r) => (⟨204, .empty⟩, r)
  | (false, r) => (failure (.unknownTable table), r)

/-- A table name that does not decode is rejected. -/
def withTable (r : Registry) (raw : String) (answer : String → Response × Registry) :
    Response × Registry :=
  match percentDecode? raw with
  | some table => answer table
  | none => (.rejection 400, r)

/-- Every resource has one method. -/
def answerRoute (p : Planner) (r : Registry) (q : Request) (method : String) :
    Route → Response × Registry
  | .health => if method = "GET" then (⟨200, .text "OK"⟩, r) else (.rejection 405, r)
  | .tables =>
    if method = "GET" then (⟨200, .json (tableListJson r.routed)⟩, r) else (.rejection 405, r)
  | .externalView raw =>
    if method = "PUT" then withTable r raw (fun table => putView p r table q)
    else (.rejection 405, r)
  | .table raw =>
    if method = "DELETE" then withTable r raw (deleteTable r) else (.rejection 405, r)
  | .routingTables raw =>
    if method = "GET" then withTable r raw (fun table => (getTables r table, r))
    else (.rejection 405, r)

/-- A `HEAD` request is answered like a `GET` request, without the body. -/
def handle (p : Planner) (r : Registry) (q : Request) : Response × Registry :=
  match Route.ofTarget? q.target with
  | none => (.rejection 404, r)
  | some route =>
    if q.method = "HEAD" then
      let (answer, r) := answerRoute p r q "GET" route
      (⟨answer.status, .empty⟩, r)
    else answerRoute p r q q.method route

end SegmentRouting.Http
