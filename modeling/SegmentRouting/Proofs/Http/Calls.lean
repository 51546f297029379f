import SegmentRouting.Http.Api
import SegmentRouting.Proofs.Http.Spelling
import SegmentRouting.Proofs.Wire.RoundTrip

/-! What requests ask for, told apart from what the broker keeps. A table may be named by any
spelling of its name, and each of them is understood. -/

namespace SegmentRouting.Http

/-- What a request asks for once its path, its content type and its body have been read. -/
inductive Call where
  | health
  | list
  | accept (table : String) (change : ChangeRequest)
  | look (table : String)
  | forget (table : String)
  | refused (status : Nat)

namespace Call

def ofTable (raw : String) (call : String → Call) : Call :=
  match percentDecode? raw with
  | some table => call table
  | none => .refused 400

end Call

namespace Request

variable (q : Request)

def change (table : String) : Call :=
  if isJsonContent q.contentType then
    match Json.readFront ChangeRequest.reader q.body with
    | .ok change => .accept table change
    | .error .malformed => .refused 400
    | .error .mismatch => .refused 422
  else .refused 415

def callOn (method : String) : Route → Call
  | .health => if method = "GET" then .health else .refused 405
  | .tables => if method = "GET" then .list else .refused 405
  | .externalView raw => if method = "PUT" then .ofTable raw q.change else .refused 405
  | .table raw => if method = "DELETE" then .ofTable raw .forget else .refused 405
  | .routingTables raw => if method = "GET" then .ofTable raw .look else .refused 405

def call : Call :=
  match Route.ofTarget? q.target with
  | none => .refused 404
  | some route => q.callOn (if q.method = "HEAD" then "GET" else q.method) route

/-- The answer to a `HEAD` request has no body. -/
def trim (answer : Response) : Response :=
  if q.method = "HEAD" then ⟨answer.status, .empty⟩ else answer

end Request

/-- What the broker does for a call. -/
def perform (p : Planner) (r : Registry) : Call → Response × Registry
  | .health => (⟨200, .text "OK"⟩, r)
  | .list => (⟨200, .json (tableListJson r.routed)⟩, r)
  | .accept table change => acceptView p r table change
  | .look table => (getTables r table, r)
  | .forget table => deleteTable r table
  | .refused status => (⟨status, .empty⟩, r)

variable {p : Planner} {r : Registry}

theorem putView_eq_perform (q : Request) (table : String) :
    putView p r table q = perform p r (q.change table) := by
  unfold putView Request.change
  split
  · unfold readChange
    cases Json.readFront ChangeRequest.reader q.body with
    | ok change => rfl
    | error fault => cases fault <;> rfl
  · rfl

theorem withTable_eq_perform {raw : String} {answer : String → Response × Registry}
    {call : String → Call} (h : ∀ table, answer table = perform p r (call table)) :
    withTable r raw answer = perform p r (.ofTable raw call) := by
  unfold withTable Call.ofTable
  cases percentDecode? raw with
  | none => rfl
  | some table => exact h table

theorem answerRoute_eq_perform (q : Request) (method : String) (route : Route) :
    answerRoute p r q method route = perform p r (q.callOn method route) := by
  cases route with
  | health => simp only [answerRoute, Request.callOn]; split <;> rfl
  | tables => simp only [answerRoute, Request.callOn]; split <;> rfl
  | externalView raw =>
    simp only [answerRoute, Request.callOn]
    split
    · exact withTable_eq_perform (putView_eq_perform q)
    · rfl
  | table raw =>
    simp only [answerRoute, Request.callOn]
    split
    · exact withTable_eq_perform (fun _ => rfl)
    · rfl
  | routingTables raw =>
    simp only [answerRoute, Request.callOn]
    split
    · exact withTable_eq_perform (fun _ => rfl)
    · rfl

theorem handle_eq_perform (p : Planner) (r : Registry) (q : Request) :
    handle p r q = (q.trim (perform p r q.call).1, (perform p r q.call).2) := by
  unfold handle Request.call Request.trim
  cases Route.ofTarget? q.target with
  | none => simp [perform, Response.rejection]
  | some route =>
    by_cases h : q.method = "HEAD"
    · simp only [h, if_true, answerRoute_eq_perform]
    · simp only [h, if_false, answerRoute_eq_perform]

/-- The request that brings a new view of the table that `raw` spells. -/
def changeRequest (raw : String) (change : ChangeRequest) : Request :=
  ⟨"PUT", "/tables/" ++ raw ++ "/external-view", some "application/json", change.json.text⟩

def tablesRequest (raw : String) : Request := ⟨"GET", "/debug/routing-tables/" ++ raw, none, ""⟩

section Calls

variable {raw name : String}

theorem call_changeRequest (h : Spells raw name) (change : ChangeRequest) :
    (changeRequest raw change).call = .accept name change := by
  have hcontent : isJsonContent (some "application/json") = true := by decide +kernel
  simp only [Request.call, changeRequest, h.ofTarget?_externalView, Request.callOn, Call.ofTable,
    h.decodes, Request.change, hcontent, change.readsAs.readFront]
  simp

theorem call_tablesRequest (h : Spells raw name) (hname : name ≠ "") :
    (tablesRequest raw).call = .look name := by
  simp only [Request.call, tablesRequest, h.ofTarget?_routingTables hname, Request.callOn,
    Call.ofTable, h.decodes]
  simp

end Calls

end SegmentRouting.Http
