import SizedCache.Http.MediaType
import SizedCache.Http.Route
import SizedCache.Service

/-!
# Serving over HTTP

A request is answered by its route and method. What is refused on the way (an
unknown route or method, a key that is no text, a body that is no request)
never reaches the cache. Every answer may be read from any origin, and a question
for the options of a route is answered without it.
-/

namespace SizedCache

namespace Http

structure Request where
  method : Method
  target : String
  contentType : Option String
  body : Json.Bytes

def maxBodyBytes : Nat := 2097152

/-- The request in a body, or the status under which it is refused. What follows
the request in the body is not looked at. -/
def setRequest (r : Request) : Except Nat SetRequest :=
  if (r.contentType.map MediaType.isJson).getD false then
    if maxBodyBytes < r.body.length then .error 413
    else
      match SetRequest.read r.body with
      | .ok (request, _) => .ok request
      | .error .unsuitable => .error 422
      | .error .malformed | .error .truncated => .error 400
  else .error 415

end Http

namespace Service

open Http

variable {σ : Type}

def withKey (s : Service σ) (segment : String) (f : String → Response × Service σ) :
    Response × Service σ :=
  match keyOf? segment with
  | some key => f key
  | none => (.refused 400, s)

def headersOnly (r : Response × Service σ) : Response × Service σ :=
  ({ r.1 with headersOnly := true }, r.2)

def answerRoute (s : Service σ) (r : Request) (route : Route) : Response × Service σ :=
  match route, r.method with
  | .set, .put =>
    match setRequest r with
    | .ok request => s.set request
    | .error status => (.refused status, s)
  | .get segment, .get => s.withKey segment s.get
  | .get segment, .head => headersOnly (s.withKey segment s.get)
  | .delete segment, .delete => s.withKey segment s.delete
  | .stats, .get => (s.stats, s)
  | .stats, .head => headersOnly (s.stats, s)
  | .cleanup, .post => s.cleanup
  | .health, .get => (s.health, s)
  | .health, .head => headersOnly (s.health, s)
  | route, _ => ({ status := 405, allow := route.methods }, s)

def answer (s : Service σ) (r : Request) : Response × Service σ :=
  let route? := Route.ofPath? (Route.pathOf r.target)
  let (response, s) : Response × Service σ :=
    match r.method, route? with
    | .options, route? => ({ status := 200, allow := (route?.map Route.methods).getD [] }, s)
    | _, some route => s.answerRoute r route
    | _, none => ({ status := 404 }, s)
  ({ response with allowOrigin := some "*" }, s)

end Service

end SizedCache
