import SizedCache.Http
import SizedCache.Proofs.CallLaws

/-!
# Requests as calls

A request that gets past its route, its method and the checks of its key and body
asks one thing of the cache, and answering it is that one call. Any other request
leaves the service as it was. Which requests ask what is told by the requests
alone, whatever the cache holds.
-/

namespace SizedCache

inductive Write where
  | put (key value : String) (ttl : UInt64)
  | delete (key : String)
deriving DecidableEq, Repr

def Write.key : Write → String
  | .put k _ _ | .delete k => k

inductive Action where
  | write (w : Write)
  | read (key : String)
  | cleanup
deriving DecidableEq, Repr

namespace Action

/-- A value lives from the time of the call on. -/
def call (now : Int64) : Action → Cache.Call String (Timed String)
  | .write (.put k v ttl) => .put k (Timed.lasting v now (some ttl))
  | .write (.delete k) => .remove k
  | .read k => .getLive k
  | .cleanup => .forceCleanup

def write? : Action → Option Write
  | .write w => some w
  | .read _ | .cleanup => none

end Action

namespace Http

/-- What a request asks of a cache, if it is accepted and the cache is needed to
answer it. Values live for `defaultTtl` seconds unless the request says. -/
def Request.action? (defaultTtl : UInt64) (r : Request) : Option Action :=
  match Route.ofPath? (Route.pathOf r.target), r.method with
  | some .set, .put =>
    match setRequest r with
    | .ok request =>
      match request.fault? with
      | none => some (.write (.put request.key request.value (request.ttl.getD defaultTtl)))
      | some _ => none
    | .error _ => none
  | some (.get segment), .get | some (.get segment), .head => (keyOf? segment).map .read
  | some (.delete segment), .delete => (keyOf? segment).map (.write <| .delete ·)
  | some .cleanup, .post => some .cleanup
  | _, _ => none

end Http

namespace Service

open Http

variable {σ : Type} (s : Service σ)

def perform (action? : Option Action) : Service σ :=
  match action? with
  | some a => { s with cache := (s.cache.step (a.call s.cache.now)).2 }
  | none => s

theorem answerRoute_snd (r : Request) {route : Route}
    (hroute : Route.ofPath? (Route.pathOf r.target) = some route) :
    (s.answerRoute r route).2 = s.perform (r.action? s.defaultTtl) := by
  unfold Request.action?
  rw [hroute]
  cases route with
  | set =>
    cases hm : r.method with
    | put =>
      simp only [answerRoute, hm]
      cases hset : setRequest r with
      | error status => rfl
      | ok request =>
        simp only [set]
        cases request.fault? with
        | none => rfl
        | some fault => rfl
    | _ => simp only [answerRoute, hm, perform]
  | get segment =>
    cases hm : r.method with
    | get | head =>
      simp only [answerRoute, hm, headersOnly, withKey]
      cases keyOf? segment <;> rfl
    | _ => simp only [answerRoute, hm, perform]
  | delete segment =>
    cases hm : r.method with
    | delete =>
      simp only [answerRoute, hm, withKey]
      cases keyOf? segment <;> rfl
    | _ => simp only [answerRoute, hm, perform]
  | stats | health => cases hm : r.method <;> simp only [answerRoute, hm, perform, headersOnly]
  | cleanup =>
    cases hm : r.method with
    | post =>
      simp only [answerRoute, hm]
      rfl
    | _ => simp only [answerRoute, hm, perform]

/-- A request does to a service what it asks, and nothing else. -/
theorem answer_snd (r : Request) : (s.answer r).2 = s.perform (r.action? s.defaultTtl) := by
  cases hroute : Route.ofPath? (Route.pathOf r.target) with
  | none =>
    have hnone : r.action? s.defaultTtl = none := by simp only [Request.action?, hroute]
    rw [hnone]
    cases hm : r.method <;> simp only [answer, hroute, hm, perform]
  | some route =>
    rw [← answerRoute_snd s r hroute]
    cases hm : r.method with
    | options => cases route <;> simp only [answer, hroute, hm, answerRoute]
    | _ => simp only [answer, hroute, hm]

def readable (r : Response) : Response := { r with allowOrigin := some "*" }

theorem answer_read {r : Request} {k : String} (hm : r.method = .get)
    (hread : r.action? s.defaultTtl = some (.read k)) :
    (s.answer r).1 = readable (s.get k).1 := by
  unfold Request.action? at hread
  split at hread
  · -- to store
    rename_i hput
    cases hm.symm.trans hput
  · rename_i segment hroute _
    obtain ⟨key, hkey, hsame⟩ := Option.map_eq_some_iff.mp hread
    cases hsame
    simp only [answer, hroute, hm, answerRoute, withKey, hkey, readable]
  · -- the headers alone
    rename_i hhead
    cases hm.symm.trans hhead
  · rename_i hdelete
    cases hm.symm.trans hdelete
  · rename_i hpost
    cases hm.symm.trans hpost
  · cases hread

end Service

end SizedCache
