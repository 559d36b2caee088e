import SizedCache.Json.Text

/-!
# Routes

A route is named by the path of a request. A key is one segment of the path that
is not empty, in which a percent sign and two hexadecimal digits stand for a
byte; other percent signs stand for themselves.
-/

namespace SizedCache.Http

inductive Method where
  | get
  | head
  | put
  | post
  | delete
  | options
  | other (name : String)
deriving DecidableEq, Repr

def Method.ofName : String → Method
  | "GET" => .get
  | "HEAD" => .head
  | "PUT" => .put
  | "POST" => .post
  | "DELETE" => .delete
  | "OPTIONS" => .options
  | name => .other name

inductive Route where
  | set
  /-- A key as it stands in the path. -/
  | get (segment : String)
  | delete (segment : String)
  | stats
  | cleanup
  | health
deriving DecidableEq, Repr

namespace Route

/-- The path of a target, which may also name a scheme and a host, before a query
or a fragment. -/
def pathOf (target : String) : String :=
  let cs := target.toList.takeWhile fun c => c ≠ '?' && c ≠ '#'
  match cs with
  | '/' :: _ => String.ofList cs
  | _ =>
    match cs.dropWhile (· ≠ ':') with
    | ':' :: '/' :: '/' :: rest =>
      match rest.dropWhile (· ≠ '/') with
      | [] => "/"
      | path => String.ofList path
    | _ => String.ofList cs

def segments (path : String) : List String := (path.toList.splitOn '/').map String.ofList

def ofPath? (path : String) : Option Route :=
  match segments path with
  | ["", "set"] => some .set
  | ["", "get", segment] => if segment.isEmpty then none else some (.get segment)
  | ["", "del", segment] => if segment.isEmpty then none else some (.delete segment)
  | ["", "stats"] => some .stats
  | ["", "cleanup"] => some .cleanup
  | ["", "health"] => some .health
  | _ => none

def methods : Route → List String
  | .set => ["PUT"]
  | .get _ | .stats | .health => ["GET", "HEAD"]
  | .delete _ => ["DELETE"]
  | .cleanup => ["POST"]

end Route

-- ---------------------------------------------------------------------------
-- Keys in a path
-- ---------------------------------------------------------------------------

def percentDecode : List UInt8 → List UInt8
  | [] => []
  | b :: rest =>
    if b = '%'.toUInt8 then
      match rest with
      | hi :: lo :: rest =>
        match Json.hexDigit? hi, Json.hexDigit? lo with
        | some h, some l => UInt8.ofNat (16 * h + l) :: percentDecode rest
        | _, _ => b :: percentDecode (hi :: lo :: rest)
      | rest => b :: rest
    else b :: percentDecode rest

/-- The key that a segment stands for, unless its bytes are not UTF-8. -/
def keyOf? (segment : String) : Option String :=
  String.fromUTF8? (percentDecode segment.toUTF8.toList).toByteArray

end SizedCache.Http
