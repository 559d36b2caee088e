/-!
# Media types

A body counts as JSON if its media type is `application/json`, or `application`
with a subtype that ends in `+json`. Letters may be of either case, and
well-formed parameters may follow.
-/

namespace SizedCache.Http.MediaType

def isToken (c : Char) : Bool :=
  c.isAlphanum || "!#$%&'*+-.^_`|~".toList.contains c

def isQuoted (c : Char) : Bool := ' ' ≤ c && c ≤ '~'

inductive Place where
  | start
  | name
  | value (empty : Bool)
  | quoted (empty : Bool)
  | closed

def Place.step (c : Char) : Place → Option Place
  | .start => if c = ' ' then some .start else if isToken c then some .name else none
  | .name => if c = '=' then some (.value true) else if isToken c then some .name else none
  | .value empty =>
    if c = '"' && empty then some (.quoted true)
    else if isToken c then some (.value false)
    else if c = ';' && !empty then some .start
    else none
  | .quoted empty =>
    if c = '"' && !empty then some .closed
    else if isQuoted c then some (.quoted false)
    else none
  | .closed => if c = ';' then some .start else if c = ' ' then some .closed else none

/-- Whether parameters may end here. A semicolon need not be followed by one. -/
def Place.final : Place → Bool
  | .start | .value _ | .closed => true
  | .name | .quoted _ => false

def goodParameters (cs : List Char) : Bool :=
  ((cs.foldlM (fun p c => Place.step c p) Place.start).map Place.final).getD false

/-- The part after the last plus sign that is not the first character, and the
part before it. -/
def splitSuffix (subtype : List Char) : List Char × Option (List Char) :=
  let tail := subtype.reverse.takeWhile (· ≠ '+')
  let rest := subtype.reverse.dropWhile (· ≠ '+')
  match rest with
  | '+' :: c :: front => ((c :: front).reverse, some tail.reverse)
  | _ => (subtype, none)

def isJson (s : String) : Bool :=
  let cs := s.toList.map Char.toLower
  let main := cs.takeWhile (· ≠ '/')
  match cs.dropWhile (· ≠ '/') with
  | [] => false
  | _ :: rest =>
    let subtype := rest.takeWhile (· ≠ ';')
    let parameters := rest.dropWhile (· ≠ ';')
    let (name, suffix) := splitSuffix subtype
    main = "application".toList && subtype.all isToken &&
      (name = "json".toList || suffix = some "json".toList) &&
      (parameters.isEmpty || goodParameters parameters.tail)

end SizedCache.Http.MediaType
