/-
# What a response is turned into

What Alamofire makes of a data request's response once it is there: the
validations that `validate()` adds to the request, each of which may refuse the
response, and the JSON serializer of `responseJSON`, which gives its handler a
`Result`. `JSONSerialization` is a parameter, and an error of the system is
known by its description.

A validation is skipped while the request has an error, so the first one that
refuses decides (`runValidations`); the request's error then decides over
what came with the completion (`taskError`).

Key definitions: `AFError`, `MIMEType`, `Validation`, `runValidations`, `serializeResponseJSON`.
Key theorems: `validateContentType_wildcard`, `serializeResponseJSON_eq_success`.
-/
import Workshop2018.Network.Network

namespace Workshop2018
namespace Alamofire

abbrev Data := List UInt8

structure HTTPURLResponse where
  statusCode : ℤ
  mimeType : Option String := none
  deriving DecidableEq, Repr

/-! ### Errors -/

/-- `AFError`, in the cases that a data request meets. -/
inductive AFError
  | invalidURL (url : String)
  | missingContentType (acceptableContentTypes : List String)
  | unacceptableContentType (acceptableContentTypes : List String) (responseContentType : String)
  | unacceptableStatusCode (code : ℤ)
  | inputDataNilOrZeroLength
  | jsonSerializationFailed (description : String)
  deriving DecidableEq, Repr

def AFError.errorDescription : AFError → String
  | invalidURL url => "URL is not valid: " ++ url
  | missingContentType types =>
    "Response Content-Type was missing and acceptable content types " ++
      "(" ++ ",".intercalate types ++ ") do not match \"*/*\"."
  | unacceptableContentType acceptableTypes responseType =>
    "Response Content-Type \"" ++ responseType ++ "\" does not match any acceptable types: " ++
      ",".intercalate acceptableTypes ++ "."
  | unacceptableStatusCode code => "Response status code was unacceptable: " ++ toString code ++ "."
  | inputDataNilOrZeroLength =>
    "Response could not be serialized, input data was nil or zero length."
  | jsonSerializationFailed description =>
    "JSON could not be serialized because of error:\n" ++ description

/-- An error of a request: one of the system's, or one of Alamofire's. -/
inductive NetworkError
  | system (description : String)
  | afError (error : AFError)
  deriving DecidableEq, Repr

/-- The error as the closures of `Network` are handed it. -/
def NetworkError.swiftError : NetworkError → SwiftError
  | system description => .alamofire description
  | afError error => .alamofire error.errorDescription

/-! ### Validation -/

/-- `CharacterSet.whitespacesAndNewlines`. -/
def isSpace (c : Char) : Bool :=
  c.toNat ∈ [0x09, 0x0A, 0x0B, 0x0C, 0x0D, 0x20, 0x85, 0xA0, 0x1680, 0x2028, 0x2029, 0x202F, 0x205F,
    0x3000] || (0x2000 ≤ c.toNat && c.toNat ≤ 0x200B)

structure MIMEType where
  type : List Char
  subtype : List Char
  deriving DecidableEq, Repr

namespace MIMEType

/-- `init?(_:)`: the first and the last of the parts between slashes, before any semicolon. -/
def ofString (string : String) : Option MIMEType :=
  let stripped := ((string.toList.dropWhile isSpace).reverse.dropWhile isSpace).reverse
  let components := (stripped.takeWhile (· ≠ ';')).splitOn '/'
  match components.head?, components.getLast? with
  | some type, some subtype => some { type, subtype }
  | _, _ => none

def isWildcard (m : MIMEType) : Bool := m.type = ['*'] ∧ m.subtype = ['*']

/-- `matches(_:)`. -/
def matchesType (m mime : MIMEType) : Bool :=
  m = mime ∨ m.type = mime.type ∧ m.subtype = ['*'] ∨ m.type = ['*'] ∧ m.subtype = mime.subtype ∨
    m.type = ['*'] ∧ m.subtype = ['*']

end MIMEType

/-- A closure that `validate` adds: it refuses the response with an error, or does not. -/
abbrev Validation := HTTPURLResponse → Option Data → Option NetworkError

/-- `200..<300`. -/
def acceptableStatusCode (code : ℤ) : Prop := 200 ≤ code ∧ code < 300

instance : DecidablePred acceptableStatusCode := fun _ => by
  unfold acceptableStatusCode; infer_instance

def validateStatusCode : Validation := fun response _ =>
  if acceptableStatusCode response.statusCode then none
  else some (.afError (.unacceptableStatusCode response.statusCode))

/-- The content types a request accepts, by its `Accept` header. -/
def acceptableContentTypes (accept : Option String) : List String :=
  match accept with
  | some accept => (accept.toList.splitOn ',').map String.ofList
  | none => ["*/*"]

def validateContentType (acceptableContentTypes : List String) : Validation := fun response data =>
  match data with
  | none => none
  | some data =>
    if data.length = 0 then none
    else
      match response.mimeType.bind fun t => (MIMEType.ofString t).map fun mime => (t, mime) with
      | none =>
        if acceptableContentTypes.any fun t => (MIMEType.ofString t).any MIMEType.isWildcard then none
        else some (.afError (.missingContentType acceptableContentTypes))
      | some (responseContentType, responseMIMEType) =>
        if acceptableContentTypes.any fun t =>
            (MIMEType.ofString t).any fun m => m.matchesType responseMIMEType then none
        else some (.afError (.unacceptableContentType acceptableContentTypes responseContentType))

/-- The error of the request after its validations: each is run only where
there is a response and no error yet. -/
def runValidations (response : Option HTTPURLResponse) (data : Option Data) :
    List Validation → Option NetworkError → Option NetworkError
  | [], error => error
  | v :: vs, error =>
    match response, error with
    | some r, none => runValidations response data vs (v r data)
    | _, _ => runValidations response data vs error

/-- The error a task ends with: that of the request, or else that of its completion. -/
def taskError (error completion : Option NetworkError) : Option NetworkError :=
  match error with
  | some e => some e
  | none => completion

/-! ### Serialization -/

def emptyDataStatusCodes : List ℤ := [204, 205]

/-- The serializer of `responseJSON`, on `JSONSerialization.jsonObject`. -/
def serializeResponseJSON (jsonObject : Data → Except String Json)
    (response : Option HTTPURLResponse) (data : Option Data) (error : Option NetworkError) :
    Result Json :=
  match error with
  | some error => .failure error.swiftError
  | none =>
    if response.any fun r => r.statusCode ∈ emptyDataStatusCodes then .success .null
    else
      match data with
      | none => .failure (NetworkError.afError .inputDataNilOrZeroLength).swiftError
      | some validData =>
        if validData.length > 0 then
          match jsonObject validData with
          | .ok json => .success json
          | .error description =>
            .failure (NetworkError.afError (.jsonSerializationFailed description)).swiftError
        else .failure (NetworkError.afError .inputDataNilOrZeroLength).swiftError

/-! ### What they do -/

/-- A request that accepts everything does not refuse a content type. -/
theorem validateContentType_wildcard (response : HTTPURLResponse) (data : Option Data) :
    validateContentType (acceptableContentTypes none) response data = none := by
  have hstar : MIMEType.ofString "*/*" = some ⟨['*'], ['*']⟩ := by decide
  have hany : ∀ m : MIMEType, (⟨['*'], ['*']⟩ : MIMEType).matchesType m = true := by
    intro m
    simp [MIMEType.matchesType]
  unfold validateContentType
  rcases data with _ | data
  · rfl
  · dsimp only
    split
    · rfl
    · rcases response.mimeType.bind _ with _ | ⟨t, mime⟩
      · simp [acceptableContentTypes, hstar, MIMEType.isWildcard]
      · simp [acceptableContentTypes, hstar, hany]

variable {response : Option HTTPURLResponse} {data : Option Data} {error : Option NetworkError}

/-- An error that is there stays. -/
theorem runValidations_of_error (vs : List Validation) (e : NetworkError) :
    runValidations response data vs (some e) = some e := by
  induction vs with
  | nil => rfl
  | cons v vs ih =>
    rcases response with _ | r
    · exact ih
    · exact ih

theorem runValidations_of_no_response (vs : List Validation) :
    runValidations none data vs error = error := by
  induction vs with
  | nil => rfl
  | cons v vs ih => exact ih

/-- The first validation that refuses the response decides. -/
theorem runValidations_eq_findSome (vs : List Validation) (r : HTTPURLResponse) :
    runValidations (some r) data vs none = vs.findSome? fun v => v r data := by
  induction vs with
  | nil => rfl
  | cons v vs ih =>
    rw [List.findSome?_cons]
    rcases hv : v r data with _ | e
    · simp only [runValidations, hv]
      exact ih
    · simp only [runValidations, hv]
      exact runValidations_of_error vs e

/-- What a handler is given is a success just where the request has no error
and either the status code says that there is no data, or the data is a value. -/
theorem serializeResponseJSON_eq_success {jsonObject : Data → Except String Json} {json : Json} :
    serializeResponseJSON jsonObject response data error = .success json ↔
      error = none ∧
        ((∃ r ∈ response, r.statusCode ∈ emptyDataStatusCodes) ∧ json = .null ∨
          (¬ ∃ r ∈ response, r.statusCode ∈ emptyDataStatusCodes) ∧
            ∃ d ∈ data, d ≠ [] ∧ jsonObject d = .ok json) := by
  rcases error with _ | e
  swap
  · simp [serializeResponseJSON]
  have hany : (response.any fun r => r.statusCode ∈ emptyDataStatusCodes) = true ↔
      ∃ r ∈ response, r.statusCode ∈ emptyDataStatusCodes := by
    rcases response with _ | r <;> simp
  unfold serializeResponseJSON
  by_cases hempty : ∃ r ∈ response, r.statusCode ∈ emptyDataStatusCodes
  · simp only [hany.mpr hempty, if_true, hempty, true_and, not_true, false_and, or_false]
    simp [eq_comm]
  · rw [if_neg (fun h => hempty (hany.mp h))]
    simp only [hempty, false_and, not_false_eq_true, true_and, false_or]
    rcases data with _ | d
    · simp
    · dsimp only
      rcases d with _ | ⟨b, bs⟩
      · simp
      · rcases hj : jsonObject (b :: bs) with e | j <;> simp [hj]

end Alamofire
end Workshop2018
