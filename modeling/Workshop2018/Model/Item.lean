/-
# Items and the JSON they are decoded from

`Item` and the part of Foundation its decoding rests on: the values
`JSONSerialization` returns, the casts of them that `Network` makes, and
`JSONDecoder`'s decoding of the fields of an item. A field of an item is
optional: it is `nil` where the key is missing or null, and the whole item
fails to decode where the key holds a value of another type. Keys that are not
fields are ignored.

The synthesised `Encodable` half gives the round trip `decode_encode`: every
item whose integers fit `Int` and whose `url` is a URL is the item some object
decodes to, so the responses of the model range over all of them. Conversely an
object decodes to an item only if it has, but for nulls and keys that are not
fields, what `encode` writes for that item (`decode_iff`).

What Foundation does with text (which strings are URLs, the attributed string
of an HTML text, the description of an error) is the parameter `Foundation`.

Key definitions: `Json`, `Item`, `Item.decode`, `Item.attributtedText`.
Key theorems: `Item.decode_encode`, `Item.decode_iff`.
-/
import Mathlib

namespace Workshop2018

/-- An error handed to a `failure` closure: one of Alamofire's, by what it
says, or MJSwiftCore's `CoreError.NotValid`. -/
inductive SwiftError
  | alamofire (description : String)
  | notValid (description : String)
  deriving DecidableEq, Repr

/-- What the screens use of Foundation: `URL(string:)`, `String.data(using:)`
for UTF-16, `NSMutableAttributedString` of an HTML document, and
`localizedDescription`. -/
structure Foundation where
  Data : Type
  AttributedString : Type
  isURL : String → Bool
  utf16 : String → Option Data
  html : Data → Option AttributedString
  localizedDescription : SwiftError → String

/-- A `Foundation` that reads every text as it stands, to run the model with.
The description of a `ClassError` read as that of an `Error` is not the one
the class gives: it is Foundation's, the same for all. -/
def Foundation.plain : Foundation where
  Data := String
  AttributedString := String
  isURL s := s ≠ ""
  utf16 := some
  html := some
  localizedDescription
    | .alamofire description => description
    | .notValid _ => "The operation could not be completed."

/-- A value of `JSONSerialization`: a number is the number its `NSNumber`
holds, a dictionary the list of its keys and values. -/
inductive Json
  | null
  | bool (b : Bool)
  | number (q : ℚ)
  | string (s : String)
  | array (values : List Json)
  | object (fields : List (String × Json))

namespace Json

/-- The `Int` a number is, if it is one: whole, and within 64 bits. -/
def exactInt (q : ℚ) : Option ℤ :=
  if q.den = 1 ∧ -2 ^ 63 ≤ q.num ∧ q.num < 2 ^ 63 then some q.num else none

/-- `as? Int`. A Boolean is an `NSNumber` too and casts to 0 or 1. -/
def asInt : Json → Option ℤ
  | .bool b => some (if b then 1 else 0)
  | .number q => exactInt q
  | _ => none

/-- `as? Array<Int>`. -/
def asArrayInt : Json → Option (List ℤ)
  | .array values => values.mapM asInt
  | _ => none

/-- `as? [String : AnyObject]`. -/
def asDictionary : Json → Option (List (String × Json))
  | .object fields => some fields
  | _ => none

end Json

/-! ### The decoder -/

inductive DecodingError
  | typeMismatch
  | valueNotFound
  | dataCorrupted
  deriving DecidableEq, Repr

open Json in
/-- `decode(Int.self)`: as the cast, but a Boolean is no number. -/
def decodeInt : Json → Except DecodingError ℤ
  | .number q => match exactInt q with
    | some i => .ok i
    | none => .error .dataCorrupted
  | .null => .error .valueNotFound
  | _ => .error .typeMismatch

def decodeString : Json → Except DecodingError String
  | .string s => .ok s
  | .null => .error .valueNotFound
  | _ => .error .typeMismatch

def decodeArrayInt : Json → Except DecodingError (List ℤ)
  | .array values => values.mapM decodeInt
  | .null => .error .valueNotFound
  | _ => .error .typeMismatch

/-- `decode(URL.self)`: a string that `URL(string:)` takes. -/
def decodeURL (F : Foundation) (v : Json) : Except DecodingError String := do
  let s ← decodeString v
  if F.isURL s then .ok s else .error .dataCorrupted

/-- `decodeIfPresent`: `nil` for a missing key and for a null. -/
def decodeIfPresent {α : Type} (decode : Json → Except DecodingError α) (key : String)
    (fields : List (String × Json)) : Except DecodingError (Option α) :=
  match fields.lookup key with
  | none => .ok none
  | some .null => .ok none
  | some v => (decode v).map some

/-! ### Items -/

inductive ItemType
  | job
  | story
  | comment
  | poll
  | pollopt
  deriving DecidableEq, Repr

namespace ItemType

def rawValue : ItemType → String
  | job => "job"
  | story => "story"
  | comment => "comment"
  | poll => "poll"
  | pollopt => "pollopt"

/-- `init(rawValue:)`. -/
def ofRawValue (s : String) : Option ItemType :=
  [job, story, comment, poll, pollopt].find? fun t => t.rawValue = s

def decode (v : Json) : Except DecodingError ItemType := do
  let s ← decodeString v
  match ofRawValue s with
  | some t => .ok t
  | none => .error .dataCorrupted

theorem ofRawValue_rawValue (t : ItemType) : ofRawValue t.rawValue = some t := by
  cases t <;> decide

end ItemType

structure Item where
  id : Option ℤ := none
  «by» : Option String := none
  title : Option String := none
  text : Option String := none
  type : Option ItemType := none
  time : Option ℤ := none
  url : Option String := none
  kids : Option (List ℤ) := none
  deriving DecidableEq, Repr

namespace Item

/-- The synthesised `init(from:)`, which `decodeAs(Item.self)` calls on the
dictionary written out and read in again. -/
def decode (F : Foundation) (fields : List (String × Json)) : Except DecodingError Item := do
  let id ← decodeIfPresent decodeInt "id" fields
  let author ← decodeIfPresent decodeString "by" fields
  let title ← decodeIfPresent decodeString "title" fields
  let text ← decodeIfPresent decodeString "text" fields
  let type ← decodeIfPresent ItemType.decode "type" fields
  let time ← decodeIfPresent decodeInt "time" fields
  let url ← decodeIfPresent (decodeURL F) "url" fields
  let kids ← decodeIfPresent decodeArrayInt "kids" fields
  pure { id, «by» := author, title, text, type, time, url, kids }

/-- The attributed string of the item's text, read as HTML. -/
def attributtedText (F : Foundation) (item : Item) : Option F.AttributedString := do
  let text ← item.text
  let data ← F.utf16 text
  F.html data

/-! ### Every item has a response -/

/-- `encodeIfPresent`. -/
def field (key : String) (o : Option Json) : List (String × Json) := (o.map fun v => (key, v)).toList

def encodeInt (i : ℤ) : Json := .number i

def encodeArrayInt (ids : List ℤ) : Json := .array (ids.map encodeInt)

def encodeType (t : ItemType) : Json := .string t.rawValue

/-- The synthesised `encode(to:)`. -/
def encode (item : Item) : List (String × Json) :=
  field "id" (item.id.map encodeInt) ++ field "by" (item.by.map .string) ++
  field "title" (item.title.map .string) ++ field "text" (item.text.map .string) ++
  field "type" (item.type.map encodeType) ++ field "time" (item.time.map encodeInt) ++
  field "url" (item.url.map .string) ++ field "kids" (item.kids.map encodeArrayInt)

/-- An `Int` of 64 bits. -/
def FitsInt (i : ℤ) : Prop := -2 ^ 63 ≤ i ∧ i < 2 ^ 63

/-- The items the program can hold: their integers are `Int`s, their `url` is a `URL`. -/
structure Valid (F : Foundation) (item : Item) : Prop where
  id : ∀ i, item.id = some i → FitsInt i
  time : ∀ i, item.time = some i → FitsInt i
  url : ∀ u, item.url = some u → F.isURL u = true
  kids : ∀ ids, item.kids = some ids → ∀ i ∈ ids, FitsInt i

theorem lookup_field (k key : String) (o : Option Json) :
    (field key o).lookup k = if k = key then o else none := by
  cases o with
  | none => simp [field]
  | some v =>
    by_cases h : k = key
    · simp [field, h]
    · have hb : (k == key) = false := by simpa using h
      simp [field, h, List.lookup, hb]

theorem exactInt_intCast {i : ℤ} (h : FitsInt i) : Json.exactInt i = some i := by
  rw [Json.exactInt, if_pos ⟨Rat.den_intCast i, by rw [Rat.num_intCast]; exact h⟩, Rat.num_intCast]

theorem decodeInt_encodeInt {i : ℤ} (h : FitsInt i) : decodeInt (encodeInt i) = .ok i := by
  simp [encodeInt, decodeInt, exactInt_intCast h]

theorem decodeArrayInt_encodeArrayInt {ids : List ℤ} (h : ∀ i ∈ ids, FitsInt i) :
    decodeArrayInt (encodeArrayInt ids) = .ok ids := by
  show (ids.map encodeInt).mapM decodeInt = .ok ids
  induction ids with
  | nil => rfl
  | cons i ids ih =>
    rw [List.map_cons, List.mapM_cons, decodeInt_encodeInt (h i List.mem_cons_self),
      ih fun j hj => h j (List.mem_cons_of_mem _ hj)]
    rfl

theorem decode_encodeType (t : ItemType) : ItemType.decode (encodeType t) = .ok t := by
  show (match ItemType.ofRawValue t.rawValue with
    | some t => .ok t
    | none => .error .dataCorrupted : Except DecodingError ItemType) = _
  rw [ItemType.ofRawValue_rawValue]

theorem decodeURL_string {F : Foundation} {u : String} (h : F.isURL u = true) :
    decodeURL F (.string u) = .ok u := by
  show (if F.isURL u then .ok u else .error .dataCorrupted : Except DecodingError String) = _
  rw [if_pos h]

/-- A field that holds what `enc` writes, which is never null and which `dec` reads back. -/
theorem decodeIfPresent_enc {α : Type} {dec : Json → Except DecodingError α} (enc : α → Json)
    {key : String} {fields : List (String × Json)} {o : Option α}
    (hl : fields.lookup key = o.map enc) (hn : ∀ a, enc a ≠ .null)
    (hd : ∀ a, o = some a → dec (enc a) = .ok a) : decodeIfPresent dec key fields = .ok o := by
  unfold decodeIfPresent
  rw [hl]
  cases o with
  | none => rfl
  | some a =>
    have hda := hd a rfl
    cases he : enc a with
    | null => exact absurd he (hn a)
    | _ => simp [he ▸ hda, he, Except.map]

/-- **Round trip.** What `encode` writes for an item decodes to that item. -/
theorem decode_encode (F : Foundation) {item : Item} (h : item.Valid F) :
    decode F item.encode = .ok item := by
  have hid : decodeIfPresent decodeInt "id" item.encode = .ok item.id :=
    decodeIfPresent_enc encodeInt (by simp [encode, List.lookup_append, lookup_field])
      (fun _ => nofun) fun i hi => decodeInt_encodeInt (h.id i hi)
  have hby : decodeIfPresent decodeString "by" item.encode = .ok item.by :=
    decodeIfPresent_enc .string (by simp [encode, List.lookup_append, lookup_field])
      (fun _ => nofun) fun _ _ => rfl
  have htitle : decodeIfPresent decodeString "title" item.encode = .ok item.title :=
    decodeIfPresent_enc .string (by simp [encode, List.lookup_append, lookup_field])
      (fun _ => nofun) fun _ _ => rfl
  have htext : decodeIfPresent decodeString "text" item.encode = .ok item.text :=
    decodeIfPresent_enc .string (by simp [encode, List.lookup_append, lookup_field])
      (fun _ => nofun) fun _ _ => rfl
  have htype : decodeIfPresent ItemType.decode "type" item.encode = .ok item.type :=
    decodeIfPresent_enc encodeType (by simp [encode, List.lookup_append, lookup_field])
      (fun _ => nofun) fun t _ => decode_encodeType t
  have htime : decodeIfPresent decodeInt "time" item.encode = .ok item.time :=
    decodeIfPresent_enc encodeInt (by simp [encode, List.lookup_append, lookup_field])
      (fun _ => nofun) fun i hi => decodeInt_encodeInt (h.time i hi)
  have hurl : decodeIfPresent (decodeURL F) "url" item.encode = .ok item.url :=
    decodeIfPresent_enc .string (by simp [encode, List.lookup_append, lookup_field])
      (fun _ => nofun) fun u hu => decodeURL_string (h.url u hu)
  have hkids : decodeIfPresent decodeArrayInt "kids" item.encode = .ok item.kids :=
    decodeIfPresent_enc encodeArrayInt (by simp [encode, List.lookup_append, lookup_field])
      (fun _ => nofun) fun ids hids => decodeArrayInt_encodeArrayInt (h.kids ids hids)
  simp only [decode, hid, hby, htitle, htext, htype, htime, hurl, hkids]
  rfl

/-! ### What decodes, and to what -/

/-- The keys that are fields of an item, `CodingKeys`. -/
def codingKeys : List String := ["id", "by", "title", "text", "type", "time", "url", "kids"]

/-- The value at the key, where there is one that is not null. -/
def present (key : String) (fields : List (String × Json)) : Option Json :=
  match fields.lookup key with
  | some .null => none
  | o => o

/-- `dec` reads just what `enc` writes, for the values that satisfy `P`. -/
def Reads {α : Type} (dec : Json → Except DecodingError α) (enc : α → Json) (P : α → Prop) : Prop :=
  ∀ v a, dec v = .ok a ↔ v = enc a ∧ P a

theorem bind_eq_ok {α β : Type} {x : Except DecodingError α} {f : α → Except DecodingError β}
    {b : β} : x >>= f = .ok b ↔ ∃ a, x = .ok a ∧ f a = .ok b := by
  cases x <;> simp [bind, Except.bind]

theorem exactInt_eq_some {q : ℚ} {i : ℤ} : Json.exactInt q = some i ↔ q = i ∧ FitsInt i := by
  constructor
  · intro h
    unfold Json.exactInt at h
    split at h
    · rename_i hq
      obtain rfl := Option.some.inj h
      exact ⟨(Rat.coe_int_num_of_den_eq_one hq.1).symm, hq.2⟩
    · cases h
  · rintro ⟨rfl, h⟩
    exact exactInt_intCast h

theorem reads_int : Reads decodeInt encodeInt FitsInt := by
  intro v i
  cases v with
  | number q =>
    have hiff : decodeInt (.number q) = .ok i ↔ Json.exactInt q = some i := by
      cases h : Json.exactInt q <;> simp [decodeInt, h]
    rw [hiff, exactInt_eq_some, encodeInt, Json.number.injEq]
  | _ => simp [decodeInt, encodeInt]

theorem reads_string : Reads decodeString .string fun _ => True := by
  intro v s
  cases v <;> simp [decodeString]

theorem reads_URL (F : Foundation) : Reads (decodeURL F) .string fun u => F.isURL u = true := by
  intro v u
  cases v with
  | string s =>
    show (if F.isURL s then .ok s else .error .dataCorrupted : Except DecodingError String) = .ok u ↔ _
    by_cases hs : F.isURL s = true
    · rw [if_pos hs]
      constructor
      · intro h
        obtain rfl := Except.ok.inj h
        exact ⟨rfl, hs⟩
      · rintro ⟨h, -⟩
        rw [Json.string.inj h]
    · rw [if_neg hs]
      constructor
      · nofun
      · rintro ⟨h, hu⟩
        rw [Json.string.inj h] at hs
        exact absurd hu hs
  | _ => simp [decodeURL, decodeString, bind, Except.bind]

theorem ofRawValue_eq_some {s : String} {t : ItemType} :
    ItemType.ofRawValue s = some t ↔ s = t.rawValue := by
  constructor
  · intro h
    unfold ItemType.ofRawValue at h
    have hs := List.find?_some h
    simpa [eq_comm] using hs
  · rintro rfl
    exact ItemType.ofRawValue_rawValue t

theorem reads_type : Reads ItemType.decode encodeType fun _ => True := by
  intro v t
  cases v with
  | string s =>
    show (match ItemType.ofRawValue s with
      | some t => .ok t
      | none => .error .dataCorrupted : Except DecodingError ItemType) = .ok t ↔ _
    have hiff := ofRawValue_eq_some (s := s) (t := t)
    cases h : ItemType.ofRawValue s <;> simp_all [encodeType]
  | _ => simp [ItemType.decode, decodeString, encodeType, bind, Except.bind]

theorem mapM_decodeInt {values : List Json} {ids : List ℤ} :
    values.mapM decodeInt = .ok ids ↔ values = ids.map encodeInt ∧ ∀ i ∈ ids, FitsInt i := by
  constructor
  · intro h
    induction values generalizing ids with
    | nil =>
      obtain rfl := Except.ok.inj h
      simp
    | cons v values ih =>
      rw [List.mapM_cons] at h
      obtain ⟨i, hi, h⟩ := bind_eq_ok.mp h
      obtain ⟨rest, hrest, h⟩ := bind_eq_ok.mp h
      obtain rfl := Except.ok.inj h
      obtain ⟨rfl, hfits⟩ := (reads_int v i).mp hi
      obtain ⟨rfl, hall⟩ := ih hrest
      exact ⟨rfl, List.forall_mem_cons.mpr ⟨hfits, hall⟩⟩
  · rintro ⟨rfl, hall⟩
    exact decodeArrayInt_encodeArrayInt hall

theorem reads_arrayInt :
    Reads decodeArrayInt encodeArrayInt fun ids => ∀ i ∈ ids, FitsInt i := by
  intro v ids
  cases v with
  | array values =>
    rw [encodeArrayInt, Json.array.injEq]
    exact mapM_decodeInt
  | _ => simp [decodeArrayInt, encodeArrayInt]

theorem decodeIfPresent_eq {α : Type} (dec : Json → Except DecodingError α) (key : String)
    (fields : List (String × Json)) : decodeIfPresent dec key fields =
      match present key fields with
      | none => .ok none
      | some v => (dec v).map some := by
  unfold decodeIfPresent present
  rcases fields.lookup key with _ | v
  · rfl
  · cases v <;> rfl

/-- A field decodes to what it holds the encoding of. -/
theorem Reads.field {α : Type} {dec : Json → Except DecodingError α} {enc : α → Json}
    {P : α → Prop} (h : Reads dec enc P) {key : String} {fields : List (String × Json)}
    {o : Option α} : decodeIfPresent dec key fields = .ok o ↔
      present key fields = o.map enc ∧ ∀ a, o = some a → P a := by
  rw [decodeIfPresent_eq]
  rcases present key fields with _ | v
  · cases o <;> simp
  show (dec v).map some = .ok o ↔ _
  constructor
  · intro hmap
    cases hd : dec v with
    | error e => simp [hd, Except.map] at hmap
    | ok a =>
      rw [hd] at hmap
      obtain rfl := Except.ok.inj hmap
      obtain ⟨rfl, hP⟩ := (h v a).mp hd
      exact ⟨rfl, fun a' ha' => Option.some.inj ha' ▸ hP⟩
  · rintro ⟨hv, hP⟩
    cases o with
    | none => cases hv
    | some a =>
      rw [(h v a).mpr ⟨Option.some.inj hv, hP a rfl⟩]
      rfl

/-- **What decodes, and to what.** An object decodes to an item just when the
item is one the program can hold, and each of its keys, where it is there and
not null in the object, holds what is written for the item. -/
theorem decode_iff (F : Foundation) (fields : List (String × Json)) (item : Item) :
    decode F fields = .ok item ↔
      item.Valid F ∧ ∀ key ∈ codingKeys, present key fields = item.encode.lookup key := by
  have hfields : decode F fields = .ok item ↔
      decodeIfPresent decodeInt "id" fields = .ok item.id ∧
      decodeIfPresent decodeString "by" fields = .ok item.by ∧
      decodeIfPresent decodeString "title" fields = .ok item.title ∧
      decodeIfPresent decodeString "text" fields = .ok item.text ∧
      decodeIfPresent ItemType.decode "type" fields = .ok item.type ∧
      decodeIfPresent decodeInt "time" fields = .ok item.time ∧
      decodeIfPresent (decodeURL F) "url" fields = .ok item.url ∧
      decodeIfPresent decodeArrayInt "kids" fields = .ok item.kids := by
    unfold decode
    simp only [bind_eq_ok]
    constructor
    · rintro ⟨id, hid, author, hby, title, htitle, text, htext, type, htype, time, htime, url, hurl,
        kids, hkids, h⟩
      obtain rfl := Except.ok.inj h
      exact ⟨hid, hby, htitle, htext, htype, htime, hurl, hkids⟩
    · rintro ⟨hid, hby, htitle, htext, htype, htime, hurl, hkids⟩
      exact ⟨_, hid, _, hby, _, htitle, _, htext, _, htype, _, htime, _, hurl, _, hkids, rfl⟩
  have hkeys : (∀ key ∈ codingKeys, present key fields = item.encode.lookup key) ↔
      present "id" fields = item.id.map encodeInt ∧ present "by" fields = item.by.map .string ∧
      present "title" fields = item.title.map .string ∧
      present "text" fields = item.text.map .string ∧
      present "type" fields = item.type.map encodeType ∧
      present "time" fields = item.time.map encodeInt ∧
      present "url" fields = item.url.map .string ∧
      present "kids" fields = item.kids.map encodeArrayInt := by
    simp [codingKeys, encode, List.lookup_append, lookup_field]
  rw [hfields, hkeys, reads_int.field, reads_string.field, reads_string.field, reads_string.field,
    reads_type.field, reads_int.field, (reads_URL F).field, reads_arrayInt.field]
  constructor
  · rintro ⟨⟨hid, hidP⟩, ⟨hby, -⟩, ⟨htitle, -⟩, ⟨htext, -⟩, ⟨htype, -⟩, ⟨htime, htimeP⟩,
      ⟨hurl, hurlP⟩, ⟨hkids, hkidsP⟩⟩
    exact ⟨⟨hidP, htimeP, hurlP, hkidsP⟩, hid, hby, htitle, htext, htype, htime, hurl, hkids⟩
  · rintro ⟨hvalid, hid, hby, htitle, htext, htype, htime, hurl, hkids⟩
    exact ⟨⟨hid, hvalid.id⟩, ⟨hby, by simp⟩, ⟨htitle, by simp⟩, ⟨htext, by simp⟩, ⟨htype, by simp⟩,
      ⟨htime, hvalid.time⟩, ⟨hurl, hvalid.url⟩, ⟨hkids, hvalid.kids⟩⟩

/-- A null is as good as nothing, and other keys are ignored. -/
example : decode .plain [("score", .number 3), ("url", .null), ("by", .string "pg")] =
    .ok { «by» := some "pg" } := rfl

end Item

end Workshop2018
