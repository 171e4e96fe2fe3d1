import AvroIdl.Number.Binary64
import AvroIdl.Text

/-!
# JSON values

Objects keep the order in which their keys were put. A key that is put again keeps its place and
takes the new value.
-/
namespace AvroIdl

inductive Json where
  | null
  | bool (b : Bool)
  | integer (i : Int)
  | float (x : Binary64)
  | string (s : Text)
  | array (elements : List Json)
  | object (members : List (Text × Json))
  deriving BEq, Repr

/-- The members of an object in order. -/
abbrev Members := List (Text × Json)

namespace Members

def get? (ms : Members) (key : Text) : Option Json := ms.lookup key

def contains (ms : Members) (key : Text) : Bool := (ms.get? key).isSome

/-- Puts a value at a key. -/
def put : Members → Text → Json → Members
  | [], key, value => [(key, value)]
  | (k, v) :: ms, key, value =>
    if k = key then (k, value) :: ms else (k, v) :: put ms key value

theorem get?_put (ms : Members) (key other : Text) (value : Json) :
    (ms.put key value).get? other = if other = key then some value else ms.get? other := by
  induction ms with
  | nil =>
    by_cases h : other = key
    · simp [put, get?, h]
    · have hb : (other == key) = false := by simpa using h
      simp [put, get?, List.lookup_cons, h, hb]
  | cons m ms ih =>
    obtain ⟨k, v⟩ := m
    simp only [get?] at ih
    by_cases hk : k = key
    · subst hk
      by_cases h : other = k
      · simp [put, get?, h]
      · have hb : (other == k) = false := by simpa using h
        simp [put, get?, List.lookup_cons, h, hb]
    · by_cases h : other = k
      · subst h
        simp [put, get?, hk]
      · have hb : (other == k) = false := by simpa using h
        simp [put, get?, List.lookup_cons, hk, hb, ih]

/-- Adds a member unless its key is there already. -/
def putNew (ms : Members) (key : Text) (value : Json) : Members :=
  if ms.contains key then ms else ms ++ [(key, value)]

/-- Adds those of the other members whose keys are not there yet. -/
def merge (ms others : Members) : Members :=
  others.foldl (fun acc (key, value) => acc.putNew key value) ms

/-- The members whose keys are not among the given ones. -/
def without (ms : Members) (keys : List Text) : Members :=
  ms.filter fun (key, _) => !keys.contains key

end Members

namespace Json

def ofTexts (ts : List Text) : Json := array (ts.map string)

def string? : Json → Option Text
  | string s => some s
  | _ => none

def isString (j : Json) : Bool := j.string?.isSome

/-- The word for the type of a value where integers count as numbers. -/
def typeName : Json → Text
  | null => "null"
  | bool _ => "boolean"
  | integer _ | float _ => "number"
  | string _ => "string"
  | array _ => "array"
  | object _ => "object"

/-- The word for the type of a value where integers have their own. -/
def kindName : Json → Text
  | integer _ => "integer"
  | j => j.typeName

end Json

end AvroIdl
