import Roaring.Json
import Roaring.Thresholds

/-!
# Threshold documents

Thresholds are written as a JSON document: an object of named counts, or an array of up to three
counts in a fixed order. What the document leaves out keeps its standard value. Members of other
names are skipped; a count given twice, or a value that is no 64 bit count in plain digits, makes
the document unreadable.
-/
namespace Roaring.Thresholds

/-- A tunable, by its place in a document. -/
inductive Field where
  | maxArraySize
  | lazyArrayBound
  | xorSmallArray
deriving DecidableEq

namespace Field

/-- The order of the counts in a document that is an array. -/
def all : List Field := [maxArraySize, lazyArrayBound, xorSmallArray]

/-- The name of the count in a document that is an object. -/
def name : Field → String
  | maxArraySize => "max_array_size"
  | lazyArrayBound => "array_lazy_lower_bound"
  | xorSmallArray => "xor_small_array_threshold"

/-- The field of a name, `none` for a name that no field has. -/
def ofName? (s : String) : Option Field := all.find? (·.name = s)

end Field

def get (t : Thresholds) : Field → Nat
  | .maxArraySize => t.maxArraySize
  | .lazyArrayBound => t.lazyArrayBound
  | .xorSmallArray => t.xorSmallArray

def set (t : Thresholds) : Field → Nat → Thresholds
  | .maxArraySize, n => t.withMaxArraySize n
  | .lazyArrayBound, n => t.withLazyArrayBound n
  | .xorSmallArray, n => t.withXorSmallArray n

/-- One member of a document: the thresholds so far and the fields not given yet. -/
def readMember? (state : Thresholds × List Field) (member : List Nat × Json) :
    Option (Thresholds × List Field) := do
  let (t, missing) := state
  let key ← Json.characters? member.1
  match Field.ofName? (String.ofList key) with
  | none => return state
  | some f => if f ∈ missing then return (t.set f (← member.2.count?), missing.erase f) else none

/-- Counts in order, each for the next field; more counts than fields are too many. -/
def readItems? (t : Thresholds) : List Field → List Json → Option Thresholds
  | _, [] => some t
  | [], _ :: _ => none
  | f :: fields, v :: vs => do readItems? (t.set f (← v.count?)) fields vs

/-- The thresholds that a document denotes. -/
def ofJson? : Json → Option Thresholds
  | .object members => (members.foldlM readMember? (standard, Field.all)).map (·.1)
  | .array items => readItems? standard Field.all items
  | _ => none

/-- Reads the thresholds from the text of a document. -/
def parse? (text : String) : Option Thresholds := (Json.parse? text).bind ofJson?

end Roaring.Thresholds
