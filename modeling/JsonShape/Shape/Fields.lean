import JsonShape.Shape.Join

/-!
# The fields of an object

The members of an object become the fields of a record, each key once. `Fields.observe` adds one
member to the fields of those before it; `Fields.gather` takes all members together and joins the
shapes of each key.
-/

namespace JsonShape.Fields

/-- The keys, each one as often as it occurs. -/
def keys (fields : Fields) : List String :=
  fields.map (·.1)

/-- Some field has the key. -/
def hasKey (fields : Fields) (key : String) : Bool :=
  fields.any (·.1 = key)

/-- The shapes that a key has, in order. -/
def values (fields : Fields) (key : String) : List Shape :=
  fields.filterMap fun (k, s) => if k = key then some s else none

/-- The fields of an object after one more member: a key that was seen before keeps its place, and
its shape is joined with that of the member. -/
def observe (key : String) (value : Shape) : Fields → Fields
  | [] => [(key, value)]
  | (k, s) :: fields =>
    if k = key then (k, s.join value) :: fields else (k, s) :: observe key value fields

/-- Every key once, where it occurs first, with all its shapes joined in order. -/
def gather (fields : Fields) : Fields :=
  fields.keys.eraseDups.map fun key => (key, Shape.fold (fields.values key))

theorem hasKey_iff {fields : Fields} {key : String} :
    fields.hasKey key = true ↔ key ∈ fields.keys := by
  simp [hasKey, keys]

end JsonShape.Fields
