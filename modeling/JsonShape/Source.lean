/-!
# Sources

An input arrives in reads. Each read delivers some bytes, delivers nothing because the input is
over, or fails. A `Source` is the list of what its successive reads give; behind the list every read
delivers nothing. `Source.ofBytes` is a text that is at hand as a whole and is read in pieces of a
given size.
-/

namespace JsonShape

/-- What one read gives. -/
inductive Read where
  /-- Some bytes, or the end of the input if there are none. -/
  | bytes (chunk : List UInt8)
  /-- The system failed, for the given reasons. -/
  | failure (reasons : List String)
  deriving DecidableEq, Repr

/-- What successive reads give. -/
abbrev Source := List Read

namespace Source

/-- How the system words its reasons: a code and a text, or a text alone. What stands behind these
two, such as the name of a file, is left out. -/
def wording : List String → String
  | [] => ""
  | [text] => text
  | code :: text :: _ => "[Errno " ++ code ++ "] " ++ text

/-- The bytes in pieces of a positive size, the last of which may be shorter. -/
def pieces (size : Nat) (bytes : List UInt8) : Source :=
  if size = 0 ∨ bytes = [] then []
  else .bytes (bytes.take size) :: pieces size (bytes.drop size)
termination_by bytes.length
decreasing_by
  next h =>
    have : 0 < bytes.length := List.length_pos_iff.2 fun e => h (.inr e)
    simp only [List.length_drop]
    omega

/-- The bytes of a text, at most `size` a read. Without a size, or with a negative one, the first
read delivers them all; with size zero no read delivers any. -/
def ofBytes (size : Option Int) (bytes : List UInt8) : Source :=
  match size with
  | none => [.bytes bytes]
  | some n => if n < 0 then [.bytes bytes] else pieces n.toNat bytes

/-- The number of bytes that the reads deliver. -/
def size : Source → Nat
  | [] => 0
  | .bytes chunk :: rest => chunk.length + size rest
  | .failure _ :: rest => size rest

/-- How many bytes a read asks for, unless it is told otherwise. -/
def defaultChunk : Int := 65536

end Source

end JsonShape
