/-
Fields of JSON records and tags of JSON choices.

A record is an object, or an array of the fields in order without their names.  Unknown members
of an object are ignored, repeated known ones refuse it; at the end of an array fields may be
missing.  A choice without content is a string, or an object whose only member is the tag with a
null content; where the place alone says that a tag is meant, it is a string (`plainTag?`).

Design notes: reading is bounded by `room`, the number of brackets that may still be opened, as a
guard against documents that nest without end.  The same number is what the readers recurse on.
Unknown members are not looked into and are not bounded.

A part of a document may have to be kept before it is known what it is: the content of a value
whose kind comes after it.  Such a `kept` part must be sound throughout (`isSound`), ignored
members included.  It also takes an empty object for null where a tag has no content and a number
for a plain tag, and it cannot hold integers of 128 bits.
-/
import LiteralForm.Integer
import LiteralForm.Json.Number

namespace LiteralForm.Json

/-- The members of an object if every key denotes a text. -/
def keyedMembers? (members : List (Option String × Json)) : Option (List (String × Json)) :=
  members.mapM fun m => m.1.map fun key => (key, m.2)

/-- The value of the only member with the given key; `none` inside if there is no such member,
and `none` outside if there are several. -/
def uniqueMember? (members : List (String × Json)) (key : String) : Option (Option Json) :=
  match members.filter fun m => m.1 == key with
  | [] => some none
  | [m] => some (some m.2)
  | _ => none

/-- The fields of an object by their names, a missing one being `none`. -/
def namedFields? (names : List String) : Json → Option (List (Option Json))
  | object members =>
    (keyedMembers? members).bind fun ms => names.mapM (uniqueMember? ms)
  | _ => none

/-- The fields of a record, by their names or in order, a missing one being `none`. -/
def fields? (names : List String) : Json → Option (List (Option Json))
  | array items =>
    if items.length ≤ names.length then
      some (items.map some ++ List.replicate (names.length - items.length) none)
    else none
  | j => j.namedFields? names

/-- The text of a string. -/
def text? : Json → Option String
  | string s => s
  | _ => none

/-- The value of a boolean. -/
def bool? : Json → Option Bool
  | bool b => some b
  | _ => none

/-- The value of an integer that a kind holds; a negative zero is no integer. -/
def integral? (k : IntKind) : Json → Option Integral
  | number n =>
    if n.isNegativeZero then none else n.integer?.bind (Integral.ofInt? k)
  | _ => none

/-- The value of an integer of 128 bits. -/
def wide? : Json → Option Int128
  | number n => n.integer?.bind Int128.ofInt?
  | _ => none

/-- Whether the content of a tag is absent. -/
def isUnit (kept : Bool) : Json → Bool
  | null => true
  | object [] => kept
  | _ => false

/-- The tag of a choice without content. -/
def tag? (kept : Bool) (room : Nat) : Json → Option String
  | string s => s
  | object [(key, content)] => if 0 < room && isUnit kept content then key else none
  | _ => none

/-- The tag at a place that only a tag can take: a string, or in a kept part its number in the
list of all tags. -/
def plainTag? (kept : Bool) (tags : List String) : Json → Option String
  | string s => s
  | j => if kept then (j.integral? .uint64).bind fun n => tags[n.value.toNat]? else none

mutual

/-- Whether a document can be kept: its strings denote texts, its numbers are finite, and its
brackets nest at most `room` deep. -/
def isSound (room : Nat) : Json → Bool
  | null | bool _ => true
  | number n => n.toDouble?.isSome
  | string s => s.isSome
  | array items => 0 < room && areSound (room - 1) items
  | object members => 0 < room && areMembersSound (room - 1) members

/-- Whether all documents of a list can be kept. -/
def areSound (room : Nat) : List Json → Bool
  | [] => true
  | j :: js => isSound room j && areSound room js

/-- Whether all members of an object can be kept. -/
def areMembersSound (room : Nat) : List (Option String × Json) → Bool
  | [] => true
  | (key, j) :: ms => key.isSome && isSound room j && areMembersSound room ms

end

end LiteralForm.Json
