/-
  NixStore.Util.Json

  JSON values as `nlohmann::json` keeps them, and the readers of
  `libutil/json-utils.{hh,cc}`.

  A number remembers whether it was stored from a signed or an unsigned C++
  type, and `getUnsigned` asks for the latter.  The text of a value does not
  keep the difference: a parser stores every integer without a minus sign as
  an unsigned one (`reread`).

  The text in an error message is the library's `dump`, a parameter here.
  Traces added to an error on its way are not modelled.
-/

import NixStore.Util.Serialise
import Mathlib.Data.Finset.Basic
import Mathlib.Data.Finset.Dedup

namespace NixStore

/-- `nlohmann::json`.  The members of an object are listed as they were
    added. -/
inductive Json where
  | null
  | object (members : List (String × Json))
  | array (elems : List Json)
  | string (s : Bytes)
  | boolean (b : Bool)
  | numberInteger (i : Int64)
  | numberUnsigned (n : UInt64)
  | numberFloat (bits : UInt64)

namespace Json

/-- `type_name`. -/
def typeName : Json → String
  | .null => "null"
  | .object _ => "object"
  | .array _ => "array"
  | .string _ => "string"
  | .boolean _ => "boolean"
  | .numberInteger _ => "number"
  | .numberUnsigned _ => "number"
  | .numberFloat _ => "number"

/-- What an optional value is written as. -/
def ofOption {α : Type} (toJSON : α → Json) (t : Option α) : Json := (t.map toJSON).getD .null

-- ============================================================================
-- Readers
-- ============================================================================

/-- `optionalValueAt`. -/
def optionalValueAt (members : List (String × Json)) (key : String) : Option Json :=
  members.lookup key

/-- `getNullable`. -/
def getNullable : Json → Option Json
  | .null => none
  | value => some value

section
variable (dump : Json → String)

/-- `valueAt`. -/
def valueAt (members : List (String × Json)) (key : String) : Except Error Json :=
  match optionalValueAt members key with
  | some p => .ok p
  | none => .error (.error (s!"Expected JSON object to contain key '{key}' but it doesn't: " ++
      dump (.object members)))

/-- The error of `ensureType`. -/
def wrongType (value : Json) (expected : String) : Error :=
  .error (s!"Expected JSON value to be of type '{expected}' but it is of type " ++
    s!"'{value.typeName}': {dump value}")

/-- `getObject`. -/
def getObject : Json → Except Error (List (String × Json))
  | .object members => .ok members
  | value => .error (wrongType dump value "object")

/-- `getArray`. -/
def getArray : Json → Except Error (List Json)
  | .array elems => .ok elems
  | value => .error (wrongType dump value "array")

/-- `getString`. -/
def getString : Json → Except Error Bytes
  | .string s => .ok s
  | value => .error (wrongType dump value "string")

/-- `getBoolean`. -/
def getBoolean : Json → Except Error Bool
  | .boolean b => .ok b
  | value => .error (wrongType dump value "boolean")

/-- The error of `getUnsigned`. -/
def notUnsigned (typeName : String) (value : Json) : Error :=
  .error (s!"Expected JSON value to be an unsigned integral number but it is of type " ++
    s!"'{typeName}': {dump value}")

/-- `getUnsigned`. -/
def getUnsigned : Json → Except Error UInt64
  | .numberUnsigned n => .ok n
  | .numberFloat bits => .error (notUnsigned dump "floating point number" (.numberFloat bits))
  | .numberInteger i => .error (notUnsigned dump "signed integral number" (.numberInteger i))
  | value => .error (notUnsigned dump value.typeName value)

/-- `getInteger<time_t>`: both kinds of integers, as far as they fit. -/
def getInteger : Json → Except Error Int64
  | .numberUnsigned n =>
      if n.toNat < 2 ^ 63 then .ok n.toInt64
      else .error (.error (s!"Out of range: JSON value '{dump (.numberUnsigned n)}' cannot be " ++
        "casted to 64-bit integer"))
  | .numberInteger i => .ok i
  | .numberFloat bits => .error (.error (s!"Expected JSON value to be an integral number but it " ++
      s!"is of type 'floating point number': {dump (.numberFloat bits)}"))
  | value => .error (.error (s!"Expected JSON value to be an integral number but it is of type " ++
      s!"'{value.typeName}': {dump value}"))

/-- The elements of an array, each read on its own: a loop that inserts what
    it reads. -/
def readSet {α : Type} [DecidableEq α] (read : Json → Except Error α) :
    List Json → Except Error (Finset α)
  | [] => .ok ∅
  | input :: inputs => do
      let a ← read input
      let rest ← readSet read inputs
      pure (insert a rest)

end

theorem readSet_map {α : Type} [DecidableEq α] {read : Json → Except Error α} {write : α → Json}
    {l : List α} (h : ∀ a ∈ l, read (write a) = .ok a) :
    readSet read (l.map write) = .ok l.toFinset := by
  induction l with
  | nil => rfl
  | cons a l ih =>
      rw [List.map_cons, readSet, h a List.mem_cons_self, ok_bind,
        ih fun b hb => h b (List.mem_cons_of_mem _ hb), ok_bind, List.toFinset_cons, pure_eq_ok]

/-- Whatever a set holds was read from one of the elements. -/
theorem mem_readSet {α : Type} [DecidableEq α] {read : Json → Except Error α} {l : List Json}
    {s : Finset α} (h : readSet read l = .ok s) : ∀ input ∈ l, ∃ a ∈ s, read input = .ok a := by
  induction l generalizing s with
  | nil => exact fun _ hinput => absurd hinput List.not_mem_nil
  | cons input l ih =>
      intro input' hinput'
      obtain ⟨a, hread, h⟩ := bind_eq_ok.mp h
      obtain ⟨rest, hrest, h⟩ := bind_eq_ok.mp h
      cases h
      rcases List.mem_cons.mp hinput' with rfl | hmem
      · exact ⟨a, Finset.mem_insert_self a rest, hread⟩
      · obtain ⟨b, hb, hread'⟩ := ih hrest input' hmem
        exact ⟨b, Finset.mem_insert_of_mem hb, hread'⟩

-- ============================================================================
-- Through a text and back
-- ============================================================================

/-- A number as it is parsed from its text. -/
def rereadInteger (i : Int64) : Json :=
  if 0 ≤ i then .numberUnsigned i.toUInt64 else .numberInteger i

mutual

/-- The value that is parsed from the text of a value whose strings are all
    UTF-8. -/
def reread : Json → Json
  | .object members => .object (rereadMembers members)
  | .array elems => .array (rereadElems elems)
  | .numberInteger i => rereadInteger i
  | value => value

def rereadMembers : List (String × Json) → List (String × Json)
  | [] => []
  | (key, value) :: members => (key, reread value) :: rereadMembers members

def rereadElems : List Json → List Json
  | [] => []
  | value :: elems => reread value :: rereadElems elems

end

theorem rereadElems_eq_map (elems : List Json) : rereadElems elems = elems.map reread := by
  induction elems with
  | nil => rfl
  | cons value elems ih => rw [rereadElems, ih, List.map_cons]

/-- Looking a member up commutes with reading the text again. -/
theorem optionalValueAt_reread (members : List (String × Json)) (key : String) :
    optionalValueAt (rereadMembers members) key = (optionalValueAt members key).map reread := by
  induction members with
  | nil => rfl
  | cons m members ih =>
      obtain ⟨k, value⟩ := m
      unfold optionalValueAt at ih ⊢
      rw [rereadMembers, List.lookup_cons, List.lookup_cons, ih]
      cases key == k with
      | true => rfl
      | false => rfl

/-- Either kind of a number is read as an integer. -/
theorem getInteger_rereadInteger (dump : Json → String) (i : Int64) :
    getInteger dump (rereadInteger i) = .ok i := by
  unfold rereadInteger
  by_cases hpos : 0 ≤ i
  · rw [if_pos hpos]
    have hsmall : i.toUInt64.toNat < 2 ^ 63 := by
      rw [Int64.toNat_toUInt64_of_le hpos]
      have hlt := i.toInt_lt
      unfold Int64.toNatClampNeg
      omega
    rw [getInteger, if_pos hsmall]
    rfl
  · rw [if_neg hpos]
    rfl

end Json
end NixStore
