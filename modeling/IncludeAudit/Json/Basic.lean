/-!
# IncludeAudit.Json.Basic

JSON values as a text holds them: members of an object keep their order, and a name may stand more
than once.

* `Number`: natural numbers of 64 bits, negative whole numbers of 64 bits, and all other numbers as
  floating-point numbers.
* `Value.memberOf?`: the first member of that name.
* `Value.textAt` and its like: the value of a member that is known to be there.
-/

namespace IncludeAudit
namespace Json

/-- The number `negative n` is `-n`, never zero. -/
inductive Number where
  | natural (n : Nat)
  | negative (n : Nat)
  | float (x : Float)

inductive Value where
  | null
  | bool (b : Bool)
  | number (n : Number)
  | string (s : String)
  | array (items : List Value)
  | object (members : List (String × Value))

instance : Inhabited Value := ⟨.null⟩

namespace Value

def natural (n : Nat) : Value := .number (.natural n)

def memberOf? (name : String) : List (String × Value) → Option Value
  | [] => none
  | (key, v) :: rest => if key = name then some v else memberOf? name rest

def string? : Value → Option String
  | string s => some s
  | _ => none

def natural? : Value → Option Nat
  | number (.natural n) => some n
  | _ => none

def bool? : Value → Option Bool
  | bool b => some b
  | _ => none

/-- The items of an array. -/
def items : Value → List Value
  | array items => items
  | _ => []

/-- The members of an object. -/
def members : Value → List (String × Value)
  | object members => members
  | _ => []

/-! ## Members whose kinds are known -/

def memberAt (name : String) (ms : List (String × Value)) : Value := (memberOf? name ms).getD null

def textAt (name : String) (ms : List (String × Value)) : String :=
  (memberAt name ms).string?.getD ""

def naturalAt (name : String) (ms : List (String × Value)) : Nat :=
  (memberAt name ms).natural?.getD 0

def flagAt (name : String) (ms : List (String × Value)) : Bool :=
  (memberAt name ms).bool?.getD false

end Value
end Json
end IncludeAudit
