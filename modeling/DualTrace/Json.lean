/-
# JSON values

The tree of a JSON text.  Whole numbers written without sign, point and exponent are kept apart from
the others, because a count or an index is read from nothing else.

* `Json.record?` : the fields of a record;
* `Json.variant?` : the name and the content of one case of a choice.
-/

namespace DualTrace

/-- A JSON value over the numbers `α`.  The keys of an object are distinct. -/
inductive Json (α : Type) where
  | null
  | bool (b : Bool)
  /-- A number written with digits only. -/
  | nat (n : Nat)
  /-- Any other number. -/
  | num (x : α)
  | str (s : String)
  | arr (items : List (Json α))
  | obj (fields : List (String × Json α))

namespace Json

variable {α : Type}

/-- The fields of a record in the order of `names`.  A record is written as an object that has every
field, in any order and possibly among others, or as the array of the fields. -/
def record? (names : List String) : Json α → Option (List (Json α))
  | obj fields => names.mapM fun name => fields.lookup name
  | arr items => if items.length = names.length then some items else none
  | _ => none

/-- The name and the content of one case of a choice: a bare name, or an object whose only key is
the name. -/
def variant? : Json α → Option (String × Option (Json α))
  | str name => some (name, none)
  | obj [(name, content)] => some (name, some content)
  | _ => none

/-- The name of a case without content.  `null` counts as no content. -/
def bareName? (j : Json α) : Option String :=
  match j.variant? with
  | some (name, none) | some (name, some null) => some name
  | _ => none

/-- A whole number below `2 ^ 32`. -/
def word? : Json α → Option UInt32
  | nat n => if n < UInt32.size then some (UInt32.ofNat n) else none
  | _ => none

/-- The items of an array, each read with `f`. -/
def items? {β : Type} (f : Json α → Option β) : Json α → Option (List β)
  | arr items => items.mapM f
  | _ => none

end Json

end DualTrace
