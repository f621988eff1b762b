import Beaver.Dealer
import Beaver.Sacrifice

/-!
# Sacrifices on named data

All checks take items and give items, where an item is the list of its shares.
A party keeps its data under names; the result of one check can be the input of
another.
-/

namespace Beaver.Sacrifice

variable {φ : Type} [ShareField φ]

/-- Items as lists of shares. -/
abbrev Items (φ : Type) := List (List (Share φ φ))

/-- The two shares at the front of an item. -/
def pairOf? : List (Share φ φ) → Option (Share φ φ × Share φ φ)
  | x :: y :: _ => some (x, y)
  | _ => none

/-- The triple at the front of an item. -/
def tripleOf? : List (Share φ φ) → Option (Triple φ φ)
  | a :: b :: c :: _ => some ⟨a, b, c⟩
  | _ => none

/-- The kinds of checks. -/
inductive Kind where
  | triples
  | squares
  | bits
  | inverses
  | inversesFromTriples
  | bitsFromSquares

/-- How to make bits from squares, in fields where roots can be taken. -/
abbrev BitMaker (φ : Type) :=
  Option (Setting → List (Share φ φ × Share φ φ) → Session (Sacrifice φ) (List (Share φ φ)))

/-- Runs a check on items, with helper triples if it needs them.  An item that is too
short for the check is a fault, and so are missing helpers; making bits where no roots
can be taken is an error. -/
def runOn (c : Setting) (makeBits : BitMaker φ) (kind : Kind) (input : Items φ)
    (helpers : Option (Items φ)) : Session (Sacrifice φ) (Items φ) := do
  let ofPairs (xs : List (Share φ φ × Share φ φ)) : Items φ := xs.map fun (x, y) => [x, y]
  let ofSingles (xs : List (Share φ φ)) : Items φ := xs.map fun x => [x]
  let triplesOf (items : Option (Items φ)) := Session.total (items.bind (·.mapM tripleOf?))
  let pairs := Session.total (input.mapM pairOf?)
  match kind with
  | .triples =>
    let kept ← triples c (← triplesOf input)
    pure (kept.map Triple.parts)
  | .squares => ofPairs <$> squares c (← pairs)
  | .bits =>
    let singles ← Session.total (input.mapM List.head?)
    ofSingles <$> bits c singles (← triplesOf helpers)
  | .inverses => ofPairs <$> inverses c (← pairs) (← triplesOf helpers)
  | .inversesFromTriples => ofPairs <$> inversesFromTriples c (← triplesOf input)
  | .bitsFromSquares =>
    match makeBits with
    | none => throw (.error (.unsupported "bits_from_squares"))
    | some make => ofSingles <$> make c (← pairs)

/-- A party's checker and its data by name, the newest first. -/
structure Store (φ : Type) where
  sacrifice : Sacrifice φ
  data : List (String × Items φ)

/-- The items under a name. -/
def Store.items? (s : Store φ) (name : String) : Option (Items φ) :=
  s.data.lookup name

/-- Runs a check on named items and keeps the result if it gets a name.  An unknown
name is a fault. -/
def Store.run (c : Setting) (makeBits : BitMaker φ) (kind : Kind) (input helpers : String)
    (output : Option String) : Session (Store φ) (Items φ) := do
  let s ← get
  let items ← Session.total (s.items? input)
  let items ← (runOn c makeBits kind items (s.items? helpers)).zoom (·.sacrifice)
    fun sacrifice s => { s with sacrifice }
  modify fun s => { s with data := output.toList.map (·, items) ++ s.data }
  pure items

/-- Adds to one part of an item, if it is there. -/
def adjust? (items : List (List φ)) (item part : Nat) (x : φ) : Option (List (List φ)) := do
  let value ← (← items[item]?)[part]?
  some (items.modify item (·.set part (value + x)))

/-- Deals the items of a data set: each has the given shape, the clear values can be
adjusted and the shares corrected, as far as they are there. -/
def deal? (keys : List φ) (shape : Dealer.Shape) (items : List (List φ))
    (adjustments : List (Nat × Nat × φ))
    (corrections : List (Nat × Nat × (Share φ φ → Share φ φ))) (s : Keystream) :
    Option (List (Items φ) × Keystream) := do
  let items ← adjustments.foldlM (fun items (item, part, x) => adjust? items item part x) items
  let (shares, s) ← Dealer.dealParties? keys items.flatten corrections s
  some (shares.map (batches shape.width), s)

end Beaver.Sacrifice
