import Beaver.Transfer.Group
import Beaver.Transfer.Ristretto.Coordinate

/-!
# A group of prime order

The points of a twisted Edwards curve over the field with `2^255 - 19` elements
form a group of order eight times a prime.  Points that differ by one of the eight
points of small order stand for the same element, and the encoding picks one of
them, so that the elements form a group of prime order and each has exactly one
encoding.

A field element is called negative if its representative is odd.
-/

namespace Beaver.Ristretto

/-- The number of elements of the group. -/
def order : Nat := Nat.pow 2 252 + 27742317777372353535851937790883648493

/-- The constant of the curve. -/
def curve : Coordinate :=
  .ofNat 37095705934669439343138083508754565189542113879843219016388785533085940283555

/-- Twice the constant of the curve. -/
def curveTwice : Coordinate := curve + curve

/-- A square root of minus one. -/
def rootMinusOne : Coordinate :=
  .ofNat 19681161376707505956807079304988542015446066515923890162744021073123829784752

/-- The inverse of a square root of minus one less the constant of the curve. -/
def inverseRoot : Coordinate :=
  .ofNat 54469307008909316920995813868745141605393597292927456921205312896311721017578

/-- The inverse of the square root of `v`, if `v` is a square.  Otherwise the second
part is the inverse root of `v` times the root of minus one. -/
def inverseSqrt (v : Coordinate) : Bool × Coordinate :=
  let v3 := v * v * v
  let v7 := v3 * v3 * v
  let r := v3 * v7.powEighth
  let check := (v * r * r).toNat
  let flipped := check == (-1 : Coordinate).toNat
  let flippedRoot := check == (-rootMinusOne).toNat
  let r := if flipped || flippedRoot then rootMinusOne * r else r
  (check == 1 || flipped, r.magnitude)

/-- A point in extended coordinates: `x / z` and `y / z` are its coordinates, and
`t / z` is their product. -/
structure Point where
  x : Coordinate
  y : Coordinate
  z : Coordinate
  t : Coordinate

namespace Point

/-- The neutral point. -/
def zero : Point := ⟨0, 1, 1, 0⟩

/-- The generator of the group. -/
def base : Point :=
  let x := .ofNat 15112221349535400772501151409588531511454012693041857206046113283949847762202
  let y := .ofNat 46316835694926478169428394003475163141307993866256225615783033603165251855960
  ⟨x, y, 1, x * y⟩

/-- The sum of two points. -/
def add (p q : Point) : Point :=
  let a := (p.y - p.x) * (q.y - q.x)
  let b := (p.y + p.x) * (q.y + q.x)
  let c := p.t * curveTwice * q.t
  let d := p.z * q.z
  let d := d + d
  let e := b - a
  let f := d - c
  let g := d + c
  let h := b + a
  ⟨e * f, g * h, f * g, e * h⟩

/-- The inverse of a point. -/
def neg (p : Point) : Point := ⟨-p.x, p.y, p.z, -p.t⟩

/-- The sum of a point with itself. -/
def double (p : Point) : Point :=
  let a := p.x * p.x
  let b := p.y * p.y
  let c := p.z * p.z
  let h := a + b
  let s := p.x + p.y
  let e := h - s * s
  let g := a - b
  let f := c + c + g
  ⟨e * f, g * h, f * g, e * h⟩

/-- The first `n + 1` multiples of a point, from zero on. -/
def multiples (p : Point) : Nat → Array Point
  | 0 => #[zero]
  | n + 1 =>
    let front := multiples p n
    front.push (p.add (front.back?.getD zero))

/-- The digits of a number in base 16, `n` of them, the least significant first. -/
def digits : Nat → Nat → List Nat
  | 0, _ => []
  | n + 1, k => k % 16 :: digits n (k / 16)

/-- The number of digits of a factor. -/
def digitCount : Nat := 64

/-- A multiple of a point, digit by digit from the most significant on. -/
def scale (k : Nat) (p : Point) : Point :=
  let small := p.multiples 15
  (digits digitCount k).foldr
    (fun d acc => (acc.double.double.double.double).add ((small[d]?).getD zero)) zero

/-- For each digit the multiples of the point by the digit times its power of 16. -/
def tableFrom (p : Point) : Nat → List (Array Point)
  | 0 => []
  | n + 1 => p.multiples 15 :: tableFrom p.double.double.double.double n

/-- The table of a point. -/
def table (p : Point) : List (Array Point) :=
  tableFrom p digitCount

/-- A multiple of the point of a table. -/
def multiple (t : List (Array Point)) (k : Nat) : Point :=
  (t.zip (digits digitCount k)).foldl (fun acc (row, d) => acc.add ((row[d]?).getD zero)) zero

/-- The encoding of the element that a point stands for. -/
def encode (p : Point) : Bytes :=
  let u1 := (p.z + p.y) * (p.z - p.y)
  let u2 := p.x * p.y
  let (_, root) := inverseSqrt (u1 * u2 * u2)
  let den1 := root * u1
  let den2 := root * u2
  let zInverse := den1 * den2 * p.t
  let rotate := (p.t * zInverse).isNegative
  let x := if rotate then p.y * rootMinusOne else p.x
  let y := if rotate then p.x * rootMinusOne else p.y
  let den := if rotate then den1 * inverseRoot else den2
  let y := if (x * zInverse).isNegative then -y else y
  Bytes.ofNatLE 32 (den * (p.z - y)).magnitude.toNat

/-- A point of the element with the given encoding. -/
def decode? (bs : Bytes) : Option Point := do
  guard (bs.length = 32)
  let n := Bytes.toNatLE bs
  guard (n < modulus && n % 2 == 0)
  let s := Coordinate.ofNat n
  let ss := s * s
  let u1 := 1 - ss
  let u2 := 1 + ss
  let square := u2 * u2
  let v := -(curve * u1 * u1) - square
  let (isSquare, root) := inverseSqrt (v * square)
  let denX := root * u2
  let denY := root * denX * v
  let x := ((s + s) * denX).magnitude
  let y := u1 * denY
  let t := x * y
  guard (isSquare && !t.isNegative && y.toNat != 0)
  some ⟨x, y, 1, t⟩

end Point

/-- Multiples of the generator. -/
def baseTable : List (Array Point) := Point.base.table

/-- The group of prime order. -/
def group : Transfer.Group where
  Element := Point
  Table := List (Array Point)
  add := Point.add
  sub p q := p.add q.neg
  scale := Point.scale
  table := Point.table
  multiple := Point.multiple
  generator := baseTable
  factor bs := Bytes.toNatLE bs % order
  encode := Point.encode
  decode? := Point.decode?

end Beaver.Ristretto
