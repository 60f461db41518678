import CellLisp.Number

/-!
Arithmetic on numbers. Two integers give an integer, or nothing if the result is out of range; as
soon as one side is a float, the operation is done on floats.
-/

namespace CellLisp.Number

def combine (exact : Int64 → Int64 → Option Int64) (approximate : Float → Float → Float) :
    Number → Number → Option Number
  | int a, int b => (exact a b).map int
  | a, b => some (float (approximate a.toFloat b.toFloat))

def add : Number → Number → Option Number := combine Checked.add (· + ·)

def sub : Number → Number → Option Number := combine Checked.sub (· - ·)

def mul : Number → Number → Option Number := combine Checked.mul (· * ·)

/-- A quotient is always a float. -/
def div (a b : Number) : Number := float (a.toFloat / b.toFloat)

def floorDiv : Number → Number → Option Number :=
  combine Checked.floorDiv fun x y => (x / y).floor

def floorMod : Number → Number → Option Number :=
  combine Checked.floorMod fun x y => x - y * (x / y).floor

/-- An integer exponent counts up to 32 bits; a larger one is out of range whatever the base. A
negative exponent gives a float. -/
def pow : Number → Number → Option Number
  | int a, int n =>
    if n < 0 then some (float ((Float.ofInt a.toInt).pow (Float.ofInt n.toInt)))
    else if n.toInt < 4294967296 then (Checked.pow a n.toInt.toNat).map int
    else none
  | a, b => some (float (a.toFloat.pow b.toFloat))

def abs : Number → Option Number
  | int a => (Checked.abs a).map int
  | float x => some (float x.abs)

end CellLisp.Number
