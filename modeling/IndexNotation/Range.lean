/-!
# Integer ranges

`start`, `start + step`, … up to but not including `stop`.
-/

namespace IndexNotation

structure Range where
  start : Int
  stop : Int
  step : Int := 1
deriving Repr, DecidableEq

namespace Range

/-- The range `0, …, n - 1`. -/
def upTo (n : Int) : Range := ⟨0, n, 1⟩

/-- The number of elements. A step of zero has none. -/
def length (r : Range) : Nat :=
  if 0 < r.step then ((r.stop - r.start + r.step - 1) / r.step).toNat
  else if r.step < 0 then ((r.start - r.stop - r.step - 1) / (-r.step)).toNat
  else 0

def isEmpty (r : Range) : Bool :=
  r.length == 0

/-- Element number `k`. -/
def element (r : Range) (k : Nat) : Int :=
  r.start + k * r.step

def toList (r : Range) : List Int :=
  (List.range r.length).map r.element

/-- Ranges are the same if they have the same elements. -/
def same (r s : Range) : Bool :=
  r.length == s.length &&
    (r.length == 0 || (r.start == s.start && (r.length == 1 || r.step == s.step)))

/-- Elements number `i` up to but not including `j`. -/
def slice (r : Range) (i j : Nat) : Range :=
  let n := r.length
  ⟨r.start + (min i n : Nat) * r.step, r.start + (min j n : Nat) * r.step, r.step⟩

/-- The starts of consecutive pieces of `size` elements, as positions in the range. -/
def cuts (length size : Nat) : List Nat :=
  if size == 0 then [] else (List.range ((length + size - 1) / size)).map (· * size)

/-- Consecutive pieces of `size` elements; the last one may be shorter. -/
def pieces (r : Range) (size : Nat) : List Range :=
  (cuts r.length size).map fun k => r.slice k (k + size)

/-- Pieces for at most `workers` workers, as equal as possible in front. -/
def partition (r : Range) (workers : Int) : List Range :=
  let parts := (max workers 1).toNat
  r.pieces ((r.length + parts - 1) / parts)

def text (r : Range) : String :=
  toString r.start ++ ":" ++ toString r.stop ++ (if r.step == 1 then "" else ":" ++ toString r.step)

end Range
end IndexNotation
