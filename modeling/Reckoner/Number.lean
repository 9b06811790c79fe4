/-!
Numbers as doubles, their literals and their texts. A literal is a decimal of any length, read as
the nearest double; a text is the shortest decimal that is read back.
-/
namespace Reckoner

/-- The value `coefficient / 10 ^ places`. -/
structure Decimal where
  coefficient : Nat
  places : Nat
deriving DecidableEq, Repr

namespace Decimal

def ofDigits (whole fraction : List Char) : Decimal :=
  ⟨Nat.ofDigitChars 10 (whole ++ fraction) 0, fraction.length⟩

def fractionDigits (d : Decimal) : List Char :=
  (Nat.toDigits 10 (Nat.pow 10 d.places + d.coefficient % Nat.pow 10 d.places)).drop 1

def trimZeros (digits : List Char) : List Char :=
  (digits.reverse.dropWhile (· == '0')).reverse

/-- Positional text: no exponent, no superfluous zero on either side, and a point only before
a fraction that is not zero. -/
def text (d : Decimal) : String :=
  let whole := Nat.toDigits 10 (d.coefficient / Nat.pow 10 d.places)
  match trimZeros d.fractionDigits with
  | [] => String.ofList whole
  | fraction => String.ofList (whole ++ '.' :: fraction)

end Decimal

/-! Non-negative doubles go by rank: rank `0` is zero, rank `k + 1` is the double after rank `k`,
and the last rank is infinity. The rank of a double is also its bit pattern. Magnitudes are exact
natural numbers, in units of the least positive double `2 ^ -1074`. -/

namespace Binary64

def infinity : Nat := 2047 * Nat.pow 2 52

/-- The leading bit is implicit from `2 ^ 52` on. -/
def significand (rank : Nat) : Nat :=
  if rank < Nat.pow 2 52 then rank else Nat.pow 2 52 + rank % Nat.pow 2 52

def exponent (rank : Nat) : Nat :=
  rank / Nat.pow 2 52 - 1

/-- Infinity counts as `2 ^ 1024`, the double that would come next. -/
def magnitude (rank : Nat) : Nat :=
  significand rank * Nat.pow 2 (exponent rank)

def rankBelow (units : Nat) : Nat :=
  let shift := units.log2 - 52
  shift * Nat.pow 2 52 + units / Nat.pow 2 shift

/-- The rank nearest to `numerator / denominator` units; a tie goes to the even rank. -/
def nearest (numerator denominator : Nat) : Nat :=
  let rank := rankBelow (numerator / denominator)
  if infinity ≤ rank then infinity
  else
    let middle := (magnitude rank + magnitude (rank + 1)) * denominator
    if 2 * numerator < middle then rank
    else if middle < 2 * numerator then rank + 1
    else rank + rank % 2

theorem nearest_le_infinity (numerator denominator : Nat) :
    nearest numerator denominator ≤ infinity := by
  unfold nearest
  dsimp only
  split
  · exact Nat.le_refl _
  · split
    · omega
    · split <;> omega

def ofDecimal (d : Decimal) : Nat :=
  nearest (d.coefficient * Nat.pow 2 1074) (Nat.pow 10 d.places)

theorem valid_of_le_infinity {rank : Nat} (h : rank ≤ infinity) :
    Float.Model.Format.binary64.Valid (UInt64.ofNat rank).toBitVec := by
  refine ⟨fun exponent mantissa => absurd ?_ mantissa⟩
  have bits : (UInt64.ofNat rank).toBitVec.toNat = rank := by
    simp only [infinity, Nat.pow_eq] at h
    simp only [UInt64.toNat_toBitVec, UInt64.toNat_ofNat']
    omega
  apply BitVec.eq_of_toNat_eq
  have exponent := congrArg BitVec.toNat exponent
  simp only [infinity, Nat.pow_eq] at h
  simp [Float.Model.UnpackedFloat.unpackExponent, Float.Model.UnpackedFloat.unpackMantissa,
    BitVec.extractLsb, bits, Nat.shiftRight_eq_div_pow] at exponent ⊢
  omega

def toFloat (rank : Nat) (h : rank ≤ infinity) : Float :=
  .ofModel ⟨UInt64.ofNat rank, valid_of_le_infinity h⟩

theorem toBits_toFloat {rank : Nat} (h : rank ≤ infinity) :
    (toFloat rank h).toBits.toNat = rank := by
  change (UInt64.ofNat rank).toNat = rank
  simp only [infinity, Nat.pow_eq] at h
  simp only [UInt64.toNat_ofNat']
  omega

/-! The exact value of a rank is a decimal too, so the search for the shortest one that is read as
the rank runs over grids `10 ^ j` in units of its last place, from the coarsest down. On each grid
only the two neighbours of the exact value can be the answer. -/

def exact (rank : Nat) : Decimal :=
  let places := 1074 - exponent rank
  ⟨significand rank * Nat.pow 2 (exponent rank - 1074) * Nat.pow 5 places, places⟩

/-- The neighbour of `target` on the grid `10 ^ j` that is read as `rank`: of two such the nearer,
and the upper one if both are equally near. -/
def onGrid? (rank : Nat) (target : Decimal) (j : Nat) : Option Nat :=
  let lower := target.coefficient / Nat.pow 10 j * Nat.pow 10 j
  let upper := lower + Nat.pow 10 j
  let reads (coefficient : Nat) := ofDecimal ⟨coefficient, target.places⟩ == rank
  if reads lower then
    if upper - target.coefficient ≤ target.coefficient - lower && reads upper then some upper
    else some lower
  else if reads upper then some upper
  else none

/-- The first hit on the grids `10 ^ j`, …, `10`, and `target` itself where they have none. -/
def coarsest (rank : Nat) (target : Decimal) : Nat → Nat
  | 0 => target.coefficient
  | j + 1 => (onGrid? rank target (j + 1)).getD (coarsest rank target j)

def shortest (rank : Nat) : Decimal :=
  let target := exact rank
  ⟨coarsest rank target (Nat.toDigits 10 target.coefficient).length, target.places⟩

end Binary64

namespace Number

def ofDecimal (d : Decimal) : Float :=
  Binary64.toFloat (Binary64.ofDecimal d) (Binary64.nearest_le_infinity _ _)

def unsignedText (rank : Nat) : String :=
  if rank = Binary64.infinity then "inf" else (Binary64.shortest rank).text

/-- The fewest digits that read back, after `-` where the sign bit is set. Every NaN is written
alike. -/
def text (x : Float) : String :=
  let bits := x.toBits.toNat
  let rank := bits % Nat.pow 2 63
  if Binary64.infinity < rank then "NaN"
  else if bits < Nat.pow 2 63 then unsignedText rank
  else "-" ++ unsignedText rank

end Number
end Reckoner
