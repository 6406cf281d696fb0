/-!
# Rounding

Quotients of whole numbers, rounded to a number of binary digits or written with
two decimal places.  Ties go to even.
-/

namespace LiveSheet
namespace Decimal

/-- The whole number nearest to a quotient.  Of two that are equally near, the
even one is taken. -/
def roundDiv (num den : Nat) : Nat :=
  let q := num / den
  let twice := 2 * (num % den)
  if twice < den ∨ (twice = den ∧ q % 2 = 0) then q else q + 1

/-- A quotient of whole numbers. -/
structure Quotient where
  num : Nat
  den : Nat

/-- The quotient nearest to another one among those with 53 significant binary
digits. -/
def Quotient.significant (x : Quotient) : Quotient :=
  if x.num = 0 then ⟨0, 1⟩
  else
    let top := x.num.log2
    let bottom := x.den.log2 + 53
    -- With this scale the quotient has 53 or 54 digits before the point.
    let scaled : Quotient :=
      if top ≤ bottom then ⟨x.num <<< (bottom - top), x.den⟩
      else ⟨x.num, x.den <<< (top - bottom)⟩
    let spare := if scaled.num / scaled.den < 1 <<< 53 then 1 else 2
    let digits := roundDiv scaled.num (scaled.den * spare) * spare
    if top ≤ bottom then ⟨digits, 1 <<< (bottom - top)⟩ else ⟨digits <<< (top - bottom), 1⟩

/-- A quotient written with two decimal places. -/
def Quotient.twoPlaces (x : Quotient) : String :=
  let hundredths := roundDiv (x.num * 100) x.den
  let places := hundredths % 100
  toString (hundredths / 100) ++ "." ++ (if places < 10 then "0" else "") ++ toString places

theorem roundDiv_near (num : Nat) {den : Nat} (h : 0 < den) :
    2 * (roundDiv num den * den) ≤ 2 * num + den ∧
      2 * num ≤ 2 * (roundDiv num den * den) + den := by
  have hdiv := Nat.div_add_mod num den
  have hmod := Nat.mod_lt num h
  have hcomm : num / den * den = den * (num / den) := Nat.mul_comm _ _
  unfold roundDiv
  dsimp only
  split
  · omega
  · rw [Nat.add_mul]
    omega

end Decimal
end LiveSheet
