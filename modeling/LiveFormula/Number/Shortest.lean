import LiveFormula.Number.Decimal

/-!
# The shortest decimal that reads back

For one digit, two digits and so on, the two decimals of that length around a value are read back
through `Decimal.toBinary`; the first length at which one of them gives the value again wins, and of
two that do the nearer one, the even one if both are as near. Should no length do, the exact expansion
of the value is taken, so that the result always reads back.
-/

set_option autoImplicit false

namespace LiveFormula

namespace Shortest

variable (F : Format)

/-- Whether `u` units are below `10 ^ p`. -/
def belowPower (u : Nat) (p : Int) : Bool :=
  u * Nat.pow 10 (-p).toNat < Nat.pow 10 p.toNat * Nat.pow 2 F.scale

/-- The least `p` with the value below `10 ^ p`, searched from an estimate by the binary logarithm. -/
def order (u : Nat) : Int :=
  let start := (((u.log2 : Int) - F.scale) * 30103) / 100000
  (([start, start + 1, start + 2].find? (belowPower F u))).getD (start + 3)

/-- Whether the magnitude `k` is the nearest to the decimal. -/
def readsBack (k : Nat) (d : Decimal) : Bool :=
  (d.toBinary F false).magnitude.val == k

/-- The better of the two decimals `lower` and `lower + 1` times `10 ^ e` around `u` units. -/
def closest (k u : Nat) (e : Int) : Option Decimal :=
  let num := u * Nat.pow 10 (-e).toNat
  let den := Nat.pow 10 e.toNat * Nat.pow 2 F.scale
  let lower : Decimal := ⟨num / den, e⟩
  let upper : Decimal := ⟨num / den + 1, e⟩
  match readsBack F k lower, readsBack F k upper with
  | true, true => if roundHalfEven num den = num / den then some lower else some upper
  | true, false => some lower
  | false, true => some upper
  | false, false => none

/-- The exact decimal expansion of `u` units. -/
def exact (u : Nat) : Decimal := ⟨u * Nat.pow 5 F.scale, -F.scale⟩

/-- Digits that always suffice for the wider of the two formats. -/
def enough : List Nat := (List.range 17).map (· + 1)

/-- The shortest decimal that reads back as the finite magnitude `k`. -/
def decimal (k : Nat) : Decimal :=
  let u := F.units k
  let p := order F u
  (enough.findSome? fun n : Nat => closest F k u (p - n)).getD (exact F u)

end Shortest

end LiveFormula
