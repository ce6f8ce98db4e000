/-
# Powers

The library's powers `b ^ n` of whole numbers and integers by a whole number are core's `NatPow`
powers, whatever other power instances are in scope (a monoid's power, where Mathlib is
imported): every module that takes powers opens this namespace, so that `b ^ n` stands for the
same term however the library is built.
-/
namespace JsonLine.Power

/-- Powers by a whole number are core's. -/
scoped instance (priority := 2000) natPower {α : Type} [NatPow α] : Pow α Nat := instPowNat

end JsonLine.Power
