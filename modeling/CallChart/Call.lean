import CallChart.Function

/-! Calls between functions, and the two directions in which they are asked for. -/
namespace CallChart

/-- A call of `callee` in the body of `caller`. -/
structure Call (F : Type) where
  caller : F
  callee : F
  deriving Repr

instance {F : Type} [Ord F] : Ord (Call F) where
  compare := compareLex (compareOn Call.caller) (compareOn Call.callee)

instance {F : Type} [Ord F] [Std.TransOrd F] : Std.TransOrd (Call F) :=
  inferInstanceAs (Std.TransCmp (compareLex (compareOn Call.caller) (compareOn Call.callee)))

/-- Which neighbours of a function are asked for. -/
inductive Coverage where
  | callers
  | callees
  deriving DecidableEq, Repr

/-- The call between a function and one of its neighbours. -/
def Coverage.call {F : Type} (coverage : Coverage) (f neighbour : F) : Call F :=
  match coverage with
  | .callees => ⟨f, neighbour⟩
  | .callers => ⟨neighbour, f⟩

end CallChart
