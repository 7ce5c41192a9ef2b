/-! Identities of the entities of one analysis. Classes and functions are numbered from zero in
the order of their declaration; locks are numbered from one. -/

namespace Interlock

abbrev ClassId := Nat

abbrev FunctionId := Nat

abbrev LockId := Nat

/-- How a class is shown where its name is not at hand. -/
def ClassId.label (c : ClassId) : String := "class#" ++ toString c

/-- How a function is shown where its name is not at hand. -/
def FunctionId.label (f : FunctionId) : String := "fn#" ++ toString f

/-- How a lock is shown where its name is not at hand. -/
def LockId.label (l : LockId) : String := "lock#" ++ toString l

end Interlock
