import Xv6.Fault

/-! Loads and stores of a user program that need no help from the kernel. -/

namespace Xv6

/-- The byte a user load returns, when the hardware can translate the address. -/
def userLoad (m : Machine) (va : Nat) : Option UInt8 :=
  (translate m.proc.pagetable .load va).map fun pa => m.kmem.ram pa (va % pgsize)

/-- A user store of one byte; it returns whether the hardware could translate the address. -/
def userStore (va : Nat) (value : UInt8) : KernOp Bool := do
  let m ← get
  match translate m.proc.pagetable .store va with
  | none => return false
  | some pa =>
    withKmem (setPage pa (Function.update (m.kmem.ram pa) (va % pgsize) value))
    return true

end Xv6
