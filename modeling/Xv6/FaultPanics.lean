import Xv6.Consistency
import Xv6.Frames

/-! When handling a user page fault can panic the kernel. -/

namespace Xv6

open Prog

variable {cause va : Nat} {env : FsEnv} {m : Machine}

end Xv6
