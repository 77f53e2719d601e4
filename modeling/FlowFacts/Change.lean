/-! # Writing over a fact -/

namespace FlowFacts

/-- Puts `new` in the place of `old` and tells whether that changes anything. -/
def overwrite {α : Type} [DecidableEq α] (old new : α) : α × Bool := (new, decide (old ≠ new))

@[simp] theorem overwrite_fst {α : Type} [DecidableEq α] (old new : α) :
    (overwrite old new).1 = new := rfl

theorem overwrite_snd_iff {α : Type} [DecidableEq α] {old new : α} :
    (overwrite old new).2 = true ↔ old ≠ new := by
  simp [overwrite]

end FlowFacts
