import CapLang.Proofs.Balance
import CapLang.Proofs.Hosts

/-!
# Records only grow

Evaluation never takes back what it has recorded: each step adds to the calls of host objects that
are on record, in front of the earlier ones, and the greatest depth is at least what it was.
-/
namespace CapLang

namespace Machine

/-- The record of calls and the greatest depth of the second machine continue those of the first. -/
structure Later (m m' : Machine) : Prop where
  calls : m.world.calls <:+ m'.world.calls
  maxDepth : ∀ c, m.counters = some c →
    ∃ c', m'.counters = some c' ∧ c.maxDepth ≤ c'.maxDepth

theorem Later.refl (m : Machine) : m.Later m where
  calls := List.suffix_refl _
  maxDepth c h := ⟨c, h, Nat.le_refl _⟩

theorem Later.trans {m₁ m₂ m₃ : Machine} (h₁ : m₁.Later m₂) (h₂ : m₂.Later m₃) :
    m₁.Later m₃ where
  calls := h₁.calls.trans h₂.calls
  maxDepth c₁ h := by
    obtain ⟨c₂, hc₂, hle₁⟩ := h₁.maxDepth c₁ h
    obtain ⟨c₃, hc₃, hle₂⟩ := h₂.maxDepth c₂ hc₂
    exact ⟨c₃, hc₃, Nat.le_trans hle₁ hle₂⟩

theorem later_counted (m : Machine) {f : Counters → Counters}
    (hf : ∀ c, c.maxDepth ≤ (f c).maxDepth) : m.Later (m.counted f) where
  calls := List.suffix_refl _
  maxDepth c h := ⟨f c, by rw [counted, h]; rfl, hf c⟩

theorem later_entered (m : Machine) (c : Call) : m.Later (m.entered c) := by
  have hcounted : m.Later (m.counted (.application (m.stack.depth + 1))) :=
    m.later_counted fun _ => Nat.le_max_left _ _
  exact ⟨hcounted.calls, hcounted.maxDepth⟩

theorem Later.leave {m m' : Machine} (h : m.Later m') : m.Later m'.leave := ⟨h.calls, h.maxDepth⟩

end Machine

namespace Eval

variable {α β : Type}

/-- The step only adds to the records. -/
def Grows (x : Eval α) : Prop := ∀ m : Machine, m.Later (x.after m)

/-- What follows a step only adds to the records that it leaves. -/
theorem bind_later {x : Eval α} {f : α → Eval β} (hf : ∀ a, (f a).Grows) (m : Machine) :
    (x.after m).Later ((x >>= f).after m) := by
  cases h : x m with
  | ok a m₁ =>
    rw [bind_after_of_ok h, after_of_ok h]
    exact hf a m₁
  | error e m₁ =>
    rw [bind_after_of_error h]
    exact .refl _

end Eval

/-- **Evaluation only adds to the records**, the entry of a call included. -/
theorem grows_passage {cx : Context} (hi : cx.invoke = World.invoke) :
    Passage cx Machine.Later where
  refl := .refl
  trans := .trans
  term m := m.later_counted fun _ => Nat.le_refl _
  case m := m.later_counted fun _ => Nat.le_refl _
  primitive m := m.later_counted fun _ => Nat.le_refl _
  stamp _ := ⟨List.suffix_refl _, fun c hc => ⟨c, hc, Nat.le_refl _⟩⟩
  operate op args m := ⟨op.apply_calls args m.world hi, fun c hc => ⟨c, hc, Nat.le_refl _⟩⟩
  call {m _} c h := ((m.later_entered c).trans h).leave

theorem grows_congruence {cx : Context} (hi : cx.invoke = World.invoke) :
    Congruence cx fun _ x _ => x.Grows :=
  (grows_passage hi).congruence

end CapLang
