import CapLang.Proofs.Parts
import CapLang.Proofs.Signatures

/-!
# What operators come to

An operator by itself raises faults about the kinds, the number or the size of its operands, or
about a capability that is missing, and it gives scalars (`compute_scalar`).  Any other fault or
value of an operator is one that a host object answered a call with (`apply_applies`).
-/
namespace CapLang

/-- The classes of the faults that operators raise by themselves, and writers and readers too. -/
def FaultClass.ofPrimitive : FaultClass → Bool
  | type | arity | arithmetic | capability => true
  | _ => false

theorem FaultClass.ne_of_ofPrimitive {c d : FaultClass} (hc : c.ofPrimitive)
    (hd : d.ofPrimitive = false) : c ≠ d := by
  rintro rfl
  rw [hd] at hc
  cases hc

/-- A computation raises faults of these classes only, and `P` is true of what it gives. -/
def Plain {α : Type} (P : α → Prop) : Except Cause α → Prop
  | .ok a => P a
  | .error cause => cause.faultClass.ofPrimitive

namespace Plain

variable {α : Type} {P : α → Prop}

theorem ok {a : α} (h : P a) : Plain P (.ok a) := h

theorem error {cause : Cause} (h : cause.faultClass.ofPrimitive) :
    Plain P (.error cause : Except Cause α) := h

end Plain

theorem Kind.isScalar_of_admits {k : Kind} {v : Value} (h : k.admits v) : v.isScalar := by
  cases k <;> cases v <;> first | rfl | cases h

namespace Operator

variable (op : Operator)

/-- A computation gives scalars and raises faults of these classes only. -/
def Scalar (x : Except Cause Value) : Prop := Plain (fun v => v.isScalar) x

/-- **What an operator computes from its operands alone is a scalar**, and its faults are of these
classes. -/
theorem compute_scalar (args : List Value) : Scalar (op.compute args) := by
  by_cases hcount : op.arity.accepts args.length
  · cases hsig : op.signature? with
    | some sig =>
      have hanswers := answers_of_counted hcount hsig
      cases hmisfit : sig.misfit? args with
      | some p =>
        rw [hanswers.misfit p.1 p.2 hmisfit]
        exact .error rfl
      | none =>
        rcases hanswers.fits (Signature.misfit?_eq_none_iff.mp hmisfit) with
          ⟨v, hv, hkind⟩ | ⟨cause, hcause, hclass⟩
        · rw [hv]
          exact .ok (Kind.isScalar_of_admits hkind)
        · rw [hcause]
          exact .error (by rw [hclass]; rfl)
    | none =>
      cases op with
      | equal =>
        obtain ⟨v, v', rfl⟩ := eq_pair_of_counted hcount
        rw [compute_equal]
        cases h : v.equals v' with
        | ok b => exact .ok rfl
        | error cause => exact .error (by rw [v.faultClass_equals v' h]; rfl)
      | capability x | invoke method => exact .error rfl
      | _ => cases hsig
  · rw [op.compute_miscounted hcount]
    exact .error rfl

/-- **What an operator comes to**: a flat value or a fault of these classes, which leave the world
as it was, or what a host object answers. -/
inductive Applies (cx : Context) (w : World) :
    Operator → List Value → Except Fault Value × World → Prop
  | value {op args v} (flat : v.isFlat) : Applies cx w op args (.ok v, w)
  | fault {op args cause} (plain : cause.faultClass.ofPrimitive) :
      Applies cx w op args (.error (.ofCause cause), w)
  | host {method handle rest answer}
      (answers : cx.invoke w handle (cx.names.resolve method) rest = answer) :
      Applies cx w (.invoke method) (.capability handle :: rest) answer

theorem Applies.of_scalar {cx : Context} {w : World} {args : List Value} {x : Except Cause Value}
    (hx : Scalar x) : Applies cx w op args (x.mapError Fault.ofCause, w) := by
  cases x with
  | ok v => exact .value (Value.isFlat_of_isScalar hx)
  | error cause => exact .fault hx

theorem apply_applies (cx : Context) (args : List Value) (w : World) :
    Applies cx w op args (op.apply cx args w) := by
  unfold Operator.apply
  split
  · split
    · exact .value rfl
    · exact .fault rfl
  · exact .host rfl
  · exact .fault rfl
  · exact .of_scalar _ (compute_scalar _ _)

end Operator
end CapLang
