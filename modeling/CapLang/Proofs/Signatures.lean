import CapLang.Proofs.Integers

/-!
# Which fault an operator raises

Most operators take operands of fixed kinds, and have a signature.  Their number is checked first,
then their kinds from left to right, and only then what they are.  So too few or too many operands
are an arity fault, whatever they are; the leftmost operand of a wrong kind decides a type fault; and
with operands of the right kinds nothing but an arithmetic fault is left (`operators_classified`).

Signatures and arities are two lists of operators, and `Operator.arity_of_signature?` says that they
agree.
-/
namespace CapLang

/-! ## Signatures -/

/-- The kinds of values that operators ask for. -/
inductive Kind
  | int
  | bool
  | str
deriving DecidableEq

namespace Kind

/-- The word for the kind in reports. -/
def word : Kind → String
  | int => "Int"
  | bool => "Boolean"
  | str => "String"

/-- The value is of the kind. -/
def admits : Kind → Value → Bool
  | int, .int _ | bool, .bool _ | str, .str _ => true
  | _, _ => false

end Kind

/-- The kinds of operands that an operator asks for, and the kind of what it gives. -/
structure Signature where
  operands : List Kind
  result : Kind

/-- The signature of an operator; comparisons and the operators on capabilities have none. -/
def Operator.signature? : Operator → Option Signature
  | intAdd | intSub | intMul | intDiv | intMod | intPow => some ⟨[.int, .int], .int⟩
  | intNeg | intAbs => some ⟨[.int], .int⟩
  | intLt | intLe | intGt | intGe => some ⟨[.int, .int], .bool⟩
  | boolAnd | boolOr => some ⟨[.bool, .bool], .bool⟩
  | boolNot => some ⟨[.bool], .bool⟩
  | strConcat => some ⟨[.str, .str], .str⟩
  | strLength => some ⟨[.str], .int⟩
  | strSubstr => some ⟨[.str, .int], .str⟩
  | equal | capability _ | invoke _ => none

namespace Signature

/-- Each operand is of the kind asked for at its place. -/
def Fits (sig : Signature) (args : List Value) : Prop :=
  ∀ p ∈ sig.operands.zip args, p.1.admits p.2

/-- The leftmost operand of a wrong kind, after the kind asked for at its place. -/
def misfit? (sig : Signature) (args : List Value) : Option (Kind × Value) :=
  (sig.operands.zip args).find? fun p => !p.1.admits p.2

theorem misfit?_eq_none_iff {sig : Signature} {args : List Value} :
    sig.misfit? args = none ↔ sig.Fits args := by
  simp [misfit?, Fits]

end Signature

/-- The computation gives a value of the kind or raises an arithmetic fault. -/
def Kind.Gives (k : Kind) (x : Except Cause Value) : Prop :=
  (∃ v, x = .ok v ∧ k.admits v) ∨ ∃ cause, x = .error cause ∧ cause.faultClass = .arithmetic

/-- **How operands are received**: the leftmost misfit is named in a type fault, and operands that
fit give a result of the right kind or an arithmetic fault. -/
structure Signature.Answers (sig : Signature) (args : List Value) (x : Except Cause Value) :
    Prop where
  misfit : ∀ k v, sig.misfit? args = some (k, v) → x = .error (.typeMismatch k.word v.typeName)
  fits : sig.Fits args → sig.result.Gives x

/-- What reads an operand wants it to be of the kind, and says so of any other. -/
structure Kind.ReadBy {α : Type} (k : Kind) (read : Value → Except Cause α) : Prop where
  admitted : ∀ v, k.admits v → ∃ a, read v = .ok a
  refused : ∀ v, ¬ k.admits v → read v = .error (.typeMismatch k.word v.typeName)

namespace Kind

theorem int_readBy : int.ReadBy Value.expectInt where
  admitted v h := by
    cases v <;> first | exact ⟨_, rfl⟩ | cases h
  refused v h := by
    cases v <;> first | rfl | exact absurd rfl h

theorem bool_readBy : bool.ReadBy Value.expectBool where
  admitted v h := by
    cases v <;> first | exact ⟨_, rfl⟩ | cases h
  refused v h := by
    cases v <;> first | rfl | exact absurd rfl h

theorem str_readBy : str.ReadBy Value.expectStr where
  admitted v h := by
    cases v <;> first | exact ⟨_, rfl⟩ | cases h
  refused v h := by
    cases v <;> first | rfl | exact absurd rfl h

/-! ## Results -/

theorem Gives.value {k : Kind} {v : Value} (h : k.admits v) : k.Gives (.ok v) := .inl ⟨v, rfl, h⟩

theorem Gives.fault {k : Kind} {cause : Cause} (h : cause.faultClass = .arithmetic) :
    k.Gives (.error cause) := .inr ⟨cause, rfl, h⟩

theorem gives_exact (operation : String) (x : Option Int64) :
    int.Gives (Operator.exact operation x) := by
  cases x with
  | some n => exact .value rfl
  | none => exact .fault rfl

theorem gives_divide (a b : Int64) : int.Gives (Operator.divide a b) := by
  by_cases h : b = 0
  · rw [Operator.divide, if_pos h]
    exact .fault rfl
  · rw [Operator.divide, if_neg h]
    exact gives_exact _ _

theorem gives_modulo (a b : Int64) : int.Gives (Operator.modulo a b) := by
  by_cases h : b = 0
  · rw [Operator.modulo, if_pos h]
    exact .fault rfl
  · rw [Operator.modulo, if_neg h]
    exact gives_exact _ _

theorem gives_power (a e : Int64) : int.Gives (Operator.power a e) := by
  unfold Operator.power
  by_cases hneg : e < 0
  · rw [if_pos hneg]
    exact .fault rfl
  · by_cases hfits : e.toInt < UInt32.size
    · rw [if_neg hneg, if_pos hfits]
      exact gives_exact _ _
    · rw [if_neg hneg, if_neg hfits]
      exact .fault rfl

theorem gives_suffix (s : String) (i : Int64) : str.Gives (Operator.suffix s i) := by
  unfold Operator.suffix
  by_cases h : 0 ≤ i.toInt ∧ i.toInt ≤ s.length
  · rw [if_pos h]
    exact .value rfl
  · rw [if_neg h]
    exact .fault rfl

end Kind

namespace Operator

variable {α β : Type} {k₁ k₂ result : Kind} (op : Operator) {args : List Value}

/-! ## One operand or two -/

theorem unary_answers {operand : Value → Except Cause α} {f : α → Except Cause Value}
    (hread : k₁.ReadBy operand) (hf : ∀ a, result.Gives (f a)) (hcount : args.length = 1) :
    Signature.Answers ⟨[k₁], result⟩ args (op.unary operand f args) := by
  obtain ⟨v, rfl⟩ := List.length_eq_one_iff.mp hcount
  by_cases hv : k₁.admits v
  · obtain ⟨a, ha⟩ := hread.admitted v hv
    refine ⟨fun k u h => ?_, fun _ => ?_⟩
    · simp [Signature.misfit?, hv] at h
    · rw [unary, ha]
      exact hf a
  · refine ⟨fun k u h => ?_, fun h => absurd (h (k₁, v) List.mem_cons_self) hv⟩
    obtain ⟨rfl, rfl⟩ : k₁ = k ∧ v = u := by simpa [Signature.misfit?, hv] using h
    rw [unary, hread.refused v hv]
    rfl

/-- The left operand is looked at first. -/
theorem binary_answers {left : Value → Except Cause α} {right : Value → Except Cause β}
    {f : α → β → Except Cause Value} (hleft : k₁.ReadBy left) (hright : k₂.ReadBy right)
    (hf : ∀ a b, result.Gives (f a b)) (hcount : args.length = 2) :
    Signature.Answers ⟨[k₁, k₂], result⟩ args (op.binary left right f args) := by
  match args, hcount with
  | [v, w], _ =>
    by_cases hv : k₁.admits v
    · obtain ⟨a, ha⟩ := hleft.admitted v hv
      by_cases hw : k₂.admits w
      · obtain ⟨b, hb⟩ := hright.admitted w hw
        refine ⟨fun k u h => ?_, fun _ => ?_⟩
        · simp [Signature.misfit?, hv, hw] at h
        · rw [binary, ha, hb]
          exact hf a b
      · refine ⟨fun k u h => ?_, fun h => absurd (h (k₂, w) (by simp)) hw⟩
        obtain ⟨rfl, rfl⟩ : k₂ = k ∧ w = u := by simpa [Signature.misfit?, hv, hw] using h
        rw [binary, ha, hright.refused w hw]
        rfl
    · refine ⟨fun k u h => ?_, fun h => absurd (h (k₁, v) List.mem_cons_self) hv⟩
      obtain ⟨rfl, rfl⟩ : k₁ = k ∧ v = u := by simpa [Signature.misfit?, hv] using h
      rw [binary, hleft.refused v hv]
      rfl

theorem ints_answers {f : Int64 → Int64 → Except Cause Value} (hf : ∀ a b, result.Gives (f a b))
    (hcount : args.length = 2) : Signature.Answers ⟨[.int, .int], result⟩ args (op.ints f args) :=
  op.binary_answers Kind.int_readBy Kind.int_readBy hf hcount

/-! ## The number of operands -/

/-- Operators with a signature take as many operands as it lists. -/
theorem arity_of_signature? {sig : Signature} (h : op.signature? = some sig) :
    op.arity = .exactly sig.operands.length := by
  cases op <;> cases h <;> rfl

theorem unary_miscounted (operand : Value → Except Cause α) (f : α → Except Cause Value)
    (h : args.length ≠ 1) :
    op.unary operand f args = .error (op.wrongCount args.length) := by
  match args with
  | [] => rfl
  | [_] => exact absurd rfl h
  | _ :: _ :: _ => rfl

theorem binary_miscounted (left : Value → Except Cause α) (right : Value → Except Cause β)
    (f : α → β → Except Cause Value) (h : args.length ≠ 2) :
    op.binary left right f args = .error (op.wrongCount args.length) := by
  match args with
  | [] => rfl
  | [_] => rfl
  | [_, _] => exact absurd rfl h
  | _ :: _ :: _ :: _ => rfl

/-- **The number of operands comes first**, whatever they are. -/
theorem compute_miscounted (h : ¬ op.arity.accepts args.length) :
    op.compute args = .error (op.wrongCount args.length) := by
  cases op with
  | intNeg | intAbs | boolNot | strLength =>
    exact unary_miscounted _ _ _ fun hone => h (beq_iff_eq.mpr hone)
  | capability x | invoke method => rfl
  | _ => exact binary_miscounted _ _ _ _ fun htwo => h (beq_iff_eq.mpr htwo)

/-- **The kinds of operands come next**, from left to right. -/
theorem compute_answers {sig : Signature} (hsig : op.signature? = some sig)
    (hcount : args.length = sig.operands.length) : sig.Answers args (op.compute args) := by
  cases op with
  | intAdd | intSub | intMul =>
    cases hsig
    exact ints_answers _ (fun _ _ => Kind.gives_exact _ _) hcount
  | intDiv =>
    cases hsig
    exact ints_answers _ Kind.gives_divide hcount
  | intMod =>
    cases hsig
    exact ints_answers _ Kind.gives_modulo hcount
  | intPow =>
    cases hsig
    exact ints_answers _ Kind.gives_power hcount
  | intLt | intLe | intGt | intGe =>
    cases hsig
    exact ints_answers _ (fun _ _ => .value rfl) hcount
  | intNeg | intAbs =>
    cases hsig
    exact unary_answers _ Kind.int_readBy (fun _ => Kind.gives_exact _ _) hcount
  | boolAnd | boolOr =>
    cases hsig
    exact binary_answers _ Kind.bool_readBy Kind.bool_readBy (fun _ _ => .value rfl) hcount
  | boolNot =>
    cases hsig
    exact unary_answers _ Kind.bool_readBy (fun _ => .value rfl) hcount
  | strConcat =>
    cases hsig
    exact binary_answers _ Kind.str_readBy Kind.str_readBy (fun _ _ => .value rfl) hcount
  | strLength =>
    cases hsig
    exact unary_answers _ Kind.str_readBy (fun _ => Kind.gives_exact _ _) hcount
  | strSubstr =>
    cases hsig
    exact binary_answers _ Kind.str_readBy Kind.int_readBy Kind.gives_suffix hcount
  | equal | capability x | invoke method => cases hsig

end Operator

/-! ## Comparisons -/

mutual

/-- **A comparison faults about kinds of values only.** -/
theorem Value.faultClass_equals {cause : Cause} :
    ∀ v w : Value, v.equals w = .error cause → cause.faultClass = .type
  | .record _ xs, w, h => by
    cases w with
    | record s ys =>
      rw [Value.equals] at h
      split at h
      · exact Value.faultClass_equalsFields ys xs h
      · cases h
    | _ => cases h; rfl
  | .variant t v, w, h => by
    cases w with
    | variant u w =>
      rw [Value.equals] at h
      split at h
      · exact Value.faultClass_equals v w h
      · cases h
    | _ => cases h; rfl
  | .closure .., w, h => by cases h; rfl
  | .capability _, w, h => by cases h; rfl
  | .int a, w, h => by cases w <;> cases h <;> rfl
  | .bool a, w, h => by cases w <;> cases h <;> rfl
  | .str a, w, h => by cases w <;> cases h <;> rfl
  | .unit, w, h => by cases w <;> cases h <;> rfl

theorem Value.faultClass_equalsFields {cause : Cause} (others : List (Name × Value)) :
    ∀ fields : List (Name × Value), Value.equalsFields others fields = .error cause →
      cause.faultClass = .type
  | [], h => by cases h
  | (x, v) :: rest, h => by
    rw [Value.equalsFields] at h
    split at h
    · cases h
    · rename_i w hw
      split at h
      · exact Value.faultClass_equalsFields others rest h
      · exact Value.faultClass_equals v w h

end

/-! ## All operators -/

namespace Operator

variable {op : Operator} {args : List Value} (cx : Context) (w : World)

/-- The operator calls a host object. -/
def CallsHost : Operator → List Value → Prop
  | invoke _, .capability _ :: _ => True
  | _, _ => False

theorem apply_of_signature? {sig : Signature} (h : op.signature? = some sig) :
    op.apply cx args w = ((op.compute args).mapError Fault.ofCause, w) := by
  cases op with
  | capability x | invoke method => cases h
  | _ => rfl

theorem apply_miscounted (h : ¬ op.arity.accepts args.length) :
    op.apply cx args w = (.error (.ofCause (op.wrongCount args.length)), w) := by
  cases op with
  | capability x =>
    cases args with
    | nil => exact absurd rfl h
    | cons v rest => rfl
  | invoke method =>
    cases args with
    | nil => rfl
    | cons v rest => simp [arity, Arity.accepts] at h
  | _ =>
    show ((compute _ args).mapError Fault.ofCause, w) = _
    rw [compute_miscounted _ h]
    rfl

theorem apply_capability_of_some {x : Name} {h : Handle} (hfind : cx.registry.find? x = some h) :
    ((capability x).apply cx [] w).1 = .ok (.capability h) := by
  simp only [apply, hfind]

theorem apply_capability_of_none {x : Name} (hfind : cx.registry.find? x = none) :
    ((capability x).apply cx [] w).1 =
      .error (.ofCause (.missingCapability (cx.names.resolve x))) := by
  simp only [apply, hfind]

/-- What is no capability has no methods. -/
theorem apply_invoke_misfit {method : Name} {v : Value} {rest : List Value}
    (hv : ∀ h, v ≠ .capability h) : (invoke method).apply cx (v :: rest) w =
      (.error (.ofCause (.typeMismatch "Capability" v.typeName)), w) := by
  cases v with
  | capability h => exact absurd rfl (hv h)
  | _ => rfl

theorem compute_equal (v w : Value) : equal.compute [v, w] = Value.bool <$> v.equals w := rfl

/-- Two values have an answer, or the fault is about their kinds. -/
theorem apply_equal (v v' : Value) :
    (∃ b, (equal.apply cx [v, v'] w).1 = .ok (.bool b)) ∨
      ∃ cause, (equal.apply cx [v, v'] w).1 = .error (.ofCause cause) ∧ cause.faultClass = .type := by
  show (∃ b, (equal.compute [v, v']).mapError Fault.ofCause = _) ∨
    ∃ cause, (equal.compute [v, v']).mapError Fault.ofCause = _ ∧ _
  rw [compute_equal]
  cases h : v.equals v' with
  | ok b => exact .inl ⟨b, rfl⟩
  | error cause => exact .inr ⟨cause, rfl, v.faultClass_equals v' h⟩

section Counted

variable (hcount : op.arity.accepts args.length) {sig : Signature} (hsig : op.signature? = some sig)
include hcount hsig

theorem answers_of_counted : sig.Answers args (op.compute args) := by
  rw [op.arity_of_signature? hsig] at hcount
  exact op.compute_answers hsig (beq_iff_eq.mp hcount)

theorem apply_misfit {k : Kind} {v : Value} (h : sig.misfit? args = some (k, v)) :
    (op.apply cx args w).1 = .error (.ofCause (.typeMismatch k.word v.typeName)) := by
  rw [apply_of_signature? cx w hsig, (answers_of_counted hcount hsig).misfit k v h]
  rfl

theorem apply_fits (h : sig.Fits args) :
    (∃ v, (op.apply cx args w).1 = .ok v ∧ sig.result.admits v) ∨
      ∃ cause, (op.apply cx args w).1 = .error (.ofCause cause) ∧
        cause.faultClass = .arithmetic := by
  rw [apply_of_signature? cx w hsig]
  rcases (answers_of_counted hcount hsig).fits h with ⟨v, hv, hkind⟩ | ⟨cause, hcause, hclass⟩
  · rw [hv]
    exact .inl ⟨v, rfl, hkind⟩
  · rw [hcause]
    exact .inr ⟨cause, rfl, hclass⟩

/-- A type fault is always about a misfit. -/
theorem typeMismatch_iff_not_fits :
    (∃ expected got, (op.apply cx args w).1 = .error (.ofCause (.typeMismatch expected got))) ↔
      ¬ sig.Fits args := by
  constructor
  · rintro ⟨expected, got, h⟩ hfits
    rcases apply_fits cx w hcount hsig hfits with ⟨v, hv, -⟩ | ⟨cause, hcause, hclass⟩
    · rw [hv] at h
      cases h
    · rw [hcause, Except.error.injEq, Fault.ofCause_injective.eq_iff] at h
      rw [h] at hclass
      cases hclass
  · intro hfits
    obtain ⟨⟨k, v⟩, hmisfit⟩ :=
      Option.ne_none_iff_exists'.mp fun h => hfits (Signature.misfit?_eq_none_iff.mp h)
    exact ⟨k.word, v.typeName, apply_misfit cx w hcount hsig hmisfit⟩

end Counted

theorem eq_pair_of_counted (hcount : equal.arity.accepts args.length) : ∃ v v', args = [v, v'] := by
  match args, beq_iff_eq.mp hcount with
  | [v, v'], _ => exact ⟨v, v', rfl⟩

theorem eq_nil_of_counted {x : Name} (hcount : (capability x).arity.accepts args.length) :
    args = [] := List.length_eq_zero_iff.mp (beq_iff_eq.mp hcount)

theorem eq_cons_of_counted {method : Name} (hcount : (invoke method).arity.accepts args.length) :
    ∃ v rest, args = v :: rest := by
  cases args with
  | nil => cases hcount
  | cons v rest => exact ⟨v, rest, rfl⟩

/-- **With as many operands as it takes, an operator raises no arity fault by itself.** -/
theorem faultClass_ne_arity {f : Fault} (hcount : op.arity.accepts args.length)
    (hhost : ¬ op.CallsHost args) (h : (op.apply cx args w).1 = .error f) :
    f.cause.faultClass ≠ .arity := by
  -- Otherwise the fault is one of those named above, and they are of other classes.
  have hother {cause : Cause} (hcause : (op.apply cx args w).1 = .error (.ofCause cause))
      (hclass : cause.faultClass ≠ .arity) : f.cause.faultClass ≠ .arity := by
    rw [hcause] at h
    cases h
    exact hclass
  have hvalue {v : Value} (hv : (op.apply cx args w).1 = .ok v) : f.cause.faultClass ≠ .arity := by
    rw [hv] at h
    cases h
  cases hsig : op.signature? with
  | some sig =>
    cases hmisfit : sig.misfit? args with
    | some p => exact hother (apply_misfit cx w hcount hsig hmisfit) nofun
    | none =>
      rcases apply_fits cx w hcount hsig (Signature.misfit?_eq_none_iff.mp hmisfit) with
        ⟨v, hv, -⟩ | ⟨cause, hcause, hclass⟩
      · exact hvalue hv
      · exact hother hcause (by rw [hclass]; exact nofun)
  | none =>
    cases op with
    | equal =>
      obtain ⟨v, v', rfl⟩ := eq_pair_of_counted hcount
      rcases apply_equal cx w v v' with ⟨b, hb⟩ | ⟨cause, hcause, hclass⟩
      · exact hvalue hb
      · exact hother hcause (by rw [hclass]; exact nofun)
    | capability x =>
      obtain rfl := eq_nil_of_counted hcount
      cases hfind : cx.registry.find? x with
      | some handle => exact hvalue (apply_capability_of_some cx w hfind)
      | none => exact hother (apply_capability_of_none cx w hfind) nofun
    | invoke method =>
      obtain ⟨v, rest, rfl⟩ := eq_cons_of_counted hcount
      have hv : ∀ handle, v ≠ .capability handle := fun handle hcap => hhost (by rw [hcap]; trivial)
      exact hother (congrArg Prod.fst (apply_invoke_misfit cx w hv)) nofun
    | _ => cases hsig

end Operator

/-- **Which fault an operator raises.**  A wrong number of operands is an arity fault that names the
operator, the number it takes and the number there is, and no other fault that the operator raises
by itself is one.

With the right number, an operator with a signature raises a type fault just if some operand is of a
wrong kind, and the fault names the kinds asked for and found at the leftmost of these.  If all
kinds are right it gives a value of its result's kind or raises an arithmetic fault.  A comparison
gives a truth value or a type fault.  A capability is what is registered under its name, or it is
missing.  A call passes on what the host object answers to the remaining operands, and raises a type
fault if there is no object to call. -/
theorem operators_classified (cx : Context) (op : Operator) (args : List Value) (w : World) :
    let answer := (op.apply cx args w).1
    let fault (cause : Cause) : Except Fault Value := .error (.ofCause cause)
    (¬ op.CallsHost args →
      ((∃ f, answer = .error f ∧ f.cause.faultClass = .arity) ↔ ¬ op.arity.accepts args.length)) ∧
    (¬ op.arity.accepts args.length → answer =
      fault (.arityMismatch ("primitive " ++ op.text) op.arity.expected args.length)) ∧
    (op.arity.accepts args.length →
      (∀ sig, op.signature? = some sig →
        ((∃ expected got, answer = fault (.typeMismatch expected got)) ↔ ¬ sig.Fits args) ∧
        (∀ k v, sig.misfit? args = some (k, v) →
          answer = fault (.typeMismatch k.word v.typeName)) ∧
        (sig.Fits args → (∃ v, answer = .ok v ∧ sig.result.admits v) ∨
          ∃ cause, answer = fault cause ∧ cause.faultClass = .arithmetic)) ∧
      (op = .equal → (∃ b, answer = .ok (.bool b)) ∨
        ∃ cause, answer = fault cause ∧ cause.faultClass = .type) ∧
      (∀ x, op = .capability x →
        (∀ h, cx.registry.find? x = some h → answer = .ok (.capability h)) ∧
        (cx.registry.find? x = none → answer = fault (.missingCapability (cx.names.resolve x)))) ∧
      (∀ method, op = .invoke method → ∃ v rest, args = v :: rest ∧
        (∀ h, v = .capability h →
          op.apply cx args w = cx.invoke w h (cx.names.resolve method) rest) ∧
        ((∀ h, v ≠ .capability h) → answer = fault (.typeMismatch "Capability" v.typeName)))) := by
  intro answer fault
  refine ⟨fun hhost => ⟨?_, fun hcount => ?_⟩, fun hcount => ?_, fun hcount => ⟨?_, ?_, ?_, ?_⟩⟩
  · rintro ⟨f, hf, hclass⟩ hcount
    exact Operator.faultClass_ne_arity cx w hcount hhost hf hclass
  · exact ⟨_, congrArg Prod.fst (Operator.apply_miscounted cx w hcount), rfl⟩
  · exact congrArg Prod.fst (Operator.apply_miscounted cx w hcount)
  · intro sig hsig
    exact ⟨Operator.typeMismatch_iff_not_fits cx w hcount hsig,
      fun k v => Operator.apply_misfit cx w hcount hsig, Operator.apply_fits cx w hcount hsig⟩
  · rintro rfl
    obtain ⟨v, v', rfl⟩ := Operator.eq_pair_of_counted hcount
    exact Operator.apply_equal cx w v v'
  · rintro x rfl
    obtain rfl := Operator.eq_nil_of_counted hcount
    exact ⟨fun h => Operator.apply_capability_of_some cx w, Operator.apply_capability_of_none cx w⟩
  · rintro method rfl
    obtain ⟨v, rest, rfl⟩ := Operator.eq_cons_of_counted hcount
    refine ⟨v, rest, rfl, ?_, fun hv => congrArg Prod.fst (Operator.apply_invoke_misfit cx w hv)⟩
    rintro h rfl
    rfl

/-- Both operands are of the wrong kind, and the fault speaks of the left one. -/
theorem leftmost_misfit_named :
    let cx : Context := ⟨.initial, .empty, World.invoke⟩
    let w := World.ofInput ByteArray.empty
    let args : List Value := [.int 1, .bool true]
    Operator.strSubstr.arity.accepts args.length ∧
      Operator.strSubstr.signature? = some ⟨[.str, .int], .str⟩ ∧
      Signature.misfit? ⟨[.str, .int], .str⟩ args = some (.str, .int 1) ∧
      (Operator.strSubstr.apply cx args w).1 =
        .error (.ofCause (.typeMismatch "String" "Int")) := by
  intro cx w args
  obtain ⟨-, -, hcounted⟩ := operators_classified cx .strSubstr args w
  obtain ⟨hsignature, -⟩ := hcounted rfl
  obtain ⟨-, hmisfit, -⟩ := hsignature _ rfl
  exact ⟨rfl, rfl, rfl, hmisfit .str (.int 1) rfl⟩

end CapLang
