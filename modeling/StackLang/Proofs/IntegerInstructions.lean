import StackLang.Files
import StackLang.Proofs.ExpressionRun
import StackLang.Sandbox

/-!
# Integer instructions

The integer instructions compute with the whole integers that their operands
stand for and reduce the result to 64 bits. Nothing makes them fail but a
division by zero. Quotient and remainder fit together for all operands, also
where the quotient is too great for 64 bits: what is lost there is lost again
when it is multiplied.
-/
namespace StackLang

/-- What an operator gives for whole integers. -/
def ArithmeticOperator.exact : ArithmeticOperator → Int → Int → Int
  | .add, a, b => a + b
  | .sub, a, b => a - b
  | .mul, a, b => a * b
  | .div, a, b => a.tdiv b

section Words

variable (operator : ArithmeticOperator) (a b : Int64)

theorem ArithmeticOperator.onInts_cases :
    if operator = .div ∧ b = 0 then operator.onInts a b = .error .divisionByZero
    else ∃ n, operator.onInts a b = .ok n ∧
      n.toInt = (operator.exact a.toInt b.toInt).bmod Int64.size := by
  cases operator with
  | add => exact ⟨a + b, rfl, Int64.toInt_add a b⟩
  | sub => exact ⟨a - b, rfl, Int64.toInt_sub a b⟩
  | mul => exact ⟨a * b, rfl, Int64.toInt_mul a b⟩
  | div =>
    by_cases zero : b = 0
    · simp [onInts, zero]
    · simp only [zero, and_false, if_false, onInts]
      exact ⟨a / b, rfl, Int64.toInt_div a b⟩

theorem remainder_cases :
    if b = 0 then remainder a b = .error .divisionByZero
    else ∃ n, remainder a b = .ok n ∧ n.toInt = a.toInt.tmod b.toInt ∧
      n.toInt.natAbs < b.toInt.natAbs ∧ (n.toInt = 0 ∨ n.toInt.sign = a.toInt.sign) := by
  rw [remainder]
  by_cases zero : b = 0
  · rw [if_pos zero, if_pos zero]
  · rw [if_neg zero, if_neg zero]
    refine ⟨a % b, rfl, Int64.toInt_mod a b, ?_, ?_⟩
    · have positive : 0 < b.toInt.natAbs :=
        Int.natAbs_pos.mpr (mt (toInt_eq_zero_iff b).mp zero)
      rw [Int64.toInt_mod, Int.natAbs_tmod]
      exact Nat.mod_lt _ positive
    · rw [Int64.toInt_mod, Int.sign_tmod]
      by_cases divides : b.toInt ∣ a.toInt
      · exact .inl (Int.tmod_eq_zero_of_dvd divides)
      · exact .inr (if_neg divides)

/-- Quotient and remainder make up the dividend, since words are reduced as sums and products are. -/
theorem quotient_mul_add_remainder : a / b * b + a % b = a := by
  calc a / b * b + a % b
    _ = .ofInt (a.toInt.tdiv b.toInt) * .ofInt b.toInt + .ofInt (a.toInt.tmod b.toInt) := by
      rw [ofInt_tdiv, ofInt_tmod, Int64.ofInt_toInt]
    _ = .ofInt (a.toInt.tdiv b.toInt * b.toInt + a.toInt.tmod b.toInt) := by
      rw [Int64.ofInt_add, Int64.ofInt_mul]
    _ = .ofInt a.toInt := by rw [Int.tdiv_mul_add_tmod]
    _ = a := Int64.ofInt_toInt a

end Words

namespace Machine

variable {World : Type} [Host World] {machine : Machine} {place : Nat} {stack : Stack}
variable {store : Store} {a b n : Int64}

/-- A step by an instruction that combines two integers, the one below on the left. -/
theorem step_ints {i : Instruction} {compute : Int64 → Int64 → Except Cause Int64}
    (found : machine.program.instructions[place]? = some i)
    (acts : ∀ frame, i.act machine.labels frame =
      atOnce (frame.combine (Stack.popInt i.opcode) fun lhs rhs => .int <$> compute lhs rhs))
    (world : World) :
    machine.step ⟨place, .value (.int b) :: .value (.int a) :: stack, store⟩ world =
      (match compute a b with
        | .ok n => .running ⟨place + 1, .value (.int n) :: stack, store⟩
        | .error cause => .failed (.atPlace place cause), world) := by
  rw [step_of_atOnce world found (acts _), Frame.combine_of_pops rfl rfl]
  cases compute a b <;> rfl

/-- What is known of the computation holds of the step. -/
theorem step_ints_cases {i : Instruction} {compute : Int64 → Int64 → Except Cause Int64}
    {refuses : Prop} [Decidable refuses] {good : Int64 → Prop}
    (found : machine.program.instructions[place]? = some i)
    (acts : ∀ frame, i.act machine.labels frame =
      atOnce (frame.combine (Stack.popInt i.opcode) fun lhs rhs => .int <$> compute lhs rhs))
    (cases : if refuses then compute a b = .error .divisionByZero
      else ∃ n, compute a b = .ok n ∧ good n) (world : World) :
    if refuses then
      machine.step ⟨place, .value (.int b) :: .value (.int a) :: stack, store⟩ world =
        (.failed (.atPlace place .divisionByZero), world)
    else ∃ n,
      machine.step ⟨place, .value (.int b) :: .value (.int a) :: stack, store⟩ world =
        (.running ⟨place + 1, .value (.int n) :: stack, store⟩, world) ∧ good n := by
  rw [step_ints found acts]
  split at cases
  next refused => rw [if_pos refused, cases]
  next computes =>
    obtain ⟨n, computed, holds⟩ := cases
    rw [if_neg computes, computed]
    exact ⟨n, rfl, holds⟩

theorem step_negate (found : machine.program.instructions[place]? = some (.negate .int))
    (world : World) :
    machine.step ⟨place, .value (.int a) :: stack, store⟩ world =
      (.running ⟨place + 1, .value (.int (-a)) :: stack, store⟩, world) := by
  have acts : (Instruction.negate .int).act machine.labels
      ⟨place, .value (.int a) :: stack, store⟩ =
      atOnce (.ok ⟨place + 1, .value (.int (-a)) :: stack, store⟩) := rfl
  exact step_of_atOnce world found acts

theorem step_arithmetic {operator : ArithmeticOperator}
    (found : machine.program.instructions[place]? = some (.arithmetic operator .int))
    (computed : operator.onInts a b = .ok n) (world : World) :
    machine.step ⟨place, .value (.int b) :: .value (.int a) :: stack, store⟩ world =
      (.running ⟨place + 1, .value (.int n) :: stack, store⟩, world) := by
  rw [step_ints found (fun _ => rfl), computed]

theorem step_modulo (found : machine.program.instructions[place]? = some .modulo)
    (computed : remainder a b = .ok n) (world : World) :
    machine.step ⟨place, .value (.int b) :: .value (.int a) :: stack, store⟩ world =
      (.running ⟨place + 1, .value (.int n) :: stack, store⟩, world) := by
  rw [step_ints found (fun _ => rfl), computed]

end Machine

/-- Code for the dividend as quotient times divisor, and the remainder. -/
def recomposing (a b : Int64) : List Instruction :=
  [.push (.int a), .push (.int b), .arithmetic .div .int, .push (.int b), .arithmetic .mul .int,
    .push (.int a), .push (.int b), .modulo, .arithmetic .add .int]

namespace Machine

variable {World : Type} [Host World] {machine : Machine} {place stop : Nat} {a b : Int64}

theorem run_recomposing (code : machine.program.Segment place (recomposing a b) stop)
    (divisor : b ≠ 0) (stack : Stack) (store : Store) (world : World) :
    machine.run 9 ⟨place, stack, store⟩ world =
      (.running ⟨stop, .value (.int a) :: stack, store⟩, world) := by
  have quotient : ArithmeticOperator.onInts .div a b = .ok (a / b) := if_neg divisor
  have rest : remainder a b = .ok (a % b) := if_neg divisor
  obtain ⟨dividend, divisor, divides, factor, multiplies, again, modulus, takes, adds, rfl⟩ := code
  rw [run_succ_of_running 8 (step_push dividend world),
    run_succ_of_running 7 (step_push divisor world),
    run_succ_of_running 6 (step_arithmetic divides quotient world),
    run_succ_of_running 5 (step_push factor world),
    run_succ_of_running 4 (step_arithmetic multiplies rfl world),
    run_succ_of_running 3 (step_push again world),
    run_succ_of_running 2 (step_push modulus world),
    run_succ_of_running 1 (step_modulo takes rest world),
    run_succ_of_running 0 (step_arithmetic adds rfl world), quotient_mul_add_remainder]
  rfl

/-- By a divisor that is zero the code fails at the division. -/
theorem run_recomposing_zero (code : machine.program.Segment place (recomposing a 0) stop)
    (stack : Stack) (store : Store) (world : World) :
    machine.run 9 ⟨place, stack, store⟩ world =
      (.failed (.atPlace (place + 2) .divisionByZero), world) := by
  obtain ⟨dividend, divisor, divides, _⟩ := code
  have refused : machine.step
      ⟨place + 2, .value (.int 0) :: .value (.int a) :: stack, store⟩ world =
      (.failed (.atPlace (place + 2) .divisionByZero), world) :=
    step_ints divides (fun _ => rfl) world
  rw [run_succ_of_running 8 (step_push dividend world),
    run_succ_of_running 7 (step_push divisor world)]
  exact run_succ_of_ended 6 refused (Status.failed_ne_running _)

/--
The integer instructions on integer operands, `a` being pushed before `b`. Sum, difference, product
and negation never fail, and give the exact integer reduced to 64 bits in two's complement. Quotient
and remainder fail just if `b` is zero, for that reason. Otherwise the quotient is that of the
integers, cut toward zero and reduced, and the remainder is less than `b` in size and has the sign of
`a`. Code that puts them together again ends with `a` on the stack.
-/
theorem integers_wrap (machine : Machine) (world : World) (a b : Int64) (place : Nat)
    (stack : Stack) (store : Store) :
    let reads (i : Instruction) := machine.program.instructions[place]? = some i
    let both := machine.step ⟨place, .value (.int b) :: .value (.int a) :: stack, store⟩ world
    let leaves (n : Int64) :=
      (Status.running ⟨place + 1, .value (.int n) :: stack, store⟩, world)
    let fails := (Status.failed (.atPlace place .divisionByZero), world)
    (∀ operator, reads (.arithmetic operator .int) →
      if operator = .div ∧ b = 0 then both = fails
      else ∃ n, both = leaves n ∧
        n.toInt = (operator.exact a.toInt b.toInt).bmod Int64.size) ∧
    (reads .modulo →
      if b = 0 then both = fails
      else ∃ n, both = leaves n ∧ n.toInt = a.toInt.tmod b.toInt ∧
        n.toInt.natAbs < b.toInt.natAbs ∧ (n.toInt = 0 ∨ n.toInt.sign = a.toInt.sign)) ∧
    (reads (.negate .int) →
      ∃ n, machine.step ⟨place, .value (.int a) :: stack, store⟩ world = leaves n ∧
        n.toInt = (-a.toInt).bmod Int64.size) ∧
    ∀ stop, machine.program.Segment place (recomposing a b) stop →
      machine.run 9 ⟨place, stack, store⟩ world =
        if b = 0 then (.failed (.atPlace (place + 2) .divisionByZero), world)
        else (.running ⟨stop, .value (.int a) :: stack, store⟩, world) := by
  intro reads both leaves fails
  refine ⟨fun operator found => ?_, fun found => ?_, fun found => ?_, fun stop code => ?_⟩
  · exact step_ints_cases found (fun _ => rfl) (operator.onInts_cases a b) world
  · exact step_ints_cases found (fun _ => rfl) (remainder_cases a b) world
  · exact ⟨-a, step_negate found world, Int64.toInt_neg a⟩
  · split
    next zero =>
      subst zero
      exact run_recomposing_zero code stack store world
    next sound => exact run_recomposing code sound stack store world

/-- The least integer divided by -1: the quotient does not fit, and all comes out as it must. -/
theorem integers_wrap_least :
    let a := Int64.minValue
    let machine : Machine := ⟨.ofList (recomposing a (-1)), .empty⟩
    let world : Sandbox DirectoryTree := ⟨[], .unlimited, .scratch⟩
    let frame : Frame := ⟨2, [.value (.int (-1)), .value (.int a)], .empty⟩
    machine.program.instructions[2]? = some (.arithmetic .div .int) ∧
      (∃ n, machine.step frame world = (.running ⟨3, [.value (.int n)], .empty⟩, world) ∧
        n.toInt = (a.toInt.tdiv (-1)).bmod Int64.size) ∧
      machine.program.Segment 0 (recomposing a (-1)) 9 ∧
      machine.run 9 .start world = (.running ⟨9, [.value (.int a)], .empty⟩, world) := by
  intro a machine world frame
  have divides : machine.program.instructions[2]? = some (.arithmetic .div .int) := rfl
  have code : machine.program.Segment 0 (recomposing a (-1)) 9 := Program.segment_toList _
  obtain ⟨quotient, _⟩ := integers_wrap machine world a (-1) 2 [] .empty
  obtain ⟨_, _, _, recomposed⟩ := integers_wrap machine world a (-1) 0 [] .empty
  exact ⟨divides, quotient .div divides, code, recomposed 9 code⟩

end Machine

end StackLang
