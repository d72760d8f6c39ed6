import PolicyEval.Proofs.Arena.Postorder
import PolicyEval.Proofs.Eval.Ending

/-!
# Arithmetic is exact or fails

An expression of integers, arithmetic operators and signs has a value in the integers.  Evaluating
it gives that value, unless an operation on the way divides by zero or has a result that does not
fit.  Then the first such operation is reported, in the order in which operations are carried out:
operands before their operator, left before right.

* `Expr.IsArithmetic` — the expressions.
* `Expr.exact` — their values in the integers.
* `Expr.offence?` — what is wrong with the operation of a node.
* `Expr.firstFault?` — the first operation with which something is wrong.
* `eval_computes` — evaluating gives the exact value or reports that operation.
-/

namespace PolicyEval

/-- The language has the integer. -/
def InRange (n : Int) : Prop := intMin ≤ n ∧ n ≤ intMax

instance (n : Int) : Decidable (InRange n) := inferInstanceAs (Decidable (_ ∧ _))

/-! ## Exact values -/

/-- The result of an operation in the integers. -/
def UnaryOp.exact : UnaryOp → Int → Int
  | .pos, n => n
  | .neg, n => -n
  | .not, _ => 0

/-- The result of an operation in the integers; a quotient is cut off toward zero. -/
def BinaryOp.exact : BinaryOp → Int → Int → Int
  | .add, a, b => a + b
  | .sub, a, b => a - b
  | .mul, a, b => a * b
  | .div, a, b => a.tdiv b
  | _, _, _ => 0

/-- An operation overflows if its exact result does not fit. -/
def overflow? (operation : Operation) (exact : Int) : Option FaultCause :=
  if InRange exact then none else some (.integerOverflow operation)

theorem inRange_of_overflow? {operation : Operation} {n : Int} (h : overflow? operation n = none) :
    InRange n := by
  unfold overflow? at h
  split at h
  · assumption
  · cases h

/-- What is wrong with an operation on an integer: a result that does not fit. -/
def UnaryOp.offence? (op : UnaryOp) (n : Int) : Option FaultCause :=
  overflow? (.unary op) (op.exact n)

/-- What is wrong with an operation on two integers: a divisor that is zero, or a result that does
not fit. -/
def BinaryOp.offence? (op : BinaryOp) (a b : Int) : Option FaultCause :=
  if op = .div ∧ b = 0 then some .divisionByZero else overflow? (.binary op) (op.exact a b)

theorem BinaryOp.inRange_of_offence? {op : BinaryOp} {a b : Int} (h : op.offence? a b = none) :
    InRange (op.exact a b) := by
  unfold offence? at h
  split at h
  · cases h
  · exact inRange_of_overflow? h

/-- Of the integers that fit, only the least one has a negation that does not. -/
theorem UnaryOp.offence?_neg {n : Int} (h : InRange n) :
    offence? .neg n = if n = intMin then some (.integerOverflow (.unary .neg)) else none := by
  have hiff : InRange (-n) ↔ ¬n = intMin := by
    unfold InRange intMin intMax at *
    omega
  change overflow? _ (-n) = _
  simp only [overflow?, hiff, ite_not]

theorem inRange_tdiv_iff {a b : Int} (ha : InRange a) (hb : b ≠ 0) :
    InRange (a.tdiv b) ↔ ¬(a = intMin ∧ b = -1) := by
  have habs : (a.tdiv b).natAbs = a.natAbs / b.natAbs := Int.natAbs_tdiv a b
  constructor
  · rintro h ⟨rfl, rfl⟩
    exact absurd h (by decide)
  · intro hne
    unfold InRange intMin intMax at *
    by_cases hunit : b.natAbs = 1
    · -- The quotient is `a` or `-a`.
      obtain rfl | rfl : b = 1 ∨ b = -1 := by omega
      · rwa [Int.tdiv_one]
      · rw [Int.tdiv_neg, Int.tdiv_one]
        omega
    · have hhalf : a.natAbs / b.natAbs ≤ a.natAbs / 2 :=
        Nat.div_le_div_left (by omega) (by decide)
      omega

/-- Of the quotients of integers that fit, only that of the least one by -1 does not. -/
theorem BinaryOp.offence?_div {a b : Int} (ha : InRange a) :
    offence? .div a b =
      if b = 0 then some .divisionByZero
      else if a = intMin ∧ b = -1 then some (.integerOverflow (.binary .div)) else none := by
  change (if BinaryOp.div = .div ∧ b = 0 then _ else overflow? _ (a.tdiv b)) = _
  by_cases hb : b = 0
  · simp [hb]
  · simp only [hb, and_false, if_false, overflow?, inRange_tdiv_iff ha hb, ite_not]

namespace Expr

/-- Expressions of integers, `+`, `-`, `*`, `/` and signs. -/
inductive IsArithmetic : Expr → Prop
  | int {place : Place} {n : Int} (h : InRange n) : IsArithmetic (.int place n)
  | unary {place : Place} {op : UnaryOp} {operand : Expr} (hop : op ≠ .not)
      (h : operand.IsArithmetic) : IsArithmetic (.unary place op operand)
  | binary {place : Place} {op : BinaryOp} {left right : Expr} (hop : op.isArithmetic = true)
      (hleft : left.IsArithmetic) (hright : right.IsArithmetic) :
      IsArithmetic (.binary place op left right)

/-- The value of an expression in the integers. -/
def exact : Expr → Int
  | int _ n => n
  | unary _ op operand => op.exact operand.exact
  | binary _ op left right => op.exact left.exact right.exact
  | _ => 0

/-- What is wrong with the operation at the root, if its operands have their exact values. -/
def offence? : Expr → Option FaultCause
  | unary _ op operand => op.offence? operand.exact
  | binary _ op left right => op.offence? left.exact right.exact
  | _ => none

/-- The fault of the operation at the root. -/
def fault? (e : Expr) : Option Fault := e.offence?.map fun cause => ⟨cause, some e.span⟩

/-- The fault of the first operation with which something is wrong. -/
def firstFault? (e : Expr) : Option Fault := e.postorder.toList.findSome? fault?

section

variable {place : Place}

theorem firstFault?_int {n : Int} : (int place n).firstFault? = none := by
  simp [firstFault?, postorder, pushNodes, fault?, offence?]

theorem firstFault?_unary {op : UnaryOp} {operand : Expr} :
    (unary place op operand).firstFault? =
      operand.firstFault?.or (unary place op operand).fault? := by
  simp [firstFault?, toList_postorder (unary ..), parts, List.findSome?_append]

theorem firstFault?_binary {op : BinaryOp} {left right : Expr} :
    (binary place op left right).firstFault? =
      left.firstFault?.or (right.firstFault?.or (binary place op left right).fault?) := by
  simp [firstFault?, toList_postorder (binary ..), parts, List.findSome?_append]

end

theorem firstFault?_eq_none_iff {e : Expr} :
    e.firstFault? = none ↔ ∀ node ∈ e.postorder.toList, node.offence? = none := by
  simp [firstFault?, fault?]

theorem firstFault?_eq_some_iff {e : Expr} {f : Fault} :
    e.firstFault? = some f ↔ ∃ (before : List Expr) (node : Expr) (after : List Expr)
      (cause : FaultCause), e.postorder.toList = before ++ node :: after ∧
      (∀ earlier ∈ before, earlier.offence? = none) ∧ node.offence? = some cause ∧
      f = ⟨cause, some node.span⟩ := by
  simp only [firstFault?, fault?, List.findSome?_eq_some_iff, Option.map_eq_some_iff,
    Option.map_eq_none_iff]
  grind

/-- The first fault has a span, which it keeps. -/
theorem leaving_of_firstFault? {e : Expr} {f : Fault} (h : e.firstFault? = some f) (span : Span) :
    f.leaving span = f := by
  obtain ⟨before, node, after, cause, -, -, -, rfl⟩ := firstFault?_eq_some_iff.1 h
  rfl

/-- Where nothing is wrong, the exact value fits. -/
theorem IsArithmetic.inRange {e : Expr} (h : e.IsArithmetic) (hfault : e.firstFault? = none) :
    InRange e.exact := by
  have hoffence : e.offence? = none :=
    firstFault?_eq_none_iff.1 hfault e (by simp [toList_postorder e])
  cases h with
  | int h => exact h
  | unary hop h => exact inRange_of_overflow? hoffence
  | binary hop hleft hright => exact BinaryOp.inRange_of_offence? hoffence

end Expr

/-! ## Operations -/

/-- The outcome of an operation with the given exact result. -/
def attempt (offence? : Option FaultCause) (n : Int) : Except FaultCause Value :=
  match offence? with
  | none => .ok (.int n)
  | some cause => .error cause

theorem checkedInt_eq (operation : Operation) (n : Int) :
    checkedInt operation n = attempt (overflow? operation n) n := by
  by_cases h : InRange n
  · rw [overflow?, if_pos h]
    exact if_pos h
  · rw [overflow?, if_neg h]
    exact if_neg h

theorem applyUnary_int {op : UnaryOp} (hop : op ≠ .not) {n : Int} (hn : InRange n) :
    applyUnary op (.int n) = attempt (op.offence? n) (op.exact n) := by
  cases op with
  | pos =>
      have hnone : UnaryOp.offence? .pos n = none := if_pos hn
      rw [hnone]
      rfl
  | neg => exact checkedInt_eq _ _
  | not => exact absurd rfl hop

theorem applyBinary_int {op : BinaryOp} (hop : op.isArithmetic = true) (ev : Evaluator)
    (fuel : Nat) (a b : Int) :
    applyBinary ev fuel op (.int a) (.int b) =
      Eval.lift (attempt (op.offence? a b) (op.exact a b)) := by
  cases op <;> simp only [BinaryOp.isArithmetic, Bool.false_eq_true] at hop
  case add | sub | mul => exact congrArg Eval.lift (checkedInt_eq _ _)
  case div =>
    refine congrArg Eval.lift ?_
    change divide a b = _
    unfold divide BinaryOp.offence?
    by_cases hb : b = 0
    · simp [hb, attempt]
    · simp [hb, checkedInt_eq, BinaryOp.exact]

/-! ## Evaluation -/

section

variable {e : Expr} {s : State}

/-- The form of an expression ends with its exact value, or with its first fault, up to the span
that this fault still gets. -/
def FormComputes (e : Expr) : EStateM.Result Stop State Value → Prop
  | .ok v _ => e.firstFault? = none ∧ v = .int e.exact
  | .error stop _ => ∃ f, e.firstFault? = some (f.leaving e.span) ∧ stop = .fault f

/-- An expression ends with its exact value, or with its first fault. -/
def Computes (e : Expr) : EStateM.Result Stop State Value → Prop
  | .ok v _ => e.firstFault? = none ∧ v = .int e.exact
  | .error stop _ => ∃ f, e.firstFault? = some f ∧ stop = .fault f

/-- An operand with a fault decides; otherwise the rest sees its exact value. -/
theorem FormComputes.bind {operand : Expr} {first : Eval Value} {next : Value → Eval Value}
    (h : Computes operand (first s))
    (hfault : ∀ f, operand.firstFault? = some f → e.firstFault? = some f)
    (hnext : operand.firstFault? = none → ∀ s', FormComputes e (next (.int operand.exact) s')) :
    FormComputes e ((first >>= next) s) := by
  rw [Eval.bind_apply]
  cases hfirst : first s with
  | ok v s' =>
      rw [hfirst] at h
      obtain ⟨hnone, rfl⟩ := h
      exact hnext hnone s'
  | error stop s' =>
      rw [hfirst] at h
      obtain ⟨f, hsome, rfl⟩ := h
      refine ⟨f, ?_, rfl⟩
      rw [Expr.leaving_of_firstFault? hsome]
      exact hfault f hsome

/-- An operation whose operands have no faults. -/
theorem FormComputes.lift (h : e.firstFault? = e.fault?) (s : State) :
    FormComputes e (Eval.lift (attempt e.offence? e.exact) s) := by
  cases hoffence : e.offence? with
  | none => exact ⟨by rw [h, Expr.fault?, hoffence]; rfl, rfl⟩
  | some cause => exact ⟨⟨cause, none⟩, by rw [h, Expr.fault?, hoffence]; rfl, rfl⟩

theorem Computes.of_form {fuel : Nat} {setting : Setting} {ρ : Env}
    (hlimit : setting.maxDepth = none)
    (h : ∀ s, FormComputes e (evalForm (eval fuel) fuel setting ρ e s)) (s : State) :
    Computes e (eval (fuel + 1) setting ρ e s) := by
  have hroom : s.depth.HasRoom setting.maxDepth := by
    rw [hlimit]
    exact s.depth.hasRoom_none
  have hform := h s.entered
  rw [eval_of_hasRoom hroom]
  revert hform
  cases evalForm (eval fuel) fuel setting ρ e s.entered with
  | ok v s' => exact id
  | error stop s' =>
      rintro ⟨f, hfault, rfl⟩
      exact ⟨f.leaving e.span, hfault, rfl⟩

/-- Evaluating an arithmetic expression gives its exact value or its first fault. -/
theorem eval_computes (h : e.IsArithmetic) {setting : Setting} (hlimit : setting.maxDepth = none)
    (ρ : Env) {fuel : Nat} (hfuel : e.size ≤ fuel) (s : State) :
    Computes e (eval fuel setting ρ e s) := by
  -- The first fault of an operation is that of its operands, from left to right, or its own.
  induction h generalizing fuel s with
  | int h =>
      obtain ⟨fuel, rfl⟩ : ∃ n, fuel = n + 1 := ⟨fuel - 1, by simp [Expr.size] at hfuel; omega⟩
      refine .of_form hlimit (fun s => ?_) s
      exact ⟨Expr.firstFault?_int, rfl⟩
  | @unary place op operand hop h ih =>
      rw [Expr.size] at hfuel
      obtain ⟨fuel, rfl⟩ : ∃ n, fuel = n + 1 := ⟨fuel - 1, by omega⟩
      refine .of_form hlimit (fun s => ?_) s
      refine .bind (ih (by omega) s) (fun f hf => ?_) fun hnone s' => ?_
      · rw [Expr.firstFault?_unary, hf, Option.some_or]
      · rw [applyUnary_int hop (h.inRange hnone)]
        refine .lift (e := .unary place op operand) ?_ s'
        rw [Expr.firstFault?_unary, hnone, Option.none_or]
  | @binary place op left right hop hleft hright ihleft ihright =>
      rw [Expr.size] at hfuel
      obtain ⟨fuel, rfl⟩ : ∃ n, fuel = n + 1 := ⟨fuel - 1, by omega⟩
      refine .of_form hlimit (fun s => ?_) s
      have hstrict : op.decisive? = none := by cases op <;> first | rfl | cases hop
      rw [evalForm_binary _ _ _ _ hstrict]
      refine .bind (ihleft (by omega) s) (fun f hf => ?_) fun hnone s' => ?_
      · rw [Expr.firstFault?_binary, hf, Option.some_or]
      refine .bind (ihright (by omega) s') (fun f hf => ?_) fun hnone' s' => ?_
      · rw [Expr.firstFault?_binary, hnone, hf, Option.none_or, Option.some_or]
      · rw [applyBinary_int hop]
        refine .lift (e := .binary place op left right) ?_ s'
        rw [Expr.firstFault?_binary, hnone, hnone', Option.none_or, Option.none_or]

/-- Under every policy and without a limit on nesting, an arithmetic expression evaluates to a value
exactly if no operation divides by zero or has a result that does not fit, and then to its value in
the integers.  Otherwise it fails, exactly with the fault of the first operation that does so, in
the order in which operations are carried out. -/
theorem eval_arithmetic (h : e.IsArithmetic) {setting : Setting} (hlimit : setting.maxDepth = none)
    (ρ : Env) {fuel : Nat} (hfuel : e.size ≤ fuel) (s : State) :
    (∀ v, (∃ s', eval fuel setting ρ e s = .ok v s') ↔
      v = .int e.exact ∧ ∀ node ∈ e.postorder.toList, node.offence? = none) ∧
    ∀ stop, (∃ s', eval fuel setting ρ e s = .error stop s') ↔
      ∃ (before : List Expr) (node : Expr) (after : List Expr) (cause : FaultCause),
        e.postorder.toList = before ++ node :: after ∧
        (∀ earlier ∈ before, earlier.offence? = none) ∧ node.offence? = some cause ∧
        stop = .fault ⟨cause, some node.span⟩ := by
  have hcomputes := eval_computes h hlimit ρ hfuel s
  revert hcomputes
  cases eval fuel setting ρ e s with
  | ok v s' =>
      rintro ⟨hnone, rfl⟩
      have hall := Expr.firstFault?_eq_none_iff.1 hnone
      refine ⟨fun v => ⟨?_, ?_⟩, fun stop => ⟨nofun, ?_⟩⟩
      · rintro ⟨_, ⟨⟩⟩
        exact ⟨rfl, hall⟩
      · rintro ⟨rfl, -⟩
        exact ⟨s', rfl⟩
      · rintro ⟨before, node, after, cause, hnodes, -, hcause, -⟩
        rw [hall node (by simp [hnodes])] at hcause
        cases hcause
  | error stop s' =>
      rintro ⟨f, hsome, rfl⟩
      refine ⟨fun v => ⟨nofun, ?_⟩, fun stop => ⟨?_, ?_⟩⟩
      · rintro ⟨-, hall⟩
        rw [Expr.firstFault?_eq_none_iff.2 hall] at hsome
        cases hsome
      · rintro ⟨_, ⟨⟩⟩
        obtain ⟨before, node, after, cause, hnodes, hbefore, hcause, rfl⟩ :=
          Expr.firstFault?_eq_some_iff.1 hsome
        exact ⟨before, node, after, cause, hnodes, hbefore, hcause, rfl⟩
      · rintro ⟨before, node, after, cause, hnodes, hbefore, hcause, rfl⟩
        have hfirst := Expr.firstFault?_eq_some_iff.2
          ⟨before, node, after, cause, hnodes, hbefore, hcause, rfl⟩
        rw [hfirst, Option.some.injEq] at hsome
        rw [← hsome]
        exact ⟨s', rfl⟩

/-- The least integer is the value of `-9223372036854775807 - 1`.  In `(n / -1) + 1 / 0`, where `n`
is that difference, the first division overflows, so the second one is not reported. -/
theorem eval_arithmetic_least :
    let here (n : Nat) : Place := ⟨n, ⟨n, n + 1⟩⟩
    let least : Expr := .binary (here 3) .sub (.unary (here 1) .neg (.int (here 0) intMax))
      (.int (here 2) 1)
    let quotient : Expr := .binary (here 6) .div least (.unary (here 5) .neg (.int (here 4) 1))
    let sum : Expr := .binary (here 10) .add quotient
      (.binary (here 9) .div (.int (here 7) 1) (.int (here 8) 0))
    least.IsArithmetic ∧ sum.IsArithmetic ∧ least.size ≤ 20 ∧ sum.size ≤ 20 ∧
      (∃ s', eval 20 ⟨⟨.need, .name⟩, none⟩ .empty least (.start .empty) = .ok (.int intMin) s') ∧
      ∃ s', eval 20 ⟨⟨.need, .name⟩, none⟩ .empty sum (.start .empty) =
        .error (.fault ⟨.integerOverflow (.binary .div), some ⟨6, 7⟩⟩) s' := by
  intro here least quotient sum
  have hleast : least.IsArithmetic :=
    .binary rfl (.unary nofun (.int (by decide))) (.int (by decide))
  have hquotient : quotient.IsArithmetic := .binary rfl hleast (.unary nofun (.int (by decide)))
  have hsum : sum.IsArithmetic :=
    .binary rfl hquotient (.binary rfl (.int (by decide)) (.int (by decide)))
  have hsize : least.size ≤ 20 := by decide
  have hsize' : sum.size ≤ 20 := by decide
  refine ⟨hleast, hsum, hsize, hsize', ?_, ?_⟩
  · refine ((eval_arithmetic hleast rfl .empty hsize (.start .empty)).1 _).2 ⟨rfl, ?_⟩
    decide
  · refine ((eval_arithmetic hsum rfl .empty hsize' (.start .empty)).2 _).2 ?_
    refine ⟨[.int (here 0) intMax, .unary (here 1) .neg (.int (here 0) intMax), .int (here 2) 1,
      least, .int (here 4) 1, .unary (here 5) .neg (.int (here 4) 1)], quotient, _, _, rfl, ?_, rfl,
      rfl⟩
    decide

end

end PolicyEval
