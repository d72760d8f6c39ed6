import PolicyEval.Proofs.Eval.Ending
import PolicyEval.Proofs.Eval.Kinship
import PolicyEval.Render

/-!
# Inquiries — asking for the parts of lists

Whoever looks into a list asks for the parts of its cells, one after another, and what is asked for
next depends on the answers so far.  An inquiry is the tree of these questions.  It asks for nothing
else, so how it ends is decided by its questions alone: it comes to its result if each of them is
answered, it fails with the first one that fails, and it goes on forever only if one of them does.

* `CellPart`, `Inquiry` — the parts of list cells, and asking for them.
* `Inquiry.Trace`, `Inquiry.Awaits` — answers that lead to a result, and the next question.
* `Answered` — forcing parts one after another, with their answers.
* `Inquiry.endsAs_ok_iff`, `Inquiry.endsAs_fault_iff`, `Inquiry.terminates_iff` — how an inquiry
  ends.
-/

namespace PolicyEval

/-! ## Outcomes with enough fuel -/

section

variable {α β : Type}

/-- With enough fuel the computation has the given outcome. -/
def EndsAs (body : Nat → Eval α) (s : State) (outcome : EStateM.Result Stop State α) : Prop :=
  Ends (fun n _ => body n) s fun reached => reached = outcome

/-- With enough fuel the computation has an outcome. -/
def Terminates (body : Nat → Eval α) (s : State) : Prop := ∃ outcome, EndsAs body s outcome

/-- The computation has no outcome, however much fuel it is given. -/
def Diverges (body : Nat → Eval α) (s : State) : Prop := ∀ fuel, Eval.IsStarved (body fuel s)

variable {body : Nat → Eval α} {s s' : State}

theorem endsAs_iff {outcome : EStateM.Result Stop State α} :
    EndsAs body s outcome ↔
      ¬Eval.IsStarved outcome ∧ ∃ enough, ∀ fuel, enough ≤ fuel → body fuel s = outcome := by
  constructor
  · rintro ⟨_, hstarved, rfl, enough, h⟩
    exact ⟨hstarved, enough, fun fuel hfuel => h fuel fuel hfuel hfuel⟩
  · rintro ⟨hstarved, enough, h⟩
    exact ⟨outcome, hstarved, rfl, enough, fun n _ hn _ => h n hn⟩

theorem EndsAs.unique {first second : EStateM.Result Stop State α} (h : EndsAs body s first)
    (h' : EndsAs body s second) : first = second := by
  obtain ⟨-, enough, h⟩ := endsAs_iff.1 h
  obtain ⟨-, enough', h'⟩ := endsAs_iff.1 h'
  exact (h (max enough enough') (by omega)).symm.trans (h' (max enough enough') (by omega))

theorem Diverges.not_terminates (h : Diverges body s) : ¬Terminates body s := by
  rintro ⟨outcome, hends⟩
  obtain ⟨hstarved, enough, hends⟩ := endsAs_iff.1 hends
  exact hstarved (hends enough (Nat.le_refl _) ▸ h enough)

theorem EndsAs.pure (a : α) (s : State) : EndsAs (fun _ => (Pure.pure a : Eval α)) s (.ok a s) :=
  endsAs_iff.2 ⟨Eval.not_isStarved_ok, 0, fun _ _ => rfl⟩

theorem EndsAs.bind {next : α → Nat → Eval β} {a : α} {outcome : EStateM.Result Stop State β}
    (h : EndsAs body s (.ok a s')) (hnext : EndsAs (next a) s' outcome) :
    EndsAs (fun n => body n >>= fun a => next a n) s outcome := by
  refine @Ends.bind _ _ _ _ (fun a n _ => next a n) _ _ h ?_ ?_
  · rintro b s₁ ⟨⟩
    exact hnext
  · rintro stop s₁ ⟨⟩

theorem EndsAs.bind_fault {next : α → Nat → Eval β} {f : Fault}
    (h : EndsAs body s (.error (.fault f) s')) :
    EndsAs (fun n => body n >>= fun a => next a n) s (.error (.fault f) s') := by
  refine @Ends.bind _ _ _ _ (fun a n _ => next a n) _ _ h ?_ ?_
  · rintro b s₁ ⟨⟩
  · rintro stop s₁ ⟨⟩
    rfl

theorem Diverges.bind_first {next : α → Nat → Eval β} (h : Diverges body s) :
    Diverges (fun n => body n >>= fun a => next a n) s := fun fuel => by
  obtain ⟨s₁, hbody⟩ := h fuel
  exact ⟨s₁, Eval.bind_of_error hbody⟩

/-- With little fuel the first computation may be the one that runs out of it. -/
theorem Diverges.bind {next : α → Nat → Eval β} {a : α} (h : EndsAs body s (.ok a s'))
    (hextends : ∀ {n n'}, n ≤ n' → Eval.Extends (body n') (body n))
    (hnext : Diverges (next a) s') : Diverges (fun n => body n >>= fun a => next a n) s := by
  obtain ⟨-, enough, hends⟩ := endsAs_iff.1 h
  intro fuel
  rcases hextends (Nat.le_max_left fuel enough) s with ⟨s₁, hstarved⟩ | heq
  · exact ⟨s₁, Eval.bind_of_error hstarved⟩
  · rw [hends _ (Nat.le_max_right fuel enough)] at heq
    obtain ⟨s₁, hstarved⟩ := hnext fuel
    exact ⟨s₁, (Eval.bind_of_ok heq.symm).trans hstarved⟩

end

/-! ## Parts of list cells -/

/-- The first or the second part of a list cell. -/
inductive CellPart where
  | head (x : Thunk)
  | tail (y : Thunk)

namespace CellPart

/-- The value of the part. -/
def force (ev : Evaluator) : CellPart → Eval Value
  | head x => PolicyEval.force ev x
  | tail y => forceTail ev y

/-- The part may have this value: second parts are lists. -/
def Admits : CellPart → Value → Prop
  | head _, _ => True
  | tail _, v => v.isList = true

/-- The plan of forcing the part. -/
def plan : CellPart → Plan Value
  | head x => .force x .done
  | tail y => .force y fun v => .lift (asTail v) .done

theorem run_plan (p : CellPart) (ev : Evaluator) (fuel : Nat) :
    p.plan.run ev fuel = p.force ev := by
  cases p with
  | head x => simp only [plan, Plan.run, bind_pure, force]
  | tail y => simp only [plan, Plan.run, Plan.run_lift, bind_pure, force, forceTail]

theorem force_extends (p : CellPart) {n n' : Nat} (h : n ≤ n') :
    Eval.Extends (p.force (eval n')) (p.force (eval n)) := by
  have heval := fun setting ρ e => eval_extends h setting ρ e
  rw [← p.run_plan (eval n') n', ← p.run_plan (eval n) n]
  exact run_extends heval (compareAll_extends heval h) p.plan

theorem admits_of_force {p : CellPart} {ev : Evaluator} {s s' : State} {v : Value}
    (h : p.force ev s = .ok v s') : p.Admits v := by
  cases p with
  | head x => exact trivial
  | tail y =>
      obtain ⟨w, s₁, -, hlift⟩ := Eval.bind_eq_ok.1 h
      obtain ⟨hlist, rfl⟩ := asTail_eq_ok.1 (Eval.lift_eq_ok.1 hlift).1
      exact hlist

theorem admits_of_endsAs {p : CellPart} {s s' : State} {v : Value}
    (h : EndsAs (fun n => p.force (eval n)) s (.ok v s')) : p.Admits v := by
  obtain ⟨-, enough, hforce⟩ := endsAs_iff.1 h
  exact admits_of_force (hforce enough (Nat.le_refl _))

theorem admits_nil (p : CellPart) : p.Admits .nil := by
  cases p with
  | head x => exact trivial
  | tail y => rfl

/-- Forcing a part ends in the way in which it ended once. -/
theorem endsAs_of_force {p : CellPart} {n : Nat} {s : State}
    (h : ¬Eval.IsStarved (p.force (eval n) s)) :
    EndsAs (fun n => p.force (eval n)) s (p.force (eval n) s) :=
  endsAs_iff.2 ⟨h, n, fun _ hfuel => (p.force_extends hfuel s).resolve_left h⟩

/-- Forcing a part that does not go on forever gives a value or fails. -/
theorem force_cases (p : CellPart) (s : State) :
    (∃ v s', EndsAs (fun n => p.force (eval n)) s (.ok v s')) ∨
      (∃ f s', EndsAs (fun n => p.force (eval n)) s (.error (.fault f) s')) ∨
        Diverges (fun n => p.force (eval n)) s := by
  by_cases hstarved : Diverges (fun n => p.force (eval n)) s
  · exact .inr (.inr hstarved)
  · obtain ⟨n, hnot⟩ := Classical.not_forall.1 hstarved
    have hends := endsAs_of_force hnot
    cases houtcome : p.force (eval n) s with
    | ok v s' => exact .inl ⟨v, s', houtcome ▸ hends⟩
    | error stop s' =>
        cases stop with
        | fault f => exact .inr (.inl ⟨f, s', houtcome ▸ hends⟩)
        | outOfFuel => exact absurd ⟨s', houtcome⟩ hnot

end CellPart

/-- Parts in the order in which they are asked for, each with the value that it gives. -/
abbrev Answers := List (CellPart × Value)

/-- Forcing the parts one after another gives these values and ends in the second state. -/
inductive Answered : State → Answers → State → Prop
  | nil {s : State} : Answered s [] s
  | cons {s s₁ s' : State} {p : CellPart} {v : Value} {asked : Answers}
      (h : EndsAs (fun n => p.force (eval n)) s (.ok v s₁)) (hrest : Answered s₁ asked s') :
      Answered s ((p, v) :: asked) s'

/-! ## Inquiries -/

/-- A result, or a question together with what is done with its answer. -/
inductive Inquiry (α : Type) where
  | done (result : α)
  | ask (p : CellPart) (next : Value → Inquiry α)

namespace Inquiry

variable {α β : Type}

/-- One inquiry after another. -/
def bind : Inquiry α → (α → Inquiry β) → Inquiry β
  | done a, next => next a
  | ask p onAnswer, next => .ask p fun v => (onAnswer v).bind next

/-- Forces the parts that are asked for. -/
def run (ev : Evaluator) : Inquiry α → Eval α
  | done a => pure a
  | ask p next => p.force ev >>= fun v => (next v).run ev

theorem run_bind (ev : Evaluator) (q : Inquiry α) (next : α → Inquiry β) :
    (q.bind next).run ev = q.run ev >>= fun a => (next a).run ev := by
  induction q with
  | done a => simp only [bind, run, pure_bind]
  | ask p onAnswer ih => simp only [bind, run, ih, bind_assoc]

/-- With these answers the inquiry comes to this result. -/
inductive Trace : Inquiry α → Answers → α → Prop
  | done {a : α} : Trace (.done a) [] a
  | ask {p : CellPart} {next : Value → Inquiry α} {v : Value} {asked : Answers} {a : α}
      (hadmits : p.Admits v) (h : Trace (next v) asked a) :
      Trace (.ask p next) ((p, v) :: asked) a

theorem trace_done_iff {a b : α} {asked : Answers} :
    Trace (done a) asked b ↔ asked = [] ∧ b = a := by
  constructor
  · rintro ⟨⟩
    exact ⟨rfl, rfl⟩
  · rintro ⟨rfl, rfl⟩
    exact .done

theorem trace_ask_iff {p : CellPart} {next : Value → Inquiry α} {asked : Answers} {a : α} :
    Trace (ask p next) asked a ↔
      ∃ v rest, asked = (p, v) :: rest ∧ p.Admits v ∧ (next v).Trace rest a := by
  constructor
  · rintro (_ | ⟨hadmits, h⟩)
    exact ⟨_, _, rfl, hadmits, h⟩
  · rintro ⟨v, rest, rfl, hadmits, h⟩
    exact .ask hadmits h

theorem trace_bind_iff {q : Inquiry α} {next : α → Inquiry β} {asked : Answers} {b : β} :
    (q.bind next).Trace asked b ↔
      ∃ a first rest, asked = first ++ rest ∧ q.Trace first a ∧ (next a).Trace rest b := by
  induction q generalizing asked with
  | done a =>
      constructor
      · exact fun h => ⟨a, [], asked, rfl, .done, h⟩
      · rintro ⟨_, _, rest, rfl, ⟨⟩, h⟩
        exact h
  | ask p onAnswer ih =>
      simp only [bind, trace_ask_iff, ih]
      constructor
      · rintro ⟨v, _, rfl, hadmits, a, first, rest, rfl, hfirst, hrest⟩
        exact ⟨a, (p, v) :: first, rest, rfl, ⟨v, first, rfl, hadmits, hfirst⟩, hrest⟩
      · rintro ⟨a, _, rest, rfl, ⟨v, first, rfl, hadmits, hfirst⟩, hrest⟩
        exact ⟨v, first ++ rest, rfl, hadmits, a, first, rest, rfl, hfirst, hrest⟩

/-- After these answers the inquiry asks for this part. -/
def Awaits (q : Inquiry α) (asked : Answers) (p : CellPart) : Prop :=
  ∃ v rest a, q.Trace (asked ++ (p, v) :: rest) a

/-- Whatever was answered, the questions come to an end. -/
theorem exists_trace (q : Inquiry α) : ∃ asked a, q.Trace asked a := by
  induction q with
  | done a => exact ⟨[], a, .done⟩
  | ask p next ih =>
      obtain ⟨asked, a, h⟩ := ih .nil
      exact ⟨(p, .nil) :: asked, a, .ask p.admits_nil h⟩

theorem awaits_ask (p : CellPart) (next : Value → Inquiry α) : (ask p next).Awaits [] p := by
  obtain ⟨asked, a, h⟩ := (next .nil).exists_trace
  exact ⟨.nil, asked, a, .ask p.admits_nil h⟩

theorem Awaits.later {p p' : CellPart} {next : Value → Inquiry α} {v : Value} {asked : Answers}
    (hadmits : p.Admits v) (h : (next v).Awaits asked p') :
    (ask p next).Awaits ((p, v) :: asked) p' := by
  obtain ⟨w, rest, a, h⟩ := h
  exact ⟨w, rest, a, .ask hadmits h⟩

theorem not_awaits_done {a : α} {asked : Answers} {p : CellPart} : ¬(done a).Awaits asked p := by
  rintro ⟨v, rest, b, h⟩
  exact absurd (trace_done_iff.1 h).1 (by simp)

/-- The next question is the first one, or it comes after an answer to the first one. -/
theorem Awaits.cases {p p' : CellPart} {next : Value → Inquiry α} {asked : Answers}
    (h : (ask p next).Awaits asked p') :
    asked = [] ∧ p' = p ∨ ∃ v rest, asked = (p, v) :: rest ∧ (next v).Awaits rest p' := by
  obtain ⟨w, more, a, h⟩ := h
  obtain ⟨v, rest, heq, -, h⟩ := trace_ask_iff.1 h
  cases asked with
  | nil =>
      cases heq
      exact .inl ⟨rfl, rfl⟩
  | cons answer asked =>
      cases heq
      exact .inr ⟨v, asked, rfl, w, more, a, h⟩

/-! ## How an inquiry ends -/

variable {q : Inquiry α} {s s' : State} {asked : Answers}

/-- An inquiry whose questions are answered comes to its result. -/
theorem Trace.endsAs {a : α} (h : q.Trace asked a) (hasked : Answered s asked s') :
    EndsAs (fun n => q.run (eval n)) s (.ok a s') := by
  induction h generalizing s with
  | done =>
      cases hasked
      exact .pure _ _
  | ask _ _ ih =>
      cases hasked with
      | cons hforce hrest => exact .bind hforce (ih hrest)

/-- An inquiry fails with the first question that fails. -/
theorem Awaits.endsAs_fault {p : CellPart} {f : Fault} {s₁ : State} (h : q.Awaits asked p)
    (hasked : Answered s asked s₁)
    (hfault : EndsAs (fun n => p.force (eval n)) s₁ (.error (.fault f) s')) :
    EndsAs (fun n => q.run (eval n)) s (.error (.fault f) s') := by
  induction q generalizing s asked with
  | done a => exact absurd h not_awaits_done
  | ask p' next ih =>
      rcases h.cases with ⟨rfl, rfl⟩ | ⟨v, rest, rfl, hlater⟩
      · cases hasked
        exact hfault.bind_fault
      · cases hasked with
        | cons hforce hrest => exact .bind hforce (ih v hlater hrest)

/-- An inquiry goes on forever if a question does. -/
theorem Awaits.diverges {p : CellPart} {s₁ : State} (h : q.Awaits asked p)
    (hasked : Answered s asked s₁) (hdiverges : Diverges (fun n => p.force (eval n)) s₁) :
    Diverges (fun n => q.run (eval n)) s := by
  induction q generalizing s asked with
  | done a => exact absurd h not_awaits_done
  | ask p' next ih =>
      rcases h.cases with ⟨rfl, rfl⟩ | ⟨v, rest, rfl, hlater⟩
      · cases hasked
        exact hdiverges.bind_first
      · cases hasked with
        | cons hforce hrest =>
            exact .bind hforce (fun hle => p'.force_extends hle) (ih v hlater hrest)

/-- All questions are answered, or one is reached that is not. -/
theorem answered_or_awaits (q : Inquiry α) (s : State) :
    (∃ asked a s', q.Trace asked a ∧ Answered s asked s') ∨
      ∃ asked p s₁, q.Awaits asked p ∧ Answered s asked s₁ ∧
        ((∃ f s', EndsAs (fun n => p.force (eval n)) s₁ (.error (.fault f) s')) ∨
          Diverges (fun n => p.force (eval n)) s₁) := by
  induction q generalizing s with
  | done a => exact .inl ⟨[], a, s, .done, .nil⟩
  | ask p next ih =>
      rcases p.force_cases s with ⟨v, s₁, hforce⟩ | hunanswered
      · have hadmits := CellPart.admits_of_endsAs hforce
        rcases ih v s₁ with ⟨asked, a, s', htrace, hasked⟩ | ⟨asked, p', s₂, hawaits, hasked, h⟩
        · exact .inl ⟨(p, v) :: asked, a, s', .ask hadmits htrace, .cons hforce hasked⟩
        · exact .inr ⟨(p, v) :: asked, p', s₂, hawaits.later hadmits, .cons hforce hasked, h⟩
      · exact .inr ⟨[], p, s, awaits_ask p next, .nil, hunanswered⟩

theorem endsAs_ok_iff {a : α} :
    EndsAs (fun n => q.run (eval n)) s (.ok a s') ↔
      ∃ asked, q.Trace asked a ∧ Answered s asked s' := by
  constructor
  · intro h
    rcases q.answered_or_awaits s with
      ⟨asked, b, s₁, htrace, hasked⟩ | ⟨asked, p, s₁, hawaits, hasked, ⟨f, s₂, hfault⟩ | hdiverges⟩
    · cases h.unique (htrace.endsAs hasked)
      exact ⟨asked, htrace, hasked⟩
    · cases h.unique (hawaits.endsAs_fault hasked hfault)
    · exact absurd ⟨_, h⟩ (hawaits.diverges hasked hdiverges).not_terminates
  · rintro ⟨asked, htrace, hasked⟩
    exact htrace.endsAs hasked

theorem endsAs_fault_iff {f : Fault} :
    EndsAs (fun n => q.run (eval n)) s (.error (.fault f) s') ↔
      ∃ asked p s₁, q.Awaits asked p ∧ Answered s asked s₁ ∧
        EndsAs (fun n => p.force (eval n)) s₁ (.error (.fault f) s') := by
  constructor
  · intro h
    rcases q.answered_or_awaits s with
      ⟨asked, b, s₁, htrace, hasked⟩ | ⟨asked, p, s₁, hawaits, hasked, ⟨f', s₂, hfault⟩ | hdiverges⟩
    · cases h.unique (htrace.endsAs hasked)
    · cases h.unique (hawaits.endsAs_fault hasked hfault)
      exact ⟨asked, p, s₁, hawaits, hasked, hfault⟩
    · exact absurd ⟨_, h⟩ (hawaits.diverges hasked hdiverges).not_terminates
  · rintro ⟨asked, p, s₁, hawaits, hasked, hfault⟩
    exact hawaits.endsAs_fault hasked hfault

theorem terminates_iff :
    Terminates (fun n => q.run (eval n)) s ↔
      ∀ asked p s₁, q.Awaits asked p → Answered s asked s₁ →
        Terminates (fun n => p.force (eval n)) s₁ := by
  constructor
  · intro h asked p s₁ hawaits hasked
    rcases p.force_cases s₁ with ⟨v, s₂, hvalue⟩ | ⟨f, s₂, hfault⟩ | hdiverges
    · exact ⟨_, hvalue⟩
    · exact ⟨_, hfault⟩
    · exact absurd h (hawaits.diverges hasked hdiverges).not_terminates
  · intro h
    rcases q.answered_or_awaits s with
      ⟨asked, b, s₁, htrace, hasked⟩ | ⟨asked, p, s₁, hawaits, hasked, ⟨f, s₂, hfault⟩ | hdiverges⟩
    · exact ⟨_, htrace.endsAs hasked⟩
    · exact ⟨_, hawaits.endsAs_fault hasked hfault⟩
    · exact absurd (h asked p s₁ hawaits hasked) hdiverges.not_terminates

end Inquiry

end PolicyEval
