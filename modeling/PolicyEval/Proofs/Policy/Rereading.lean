import PolicyEval.Proofs.Policy.Refinement
import PolicyEval.Proofs.Replay.Evaluation

/-!
# Reading a name again

If arguments are evaluated at every use, each read of a name makes its value anew.  What a program
comes to is then the same as with arguments that are evaluated once, except where a comparison takes
a value that was kept to be equal to itself: the values that are made anew are compared part by
part, and a part that nothing else asks for may fail or run forever.

So success carries over if it does not rest on identity, and in any case two successes agree.

* `delivers_of_inFull` — what is delivered in full is delivered without keeping any result.
* `delivers_reread` — arguments may be evaluated again at every use.
* `not_delivers_reread` — a closure equals itself, but not when it is made anew.
-/

namespace PolicyEval

section

variable {config : Config} {store : Store} {root : Expr} {text text' : String}

/-- A program delivers one text only. -/
theorem Delivers.unique (h : Delivers config store root text)
    (h' : Delivers config store root text') : text' = text := by
  obtain ⟨fuel, hfuel⟩ := h
  obtain ⟨fuel', hfuel'⟩ := h'
  have heq := hfuel (max fuel fuel') (Nat.le_max_left _ _)
  rw [hfuel' (max fuel fuel') (Nat.le_max_right _ _)] at heq
  exact Except.ok.inj heq

/-- What a program delivers in full it delivers without a limit if everything that was evaluated
once is evaluated at every use. -/
theorem delivers_of_inFull {setting : Setting} {printDepth : Nat}
    (h : DeliversInFull ⟨setting, printDepth⟩ store root text) (store' : Store) :
    Delivers ⟨setting.rerun, printDepth⟩ store' root text := by
  obtain ⟨fuel, hfuel⟩ := h
  obtain ⟨s, hrun⟩ := Eval.report_result_eq_ok.1 hfuel
  exact delivers_of_settles (program_settles (program_replays hrun) (.inr rfl) store')

end

/-- Arguments that were evaluated once may be evaluated at every use.

A program that succeeds in full with arguments that are evaluated once succeeds, with the same text,
if they are evaluated at every use; identity may then be made use of, or not.  And if it succeeds
both ways, whatever its comparisons rest on, it succeeds with one text. -/
theorem delivers_reread (printDepth : Nat) (lists : Discipline) (store store' : Store) (root : Expr)
    (text : String) :
    (DeliversInFull ⟨⟨⟨.need, lists⟩, none⟩, printDepth⟩ store root text →
      Delivers ⟨⟨⟨.need, lists⟩, none⟩, printDepth⟩ store root text ∧
        Delivers ⟨⟨⟨.name, lists⟩, none⟩, printDepth⟩ store' root text) ∧
    (Delivers ⟨⟨⟨.need, lists⟩, none⟩, printDepth⟩ store root text → ∀ text',
      Delivers ⟨⟨⟨.name, lists⟩, none⟩, printDepth⟩ store' root text' → text' = text) := by
  have hstay : ∀ d : Discipline, d.Shares d := fun _ => .inl rfl
  have honce : Discipline.name.Shares .need := .inr ⟨rfl, rfl⟩
  have hkeep : ∀ {text store'}, Delivers ⟨⟨⟨.name, lists⟩, none⟩, printDepth⟩ store' root text →
      Delivers ⟨⟨⟨.need, lists⟩, none⟩, printDepth⟩ store root text :=
    fun h => (delivers_of_unmetered h honce (hstay lists) store).1
  constructor
  · intro h
    have hrerun := delivers_of_inFull h store'
    have hname : Delivers ⟨⟨⟨.name, lists⟩, none⟩, printDepth⟩ store' root text := by
      cases lists with
      | value | name => exact hrerun
      | need =>
          -- Without a limit, parts of lists may be kept even if arguments are not.
          have hname : Delivers ⟨⟨⟨.name, .name⟩, none⟩, printDepth⟩ store' root text := hrerun
          exact (delivers_of_unmetered hname (hstay .name) honce store').1
    exact ⟨hkeep hname, hname⟩
  · intro h text' h'
    exact h.unique (hkeep h')

/-- A closure that has captured a sum equals itself in full, so it does when it is made anew. -/
theorem delivers_reread_closure :
    let place : Place := ⟨0, ⟨0, 0⟩⟩
    let a : Binder := ⟨⟨0, "a"⟩, ⟨0, 0⟩⟩
    let f : Binder := ⟨⟨1, "f"⟩, ⟨0, 0⟩⟩
    let x : Binder := ⟨⟨2, "x"⟩, ⟨0, 0⟩⟩
    let sum : Expr := .binary place .add (.int place 1) (.int place 1)
    let program : Expr := .letIn place
      [(f, .letIn place [(a, sum)] (.map place [x] (.ident place a.name)))]
      (.binary place .eq (.ident place f.name) (.ident place f.name))
    DeliversInFull ⟨⟨⟨.need, .need⟩, none⟩, 5⟩ .empty program "true" ∧
      Delivers ⟨⟨⟨.name, .need⟩, none⟩, 5⟩ .empty program "true" := by
  intro place a f x sum program
  have hfull : DeliversInFull ⟨⟨⟨.need, .need⟩, none⟩, 5⟩ .empty program "true" :=
    ⟨12, by decide +kernel⟩
  exact ⟨hfull, ((delivers_reread 5 .need .empty .empty program "true").1 hfull).2⟩

/-- A closure that has captured a failing expression equals itself if it was kept.  Made anew at
every read it is compared by what it has captured, and the program fails. -/
theorem not_delivers_reread :
    let place : Place := ⟨0, ⟨0, 0⟩⟩
    let bad : Binder := ⟨⟨0, "bad"⟩, ⟨0, 0⟩⟩
    let f : Binder := ⟨⟨1, "f"⟩, ⟨0, 0⟩⟩
    let x : Binder := ⟨⟨2, "x"⟩, ⟨0, 0⟩⟩
    let program : Expr := .letIn place
      [(f, .letIn place [(bad, .binary place .div (.int place 1) (.int place 0))]
        (.map place [x] (.ident place bad.name)))]
      (.binary place .eq (.ident place f.name) (.ident place f.name))
    checkScopes .lexical program = .ok () ∧
      Delivers ⟨⟨⟨.need, .value⟩, none⟩, 5⟩ .empty program "true" ∧
      ¬Delivers ⟨⟨⟨.name, .value⟩, none⟩, 5⟩ .empty program "true" := by
  intro place bad f x program
  have hfault : ((runProgram 12 ⟨⟨⟨.name, .value⟩, none⟩, 5⟩ program).report .empty).result =
      .error (.fault ⟨.divisionByZero, some ⟨0, 0⟩⟩) := by decide +kernel
  exact ⟨rfl, delivers_of_result 12 (by decide +kernel), not_delivers_of_fault hfault⟩

end PolicyEval
