import PolicyEval.Proofs.Eval.Outcome

/-!
# Invariants of the store

`Eval.Keeps inv allowed body post` says what a computation guarantees however it ends: it leads from
a store with the invariant `inv` to one that has it again, a result satisfies `post`, and a stop is
one of those that are `allowed`.  The rules below follow the ways in which computations are put
together, so a guarantee of the evaluator is derived form by form.

* `Eval.Keeps.bind` — one computation after another.
* `Eval.Keeps.lift` — an operation that needs no state.
* `Eval.Keeps.within` — a computation one level deeper.
-/

namespace PolicyEval

namespace Eval

variable {inv : Store → Prop} {allowed : Stop → Prop} {α β : Type}

/-- However the computation ends, the store keeps its invariant; results satisfy `post`, and stops
are allowed. -/
def Keeps (inv : Store → Prop) (allowed : Stop → Prop) (body : Eval α) (post : α → Prop) : Prop :=
  ∀ s : State, inv s.store →
    match body s with
    | .ok a s' => inv s'.store ∧ post a
    | .error stop s' => inv s'.store ∧ allowed stop

namespace Keeps

theorem pure {post : α → Prop} {a : α} (h : post a) :
    Keeps inv allowed (Pure.pure a : Eval α) post :=
  fun _ hs => ⟨hs, h⟩

theorem bind {first : Eval α} {next : α → Eval β} {mid : α → Prop} {post : β → Prop}
    (hfirst : Keeps inv allowed first mid)
    (hnext : ∀ a, mid a → Keeps inv allowed (next a) post) :
    Keeps inv allowed (first >>= next) post := by
  intro s hs
  have h := hfirst s hs
  rw [bind_apply]
  cases hrun : first s with
  | ok a s' =>
      rw [hrun] at h
      exact hnext a h.2 s' h.1
  | error stop s' =>
      rw [hrun] at h
      exact h

theorem throw {post : α → Prop} {stop : Stop} (h : allowed stop) :
    Keeps inv allowed (MonadExcept.throw stop : Eval α) post :=
  fun _ hs => ⟨hs, h⟩

theorem fail {post : α → Prop} {cause : FaultCause} (h : allowed (.fault ⟨cause, none⟩)) :
    Keeps inv allowed (Eval.fail cause : Eval α) post :=
  throw h

theorem lift {post : α → Prop} {result : Except FaultCause α}
    (hok : ∀ a, result = .ok a → post a)
    (herror : ∀ cause, result = .error cause → allowed (.fault ⟨cause, none⟩)) :
    Keeps inv allowed (Eval.lift result) post := by
  cases result with
  | ok a => exact pure (hok a rfl)
  | error cause => exact fail (herror cause rfl)

/-- A computation that changes the store by one step and returns what that step returns. -/
theorem modifyGet {post : α → Prop} {step : State → α × State}
    (h : ∀ s, inv s.store → inv (step s).2.store ∧ post (step s).1) :
    Keeps inv allowed (MonadStateOf.modifyGet step : Eval α) post :=
  fun s hs => h s hs

/-- A state that is read satisfies the invariant. -/
theorem get : Keeps inv allowed (MonadState.get : Eval State) (fun s => inv s.store) :=
  fun _ hs => ⟨hs, hs⟩

theorem count {step : Counters → Counters} :
    Keeps inv allowed (Eval.count step) (fun _ => True) :=
  fun _ hs => ⟨hs, trivial⟩

theorem freshTag (htag : ∀ store, inv store → inv store.freshTag.2) :
    Keeps inv allowed Eval.freshTag (fun _ => True) :=
  modifyGet fun s hs => ⟨htag s.store hs, trivial⟩

/-- Going one level deeper keeps what the computation keeps, if the depth limit is an allowed stop
and an allowed stop stays allowed as it leaves the expression. -/
theorem within {limit : Option Nat} {span : Span} {body : Eval α} {post : α → Prop}
    (hlimit : ∀ n, allowed (.fault ⟨.recursionLimit n, none⟩))
    (hleaving : ∀ stop, allowed stop → allowed (stop.leaving span))
    (h : Keeps inv allowed body post) :
    Keeps inv allowed (Eval.within limit span body) post := by
  intro s hs
  unfold Eval.within
  cases henter : s.depth.enter limit with
  | error n => exact ⟨hs, hlimit n⟩
  | ok depth =>
      have h' := h { s with depth } hs
      dsimp only
      cases hrun : body { s with depth } with
      | ok a s' =>
          rw [hrun] at h'
          exact h'
      | error stop s' =>
          rw [hrun] at h'
          exact ⟨h'.1, hleaving stop h'.2⟩

end Keeps

end Eval

end PolicyEval
