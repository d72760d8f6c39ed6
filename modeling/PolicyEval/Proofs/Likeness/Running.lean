import PolicyEval.Program
import PolicyEval.Proofs.Eval.Forms
import PolicyEval.Proofs.Eval.Meeting
import PolicyEval.Proofs.Likeness.Data

/-!
# Programs that are alike run alike

Evaluation looks names up, and compares the names of two environments; apart from that it carries
names and spans along.  So programs that are alike have values that are alike and texts that are the
same, or they fail alike, and what is counted on the way is the same.

* `EvaluatorAlike` — evaluators that treat expressions that are alike alike.
* `force_alike`, `compareAll_alike`, `evalForm_alike` — the parts of the evaluator.
* `eval_alike` — the evaluator.
* `runProgram_alike` — whole programs.
-/

namespace PolicyEval

/-- In environments that are alike, expressions that are alike are evaluated alike. -/
def EvaluatorAlike (L : Likeness) (ev : Evaluator) : Prop :=
  ∀ setting {ρ ρ'}, Env.Alike L ρ ρ' → ∀ {e e'}, Expr.Alike L e e' →
    Eval.Alike L (Value.Alike L) (ev setting ρ e) (ev setting ρ' e')

section

variable {L : Likeness}

/-! ## Operations on known operands -/

/-- An operation that yields scalars ends in one way only. -/
theorem IsPlain.alike {result : Except FaultCause Value} (h : IsPlain result) :
    ExceptRel (FaultCause.Alike L) (Value.Alike L) result result := by
  cases result with
  | ok v => exact .ok (Value.IsScalar.alike h)
  | error cause => exact .error (.other h)

theorem boolOperand_alike (operation : Operation) {v v' : Value} (h : v.Alike L v') :
    ExceptRel (FaultCause.Alike L) Eq (boolOperand operation v) (boolOperand operation v') := by
  rw [← boolOperand_congr h.describe_eq operation]
  cases hresult : boolOperand operation v with
  | ok b => exact .ok rfl
  | error cause => exact .error (.other (boolOperand_error hresult))

theorem asTail_alike {v v' : Value} (h : v.Alike L v') :
    ExceptRel (FaultCause.Alike L) (Value.Alike L) (asTail v) (asTail v') := by
  unfold asTail
  rw [← Value.isList_congr h.describe_eq, ← h.describe_eq]
  split
  · exact .ok h
  · exact .error (.other rfl)

/-! ## Thunks -/

section

variable {ev : Evaluator} (hev : EvaluatorAlike L ev)
include hev

theorem suspension_alike {q q' : Suspension} (h : q.Alike L q') :
    Eval.Alike L (Value.Alike L) (q.run ev) (q'.run ev) := by
  cases h with
  | mk setting hρ he => exact (Eval.Alike.count _).bind fun _ _ _ => hev setting hρ he

theorem force_alike {x x' : Thunk} (h : x.Alike L x') :
    Eval.Alike L (Value.Alike L) (force ev x) (force ev x') := by
  cases h with
  | ready h => exact .pure h
  | byName h => exact suspension_alike hev h
  | @byNeed address q q' h =>
      intro s s' hs
      have hrun := (suspension_alike hev h).bind (fun _ _ hv => Eval.Alike.keep address hv) s s' hs
      have hkept := hs.store.kept address
      -- Both cells have a result, or neither has one.
      cases hleft : s.store.kept? address with
      | none =>
          cases hright : s'.store.kept? address with
          | none =>
              rw [Eval.force_of_pending hleft, Eval.force_of_pending hright]
              exact hrun
          | some v' =>
              rw [hleft, hright] at hkept
              cases hkept
      | some v =>
          cases hright : s'.store.kept? address with
          | none =>
              rw [hleft, hright] at hkept
              cases hkept
          | some v' =>
              rw [hleft, hright] at hkept
              rw [Eval.force_of_kept hleft, Eval.force_of_kept hright]
              cases hkept with
              | some hv => exact .ok hv hs

theorem forceTail_alike {x x' : Thunk} (h : x.Alike L x') :
    Eval.Alike L (Value.Alike L) (forceTail ev x) (forceTail ev x') :=
  (force_alike hev h).bind fun _ _ hv => .lift (asTail_alike hv)

theorem delay_alike (d : Discipline) (setting : Setting) {ρ ρ' : Env} (hρ : ρ.Alike L ρ')
    {e e' : Expr} (he : e.Alike L e') :
    Eval.Alike L (Thunk.Alike L) (delay ev d setting ρ e) (delay ev d setting ρ' e') := by
  cases d with
  | value => exact (hev setting hρ he).bind fun _ _ hv => .pure (.ready hv)
  | name => exact .pure (.byName (.mk setting hρ he))
  | need =>
      refine Eval.Alike.allocate.bind ?_
      rintro address _ rfl
      exact .pure (.byNeed address (.mk setting hρ he))

end

/-! ## Comparisons -/

/-- Comparisons of data that are alike. -/
inductive Comparison.Alike (L : Likeness) : Comparison → Comparison → Prop
  | values {a a' b b' : Value} (ha : a.Alike L a') (hb : b.Alike L b') :
      Alike L (.values a b) (.values a' b')
  | tails {x x' y y' : Thunk} (hx : x.Alike L x') (hy : y.Alike L y') :
      Alike L (.tails x y) (.tails x' y')
  | envs {ρ ρ' σ σ' : Env} (hρ : ρ.Alike L ρ') (hσ : σ.Alike L σ') :
      Alike L (.envs ρ σ) (.envs ρ' σ')

/-- Meetings that leave data that are alike. -/
inductive Meeting.Alike (L : Likeness) : Meeting → Meeting → Prop
  | equal : Alike L .equal .equal
  | unequal : Alike L .unequal .unequal
  | envs {ρ ρ' σ σ' : Env} (hρ : ρ.Alike L ρ') (hσ : σ.Alike L σ') :
      Alike L (.envs ρ σ) (.envs ρ' σ')
  | parts {x x' y y' : Thunk} {next next' : Comparison} (hx : x.Alike L x') (hy : y.Alike L y')
      (hnext : next.Alike L next') : Alike L (.parts x y next) (.parts x' y' next')

theorem Value.Alike.identical_eq {a a' b b' : Value} (ha : a.Alike L a') (hb : b.Alike L b') :
    a.identical b = a'.identical b' := by
  cases ha with
  | closure tag hf =>
      cases hb with
      | closure tag' hg => simp only [Value.identical, hf.place.id, hg.place.id]
      | int | bool | prim | nil | cons => rfl
  | int | bool | prim | nil | cons => cases hb <;> rfl

theorem Value.Alike.meet {a a' b b' : Value} (ha : a.Alike L a') (hb : b.Alike L b') :
    (a.meet b).Alike L (a'.meet b') := by
  cases ha with
  | closure tag hf hρ =>
      cases hb with
      | closure tag' hg hσ =>
          simp only [Value.meet, hf.place.id, hg.place.id]
          split
          · exact .envs hρ hσ
          · exact .unequal
      | int | bool | prim | nil | cons => exact .unequal
  | cons tag hx hy =>
      cases hb with
      | cons tag' hx' hy' => exact .parts hx hx' (.tails hy hy')
      | int | bool | prim | nil | closure => exact .unequal
  | nil =>
      cases hb with
      | nil => exact .equal
      | int | bool | prim | closure | cons => exact .unequal
  | int | bool | prim =>
      cases hb <;> simp only [Value.meet] <;> first
        | exact .unequal
        | split
          · exact .equal
          · exact .unequal

theorem Env.Alike.meet {ρ ρ' σ σ' : Env} (hρ : ρ.Alike L ρ') (hσ : σ.Alike L σ') :
    (ρ.meet σ).Alike L (ρ'.meet σ') := by
  cases hρ with
  | empty =>
      cases hσ with
      | empty => exact .equal
      | frame => exact .unequal
  | frame tag hname hx hrest =>
      cases hσ with
      | empty => exact .unequal
      | frame tag' hname' hx' hrest' =>
          simp only [Env.meet, L.same_eq hname hname']
          split
          · exact .parts hx hx' (.envs hrest hrest')
          · exact .unequal

/-! ## Bindings -/

/-- Expressions that are alike, for names that are alike. -/
structure Init.Alike (L : Likeness) (b b' : Name × Expr) : Prop where
  name : L.name b.1 b'.1
  expr : b.2.Alike L b'.2

theorem Expr.ListAlike.inits {params params' : List Binder}
    (hparams : List.Forall₂ (Binder.Alike L) params params') {args args' : List Expr}
    (hargs : ListAlike L args args') :
    List.Forall₂ (Init.Alike L) ((params.map Binder.name).zip args)
      ((params'.map Binder.name).zip args') := by
  induction hparams generalizing args args' with
  | nil => exact .nil
  | cons hb _ ih =>
      cases hargs with
      | nil => exact .nil
      | cons he hes => exact .cons ⟨hb.name, he⟩ (ih hes)

theorem Expr.DefsAlike.equations {ds ds' : List (Binder × Expr)} (h : DefsAlike L ds ds') :
    List.Forall₂ (Init.Alike L) (ds.map fun d => (d.1.name, d.2))
      (ds'.map fun d => (d.1.name, d.2)) := by
  induction ds generalizing ds' with
  | nil => cases h; exact .nil
  | cons d ds ih =>
      cases h with
      | cons hb he hds => exact .cons ⟨hb.name, he⟩ (ih hds)

theorem buildCell_alike {x x' y y' : Thunk} (hx : x.Alike L x') (hy : y.Alike L y') :
    Eval.Alike L (Value.Alike L) (buildCell x y) (buildCell x' y') := by
  refine (Eval.Alike.count _).bind fun _ _ _ => Eval.Alike.freshTag.bind ?_
  rintro tag _ rfl
  exact .pure (.cons tag hx hy)

section

variable {ev : Evaluator} (hev : EvaluatorAlike L ev)
include hev

/-- Lists of comparisons that are alike one by one come out the same. -/
theorem compareAll_alike (fuel : Nat) {todo todo' : List Comparison}
    (h : List.Forall₂ (Comparison.Alike L) todo todo') :
    Eval.Alike L Eq (compareAll ev fuel todo) (compareAll ev fuel todo') := by
  induction fuel generalizing todo todo' with
  | zero => exact .outOfFuel
  | succ fuel ih =>
      -- What a meeting leaves to be compared is alike again.
      have hproceed : ∀ {m m' : Meeting} {rest rest' : List Comparison}, m.Alike L m' →
          List.Forall₂ (Comparison.Alike L) rest rest' →
          Eval.Alike L Eq (m.proceed ev fuel rest) (m'.proceed ev fuel rest') := by
        intro m m' rest rest' hm hrest
        cases hm with
        | equal => exact ih hrest
        | unequal => exact .pure rfl
        | envs hρ hσ => exact ih (.cons (.envs hρ hσ) hrest)
        | parts hx hy hnext =>
            exact (force_alike hev hx).bind fun _ _ hv => (force_alike hev hy).bind fun _ _ hw =>
              ih (.cons (.values hv hw) (.cons hnext hrest))
      cases h with
      | nil => exact .pure rfl
      | cons hfirst hrest =>
          cases hfirst with
          | values ha hb =>
              rw [compareAll_values, compareAll_values, ha.identical_eq hb]
              split
              · exact ih hrest
              · exact hproceed (ha.meet hb) hrest
          | tails hx hy =>
              rw [compareAll_tails, compareAll_tails]
              exact (forceTail_alike hev hx).bind fun _ _ hv =>
                (forceTail_alike hev hy).bind fun _ _ hw => ih (.cons (.values hv hw) hrest)
          | envs hρ hσ =>
              rw [compareAll_envs, compareAll_envs, hρ.same_eq hσ]
              split
              · exact ih hrest
              · exact hproceed (hρ.meet hσ) hrest

theorem equal_alike (fuel : Nat) {a a' b b' : Value} (ha : a.Alike L a') (hb : b.Alike L b') :
    Eval.Alike L Eq (equal ev fuel a b) (equal ev fuel a' b') :=
  compareAll_alike hev fuel (.cons (.values ha hb) .nil)

/-! ## Operators, primitives and calls -/

theorem applyBinary_alike (fuel : Nat) (op : BinaryOp) {a a' b b' : Value} (ha : a.Alike L a')
    (hb : b.Alike L b') :
    Eval.Alike L (Value.Alike L) (applyBinary ev fuel op a b) (applyBinary ev fuel op a' b') := by
  cases hstrict : strictBinary op a b with
  | some result =>
      have hsame := strictBinary_congr ha.describe_eq hb.describe_eq op
      rw [applyBinary_eq_lift hstrict, applyBinary_eq_lift (hsame.symm.trans hstrict)]
      exact .lift (strictBinary_plain hstrict).alike
  | none =>
      have hequal := equal_alike hev fuel ha hb
      cases op <;> simp only [strictBinary, reduceCtorEq] at hstrict <;>
        exact hequal.bind fun _ _ h => h ▸ .pure (.bool _)

theorem applyPrim_alike (p : Prim) {v v' : Value} (h : v.Alike L v') :
    Eval.Alike L (Value.Alike L) (applyPrim ev p v) (applyPrim ev p v') := by
  cases hinspect : p.inspect v with
  | some result =>
      have hsame := Prim.inspect_congr h.describe_eq p
      rw [applyPrim_eq_lift hinspect, applyPrim_eq_lift (hsame.symm.trans hinspect)]
      exact .lift (Prim.inspect_plain hinspect).alike
  | none =>
      obtain ⟨tag, head, tail, rfl, hp⟩ := Prim.inspect_eq_none hinspect
      cases h with
      | cons _ hx hy =>
          obtain rfl | rfl := hp
          · exact force_alike hev hx
          · exact forceTail_alike hev hy

theorem delayAll_alike (setting : Setting) {ρ ρ' : Env} (hρ : ρ.Alike L ρ')
    {bs bs' : List (Name × Expr)} (hbs : List.Forall₂ (Init.Alike L) bs bs') :
    Eval.Alike L (List.Forall₂ (Binding.Alike L)) (delayAll ev setting ρ bs)
      (delayAll ev setting ρ' bs') := by
  induction hbs with
  | nil => exact .pure .nil
  | cons hb _ ih =>
      exact (delay_alike hev _ setting hρ hb.expr).bind fun _ _ hx =>
        ih.bind fun _ _ hxs => .pure (.cons ⟨hb.name, hx⟩ hxs)

theorem evalBinding_alike (setting : Setting) {ρ ρ' σ σ' : Env} (hρ : ρ.Alike L ρ')
    (hσ : σ.Alike L σ') {bs bs' : List (Name × Expr)} (hbs : List.Forall₂ (Init.Alike L) bs bs')
    {body body' : Expr} (hbody : body.Alike L body') :
    Eval.Alike L (Value.Alike L) (evalBinding ev setting ρ σ bs body)
      (evalBinding ev setting ρ' σ' bs' body') :=
  (delayAll_alike hev setting hρ hbs).bind fun _ _ hbindings =>
    (Eval.Alike.extend hσ hbindings).bind fun _ _ hinner => hev setting hinner hbody

theorem callClosure_alike (setting : Setting) {ρ ρ' σ σ' : Env} (hρ : ρ.Alike L ρ')
    (hσ : σ.Alike L σ') {f f' : Lambda} (hf : f.Alike L f') {args args' : List Expr}
    (hargs : Expr.ListAlike L args args') :
    Eval.Alike L (Value.Alike L) (callClosure ev setting ρ f σ args)
      (callClosure ev setting ρ' f' σ' args') := by
  unfold callClosure
  rw [← hf.arity_eq, ← hargs.length_eq]
  split
  · exact (Eval.Alike.count _).bind fun _ _ _ =>
      evalBinding_alike hev setting hρ hσ (hargs.inits hf.params) hf.body
  · exact .fail (.other rfl)

theorem evalCons_alike (setting : Setting) {ρ ρ' : Env} (hρ : ρ.Alike L ρ')
    {head head' tail tail' : Expr} (hhead : head.Alike L head') (htail : tail.Alike L tail') :
    Eval.Alike L (Value.Alike L) (evalCons ev setting ρ head tail)
      (evalCons ev setting ρ' head' tail') := by
  by_cases hlists : setting.policy.lists = .value
  · rw [evalCons_eager _ _ _ hlists, evalCons_eager _ _ _ hlists]
    exact (hev setting hρ hhead).bind fun _ _ hv => (hev setting hρ htail).bind fun _ _ hw =>
      (Eval.Alike.lift (asTail_alike hw)).bind fun _ _ hw => buildCell_alike (.ready hv) (.ready hw)
  · rw [evalCons_lazy _ _ _ hlists, evalCons_lazy _ _ _ hlists]
    exact (delay_alike hev _ setting hρ hhead).bind fun _ _ hx =>
      (delay_alike hev _ setting hρ htail).bind fun _ _ hy => buildCell_alike hx hy

theorem callPrim_alike (setting : Setting) {ρ ρ' : Env} (hρ : ρ.Alike L ρ') (p : Prim)
    {args args' : List Expr} (hargs : Expr.ListAlike L args args') :
    Eval.Alike L (Value.Alike L) (callPrim ev setting ρ p args)
      (callPrim ev setting ρ' p args') := by
  by_cases hcount : p.argCount = args.length
  · obtain ⟨rfl, head, tail, rfl⟩ | ⟨hone, arg, rfl⟩ := Prim.args_cases hcount
    · obtain _ | ⟨hhead, _ | ⟨htail, _ | _⟩⟩ := hargs
      rw [callPrim_cons, callPrim_cons]
      exact (Eval.Alike.count _).bind fun _ _ _ => evalCons_alike hev setting hρ hhead htail
    · obtain _ | ⟨harg, _ | _⟩ := hargs
      rw [callPrim_single _ _ _ hone, callPrim_single _ _ _ hone]
      exact (Eval.Alike.count _).bind fun _ _ _ => (hev setting hρ harg).bind fun _ _ hv =>
        applyPrim_alike hev p hv
  · rw [callPrim_mismatch _ _ _ hcount, callPrim_mismatch _ _ _ (hargs.length_eq ▸ hcount),
      ← hargs.length_eq]
    exact (Eval.Alike.count _).bind fun _ _ _ => .fail (.other rfl)

/-! ## Forms -/

theorem evalLogical_alike (setting : Setting) {ρ ρ' : Env} (hρ : ρ.Alike L ρ') (op : BinaryOp)
    (decisive : Bool) {left left' right right' : Expr} (hleft : left.Alike L left')
    (hright : right.Alike L right') :
    Eval.Alike L (Value.Alike L) (evalLogical ev setting ρ op decisive left right)
      (evalLogical ev setting ρ' op decisive left' right') := by
  refine (hev setting hρ hleft).bind fun _ _ hv => ?_
  refine (Eval.Alike.lift (boolOperand_alike _ hv)).bind ?_
  rintro a _ rfl
  split
  · exact .pure (.bool a)
  · refine (hev setting hρ hright).bind fun _ _ hw => ?_
    refine (Eval.Alike.lift (boolOperand_alike _ hw)).bind ?_
    rintro b _ rfl
    exact .pure (.bool b)

theorem evalForm_alike (fuel : Nat) (setting : Setting) {ρ ρ' : Env} (hρ : ρ.Alike L ρ')
    {e e' : Expr} (he : e.Alike L e') :
    Eval.Alike L (Value.Alike L) (evalForm ev fuel setting ρ e)
      (evalForm ev fuel setting ρ' e') := by
  cases he with
  | int n => exact .pure (.int n)
  | bool b => exact .pure (.bool b)
  | null => exact .pure .nil
  | prim p => exact .pure (.prim p)
  | @ident _ _ name name' _ hname =>
      have hlookup := Env.Alike.lookup hname hρ
      simp only [evalForm]
      generalize ρ.lookup name = found at hlookup ⊢
      generalize ρ'.lookup name' = found' at hlookup ⊢
      cases hlookup with
      | some hx => exact force_alike hev hx
      | none => exact .fail (.unbound hname)
  | unary op _ hoperand =>
      refine (hev setting hρ hoperand).bind fun v v' hv => ?_
      rw [← applyUnary_congr hv.describe_eq op]
      exact .lift (applyUnary_plain op v).alike
  | binary op _ hleft hright =>
      cases hop : op.decisive? with
      | some decisive =>
          rw [evalForm_logical _ _ _ _ hop, evalForm_logical _ _ _ _ hop]
          exact evalLogical_alike hev setting hρ op decisive hleft hright
      | none =>
          rw [evalForm_binary _ _ _ _ hop, evalForm_binary _ _ _ _ hop]
          exact (hev setting hρ hleft).bind fun _ _ hv => (hev setting hρ hright).bind
            fun _ _ hw => applyBinary_alike hev fuel op hv hw
  | call _ hcallee hargs =>
      refine (hev setting hρ hcallee).bind fun _ _ hv => ?_
      cases hv with
      | closure _ hf hσ => exact callClosure_alike hev setting hρ hσ hf hargs
      | prim p => exact callPrim_alike hev setting hρ p hargs
      | int | bool | nil | cons => exact .fail (.other rfl)
  | map hp hparams hbody =>
      refine Eval.Alike.freshTag.bind ?_
      rintro tag _ rfl
      exact .pure (.closure tag ⟨hp, hparams, hbody⟩ hρ)
  | cond _ htest hyes hno =>
      refine (hev setting hρ htest).bind fun _ _ hv => ?_
      refine (Eval.Alike.lift (boolOperand_alike _ hv)).bind ?_
      rintro b _ rfl
      cases b with
      | true => exact hev setting hρ hyes
      | false => exact hev setting hρ hno
  | letIn _ hdefs hbody => exact evalBinding_alike hev setting hρ hρ hdefs.equations hbody

/-! ## Rendering -/

theorem renderSpine_alike {item : Value → Eval String}
    (hitem : ∀ {v v' : Value}, v.Alike L v' → Eval.Alike L Eq (item v) (item v'))
    (isFirst : Bool) (out : String) (left : Nat) {v v' : Value} (h : v.Alike L v') :
    Eval.Alike L Eq (renderSpine ev item isFirst out left v)
      (renderSpine ev item isFirst out left v') := by
  induction left generalizing isFirst out v v' with
  | zero => cases h <;> exact .pure rfl
  | succ left ih =>
      cases h with
      | cons _ hx hy =>
          refine (force_alike hev hx).bind fun _ _ hv => (hitem hv).bind ?_
          rintro element _ rfl
          exact (forceTail_alike hev hy).bind fun _ _ hw => ih false _ hw
      | int | bool | prim | closure | nil => exact .pure rfl

theorem renderIn_alike (printDepth room : Nat) {v v' : Value} (h : v.Alike L v') :
    Eval.Alike L Eq (renderIn ev printDepth room v) (renderIn ev printDepth room v') := by
  induction room generalizing v v' with
  | zero =>
      cases h with
      | closure _ hf => exact .pure (by rw [hf.expr.print_eq])
      | bool b => cases b <;> exact .pure rfl
      | int | prim | nil | cons => exact .pure rfl
  | succ room ih =>
      cases h with
      | closure _ hf => exact .pure (by rw [hf.expr.print_eq])
      | bool b => cases b <;> exact .pure rfl
      | int | prim => exact .pure rfl
      | nil => exact renderSpine_alike hev ih true _ printDepth .nil
      | cons tag hx hy => exact renderSpine_alike hev ih true _ printDepth (.cons tag hx hy)

end

/-! ## Whole runs -/

/-- With the same fuel, expressions that are alike are evaluated alike. -/
theorem eval_alike (fuel : Nat) : EvaluatorAlike L (eval fuel) := by
  induction fuel with
  | zero => exact fun _ _ _ _ _ _ _ => .outOfFuel
  | succ fuel ih =>
      intro setting ρ ρ' hρ e e' he
      exact .within setting.maxDepth he.span ((Eval.Alike.count _).bind fun _ _ _ =>
        evalForm_alike ih fuel setting hρ he)

theorem runProgram_alike (fuel : Nat) (config : Config) {root root' : Expr}
    (h : root.Alike L root') :
    Eval.Alike L Eq (runProgram fuel config root) (runProgram fuel config root') :=
  (eval_alike fuel config.setting .empty h).bind fun _ _ hv =>
    renderIn_alike (eval_alike fuel) config.printDepth config.printDepth hv

theorem Store.Alike.empty : Store.empty.Alike L .empty := by
  refine ⟨rfl, rfl, fun address => ?_⟩
  have hnone : Store.empty.kept? address = none := by simp [Store.kept?, Store.empty]
  rw [hnone]
  exact .none

/-- Computations that are alike are reported alike: they yield the same, or stop alike, and what
they counted is the same. -/
theorem Eval.Alike.report {α : Type} {body body' : Eval α} (h : Eval.Alike L Eq body body') :
    ExceptRel (Stop.Alike L) Eq (body.report .empty).result (body'.report .empty).result ∧
      (body.report .empty).profile = (body'.report .empty).profile := by
  have hrun := h (State.start .empty) (State.start .empty) ⟨.empty, rfl, rfl⟩
  unfold Eval.report
  generalize body (State.start .empty) = outcome at hrun ⊢
  generalize body' (State.start .empty) = outcome' at hrun ⊢
  cases hrun with
  | ok hvalue hs =>
      exact ⟨.ok hvalue, by simp only [State.profile, hs.depth, hs.counters]⟩
  | error hstop hs =>
      exact ⟨.error hstop, by simp only [State.profile, hs.depth, hs.counters]⟩

end

end PolicyEval
