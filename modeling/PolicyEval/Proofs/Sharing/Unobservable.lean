import PolicyEval.Proofs.Sharing.Failure
import PolicyEval.Proofs.Sharing.Request

/-!
# Kept results cannot be observed

An operation on the values of a session may fill any number of caches, also when it fails midway, and
later operations take what is cached instead of evaluating.  Nobody can tell: without a limit on the
nesting, what an operation shows is the same whether or not another one was performed before it.

Both runs are compared with one account without a store.  A session accords with it if its slots
mirror values of the account and its store is one from which the account can go on.  Whatever a
request does, the session accords with the account afterwards; and the account says what a request
shows, in every session that accords with it.

* `Session.Accords` — a session that accords with the account.
* `Session.Accords.perform` — requests keep this, and the account says how they are answered.
* `Session.Observes` — what an operation shows in the end.
* `Session.Unlimited.observes_iff_after` — it is the same before and after another operation.
-/

namespace PolicyEval

/-! ## Sessions that accord with the account -/

theorem Poised.of_store {setting : Setting} {X : Seed → Prop} {W : Matching} {s s' : State}
    {σ : Seed} {k : Nat} (h : Poised setting X W s σ k) (hstore : s'.store = s.store) :
    Poised setting X W s' σ k :=
  ⟨h.zone, hstore ▸ h.placed, h.fresh⟩

/-- The store of the session is one from which the account can go on with request number `k`, and
the slots mirror the given values of the account.  Nothing runs under a limit. -/
structure Session.Accords (setting : Setting) (s : Session) (W : Matching) (k : Nat)
    (values : String → Option Value) : Prop where
  config : s.config.setting = setting
  limit : setting.maxDepth = none
  poised : Poised setting Seed.IsProper W (State.start s.store) [] k
  slots : ∀ slot, Option.Rel ((followKinship setting Seed.IsProper).value W) (values slot)
    (s.slot? slot)

/-- How a plan of replies ends by the account. -/
def Concludes (σ : Seed) (p : Plan Reply) (reply : Reply) : Prop :=
  Yields none σ 0 p reply ∨ ∃ f, reply = .fault f ∧ Faults σ p f

theorem followKinship_takesReady (setting : Setting) (X : Seed → Prop) :
    (followKinship setting X).TakesReady :=
  fun h => ⟨.ready h.1, h.2⟩

theorem Pairing.kinship_takesReady (P : Pairing) : P.kinship.TakesReady := fun h => .ready h

namespace Session.Accords

variable {setting : Setting} {s : Session} {W : Matching} {k : Nat}
  {values : String → Option Value}

/-- A number may be left out. -/
theorem skip (h : s.Accords setting W k values) : s.Accords setting W (k + 1) values :=
  ⟨h.config, h.limit, ⟨h.poised.zone.next, h.poised.placed, h.poised.fresh.next⟩, h.slots⟩

/-- The slots mirror the values in every set of seeds that has the marks of the values. -/
theorem slots_within (h : s.Accords setting W k values) {Y : Seed → Prop}
    (hY : ∀ υ, W.Uses υ → Seed.IsProper υ → Y υ) (slot : String) :
    Option.Rel ((followKinship setting Y).value W) (values slot) (s.slot? slot) := by
  have hslot := h.slots slot
  generalize values slot = held at hslot ⊢
  generalize s.slot? slot = held' at hslot ⊢
  cases hslot with
  | none => exact .none
  | some hv => exact .some ⟨hv.1, hv.1.within same_reruns hY hv.2⟩

variable {r : Request} (hr : ∀ policy program into, r ≠ .evaluateUnder policy program into)
include hr

/-- The account makes the requests that the session makes. -/
theorem follow (h : s.Accords setting W k values) {Y : Seed → Prop}
    (hY : ∀ υ, W.Uses υ → Seed.IsProper υ → Y υ) :
    Plan.Related (followKinship setting Y)
      ((followKinship setting Y).Replies (followKinship setting Y).env) W (s.plan values r)
      (s.plan s.slot? r) :=
  Kinship.request_related (followKinship_takesReady setting Y) h.config.symm h.config.symm
    (h.slots_within hY) r hr

theorem sound (h : s.Accords setting W k values) :
    Plan.Related (Pairing.same setting).kinship
      ((Pairing.same setting).kinship.Replies (Pairing.same setting).kinship.env) W
      (s.plan s.slot? r) (s.plan values r) := by
  refine Kinship.request_related (K := (Pairing.same setting).kinship)
    (Pairing.kinship_takesReady _) h.config.symm h.config.symm (fun slot => ?_) r hr
  have hslot := h.slots slot
  generalize values slot = held at hslot ⊢
  generalize s.slot? slot = held' at hslot ⊢
  cases hslot with
  | none => exact .none
  | some hv => exact .some hv.1

end Session.Accords

/-- Replies that look alike change the slots in the same way. -/
theorem Request.updates_rel {value : Value → Value → Prop} {env : Env → Env → Prop} (r : Request)
    {reply reply' : Reply} (hreply : reply.SameKind value env reply')
    {slots slots' : String → Option Value} (h : ∀ slot, Option.Rel value (slots slot) (slots' slot))
    (slot : String) :
    Option.Rel value (r.updates reply slots slot) (r.updates reply' slots' slot) := by
  have hupdate : ∀ {held held'} name, Option.Rel value held held' →
      Option.Rel value (Function.update slots name held slot)
        (Function.update slots' name held' slot) := by
    intro held held' name hheld
    simp only [Function.update_apply]
    split
    · exact hheld
    · exact h slot
  unfold Request.updates
  cases r.dropped? with
  | some name => exact hupdate name .none
  | none =>
      cases hreply with
      | plain hplain =>
          rw [Reply.value?_of_isPlain hplain]
          exact h slot
      | env => exact h slot
      | value hv =>
          simp only [Reply.value?]
          cases r.into? with
          | none => exact h slot
          | some name => exact hupdate name (.some hv)

namespace Session.Accords

variable {setting : Setting} {s : Session} {W : Matching} {k : Nat}
  {values : String → Option Value} {r : Request}
  (hr : ∀ policy program into, r ≠ .evaluateUnder policy program into)
include hr

/-- The session accords with the account after a request, and the reply looks like the one of the
account. -/
def After (setting : Setting) (W' : Matching) (k : Nat) (values : String → Option Value)
    (r : Request) (reply : Reply) (after : Session × Reply) : Prop :=
  after.1.Accords setting W' (k + 1) (r.updates reply values) ∧
    reply.SameKind ((followKinship setting Seed.IsProper).value W')
      ((followKinship setting Seed.IsProper).env W') after.2

omit hr in
/-- What a request leads to accords with the account if the last state of its run does. -/
theorem after_of_performs (h : s.Accords setting W k values) {reply reply' : Reply} {state : State}
    {after : Session × Reply} (hperforms : s.Performs r reply' state.store after) {W' : Matching}
    (hcontinues : Continues setting Seed.IsProper W (State.start s.store) [] k W' state)
    (hreply : reply.SameKind ((followKinship setting Seed.IsProper).value W')
      ((followKinship setting Seed.IsProper).env W') reply') :
    After setting W' k values r reply after := by
  refine ⟨⟨hperforms.config ▸ h.config, h.limit, hcontinues.2.of_store hperforms.store, ?_⟩,
    hperforms.reply ▸ hreply⟩
  intro slot
  rw [hperforms.slots]
  refine r.updates_rel hreply (fun slot => ?_) slot
  have hslot := h.slots slot
  generalize values slot = held at hslot ⊢
  generalize s.slot? slot = held' at hslot ⊢
  cases hslot with
  | none => exact .none
  | some hv => exact .some ⟨hv.1.mono hcontinues.1.grows.le, hv.2⟩

/-- A request that comes to an end is answered as the account says, and the session accords with the
account afterwards. -/
theorem perform (h : s.Accords setting W k values) {fuel : Nat}
    (hended : (s.perform fuel r).2 ≠ .outOfFuel) :
    ∃ W' reply, Concludes [k] (s.plan values r) reply ∧
      After setting W' k values r reply (s.perform fuel r) := by
  have hinner : ∀ υ, W.Uses υ → Seed.IsProper υ → Seed.inner Seed.IsProper [] k [k] υ :=
    fun _ huses hυ => Matching.inner_of_uses h.poised.zone h.poised.fresh huses hυ
  cases hrun : (s.plan s.slot? r).run (eval fuel) fuel (State.start s.store) with
  | ok reply' state =>
      have hperforms := (s.perform_runs fuel r).of_ok hrun
      obtain ⟨reply, W', hyields, hreply, hcontinues⟩ :=
        h.poised.ok_followed h.limit (h.follow hr hinner) (h.sound hr) hrun
      refine ⟨W', reply, .inl hyields, h.after_of_performs hperforms hcontinues ?_⟩
      exact hreply.mono (fun hv => ⟨hv.1, hv.2.mono fun _ hυ => hυ.1⟩)
        fun hρ => ⟨hρ.1, hρ.2.mono fun _ hυ => hυ.1⟩
  | error stop state =>
      have hperforms := (s.perform_runs fuel r).of_error hrun
      cases stop with
      | outOfFuel => exact absurd hperforms.reply hended
      | fault f =>
          have hrequest := h.poised.request
          have hfollow := h.follow hr fun υ huses hυ =>
            Matching.inner_of_uses hrequest.zone hrequest.fresh huses (hinner υ huses hυ)
          obtain ⟨W', hfaults, hreaches⟩ := hrequest.run_faults (eval_faults h.limit fuel)
            (compare_faults h.limit (eval_faults h.limit fuel) fuel) h.limit hfollow (h.sound hr) hrun
          refine ⟨W', .fault f, .inr ⟨f, rfl, hfaults⟩, ?_⟩
          exact h.after_of_performs hperforms (h.poised.resume hreaches) (.plain rfl)

/-- What the account says of a request is how it is answered in the end. -/
theorem perform_of_concludes (h : s.Accords setting W k values) {reply : Reply}
    (hconcludes : Concludes [k] (s.plan values r) reply) :
    ∃ N, ∀ fuel, N ≤ fuel → ∃ W', After setting W' k values r reply (s.perform fuel r) := by
  have hinner : ∀ υ, W.Uses υ → Seed.IsProper υ → Seed.inner Seed.IsProper [] k [k] υ :=
    fun _ huses hυ => Matching.inner_of_uses h.poised.zone h.poised.fresh huses hυ
  rcases hconcludes with hyields | ⟨f, rfl, hfaults⟩
  · have hall : SettlesAs setting false none [k] 0 (s.plan values r) reply :=
      settles_of_yields hyields
    rcases hall (h.follow hr hinner) h.poised.request (.inr h.limit) with
      ⟨reply', state, ⟨W', hreply, hreaches⟩, N, hN⟩ | ⟨htolerant, -⟩
    · refine ⟨N, fun fuel hfuel => ⟨W', ?_⟩⟩
      have hperforms := (s.perform_runs fuel r).of_ok (hN fuel fuel hfuel hfuel)
      refine h.after_of_performs hperforms (h.poised.resume hreaches) ?_
      exact hreply.mono (fun hv => ⟨hv.1, hv.2.mono fun _ hυ => hυ.1⟩)
        fun hρ => ⟨hρ.1, hρ.2.mono fun _ hυ => hυ.1⟩
    · cases htolerant
  · have hrequest := h.poised.request
    have hfollow := h.follow hr fun υ huses hυ =>
      Matching.inner_of_uses hrequest.zone hrequest.fresh huses (hinner υ huses hυ)
    have hall : FaultsAs setting [k] (s.plan values r) f := ends_of_faults h.limit hfaults
    obtain ⟨outcome, -, ⟨state, rfl⟩, N, hN⟩ := hall hrequest hfollow
    refine ⟨N, fun fuel hfuel => ?_⟩
    have hperforms := (s.perform_runs fuel r).of_error (hN fuel fuel hfuel hfuel)
    -- The reply of the run is the fault, so the account that follows the run says so, too.
    have hended : (s.perform fuel r).2 ≠ .outOfFuel := by
      rw [hperforms.reply]
      simp [stopped]
    obtain ⟨W', reply, -, hafter⟩ := h.perform hr hended
    have hreply := hafter.2
    rw [hperforms.reply] at hreply
    cases hreply with
    | plain => exact ⟨W', hafter⟩

end Session.Accords

/-! ## What an operation shows -/

/-- The request came to an end. -/
def Reply.isEnd : Reply → Bool
  | .outOfFuel => false
  | _ => true

theorem Reply.ne_outOfFuel_of_isEnd {reply : Reply} (h : reply.isEnd = true) :
    reply ≠ .outOfFuel := by
  rintro rfl
  cases h

namespace Session

/-- What an operation shows: its answer, or the text of the value that it yields, which is put into
the given slot and rendered from there. -/
def observe (fuel : Nat) (slot : String) (printDepth : Nat) (s : Session) (b : Probe) : Reply :=
  let after := s.perform fuel (b.request (some slot))
  match after.2.value? with
  | some _ => (after.1.perform fuel (.render slot (some printDepth))).2
  | none => after.2

/-- What an operation shows in the end, if it comes to an end. -/
def Observes (s : Session) (slot : String) (printDepth : Nat) (b : Probe) (seen : Reply) : Prop :=
  seen ≠ .outOfFuel ∧ ∃ N, ∀ fuel, N ≤ fuel → s.observe fuel slot printDepth b = seen

/-- What an operation shows by the account, if it has the number `k`. -/
inductive Sees (s : Session) (values : String → Option Value) (k : Nat) (slot : String)
    (printDepth : Nat) (b : Probe) : Reply → Prop
  | answer {reply : Reply} (hreply : reply.value? = none)
      (h : Concludes [k] (s.plan values (b.request (some slot))) reply) :
      Sees s values k slot printDepth b reply
  | text {v : Value} {seen : Reply} (hinto : (b.request (some slot)).into? = some slot)
      (h : Concludes [k] (s.plan values (b.request (some slot))) (.value v))
      (htext : Concludes [k + 1]
        (s.plan (Function.update values slot (some v)) (.render slot (some printDepth))) seen) :
      Sees s values k slot printDepth b seen

section

variable {setting : Setting} {s s' : Session} {W : Matching} {k : Nat}
  {values values' : String → Option Value} {slot : String} {printDepth : Nat} {b : Probe}
  {seen : Reply}

/-- The account depends on the configuration and on the slots that the operation reads. -/
theorem Sees.congr (h : s.Sees values k slot printDepth b seen) (hconfig : s'.config = s.config)
    (hvalues : ∀ name ∈ b.reads, values' name = values name) :
    s'.Sees values' k slot printDepth b seen := by
  have hplan := plan_congr hconfig b hvalues (some slot)
  cases h with
  | answer hreply h => exact .answer hreply (hplan.symm ▸ h)
  | @text v _ hinto h htext =>
      have hrender : s'.plan (Function.update values' slot (some v)) (.render slot printDepth) =
          s.plan (Function.update values slot (some v)) (.render slot printDepth) :=
        plan_congr hconfig (.render slot printDepth) (by simp [Probe.reads]) none
      exact .text hinto (hplan.symm ▸ h) (hrender.symm ▸ htext)

theorem probe_ne_evaluateUnder (b : Probe) (into : Option String) (policy : Policy)
    (program : Expr) (into' : Option String) :
    b.request into ≠ .evaluateUnder policy program into' := by
  cases b <;> simp [Probe.request]

/-- A text is never a value. -/
theorem perform_render_isPlain (s : Session) (fuel : Nat) (slot : String)
    (printDepth : Option Nat) : (s.perform fuel (.render slot printDepth)).2.isPlain = true := by
  rcases (s.handles_probe (.render slot printDepth) (some slot)).reply fuel with
    hplain | ⟨hinto, -⟩
  · exact hplain
  · cases hinto

/-- After an operation with a value the account goes on with the value in its slot. -/
theorem updates_probe (b : Probe) {v : Value}
    (hinto : (b.request (some slot)).into? = some slot) :
    (b.request (some slot)).updates (.value v) values = Function.update values slot (some v) := by
  rw [updates_of_value?_eq_some (b.dropped?_request _) rfl, hinto]
  rfl

/-- What an operation shows, the account says. -/
theorem Accords.sees_of_observe (h : s.Accords setting W k values) {fuel : Nat}
    (hended : s.observe fuel slot printDepth b ≠ .outOfFuel) :
    s.Sees values k slot printDepth b (s.observe fuel slot printDepth b) := by
  have hperformed : (s.perform fuel (b.request (some slot))).2 ≠ .outOfFuel := by
    intro hstarved
    refine hended ?_
    simp only [observe, hstarved, Reply.value?]
  obtain ⟨W', reply, hconcludes, haccords, hreply⟩ :=
    h.perform (probe_ne_evaluateUnder b _) hperformed
  rcases (s.handles_probe b (some slot)).reply fuel with hplain | ⟨hinto, w, hw⟩
  · have hvalue := Reply.value?_of_isPlain hplain
    rw [hreply.eq_of_isPlain hplain] at hconcludes
    simp only [observe, hvalue]
    exact .answer hvalue hconcludes
  · obtain ⟨v, rfl, -⟩ := hreply.of_value hw
    rw [updates_probe b hinto] at haccords
    simp only [observe, hw, Reply.value?] at hended ⊢
    obtain ⟨W'', seen, htext, -, hseen⟩ :=
      haccords.perform (probe_ne_evaluateUnder (.render slot printDepth) none) hended
    rw [hseen.eq_of_isPlain (perform_render_isPlain _ _ _ _)] at htext
    rw [plan_congr (s.config_perform fuel _) (.render slot printDepth) (fun _ _ => rfl) none] at htext
    exact .text hinto hconcludes htext

/-- What the account says, an operation shows in the end. -/
theorem Accords.observes_of_sees (h : s.Accords setting W k values) (hseen : seen ≠ .outOfFuel)
    (hsees : s.Sees values k slot printDepth b seen) : s.Observes slot printDepth b seen := by
  refine ⟨hseen, ?_⟩
  cases hsees with
  | answer hvalue hconcludes =>
      obtain ⟨N, hN⟩ := h.perform_of_concludes (probe_ne_evaluateUnder b _) hconcludes
      refine ⟨N, fun fuel hfuel => ?_⟩
      obtain ⟨W', -, hreply⟩ := hN fuel hfuel
      rcases (s.handles_probe b (some slot)).reply fuel with hplain | ⟨-, w, hw⟩
      · rw [hreply.eq_of_isPlain hplain] at hvalue ⊢
        simp only [observe, hvalue]
      · obtain ⟨v, rfl, -⟩ := hreply.of_value hw
        cases hvalue
  | @text v _ hinto hconcludes htext =>
      obtain ⟨N, hN⟩ := h.perform_of_concludes (probe_ne_evaluateUnder b _) hconcludes
      obtain ⟨W', haccords, hreply⟩ := hN N (Nat.le_refl N)
      -- From here on the operation is performed in the same way, whatever the fuel.
      obtain ⟨w, hw⟩ : ∃ w, (s.perform N (b.request (some slot))).2 = .value w := by
        generalize (s.perform N (b.request (some slot))).2 = answer at hreply
        cases hreply with
        | plain hplain => cases hplain
        | value => exact ⟨_, rfl⟩
      have hsame : ∀ fuel, N ≤ fuel →
          s.perform fuel (b.request (some slot)) = s.perform N (b.request (some slot)) :=
        fun fuel hfuel => (s.handles_probe b (some slot)).extends hfuel (by simp [hw])
      rw [updates_probe b hinto] at haccords
      have hplan : (s.perform N (b.request (some slot))).1.plan
          (Function.update values slot (some v)) (.render slot printDepth) =
            s.plan (Function.update values slot (some v)) (.render slot printDepth) :=
        plan_congr (s.config_perform N _) (.render slot printDepth) (fun _ _ => rfl) none
      rw [← hplan] at htext
      obtain ⟨M, hM⟩ :=
        haccords.perform_of_concludes (probe_ne_evaluateUnder (.render slot printDepth) none) htext
      refine ⟨max N M, fun fuel hfuel => ?_⟩
      obtain ⟨W'', -, hseen'⟩ := hM fuel (by omega)
      simp only [observe, hsame fuel (by omega), hw, Reply.value?]
      exact (hseen'.eq_of_isPlain (perform_render_isPlain _ _ _ _)).symm

end

/-! ## Reachable sessions -/

/-- The sessions that are reached without a limit on the nesting, by requests that come to an end.
Programs are evaluated under the configuration of the session, which has no limit; under a policy of
their own they would be evaluated with the default limits. -/
inductive Unlimited : Session → Prop
  | start {config : Config} (counting : Bool) (hlimit : config.setting.maxDepth = none) :
      Unlimited (Session.start config counting)
  | perform {s : Session} (h : Unlimited s) {fuel : Nat} {r : Request}
      (hr : ∀ policy program into, r ≠ .evaluateUnder policy program into)
      (hended : (s.perform fuel r).2 ≠ .outOfFuel) : Unlimited (s.perform fuel r).1

/-- Sessions that are reached without a limit accord with the account. -/
theorem Unlimited.accords {s : Session} (h : s.Unlimited) :
    ∃ setting W k values, s.Accords setting W k values := by
  induction h with
  | @start config counting hlimit =>
      exact ⟨config.setting, .empty, 0, fun _ => none, rfl, hlimit,
        poised_start config.setting Store.empty, fun _ => .none⟩
  | perform _ hr hended ih =>
      obtain ⟨setting, W, k, values, haccords⟩ := ih
      obtain ⟨W', reply, -, hafter⟩ := haccords.perform hr hended
      exact ⟨setting, W', k + 1, _, hafter.1⟩

/-- The thunk is a part of a list cell in a slot, or bound in a closure in a slot. -/
inductive Offers (s : Session) (x : Thunk) : Prop
  | head {slot : String} {tag : Nat} {y : Thunk} (h : s.slot? slot = some (.cons tag x y))
  | tail {slot : String} {tag : Nat} {y : Thunk} (h : s.slot? slot = some (.cons tag y x))
  | binding {slot : String} {tag : Nat} {lambda : Lambda} {ρ : Env} {name : String}
      (h : s.slot? slot = some (.closure tag lambda ρ)) (hx : ρ.lookupText name = some x)

section

variable {setting : Setting} {s : Session} {W : Matching} {k : Nat}
  {values : String → Option Value}

theorem Accords.slot?_eq_some (h : s.Accords setting W k values) {slot : String} {v : Value}
    (hv : s.slot? slot = some v) : ∃ v', (followKinship setting Seed.IsProper).value W v' v := by
  have hslot := h.slots slot
  rw [hv] at hslot
  generalize values slot = held at hslot
  cases hslot with
  | some hvalue => exact ⟨_, hvalue⟩

theorem Accords.offers (h : s.Accords setting W k values) {x : Thunk} (hx : s.Offers x) :
    ∃ x', (followKinship setting Seed.IsProper).thunk W x' x := by
  let K := followKinship setting Seed.IsProper
  cases hx with
  | head hslot =>
      obtain ⟨v, hv⟩ := h.slot?_eq_some hslot
      cases K.value_layer hv with
      | atom hatom => exact hatom.elim
      | cons hhead htail => exact ⟨_, hhead⟩
  | tail hslot =>
      obtain ⟨v, hv⟩ := h.slot?_eq_some hslot
      cases K.value_layer hv with
      | atom hatom => exact hatom.elim
      | cons hhead htail => exact ⟨_, htail⟩
  | @binding _ _ _ ρ name hslot hlookup =>
      obtain ⟨v, hv⟩ := h.slot?_eq_some hslot
      cases K.value_layer hv with
      | atom hatom => exact hatom.elim
      | closure henv =>
          rcases K.lookupText henv name with ⟨-, hnone⟩ | ⟨x', y, -, hsome, hxy⟩
          · rw [hlookup] at hnone
            cases hnone
          · rw [hlookup] at hsome
            cases hsome
            exact ⟨x', hxy⟩

/-- A thunk that is evaluated once and fails has no result afterwards, and forcing it again fails in
the same way. -/
theorem Accords.force_again (h : s.Accords setting W k values) {address : Nat} {q : Suspension}
    (hx : s.Offers (.byNeed address q)) {fuel : Nat} {f : Fault} {state : State}
    (hrun : force (eval fuel) (.byNeed address q) (State.start s.store) =
      .error (.fault f) state) :
    state.store.kept? address = none ∧ ∃ N, ∀ fuel', N ≤ fuel' →
      ((force (eval fuel') (.byNeed address q)).report state.store).result =
        .error (.fault f) := by
  obtain ⟨x, hmirrors, hwithin⟩ := h.offers hx
  obtain ⟨W', hfaults, hreaches, hpoised⟩ :=
    h.poised.force_faults (eval_faults h.limit fuel) h.limit ⟨hmirrors, hwithin⟩ hrun
  have hle := hreaches.grows.le
  cases hmirrors with
  | @byNeed _ mark ρ ρ' e hcell henv =>
      cases hfaults with
      | @run τ S ρ₁ e₁ g hhome hnever hfault =>
          have hhome' : Thunk.home ([] ++ [k + 1]) (.byNeed mark ⟨setting, ρ', e⟩) =
              some (τ, ⟨S, ρ₁, e₁⟩) := hhome
          cases hhome
          constructor
          -- A result would be one that the account yields, but it yields none.
          · cases hkept : state.store.kept? address with
            | none => rfl
            | some u =>
                obtain ⟨v, -, hyields⟩ := hreaches.placed.tracks.kept (hle.cell hcell) hkept
                exact absurd hyields (hnever v)
          · have hstart : Poised setting Seed.IsProper W' (State.start state.store) [] (k + 1) :=
              hpoised.of_store rfl
            have hall : FaultsAs setting _ (e.plan setting ρ') g := ends_of_faults h.limit hfault
            obtain ⟨outcome, -, ⟨state', rfl⟩, N, hN⟩ := hstart.force_endsIn h.limit
              ⟨.byNeed (hle.cell hcell) (henv.mono hle), hwithin⟩ hhome' hnever hall
            refine ⟨N, fun fuel' hfuel => ?_⟩
            have hagain := hN fuel' fuel' hfuel hfuel
            dsimp only at hagain
            rw [Eval.report, hagain]

/-- An operation that came to an end left the slots that another one reads as they were. -/
theorem updates_of_not_mem_reads {a b : Probe} {into : Option String} {reply : Reply}
    (hinto : ∀ slot, into = some slot → slot ∉ b.reads) {slot : String} (hslot : slot ∈ b.reads) :
    (a.request into).updates reply values slot = values slot := by
  cases hvalue : reply.value? with
  | none => rw [updates_of_value?_eq_none (a.dropped?_request into) hvalue]
  | some v =>
      rw [updates_of_value?_eq_some (a.dropped?_request into) hvalue]
      cases hname : (a.request into).into? with
      | none => rfl
      | some name =>
          have hsame : into = some name := by
            cases a <;> first | exact hname | cases hname
          have hne : slot ≠ name := fun heq => hinto name hsame (heq ▸ hslot)
          simp [hne]

end

/-- What an operation shows is the same before and after another one. -/
theorem Unlimited.observes_iff_after {s : Session} (h : s.Unlimited) (a b : Probe)
    (into : Option String) {fuel : Nat} (hended : (s.perform fuel (a.request into)).2 ≠ .outOfFuel)
    (hinto : ∀ slot, into = some slot → slot ∉ b.reads) (slot : String) (printDepth : Nat)
    (seen : Reply) :
    s.Observes slot printDepth b seen ↔
      (s.perform fuel (a.request into)).1.Observes slot printDepth b seen := by
  obtain ⟨setting, W, k, values, haccords⟩ := h.accords
  obtain ⟨W', reply, -, hafter, -⟩ := haccords.perform (probe_ne_evaluateUnder a into) hended
  have hconfig := s.config_perform fuel (a.request into)
  constructor
  · -- Without the first operation its number is left out, so that both accounts agree.
    rintro ⟨hseen, N, hN⟩
    have hobserve := hN N (Nat.le_refl N)
    have hsees := haccords.skip.sees_of_observe (hobserve ▸ hseen)
    rw [hobserve] at hsees
    exact hafter.observes_of_sees hseen
      (hsees.congr hconfig fun name hname => updates_of_not_mem_reads hinto hname)
  · rintro ⟨hseen, N, hN⟩
    have hobserve := hN N (Nat.le_refl N)
    have hsees := hafter.sees_of_observe (hobserve ▸ hseen)
    rw [hobserve] at hsees
    exact haccords.skip.observes_of_sees hseen
      (hsees.congr hconfig.symm fun name hname => (updates_of_not_mem_reads hinto hname).symm)

/-- Caching is unobservable in a session that was reached without a limit on the nesting.

Whatever an operation shows in the end, a text, a truth value, the text of the value that it yields,
or a fault with its cause and place, it shows whether or not another operation was performed before
it that came to an end, also with a fault, and left the slots alone that it reads.  A thunk that is
evaluated once and failed has no result afterwards, and forcing it again fails in the same way.
Rendering a value again gives the same text. -/
theorem caching_unobservable {s : Session} (h : s.Unlimited) :
    (∀ (a b : Probe) (into : Option String) (fuel : Nat),
      (s.perform fuel (a.request into)).2 ≠ .outOfFuel →
      (∀ slot, into = some slot → slot ∉ b.reads) → ∀ slot printDepth seen,
        s.Observes slot printDepth b seen ↔
          (s.perform fuel (a.request into)).1.Observes slot printDepth b seen) ∧
    (∀ (address : Nat) (q : Suspension) (fuel : Nat) (f : Fault), s.Offers (.byNeed address q) →
      let forced := (force (eval fuel) (.byNeed address q)).report s.store
      forced.result = .error (.fault f) → forced.store.kept? address = none ∧
        ∃ N, ∀ fuel', N ≤ fuel' →
          ((force (eval fuel') (.byNeed address q)).report forced.store).result =
            .error (.fault f)) ∧
    ∀ (slot : String) (printDepth : Option Nat) (fuel : Nat) (text : String),
      let rendered := s.perform fuel (.render slot printDepth)
      rendered.2 = .text text → ∃ N, ∀ fuel', N ≤ fuel' →
        (rendered.1.perform fuel' (.render slot printDepth)).2 = .text text := by
  refine ⟨fun a b into fuel hended hinto => h.observes_iff_after a b into hended hinto, ?_, ?_⟩
  · intro address q fuel f hx forced hfault
    obtain ⟨setting, W, k, values, haccords⟩ := h.accords
    simp only [forced, Eval.report] at hfault ⊢
    cases hrun : force (eval fuel) (.byNeed address q) (State.start s.store) with
    | ok v state =>
        rw [hrun] at hfault
        cases hfault
    | error stop state =>
        rw [hrun] at hfault
        cases hfault
        exact haccords.force_again hx hrun
  · intro slot printDepth fuel text rendered htext
    -- The first rendering shows the text, so the second one does.
    let b : Probe := .render slot printDepth
    have hobserve : ∀ (s : Session) fuel, s.observe fuel slot 0 b =
        (s.perform fuel (.render slot printDepth)).2 := by
      intro s fuel
      have hplain := s.perform_render_isPlain fuel slot printDepth
      simp only [observe, b, Probe.request, Reply.value?_of_isPlain hplain]
    have hended : rendered.2 ≠ .outOfFuel := by simp [htext]
    have hfirst : s.Observes slot 0 b (.text text) := by
      refine ⟨by simp, fuel, fun fuel' hfuel => ?_⟩
      rw [hobserve, ← htext]
      exact congrArg Prod.snd ((s.handles_probe b none).extends hfuel hended)
    obtain ⟨-, N, hN⟩ := (h.observes_iff_after b b none hended (by simp) slot 0 (.text text)).1 hfirst
    refine ⟨N, fun fuel' hfuel => ?_⟩
    rw [← hobserve]
    exact hN fuel' hfuel

/-- The list `cons(1, cons(1 / 0, null))` is kept; rendering it fills two caches and fails at the
third, and its first part is asked for afterwards. -/
theorem caching_unobservable_halfRendered :
    let place : Place := ⟨0, ⟨0, 0⟩⟩
    let cons (x y : Expr) : Expr := .call place (.prim place .cons) [x, y]
    let quotient : Expr := .binary place .div (.int place 1) (.int place 0)
    let program := cons (.int place 1) (cons quotient (.null place))
    let s := ((Session.start ⟨⟨⟨.need, .need⟩, none⟩, 9⟩ true).perform 9
      (.evaluate program (some "list"))).1
    let rendered := s.perform 9 (.render "list" none)
    s.Unlimited ∧ rendered.2 ≠ .outOfFuel ∧ ∀ slot printDepth seen,
      s.Observes slot printDepth (.head "list") seen ↔
        rendered.1.Observes slot printDepth (.head "list") seen := by
  intro place cons quotient program s rendered
  have hunlimited : s.Unlimited :=
    .perform (.start true rfl) (by simp) (Reply.ne_outOfFuel_of_isEnd (by decide +kernel))
  have hended : rendered.2 ≠ .outOfFuel := Reply.ne_outOfFuel_of_isEnd (by decide +kernel)
  exact ⟨hunlimited, hended,
    (caching_unobservable hunlimited).1 (.render "list" none) (.head "list") none 9 hended (by simp)⟩

end Session

end PolicyEval
