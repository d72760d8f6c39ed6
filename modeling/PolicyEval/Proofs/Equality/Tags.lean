import PolicyEval.Proofs.Equality.Register
import PolicyEval.Proofs.Sharing.Unobservable

/-!
# No two things carry one tag

Whatever a session is asked, the closures, list cells and frames that can be reached in it are told
apart by their tags.  They are reached through the slots, through what the store keeps, and through
suspensions, whose environments will be in force once they are evaluated.

Sessions may share a store.  A ledger lists the tags and the store cells of one of them, and what is
reached from its data is listed there.  What the others have made is left alone.

* `Ledger` — the tags and the store cells of one party.
* `Value.Recorded`, `Thunk.Recorded`, `Env.Recorded` — all that can be reached from data is listed.
* `Ledger.Covers` — the ledger lists what is its own in the store.
* `Ledger.Leads` — a later ledger over a later store, in which foreign cells are as they were.
* `Records` — a computation that leads to a later ledger; `eval_records` — evaluations do.
* `Session.Recorded.perform` — requests do.
-/

namespace PolicyEval

/-! ## Ledgers -/

/-- A register of tags, and a set of store cells; addresses from `size` on are not in use yet. -/
structure Ledger extends Register where
  size : Nat
  owns : Nat → Prop
  lt_size : ∀ {address}, owns address → address < size

namespace Ledger

variable {r r' r'' : Ledger}

/-- What was listed stays listed, and nothing else is put under an old tag or address. -/
structure Le (r r' : Ledger) : Prop where
  register : r.toRegister.Le r'.toRegister
  size_le : r.size ≤ r'.size
  owns_iff : ∀ address, address < r.size → (r'.owns address ↔ r.owns address)

theorem Le.refl (r : Ledger) : r.Le r := ⟨.refl _, Nat.le_refl _, fun _ _ => Iff.rfl⟩

theorem Le.trans (h : r.Le r') (h' : r'.Le r'') : r.Le r'' :=
  ⟨h.register.trans h'.register, Nat.le_trans h.size_le h'.size_le, fun address haddress =>
    (h'.owns_iff address (Nat.lt_of_lt_of_le haddress h.size_le)).trans
      (h.owns_iff address haddress)⟩

theorem Le.owns (h : r.Le r') {address : Nat} (howns : r.owns address) : r'.owns address :=
  (h.owns_iff address (r.lt_size howns)).2 howns

/-- The ledger in which nothing is listed. -/
def empty : Ledger := ⟨⟨0, fun _ => none, nofun⟩, 0, fun _ => False, False.elim⟩

/-- The ledger with one more object, under the next tag. -/
def list (r : Ledger) (object : Value ⊕ Env) : Ledger := { r with toRegister := r.add object }

theorem le_list (r : Ledger) (object : Value ⊕ Env) : r.Le (r.list object) :=
  ⟨r.le_add object, Nat.le_refl _, fun _ _ => Iff.rfl⟩

/-- The ledger with one more store cell, at the next address. -/
def acquire (r : Ledger) : Ledger where
  toRegister := r.toRegister
  size := r.size + 1
  owns address := address = r.size ∨ r.owns address
  lt_size h := h.elim (fun heq => by omega) fun howns => Nat.lt_succ_of_lt (r.lt_size howns)

theorem le_acquire (r : Ledger) : r.Le r.acquire :=
  ⟨.refl _, Nat.le_succ _, fun _ haddress => or_iff_right (Nat.ne_of_lt haddress)⟩

end Ledger

/-! ## Recorded data -/

mutual
/-- Every closure, list cell and frame that can be reached from the value is the one that the
ledger lists. -/
def Value.Recorded (r : Ledger) : Value → Prop
  | .int _ | .bool _ | .prim _ | .nil => True
  | .closure tag lambda ρ => r.carrier tag = some (.inl (.closure tag lambda ρ)) ∧ ρ.Recorded r
  | .cons tag x y => r.carrier tag = some (.inl (.cons tag x y)) ∧ x.Recorded r ∧ y.Recorded r

/-- Every closure, list cell and frame that can be reached from the thunk is the one that the
ledger lists. -/
def Thunk.Recorded (r : Ledger) : Thunk → Prop
  | .ready v => v.Recorded r
  | .byName q => q.Recorded r
  | .byNeed address q => r.owns address ∧ q.Recorded r

/-- Every closure, list cell and frame that can be reached from the suspended expression is the one
that the ledger lists. -/
def Suspension.Recorded (r : Ledger) : Suspension → Prop
  | .mk _ ρ _ => ρ.Recorded r

/-- Every frame, and every closure and list cell that can be reached from the bindings, is the one
that the ledger lists. -/
def Env.Recorded (r : Ledger) : Env → Prop
  | .empty => True
  | .frame tag name x rest =>
    r.carrier tag = some (.inr (.frame tag name x rest)) ∧ x.Recorded r ∧ rest.Recorded r
end

/-- Both sides of the comparison are recorded; second parts are those of recorded list cells. -/
def Comparison.Recorded (r : Ledger) : Comparison → Prop
  | .values a b => a.Recorded r ∧ b.Recorded r
  | .tails x y =>
    (∃ tag z, (Value.cons tag z x).Recorded r) ∧ ∃ tag z, (Value.cons tag z y).Recorded r
  | .envs a b => a.Recorded r ∧ b.Recorded r

section

variable {r r' : Ledger}

mutual
theorem Value.Recorded.mono (h : r.Le r') : {v : Value} → v.Recorded r → v.Recorded r'
  | .int _, _ | .bool _, _ | .prim _, _ | .nil, _ => by simp only [Value.Recorded]
  | .closure _ _ ρ, hv => by
      simp only [Value.Recorded] at hv ⊢
      exact ⟨h.register.carrier hv.1, hv.2.mono h⟩
  | .cons _ x y, hv => by
      simp only [Value.Recorded] at hv ⊢
      exact ⟨h.register.carrier hv.1, hv.2.1.mono h, hv.2.2.mono h⟩

theorem Thunk.Recorded.mono (h : r.Le r') : {x : Thunk} → x.Recorded r → x.Recorded r'
  | .ready v, hx => by
      simp only [Thunk.Recorded] at hx ⊢
      exact hx.mono h
  | .byName ⟨_, ρ, _⟩, hx => by
      simp only [Thunk.Recorded, Suspension.Recorded] at hx ⊢
      exact hx.mono h
  | .byNeed _ ⟨_, ρ, _⟩, hx => by
      simp only [Thunk.Recorded, Suspension.Recorded] at hx ⊢
      exact ⟨h.owns hx.1, hx.2.mono h⟩

theorem Env.Recorded.mono (h : r.Le r') : {ρ : Env} → ρ.Recorded r → ρ.Recorded r'
  | .empty, _ => by simp only [Env.Recorded]
  | .frame _ _ x rest, hρ => by
      simp only [Env.Recorded] at hρ ⊢
      exact ⟨h.register.carrier hρ.1, hρ.2.1.mono h, hρ.2.2.mono h⟩
end

theorem Comparison.Recorded.mono (h : r.Le r') {c : Comparison} (hc : c.Recorded r) :
    c.Recorded r' := by
  cases c with
  | values | envs => exact ⟨hc.1.mono h, hc.2.mono h⟩
  | tails =>
      obtain ⟨⟨tag, z, hx⟩, tag', z', hy⟩ := hc
      exact ⟨⟨tag, z, hx.mono h⟩, tag', z', hy.mono h⟩

end

theorem Value.IsAtom.recorded {r : Ledger} {v : Value} (h : v.IsAtom) : v.Recorded r := by
  cases v with
  | int | bool | prim | nil => simp only [Value.Recorded]
  | closure | cons => exact h.elim

/-- The same data on both sides, recorded. -/
def recordKinship (setting : Setting) : Kinship where
  World := Ledger
  le := Ledger.Le
  left := setting
  right := setting
  strict := False
  value r v w := w = v ∧ v.Recorded r
  thunk r x y := y = x ∧ x.Recorded r
  env r a b := b = a ∧ a.Recorded r
  todo r t t' := t' = t ∧ ∀ c ∈ t, c.Recorded r
  refl := .refl
  trans := .trans
  value_mono hle h := ⟨h.1, h.2.mono hle⟩
  thunk_mono hle h := ⟨h.1, h.2.mono hle⟩
  env_mono hle h := ⟨h.1, h.2.mono hle⟩
  todo_mono hle h := ⟨h.1, fun c hc => (h.2 c hc).mono hle⟩
  atom h := ⟨rfl, h.recorded⟩
  empty := ⟨rfl, by simp only [Env.Recorded]⟩
  value_layer {_ _ w} h := by
    obtain ⟨rfl, h⟩ := h
    cases w with
    | closure =>
        simp only [Value.Recorded] at h
        exact .closure ⟨rfl, h.2⟩
    | cons =>
        simp only [Value.Recorded] at h
        exact .cons ⟨rfl, h.2.1⟩ ⟨rfl, h.2.2⟩
    | int | bool | prim | nil => exact .atom trivial
  env_layer {_ _ b} h := by
    obtain ⟨rfl, h⟩ := h
    cases b with
    | empty => exact .empty
    | frame =>
        simp only [Env.Recorded] at h
        exact .frame ⟨rfl, h.2.1⟩ ⟨rfl, h.2.2⟩
  ready h := by
    obtain ⟨rfl, h⟩ := h
    exact ⟨_, rfl, rfl, by simpa only [Thunk.Recorded] using h⟩
  ready_strict h := h.elim
  todo_nil := ⟨rfl, nofun⟩
  todo_cons hc h := by
    obtain ⟨rfl, h⟩ := h
    cases hc with
    | values ha hb | envs ha hb =>
        obtain ⟨⟨rfl, ha⟩, ⟨rfl, hb⟩⟩ := And.intro ha hb
        exact ⟨rfl, List.forall_mem_cons.2 ⟨⟨ha, hb⟩, h⟩⟩
    | tails ha hb =>
        obtain ⟨⟨heq, ha⟩, ⟨heq', hb⟩⟩ := And.intro ha hb
        cases heq
        cases heq'
        exact ⟨rfl, List.forall_mem_cons.2 ⟨⟨⟨_, _, ha.2⟩, _, _, hb.2⟩, h⟩⟩

theorem recordKinship_takesReady (setting : Setting) : (recordKinship setting).TakesReady :=
  fun h => ⟨congrArg _ h.1, by simpa only [Thunk.Recorded] using h.2⟩

/-! ## Computations -/

/-- The ledger lists all its party has made: the tags and addresses in use are those that the store
has handed out, and what is kept in its cells is recorded. -/
structure Ledger.Covers (r : Ledger) (store : Store) : Prop where
  next : r.next = store.nextTag
  size : r.size = store.cells.size
  kept : ∀ {address v}, r.owns address → store.kept? address = some v → v.Recorded r

/-- A later ledger covers a later store, and cells that it does not list are as they were. -/
structure Ledger.Leads (r : Ledger) (store : Store) (r' : Ledger) (store' : Store) : Prop where
  le : r.Le r'
  covers : r'.Covers store'
  foreign : ∀ {address}, ¬r'.owns address → store'.kept? address = store.kept? address

theorem Ledger.Covers.stay {r : Ledger} {store : Store} (h : r.Covers store) :
    r.Leads store r store :=
  ⟨.refl r, h, fun _ => rfl⟩

theorem Ledger.Leads.trans {r r' r'' : Ledger} {store store' store'' : Store}
    (h : r.Leads store r' store') (h' : r'.Leads store' r'' store'') :
    r.Leads store r'' store'' :=
  ⟨h.le.trans h'.le, h'.covers, fun howns =>
    (h'.foreign howns).trans (h.foreign fun howns' => howns (h'.le.owns howns'))⟩

/-- However the computation ends, it leads to a later ledger; a result satisfies `post`. -/
def Records (r : Ledger) {α : Type} (post : Ledger → α → Prop) (body : Eval α) : Prop :=
  ∀ s, r.Covers s.store → ∃ r',
    match body s with
    | .ok a s' => r.Leads s.store r' s'.store ∧ post r' a
    | .error _ s' => r.Leads s.store r' s'.store

namespace Records

variable {r : Ledger} {α β : Type} {post : Ledger → α → Prop}

theorem pure {a : α} (h : post r a) : Records r post (Pure.pure a) :=
  fun _ hs => ⟨r, hs.stay, h⟩

theorem throw (stop : Stop) : Records r post (MonadExcept.throw stop) :=
  fun _ hs => ⟨r, hs.stay⟩

theorem count (step : Counters → Counters) : Records r (fun r' _ => r = r') (Eval.count step) :=
  fun _ hs => ⟨r, hs.stay, rfl⟩

theorem bind {mid : Ledger → β → Prop} {first : Eval β} {next : β → Eval α}
    (hfirst : Records r mid first)
    (hnext : ∀ r' b, r.Le r' → mid r' b → Records r' post (next b)) :
    Records r post (first >>= next) := by
  intro s hs
  obtain ⟨r₁, hend⟩ := hfirst s hs
  rw [Eval.bind_apply]
  cases hrun : first s with
  | error stop s₁ =>
      rw [hrun] at hend
      exact ⟨r₁, hend⟩
  | ok b s₁ =>
      rw [hrun] at hend
      obtain ⟨hleads, hb⟩ := hend
      obtain ⟨r₂, hend'⟩ := hnext r₁ b hleads.le hb s₁ hleads.covers
      refine ⟨r₂, ?_⟩
      dsimp only
      cases hrun' : next b s₁ with
      | ok a s₂ =>
          rw [hrun'] at hend'
          exact ⟨hleads.trans hend'.1, hend'.2⟩
      | error stop s₂ =>
          rw [hrun'] at hend'
          exact hleads.trans hend'

theorem mono {post' : Ledger → α → Prop} {body : Eval α} (h : Records r post body)
    (himp : ∀ r' a, post r' a → post' r' a) : Records r post' body := by
  intro s hs
  obtain ⟨r', hend⟩ := h s hs
  refine ⟨r', ?_⟩
  cases hrun : body s with
  | ok a s' =>
      rw [hrun] at hend
      exact ⟨hend.1, himp r' a hend.2⟩
  | error stop s' =>
      rw [hrun] at hend
      exact hend

theorem within {body : Eval α} (h : Records r post body) (limit : Option Nat) (span : Span) :
    Records r post (Eval.within limit span body) := by
  intro s hs
  unfold Eval.within
  cases s.depth.enter limit with
  | error n => exact ⟨r, hs.stay⟩
  | ok depth =>
      obtain ⟨r', hend⟩ := h { s with depth } hs
      refine ⟨r', ?_⟩
      dsimp only
      cases hrun : body { s with depth } with
      | ok a s' | error stop s' =>
          rw [hrun] at hend
          exact hend

end Records

/-! ## Evaluations -/

/-- Evaluating with this much fuel leads to a later ledger. -/
def EvalRecords (n : Nat) : Prop :=
  ∀ {r : Ledger} {ρ : Env} (setting : Setting) (e : Expr), ρ.Recorded r →
    Records r (fun r' v => v.Recorded r') (eval n setting ρ e)

/-- Comparing with this much fuel leads to a later ledger. -/
def CompareRecords (n m : Nat) : Prop :=
  ∀ {r : Ledger} {todo : List Comparison}, (∀ c ∈ todo, c.Recorded r) →
    Records r (fun _ _ => True) (compareAll (eval n) m todo)

section

variable {n m : Nat} {r : Ledger}

/-- A new closure or list cell is listed under the next tag. -/
theorem freshTag_records (object : Nat → Value) :
    Records r (fun r' tag => r'.carrier tag = some (.inl (object tag))) Eval.freshTag := by
  intro s hs
  have hle := r.le_list (.inl (object r.next))
  refine ⟨_, ⟨hle, ⟨congrArg (· + 1) hs.next, hs.size, fun howns hv => ?_⟩, fun _ => rfl⟩, ?_⟩
  · exact (hs.kept howns hv).mono hle
  · have htag : r.next = s.store.nextTag := hs.next
    rw [htag]
    exact htag ▸ r.carrier_add _

/-- New frames are listed under the next tags. -/
theorem Store.extend_recorded (store : Store) {ρ : Env} {bindings : List (Name × Thunk)}
    (hr : r.Covers store) (hρ : ρ.Recorded r) (hbindings : ∀ b ∈ bindings, b.2.Recorded r) :
    ∃ r', r.Leads store r' (store.extend ρ bindings).2 ∧
      (store.extend ρ bindings).1.Recorded r' := by
  induction bindings with
  | nil => exact ⟨r, hr.stay, hρ⟩
  | cons b bindings ih =>
      rw [List.forall_mem_cons] at hbindings
      obtain ⟨r₁, hleads, hinner⟩ := ih hbindings.2
      let frame : Env := .frame r₁.next b.1 b.2 (store.extend ρ bindings).1
      have hle := r₁.le_list (.inr frame)
      have hnext := hleads.covers.next
      refine ⟨r₁.list (.inr frame), hleads.trans ⟨hle, ⟨congrArg (· + 1) hnext,
        hleads.covers.size, fun howns hv => ?_⟩, fun _ => rfl⟩, ?_⟩
      · exact (hleads.covers.kept howns hv).mono hle
      · simp only [Store.extend, Store.freshTag, Env.Recorded, ← hnext]
        exact ⟨r₁.carrier_add _, hbindings.1.mono (hleads.le.trans hle), hinner.mono hle⟩

theorem extend_records {ρ : Env} (hρ : ρ.Recorded r) {bindings : List (Name × Thunk)}
    (hbindings : ∀ b ∈ bindings, b.2.Recorded r) :
    Records r (fun r' a => a.Recorded r') (Eval.extend ρ bindings) :=
  fun s hs => s.store.extend_recorded hs hρ hbindings

theorem suspension_records (hn : EvalRecords n) {q : Suspension} (hq : q.Recorded r) :
    Records r (fun r' v => v.Recorded r') (q.run (eval n)) := by
  obtain ⟨setting, ρ, e⟩ := q
  simp only [Suspension.Recorded] at hq
  exact .bind (.count _) fun r' _ hle _ => hn setting e (hq.mono hle)

theorem keep_records {address : Nat} (howns : r.owns address) {v : Value} (hv : v.Recorded r) :
    Records r (fun r' w => w.Recorded r') (Eval.keep address v) := by
  intro s hs
  refine ⟨r, ?_⟩
  rw [Eval.keep_apply]
  cases hkept : s.store.kept? address with
  | some w => exact ⟨hs.stay, hs.kept howns hkept⟩
  | none =>
      have hlt : address < s.store.cells.size := hs.size ▸ r.lt_size howns
      refine ⟨⟨.refl r, ⟨hs.next, ?_, fun {x w} hx hw => ?_⟩, fun {x} hx => ?_⟩, hv⟩
      · rw [Store.size_keep]
        exact hs.size
      · rw [Store.kept?_keep hlt] at hw
        split at hw
        · exact Option.some.inj hw ▸ hv
        · exact hs.kept hx hw
      · rw [Store.kept?_keep hlt, if_neg]
        exact fun heq => hx (heq ▸ howns)

/-- Forcing a thunk keeps its result in a cell of the party that has made the thunk. -/
theorem force_records (hn : EvalRecords n) {x : Thunk} (hx : x.Recorded r) :
    Records r (fun r' v => v.Recorded r') (force (eval n) x) := by
  cases x with
  | ready v => exact .pure (by simpa only [Thunk.Recorded] using hx)
  | byName q => exact suspension_records hn (by simpa only [Thunk.Recorded] using hx)
  | byNeed address q =>
      simp only [Thunk.Recorded] at hx
      obtain ⟨howns, hq⟩ := hx
      intro s hs
      cases hkept : s.store.kept? address with
      | some v =>
          rw [Eval.force_of_kept hkept]
          exact ⟨r, hs.stay, hs.kept howns hkept⟩
      | none =>
          rw [Eval.force_of_pending hkept]
          exact Records.bind (suspension_records hn hq)
            (fun r' v hle hv => keep_records (hle.owns howns) hv) s hs

theorem delay_records (hn : EvalRecords n) {ρ : Env} (hρ : ρ.Recorded r) (d : Discipline)
    (setting : Setting) (e : Expr) :
    Records r (fun r' x => x.Recorded r') (delay (eval n) d setting ρ e) := by
  cases d with
  | value =>
      refine .bind (hn setting e hρ) fun r' v _ hv => .pure ?_
      simpa only [Thunk.Recorded] using hv
  | name =>
      refine .pure ?_
      simpa only [Thunk.Recorded, Suspension.Recorded] using hρ
  | need =>
      intro s hs
      have hle := r.le_acquire
      refine ⟨r.acquire, ⟨hle, ⟨hs.next, ?_, fun {address v} howns hv => ?_⟩,
        fun {address} _ => s.store.kept?_allocate address⟩, ?_⟩
      · simpa [Store.allocate, Ledger.acquire] using hs.size
      · replace hv : s.store.kept? address = some v :=
          (s.store.kept?_allocate address).symm.trans hv
        rcases howns with rfl | howns
        · rw [hs.size] at hv
          simp [Store.kept?] at hv
        · exact (hs.kept howns hv).mono hle
      · simp only [Thunk.Recorded, Suspension.Recorded]
        exact ⟨.inl hs.size.symm, hρ.mono hle⟩

/-- Following a plan leads to a later ledger if what the plan is about is recorded. -/
theorem run_records (hn : EvalRecords n) (hm : CompareRecords n m) {setting : Setting} {α β : Type}
    {post : (recordKinship setting).World → α → β → Prop} {W : (recordKinship setting).World}
    {p : Plan α} {q : Plan β} (hrel : Plan.Related (recordKinship setting) post W p q) :
    Records W (fun r' a => ∃ b, post r' a b) (p.run (eval n) m) := by
  induction hrel with
  | done h => exact .pure ⟨_, h⟩
  | fail => exact .throw _
  | count _ ih => exact .bind (.count _) fun r' _ hle hsame => hsame ▸ ih
  | eval henv _ ih =>
      exact .bind (hn setting _ henv.2) fun r' v hle hv => ih r' hle v v ⟨rfl, hv⟩
  | force hthunk _ ih =>
      exact .bind (force_records hn hthunk.2) fun r' v hle hv => ih r' hle v v ⟨rfl, hv⟩
  | delay _ henv _ ih =>
      exact .bind (delay_records hn henv.2 _ setting _) fun r' x hle hx => ih r' hle x x ⟨rfl, hx⟩
  -- A new object is recorded under its tag before the plan goes on.
  | @cell W x x' y y' next next' hhead htail _ _ ih =>
      refine .bind (freshTag_records fun tag => .cons tag x y) fun r' tag hle htag => ?_
      refine ih r' hle _ _ ⟨rfl, ?_⟩
      simp only [Value.Recorded]
      exact ⟨htag, hhead.2.mono hle, htail.2.mono hle⟩
  | @closure W lambda ρ ρ' next next' henv _ ih =>
      refine .bind (freshTag_records fun tag => .closure tag lambda ρ)
        fun r' tag hle htag => ?_
      refine ih r' hle _ _ ⟨rfl, ?_⟩
      simp only [Value.Recorded]
      exact ⟨htag, henv.2.mono hle⟩
  | @extend W ρ ρ' bs bs' next next' henv hbs _ ih =>
      have hbindings : ∀ b ∈ bs, b.2.Recorded W := by
        intro b hb
        obtain ⟨i, hi, rfl⟩ := List.getElem_of_mem hb
        exact (hbs.get hi (hbs.length_eq ▸ hi)).2.2
      exact .bind (extend_records henv.2 hbindings) fun r' a hle ha => ih r' hle a a ⟨rfl, ha⟩
  | compare htodo _ ih =>
      exact .bind (hm htodo.2) fun r' b hle _ => ih r' hle b

theorem recorded_comparable (setting : Setting) {c : Comparison} (hc : c.Recorded r) :
    (recordKinship setting).Comparable r c c := by
  cases c with
  | values a b => exact .values ⟨rfl, hc.1⟩ ⟨rfl, hc.2⟩
  | envs a b => exact .envs ⟨rfl, hc.1⟩ ⟨rfl, hc.2⟩
  | tails x y =>
      obtain ⟨⟨tag, z, hx⟩, tag', z', hy⟩ := hc
      exact .tails ⟨rfl, hx⟩ ⟨rfl, hy⟩

theorem compare_records (hn : EvalRecords n) (m : Nat) : CompareRecords n m := by
  induction m with
  | zero => exact fun _ => .throw _
  | succ m ih =>
      intro r todo htodo
      rw [compareAll_succ]
      cases todo with
      | nil => exact .pure trivial
      | cons c todo =>
          rw [List.forall_mem_cons] at htodo
          let K := recordKinship ⟨⟨.value, .value⟩, none⟩
          have hrel := K.step_related (W := r) ⟨rfl, htodo.2⟩ (recorded_comparable _ htodo.1)
            (.inl rfl : Comparison.identical c = Comparison.identical c ∨ _)
          exact (run_records hn ih hrel).mono fun _ _ _ => trivial

/-- Evaluating leads to a later ledger. -/
theorem eval_records (n : Nat) : EvalRecords n := by
  induction n with
  | zero => exact fun _ _ _ => .throw _
  | succ n ih =>
      intro r ρ setting e hρ
      have hrel := (recordKinship setting).plan_related (W := r) ⟨rfl, hρ⟩ e
      rw [eval_succ]
      refine Records.within ?_ setting.maxDepth e.span
      exact (run_records ih (compare_records ih n) (.count hrel)).mono fun _ _ ⟨_, h⟩ => h.2

end

/-! ## Sessions -/

/-- The ledger covers the store of the session, and the values in its slots are recorded. -/
structure Session.Recorded (r : Ledger) (s : Session) : Prop where
  store : r.Covers s.store
  slots : ∀ {slot v}, s.slot? slot = some v → v.Recorded r

namespace Session

variable {r : Ledger} {s : Session}

/-- Slots with recorded values are related to themselves. -/
theorem slots_rel (h : ∀ {slot v}, s.slot? slot = some v → v.Recorded r) (setting : Setting)
    (slot : String) :
    Option.Rel ((recordKinship setting).value r) (s.slot? slot) (s.slot? slot) := by
  cases hslot : s.slot? slot with
  | none => exact .none
  | some v => exact .some ⟨rfl, h hslot⟩

/-- What a request is about is recorded. -/
theorem Recorded.request (h : s.Recorded r) (request : Request) :
    ∃ setting, Plan.Related (recordKinship setting)
      ((recordKinship setting).Replies (recordKinship setting).env) r
      (s.plan s.slot? request) (s.plan s.slot? request) := by
  by_cases hunder : ∃ policy program into, request = .evaluateUnder policy program into
  · obtain ⟨policy, program, into, rfl⟩ := hunder
    let K := recordKinship (Config.ofPolicy policy).setting
    exact ⟨_, .eval (K.empty (W := r)) fun _ _ _ _ hv => Kinship.reply_related (K := K) hv⟩
  · refine ⟨_, Kinship.request_related (recordKinship_takesReady _) rfl rfl (slots_rel h.slots _)
      request ?_⟩
    exact fun policy program into heq => hunder ⟨policy, program, into, heq⟩

/-- A request leads to a later ledger. -/
theorem Recorded.perform (h : s.Recorded r) (fuel : Nat) (request : Request) :
    ∃ r', r.Leads s.store r' (s.perform fuel request).1.store ∧
      (s.perform fuel request).1.Recorded r' := by
  obtain ⟨setting, hrel⟩ := h.request request
  have hev : EvalRecords fuel := eval_records fuel
  obtain ⟨r', hend⟩ := run_records hev (compare_records hev fuel) hrel (State.start s.store) h.store
  -- Whatever the reply, it changes the slots in the same way on both sides.
  have hslots : ∀ {reply cells}, s.Performs request reply cells (s.perform fuel request) →
      r.Leads s.store r' cells → (∃ reply', (recordKinship setting).Replies
        (recordKinship setting).env r' reply reply') →
      r.Leads s.store r' (s.perform fuel request).1.store ∧
        (s.perform fuel request).1.Recorded r' := by
    rintro reply cells hperforms hleads ⟨reply', hreply⟩
    rw [← hperforms.store] at hleads
    refine ⟨hleads, hleads.covers, fun {slot v} hv => ?_⟩
    have hupdated := request.updates_rel hreply
      (slots_rel (fun hu => (h.slots hu).mono hleads.le) setting) slot
    rw [hperforms.slots] at hv
    rw [hv] at hupdated
    generalize request.updates reply' s.slot? slot = held at hupdated
    cases hupdated with
    | some hvalue => exact hvalue.2
  cases hrun : (s.plan s.slot? request).run (eval fuel) fuel (State.start s.store) with
  | ok reply state =>
      rw [hrun] at hend
      exact ⟨r', hslots ((s.perform_runs fuel request).of_ok hrun) hend.1 hend.2⟩
  | error stop state =>
      rw [hrun] at hend
      refine ⟨r', hslots ((s.perform_runs fuel request).of_error hrun) hend
        ⟨stopped stop, .plain ?_⟩⟩
      cases stop <;> rfl

/-- The sessions that are reached by requests, under configurations that may change in between. -/
inductive Reached : Session → Prop
  | start (config : Config) (counting : Bool) : Reached (Session.start config counting)
  | perform {s : Session} (h : Reached s) (fuel : Nat) (r : Request) : Reached (s.perform fuel r).1
  | configure {s : Session} (h : Reached s) (config : Config) : Reached { s with config }

theorem recorded_start (config : Config) (counting : Bool) :
    (Session.start config counting).Recorded .empty := by
  refine ⟨⟨rfl, rfl, fun howns => howns.elim⟩, fun hv => ?_⟩
  simp [Session.start, slot?] at hv

/-- Whatever a session was asked, a ledger covers it. -/
theorem Reached.exists_ledger (h : s.Reached) : ∃ r, s.Recorded r := by
  induction h with
  | start config counting => exact ⟨.empty, recorded_start config counting⟩
  | perform _ fuel request ih =>
      obtain ⟨r, hr⟩ := ih
      obtain ⟨r', -, hr'⟩ := hr.perform fuel request
      exact ⟨r', hr'⟩
  | configure _ config ih =>
      obtain ⟨r, hr⟩ := ih
      exact ⟨r, hr.store, hr.slots⟩

end Session

end PolicyEval
