import PolicyEval.Proofs.Equality.Plain
import PolicyEval.Proofs.Equality.Tags

/-!
# Sessions side by side

Sessions with configurations of their own may work over one store, so that a value that was made
lazily by one of them can be compared with a value that was made eagerly by another one.  Each party
has tags and store cells of its own and leaves those of the others alone, so its account goes on to
hold while the others work.

Values of one party are compared as in a session that has the store to itself.  Values of two
parties have no part in common: comparing them never stops at identity, and goes through their parts
just as the plain comparison does.

* `Ledger.Apart` — parties with nothing in common.
* `comparePlainly_across` — comparing data of two parties is comparing them plainly.
* `Session.Abreast` — sessions over one store, each with its own configuration.
* `Session.Abreast.equates_of_plain` — the verdict of the plain comparison is the verdict.
-/

namespace PolicyEval

/-! ## Parties -/

/-- The parties have no tag and no store cell in common. -/
structure Ledger.Apart (r q : Ledger) : Prop where
  carrier : ∀ {tag object object'}, r.carrier tag = some object → q.carrier tag ≠ some object'
  owns : ∀ {address}, r.owns address → ¬q.owns address

namespace Ledger

variable {r r' q : Ledger} {store store' : Store}

theorem Apart.symm (h : r.Apart q) : q.Apart r :=
  ⟨fun hq hr => h.carrier hr hq, fun hq hr => h.owns hr hq⟩

/-- The ledger of a party that has not made what is new in the store. -/
def upTo (q : Ledger) (store : Store) : Ledger where
  next := max q.next store.nextTag
  carrier := q.carrier
  lt_next h := Nat.lt_of_lt_of_le (q.lt_next h) (Nat.le_max_left _ _)
  size := max q.size store.cells.size
  owns := q.owns
  lt_size h := Nat.lt_of_lt_of_le (q.lt_size h) (Nat.le_max_left _ _)

theorem le_upTo (q : Ledger) (store : Store) : q.Le (q.upTo store) :=
  ⟨⟨Nat.le_max_left _ _, fun _ _ => rfl⟩, Nat.le_max_left _ _, fun _ _ => Iff.rfl⟩

theorem Apart.upTo (h : r.Apart q) (store : Store) : (r.upTo store).Apart (q.upTo store) :=
  ⟨h.carrier, h.owns⟩

/-- Both parties work over the store, and they have nothing in common. -/
structure Share (r q : Ledger) (store : Store) : Prop where
  left : r.Covers store
  right : q.Covers store
  apart : r.Apart q

theorem Share.symm (h : r.Share q store) : q.Share r store := ⟨h.right, h.left, h.apart.symm⟩

/-- Store cells of one party are never taken by the other one. -/
theorem Share.not_owns (h : r.Share q store) (hle : r.Le r') {address : Nat}
    (howns : q.owns address) : ¬r'.owns address := by
  intro howns'
  have hlt : address < r.size := by
    rw [h.left.size, ← h.right.size]
    exact q.lt_size howns
  exact h.apart.owns ((hle.owns_iff address hlt).1 howns') howns

/-- Tags of one party are never taken by the other one. -/
theorem Share.carrier_ne (h : r.Share q store) (hle : r.Le r') {tag : Nat}
    {object object' : Value ⊕ Env} (hobject : q.carrier tag = some object) :
    r'.carrier tag ≠ some object' := by
  intro hobject'
  have hlt : tag < r.next := by
    rw [h.left.next, ← h.right.next]
    exact q.lt_next hobject
  rw [hle.register.carrier_eq tag hlt] at hobject'
  exact h.apart.carrier hobject' hobject

/-- What one party does is nothing to the other one. -/
theorem Share.kept_eq (h : r.Share q store) (hleads : r.Leads store r' store') {address : Nat}
    (howns : q.owns address) : store'.kept? address = store.kept? address :=
  hleads.foreign (h.not_owns hleads.le howns)

theorem Share.nextTag_le (h : r.Share q store) (hleads : r.Leads store r' store') :
    store.nextTag ≤ store'.nextTag := by
  rw [← h.left.next, ← hleads.covers.next]
  exact hleads.le.register.next_le

theorem Share.size_le (h : r.Share q store) (hleads : r.Leads store r' store') :
    store.cells.size ≤ store'.cells.size := by
  rw [← h.left.size, ← hleads.covers.size]
  exact hleads.le.size_le

/-- After what one party does both still work over the store. -/
theorem Share.step (h : r.Share q store) (hleads : r.Leads store r' store') :
    r'.Share (q.upTo store') store' := by
  refine ⟨hleads.covers, ⟨?_, ?_, fun howns hv => ?_⟩, fun hobject' hobject =>
    h.carrier_ne hleads.le hobject hobject', fun howns' howns => h.not_owns hleads.le howns howns'⟩
  · exact Nat.max_eq_right (h.right.next ▸ h.nextTag_le hleads)
  · exact Nat.max_eq_right (h.right.size ▸ h.size_le hleads)
  · rw [h.kept_eq hleads howns] at hv
    exact (h.right.kept howns hv).mono (q.le_upTo store')

end Ledger

/-! ## Comparing data of two parties -/

/-- The left side of the comparison is recorded by one party, and the right side by the other. -/
def Comparison.Across (r q : Ledger) : Comparison → Prop
  | .values a b => a.Recorded r ∧ b.Recorded q
  | .tails x y => x.Recorded r ∧ y.Recorded q
  | .envs a b => a.Recorded r ∧ b.Recorded q

/-- What the meeting leaves to be compared is recorded, on the left by one party and on the right by
the other. -/
def Meeting.Across (r q : Ledger) : Meeting → Prop
  | .equal | .unequal => True
  | .envs a b => (Comparison.envs a b).Across r q
  | .parts x y next => x.Recorded r ∧ y.Recorded q ∧ next.Across r q

section

variable {r r' q q' : Ledger} {s s' : State}

theorem Comparison.Across.mono (hr : r.Le r') (hq : q.Le q') {c : Comparison}
    (h : c.Across r q) : c.Across r' q' := by
  cases c with
  | values | tails | envs => exact ⟨h.1.mono hr, h.2.mono hq⟩

theorem Value.meet_across {a b : Value} (ha : a.Recorded r) (hb : b.Recorded q) :
    (a.meet b).Across r q := by
  unfold Value.meet
  split
  · split <;> trivial
  · split <;> trivial
  · split <;> trivial
  · -- Closures are compared by their environments if they are made of one function.
    simp only [Value.Recorded] at ha hb
    split
    · exact ⟨ha.2, hb.2⟩
    · trivial
  · trivial
  · simp only [Value.Recorded] at ha hb
    exact ⟨ha.2.1, hb.2.1, ha.2.2, hb.2.2⟩
  · trivial

theorem Env.meet_across {a b : Env} (ha : a.Recorded r) (hb : b.Recorded q) :
    (a.meet b).Across r q := by
  unfold Env.meet
  split
  · trivial
  · simp only [Env.Recorded] at ha hb
    split
    · exact ⟨ha.2.1, hb.2.1, ha.2.2, hb.2.2⟩
    · trivial
  · trivial

/-- Values of two parties are not one and the same. -/
theorem Ledger.Apart.identical_eq_false (h : r.Apart q) {a b : Value} (ha : a.Recorded r)
    (hb : b.Recorded q) : a.identical b = false := by
  rw [Bool.eq_false_iff]
  intro hidentical
  cases a with
  | closure tag =>
      cases b with
      | closure tag' =>
          simp only [Value.Recorded] at ha hb
          simp only [Value.identical, Bool.and_eq_true, decide_eq_true_eq] at hidentical
          exact h.carrier ha.1 (hidentical.2 ▸ hb.1)
      | _ => cases hidentical
  | cons tag =>
      cases b with
      | cons tag' =>
          simp only [Value.Recorded] at ha hb
          simp only [Value.identical, decide_eq_true_eq] at hidentical
          exact h.carrier ha.1 (hidentical ▸ hb.1)
      | _ => cases hidentical
  | _ => cases hidentical

/-- Environments of two parties that are one and the same are empty. -/
theorem Ledger.Apart.meet_of_same (h : r.Apart q) {a b : Env} (ha : a.Recorded r)
    (hb : b.Recorded q) (hsame : a.same b = true) : a.meet b = .equal := by
  cases a with
  | empty =>
      cases b with
      | empty => rfl
      | frame => cases hsame
  | frame tag =>
      cases b with
      | empty => cases hsame
      | frame tag' =>
          simp only [Env.Recorded] at ha hb
          simp only [Env.same, beq_iff_eq] at hsame
          exact absurd (hsame ▸ hb.1) (h.carrier ha.1)

theorem forceTail_records {n : Nat} (hn : EvalRecords n) {x : Thunk} (hx : x.Recorded r) :
    Records r (fun r' v => v.Recorded r') (forceTail (eval n) x) := by
  refine .bind (force_records hn hx) fun r' v _ hv => ?_
  cases htail : asTail v with
  | ok w => exact .pure ((asTail_eq_ok.1 htail).2 ▸ hv)
  | error cause => exact .throw _

/-- A result of the first party. -/
theorem Ledger.Share.left_of_ok (h : r.Share q s.store) {α : Type} {post : Ledger → α → Prop}
    {body : Eval α} (hbody : Records r post body) {a : α} (hrun : body s = .ok a s') :
    ∃ r' q', r.Le r' ∧ q.Le q' ∧ r'.Share q' s'.store ∧ post r' a := by
  obtain ⟨r', hend⟩ := hbody s h.left
  rw [hrun] at hend
  exact ⟨r', _, hend.1.le, q.le_upTo _, h.step hend.1, hend.2⟩

/-- A result of the second party. -/
theorem Ledger.Share.right_of_ok (h : r.Share q s.store) {α : Type} {post : Ledger → α → Prop}
    {body : Eval α} (hbody : Records q post body) {a : α} (hrun : body s = .ok a s') :
    ∃ r' q', r.Le r' ∧ q.Le q' ∧ r'.Share q' s'.store ∧ post q' a := by
  obtain ⟨q', r', hq, hr, hshare, ha⟩ := h.symm.left_of_ok hbody hrun
  exact ⟨r', q', hr, hq, hshare.symm, ha⟩

end

/-- After a verdict on the first of several comparisons the others are made if it found no
difference. -/
def afterVerdict (n fuel : Nat) (todo : List Comparison) (t : Bool) (s : State) :
    EStateM.Result Stop State Bool :=
  if t then compareAll (eval n) fuel todo s else .ok false s

/-- What is compared plainly with this much fuel is compared in the same way, in a number of
comparisons, if its two sides belong to two parties. -/
def PlainAcross (n m : Nat) : Prop :=
  ∀ {r q : Ledger} {s s' : State} {c : Comparison} {t : Bool}, r.Share q s.store →
    c.Across r q → comparePlainly (eval n) m c s = .ok t s' →
      (∃ r' q', r.Le r' ∧ q.Le q' ∧ r'.Share q' s'.store) ∧
        ∃ k, ∀ fuel todo, compareAll (eval n) (fuel + k) (c :: todo) s =
          afterVerdict n fuel todo t s'

section

variable {n m : Nat} {r q : Ledger} {s s' : State} {t : Bool}

theorem settle_across (hm : PlainAcross n m) {meeting : Meeting} (hs : r.Share q s.store)
    (hmeeting : meeting.Across r q) (hrun : meeting.settle (eval n) m s = .ok t s') :
    (∃ r' q', r.Le r' ∧ q.Le q' ∧ r'.Share q' s'.store) ∧
      ∃ k, ∀ fuel todo, meeting.proceed (eval n) (fuel + k) todo s =
        afterVerdict n fuel todo t s' := by
  cases meeting with
  | equal =>
      cases hrun
      exact ⟨⟨r, q, .refl r, .refl q, hs⟩, 0, fun _ _ => rfl⟩
  | unequal =>
      cases hrun
      exact ⟨⟨r, q, .refl r, .refl q, hs⟩, 0, fun _ _ => rfl⟩
  | envs a b => exact hm hs hmeeting hrun
  | parts x y next =>
      obtain ⟨hx, hy, hnext⟩ := hmeeting
      obtain ⟨v, s₁, w, s₂, t₁, s₃, hv, hw, hvalues, hrest⟩ := Meeting.settle_parts_eq_ok hrun
      have hev : EvalRecords n := eval_records n
      obtain ⟨r₁, q₁, hr₁, hq₁, hs₁, hv'⟩ := hs.left_of_ok (force_records hev hx) hv
      obtain ⟨r₂, q₂, hr₂, hq₂, hs₂, hw'⟩ := hs₁.right_of_ok (force_records hev (hy.mono hq₁)) hw
      obtain ⟨⟨r₃, q₃, hr₃, hq₃, hs₃⟩, k, hk⟩ :=
        hm (c := .values v w) hs₂ ⟨hv'.mono hr₂, hw'⟩ hvalues
      have hr := (hr₁.trans hr₂).trans hr₃
      have hq := (hq₁.trans hq₂).trans hq₃
      have hproceed : ∀ fuel todo, (Meeting.parts x y next).proceed (eval n) fuel todo s =
          compareAll (eval n) fuel (.values v w :: next :: todo) s₂ := by
        intro fuel todo
        simp only [Meeting.proceed]
        rw [Eval.bind_of_ok hv, Eval.bind_of_ok hw]
      -- The second parts are compared only if the first ones are equal.
      rcases hrest with ⟨rfl, hrest⟩ | ⟨rfl, rfl, rfl⟩
      · obtain ⟨⟨r₄, q₄, hr₄, hq₄, hs₄⟩, k', hk'⟩ := hm hs₃ (hnext.mono hr hq) hrest
        refine ⟨⟨r₄, q₄, hr.trans hr₄, hq.trans hq₄, hs₄⟩, k' + k, fun fuel todo => ?_⟩
        rw [hproceed, ← Nat.add_assoc]
        exact (hk _ _).trans (hk' _ _)
      · refine ⟨⟨r₃, q₃, hr, hq, hs₃⟩, k, fun fuel todo => ?_⟩
        rw [hproceed]
        exact hk _ _

/-- Comparing data of two parties is comparing them plainly. -/
theorem comparePlainly_across (n m : Nat) : PlainAcross n m := by
  induction m with
  | zero =>
      intro r q s s' c t hs hc hrun
      cases hrun
  | succ m ih =>
      intro r q s s' c t hs hc hrun
      cases c with
      | values a b =>
          rw [comparePlainly_values] at hrun
          obtain ⟨hafter, k, hk⟩ := settle_across ih hs (Value.meet_across hc.1 hc.2) hrun
          refine ⟨hafter, k + 1, fun fuel todo => ?_⟩
          -- The shortcut is not taken, whatever the two values are.
          rw [← Nat.add_assoc, compareAll_values, hs.apart.identical_eq_false hc.1 hc.2]
          exact hk fuel todo
      | envs a b =>
          rw [comparePlainly_envs] at hrun
          obtain ⟨hafter, k, hk⟩ := settle_across ih hs (Env.meet_across hc.1 hc.2) hrun
          refine ⟨hafter, k + 1, fun fuel todo => ?_⟩
          rw [← Nat.add_assoc, compareAll_envs]
          split
          · -- Two empty environments: there is nothing to compare in either way.
            next hsame =>
              rw [hs.apart.meet_of_same hc.1 hc.2 hsame] at hk
              exact hk fuel todo
          · exact hk fuel todo
      | tails x y =>
          simp only [comparePlainly] at hrun
          obtain ⟨v, s₁, hv, hrun⟩ := Eval.bind_eq_ok.1 hrun
          obtain ⟨w, s₂, hw, hrun⟩ := Eval.bind_eq_ok.1 hrun
          have hev : EvalRecords n := eval_records n
          obtain ⟨r₁, q₁, hr₁, hq₁, hs₁, hv'⟩ := hs.left_of_ok (forceTail_records hev hc.1) hv
          obtain ⟨r₂, q₂, hr₂, hq₂, hs₂, hw'⟩ :=
            hs₁.right_of_ok (forceTail_records hev (hc.2.mono hq₁)) hw
          obtain ⟨⟨r₃, q₃, hr₃, hq₃, hs₃⟩, k, hk⟩ :=
            ih (c := .values v w) hs₂ ⟨hv'.mono hr₂, hw'⟩ hrun
          refine ⟨⟨r₃, q₃, (hr₁.trans hr₂).trans hr₃, (hq₁.trans hq₂).trans hq₃, hs₃⟩, k + 1,
            fun fuel todo => ?_⟩
          rw [← Nat.add_assoc, compareAll_tails, Eval.bind_of_ok hv, Eval.bind_of_ok hw]
          exact hk fuel todo

/-- Values of two parties are equated if they are equated plainly. -/
theorem Ledger.Share.equates_of_plain {store : Store} (h : r.Share q store) {a b : Value}
    (ha : a.Recorded r) (hb : b.Recorded q) (hplain : store.EquatesPlainly a b t) :
    store.Equates a b t := by
  obtain ⟨n, m, hresult⟩ := hplain
  obtain ⟨s', hrun⟩ := Eval.report_result_eq_ok.1 hresult
  obtain ⟨-, k, hk⟩ := comparePlainly_across n m (s := State.start store) (c := .values a b) h
    ⟨ha, hb⟩ hrun
  have hequal : compareAll (eval n) (1 + k) [.values a b] (State.start store) = .ok t s' := by
    refine (hk 1 []).trans ?_
    cases t <;> rfl
  refine ⟨max n (1 + k), fun fuel hfuel => Eval.report_result_eq_ok.2 ⟨s', ?_⟩⟩
  have hextends := compareAll_extends
    (fun setting ρ e => eval_extends (show n ≤ fuel by omega) setting ρ e)
    (show 1 + k ≤ fuel by omega) [.values a b] (State.start store)
  rw [hequal] at hextends
  rcases hextends with ⟨s'', hstarved⟩ | hsame
  · cases hstarved
  · exact hsame

end

/-! ## The account of one party -/

open Classical in
/-- The matching without the store cells of other parties. -/
noncomputable def Matching.part (W : Matching) (r : Ledger) : Matching :=
  { W with cell := fun address => if r.owns address then W.cell address else none }

section

variable {P : Pairing} {W : Matching} {r : Ledger}

theorem Matching.part_cell_eq_some {address : Nat} {c : Nat × Suspension} :
    (W.part r).cell address = some c ↔ r.owns address ∧ W.cell address = some c := by
  simp [Matching.part]

theorem Matching.Uses.of_part {υ : Seed} (h : (W.part r).Uses υ) : W.Uses υ := by
  cases h with
  | object hv hmark => exact .object hv hmark
  | frame hρ hmark => exact .frame hρ hmark
  | cell hc hmark => exact .cell (Matching.part_cell_eq_some.1 hc).2 hmark

mutual
/-- Recorded data have no part in the store cells of other parties. -/
theorem Value.Mirrors.part {v w : Value} :
    v.Mirrors P W w → v.Recorded r → v.Mirrors P (W.part r) w
  | .atom h, _ => .atom h
  | .closure hobject henv, hv => by
      simp only [Value.Recorded] at hv
      exact .closure hobject (henv.part hv.2)
  | .cons hobject hhead htail, hv => by
      simp only [Value.Recorded] at hv
      exact .cons hobject (hhead.part hv.2.1) (htail.part hv.2.2)

theorem Thunk.Mirrors.part {x y : Thunk} :
    x.Mirrors P W y → x.Recorded r → x.Mirrors P (W.part r) y
  | .ready h, hx => by
      simp only [Thunk.Recorded] at hx
      exact .ready (h.part hx)
  | .byName henv, hx => by
      simp only [Thunk.Recorded, Suspension.Recorded] at hx
      exact .byName (henv.part hx)
  | .rerun hreruns henv, hx => by
      simp only [Thunk.Recorded, Suspension.Recorded] at hx
      exact .rerun hreruns (henv.part hx)
  | .byNeed hcell henv, hx => by
      simp only [Thunk.Recorded, Suspension.Recorded] at hx
      exact .byNeed (Matching.part_cell_eq_some.2 ⟨hx.1, hcell⟩) (henv.part hx.2)

theorem Env.Mirrors.part {ρ ρ' : Env} :
    ρ.Mirrors P W ρ' → ρ.Recorded r → ρ.Mirrors P (W.part r) ρ'
  | .empty, _ => .empty
  | .frame hframe hbound hrest, hρ => by
      simp only [Env.Recorded] at hρ
      exact .frame hframe (hbound.part hρ.2.1) (hrest.part hρ.2.2)
end

theorem Matching.Placed.part {X : Seed → Prop} {store : Store} (h : W.Placed P X store)
    (hr : r.Covers store) : (W.part r).Placed P X store where
  tracks := {
    object_lt := h.tracks.object_lt
    frame_lt := h.tracks.frame_lt
    cell_lt := fun hc => h.tracks.cell_lt (part_cell_eq_some.1 hc).2
    kept := fun hc hv => by
      obtain ⟨howns, hcell⟩ := part_cell_eq_some.1 hc
      obtain ⟨v', hmirrors, hyields⟩ := h.tracks.kept hcell hv
      exact ⟨v', hmirrors.part (hr.kept howns hv), hyields⟩ }
  faithful := {
    object_inj := h.faithful.object_inj
    frame_inj := h.faithful.frame_inj
    cell_inj := fun hc hc' =>
      h.faithful.cell_inj (part_cell_eq_some.1 hc).2 (part_cell_eq_some.1 hc').2
    grounded := fun hc => h.faithful.grounded (part_cell_eq_some.1 hc).2 }
  ready hc hmark :=
    (h.ready (part_cell_eq_some.1 hc).2 hmark).imp_right fun hunused υ hυ => hunused υ hυ.of_part

/-- What other parties do is nothing to a matching that knows none of their store cells. -/
theorem Matching.Placed.of_foreign {X : Seed → Prop} {store store' : Store}
    (h : W.Placed P X store) (htags : store.nextTag ≤ store'.nextTag)
    (hsize : store.cells.size ≤ store'.cells.size)
    (hkept : ∀ {address c}, W.cell address = some c → store'.kept? address = store.kept? address) :
    W.Placed P X store' where
  tracks := {
    object_lt := fun hv => Nat.lt_of_lt_of_le (h.tracks.object_lt hv) htags
    frame_lt := fun hρ => Nat.lt_of_lt_of_le (h.tracks.frame_lt hρ) htags
    cell_lt := fun hc => Nat.lt_of_lt_of_le (h.tracks.cell_lt hc) hsize
    kept := fun hc hv => h.tracks.kept hc (hkept hc ▸ hv) }
  faithful := h.faithful
  ready hc hmark := by
    rw [hkept hc]
    exact h.ready hc hmark

end

/-! ## Sessions over one store -/

namespace Session

/-- The account of the session goes on to hold without the store cells of other parties. -/
theorem Accords.part {setting : Setting} {s : Session} {W : Matching} {k : Nat}
    {values : String → Option Value} (h : s.Accords setting W k values) {r : Ledger}
    (hr : s.Recorded r) : s.Accords setting (W.part r) k values := by
  refine ⟨h.config, h.limit, ⟨h.poised.zone, h.poised.placed.part hr.store,
    fun υ hahead hυ => h.poised.fresh υ hahead hυ.of_part⟩, fun slot => ?_⟩
  have hslot := h.slots slot
  generalize values slot = held at hslot ⊢
  cases hv : s.slot? slot with
  | none =>
      rw [hv] at hslot
      cases hslot
      exact .none
  | some v =>
      rw [hv] at hslot
      cases hslot with
      | some hmirrors => exact .some ⟨hmirrors.1.part (hr.slots hv), hmirrors.2⟩

/-- The account of the session goes on to hold while other parties work. -/
theorem Accords.of_foreign {setting : Setting} {s : Session} {W : Matching} {k : Nat}
    {values : String → Option Value} (h : s.Accords setting W k values) {store : Store}
    (htags : s.store.nextTag ≤ store.nextTag) (hsize : s.store.cells.size ≤ store.cells.size)
    (hkept : ∀ {address c}, W.cell address = some c →
      store.kept? address = s.store.kept? address) :
    ({ s with store } : Session).Accords setting W k values :=
  ⟨h.config, h.limit, ⟨h.poised.zone, h.poised.placed.of_foreign htags hsize hkept, h.poised.fresh⟩,
    h.slots⟩

section

variable {ι : Type} {ss : ι → Session} {ledgers : ι → Ledger}

/-- Each of the sessions has a ledger, and an account that knows no store cells of the others. -/
structure Partition (ss : ι → Session) (ledgers : ι → Ledger) : Prop where
  store : ∀ i j, (ss i).store = (ss j).store
  recorded : ∀ i, (ss i).Recorded (ledgers i)
  apart : ∀ {i j}, i ≠ j → (ledgers i).Apart (ledgers j)
  accords : ∀ i, ∃ setting W k values, (ss i).Accords setting W k values ∧
    ∀ {address c}, W.cell address = some c → (ledgers i).owns address

theorem Partition.share (h : Partition ss ledgers) {i j : ι} (hne : i ≠ j) :
    (ledgers i).Share (ledgers j) (ss i).store :=
  ⟨(h.recorded i).store, h.store i j ▸ (h.recorded j).store, h.apart hne⟩

variable [DecidableEq ι]

/-- One of the sessions over a store performs a request. -/
def turn (ss : ι → Session) (i : ι) (fuel : Nat) (request : Request) (j : ι) : Session :=
  let performed := ((ss i).perform fuel request).1
  if j = i then performed else { ss j with store := performed.store }

/-- The sessions that are reached over one store, each with its own slots and with a configuration
of its own that has no limit on the nesting, by requests that come to an end. -/
inductive Abreast : (ι → Session) → Prop
  | start {config : ι → Config} (counting : ι → Bool)
      (hlimit : ∀ i, (config i).setting.maxDepth = none) :
      Abreast fun i => Session.start (config i) (counting i)
  | perform {ss : ι → Session} (h : Abreast ss) {i : ι} {fuel : Nat} {r : Request}
      (hr : ∀ policy program into, r ≠ .evaluateUnder policy program into)
      (hended : ((ss i).perform fuel r).2 ≠ .outOfFuel) : Abreast (turn ss i fuel r)

theorem Partition.perform (h : Partition ss ledgers) {i : ι} {fuel : Nat} {request : Request}
    (hrequest : ∀ policy program into, request ≠ .evaluateUnder policy program into)
    (hended : ((ss i).perform fuel request).2 ≠ .outOfFuel) :
    ∃ ledgers', Partition (turn ss i fuel request) ledgers' := by
  -- The ledger of the session that performs the request grows; the others only take note.
  obtain ⟨r', hleads, hrecorded⟩ := (h.recorded i).perform fuel request
  let store := ((ss i).perform fuel request).1.store
  refine ⟨fun j => if j = i then r' else (ledgers j).upTo store, ?_, fun j => ?_,
    fun {j l} hne => ?_, fun j => ?_⟩
  · have hstore : ∀ j, (turn ss i fuel request j).store = store := by
      intro j
      by_cases hj : j = i <;> simp only [turn, hj, if_true, if_false, store]
    exact fun j l => (hstore j).trans (hstore l).symm
  · by_cases hj : j = i
    · simpa only [turn, hj, if_true] using hrecorded
    · simp only [turn, hj, if_false]
      exact ⟨((h.share (Ne.symm hj)).step hleads).right, fun hv =>
        ((h.recorded j).slots hv).mono ((ledgers j).le_upTo store)⟩
  · by_cases hj : j = i
    · subst hj
      simp only [if_true, Ne.symm hne, if_false]
      exact ((h.share hne).step hleads).apart
    · by_cases hl : l = i
      · subst hl
        simp only [if_true, hj, if_false]
        exact ((h.share (Ne.symm hj)).step hleads).apart.symm
      · simp only [hj, hl, if_false]
        exact (h.apart hne).upTo store
  · obtain ⟨setting, W, k, values, haccords, howns⟩ := h.accords j
    by_cases hj : j = i
    · subst hj
      -- The account says nothing about addresses, so what is not its own is struck out again.
      obtain ⟨W', reply, -, hafter⟩ := haccords.perform hrequest hended
      simp only [turn, if_true]
      exact ⟨setting, W'.part r', k + 1, _, hafter.1.part hrecorded,
        fun hc => (Matching.part_cell_eq_some.1 hc).1⟩
    · simp only [turn, hj, if_false]
      have hshare := h.share (Ne.symm hj)
      refine ⟨setting, W, k, values, haccords.of_foreign ?_ ?_ fun hc => ?_, howns⟩
      · rw [h.store j i]
        exact hshare.nextTag_le hleads
      · rw [h.store j i]
        exact hshare.size_le hleads
      · rw [h.store j i]
        exact hshare.kept_eq hleads (howns hc)

theorem Abreast.exists_partition (h : Abreast ss) : ∃ ledgers, Partition ss ledgers := by
  induction h with
  | @start config counting hlimit =>
      refine ⟨fun _ => .empty, fun _ _ => rfl, fun i => recorded_start _ _,
        fun _ => ⟨nofun, nofun⟩, fun i => ?_⟩
      exact ⟨(config i).setting, .empty, 0, fun _ => none, ⟨rfl, hlimit i,
        poised_start (config i).setting Store.empty, fun _ => .none⟩, nofun⟩
  | perform _ hr hended ih =>
      obtain ⟨ledgers, hpartition⟩ := ih
      exact hpartition.perform hr hended

/-- If the plain comparison of two values, of one session or of two, comes to a verdict, so does the
one that stops at identity. -/
theorem Abreast.equates_of_plain (h : Abreast ss) {i j : ι} {left right : String} {a b : Value}
    (ha : (ss i).slot? left = some a) (hb : (ss j).slot? right = some b) {t : Bool}
    (hplain : (ss i).store.EquatesPlainly a b t) : (ss i).store.Equates a b t := by
  obtain ⟨ledgers, hpartition⟩ := h.exists_partition
  by_cases hij : i = j
  · subst hij
    obtain ⟨setting, W, k, values, haccords, -⟩ := hpartition.accords i
    exact haccords.equates_of_plain ha hb hplain
  · exact (hpartition.share hij).equates_of_plain ((hpartition.recorded i).slots ha)
      ((hpartition.recorded j).slots hb) hplain

end

end Session

end PolicyEval
