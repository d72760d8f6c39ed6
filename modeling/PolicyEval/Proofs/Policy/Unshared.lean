import PolicyEval.Proofs.Eval.Cells
import PolicyEval.Proofs.Eval.Outcome
import PolicyEval.Proofs.Policy.Frugality

/-!
# Keeping what is used once

If arguments are evaluated at every use, it makes no difference whether the parts of lists are
evaluated once or at every use: the plans of such evaluations are frugal, so no kept result is ever
asked for.  Both evaluations go on in lockstep, with the same tags, at the same depth and with the
same counts; only one of them has cells in its store.

* `Value.Strips`, `Thunk.Strips`, `Env.Strips` — the same data without store cells.
* `Store.Takes` — what a computation does to the store cells that it owns.
* `run_strips` — frugal plans run in lockstep.
* `runProgram_strips` — so do programs.
-/

namespace PolicyEval

/-- Arguments are evaluated at every use, parts of lists once. -/
abbrev Setting.nameNeed (limit : Option Nat) : Setting := ⟨⟨.name, .need⟩, limit⟩

/-- Arguments and parts of lists are evaluated at every use. -/
abbrev Setting.nameName (limit : Option Nat) : Setting := ⟨⟨.name, .name⟩, limit⟩

/-! ## Data without store cells -/

/-- The same bindings, all of them evaluated at every use. -/
inductive Env.Strips (limit : Option Nat) : Env → Env → Prop
  | empty : Strips limit .empty .empty
  | frame {tag : Nat} {name : Name} {ρ ρ' rest rest' : Env} {e : Expr}
      (hbound : Strips limit ρ ρ') (hrest : Strips limit rest rest') :
      Strips limit (.frame tag name (.byName ⟨.nameNeed limit, ρ, e⟩) rest)
        (.frame tag name (.byName ⟨.nameName limit, ρ', e⟩) rest')

/-- The same expression, evaluated at every use. -/
inductive Thunk.Strips (limit : Option Nat) : Thunk → Thunk → Prop
  | byName {ρ ρ' : Env} {e : Expr} (henv : ρ.Strips limit ρ') :
      Strips limit (.byName ⟨.nameNeed limit, ρ, e⟩) (.byName ⟨.nameName limit, ρ', e⟩)
  | byNeed {address : Nat} {ρ ρ' : Env} {e : Expr} (henv : ρ.Strips limit ρ') :
      Strips limit (.byNeed address ⟨.nameNeed limit, ρ, e⟩) (.byName ⟨.nameName limit, ρ', e⟩)

/-- The same value with parts that are evaluated at every use. -/
inductive Value.Strips (limit : Option Nat) : Value → Value → Prop
  | atom {v : Value} (h : v.IsAtom) : Strips limit v v
  | closure {tag : Nat} {lambda : Lambda} {ρ ρ' : Env} (henv : ρ.Strips limit ρ') :
      Strips limit (.closure tag lambda ρ) (.closure tag lambda ρ')
  | cons {tag : Nat} {x x' y y' : Thunk} (hhead : x.Strips limit x')
      (htail : y.Strips limit y') : Strips limit (.cons tag x y) (.cons tag x' y')

/-- The same data without store cells, under the two settings. -/
def stripKinship (limit : Option Nat) : Kinship where
  World := Unit
  le _ _ := True
  left := .nameNeed limit
  right := .nameName limit
  strict := False
  value _ := Value.Strips limit
  thunk _ := Thunk.Strips limit
  env _ := Env.Strips limit
  todo _ := List.Forall₂ (Comparison.SameKind (Value.Strips limit) (Env.Strips limit))
  refl _ := trivial
  trans _ _ := trivial
  value_mono _ h := h
  thunk_mono _ h := h
  env_mono _ h := h
  todo_mono _ h := h
  atom h := .atom h
  empty := .empty
  value_layer h := by
    cases h with
    | atom h => exact .atom h
    | closure henv => exact .closure henv
    | cons hhead htail => exact .cons hhead htail
  env_layer h := by
    cases h with
    | empty => exact .empty
    | frame hbound hrest => exact .frame (.byName hbound) hrest
  ready h := nomatch h
  ready_strict h := h.elim
  todo_nil := .nil
  todo_cons hc h := .cons hc h

section

variable {limit : Option Nat}

theorem Env.Strips.clear {ρ ρ' : Env} (h : ρ.Strips limit ρ') : ρ.Clear := by
  induction h with
  | empty => trivial
  | frame _ _ _ ih => exact ⟨rfl, ih⟩

/-- Both sides agree on what is one and the same. -/
theorem identical_strips {c c' : Comparison}
    (h : c.SameKind (Value.Strips limit) (Env.Strips limit) c') : c.identical = c'.identical := by
  refine (h.mono ?_ ?_).identical_eq
  · intro v w hv
    cases hv with
    | atom hatom => exact .atom hatom
    | closure => exact .closure
    | cons => exact .cons
  · intro a b hab
    cases hab with
    | empty => exact .empty
    | frame => exact .frame

/-- New frames in front of the same bindings carry the same tags. -/
theorem extend_strips {ρ ρ' : Env} (henv : ρ.Strips limit ρ') {bs bs' : List (Name × Thunk)}
    (hbs : List.Forall₂ (fun b b' => b.1 = b'.1 ∧ b.2.Strips limit b'.2) bs bs')
    (hcells : ∀ b ∈ bs, b.2.cells = 0) {s t : Store} (htag : t.nextTag = s.nextTag) :
    (s.extend ρ bs).1.Strips limit (t.extend ρ' bs').1 := by
  induction hbs with
  | nil => exact henv
  | @cons b b' rest rest' hb hrest ih =>
      obtain ⟨name, x⟩ := b
      obtain ⟨name', x'⟩ := b'
      obtain ⟨rfl, hx⟩ := hb
      rw [List.forall_mem_cons] at hcells
      have hinner := ih hcells.2
      have hlength := hrest.length_eq
      cases hx with
      | byNeed => simp [Thunk.cells] at hcells
      | byName hbound =>
          simp only [Store.extend, Store.freshTag, Store.extend_nextTag, htag, hlength]
          exact .frame hbound hinner

end

/-! ## Store cells in use -/

namespace Store

/-- Different cells of the store that have no result yet. -/
structure Owns (s : Store) (L : Multiset Nat) : Prop where
  nodup : L.Nodup
  lt : ∀ c ∈ L, c < s.cells.size
  pending : ∀ c ∈ L, s.kept? c = none

/-- A computation that owns some cells changes no other cell that was there before, and ends with
cells of its own: some of those it had, and new ones. -/
structure Takes (s : Store) (L : Multiset Nat) (s' : Store) (L' : Multiset Nat) : Prop where
  size_le : s.cells.size ≤ s'.cells.size
  kept : ∀ c, c < s.cells.size → c ∉ L → s'.kept? c = s.kept? c
  owns : s'.Owns L'
  fresh : ∀ c ∈ L', c ∈ L ∨ s.cells.size ≤ c

variable {s s' s'' : Store} {L L' K M : Multiset Nat}

theorem Owns.zero (s : Store) : s.Owns 0 := ⟨Multiset.nodup_zero, by simp, by simp⟩

theorem Owns.mono (h : s.Owns L) (hle : L' ≤ L) : s.Owns L' :=
  ⟨Multiset.nodup_of_le hle h.nodup, fun c hc => h.lt c (Multiset.mem_of_le hle hc),
    fun c hc => h.pending c (Multiset.mem_of_le hle hc)⟩

theorem Takes.trans (h : s.Takes L s' L') (h' : s'.Takes L' s'' M) : s.Takes L s'' M where
  size_le := h.size_le.trans h'.size_le
  kept c hc hL := by
    have hL' : c ∉ L' := fun hmem => (h.fresh c hmem).elim hL (Nat.not_le.2 hc)
    rw [h'.kept c (hc.trans_le h.size_le) hL', h.kept c hc hL]
  owns := h'.owns
  fresh c hc := (h'.fresh c hc).elim (h.fresh c) fun hle => .inr (h.size_le.trans hle)

theorem Owns.of_cells (hcells : s'.cells = s.cells) (h : s.Owns L) : s'.Owns L where
  nodup := h.nodup
  lt c hc := hcells ▸ h.lt c hc
  pending c hc := by
    rw [kept?, hcells]
    exact h.pending c hc

/-- A computation that leaves the cells alone. -/
theorem Takes.of_cells (hcells : s'.cells = s.cells) (h : s.Owns L) : s.Takes L s' L :=
  ⟨hcells ▸ Nat.le_refl _, fun c _ _ => by rw [kept?, hcells, kept?], h.of_cells hcells,
    fun _ => .inl⟩

theorem Takes.mono (h : s.Takes L s' L') (hle : M ≤ L') : s.Takes L s' M :=
  ⟨h.size_le, h.kept, h.owns.mono hle, fun c hc => h.fresh c (Multiset.mem_of_le hle hc)⟩

/-- What a computation does not use stays as it is. -/
theorem Takes.frame (h : s.Takes K s' M) (hs : s.Owns L) (hle : K + L' ≤ L) :
    s.Takes L s' (M + L') := by
  have hsplit := hs.mono hle
  have hnodup := Multiset.nodup_add.1 hsplit.nodup
  have hapart : ∀ c ∈ L', c ∉ K := fun c hc hK =>
    Multiset.disjoint_left.1 hnodup.2.2 hK hc
  have hlt : ∀ c ∈ L', c < s.cells.size := fun c hc => hsplit.lt c (Multiset.mem_add.2 (.inr hc))
  refine ⟨h.size_le, fun c hc hL => h.kept c hc fun hK => hL ?_, ⟨?_, ?_, ?_⟩, ?_⟩
  · exact Multiset.mem_of_le hle (Multiset.mem_add.2 (.inl hK))
  · refine Multiset.nodup_add.2 ⟨h.owns.nodup, hnodup.2.1, Multiset.disjoint_left.2 ?_⟩
    intro c hM hc
    exact (h.fresh c hM).elim (hapart c hc) (Nat.not_le.2 (hlt c hc))
  · intro c hc
    rcases Multiset.mem_add.1 hc with hM | hc
    · exact h.owns.lt c hM
    · exact (hlt c hc).trans_le h.size_le
  · intro c hc
    rcases Multiset.mem_add.1 hc with hM | hc
    · exact h.owns.pending c hM
    · rw [h.kept c (hlt c hc) (hapart c hc)]
      exact hsplit.pending c (Multiset.mem_add.2 (.inr hc))
  · intro c hc
    rcases Multiset.mem_add.1 hc with hM | hc
    · exact (h.fresh c hM).imp_left fun hK =>
        Multiset.mem_of_le hle (Multiset.mem_add.2 (.inl hK))
    · exact .inl (Multiset.mem_of_le hle (Multiset.mem_add.2 (.inr hc)))

/-- A new cell belongs to the computation that asked for it. -/
theorem takes_allocate (s : Store) : s.Takes 0 s.allocate.2 {s.cells.size} where
  size_le := by simp
  kept c _ _ := kept?_allocate s c
  owns :=
    ⟨Multiset.nodup_singleton _, by simp, by
      simp only [Multiset.mem_singleton, forall_eq, kept?_allocate]
      rw [kept?, Array.getElem?_eq_none (Nat.le_refl _)]
      rfl⟩
  fresh c hc := .inr (Multiset.mem_singleton.1 hc).ge

/-- Keeping a result in a cell that was not used since is a matter of that cell alone. -/
theorem Takes.keep {address : Nat} (h : s.Takes 0 s' M) (haddress : address < s.cells.size)
    (v : Value) : s.Takes {address} (s'.keep address v) M := by
  have hother : ∀ c ∈ M, c ≠ address := by
    rintro c hc rfl
    exact (h.fresh c hc).elim (Multiset.notMem_zero c) (Nat.not_le.2 haddress)
  have hkeep := kept?_keep (haddress.trans_le h.size_le) v
  refine ⟨by simpa using h.size_le, fun c hc hne => ?_, ⟨h.owns.nodup, ?_, ?_⟩, ?_⟩
  · rw [hkeep, if_neg (by simpa using hne), h.kept c hc (Multiset.notMem_zero c)]
  · simpa using h.owns.lt
  · intro c hc
    rw [hkeep, if_neg (hother c hc)]
    exact h.owns.pending c hc
  · exact fun c hc => (h.fresh c hc).imp_left fun h0 => (Multiset.notMem_zero c h0).elim

end Store

/-! ## Lockstep -/

/-- The state with other cells in its store. -/
def State.withCells (s : State) (cells : Array (Option Value)) : State :=
  { s with store := { s.store with cells } }

/-- New frames leave the cells alone. -/
theorem extend_withCells {s : State} {cells : Array (Option Value)} {ρ ρ' : Env}
    {bs bs' : List (Name × Thunk)} (h : bs'.length = bs.length) :
    State.withCells { s with store := (s.store.extend ρ bs).2 } cells =
      { s.withCells cells with store := ((s.withCells cells).store.extend ρ' bs').2 } := by
  simp only [State.withCells, Store.extend_snd, h]

section

variable {limit : Option Nat} {n m : Nat}

/-- Evaluations with this much fuel go on in lockstep. -/
def EvalStrips (limit : Option Nat) (n : Nat) : Prop :=
  ∀ {s s' : State} {ρ ρ' : Env} {e : Expr} {v : Value}, ρ.Strips limit ρ' →
    eval n (.nameNeed limit) ρ e s = .ok v s' → ∀ cells, ∃ w,
      eval n (.nameName limit) ρ' e (s.withCells cells) = .ok w (s'.withCells cells) ∧
        v.Strips limit w ∧ s.store.Takes 0 s'.store v.cells

/-- Comparisons with this much fuel go on in lockstep. -/
def CompareStrips (limit : Option Nat) (n m : Nat) : Prop :=
  ∀ {s s' : State} {todo todo' : List Comparison} {t : Bool},
    (stripKinship limit).todo () todo todo' → s.store.Owns (queueCells todo) →
      compareAll (eval n) m todo s = .ok t s' → ∀ cells,
        compareAll (eval n) m todo' (s.withCells cells) = .ok t (s'.withCells cells) ∧
          s.store.Takes (queueCells todo) s'.store 0

/-- One computation after another, where the second one takes what the first one left. -/
theorem bind_strips {β γ : Type} {s s₁ s' : State} {cells : Array (Option Value)}
    {L L₁ : Multiset Nat} {first : Eval γ} {next : γ → Eval β} {c : γ} {post : β → Prop}
    {left : Multiset Nat → Prop}
    (hfirst : first (s.withCells cells) = .ok c (s₁.withCells cells))
    (htakes : s.store.Takes L s₁.store L₁)
    (hnext : ∃ b L', next c (s₁.withCells cells) = .ok b (s'.withCells cells) ∧ post b ∧ left L' ∧
      s₁.store.Takes L₁ s'.store L') :
    ∃ b L', (first >>= next) (s.withCells cells) = .ok b (s'.withCells cells) ∧ post b ∧ left L' ∧
      s.store.Takes L s'.store L' := by
  obtain ⟨b, L', hright, hpost, hleft, htakes'⟩ := hnext
  exact ⟨b, L', Eval.bind_eq_ok.2 ⟨c, _, hfirst, hright⟩, hpost, hleft, htakes.trans htakes'⟩

theorem suspension_strips (hn : EvalStrips limit n) {s s' : State} {ρ ρ' : Env} {e : Expr}
    {v : Value} (henv : ρ.Strips limit ρ')
    (hrun : Suspension.run (eval n) ⟨.nameNeed limit, ρ, e⟩ s = .ok v s')
    (cells : Array (Option Value)) :
    ∃ w, Suspension.run (eval n) ⟨.nameName limit, ρ', e⟩ (s.withCells cells) =
        .ok w (s'.withCells cells) ∧
      v.Strips limit w ∧ s.store.Takes 0 s'.store v.cells :=
  hn (s := { s with counters := s.counters.countForced }) henv hrun cells

/-- Forcing a thunk that owns its cell never finds a kept result. -/
theorem force_strips (hn : EvalStrips limit n) {s s' : State} {x x' : Thunk} {v : Value}
    (hx : x.Strips limit x') (hs : s.store.Owns x.cells)
    (hrun : force (eval n) x s = .ok v s') (cells : Array (Option Value)) :
    ∃ w, force (eval n) x' (s.withCells cells) = .ok w (s'.withCells cells) ∧
      v.Strips limit w ∧ s.store.Takes x.cells s'.store v.cells := by
  cases hx with
  | byName henv => exact suspension_strips hn henv hrun cells
  | @byNeed address ρ ρ' e henv =>
      have hmem : address ∈ (Thunk.byNeed address ⟨.nameNeed limit, ρ, e⟩).cells := by
        simp [Thunk.cells]
      rw [Eval.force_of_pending (hs.pending address hmem)] at hrun
      obtain ⟨u, s₁, hu, hkeep⟩ := Eval.bind_eq_ok.1 hrun
      obtain ⟨w, hw, huw, htakes⟩ := suspension_strips hn henv hu cells
      have hlt := hs.lt address hmem
      -- The evaluation did not get at the cell, which still waits for its result.
      have hpending : s₁.store.kept? address = none := by
        rw [htakes.kept address hlt (Multiset.notMem_zero address), hs.pending address hmem]
      rw [Eval.keep_apply, hpending] at hkeep
      cases hkeep
      exact ⟨w, hw, huw, htakes.keep hlt _⟩

theorem delay_strips {axis : Policy → Discipline}
    (haxis : axis = Policy.args ∨ axis = Policy.lists) {s s' : State} {ρ ρ' : Env} {e : Expr}
    {x : Thunk} (henv : ρ.Strips limit ρ')
    (hrun : delay (eval n) (axis ⟨.name, .need⟩) (.nameNeed limit) ρ e s = .ok x s')
    (cells : Array (Option Value)) :
    ∃ x', delay (eval n) (axis ⟨.name, .name⟩) (.nameName limit) ρ' e (s.withCells cells) =
        .ok x' (s'.withCells cells) ∧
      x.Strips limit x' ∧ s.store.Takes 0 s'.store x.cells ∧
        (axis ⟨.name, .need⟩ = .name → x.cells = 0) := by
  rcases haxis with rfl | rfl
  · cases hrun
    exact ⟨_, rfl, .byName henv, .of_cells rfl (.zero _), fun _ => rfl⟩
  · cases hrun
    exact ⟨_, rfl, .byNeed henv, s.store.takes_allocate, nofun⟩

/-- A frugal plan that owns its cells runs in lockstep with what is related to it. -/
theorem run_strips (hn : EvalStrips limit n) (hm : CompareStrips limit n m) {α β : Type}
    {W : (stripKinship limit).World} {post : (stripKinship limit).World → α → β → Prop}
    {p : Plan α} {q : Plan β} (hrel : Plan.Related (stripKinship limit) post W p q)
    {left : Multiset Nat → α → Prop} {L : Multiset Nat} (hfrugal : p.Frugal left L)
    {s s' : State} {a : α} (hs : s.store.Owns L) (hrun : p.run (eval n) m s = .ok a s')
    (cells : Array (Option Value)) :
    ∃ b L', q.run (eval n) m (s.withCells cells) = .ok b (s'.withCells cells) ∧ post W a b ∧
      left L' a ∧ s.store.Takes L s'.store L' := by
  induction hrel generalizing L s with
  | fail => cases hrun
  | done hpost =>
      cases hfrugal with
      | done hleft =>
          cases hrun
          exact ⟨_, L, rfl, hpost, hleft, .of_cells rfl hs⟩
  | @count _ step _ _ _ ih =>
      cases hfrugal with
      | count hfrugal => exact ih hfrugal (s := { s with counters := step s.counters }) hs hrun
  | eval henv _ ih =>
      cases hfrugal with
      | eval hnext =>
          obtain ⟨v, s₁, hv, hrest⟩ := Eval.bind_eq_ok.1 hrun
          obtain ⟨w, hw, hvw, htakes⟩ := hn henv hv cells
          have hall := htakes.frame hs (zero_add L).le
          exact bind_strips hw hall (ih _ trivial v w hvw (hnext v) hall.owns hrest)
  | force hthunk _ ih =>
      cases hfrugal with
      | force hx hnext =>
          obtain ⟨v, s₁, hv, hrest⟩ := Eval.bind_eq_ok.1 hrun
          have hown := hs.mono ((Multiset.le_add_right _ _).trans hx)
          obtain ⟨w, hw, hvw, htakes⟩ := force_strips hn hthunk hown hv cells
          have hall := htakes.frame hs hx
          exact bind_strips hw hall (ih _ trivial v w hvw (hnext v) hall.owns hrest)
  | delay haxis henv _ ih =>
      cases hfrugal with
      | delay hnext =>
          obtain ⟨x, s₁, hx, hrest⟩ := Eval.bind_eq_ok.1 hrun
          obtain ⟨x', hx', hxx, htakes, hname⟩ := delay_strips haxis henv hx cells
          have hall := htakes.frame hs (zero_add L).le
          exact bind_strips hx' hall (ih _ trivial x x' hxx (hnext x hname) hall.owns hrest)
  -- New tags leave the cells alone, and both sides give the same ones.
  | cell hhead htail _ _ ih =>
      cases hfrugal with
      | cell hnext =>
          obtain ⟨tag, s₁, hfresh, hrest⟩ := Eval.bind_eq_ok.1 hrun
          cases hfresh
          have hall : s.store.Takes L s.store.freshTag.2 L := .of_cells rfl hs
          exact bind_strips rfl hall
            (ih _ trivial _ _ (.cons hhead htail) (hnext _) hall.owns hrest)
  | closure henv _ ih =>
      cases hfrugal with
      | closure hnext =>
          obtain ⟨tag, s₁, hfresh, hrest⟩ := Eval.bind_eq_ok.1 hrun
          cases hfresh
          have hall : s.store.Takes L s.store.freshTag.2 L := .of_cells rfl hs
          exact bind_strips rfl hall (ih _ trivial _ _ (.closure henv) (hnext _) hall.owns hrest)
  | @extend W ρ ρ' bs bs' next next' henv hbs _ ih =>
      cases hfrugal with
      | extend hcells hnext =>
          obtain ⟨inner, s₁, hextend, hrest⟩ := Eval.bind_eq_ok.1 hrun
          cases hextend
          have hinner := extend_strips henv hbs hcells (s := s.store)
            (t := (s.withCells cells).store) rfl
          have hall := Store.Takes.of_cells (s.store.extend_cells ρ bs) hs
          refine bind_strips ?_ hall (ih _ trivial _ _ hinner (hnext _) hall.owns hrest)
          rw [extend_withCells hbs.length_eq.symm]
          rfl
  | compare htodo _ ih =>
      cases hfrugal with
      | compare hL hnext =>
          obtain ⟨t, s₁, ht, hrest⟩ := Eval.bind_eq_ok.1 hrun
          have hown := hs.mono ((Multiset.le_add_right _ _).trans hL)
          obtain ⟨ht', htakes⟩ := hm htodo hown ht cells
          have hall := htakes.frame hs hL
          rw [zero_add] at hall
          exact bind_strips ht' hall (ih _ trivial t (hnext t) hall.owns hrest)

theorem clear_of_strips {todo todo' : List Comparison}
    (h : (stripKinship limit).todo () todo todo') : ∀ c ∈ todo, c.Clear := by
  induction h with
  | nil => exact nofun
  | cons hc _ ih =>
      refine List.forall_mem_cons.2 ⟨?_, ih⟩
      cases hc with
      | values | tails => trivial
      | envs ha hb => exact ⟨ha.clear, hb.clear⟩

/-- Comparisons go on in lockstep, whatever their fuel. -/
theorem compare_strips (hn : EvalStrips limit n) (m : Nat) : CompareStrips limit n m := by
  induction m with
  | zero =>
      intro s s' todo todo' t htodo hs hrun
      cases hrun
  | succ m ih =>
      intro s s' todo todo' t htodo hs hrun cells
      rw [compareAll_succ] at hrun ⊢
      have hrel : Plan.Related (stripKinship limit) (fun _ => Eq) ()
          (stepPlan Comparison.identical todo) (stepPlan Comparison.identical todo') := by
        cases htodo with
        | nil => exact .done rfl
        | cons hc hrest =>
            exact Kinship.step_related (K := stripKinship limit) hrest hc
              (.inl (identical_strips hc))
      have hfrugal := step_frugal Comparison.identical (clear_of_strips htodo)
      obtain ⟨t', L', hright, rfl, -, htakes⟩ := run_strips hn ih hrel hfrugal hs hrun cells
      exact ⟨hright, htakes.mono (Multiset.zero_le L')⟩

/-- Evaluations go on in lockstep, whatever their fuel. -/
theorem eval_strips (n : Nat) : EvalStrips limit n := by
  induction n with
  | zero =>
      intro s s' ρ ρ' e v henv hrun
      cases hrun
  | succ n ih =>
      intro s s' ρ ρ' e v henv hrun cells
      rw [eval_succ, Eval.within_eq_ok] at hrun
      obtain ⟨hroom, s₁, hbody, rfl⟩ := hrun
      have hrel : Plan.Related (stripKinship limit) (stripKinship limit).value ()
          (.count Counters.countExpression (e.plan (.nameNeed limit) ρ))
          (.count Counters.countExpression (e.plan (.nameName limit) ρ')) :=
        .count (Kinship.plan_related (K := stripKinship limit) henv e)
      have hfrugal : (Plan.count Counters.countExpression
          (e.plan (.nameNeed limit) ρ)).Frugal Value.Covered 0 :=
        .count (plan_frugal rfl henv.clear e)
      obtain ⟨w, L', hright, hvw, hcells, htakes⟩ := run_strips ih (compare_strips ih n) hrel
        hfrugal (s := { s with depth := s.depth.deeper }) (.zero _) hbody cells
      refine ⟨w, ?_, hvw, htakes.mono hcells⟩
      rw [eval_succ, Eval.within_eq_ok]
      exact ⟨hroom, _, hright, rfl⟩

/-- A program that succeeds when parts of lists are evaluated once succeeds, with the same text and
within the same limit, when they are evaluated at every use, if arguments are evaluated at every
use. -/
theorem runProgram_strips {fuel printDepth : Nat} {root : Expr} {store : Store} {text : String}
    {s' : State}
    (hrun : runProgram fuel ⟨.nameNeed limit, printDepth⟩ root (State.start store) = .ok text s') :
    ∃ s'', runProgram fuel ⟨.nameName limit, printDepth⟩ root (State.start store) =
      .ok text s'' := by
  rw [runProgram_eq_run] at hrun
  have hrel := (stripKinship limit).program_related (W := ()) printDepth root
  have hfrugal := program_frugal ⟨.nameNeed limit, printDepth⟩ root
  obtain ⟨text', L', hright, rfl, -⟩ := run_strips (eval_strips fuel)
    (compare_strips (eval_strips fuel) fuel) hrel hfrugal (.zero _) hrun store.cells
  refine ⟨s'.withCells store.cells, ?_⟩
  rw [runProgram_eq_run]
  exact hright

end

end PolicyEval
