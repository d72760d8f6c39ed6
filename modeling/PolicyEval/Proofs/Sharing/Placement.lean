import PolicyEval.Proofs.Sharing.Mirror
import PolicyEval.Proofs.Sharing.Zone

/-!
# Every seed is used once

A store can follow the account if no seed is used twice: then different tags stand for different
objects, and a thunk that was not evaluated yet finds the seeds below its mark unused.  Here is what
has to hold of a matching and a store for this, and how it is kept while requests are met.

* `Matching.Uses` — the seeds that mark something.
* `Matching.Faithful` — what is different by the account has different tags and addresses.
* `Matching.Grows` — new marks are taken from a zone only.
* `Matching.Placed` — thunks with marks in the zone are evaluated already or have unused seeds.
* `Matching.Placed.widen` — what holds in the part of a zone that was used holds in all of it again.
-/

namespace PolicyEval

/-- The seed that marks an object. -/
def Value.mark : Value → Option Seed
  | .closure tag _ _ | .cons tag _ _ => some (Seed.ofCode tag)
  | _ => none

/-- The seed that marks the innermost frame. -/
def Env.mark : Env → Option Seed
  | .frame tag _ _ _ => some (Seed.ofCode tag)
  | .empty => none

namespace Matching

/-- The seed marks something that is matched. -/
inductive Uses (W : Matching) (υ : Seed) : Prop
  | object {tag : Nat} {v : Value} (h : W.object tag = some v) (hmark : v.mark = some υ)
  | frame {tag : Nat} {ρ : Env} (h : W.frame tag = some ρ) (hmark : ρ.mark = some υ)
  | cell {address mark : Nat} {s : Suspension} (h : W.cell address = some (mark, s))
      (hmark : Seed.ofCode mark = υ)

/-- Different tags and addresses stand for different things, and no thunk is evaluated in an
environment that has marks above its own. -/
structure Faithful (W : Matching) : Prop where
  object_inj : ∀ {tag tag' v}, W.object tag = some v → W.object tag' = some v → tag = tag'
  frame_inj : ∀ {tag tag' ρ}, W.frame tag = some ρ → W.frame tag' = some ρ → tag = tag'
  cell_inj : ∀ {address address' mark mark' s s'}, W.cell address = some (mark, s) →
    W.cell address' = some (mark', s') → Seed.ofCode mark = Seed.ofCode mark' → address = address'
  grounded : ∀ {address mark setting ρ e}, W.cell address = some (mark, ⟨setting, ρ, e⟩) →
    ρ.Within fun υ => ¬υ <+: Seed.ofCode mark

/-- The later matching knows more, and what is new has its mark in the set. -/
structure Grows (X : Seed → Prop) (W W' : Matching) : Prop where
  le : W.le W'
  object : ∀ {tag v}, W'.object tag = some v →
    W.object tag = some v ∨ ∃ υ, v.mark = some υ ∧ X υ
  frame : ∀ {tag ρ}, W'.frame tag = some ρ → W.frame tag = some ρ ∨ ∃ υ, ρ.mark = some υ ∧ X υ
  cell : ∀ {address mark s}, W'.cell address = some (mark, s) →
    W.cell address = some (mark, s) ∨ X (Seed.ofCode mark)

/-- The seeds ahead are unused. -/
def Fresh (W : Matching) (σ : Seed) (k : Nat) : Prop := ∀ υ, Seed.Ahead σ k υ → ¬W.Uses υ

/-- The matching agrees with the store and is faithful, and each thunk with its mark in the set was
evaluated or has no seed in use below its mark. -/
structure Placed (P : Pairing) (X : Seed → Prop) (W : Matching) (s : Store) : Prop where
  tracks : W.Tracks P s
  faithful : W.Faithful
  ready : ∀ {address mark q}, W.cell address = some (mark, q) → X (Seed.ofCode mark) →
    (∃ v, s.kept? address = some v) ∨
      ∀ υ, W.Uses υ → Seed.ofCode mark <+: υ → υ = Seed.ofCode mark

variable {P : Pairing} {X Y : Seed → Prop} {W W' W'' : Matching} {s s' : Store} {σ τ : Seed}
  {k : Nat}

/-! ## Growing -/

theorem Grows.refl : Grows X W W := ⟨.refl W, .inl, .inl, .inl⟩

theorem Grows.mono (h : Grows X W W') (hXY : ∀ υ, X υ → Y υ) : Grows Y W W' where
  le := h.le
  object hv := (h.object hv).imp_right fun ⟨υ, hmark, hυ⟩ => ⟨υ, hmark, hXY υ hυ⟩
  frame hρ := (h.frame hρ).imp_right fun ⟨υ, hmark, hυ⟩ => ⟨υ, hmark, hXY υ hυ⟩
  cell hc := (h.cell hc).imp_right (hXY _)

theorem Grows.trans (h : Grows X W W') (h' : Grows X W' W'') : Grows X W W'' where
  le := h.le.trans h'.le
  object hv := (h'.object hv).elim h.object .inr
  frame hρ := (h'.frame hρ).elim h.frame .inr
  cell hc := (h'.cell hc).elim h.cell .inr

theorem Grows.uses (h : Grows X W W') {υ : Seed} (hυ : W'.Uses υ) : W.Uses υ ∨ X υ := by
  cases hυ with
  | object hv hmark =>
      rcases h.object hv with hold | ⟨υ', hmark', hnew⟩
      · exact .inl (.object hold hmark)
      · rw [hmark] at hmark'
        cases hmark'
        exact .inr hnew
  | frame hρ hmark =>
      rcases h.frame hρ with hold | ⟨υ', hmark', hnew⟩
      · exact .inl (.frame hold hmark)
      · rw [hmark] at hmark'
        cases hmark'
        exact .inr hnew
  | cell hc hmark =>
      rcases h.cell hc with hold | hnew
      · exact .inl (.cell hold hmark)
      · exact .inr (hmark ▸ hnew)

/-! ## Following a request in its part of a zone -/

theorem Fresh.next (h : Fresh W σ k) : Fresh W σ (k + 1) := fun υ hυ => h υ hυ.of_succ

theorem Fresh.request (h : Fresh W σ k) : Fresh W (σ ++ [k]) 0 :=
  fun υ hυ => h υ (.of_below hυ.prefix_self)

/-- After a request was met in its part of the zone, the seeds of later ones are still unused. -/
theorem Fresh.after (h : Fresh W σ k) (hgrows : Grows (Seed.inner X σ k τ) W W') :
    Fresh W' σ (k + 1) := by
  intro υ hυ huses
  rcases hgrows.uses huses with hold | hnew
  · exact h υ hυ.of_succ hold
  · exact hnew.2.2 hυ

theorem Placed.mono (h : Placed P X W s) (hYX : ∀ υ, Y υ → X υ) : Placed P Y W s :=
  ⟨h.tracks, h.faithful, fun hcell hmark => h.ready hcell (hYX _ hmark)⟩

/-- What holds in the part of a zone that a request was met in holds in all of the zone, if the
thunks with marks above that part are evaluated. -/
theorem Placed.widen (hfresh : Fresh W σ k) (hgrows : Grows (Seed.inner X σ k τ) W W')
    (h : Placed P (Seed.inner X σ k τ) W' s)
    (habove : ∀ {address mark q}, W.cell address = some (mark, q) → X (Seed.ofCode mark) →
      Seed.ofCode mark <+: τ → ∃ v, s.kept? address = some v) :
    Placed P X W' s := by
  refine ⟨h.tracks, h.faithful, fun {address mark q} hcell hmark => ?_⟩
  rcases hgrows.cell hcell with hold | hnew
  · by_cases hpre : Seed.ofCode mark <+: τ
    · exact .inl (habove hold hmark hpre)
    · have hahead : ¬Seed.Ahead σ (k + 1) (Seed.ofCode mark) :=
        fun hahead => hfresh _ hahead.of_succ (.cell hold rfl)
      exact h.ready hcell ⟨hmark, hpre, hahead⟩
  · exact h.ready hcell hnew

/-- No thunk has its mark above a request of the plan. -/
theorem Placed.not_above (hzone : Seed.Zone X σ k) (hfresh : Fresh W σ k) {address mark : Nat}
    {q : Suspension} (hcell : W.cell address = some (mark, q)) (hmark : X (Seed.ofCode mark)) :
    ¬Seed.ofCode mark <+: σ ++ [k] := by
  intro hpre
  rcases Seed.prefix_request hpre with habove | heq
  · exact hzone.not_below hmark habove
  · exact hfresh _ (Seed.ahead_self σ k) (.cell hcell heq)

/-- A used seed of the zone belongs to the part in which a request is met. -/
theorem inner_of_uses (hzone : Seed.Zone X σ k) (hfresh : Fresh W σ k) {υ : Seed}
    (huses : W.Uses υ) (hυ : X υ) : Seed.inner X σ k (σ ++ [k]) υ := by
  refine ⟨hυ, fun hpre => ?_, fun hahead => hfresh υ hahead.of_succ huses⟩
  rcases Seed.prefix_request hpre with habove | rfl
  · exact hzone.not_below hυ habove
  · exact hfresh _ (Seed.ahead_self σ k) huses

/-! ## Making something new -/

theorem uses_withObject {tag : Nat} {v : Value} {υ : Seed} (h : (W.withObject tag v).Uses υ) :
    W.Uses υ ∨ v.mark = some υ := by
  cases h with
  | @object n u hu hmark =>
      by_cases heq : n = tag
      · subst heq
        rw [withObject_object_self] at hu
        cases hu
        exact .inr hmark
      · exact .inl (.object ((if_neg heq).symm.trans hu) hmark)
  | frame hρ hmark => exact .inl (.frame hρ hmark)
  | cell hc hmark => exact .inl (.cell hc hmark)

theorem uses_withFrame {tag : Nat} {ρ : Env} {υ : Seed} (h : (W.withFrame tag ρ).Uses υ) :
    W.Uses υ ∨ ρ.mark = some υ := by
  cases h with
  | object hv hmark => exact .inl (.object hv hmark)
  | @frame n u hu hmark =>
      by_cases heq : n = tag
      · subst heq
        rw [withFrame_frame_self] at hu
        cases hu
        exact .inr hmark
      · exact .inl (.frame ((if_neg heq).symm.trans hu) hmark)
  | cell hc hmark => exact .inl (.cell hc hmark)

theorem uses_withCell {address mark : Nat} {q : Suspension} {υ : Seed}
    (h : (W.withCell address (mark, q)).Uses υ) : W.Uses υ ∨ Seed.ofCode mark = υ := by
  cases h with
  | object hv hmark => exact .inl (.object hv hmark)
  | frame hρ hmark => exact .inl (.frame hρ hmark)
  | @cell n m r hr hmark =>
      by_cases heq : n = address
      · subst heq
        rw [withCell_cell_self] at hr
        cases hr
        exact .inr hmark
      · exact .inl (.cell ((if_neg heq).symm.trans hr) hmark)

/-- No thunk with its mark in the set has it above the seed. -/
def Clear (W : Matching) (X : Seed → Prop) (υ : Seed) : Prop :=
  ∀ {address mark q}, W.cell address = some (mark, q) → X (Seed.ofCode mark) →
    ¬Seed.ofCode mark <+: υ

/-- Giving a new place to a new thing keeps different places for different things. -/
theorem inj_update {β : Type} {f : Nat → Option β}
    (hf : ∀ {i j b}, f i = some b → f j = some b → i = j) {t : Nat} {b : β}
    (hnew : ∀ n, f n ≠ some b) {i j : Nat} {c : β} (hi : (if i = t then some b else f i) = some c)
    (hj : (if j = t then some b else f j) = some c) : i = j := by
  by_cases heq : i = t
  · by_cases heq' : j = t
    · rw [heq, heq']
    · rw [if_pos heq] at hi
      rw [if_neg heq'] at hj
      exact absurd (hj.trans hi.symm) (hnew j)
  · by_cases heq' : j = t
    · rw [if_neg heq] at hi
      rw [if_pos heq'] at hj
      exact absurd (hi.trans hj.symm) (hnew i)
    · rw [if_neg heq] at hi
      rw [if_neg heq'] at hj
      exact hf hi hj

/-- An unused seed may mark a new object. -/
theorem Placed.withObject (h : Placed P X W s) {v : Value} {υ : Seed} (hmark : v.mark = some υ)
    (hunused : ¬W.Uses υ) (hclear : W.Clear X υ) :
    Placed P X (W.withObject s.nextTag v) s.freshTag.2 where
  tracks := h.tracks.withObject v
  faithful :=
    { object_inj :=
        inj_update h.faithful.object_inj fun n hn => hunused (.object hn hmark)
      frame_inj := h.faithful.frame_inj
      cell_inj := h.faithful.cell_inj
      grounded := h.faithful.grounded }
  ready {address mark q} hcell hX := by
    refine (h.ready hcell hX).imp id fun hfree υ' huses hpre => ?_
    rcases uses_withObject huses with hold | hnew
    · exact hfree υ' hold hpre
    · rw [hmark] at hnew
      cases hnew
      exact absurd hpre (hclear hcell hX)

/-- An unused seed may mark a new frame. -/
theorem Placed.withFrame (h : Placed P X W s) {ρ : Env} {υ : Seed} (hmark : ρ.mark = some υ)
    (hunused : ¬W.Uses υ) (hclear : W.Clear X υ) :
    Placed P X (W.withFrame s.nextTag ρ) s.freshTag.2 where
  tracks := h.tracks.withFrame ρ
  faithful :=
    { object_inj := h.faithful.object_inj
      frame_inj := inj_update h.faithful.frame_inj fun n hn => hunused (.frame hn hmark)
      cell_inj := h.faithful.cell_inj
      grounded := h.faithful.grounded }
  ready {address mark q} hcell hX := by
    refine (h.ready hcell hX).imp id fun hfree υ' huses hpre => ?_
    rcases uses_withFrame huses with hold | hnew
    · exact hfree υ' hold hpre
    · rw [hmark] at hnew
      cases hnew
      exact absurd hpre (hclear hcell hX)

/-- An unused seed without used seeds below it may mark a new thunk, if its environment has no marks
above that seed. -/
theorem Placed.withCell (h : Placed P X W s) {υ : Seed} {ρ : Env}
    (hunused : ∀ υ', υ <+: υ' → ¬W.Uses υ') (hclear : W.Clear X υ)
    (hgrounded : ρ.Within fun υ' => ¬υ' <+: υ) (setting : Setting) (e : Expr) :
    Placed P X (W.withCell s.cells.size (υ.code, ⟨setting, ρ, e⟩)) s.allocate.2 where
  tracks := h.tracks.withCell _
  faithful :=
    { object_inj := h.faithful.object_inj
      frame_inj := h.faithful.frame_inj
      cell_inj := fun {address address' m m' q q'} hcell hcell' hsame => by
        -- No other cell has this mark, so it still tells cells apart.
        have hnew : ∀ {n r}, W.cell n = some r → Seed.ofCode r.1 ≠ Seed.ofCode υ.code :=
          fun {n r} hn heq => hunused υ List.prefix_rfl (.cell hn (heq.trans υ.ofCode_code))
        by_cases heq : address = s.cells.size
        · by_cases heq' : address' = s.cells.size
          · rw [heq, heq']
          · subst heq
            rw [withCell_cell_self] at hcell
            cases hcell
            exact absurd hsame.symm (hnew ((if_neg heq').symm.trans hcell'))
        · by_cases heq' : address' = s.cells.size
          · subst heq'
            rw [withCell_cell_self] at hcell'
            cases hcell'
            exact absurd hsame (hnew ((if_neg heq).symm.trans hcell))
          · exact h.faithful.cell_inj ((if_neg heq).symm.trans hcell)
              ((if_neg heq').symm.trans hcell') hsame
      grounded := fun {address m S ρ' e'} hcell => by
        by_cases heq : address = s.cells.size
        · subst heq
          rw [withCell_cell_self] at hcell
          cases hcell
          rw [Seed.ofCode_code]
          exact hgrounded
        · exact h.faithful.grounded ((if_neg heq).symm.trans hcell) }
  ready {address m q} hcell hX := by
    rw [Store.kept?_allocate]
    by_cases heq : address = s.cells.size
    · subst heq
      rw [withCell_cell_self] at hcell
      cases hcell
      refine .inr fun υ' huses hpre => ?_
      rcases uses_withCell huses with hold | hnew
      · rw [Seed.ofCode_code] at hpre
        exact absurd hold (hunused υ' hpre)
      · exact hnew.symm
    · have hcell' := (if_neg heq).symm.trans hcell
      refine (h.ready hcell' hX).imp id fun hfree υ' huses hpre => ?_
      rcases uses_withCell huses with hold | hnew
      · exact hfree υ' hold hpre
      · subst hnew
        rw [Seed.ofCode_code] at hpre
        exact absurd hpre (hclear hcell' hX)

theorem uses_withFrames {base : Nat} {ρ : Env} {bs : List (Name × Thunk)} {υ : Seed}
    (h : (W.withFrames τ base ρ bs).Uses υ) : W.Uses υ ∨ ∃ i, i < bs.length ∧ υ = τ ++ [i] := by
  induction bs with
  | nil => exact .inl h
  | cons b rest ih =>
      rcases uses_withFrame h with hinner | hmark
      · rcases ih hinner with hold | ⟨i, hi, heq⟩
        · exact .inl hold
        · exact .inr ⟨i, Nat.lt_succ_of_lt hi, heq⟩
      · refine .inr ⟨rest.length, Nat.lt_succ_self _, ?_⟩
        simpa [Env.framed, Env.mark, eq_comm] using hmark

/-- Unused seeds may mark the frames of new bindings. -/
theorem Placed.withFrames (h : Placed P X W s) (hunused : ∀ i, ¬W.Uses (τ ++ [i]))
    (hclear : ∀ i, W.Clear X (τ ++ [i])) (ρ ρ' : Env) {bs bs' : List (Name × Thunk)}
    (hlength : bs.length = bs'.length) :
    Placed P X (W.withFrames τ s.nextTag ρ' bs') (s.extend ρ bs).2 := by
  -- Frames are made from the inside out, each with the next tag and the next mark.
  induction bs' generalizing bs with
  | nil =>
      cases bs with
      | nil => exact h
      | cons => cases hlength
  | cons b' rest' ih =>
      cases bs with
      | nil => cases hlength
      | cons b rest =>
          have hrest : rest.length = rest'.length := Nat.succ.inj hlength
          have htag : (s.extend ρ rest).2.nextTag = s.nextTag + rest'.length := by
            rw [Store.extend_nextTag, hrest]
          have hmark : (ρ'.framed τ (b' :: rest')).mark = some (τ ++ [rest'.length]) := by
            simp only [Env.framed, Env.mark, Seed.ofCode_code]
          have hnew : ¬(W.withFrames τ s.nextTag ρ' rest').Uses (τ ++ [rest'.length]) := by
            intro huses
            rcases uses_withFrames huses with hold | ⟨i, hi, heq⟩
            · exact hunused _ hold
            · have hi' : rest'.length = i := by simpa using heq
              omega
          have hclear' : (W.withFrames τ s.nextTag ρ' rest').Clear X (τ ++ [rest'.length]) := by
            intro address mark q hcell
            rw [withFrames_cell] at hcell
            exact hclear _ hcell
          have hstep := (ih hrest).withFrame hmark hnew hclear'
          rw [htag] at hstep
          exact hstep

/-- A thunk may keep a value that mirrors what the account yields for it. -/
theorem Placed.keep (h : Placed P X W s) {address mark : Nat} {ρ' : Env} {e : Expr} {v v' : Value}
    (hcell : W.cell address = some (mark, ⟨P.account, ρ', e⟩)) (hv : v.Mirrors P W v')
    (hyields : Yields none (Seed.ofCode mark) 0 (e.plan P.account ρ') v') :
    Placed P X W (s.keep address v) where
  tracks := h.tracks.keep hcell hv hyields
  faithful := h.faithful
  ready {n m q} hn hX := by
    rw [Store.kept?_keep (h.tracks.cell_lt hcell)]
    split
    · exact .inl ⟨v, rfl⟩
    · exact h.ready hn hX

/-! ## New marks come from the zone -/

theorem grows_withObject {tag : Nat} {v : Value} {υ : Seed} (hfresh : ∀ u, W.object tag ≠ some u)
    (hmark : v.mark = some υ) (hυ : X υ) : Grows X W (W.withObject tag v) where
  le := le_withObject hfresh v
  object {n u} hu := by
    by_cases heq : n = tag
    · subst heq
      rw [withObject_object_self] at hu
      cases hu
      exact .inr ⟨υ, hmark, hυ⟩
    · exact .inl ((if_neg heq).symm.trans hu)
  frame := .inl
  cell := .inl

theorem grows_withCell {address : Nat} {υ : Seed} (hfresh : ∀ c, W.cell address ≠ some c)
    (hX : X υ) (q : Suspension) : Grows X W (W.withCell address (υ.code, q)) where
  le := le_withCell hfresh _
  object := .inl
  frame := .inl
  cell {n m r} hr := by
    by_cases heq : n = address
    · subst heq
      rw [withCell_cell_self] at hr
      cases hr
      exact .inr (υ.ofCode_code.symm ▸ hX)
    · exact .inl ((if_neg heq).symm.trans hr)

theorem grows_withFrames {base : Nat} {ρ : Env} {bs : List (Name × Thunk)}
    (hle : W.le (W.withFrames τ base ρ bs)) (hX : ∀ i, X (τ ++ [i])) :
    Grows X W (W.withFrames τ base ρ bs) where
  le := hle
  object {tag v} hv := by
    rw [withFrames_object] at hv
    exact .inl hv
  frame {tag ρ₁} h := by
    clear hle
    induction bs with
    | nil => exact .inl h
    | cons b rest ih =>
        by_cases heq : tag = base + rest.length
        · rw [withFrames, heq, withFrame_frame_self] at h
          cases h
          refine .inr ⟨τ ++ [rest.length], ?_, hX _⟩
          simp only [Env.framed, Env.mark, Seed.ofCode_code]
        · exact ih ((if_neg heq).symm.trans h)
  cell {address mark q} hq := by
    rw [withFrames_cell] at hq
    exact .inl hq

/-- Seeds ahead of the next request stay unused when its seed marks something new. -/
theorem Fresh.of_uses (h : Fresh W σ k)
    (huses : ∀ υ, W'.Uses υ → W.Uses υ ∨ σ ++ [k] <+: υ) : Fresh W' σ (k + 1) := by
  intro υ hahead hυ
  rcases huses υ hυ with hold | hpre
  · exact h υ hahead.of_succ hold
  · exact Seed.not_ahead_of_below hpre hahead

end Matching

/-! ## Marks of mirrored data are in use -/

section

variable {P : Pairing} {W : Matching} {X Y : Seed → Prop}

mutual
theorem Value.Mirrors.within (hP : ¬P.reruns) (hXY : ∀ υ, W.Uses υ → X υ → Y υ) {v w : Value} :
    v.Mirrors P W w → w.Within X → w.Within Y
  | .atom h, _ => h.within
  | .closure hobject henv, h => ⟨hXY _ (.object hobject rfl) h.1, henv.within hP hXY h.2⟩
  | .cons hobject hhead htail, h =>
    ⟨hXY _ (.object hobject rfl) h.1, hhead.within hP hXY h.2.1, htail.within hP hXY h.2.2⟩

theorem Thunk.Mirrors.within (hP : ¬P.reruns) (hXY : ∀ υ, W.Uses υ → X υ → Y υ) {x y : Thunk} :
    x.Mirrors P W y → y.Within X → y.Within Y
  | .ready hv, h => hv.within hP hXY h
  | .byName henv, h => henv.within hP hXY h
  | .rerun hreruns _, _ => absurd hreruns hP
  | .byNeed hcell henv, h => ⟨hXY _ (.cell hcell rfl) h.1, henv.within hP hXY h.2⟩

theorem Env.Mirrors.within (hP : ¬P.reruns) (hXY : ∀ υ, W.Uses υ → X υ → Y υ) {ρ ρ' : Env} :
    ρ.Mirrors P W ρ' → ρ'.Within X → ρ'.Within Y
  | .empty, _ => trivial
  | .frame hframe hbound hrest, h =>
    ⟨hXY _ (.frame hframe rfl) h.1, hbound.within hP hXY h.2.1, hrest.within hP hXY h.2.2⟩
end

theorem Value.Mirrors.eq_of_isAtom {v w : Value} (h : v.Mirrors P W w) (hw : w.IsAtom) :
    v = w := by
  cases h with
  | atom => rfl
  | closure | cons => exact hw.elim

/-- In a faithful matching what coincides by the account is identical in the store, values without
parts aside. -/
theorem Value.Mirrors.identical_of_eq (hfaithful : W.Faithful) {a b c : Value}
    (ha : a.Mirrors P W c) (hb : b.Mirrors P W c) (hc : ¬c.IsAtom) : a.identical b = true := by
  cases ha with
  | atom h => exact absurd h hc
  | closure hobject _ =>
      cases hb with
      | atom h => exact absurd h hc
      | closure hobject' _ => simp [Value.identical, hfaithful.object_inj hobject hobject']
  | cons hobject _ _ =>
      cases hb with
      | atom h => exact absurd h hc
      | cons hobject' _ _ => simp [Value.identical, hfaithful.object_inj hobject hobject']

theorem Env.Mirrors.same_of_eq (hfaithful : W.Faithful) {a b c : Env} (ha : a.Mirrors P W c)
    (hb : b.Mirrors P W c) : a.same b = true := by
  cases ha with
  | empty =>
      cases hb with
      | empty => rfl
  | frame hframe _ _ =>
      cases hb with
      | frame hframe' _ _ => simp [Env.same, hfaithful.frame_inj hframe hframe']

end

end PolicyEval
