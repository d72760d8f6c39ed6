import PolicyEval.Proofs.Likeness.Reading
import PolicyEval.Scope

/-!
# Programs that are alike are checked alike

A scope check asks only whether two names are the same.  So it accepts both of two programs that are
alike, or rejects both, for the same reason and at places that are alike.

* `ScopeError.Alike` — rejections that are alike.
* `checkIn_alike`, `walkFlat_alike` — the two checks.
* `checkScopes_alike` — whole programs.
-/

namespace PolicyEval

/-- Names that are alike are free, or bound twice by the same form and first at places that are
alike. -/
inductive ScopeCause.Alike (L : Likeness) : ScopeCause → ScopeCause → Prop
  | freeVariable {name name' : Name} (h : L.name name name') :
      Alike L (.freeVariable name) (.freeVariable name')
  | duplicateBinding {name name' : Name} (kind : BinderKind) {first first' : Span}
      (h : L.name name name') (hfirst : L.span first first') :
      Alike L (.duplicateBinding name kind first) (.duplicateBinding name' kind first')

/-- Rejections for the same reason at places that are alike. -/
structure ScopeError.Alike (L : Likeness) (e e' : ScopeError) : Prop where
  cause : e.cause.Alike L e'.cause
  span : L.span e.span e'.span

/-- Both checks accept, or both reject alike. -/
abbrev CheckAlike (L : Likeness) (x x' : Except ScopeError Unit) : Prop :=
  ExceptRel (ScopeError.Alike L) (fun _ _ => True) x x'

section

variable {L : Likeness}

/-! ## The tests -/

theorem inScope_eq {scope scope' : List Name} (h : List.Forall₂ L.name scope scope')
    {name name' : Name} (hname : L.name name name') :
    inScope scope name = inScope scope' name' := by
  unfold inScope
  induction h with
  | nil => rfl
  | cons hn _ ih => rw [List.any_cons, List.any_cons, L.same_eq hn hname, ih]

theorem checkBound_alike {scope scope' : List Name} (h : List.Forall₂ L.name scope scope')
    {p p' : Place} (hp : p.Alike L p') {name name' : Name} (hname : L.name name name') :
    CheckAlike L (checkBound scope p name) (checkBound scope' p' name') := by
  unfold checkBound
  rw [inScope_eq h hname]
  split
  · exact .ok trivial
  · exact .error ⟨.freeVariable hname, hp.span⟩

/-- The binders of a name in lists that are alike. -/
theorem find?_alike {seen seen' : List Binder} (h : List.Forall₂ (Binder.Alike L) seen seen')
    {b b' : Binder} (hb : b.Alike L b') :
    Option.Rel (Binder.Alike L) (seen.find? fun s => s.name.same b.name)
      (seen'.find? fun s => s.name.same b'.name) := by
  induction h with
  | nil => exact .none
  | @cons s s' seen seen' hs _ ih =>
      rw [List.find?_cons, List.find?_cons, L.same_eq hs.name hb.name]
      split
      · exact .some hs
      · exact ih

theorem firstRepeat?_alike {bs bs' : List Binder} (h : List.Forall₂ (Binder.Alike L) bs bs')
    {seen seen' : List Binder} (hseen : List.Forall₂ (Binder.Alike L) seen seen') :
    Option.Rel (fun r r' => Binder.Alike L r.1 r'.1 ∧ Binder.Alike L r.2 r'.2)
      (firstRepeat? seen bs) (firstRepeat? seen' bs') := by
  induction h generalizing seen seen' with
  | nil => exact .none
  | @cons b b' bs bs' hb _ ih =>
      have hfind := find?_alike hseen hb
      unfold firstRepeat?
      cases hfound : seen.find? fun s => s.name.same b.name with
      | none =>
          rw [hfound] at hfind
          cases hfound' : seen'.find? fun s => s.name.same b'.name with
          | none => exact ih (.cons hb hseen)
          | some => rw [hfound'] at hfind; cases hfind
      | some earlier =>
          rw [hfound] at hfind
          cases hfound' : seen'.find? fun s => s.name.same b'.name with
          | none => rw [hfound'] at hfind; cases hfind
          | some earlier' =>
              rw [hfound'] at hfind
              cases hfind with
              | some hearlier => exact .some ⟨hearlier, hb⟩

theorem checkDistinct_alike (kind : BinderKind) {bs bs' : List Binder}
    (h : List.Forall₂ (Binder.Alike L) bs bs') :
    CheckAlike L (checkDistinct kind bs) (checkDistinct kind bs') := by
  have hrepeat := firstRepeat?_alike h .nil
  unfold checkDistinct
  generalize firstRepeat? [] bs = repeated at hrepeat ⊢
  generalize firstRepeat? [] bs' = repeated' at hrepeat ⊢
  cases hrepeat with
  | none => exact .ok trivial
  | some hr => exact .error ⟨.duplicateBinding kind hr.2.name hr.1.span, hr.2.span⟩

theorem names_alike {bs bs' : List Binder} (h : List.Forall₂ (Binder.Alike L) bs bs') :
    List.Forall₂ L.name (bs.map Binder.name) (bs'.map Binder.name) := by
  rw [List.forall₂_map_left_iff, List.forall₂_map_right_iff]
  exact h.imp fun _ _ hb => hb.name

theorem defNames_alike {ds ds' : List (Binder × Expr)} (h : Expr.DefsAlike L ds ds') :
    List.Forall₂ L.name (ds.map fun d => d.1.name) (ds'.map fun d => d.1.name) := by
  have hnames := names_alike h.binders
  rwa [List.map_map, List.map_map] at hnames

/-! ## The lexical check -/

mutual
theorem checkIn_alike : (e : Expr) → {e' : Expr} → e.Alike L e' → {scope scope' : List Name} →
    List.Forall₂ L.name scope scope' → CheckAlike L (checkIn scope e) (checkIn scope' e')
  | .int .., _, h, _, _, _ | .bool .., _, h, _, _, _ | .null _, _, h, _, _, _
  | .prim .., _, h, _, _, _ => by
      cases h
      exact .ok trivial
  | .ident .., _, h, _, _, hscope => by
      cases h with
      | ident hp hname => exact checkBound_alike hscope hp hname
  | .unary _ _ e, _, h, _, _, hscope => by
      cases h with
      | unary op _ he => exact checkIn_alike e he hscope
  | .binary _ _ left right, _, h, _, _, hscope => by
      cases h with
      | binary op _ hleft hright =>
          exact (checkIn_alike left hleft hscope).bind fun _ _ _ =>
            checkIn_alike right hright hscope
  | .call _ callee args, _, h, _, _, hscope => by
      cases h with
      | call _ hcallee hargs =>
          exact (checkIn_alike callee hcallee hscope).bind fun _ _ _ =>
            checkListIn_alike args hargs hscope
  | .map _ params body, _, h, _, _, hscope => by
      cases h with
      | map _ hparams hbody =>
          exact (checkDistinct_alike .map hparams).bind fun _ _ _ =>
            checkIn_alike body hbody (List.rel_append (names_alike hparams) hscope)
  | .cond _ test yes no, _, h, _, _, hscope => by
      cases h with
      | cond _ htest hyes hno =>
          exact (checkIn_alike test htest hscope).bind fun _ _ _ =>
            (checkIn_alike yes hyes hscope).bind fun _ _ _ => checkIn_alike no hno hscope
  | .letIn _ defs body, _, h, _, _, hscope => by
      cases h with
      | letIn _ hdefs hbody =>
          exact (checkDistinct_alike .letIn hdefs.binders).bind fun _ _ _ =>
            (checkDefsIn_alike defs hdefs hscope).bind fun _ _ _ =>
              checkIn_alike body hbody (List.rel_append (defNames_alike hdefs) hscope)

theorem checkListIn_alike : (es : List Expr) → {es' : List Expr} → Expr.ListAlike L es es' →
    {scope scope' : List Name} → List.Forall₂ L.name scope scope' →
    CheckAlike L (checkListIn scope es) (checkListIn scope' es')
  | [], _, h, _, _, _ => by
      cases h
      exact .ok trivial
  | e :: es, _, h, _, _, hscope => by
      cases h with
      | cons he hes =>
          exact (checkIn_alike e he hscope).bind fun _ _ _ => checkListIn_alike es hes hscope

theorem checkDefsIn_alike : (ds : List (Binder × Expr)) → {ds' : List (Binder × Expr)} →
    Expr.DefsAlike L ds ds' → {scope scope' : List Name} → List.Forall₂ L.name scope scope' →
    CheckAlike L (checkDefsIn scope ds) (checkDefsIn scope' ds')
  | [], _, h, _, _, _ => by
      cases h
      exact .ok trivial
  | (_, e) :: ds, _, h, _, _, hscope => by
      cases h with
      | cons _ he hds =>
          exact (checkIn_alike e he hscope).bind fun _ _ _ => checkDefsIn_alike ds hds hscope
end

/-! ## The flat check -/

/-- Names that are alike are learned, and nodes that are alike are left. -/
structure Visit.Alike (L : Likeness) (v v' : Visit) : Prop where
  learned : List.Forall₂ L.name v.learned v'.learned
  later : Expr.ListAlike L v.later v'.later

theorem visit_alike {known known' : List Name} (hknown : List.Forall₂ L.name known known')
    {e e' : Expr} (h : e.Alike L e') :
    ExceptRel (ScopeError.Alike L) (Visit.Alike L) (visit known e) (visit known' e') := by
  cases h with
  | int | bool | null | prim => exact .ok ⟨.nil, .nil⟩
  | ident hp hname =>
      exact (checkBound_alike hknown hp hname).bind fun _ _ _ => .ok ⟨.nil, .nil⟩
  | unary op _ he => exact .ok ⟨.nil, .cons he .nil⟩
  | binary op _ hleft hright => exact .ok ⟨.nil, .cons hleft (.cons hright .nil)⟩
  | call _ _ hargs => exact .ok ⟨.nil, hargs⟩
  | map _ hparams hbody =>
      exact (checkDistinct_alike .map hparams).bind fun _ _ _ =>
        .ok ⟨names_alike hparams, .cons hbody .nil⟩
  | cond _ htest hyes hno => exact .ok ⟨.nil, .cons htest (.cons hyes (.cons hno .nil))⟩
  | letIn _ hdefs hbody =>
      exact (checkDistinct_alike .letIn hdefs.binders).bind fun _ _ _ =>
        .ok ⟨defNames_alike hdefs, hdefs.inits.append (.cons hbody .nil)⟩

theorem walkFlat_cons (known : List Name) (e : Expr) (rest : List Expr) :
    walkFlat known (e :: rest) =
      visit known e >>= fun v => walkFlat (v.learned ++ known) (rest ++ v.later) := by
  rw [walkFlat]
  split
  next err hvisit =>
    rw [hvisit]
    rfl
  next v hvisit =>
    rw [hvisit]
    rfl

theorem walkFlat_alike (known : List Name) (queue : List Expr) {known' : List Name}
    (hknown : List.Forall₂ L.name known known') {queue' : List Expr}
    (h : Expr.ListAlike L queue queue') :
    CheckAlike L (walkFlat known queue) (walkFlat known' queue') := by
  fun_induction walkFlat known queue generalizing known' queue' with
  | case1 known =>
      cases h
      rw [walkFlat]
      exact .ok trivial
  | case2 known e rest err hvisit =>
      cases h with
      | @cons _ e' _ rest' he hrest =>
          have hv := visit_alike hknown he
          rw [hvisit] at hv
          rw [walkFlat_cons]
          generalize visit known' e' = outcome' at hv ⊢
          cases hv with
          | error herr => exact .error herr
  | case3 known e rest v hvisit ih =>
      cases h with
      | @cons _ e' _ rest' he hrest =>
          have hv := visit_alike hknown he
          rw [hvisit] at hv
          rw [walkFlat_cons]
          generalize visit known' e' = outcome' at hv ⊢
          cases hv with
          | ok hv => exact ih (List.rel_append hv.learned hknown) (hrest.append hv.later)

/-- Programs that are alike are accepted alike and rejected alike. -/
theorem checkScopes_alike (mode : ScopeMode) {root root' : Expr} (h : root.Alike L root') :
    CheckAlike L (checkScopes mode root) (checkScopes mode root') := by
  cases mode with
  | lexical => exact checkIn_alike root h .nil
  | flat => exact walkFlat_alike [] [root] .nil (.cons h .nil)

end

end PolicyEval
