import PolicyEval.Proofs.Syntax.Acceptance

/-!
# Printing and reading back

A printed expression has parentheses where its context asks for them.  With these it is a phrase, and
the phrase is conventional, so it is read back as it was printed.

* `Expr.phrase` — the phrase that is printed for a tree.
* `Expr.phrase_isConventional`, `Expr.signs_phrase`, `Expr.expr_phrase` — it follows the rules, it has
  the signs of the printed text, and it stands for the tree.
* `Phrase.fits` — the tree of a phrase can be spelled over the names of its signs.
* `read_print` — reading the printed text gives the tree back.
-/

namespace PolicyEval

/-- Puts a phrase in parentheses if asked to. -/
def Phrase.wrap (b : Bool) (c : Phrase) : Phrase := if b then .group c else c

theorem Phrase.signs_wrap (b : Bool) (c : Phrase) : (c.wrap b).signs = bracket b c.signs := by
  cases b <;> rfl

theorem Phrase.expr_wrap (b : Bool) (c : Phrase) : (c.wrap b).expr = c.expr := by
  cases b <;> rfl

theorem Phrase.IsConventional.wrap {c : Phrase} (h : c.IsConventional) (b : Bool) :
    (c.wrap b).IsConventional := by
  cases b <;> exact h

theorem Phrase.Binds.wrap {c : Phrase} {level : Nat} (h : c.Binds level) (b : Bool) :
    (c.wrap b).Binds level := by
  cases b with
  | true => trivial
  | false => exact h

namespace Expr

/-! ## The phrase that is printed -/

mutual
/-- The phrase that is printed for a tree. -/
def phrase : Expr → Phrase
  | int _ n => .int n.toNat
  | bool _ b => .bool b
  | null _ => .null
  | ident _ name => .ident name
  | prim _ p => .prim p
  | unary _ op operand => .unary op (operand.phrase.wrap (operand.needsParens unaryContext))
  | binary _ op left right =>
    .binary op (left.phrase.wrap (left.needsParens op.precedence))
      (right.phrase.wrap (right.needsParens (op.precedence + 1)))
  | call _ callee args => .call (callee.phrase.wrap callee.needsParensAsCallee) (phrases args)
  | map _ params body => .map (params.map Binder.name) body.phrase
  | cond _ test yes no => .cond test.phrase yes.phrase no.phrase
  | letIn _ defs body => .letIn (defPhrases defs) body.phrase

/-- The phrases that are printed for arguments. -/
def phrases : List Expr → List Phrase
  | [] => []
  | e :: es => e.phrase :: phrases es

/-- The phrases that are printed for definitions. -/
def defPhrases : List (Binder × Expr) → List (Name × Phrase)
  | [] => []
  | (b, e) :: ds => (b.name, e.phrase) :: defPhrases ds
end

theorem paramSigns_eq : (params : List Binder) →
    paramSigns params = ((params.map Binder.name).map Sign.ident).intersperse .comma
  | [] => rfl
  | [_] => rfl
  | p :: q :: ps => by
    have ih := paramSigns_eq (q :: ps)
    simp only [List.map_cons] at ih
    simp only [paramSigns, ih, List.map_cons, List.intersperse_cons_cons]

mutual
theorem signs_phrase : (e : Expr) → e.phrase.signs = e.signs
  | int .. | bool .. | null _ | ident .. | prim .. => rfl
  | unary _ _ operand => by
    simp only [phrase, Phrase.signs, signs, Phrase.signs_wrap, signs_phrase operand]
  | binary _ _ left right => by
    simp only [phrase, Phrase.signs, signs, Phrase.signs_wrap, signs_phrase left,
      signs_phrase right]
  | call _ callee args => by
    simp only [phrase, Phrase.signs, signs, Phrase.signs_wrap, signs_phrase callee,
      argSigns_phrases args]
  | map _ params body => by
    simp only [phrase, Phrase.signs, signs, paramSigns_eq, signs_phrase body]
  | cond _ test yes no => by
    simp only [phrase, Phrase.signs, signs, signs_phrase test, signs_phrase yes, signs_phrase no]
  | letIn _ defs body => by
    simp only [phrase, Phrase.signs, signs, defSigns_phrases defs, signs_phrase body]

theorem argSigns_phrases : (es : List Expr) → Phrase.argSigns (phrases es) = argSigns es
  | [] => rfl
  | [e] => by simp only [phrases, Phrase.argSigns, argSigns, signs_phrase e]
  | e :: e' :: es => by
    have ih := argSigns_phrases (e' :: es)
    simp only [phrases] at ih
    simp only [phrases, Phrase.argSigns, argSigns, signs_phrase e, ih]

theorem defSigns_phrases : (ds : List (Binder × Expr)) →
    Phrase.defSigns (defPhrases ds) = defSigns ds
  | [] => rfl
  | (_, e) :: ds => by
    simp only [defPhrases, Phrase.defSigns, defSigns, signs_phrase e, defSigns_phrases ds]
end

variable {names : Interner}

mutual
/-- The phrase that is printed stands for the tree. -/
theorem expr_phrase : (e : Expr) → e.Fits names IsLiteral → e.phrase.expr = e.bare
  | int _ n, h => by
    obtain ⟨m, rfl⟩ := Int.eq_ofNat_of_zero_le h.1
    rfl
  | bool .., _ | null _, _ | ident .., _ | prim .., _ => rfl
  | unary _ _ operand, h => by
    simp only [phrase, Phrase.expr, Phrase.expr_wrap, expr_phrase operand h]
    rfl
  | binary _ _ left right, h => by
    simp only [phrase, Phrase.expr, Phrase.expr_wrap, expr_phrase left h.1, expr_phrase right h.2]
    rfl
  | call _ callee args, h => by
    simp only [phrase, Phrase.expr, Phrase.expr_wrap, expr_phrase callee h.1,
      exprs_phrases args h.2]
    rfl
  | map _ params body, h => by
    simp only [phrase, Phrase.expr, expr_phrase body h.2, List.map_map]
    rfl
  | cond _ test yes no, h => by
    simp only [phrase, Phrase.expr, expr_phrase test h.1, expr_phrase yes h.2.1,
      expr_phrase no h.2.2]
    rfl
  | letIn _ defs body, h => by
    simp only [phrase, Phrase.expr, defExprs_phrases defs h.2.1, expr_phrase body h.2.2]
    rfl

theorem exprs_phrases : (es : List Expr) → FitList names IsLiteral es →
    Phrase.exprs (phrases es) = bareList es
  | [], _ => rfl
  | e :: es, h => by
    simp only [phrases, Phrase.exprs, expr_phrase e h.1, exprs_phrases es h.2]
    rfl

theorem defExprs_phrases : (ds : List (Binder × Expr)) → FitDefs names IsLiteral ds →
    Phrase.defExprs (defPhrases ds) = bareDefs ds
  | [], _ => rfl
  | (_, e) :: ds, h => by
    simp only [defPhrases, Phrase.defExprs, expr_phrase e h.2.1, defExprs_phrases ds h.2.2]
    rfl
end

/-! ## Parentheses where the context asks for them -/

/-- Behind a unary operator there is a term. -/
theorem isTerm_wrap (e : Expr) :
    (e.phrase.wrap (e.needsParens unaryContext)).isTerm = true := by
  cases e with
  | binary _ op _ _ =>
      have hlevel : op.precedence < unaryContext := Nat.lt_succ_of_le op.precedence_le
      simp only [needsParens, hlevel, decide_true]
      rfl
  | _ => rfl

/-- In front of argument lists there is a factor, or a call of one. -/
theorem isApplication_wrap (e : Expr) :
    (e.phrase.wrap e.needsParensAsCallee).isApplication = true := by
  cases e with
  | binary _ op _ _ =>
      have hlevel : op.precedence < calleeContext := by
        have := op.precedence_le
        simp only [calleeContext]
        omega
      simp only [needsParensAsCallee, needsParens, hlevel, decide_true, Bool.or_true]
      rfl
  | _ => rfl

/-- Next to an operator there is no operator that binds less tight. -/
theorem binds_wrap (e : Expr) (level : Nat) :
    (e.phrase.wrap (e.needsParens level)).Binds level := by
  cases e with
  | binary _ op _ _ =>
      by_cases hlevel : op.precedence < level
      · simp only [needsParens, hlevel, decide_true]
        trivial
      · simp only [needsParens, hlevel, decide_false]
        exact Nat.not_lt.1 hlevel
  | _ =>
      apply Phrase.Binds.wrap
      trivial

/-- In front of an operator no form ends without a parenthesis. -/
theorem endsInForm_wrap {level : Nat} (hlevel : 0 < level) :
    (e : Expr) → (e.phrase.wrap (e.needsParens level)).endsInForm = false
  | binary _ op left right => by
    have hright := endsInForm_wrap (Nat.succ_pos op.precedence) right
    simp only [needsParens]
    by_cases hop : op.precedence < level
    · simp only [hop, decide_true]
      rfl
    · simp only [hop, decide_false]
      exact hright
  | map .. | cond .. | letIn .. => by
    simp only [needsParens, anyContext, hlevel, decide_true]
    rfl
  | unary _ op operand => by
    simp only [needsParens]
    cases decide (unaryContext < level) <;> rfl
  | int .. | bool .. | null _ | ident .. | prim .. | call .. => rfl

mutual
/-- The phrase that is printed follows the rules. -/
theorem phrase_isConventional : (e : Expr) → e.Fits names IsLiteral → e.phrase.IsConventional
  | int .., _ | bool .., _ | null _, _ | ident .., _ | prim .., _ => trivial
  | unary _ _ operand, h => ⟨operand.isTerm_wrap, (phrase_isConventional operand h).wrap _⟩
  | binary _ op left right, h =>
    ⟨endsInForm_wrap op.precedence_pos left, left.binds_wrap _, right.binds_wrap _,
      (phrase_isConventional left h.1).wrap _, (phrase_isConventional right h.2).wrap _⟩
  | call _ callee args, h =>
    ⟨callee.isApplication_wrap, (phrase_isConventional callee h.1).wrap _,
      phrases_areConventional args h.2⟩
  | map _ _ body, h => phrase_isConventional body h.2
  | cond _ test yes no, h =>
    ⟨phrase_isConventional test h.1, phrase_isConventional yes h.2.1,
      phrase_isConventional no h.2.2⟩
  | letIn _ defs body, h => by
    refine ⟨?_, defPhrases_areConventional defs h.2.1, phrase_isConventional body h.2.2⟩
    cases defs with
    | nil => exact absurd rfl h.1
    | cons d ds => exact List.cons_ne_nil _ _

theorem phrases_areConventional : (es : List Expr) → FitList names IsLiteral es →
    Phrase.AreConventional (phrases es)
  | [], _ => trivial
  | e :: es, h => ⟨phrase_isConventional e h.1, phrases_areConventional es h.2⟩

theorem defPhrases_areConventional : (ds : List (Binder × Expr)) → FitDefs names IsLiteral ds →
    Phrase.DefsAreConventional (defPhrases ds)
  | [], _ => trivial
  | (_, e) :: ds, h => ⟨phrase_isConventional e h.2.1, defPhrases_areConventional ds h.2.2⟩
end

/-- The text of a tree that can be spelled is read as the tree, over the same names. -/
theorem ofSourceWith_print {e : Expr} (h : e.Fits names IsLiteral) :
    ∃ e', ofSourceWith names e.print = .ok (e', names) ∧ e'.bare = e.bare ∧ e'.IsNumbered 0 := by
  obtain ⟨ts, stop, hlex, hsigns⟩ := lexes_print h
  have hphrase : (TokenList.mk ts stop names).tokens.map Token.sign = e.phrase.signs := by
    rw [hsigns, signs_phrase]
  obtain ⟨e', hparse, hbare, hnumbered⟩ :=
    ofTokens_of_phrase (phrase_isConventional e h) hphrase
  refine ⟨e', ?_, by rw [hbare, expr_phrase e h], hnumbered⟩
  rw [ofSourceWith, hlex]
  simp only [hparse]

end Expr

/-! ## What is read can be printed -/

namespace Phrase

theorem mem_intersperse {s sep : Sign} : {signs : List Sign} → s ∈ signs →
    s ∈ signs.intersperse sep
  | [_], h => h
  | a :: b :: signs, h => by
    rw [List.intersperse_cons_cons]
    rcases List.mem_cons.1 h with rfl | h
    · exact List.mem_cons_self
    · exact List.mem_cons_of_mem _ (List.mem_cons_of_mem _ (mem_intersperse h))

variable {names : Interner}

mutual
/-- The tree of a phrase can be spelled over the names of its signs. -/
theorem fits : (c : Phrase) → c.IsConventional → (∀ s ∈ c.signs, names.Admits s) →
    c.expr.Fits names IsLiteral
  | .int n, _, h => ⟨Int.natCast_nonneg n, Int.ofNat_le.2 (h (.int n) List.mem_cons_self)⟩
  | .bool _, _, _ | .null, _, _ | .prim _, _, _ => trivial
  | .ident name, _, h => h (.ident name) List.mem_cons_self
  | .group inner, hc, h => fits inner hc fun s hs => h s (by simp [signs, hs])
  | .unary _ operand, hc, h => fits operand hc.2 fun s hs => h s (by simp [signs, hs])
  | .binary _ left right, hc, h =>
    ⟨fits left hc.2.2.2.1 fun s hs => h s (by simp [signs, hs]),
      fits right hc.2.2.2.2 fun s hs => h s (by simp [signs, hs])⟩
  | .call callee args, hc, h =>
    ⟨fits callee hc.2.1 fun s hs => h s (by simp [signs, hs]),
      fitArgs args hc.2.2 fun s hs => h s (by simp [signs, hs])⟩
  | .map params body, hc, h => by
    refine ⟨?_, fits body hc fun s hs => h s (by simp [signs, hs])⟩
    intro b hb
    obtain ⟨name, hname, rfl⟩ := List.mem_map.1 hb
    have hmem : Sign.ident name ∈ (params.map Sign.ident).intersperse .comma :=
      mem_intersperse (List.mem_map_of_mem hname)
    exact h (.ident name) (by simp [signs, hmem])
  | .cond test yes no, hc, h =>
    ⟨fits test hc.1 fun s hs => h s (by simp [signs, hs]),
      fits yes hc.2.1 fun s hs => h s (by simp [signs, hs]),
      fits no hc.2.2 fun s hs => h s (by simp [signs, hs])⟩
  | .letIn defs body, hc, h => by
    refine ⟨?_, fitDefs defs hc.2.1 fun s hs => h s (by simp [signs, hs]),
      fits body hc.2.2 fun s hs => h s (by simp [signs, hs])⟩
    cases defs with
    | nil => exact absurd rfl hc.1
    | cons d ds => exact List.cons_ne_nil _ _

theorem fitArgs : (cs : List Phrase) → AreConventional cs → (∀ s ∈ argSigns cs, names.Admits s) →
    Expr.FitList names IsLiteral (exprs cs)
  | [], _, _ => trivial
  | [c], hc, h => ⟨fits c hc.1 h, trivial⟩
  | c :: c' :: cs, hc, h =>
    ⟨fits c hc.1 fun s hs => h s (by simp [argSigns, hs]),
      fitArgs (c' :: cs) hc.2 fun s hs => h s (by simp [argSigns, hs])⟩

theorem fitDefs : (ds : List (Name × Phrase)) → DefsAreConventional ds →
    (∀ s ∈ defSigns ds, names.Admits s) → Expr.FitDefs names IsLiteral (defExprs ds)
  | [], _, _ => trivial
  | (name, c) :: ds, hc, h =>
    ⟨h (.ident name) (by simp [defSigns]), fits c hc.1 fun s hs => h s (by simp [defSigns, hs]),
      fitDefs ds hc.2 fun s hs => h s (by simp [defSigns, hs])⟩
end

end Phrase

namespace Expr

variable {names : Interner} {good : Int → Prop}

mutual
/-- Whether a tree can be spelled does not depend on its places. -/
theorem Fits.of_relocate {f : Place → Place} : (e : Expr) → (e.relocate f).Fits names good →
    e.Fits names good
  | int .., h | bool .., h | null _, h | ident .., h | prim .., h => h
  | unary _ _ operand, h => Fits.of_relocate operand h
  | binary _ _ left right, h => ⟨Fits.of_relocate left h.1, Fits.of_relocate right h.2⟩
  | call _ callee args, h => ⟨Fits.of_relocate callee h.1, FitList.of_relocate args h.2⟩
  | map _ params body, h =>
    ⟨fun b hb => h.1 (bareBinder b) (List.mem_map_of_mem hb), Fits.of_relocate body h.2⟩
  | cond _ test yes no, h =>
    ⟨Fits.of_relocate test h.1, Fits.of_relocate yes h.2.1, Fits.of_relocate no h.2.2⟩
  | letIn _ defs body, h => by
    refine ⟨?_, FitDefs.of_relocate defs h.2.1, Fits.of_relocate body h.2.2⟩
    rintro rfl
    exact h.1 rfl

theorem FitList.of_relocate {f : Place → Place} : (es : List Expr) →
    FitList names good (relocateList f es) → FitList names good es
  | [], _ => trivial
  | e :: es, h => ⟨Fits.of_relocate e h.1, FitList.of_relocate es h.2⟩

theorem FitDefs.of_relocate {f : Place → Place} : (ds : List (Binder × Expr)) →
    FitDefs names good (relocateDefs f ds) → FitDefs names good ds
  | [], _ => trivial
  | (_, e) :: ds, h => ⟨h.1, Fits.of_relocate e h.2.1, FitDefs.of_relocate ds h.2.2⟩
end

/-- A tree that was read can be spelled over the names of its source, and its nodes are numbered in
post-order. -/
theorem fits_of_ofSourceWith {names' : Interner} {source : String} {e : Expr}
    (h : ofSourceWith names source = .ok (e, names')) :
    e.Fits names' IsLiteral ∧ e.IsNumbered 0 := by
  unfold ofSourceWith at h
  split at h
  · cases h
  · next ts hlex =>
      split at h
      · cases h
      · next e' hparse =>
          cases h
          obtain ⟨c, hc, hsigns⟩ := (derives_of_ofTokens hparse).exists_phrase
          obtain ⟨e', hparse', hbare, hnumbered⟩ := ofTokens_of_phrase hc hsigns.symm
          rw [hparse] at hparse'
          cases hparse'
          have hadmits : ∀ s ∈ c.signs, ts.names.Admits s := by
            intro s hs
            rw [hsigns] at hs
            obtain ⟨t, ht, rfl⟩ := List.mem_map.1 hs
            exact scan_admits hlex (by simp) t ht
          have hfits := Phrase.fits c hc hadmits
          rw [← hbare] at hfits
          exact ⟨Fits.of_relocate e hfits, hnumbered⟩

end Expr

/-! ## The round trip -/

/-- Reading the text of a tree that was read gives the tree back, but for spans.  Reading the text of
any tree that can be spelled gives the tree as it is spelled.  The text of what is read is the same
in both cases. -/
theorem read_print (names : Interner) :
    (∀ source e names', Expr.ofSourceWith names source = .ok (e, names') →
      ∃ e', Expr.ofSourceWith names' e.print = .ok (e', names') ∧
        e'.withoutSpans = e.withoutSpans ∧ e'.print = e.print) ∧
    ∀ e : Expr, e.Fits names IsSigned →
      ∃ e', Expr.ofSourceWith names e.print = .ok (e', names) ∧
        e'.bare = e.spelled.bare ∧ e'.print = e.print := by
  refine ⟨fun source e names' h => ?_, fun e h => ?_⟩
  · obtain ⟨hfits, hnumbered⟩ := Expr.fits_of_ofSourceWith h
    obtain ⟨e', hread, hbare, hnumbered'⟩ := Expr.ofSourceWith_print hfits
    exact ⟨e', hread, hnumbered'.withoutSpans_eq hnumbered hbare, Expr.print_eq_of_bare_eq hbare⟩
  · obtain ⟨e', hread, hbare, -⟩ := Expr.ofSourceWith_print (Expr.Fits.spelled e h)
    rw [Expr.print_spelled] at hread
    refine ⟨e', hread, hbare, ?_⟩
    rw [Expr.print_eq_of_bare_eq hbare, Expr.print_spelled]

/-- The tree of `(1 - (2 - x)) * y`. -/
def groupedTree : Expr :=
  .binary ⟨6, ⟨1, 17⟩⟩ .mul
    (.binary ⟨4, ⟨1, 11⟩⟩ .sub (.int ⟨0, ⟨1, 2⟩⟩ 1)
      (.binary ⟨3, ⟨6, 11⟩⟩ .sub (.int ⟨1, ⟨6, 7⟩⟩ 2) (.ident ⟨2, ⟨10, 11⟩⟩ ⟨1, "x"⟩)))
    (.ident ⟨5, ⟨16, 17⟩⟩ ⟨2, "y"⟩)

/-- The tree of a call whose callee is a negative integer. -/
def signedTree : Expr :=
  .call ⟨0, ⟨0, 0⟩⟩ (.int ⟨0, ⟨0, 0⟩⟩ (-3)) [.ident ⟨0, ⟨0, 0⟩⟩ ⟨1, "x"⟩]

/-- Both kinds of trees exist: one that is read from a source with parentheses, and one that no
source spells as it is. -/
theorem read_print_grouped_signed :
    (Expr.ofSourceWith .empty "(1 - (2 - x)) * y" = .ok (groupedTree, ⟨#["", "x", "y"]⟩) ∧
      ∃ e', Expr.ofSourceWith ⟨#["", "x", "y"]⟩ groupedTree.print = .ok (e', ⟨#["", "x", "y"]⟩) ∧
        e'.withoutSpans = groupedTree.withoutSpans ∧ e'.print = groupedTree.print) ∧
    signedTree.Fits ⟨#["", "x"]⟩ IsSigned ∧
      ∃ e', Expr.ofSourceWith ⟨#["", "x"]⟩ signedTree.print = .ok (e', ⟨#["", "x"]⟩) ∧
        e'.bare = signedTree.spelled.bare ∧ e'.print = signedTree.print := by
  have hread : Expr.ofSourceWith .empty "(1 - (2 - x)) * y" =
      .ok (groupedTree, ⟨#["", "x", "y"]⟩) := by with_unfolding_all rfl
  have hfits : signedTree.Fits ⟨#["", "x"]⟩ IsSigned := by
    refine ⟨⟨by decide, by decide⟩, ⟨by decide +kernel, by decide +kernel⟩, trivial⟩
  exact ⟨⟨hread, (read_print .empty).1 _ _ _ hread⟩, hfits, (read_print ⟨#["", "x"]⟩).2 _ hfits⟩

end PolicyEval
