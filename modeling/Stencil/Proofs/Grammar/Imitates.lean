import Stencil.Proofs.Grammar.Mimics

namespace Stencil

open Input Grammar
open Expr (bare bares_eq_map)

section

variable {α β γ δ : Type} {x : Seam} {shape : α → γ} {form : β → δ}

structure Imitates (x : Seam) (r r' : Parser α) (shape : α → γ) : Prop where
  mimics : ∀ fresh, Mimics x (x.Aligned fresh) r r' shape
  advances : Advances r

namespace Imitates

theorem of_fails {r r' : Parser α} (fails : Fails r) : Imitates x r r' shape :=
  ⟨fun _ => .of_fails fails, .of_fails fails⟩

theorem inside {r r' : Parser α} (imitates : Imitates x r r' shape) : x.Agrees r r' shape :=
  imitates.mimics false

theorem bind {r r' : Parser β} {next next' : β → Parser α} (fst : Imitates x r r' form)
    (snd : ∀ b b', form b' = form b → x.Agrees (next b) (next' b') shape) :
    Imitates x (r >>= next) (r' >>= next') shape :=
  ⟨fun fresh => (fst.mimics fresh).bind snd, fst.advances.bind fun b => (snd b b rfl).shrinks⟩

theorem next_bind {next next' : Token → Parser α}
    (snd : ∀ t t', t'.kind = t.kind → x.Agrees (next t) (next' t') shape) :
    Imitates x (Input.next >>= next) (Input.next >>= next') shape :=
  ⟨fun _ => .next_bind snd, Advances.next.bind fun t => (snd t t rfl).shrinks⟩

theorem expect {kind : TokenKind} : Imitates x (Input.expect kind) (Input.expect kind) Token.kind :=
  ⟨fun _ => .expect, .expect⟩

/-- A step after a look at the next token, if every such step reads that token: at the seam it takes
the brace. -/
theorem peek_bind {next next' : Token → Parser α}
    (snd : ∀ t t', t'.kind = t.kind → Imitates x (next t) (next' t') shape) :
    Imitates x (peek >>= next) (peek >>= next') shape := by
  have shrinks : ∀ t, Shrinks (next t) := fun t => (snd t t rfl).inside.shrinks
  have advances : ∀ t, Advances (next t) := fun t => (snd t t rfl).advances
  refine ⟨fun fresh => ?_, .bind_right (.peekAt 0) shrinks advances⟩
  refine .peek_bind (.of_overrun (shrinks _) (advances _).overrun) fun t t' same line => ?_
  exact ((snd t t' same).mimics fresh).mono fun _ _ => Seam.Facing.aligned same line

end Imitates

end

variable {x : Seam} {n n' : Nat}

theorem pathTail_mimics (le : n ≤ n') : x.Agrees (pathTail n) (pathTail n') id := by
  induction n, n', le using fuel_induction with
  | zero => exact .of_fails .exhausted
  | succ n n' le ih =>
  refine (Mimics.accept rfl).bind_same fun dot => ?_
  cases dot with
  | true =>
    refine Mimics.identifier.bind fun _ _ same => ?_
    refine ih.bind_same fun _ => ?_
    exact .pure (by rw [same])
  | false => exact .pure rfl

theorem typeArguments_mimics {type type' : Parser TypeSyntax} (le : n ≤ n')
    (inner : x.Agrees type type' TypeSyntax.bare) :
    x.Agrees (typeArguments type n) (typeArguments type' n') (List.map TypeSyntax.bare) := by
  refine (Mimics.sameLine rfl (by decide) (by decide)).bind_same fun opens => ?_
  cases opens with
  | true =>
    refine .next_bind fun _ _ _ => ?_
    refine (Mimics.separated le rfl inner).bind fun _ _ same => ?_
    exact Mimics.closeAngle.bind_same fun _ => .pure same
  | false => exact .pure rfl

theorem arrayLength_mimics : x.Agrees arrayLength arrayLength id := by
  refine .next_bind fun t _ same => ?_
  rw [same]
  cases t.kind with
  | int => exact .pure rfl
  | _ => exact .of_fails (.unexpected _ _)

theorem bareResult_eq_map (result : Option TypeSyntax) :
    TypeSyntax.bareResult result = result.map TypeSyntax.bare := by
  cases result <;> rfl

theorem type_imitates (le : n ≤ n') : Imitates x (type n) (type n') TypeSyntax.bare := by
  induction n, n', le using fuel_induction with
  | zero => exact .of_fails .exhausted
  | succ n n' le ih =>
  refine .next_bind fun t _ same => ?_
  rw [same]
  cases t.kind with
  | primitive => exact .spanFrom_bind fun _ _ => .pure rfl
  | identifier =>
    refine (pathTail_mimics le).bind_same fun _ => ?_
    refine (typeArguments_mimics le ih.inside).bind fun _ _ equal => ?_
    refine .spanFrom_bind fun _ _ => .pure ?_
    rw [TypeSyntax.bare, TypeSyntax.bare, TypeSyntax.bares_eq_map, TypeSyntax.bares_eq_map, equal]
  | keyword k =>
    cases k with
    | kwSelfType => exact .spanFrom_bind fun _ _ => .pure rfl
    | kwFunc =>
      refine Mimics.expect.bind fun _ _ _ => ?_
      refine .commaList_bind le ih.inside ih.advances.overrun fun _ _ equal => ?_
      refine (Mimics.after rfl ih.inside).bind fun _ _ equalResult => ?_
      refine .spanFrom_bind fun _ _ => .pure ?_
      rw [TypeSyntax.bare, TypeSyntax.bare, TypeSyntax.bares_eq_map, TypeSyntax.bares_eq_map,
        equal, bareResult_eq_map, bareResult_eq_map, equalResult]
    | _ => exact .of_fails (.unexpected _ _)
  | symbol s =>
    cases s with
    | amp =>
      refine ih.inside.bind fun _ _ equal => ?_
      refine .spanFrom_bind fun _ _ => .pure ?_
      rw [TypeSyntax.bare, TypeSyntax.bare, equal]
    | lbracket =>
      refine ih.inside.bind fun _ _ equal => ?_
      refine Mimics.expect.bind fun _ _ _ => ?_
      refine arrayLength_mimics.bind_same fun _ => ?_
      refine Mimics.expect.bind fun _ _ _ => ?_
      refine .spanFrom_bind fun _ _ => .pure ?_
      rw [TypeSyntax.bare, TypeSyntax.bare, equal]
    | _ => exact .of_fails (.unexpected _ _)
  | _ => exact .of_fails (.unexpected _ _)

theorem entryName_mimics {t t' : Token} (same : t'.kind = t.kind)
    (line : t'.newlineBefore = t.newlineBefore) :
    Mimics x (x.Facing t t') (entryName t) (entryName t') id := by
  unfold entryName
  rw [same]
  cases t.kind with
  | identifier =>
    refine (Mimics.checkSecond rfl same line).bind_same fun named => ?_
    cases named with
    | true =>
      refine Mimics.identifier.bind fun _ _ equal => ?_
      exact Mimics.expect.bind fun _ _ _ => .pure (congrArg some equal)
    | false => exact .pure rfl
  | _ => exact .facing same line (.pure rfl)

variable {expr expr' : Parser Expr}

theorem entry_mimics (inner : Imitates x expr expr' bare) :
    x.Agrees (entry expr) (entry expr') Entry.bare ∧ Advances (entry expr) := by
  have rest : ∀ name start start', Imitates x
      (expr >>= fun value => spanFrom start >>= fun span => pure { name, value, span })
      (expr' >>= fun value => spanFrom start' >>= fun span => pure { name, value, span })
      Entry.bare := by
    intro _ _ _
    refine inner.bind fun _ _ equal => .spanFrom_bind fun _ _ => .pure ?_
    rw [Entry.bare, Entry.bare, equal]
  have named : ∀ t t', t'.kind = t.kind → t'.newlineBefore = t.newlineBefore →
      Mimics x (x.Facing t t') (entryName t >>= fun name => expr >>= fun value =>
          spanFrom t.span.start >>= fun span => pure { name, value, span })
        (entryName t' >>= fun name => expr' >>= fun value =>
          spanFrom t'.span.start >>= fun span => pure { name, value, span }) Entry.bare :=
    fun t _ same line => (entryName_mimics same line).bind_same fun name => (rest name _ _).inside
  have shrinks : ∀ t, Shrinks (entryName t >>= fun name => expr >>= fun value =>
      spanFrom t.span.start >>= fun span => pure ({ name, value, span } : Entry Expr)) :=
    fun t => (named t t rfl rfl).shrinks
  have advances : ∀ t, Advances (entryName t >>= fun name => expr >>= fun value =>
      spanFrom t.span.start >>= fun span => pure ({ name, value, span } : Entry Expr)) := by
    intro t
    have name : Mimics x (x.Facing t t) (entryName t) (entryName t) id := entryName_mimics rfl rfl
    exact .bind_right name.shrinks (fun name => (rest name _ 0).inside.shrinks)
      fun name => (rest name _ 0).advances
  refine ⟨.peek_bind (.of_overrun (shrinks _) (advances _).overrun) fun t t' same line => ?_,
    .bind_right (.peekAt 0) shrinks advances⟩
  exact named t t' same (line rfl)

theorem primary_imitates (le : n ≤ n') (inner : Imitates x expr expr' bare) :
    Imitates x (primary expr n) (primary expr' n') bare := by
  refine .next_bind fun t _ same => ?_
  rw [same]
  cases t.kind with
  | int value | float value | string value | identifier name =>
    exact .spanFrom_bind fun _ _ => .pure rfl
  | keyword k =>
    cases k with
    | kwTrue | kwFalse | kwSelf => exact .spanFrom_bind fun _ _ => .pure rfl
    | _ => exact .of_fails (.unexpected _ _)
  | symbol s =>
    cases s with
    | lparen =>
      refine inner.inside.bind fun e _ equal => ?_
      refine Mimics.expect.bind fun _ _ _ => .spanFrom_bind fun _ _ => .pure ?_
      rw [Expr.bare_withSpan, Expr.bare_withSpan, equal]
    | lbracket =>
      refine .commaList_bind le inner.inside inner.advances.overrun fun _ _ equal => ?_
      refine .spanFrom_bind fun _ _ => .pure ?_
      rw [bare, bare, bares_eq_map, bares_eq_map, equal]
    | lbrace =>
      obtain ⟨entries, advances⟩ := entry_mimics inner
      refine .commaList_bind le entries advances.overrun fun _ _ equal => ?_
      refine .spanFrom_bind fun _ _ => .pure ?_
      rw [bare, bare, Expr.bareEntries_eq_map, Expr.bareEntries_eq_map, equal]
    | _ => exact .of_fails (.unexpected _ _)
  | _ => exact .of_fails (.unexpected _ _)

variable {e e' : Expr}

theorem suffixes_mimics {start start' : Nat} (le : n ≤ n')
    (inner : Imitates x expr expr' bare) (same : e'.bare = e.bare) :
    x.Agrees (suffixes expr start n e) (suffixes expr' start' n' e')
      bare := by
  induction n, n', le using fuel_induction generalizing e e' with
  | zero => exact .of_fails .exhausted
  | succ n n' le ih =>
  refine (Mimics.sameLine rfl (by decide) (by decide)).bind_same fun call => ?_
  cases call with
  | true =>
    refine .next_bind fun _ _ _ => ?_
    refine .commaList_bind le inner.inside inner.advances.overrun fun _ _ equal => ?_
    refine .spanFrom_bind fun _ _ => ih ?_
    rw [bare, bare, bares_eq_map, bares_eq_map, same, equal]
  | false =>
  refine (Mimics.check rfl).bind_same fun mem => ?_
  cases mem with
  | true =>
    refine .next_bind fun _ _ _ => Mimics.identifier.bind fun _ _ equal => ?_
    refine .spanFrom_bind fun _ _ => ih ?_
    rw [bare, bare, same, equal]
  | false =>
  refine (Mimics.sameLine rfl (by decide) (by decide)).bind_same fun index => ?_
  cases index with
  | true =>
    refine .next_bind fun _ _ _ => inner.inside.bind fun _ _ equal => ?_
    refine Mimics.expect.bind fun _ _ _ => .spanFrom_bind fun _ _ => ih ?_
    rw [bare, bare, same, equal]
  | false => exact .pure same

theorem prefixed_bare {kind : TokenKind} {build : Expr → Span → Expr}
    (got : prefixed? kind = some build) (same : e'.bare = e.bare)
    (span span' : Span) : (build e' span').bare = (build e span).bare := by
  unfold prefixed? at got
  split at got <;> cases got <;> simp only [bare, same]

theorem unary_imitates (le : n ≤ n') (inner : Imitates x expr expr' bare) :
    Imitates x (unary expr n) (unary expr' n') bare := by
  induction n, n', le using fuel_induction with
  | zero => exact .of_fails .exhausted
  | succ n n' le ih =>
  have plain : Imitates x (primary expr n >>= fun e => suffixes expr e.span.start n e)
      (primary expr' n' >>= fun e => suffixes expr' e.span.start n' e) bare :=
    (primary_imitates le inner).bind fun e _ same => suffixes_mimics le inner same
  refine .peek_bind fun t _ same => ?_
  rw [same]
  cases got : prefixed? t.kind with
  | some =>
    refine .next_bind fun _ _ _ => ih.inside.bind fun _ _ equal => ?_
    exact .spanFrom_bind fun _ _ => .pure (prefixed_bare got equal _ _)
  | none => exact plain

theorem casts_mimics (le : n ≤ n') (same : e'.bare = e.bare) :
    x.Agrees (casts n e) (casts n' e') bare := by
  induction n, n', le using fuel_induction generalizing e e' with
  | zero => exact .of_fails .exhausted
  | succ n n' le ih =>
  refine (Mimics.sameLine rfl (by decide) (by decide)).bind_same fun cast => ?_
  cases cast with
  | true =>
    refine .next_bind fun _ _ _ => (type_imitates le).inside.bind fun _ _ equal => ?_
    exact ih (by rw [bare, bare, same, equal])
  | false => exact .pure same

theorem binaryTail_mimics {arg arg' : Nat → Parser Expr} {least : Nat}
    (le : n ≤ n') (inner : ∀ least, Imitates x (arg least) (arg' least) bare)
    (same : e'.bare = e.bare) :
    x.Agrees (binaryTail arg least n e) (binaryTail arg' least n' e')
      bare := by
  induction n, n', le using fuel_induction generalizing e e' with
  | zero => exact .of_fails .exhausted
  | succ n n' le ih =>
  refine Mimics.binaryOp?.bind_same fun got => ?_
  cases got with
  | none => exact .pure same
  | some op =>
  by_cases loose : op.precedence < least
  · simp only [loose, ↓reduceIte]
    exact .pure same
  simp only [loose, ↓reduceIte]
  refine .next_bind fun _ _ _ => (inner _).inside.bind fun _ _ equal => ?_
  exact ih (by rw [bare, bare, same, equal])

theorem exprFrom_imitates (le : n ≤ n') (least : Nat) :
    Imitates x (exprFrom n least) (exprFrom n' least) bare := by
  induction n, n', le using fuel_induction generalizing least with
  | zero => exact .of_fails .exhausted
  | succ n n' le ih =>
    refine (unary_imitates le (ih 0)).bind fun _ _ same => ?_
    exact (casts_mimics le same).bind fun _ _ equal =>
      binaryTail_mimics le ih equal

theorem expr_imitates (le : n ≤ n') : Imitates x (Grammar.expr n) (Grammar.expr n') bare :=
  exprFrom_imitates le 0

theorem Stmt.bares_eq_map (ss : List Stmt) : Stmt.bares ss = ss.map Stmt.bare :=
  eq_map rfl (fun _ _ => rfl) ss

variable {stmt stmt' : Parser Stmt}

variable (le : n ≤ n')
include le

theorem block_imitates (inner : Imitates x stmt stmt' Stmt.bare) :
    Imitates x (block stmt n) (block stmt' n') Block.bare := by
  refine Imitates.expect.bind fun opening opening' _ => ?_
  have closing : ∀ ss ss', ss'.map Stmt.bare = ss.map Stmt.bare → x.Agrees
        (spanFrom opening.span.start >>= fun span => pure (.mk ss span))
        (spanFrom opening'.span.start >>= fun span => pure (.mk ss' span)) Block.bare := by
    intro _ _ equal
    refine .spanFrom_bind fun _ _ => .pure ?_
    rw [Block.bare, Block.bare, Stmt.bares_eq_map, Stmt.bares_eq_map, equal]
  obtain ⟨more, overrun⟩ := Mimics.stmtsUntilBrace_bind le inner.inside closing
  exact (Mimics.skipSemicolons_bind le more overrun).1

theorem binding_imitates (start start' : Nat) :
    Imitates x (binding n start) (binding n' start') Stmt.bare := by
  refine .next_bind fun t _ same => ?_
  rw [same]
  refine Mimics.identifier.bind fun _ _ sameName => ?_
  refine (Mimics.after rfl (type_imitates le).inside).bind fun _ _ sameType => ?_
  refine (Mimics.after rfl (expr_imitates le).inside).bind fun init init' sameInit => ?_
  have given : init'.isNone = init.isNone := by
    rw [← Option.isNone_map, sameInit, Option.isNone_map]
  rw [given]
  split
  · exact .of_fails (.bind_right fun _ => .throw _)
  refine .spanFrom_bind fun _ _ => .pure ?_
  rw [Stmt.bare, Stmt.bare, sameName, sameType, sameInit]

theorem returned_imitates (start start' : Nat) :
    Imitates x (returned n start) (returned n' start') Stmt.bare := by
  refine .next_bind fun _ _ _ => ?_
  have finish : ∀ value value', value'.map bare = value.map bare →
      x.Agrees (spanFrom start >>= fun span => pure (.ret value span))
        (spanFrom start' >>= fun span => pure (.ret value' span)) Stmt.bare := by
    intro _ _ equal
    refine .spanFrom_bind fun _ _ => .pure ?_
    rw [Stmt.bare, Stmt.bare, equal]
  refine .peek_bind ?_ fun t _ same line => ?_
  · have left : (x.brace.newlineBefore || (decide (x.brace.kind = symbol .rbrace) ||
        decide (x.brace.kind = symbol .semicolon) || decide (x.brace.kind = .eof))) := by
      rw [x.closes]
      exact Bool.or_true _
    have right : (x.next.newlineBefore || (decide (x.next.kind = symbol .rbrace) ||
        decide (x.next.kind = symbol .semicolon) || decide (x.next.kind = .eof))) := by
      rcases x.stops with stop | stop | ⟨line, -⟩
      · rw [stop]
        exact Bool.or_true _
      · rw [stop]
        exact Bool.or_true _
      · rw [line, Bool.true_or]
    simp only [left, right, ↓reduceIte, pure_bind]
    exact (finish none none rfl).parted
  rw [same, line rfl]
  refine .facing same (line rfl) ?_
  dsimp only
  split
  · exact finish none none rfl
  have value : x.Agrees (some <$> Grammar.expr n) (some <$> Grammar.expr n') (Option.map bare) :=
    (expr_imitates le).inside.map fun e _ equal => congrArg some equal
  exact value.bind finish

theorem branch_imitates (inner : Imitates x stmt stmt' Stmt.bare) :
    Imitates x (branch stmt n) (branch stmt' n') Stmt.bare := by
  induction n, n', le using fuel_induction with
  | zero => exact .of_fails .exhausted
  | succ n n' le ih =>
  refine Imitates.expect.bind fun opening opening' _ => ?_
  refine (expr_imitates le).inside.bind fun cond cond' sameCondition => ?_
  refine (block_imitates le inner).inside.bind fun body body' sameBody => ?_
  have finish : ∀ otherwise otherwise', otherwise'.bare = otherwise.bare →
      x.Agrees (spanFrom opening.span.start >>= fun span =>
          pure (.branch cond body otherwise span))
        (spanFrom opening'.span.start >>= fun span =>
          pure (.branch cond' body' otherwise' span)) Stmt.bare := by
    intro _ _ equal
    refine .spanFrom_bind fun _ _ => .pure ?_
    rw [Stmt.bare, Stmt.bare, sameCondition, sameBody, equal]
  have closed := (block_imitates le inner).bind fun b b' equal =>
    finish (.block b) (.block b') (by rw [Alternative.bare, Alternative.bare, equal])
  refine (Mimics.accept rfl).bind_same fun more => ?_
  cases more with
  | false => exact finish .absent .absent rfl
  | true =>
  simp only [↓reduceIte, bind_map_left]
  refine .check_bind ?_ fun t _ kind line got => ?_
  · have noBranch : x.brace.kind.sameClass (keyword .kwIf) = false :=
      x.brace_other rfl (by decide)
    simp only [noBranch, Bool.false_eq_true, ↓reduceIte]
    exact .of_overrun closed.inside.shrinks closed.advances.overrun
  cases got with
  | true =>
    refine .facing kind line (ih.inside.bind fun s _ equal => ?_)
    exact finish _ _ (by rw [Alternative.bare, Alternative.bare, equal])
  | false => exact .facing kind line closed.inside

theorem exprStmt_imitates (start start' : Nat) :
    Imitates x (exprStmt n start) (exprStmt n' start') Stmt.bare := by
  refine (expr_imitates le).bind fun _ _ sameTarget => ?_
  refine (Mimics.after rfl (expr_imitates le).inside).bind fun value value' sameValue => ?_
  cases value with
  | none =>
    obtain rfl : value' = none := by simpa using sameValue
    refine .spanFrom_bind fun _ _ => .pure ?_
    rw [Stmt.bare, Stmt.bare, sameTarget]
  | some =>
    obtain ⟨_, rfl, equal⟩ := Option.map_eq_some_iff.mp sameValue
    refine .spanFrom_bind fun _ _ => .pure ?_
    rw [Stmt.bare, Stmt.bare, sameTarget, equal]

theorem stmt_imitates : Imitates x (Grammar.stmt n) (Grammar.stmt n') Stmt.bare := by
  induction n, n', le using fuel_induction with
  | zero => exact .of_fails .exhausted
  | succ n n' le ih =>
  have leave : ∀ {s s' : Span → Stmt} {start start' : Nat},
      (∀ span span', (s' span').bare = (s span).bare) → Imitates x
        (next >>= fun _ => spanFrom start >>= fun span => pure (s span))
        (next >>= fun _ => spanFrom start' >>= fun span => pure (s' span)) Stmt.bare :=
    fun equal => .next_bind fun _ _ _ => .spanFrom_bind fun _ _ => .pure (equal _ _)
  refine .peek_bind fun t _ same => ?_
  rw [same]
  cases t.kind with
  | keyword k =>
    cases k with
    | kwLet | kwConst => exact binding_imitates le _ _
    | kwReturn => exact returned_imitates le _ _
    | kwIf => exact branch_imitates le ih
    | kwWhile =>
      refine .next_bind fun _ _ _ => ?_
      refine (expr_imitates le).inside.bind fun _ _ sameCondition => ?_
      refine (block_imitates le ih).inside.bind fun _ _ sameBody => ?_
      refine .spanFrom_bind fun _ _ => .pure ?_
      rw [Stmt.bare, Stmt.bare, sameCondition, sameBody]
    | kwBreak | kwContinue => exact leave fun _ _ => rfl
    | _ => exact exprStmt_imitates le _ _
  | symbol s =>
    cases s with
    | lbrace =>
      refine (block_imitates le ih).bind fun _ _ sameBody => ?_
      refine .spanFrom_bind fun _ _ => .pure ?_
      rw [Stmt.bare, Stmt.bare, sameBody]
    | _ => exact exprStmt_imitates le _ _
  | _ => exact exprStmt_imitates le _ _

end Stencil
