import Stencil.Proofs.Grammar.Spans

/-!
Reading ends. Every rule that succeeds has read a token, and every turn of a loop reads a token or
is the last one. So no rule nests deeper, and no loop takes more turns, than there is left to read.
-/

namespace Stencil

open Input Grammar

variable {α : Type} {r : Parser α} {n depth : Nat}

/-- The rules of the grammar, with a bound on their depth. -/
inductive Rule (n : Nat) : {α : Type} → Parser α → Prop
  | type : Rule n (type n)
  | primary : Rule n (primary (expr n) n)
  | unary : Rule n (unary (expr n) n)
  | expr (least : Nat) : Rule n (exprFrom n least)
  | block : Rule n (block (stmt n) n)
  | branch : Rule n (branch (stmt n) n)
  | stmt : Rule n (stmt n)
  | param : Rule n (param n)
  | func : Rule n (func n)
  | genericParam : Rule n (genericParam n)
  | template : Rule n (template n)
  | aliasDecl : Rule n (aliasDecl n)
  | spec : Rule n (spec n)
  | action : Rule n (action n)
  | const : Rule n (const n)
  | package : Rule n (package (item n) n)
  | item : Rule n (item n)

/-- The loops of the grammar, with a bound on their turns. Those that extend an expression follow
the rule that starts it. -/
inductive Loop (n : Nat) : {α : Type} → Parser α → Prop
  | path : Loop n (pathTail n)
  | typeArguments : Loop n (typeArguments (type n) n)
  | types (close : TokenKind) : Loop n (commaList close (type n) n)
  | exprs (close : TokenKind) : Loop n (commaList close (expr n) n)
  | entries (close : TokenKind) : Loop n (commaList close (entry (expr n)) n)
  | suffixes : Loop n (primary (expr n) n >>= fun e => suffixes (expr n) e.span.start n e)
  | casts : Loop n (unary (expr n) n >>= casts n)
  | operators (least : Nat) :
    Loop n (unary (expr n) n >>= fun e => casts n e >>= binaryTail (exprFrom n) least n)
  | semicolons : Loop n (skipSemicolons n)
  | stmts : Loop n (stmtsUntilBrace (stmt n) n)
  | params : Loop n (paramList n)
  | constraints : Loop n (separated (symbol .plus) (type n) n)
  | generics : Loop n (generics n)
  | separators : Loop n (skipSeparators n)
  | templateMembers : Loop n (templateMembers n n)
  | members : Loop n (memberList n n)
  | items (close : TokenKind) : Loop n (itemsUntil close (item n) n)
  | module : Loop n (module n)

/-- A failure is one of the text, and a bound of `n` is exhausted only if about as much is left to
read. -/
def Halts (n : Nat) (r : Parser α) : Prop :=
  ∀ s d u, s.Sound → r s = .error d u → (d.kind = .lexical ∨ d.kind = .syntactic) ∧
    (d.problem = .tooDeep → n ≤ s.size + 2)

def Consumes (r : Parser α) : Prop :=
  ∀ s a u, s.Sound → r s = .ok a u → ∃ tokens : List Token, tokens ≠ [] ∧
    u.read = tokens.reverse ++ s.read ∧ Splits s.pending (tokens.map .token ++ u.pending)

theorem Halts.of_reads {post : Input → α → Input → Prop} (le : n ≤ depth + 2)
    (reads : ∀ s, s.Sound → Reads depth r s (post s)) : Halts n r := by
  intro s d u sound failed
  have reports := (reads s sound).error failed
  refine ⟨reports.kind, fun deep => ?_⟩
  have := reports.deep deep
  omega

theorem Halts.first {β : Type} {f : α → Parser β} (halts : Halts n (r >>= f)) : Halts n r :=
  fun s d u sound failed => halts s d u sound (bind_run_error failed)

section

variable [Lies α]

theorem Gathers.halts (gathers : Gathers depth r) (le : n ≤ depth + 2) : Halts n r :=
  .of_reads le gathers.reads

theorem Finds.consumes (finds : Finds depth r) : Consumes r := by
  intro s a u sound run
  obtain ⟨later, passes, -⟩ := (finds.reads s sound).ok run
  obtain ⟨tokens, read, -, splits⟩ := later.consumed
  refine ⟨tokens, ?_, read, splits⟩
  rintro rfl
  exact Nat.ne_of_lt passes.2 splits.size

theorem Finds.ends (finds : Finds depth r) (le : n ≤ depth + 2) : Consumes r ∧ Halts n r :=
  ⟨finds.consumes, finds.gathers.halts le⟩

end

theorem Rule.ends (rule : Rule n r) : Consumes r ∧ Halts n r := by
  cases rule with
  | type => exact (finds_type n).ends (by omega)
  | primary => exact (finds_primary (finds_expr n) n (by omega)).ends (by omega)
  | unary => exact (finds_unary (finds_expr n) n (by omega)).ends (by omega)
  | expr least => exact (finds_exprFrom n least).ends (by omega)
  | block => exact (finds_block (finds_stmt n) n (by omega)).ends (by omega)
  | branch => exact (finds_branch (finds_stmt n) n (by omega)).ends (by omega)
  | stmt => exact (finds_stmt n).ends (by omega)
  | param => exact (finds_param n).ends (by omega)
  | func => exact (finds_func n).ends (by omega)
  | genericParam => exact (finds_genericParam n).ends (by omega)
  | template => exact (finds_template n).ends (by omega)
  | aliasDecl => exact (finds_aliasDecl n).ends (by omega)
  | spec => exact (finds_spec n).ends (by omega)
  | action => exact (finds_action n).ends (by omega)
  | const => exact (finds_const n).ends (by omega)
  | package => exact (finds_package (finds_item n) n (by omega)).ends (by omega)
  | item => exact (finds_item n).ends (by omega)

theorem Loop.halts (loop : Loop n r) : Halts n r := by
  cases loop with
  | path => exact .of_reads (by omega) fun s sound => reads_pathTail n sound .refl
  | typeArguments => exact (gathers_typeArguments n (finds_type n) .refl).halts (by omega)
  | types => exact ((finds_type n).commaList n (by omega)).halts (by omega)
  | exprs => exact ((finds_expr n).commaList n (by omega)).halts (by omega)
  | entries => exact ((finds_entry (finds_expr n)).commaList n (by omega)).halts (by omega)
  | suffixes => exact (finds_trailing (finds_expr n) n (by omega)).gathers.halts (by omega)
  | casts =>
    refine .first (f := binaryTail (exprFrom n) 0 n) ?_
    rw [bind_assoc]
    exact (finds_exprFrom (n + 1) 0).gathers.halts (by omega)
  | operators least => exact (finds_exprFrom (n + 1) least).gathers.halts (by omega)
  | semicolons => exact .of_reads (by omega) fun s sound => Reads.skipSemicolons n sound .refl
  | stmts => exact (gathers_stmtsUntilBrace (finds_stmt n) n (by omega)).halts (by omega)
  | params => exact (gathers_paramList n).halts (by omega)
  | constraints => exact ((finds_type n).separated n .refl).gathers.halts (by omega)
  | generics => exact (gathers_generics n).halts (by omega)
  | separators => exact .of_reads (by omega) fun s sound => reads_skipSeparators n sound .refl
  | templateMembers => exact (gathers_templateMembers n n .refl .refl).halts (by omega)
  | members => exact (gathers_memberList n n .refl .refl).halts (by omega)
  | items => exact (gathers_itemsUntil (finds_item n) n (by omega)).halts (by omega)
  | module => exact .of_reads (by omega) fun s sound => reads_module n sound

/-- A syntax tree, or a failure of the text that is not one of depth. -/
def Settled (result : Except Diagnostic α) : Prop :=
  ∀ d, result = .error d → (d.kind = .lexical ∨ d.kind = .syntactic) ∧ d.problem ≠ .tooDeep

theorem Grammar.parse_settled {rule : Nat → Parser α} {post : Input → α → Input → Prop}
    (reads : ∀ n s, s.Sound → Reads (n - 1) (rule n) s (post s)) (source : List Char) :
    Settled (Grammar.parse rule source) := by
  intro d failed
  have reports := parse_reports reads failed
  refine ⟨reports.kind, fun deep => ?_⟩
  have exhausted : _ ≤ sizeOfPending _ := reports.deep deep
  have := sizeOfPending_le (Input.ofChars source).pending
  unfold bound at exhausted
  omega

/-- Reading ends on every text, well formed or not. The bound on depth, twice the number of lexemes,
is never exhausted: rules that succeed have read a token, and no loop takes more turns than there is
left to read. -/
theorem parse_terminates :
    (∀ source, Settled (Module.parse source) ∧ Settled (Expr.parse source)) ∧
    (∀ n α (r : Parser α), Rule n r → Consumes r ∧ Halts n r) ∧
    ∀ n α (r : Parser α), Loop n r → Halts n r := by
  refine ⟨fun source => ⟨?_, ?_⟩, fun n α r => Rule.ends, fun n α r => Loop.halts⟩
  · exact Grammar.parse_settled (fun n s sound => reads_module n sound) source.toList
  · exact Grammar.parse_settled (fun n s sound => (finds_expr n).reads s sound) source.toList

end Stencil
