import Stencil.Grammar.Item
import Stencil.Proofs.Grammar.Nested

namespace Stencil

open Input Grammar Lies TokenKind Midway Span

variable {α : Type} {s s0 : Input} {start depth : Nat}

open Reads

theorem reads_pathTail (n : Nat) (sound : s.Sound) (le : depth ≤ n) :
    Reads depth (pathTail n) s fun _ _ => True := by
  induction n generalizing s depth with
  | zero =>
    cases le
    exact exhausted sound
  | succ n ih =>
  refine accept_bind sound (fun _ _ later1 _ => ?_) (pure sound trivial)
  refine bind (identifier later1.sound) ?_
  intro _ _ later2 _
  refine bind (ih later2.sound (by omega)) ?_
  exact fun _ _ later3 _ => pure later3.sound trivial

theorem gathers_typeArguments {type : Parser TypeSyntax} (n : Nat)
    (finds : Finds depth type) (le : depth ≤ n) :
    Gathers depth (typeArguments type n) := by
  refine ⟨fun s sound => sameLine_bind sound ?_ (pure sound fun _ => nofun)⟩
  intro t faces same
  have proper := sameClass_proper same
  refine (here sound).take faces proper fun _ m => ?_
  refine m.part (finds.separated n le).gathers (by omega) fun _ _ m => ?_
  exact m.skip (closeAngle m.sound) fun _ _ m => m.pure fun h => h.2

theorem reads_arrayLength (sound : s.Sound) : Reads depth arrayLength s fun _ _ => True := by
  refine next_bind sound ?_ ?_
  · intro t _ later takes _
    split
    · exact pure later.sound trivial
    · exact unexpected (takes.within later.sound)
  intro t _ ended
  rw [ended]
  exact ⟨_, _, rfl⟩

theorem finds_type (n : Nat) : Finds n (type n) := by
  induction n with
  | zero => exact .exhausted
  | succ n ih =>
  refine ⟨fun s sound => next_bind sound ?_ ?_⟩
  · intro t _ later takes _
    have m := begin takes later
    split
    · exact m.close id fun _ _ holds _ => ⟨holds, trivial⟩
    · exact m.close id fun _ _ holds _ => ⟨holds, trivial⟩
    · refine m.part ih.gathers (by omega) fun _ _ m => ?_
      exact m.close (·.1) fun _ _ holds h => ⟨holds, h.2⟩
    · refine m.part ih.gathers (by omega) fun _ _ m => m.expect fun _ _ m => ?_
      refine m.skip (reads_arrayLength m.sound) fun _ _ m => m.expect fun _ _ m => ?_
      exact m.close (·.1) fun _ _ holds h => ⟨holds, h.2⟩
    · refine m.expect fun _ _ m => m.part (ih.commaList n (by omega)) (by omega) fun _ _ m => ?_
      refine m.expect fun _ _ m => m.part ih.after (by omega) fun _ _ m => ?_
      exact m.close (·.1.1) fun _ _ holds h =>
        ⟨holds, TypeSyntax.allIn_iff.mpr h.1.2, TypeSyntax.resultIn_iff.mpr h.2⟩
    · refine m.skip (reads_pathTail n m.sound (by omega)) fun _ _ m => ?_
      refine m.part (gathers_typeArguments n ih (by omega)) (by omega) fun _ _ m => ?_
      exact m.close (·.1) fun _ _ holds h => ⟨holds, TypeSyntax.allIn_iff.mpr h.2⟩
    · exact unexpected (takes.within later.sound)
  intro t _ ended
  rw [ended]
  exact ⟨_, _, rfl⟩

theorem Lies.In.ordered [Spanned α] {outer : Span} {x : α} (lies : In outer x) :
    outer.start ≤ outer.stop :=
  Nat.le_trans lies.1.1 (Nat.le_trans lies.1.2.1 lies.1.2.2)

namespace Span

variable {outer a b : Span}

theorem holds_join (fst : outer.Holds a) (snd : outer.Holds b) : outer.Holds (a.join b) := by
  simp only [Holds, join] at *
  omega

theorem join_holds_left (fst : outer.Holds a) : (a.join b).Holds a :=
  ⟨(join_covers_left _ _).1, fst.2.1, (join_covers_left _ _).2⟩

theorem join_holds_right (snd : outer.Holds b) : (a.join b).Holds b :=
  ⟨(join_covers_right _ _).1, snd.2.1, (join_covers_right _ _).2⟩

end Span

theorem reads_entryName (t : Token) (sound : s.Sound) :
    Reads depth (entryName t) s fun _ _ => True := by
  unfold entryName
  split
  · refine bind (.checkSecond _ sound) ?_
    rintro _ _ - rfl
    split
    · refine bind (identifier sound) ?_
      rintro ⟨_, _⟩ _ later2 _
      refine bind (expect later2.sound) ?_
      exact fun _ _ later3 _ => pure later3.sound trivial
    · exact pure sound trivial
  · exact pure sound trivial

theorem prefixed_in {kind : TokenKind} {build : Expr → Span → Expr} {arg : Expr}
    {outer span : Span} (got : prefixed? kind = some build) (lies : In span arg)
    (holds : outer.Holds span) : In outer (build arg span) := by
  unfold prefixed? at got
  split at got <;> cases got <;> exact ⟨holds, lies⟩

theorem prefixed_proper {kind : TokenKind} {build : Expr → Span → Expr}
    (got : prefixed? kind = some build) : kind ≠ .eof := by
  rintro rfl
  cases got

section

variable {expr : Parser Expr} (finds : Finds depth expr)

include finds

theorem finds_entry : Finds depth (entry expr) := by
  refine ⟨fun s sound => peek_bind sound fun t faces => ?_⟩
  rw [faces.start]
  refine (here sound).skip (reads_entryName t sound) fun _ _ m => ?_
  exact m.last finds (by omega) fun _ _ _ => .intro

theorem finds_primary (n : Nat) (le : depth ≤ n) : Finds (depth + 1) (primary expr n) := by
  refine ⟨fun s sound => next_bind sound ?_ ?_⟩
  · intro t _ later takes _
    have m := begin takes later
    have within := takes.within later.sound
    cases kind : t.kind with
    | int | float | string | identifier => exact m.close id fun _ _ holds _ => ⟨holds, trivial⟩
    | eof | primitive => exact unexpected within
    | keyword k =>
      cases k with
      | kwTrue | kwFalse | kwSelf => exact m.close id fun _ _ holds _ => ⟨holds, trivial⟩
      | _ => exact unexpected within
    | symbol sym =>
    cases sym with
    | lparen =>
      refine m.part finds.gathers (by omega) fun _ _ m => m.expect fun _ _ m => ?_
      exact m.close (·.1) fun _ _ holds h => h.2.withSpan holds
    | lbracket =>
      refine m.part (finds.commaList n le) (by omega) fun _ _ m => m.expect fun _ _ m => ?_
      exact m.close (·.1) fun _ _ holds h => ⟨holds, Expr.allIn_iff.mpr h.2⟩
    | lbrace =>
      refine m.part ((finds_entry finds).commaList n le) (by omega) fun _ _ m =>
        m.expect fun _ _ m => ?_
      exact m.close (·.1) fun _ _ holds h => ⟨holds, Expr.entriesIn_iff.mpr h.2⟩
    | _ => exact unexpected within
  intro t _ ended
  rw [ended]
  exact ⟨_, _, rfl⟩

/-- The suffixes of an expression widen it to the right. -/
theorem reads_suffixes (n : Nat) (e : Expr) (m : Midway 1 s0 start (fun outer => In outer e) s)
    {most : Nat} (le : most ≤ n) (le' : most ≤ depth + 1) : Reads most (suffixes expr start n e) s
      fun e' s' => Midway 1 s0 start (fun outer => In outer e') s' := by
  induction n generalizing s e most with
  | zero =>
    cases le
    exact exhausted m.sound
  | succ n ih =>
  have finds := finds.mono (show most - 1 ≤ depth by omega)
  refine sameLine_bind m.sound ?_ (check_bind m.sound ?_)
  · intro t faces same
    refine m.take faces (sameClass_proper same) fun _ m => ?_
    refine m.part (finds.commaList n (by omega)) (by omega) fun _ _ m => m.expect fun _ _ m => ?_
    have read := m.now.1.ordered
    refine spanFrom_bind read (ih _ (m.turn read fun _ holds h => ?_) (by omega) (by omega))
    exact ⟨holds, h.1, Expr.allIn_iff.mpr h.2⟩
  intro t faces
  split
  · rename_i same
    refine m.take faces (sameClass_proper same) fun _ m => ?_
    refine m.name fun _ u _ _ m => ?_
    have read := m.now.1.ordered
    refine spanFrom_bind read (ih _ (m.turn read fun _ holds h => ?_) (by omega) (by omega))
    exact ⟨holds, h⟩
  refine sameLine_bind m.sound ?_ (pure m.sound m)
  intro t faces same
  refine m.take faces (sameClass_proper same) fun _ m => ?_
  refine m.part finds.gathers (by omega) fun _ _ m => m.expect fun _ _ m => ?_
  have read := m.now.1.ordered
  refine spanFrom_bind read (ih _ (m.turn read fun _ holds h => ?_) (by omega) (by omega))
  exact ⟨holds, h⟩

theorem finds_trailing (n : Nat) (le : depth ≤ n) :
    Finds (depth + 1) (primary expr n >>= fun e => suffixes expr e.span.start n e) := by
  refine ⟨fun s sound => ?_⟩
  refine (here sound).find (finds_primary finds n le) (by omega) fun e s1 _ m => ?_
  have lies := m.now.2
  have holds := lies.holds
  -- From here on, the expression starts where it starts itself.
  have own : Midway 1 s e.span.start (fun outer => In outer e) s1 := by
    refine ⟨m.later, m.passed, holds.1, ?_, fun _ le => ⟨?_, lies.2⟩⟩
    · exact Nat.le_trans (Nat.le_trans holds.2.1 holds.2.2) m.sound.lastEnd_le.1
    · exact ⟨.refl, holds.2.1, Nat.le_trans holds.2.2 le⟩
  refine (reads_suffixes finds n e own le (Nat.le_succ depth)).mono fun _ _ _ m => ?_
  exact m.found m.now.ordered

theorem finds_unary (n : Nat) (le : n ≤ depth + 1) : Finds n (unary expr n) := by
  induction n with
  | zero => exact .exhausted
  | succ n ih =>
  have finds := finds.mono (Nat.le_of_succ_le_succ le)
  refine ⟨fun s sound => peek_bind sound fun t faces => ?_⟩
  split
  · rename_i build got
    refine take_bind sound faces (prefixed_proper got) fun _ later takes => ?_
    refine (begin takes later).part (ih (by omega)).gathers (by omega) fun _ _ m => ?_
    exact m.close (·.1) fun _ _ holds h => prefixed_in got h.2 holds
  · exact (finds_trailing finds n .refl).reads s sound

end

theorem reads_casts (n : Nat) (e : Expr) (m : Midway 1 s0 start (fun outer => In outer e) s)
    (le : depth ≤ n) : Reads depth (casts n e) s fun e' s' =>
      Midway 1 s0 start (fun outer => In outer e') s' := by
  induction n generalizing s e depth with
  | zero =>
    cases le
    exact exhausted m.sound
  | succ n ih =>
  refine sameLine_bind m.sound ?_ (pure m.sound m)
  intro t faces same
  refine m.take faces (sameClass_proper same) fun _ m => ?_
  refine m.part (finds_type n).gathers (by omega) fun _ _ m =>
    ih _ (m.mono fun _ h => ?_) (by omega)
  exact ⟨holds_join h.1.1 h.2.1, ⟨join_holds_left h.1.1, h.1.2⟩, join_holds_right h.2.1, h.2.2⟩

theorem Reads.binaryOp_bind {next : Option BinaryOp → Parser α} {post : α → Input → Prop}
    (sound : s.Sound)
    (some : ∀ t op, s.Faces t → t.kind ≠ .eof → Reads depth (next (some op)) s post)
    (none : Reads depth (next none) s post) : Reads depth (binaryOp? >>= next) s post := by
  unfold binaryOp?
  rw [bind_assoc]
  refine peek_bind sound ?_
  intro t faces
  split
  · exact none
  split
  · rename_i symbol kind
    cases BinaryOp.ofSymbol? symbol with
    | none => exact none
    | some op => exact some t op faces (kind ▸ TokenKind.noConfusion)
  · exact none

theorem reads_binaryTail {arg : Nat → Parser Expr} {least most : Nat}
    (finds : ∀ p, Finds most (arg p)) (n : Nat) (e : Expr)
    (m : Midway 1 s0 start (fun outer => In outer e) s) (le : depth ≤ n)
    (le' : depth ≤ most + 1) :
    Reads depth (binaryTail arg least n e) s fun e' s' =>
      Midway 1 s0 start (fun outer => In outer e') s' := by
  induction n generalizing s e depth with
  | zero =>
    cases le
    exact exhausted m.sound
  | succ n ih =>
  refine binaryOp_bind m.sound ?_ (pure m.sound m)
  intro t _ faces proper
  dsimp only
  split
  · exact pure m.sound m
  refine m.take faces proper fun _ m => ?_
  refine m.part (finds _).gathers (by omega) fun _ _ m =>
    ih _ (m.mono fun _ h => ?_) (by omega) (by omega)
  exact ⟨holds_join h.1.1 h.2.1, ⟨join_holds_left h.1.1, h.1.2⟩, join_holds_right h.2.1, h.2.2⟩

theorem finds_exprFrom (n least : Nat) : Finds (n - 1) (exprFrom n least) := by
  induction n generalizing least with
  | zero => exact .exhausted
  | succ n ih =>
  refine ⟨fun s sound => ?_⟩
  refine (here sound).find (finds_unary (ih 0) n (by omega)) (by omega) fun arg _ _ m => ?_
  refine bind (reads_casts n arg (m.mono fun _ h => h.2) (by omega)) fun left _ _ m => ?_
  refine (reads_binaryTail ih n left m (by omega) (by omega)).mono fun e _ _ m => ?_
  exact m.found m.now.ordered

theorem finds_expr (n : Nat) : Finds (n - 1) (expr n) :=
  finds_exprFrom n 0

section

variable {stmt : Parser Stmt} (finds : Finds depth stmt)

include finds

theorem gathers_stmtsUntilBrace (n : Nat) (le : depth ≤ n) :
    Gathers depth (stmtsUntilBrace stmt n) := by
  induction n generalizing depth with
  | zero =>
    cases le
    exact ⟨fun s sound => exhausted sound⟩
  | succ n ih =>
  have ih := ih (finds.mono (Nat.sub_le depth 1)) (by omega)
  refine ⟨fun s sound => check_bind sound fun t _ => ?_⟩
  split
  · exact pure sound fun _ => nofun
  refine check_bind sound fun t _ => ?_
  split
  · exact peek_bind sound fun t faces => throw (faces.holds sound) rfl Problem.noConfusion
  refine (here sound).find finds (by omega) fun _ _ _ m => ?_
  refine m.skip (skipSemicolons n m.sound (by omega)) fun _ _ m =>
    m.part ih (by omega) fun _ _ m => ?_
  exact m.pure fun h => List.forall_mem_cons.mpr ⟨h.1.2, h.2⟩

theorem finds_block (n : Nat) (le : depth ≤ n) : Finds (depth + 1) (block stmt n) := by
  refine .of_expect fun s _ _ m => ?_
  refine m.skip (skipSemicolons n m.sound (by omega)) fun _ _ m => ?_
  refine m.part (gathers_stmtsUntilBrace finds n le) (by omega) fun _ _ m =>
    m.expect fun _ _ m => ?_
  exact m.close (·.1) fun _ _ holds h => ⟨holds, Stmt.allIn_iff.mpr h.2⟩

end

variable {t : Token}

theorem finds_binding (n : Nat) (sound : s.Sound) (faces : s.Faces t)
    (proper : t.kind ≠ .eof) : Reads n (binding n t.span.start) s fun c s' =>
      s.Passes s' ∧ In (s.upTo s') c := by
  refine take_bind sound faces proper fun _ later takes => ?_
  refine (begin takes later).name fun _ u _ _ m => ?_
  refine m.part (finds_type n).after (by omega) fun _ _ m => ?_
  refine m.part (finds_expr n).after (by omega) fun _ _ m => ?_
  split
  · refine peek_bind m.sound fun u faces => ?_
    exact bind (throw (faces.holds m.sound) rfl Problem.noConfusion)
      fun _ _ _ (impossible : False) => impossible.elim
  · exact m.close (·.1.1.1) fun _ _ holds h => ⟨holds, h.1.1.2, h.1.2, h.2⟩

theorem finds_returned (n : Nat) (sound : s.Sound) (faces : s.Faces t)
    (proper : t.kind ≠ .eof) : Reads n (returned n t.span.start) s fun c s' =>
      s.Passes s' ∧ In (s.upTo s') c := by
  refine take_bind sound faces proper fun _ later takes => ?_
  have m := begin takes later
  refine peek_bind m.sound fun u _ => ?_
  dsimp only
  split
  · exact m.close id fun _ _ holds _ => ⟨holds, fun _ => nofun⟩
  rw [bind_map_left]
  refine m.part (finds_expr n).gathers (by omega) fun e _ m =>
    m.close (·.1) fun _ _ holds h => ⟨holds, ?_⟩
  rintro _ ⟨⟩
  exact h.2

theorem finds_exprStmt (n : Nat) (sound : s.Sound) (faces : s.Faces t) :
    Reads (n - 1) (exprStmt n t.span.start) s fun c s' => s.Passes s' ∧ In (s.upTo s') c := by
  rw [faces.start]
  refine (here sound).find (finds_expr n) (by omega) fun _ _ _ m => ?_
  refine m.part (finds_expr n).after (by omega) fun value _ m => ?_
  cases value with
  | none => exact m.close (·.1.2.ordered) fun _ _ holds h => ⟨holds, h.1.2⟩
  | some value =>
    exact m.close (·.1.2.ordered) fun _ _ holds h => ⟨holds, h.1.2, h.2 value rfl⟩

theorem finds_branch {stmt : Parser Stmt} (finds : Finds depth stmt) (n : Nat)
    (le : n ≤ depth + 2) : Finds (n - 1) (branch stmt n) := by
  induction n with
  | zero => exact .exhausted
  | succ n ih =>
  have finds := finds.mono (show n - 1 ≤ depth by omega)
  have ih := ih (by omega)
  refine .of_expect fun s _ _ m => ?_
  refine m.part (finds_expr n).gathers (by omega) fun _ _ m => ?_
  refine m.part (finds_block finds n (by omega)).gathers (by omega) fun _ _ m => ?_
  refine m.skip (accept m.sound) fun _ _ m => ?_
  split
  · refine check_bind m.sound fun t _ => ?_
    split
    · rw [bind_map_left]
      refine m.part ih.gathers (by omega) fun _ _ m => ?_
      exact m.close (·.1.1.1) fun _ _ holds h => ⟨holds, h.1.1.2, h.1.2, h.2⟩
    rw [bind_map_left]
    refine m.part (finds_block finds n (by omega)).gathers (by omega) fun _ _ m => ?_
    exact m.close (·.1.1.1) fun _ _ holds h => ⟨holds, h.1.1.2, h.1.2, h.2⟩
  · exact m.close (·.1.1) fun _ _ holds h => ⟨holds, h.1.2, h.2, trivial⟩

theorem finds_stmt (n : Nat) : Finds (n - 2) (stmt n) := by
  induction n with
  | zero => exact .exhausted
  | succ n ih =>
  refine ⟨fun s sound => peek_bind sound fun t faces => ?_⟩
  split
  · rename_i kind
    exact (finds_binding n sound faces (kind ▸ TokenKind.noConfusion)).lower (by omega)
  · rename_i kind
    exact (finds_binding n sound faces (kind ▸ TokenKind.noConfusion)).lower (by omega)
  · rename_i kind
    exact (finds_returned n sound faces (kind ▸ TokenKind.noConfusion)).lower (by omega)
  · exact (finds_branch ih n (by omega)).reads s sound
  · rename_i kind
    refine take_bind sound faces (kind ▸ TokenKind.noConfusion) fun _ later takes => ?_
    refine (begin takes later).part (finds_expr n).gathers (by omega) fun _ _ m => ?_
    refine m.part (finds_block ih n (by omega)).gathers (by omega) fun _ _ m => ?_
    exact m.close (·.1.1) fun _ _ holds h => ⟨holds, h.1.2, h.2⟩
  · rename_i kind
    refine take_bind sound faces (kind ▸ TokenKind.noConfusion) fun _ later takes => ?_
    exact (begin takes later).close id fun _ _ holds _ => ⟨holds, trivial⟩
  · rename_i kind
    refine take_bind sound faces (kind ▸ TokenKind.noConfusion) fun _ later takes => ?_
    exact (begin takes later).close id fun _ _ holds _ => ⟨holds, trivial⟩
  · rw [faces.start]
    exact (here sound).last (finds_block ih n (by omega)) (by omega) fun _ _ _ => .intro
  · exact finds_exprStmt n sound faces

instance : Spanned (String × TypeSyntax × Span) :=
  ⟨(·.2.2), fun p => In p.2.2 p.2.1⟩

section

variable (n : Nat)
include n

theorem finds_typedName : Finds n (typedName n) := by
  refine ⟨fun s sound => ?_⟩
  refine (here sound).name fun _ t _ _ m => m.expect fun _ _ m => ?_
  refine m.part (finds_type n).gathers (by omega) fun _ _ m => ?_
  obtain ⟨⟨-, own⟩, other⟩ := m.now
  refine pure m.sound ⟨⟨Nat.le_trans own.1 (Nat.le_trans own.2.1 own.2.2), m.passed⟩, ?_, ?_⟩
  · exact holds_join own other.1
  · exact ⟨join_holds_right other.1, other.2⟩

theorem finds_param : Finds n (param n) := by
  refine ⟨fun s sound => bind ((finds_typedName n).reads s sound) ?_⟩
  rintro ⟨_, _, _⟩ _ later1 ⟨read, lies⟩
  exact pure later1.sound ⟨read, lies⟩

instance : Lies Bool := ⟨fun _ _ => True, fun _ => id⟩

theorem gathers_paramList : Gathers n (paramList n) := by
  refine ⟨fun s sound => (here sound).skip (accept sound) fun _ _ m => ?_⟩
  split
  · refine m.skip (accept m.sound) fun _ _ m => ?_
    split
    · exact m.part ((finds_param n).commaList n .refl) (by omega) fun _ _ m =>
        m.pure fun h => ⟨trivial, h.2⟩
    · exact m.pure fun _ => ⟨trivial, fun _ => nofun⟩
  · exact m.part ((finds_param n).commaList n .refl) (by omega) fun _ _ m =>
      m.pure fun h => ⟨trivial, h.2⟩

theorem gathers_funcBody : Gathers (n - 1) (funcBody n) := by
  refine ⟨fun s sound => check_bind sound fun t _ => ?_⟩
  split
  · refine map (((finds_block (finds_stmt n) n (by omega)).reads s sound).lower (by omega) |>.mono ?_)
    rintro _ _ _ ⟨-, lies⟩ _ ⟨⟩
    exact lies
  · exact pure sound fun _ => nofun

theorem finds_func : Finds n (func n) := by
  refine .of_expect fun s _ _ m => ?_
  refine m.name fun _ t _ _ m => m.expect fun _ _ m => ?_
  refine m.part (gathers_paramList n) (by omega) fun _ _ m => m.expect fun _ _ m => ?_
  refine m.part (finds_type n).after (by omega) fun _ _ m => ?_
  refine m.part (gathers_funcBody n) (by omega) fun _ _ m => ?_
  exact m.close (·.1.1.1.1) fun _ _ holds h => ⟨holds, h.1.1.1.2, h.1.1.2.2, h.1.2, h.2⟩

theorem finds_genericParam : Finds n (genericParam n) := by
  refine ⟨fun s sound => bind (identifier sound) ?_⟩
  rintro ⟨_, _⟩ _ later ⟨t, rfl, takes⟩
  refine (begin takes later).part (((finds_type n).separated n .refl).after)
    (by omega) fun got _ m => m.close (·.1) fun _ _ holds h => ⟨holds, ?_⟩
  cases got with
  | none => exact fun _ => nofun
  | some got => exact h.2 got rfl

theorem gathers_generics : Gathers n (generics n) := by
  refine ⟨fun s sound => ?_⟩
  refine (here sound).skip (accept sound) fun _ _ m => ?_
  split
  · refine m.part ((finds_genericParam n).separated n .refl).gathers (by omega) fun _ _ m => ?_
    exact m.skip (closeAngle m.sound) fun _ _ m => m.pure fun h => h.2
  · exact m.pure fun _ _ => nofun

theorem reads_skipSeparators (sound : s.Sound) (le : depth ≤ n) :
    Reads depth (skipSeparators n) s fun _ _ => True := by
  induction n generalizing s depth with
  | zero =>
    cases le
    exact exhausted sound
  | succ n ih =>
    have turn {s' : Input} (later : s.Later s') := @ih s' (depth - 1) later.sound (by omega)
    refine accept_bind sound (fun _ _ later _ => turn later) ?_
    exact accept_bind sound (fun _ _ later _ => turn later) (pure sound trivial)

end

theorem gathers_templateMembers (bound n : Nat) (le : depth ≤ n) (le' : depth ≤ bound) :
    Gathers depth (templateMembers bound n) := by
  induction n generalizing depth with
  | zero =>
    cases le
    exact ⟨fun s sound => exhausted sound⟩
  | succ n ih =>
  have ih := @ih (depth - 1) (by omega) (by omega)
  refine ⟨fun s sound => check_bind sound fun t _ => ?_⟩
  split
  · exact pure sound ⟨fun _ => nofun, fun _ => nofun⟩
  refine check_bind sound fun t _ => ?_
  split
  · refine (here sound).find (finds_func bound) (by omega) fun _ _ _ m => ?_
    refine m.skip (reads_skipSeparators bound m.sound (by omega)) fun _ _ m => ?_
    exact m.part ih (by omega) fun _ _ m =>
      m.pure fun h => ⟨h.2.1, List.forall_mem_cons.mpr ⟨h.1.2, h.2.2⟩⟩
  refine (here sound).find (finds_typedName bound) (by omega) fun field _ _ m => ?_
  refine m.skip (reads_skipSeparators bound m.sound (by omega)) fun _ _ m => ?_
  refine m.part ih (by omega) fun _ _ m => m.pure fun h => ?_
  exact ⟨List.forall_mem_cons.mpr ⟨h.1.2, h.2.1⟩, h.2.2⟩

theorem finds_template (n : Nat) : Finds n (template n) := by
  refine .of_expect fun s _ _ m => m.name fun _ t _ _ m => ?_
  refine m.part (gathers_generics n) (by omega) fun _ _ m => m.expect fun _ _ m => ?_
  refine m.part (gathers_templateMembers n n .refl .refl) (by omega) fun _ _ m =>
    m.expect fun _ _ m => ?_
  exact m.close (·.1.1.1) fun _ _ holds h => ⟨holds, h.1.2, h.2.1, h.2.2⟩

theorem finds_aliasDecl (n : Nat) : Finds n (aliasDecl n) := by
  refine .of_expect fun s _ _ m => m.name fun _ t _ _ m => ?_
  refine m.part (gathers_generics n) (by omega) fun _ _ m => ?_
  refine m.part (finds_type n).after (by omega) fun _ _ m => ?_
  exact m.close (·.1.1.1) fun _ _ holds h => ⟨holds, h.1.2, h.2⟩

theorem gathers_memberList (bound n : Nat) (le : depth ≤ n) (le' : depth ≤ bound) :
    Gathers depth (memberList bound n) := by
  induction n generalizing depth with
  | zero =>
    cases le
    exact ⟨fun s sound => exhausted sound⟩
  | succ n ih =>
  have ih := @ih (depth - 1) (by omega) (by omega)
  refine ⟨fun s sound => check_bind sound fun t _ => ?_⟩
  split
  · exact pure sound ⟨fun _ => nofun, fun _ => nofun⟩
  refine check_bind sound fun t _ => ?_
  split
  · refine (here sound).find (finds_aliasDecl bound) (by omega) fun _ _ _ m => ?_
    refine m.skip (skipSemicolons bound m.sound (by omega)) fun _ _ m => ?_
    exact m.part ih (by omega) fun _ _ m =>
      m.pure fun h => ⟨List.forall_mem_cons.mpr ⟨h.1.2, h.2.1⟩, h.2.2⟩
  refine check_bind sound fun t _ => ?_
  split
  · refine (here sound).find (finds_func bound) (by omega) fun _ _ _ m => ?_
    refine m.skip (skipSemicolons bound m.sound (by omega)) fun _ _ m => ?_
    exact m.part ih (by omega) fun _ _ m =>
      m.pure fun h => ⟨h.2.1, List.forall_mem_cons.mpr ⟨h.1.2, h.2.2⟩⟩
  refine next_bind sound ?_ ?_
  · exact fun t _ later takes _ => unexpected (takes.within later.sound)
  · exact fun t _ _ => ⟨_, _, rfl⟩

theorem gathers_memberBlock (n : Nat) : Gathers n (memberBlock n) := by
  have gathers := gathers_memberList n n .refl .refl
  refine ⟨fun s sound => (here sound).expect fun _ _ m => ?_⟩
  refine m.skip (skipSemicolons n m.sound (by omega)) fun _ _ m => ?_
  refine m.part gathers (by omega) fun _ _ m => ?_
  exact m.expect fun _ _ m => m.pure fun h => h.2

theorem finds_spec (n : Nat) : Finds n (spec n) := by
  refine .of_expect fun s _ _ m => m.name fun _ t _ _ m => ?_
  refine m.part (gathers_memberBlock n) (by omega) fun _ _ m => ?_
  exact m.close (·.1.1) fun _ _ holds h => ⟨holds, h.2.1, h.2.2⟩

theorem finds_action (n : Nat) : Finds n (action n) := by
  refine .of_expect fun s _ _ m => ?_
  refine m.part (finds_type n).gathers (by omega) fun _ _ m => ?_
  refine m.part (finds_type n).after (by omega) fun snd _ m => ?_
  refine m.part (gathers_memberBlock n) (by omega) fun _ _ m => ?_
  cases snd with
  | some target =>
    refine m.close (·.1.1.1) fun _ _ holds h => ⟨holds, ?_, h.1.2 target rfl, h.2.1, h.2.2⟩
    rintro _ ⟨⟩
    exact h.1.1.2
  | none => exact m.close (·.1.1.1) fun _ _ holds h =>
      ⟨holds, fun _ => nofun, h.1.1.2, h.2.1, h.2.2⟩

theorem finds_const (n : Nat) : Finds n (const n) := by
  refine .of_expect fun s _ _ m => m.name fun _ t _ _ m => ?_
  refine m.part (finds_type n).after (by omega) fun _ _ m => ?_
  refine m.expect fun _ _ m => m.part (finds_expr n).gathers (by omega) fun _ _ m => ?_
  exact m.close (·.1.1.1) fun _ _ holds h => ⟨holds, h.1.2, h.2⟩

section

variable {close : TokenKind} {item : Parser Item} (finds : Finds depth item) (n : Nat)
include finds

theorem reads_itemsUntil (sound : s.Sound) (le : depth ≤ n) :
    Reads depth (itemsUntil close item n) s fun items s' => In (s.upTo s') items ∧
      ∃ t, s'.Faces t ∧ t.kind.sameClass close := by
  induction n generalizing s depth with
  | zero =>
    cases le
    exact exhausted sound
  | succ n ih =>
  refine check_bind sound fun t faces => ?_
  split
  · rename_i same
    exact pure sound ⟨fun _ mem => (List.not_mem_nil mem).elim, t, faces, same⟩
  refine (here sound).find finds (by omega) fun _ _ _ m => ?_
  refine m.skip (skipSemicolons n m.sound (by omega)) fun _ s2 m =>
    bind (ih (finds.mono (Nat.sub_le depth 1)) m.sound (by omega)) ?_
  rintro _ s3 later ⟨more, ended⟩
  refine pure later.sound ⟨List.forall_mem_cons.mpr ⟨(m.move later).now.2, ?_⟩, ended⟩
  have covers : (s.upTo s3).Covers (s2.upTo s3) := ⟨m.front, .refl⟩
  exact widens covers more

theorem gathers_itemsUntil (le : depth ≤ n) : Gathers depth (itemsUntil close item n) :=
  ⟨fun _ sound => (reads_itemsUntil finds n sound le).mono fun _ _ _ h => h.1⟩

end

instance : Spanned (String × List Item × Span) :=
  ⟨(·.2.2), fun p => In p.2.2 p.2.1⟩

theorem finds_package {item : Parser Item} (finds : Finds depth item) (n : Nat)
    (le : depth ≤ n) : Finds (depth + 1) (package item n) := by
  refine .of_expect fun s _ _ m => m.name fun _ t _ _ m => m.expect fun _ _ m => ?_
  refine m.skip (skipSemicolons n m.sound (by omega)) fun _ _ m => ?_
  refine m.part (gathers_itemsUntil finds n le) (by omega) fun _ _ m => m.expect fun _ _ m => ?_
  exact m.close (·.1.1) fun _ _ holds h => ⟨holds, h.2⟩

theorem finds_item (n : Nat) : Finds (n - 1) (item n) := by
  induction n with
  | zero => exact .exhausted
  | succ n ih =>
  refine ⟨fun s sound => peek_bind sound fun t faces => ?_⟩
  rw [faces.start]
  refine (here sound).skip (accept sound) fun _ _ m => ?_
  refine peek_bind m.sound fun u _ => ?_
  split
  · exact m.last (finds_func n) (by omega) fun _ _ _ => .intro
  · exact m.last (finds_template n) (by omega) fun _ _ _ => .intro
  · exact m.last (finds_aliasDecl n) (by omega) fun _ _ _ => .intro
  · exact m.last (finds_spec n) (by omega) fun _ _ _ => .intro
  · exact m.last (finds_action n) (by omega) fun _ _ _ => .intro
  · exact m.last (finds_const n) (by omega) fun _ _ _ => .intro
  · refine m.find (finds_package ih n (by omega)) (by omega) fun p _ read m => ?_
    refine m.close (fun _ => read) fun _ _ holds h => ⟨holds, h.2.1, ?_⟩
    exact Item.allIn_iff.mpr (.lift h.2.2 h.2.1)
  refine next_bind m.sound ?_ ?_
  · exact fun t _ later takes _ => unexpected (takes.within later.sound)
  · exact fun t _ _ => ⟨_, _, rfl⟩

theorem reads_module (n : Nat) (sound : s.Sound) :
    Reads (n - 1) (module n) s fun m s' => In ⟨0, s.length⟩ m ∧
      ∃ t, s'.Faces t ∧ t.kind = .eof := by
  refine peek_bind sound ?_
  intro t faces
  refine bind (skipSemicolons n sound (by omega)) ?_
  intro _ _ later1 _
  refine bind (reads_itemsUntil (finds_item n) n later1.sound (by omega)) ?_
  rintro items s2 later2 ⟨lies, u, ended, same⟩
  have later := later1.trans later2
  have bounds := later.sound.lastEnd_le
  have begins := sound.lastEnd_le
  have length := later.length
  have start := faces.start
  -- a module without items may end before its first token
  have run : (spanFrom t.span.start >>= fun span => Pure.pure ({ items, span } : Module)) s2 =
    .ok ⟨items, ⟨t.span.start, max s2.lastEnd t.span.start⟩⟩ s2 := rfl
  refine of_ok run (.refl later2.sound) ⟨⟨?_, ?_⟩, u, ended, ?_⟩
  · simp only [Holds, Spanned.span]
    omega
  · refine widens ⟨?_, Nat.le_max_left _ _⟩ lies
    have := later1.front
    simp only [Input.upTo]
    omega
  · cases kind : u.kind <;> rw [kind] at same <;> first | rfl | cases same

theorem Grammar.parse_reports {α : Type} {rule : Nat → Parser α} {source : List Char}
    {post : Input → α → Input → Prop} {depth : Nat → Nat} {d : Diagnostic}
    (reads : ∀ n s, s.Sound → Reads (depth n) (rule n) s (post s))
    (failed : Grammar.parse rule source = .error d) :
    Reports (depth (bound (.ofChars source))) (.ofChars source) d := by
  unfold Grammar.parse at failed
  dsimp only at failed
  split at failed
  · cases failed
  rename_i run
  cases failed
  exact (reads _ _ (ofChars_sound source)).error run

end Stencil
