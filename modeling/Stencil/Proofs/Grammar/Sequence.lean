import Stencil.Proofs.Grammar.Imitates
import Stencil.Proofs.Grammar.Spans
import Stencil.Proofs.Token.Joining

namespace Stencil

open Input Grammar Lexeme List

def Starts {α : Type} (r : Parser α) : Prop :=
  ∀ s u a, r s = .ok a u →
    ∃ t rest, s.pending = .token t :: rest ∧ t.kind.startsStmt

namespace Starts

variable {α β : Type}

theorem of_fails {r : Parser α} (fails : Fails r) : Starts r :=
  fun s u a run => absurd run (fails s u a)

theorem bind {r : Parser β} {next : β → Parser α} (fst : Starts r) : Starts (r >>= next) := by
  intro s u a run
  obtain ⟨b, v, got, -⟩ := bind_ok run
  exact fst s v b got

theorem peek_bind {next : Token → Parser α}
    (snd : ∀ t, t.kind.startsStmt ∨ Starts (next t)) : Starts (peek >>= next) := by
  intro s u a run
  obtain ⟨t, v, seen, more⟩ := bind_ok run
  obtain ⟨rfl, faces⟩ := peek_faces seen
  rcases snd t with starts | starts
  · obtain ⟨-, rfl⟩ | ⟨rest, pending⟩ := faces
    · cases starts
    · exact ⟨t, rest, pending, starts⟩
  · exact starts v u a more

theorem next_bind {next : Token → Parser α}
    (refuses : ∀ t, t.kind.startsStmt = false → Fails (next t)) :
    Starts (Input.next >>= next) := by
  intro s u a run
  obtain ⟨t, v, got, more⟩ := bind_ok run
  have starts : t.kind.startsStmt := by
    cases other : t.kind.startsStmt with
    | true => rfl
    | false => exact absurd more (refuses t other v u a)
  unfold Input.next at got
  split at got <;> cases got
  · cases starts
  rename_i rest pending
  exact ⟨t, rest, pending, starts⟩

end Starts

theorem primary_starts (expr : Parser Expr) (n : Nat) : Starts (primary expr n) := by
  refine .next_bind fun t other => ?_
  cases kind : t.kind with
  | keyword k =>
    rw [kind] at other
    cases k <;> first | exact .unexpected _ _ | cases other
  | symbol s =>
    rw [kind] at other
    cases s <;> first | exact .unexpected _ _ | cases other
  | primitive p | eof => exact .unexpected _ _
  | _ =>
    rw [kind] at other
    cases other

variable {kind : TokenKind}

theorem startsStmt_of_prefixed? {build : Expr → Span → Expr}
    (got : prefixed? kind = some build) : kind.startsStmt := by
  unfold prefixed? at got
  split at got <;> first | rfl | cases got

theorem unary_starts (expr : Parser Expr) (n : Nat) : Starts (unary expr n) := by
  cases n with
  | zero => exact .of_fails .exhausted
  | succ n =>
  refine .peek_bind fun t => ?_
  cases got : prefixed? t.kind with
  | none => exact .inr (primary_starts expr n).bind
  | some => exact .inl (startsStmt_of_prefixed? got)

theorem exprStmt_starts (n start : Nat) : Starts (exprStmt n start) := by
  refine .bind ?_
  cases n with
  | zero => exact .of_fails .exhausted
  | succ n => exact (unary_starts _ n).bind

theorem stmt_starts (n : Nat) : Starts (stmt n) := by
  cases n with
  | zero => exact .of_fails .exhausted
  | succ n =>
  refine .peek_bind fun t => ?_
  by_cases starts : t.kind.startsStmt
  · exact .inl starts
  refine .inr ?_
  cases kind : t.kind with
  | keyword k =>
    rw [kind] at starts
    cases k <;> first | exact absurd rfl starts | exact exprStmt_starts n _
  | symbol s =>
    rw [kind] at starts
    cases s <;> first | exact absurd rfl starts | exact exprStmt_starts n _
  | _ => exact exprStmt_starts n _

variable {s u : Input}

theorem check_ok {got : Bool} (run : check kind s = .ok got u) : u = s := by
  obtain ⟨t, v, peeked, more⟩ := bind_ok run
  unfold peek peekAt at peeked
  split at peeked <;> cases peeked
  cases more
  rfl

variable {rest : List Lexeme} {t : Token}

theorem skipSemicolons_stop {s : Input} (n : Nat)
    (pending : s.pending = .token t :: rest) (other : t.kind ≠ .symbol .semicolon) :
    skipSemicolons (n + 1) s = .ok () s := by
  have none : t.kind.sameClass (symbol .semicolon) = false := by
    rw [Bool.eq_false_iff]
    exact fun same => other (TokenKind.eq_of_sameClass rfl same)
  have refused : accept (symbol .semicolon) s = .ok false s := by
    rw [accept_eq, bind_run (check_run _ pending), none]
    rfl
  unfold skipSemicolons
  rw [bind_run refused]
  rfl

theorem skipSemicolons_step {s : Input} (n : Nat)
    (pending : s.pending = .token t :: rest) (semicolon : t.kind = .symbol .semicolon) :
    skipSemicolons (n + 1) s =
      skipSemicolons n { s with pending := rest, read := t :: s.read } := by
  have taken : accept (symbol .semicolon) s =
      .ok true { s with pending := rest, read := t :: s.read } := by
    rw [accept_eq, bind_run (check_run _ pending), semicolon]
    exact bind_run (run_next pending)
  rw [skipSemicolons, bind_run taken]
  rfl

variable {n : Nat}

theorem stmtsUntilBrace_ok {stmt : Parser Stmt} {ss : List Stmt}
    (run : stmtsUntilBrace stmt n s = .ok ss u) :
    ss = [] ∧ u = s ∨ ∃ m fst more v w, ss = fst :: more ∧ stmt s = .ok fst v ∧
      skipSemicolons m v = .ok () w ∧ stmtsUntilBrace stmt m w = .ok more u := by
  cases n with
  | zero => exact absurd run (Fails.exhausted s u ss)
  | succ n =>
  obtain ⟨closed, v, got, run⟩ := bind_ok run
  obtain rfl := check_ok got
  cases closed with
  | true =>
    cases run
    exact .inl ⟨rfl, rfl⟩
  | false =>
  obtain ⟨ended, w, got, run⟩ := bind_ok run
  obtain rfl := check_ok got
  cases ended with
  | true => exact absurd run (Fails.bind_right (fun _ => .bind_left (.throw _)) w u ss)
  | false =>
  obtain ⟨fst, v, read, run⟩ := bind_ok run
  obtain ⟨_, w, skipped, run⟩ := bind_ok run
  obtain ⟨more, u, further, run⟩ := bind_ok run
  cases run
  exact .inr ⟨n, fst, more, v, w, rfl, read, skipped, further⟩

def Continues (depth : Nat) (stmts : List Stmt) (lexemes : List Lexeme) : Prop :=
  ∀ n m s, s.pending = lexemes → sizeOfPending lexemes < n →
    sizeOfPending lexemes < m → ∃ ss u close last,
      (skipSemicolons n >>= fun _ => stmtsUntilBrace (stmt depth) m) s = .ok ss u ∧
      ss.map Stmt.bare = stmts.map Stmt.bare ∧ u.pending = [.token close, .token last] ∧
      close.kind = .symbol .rbrace ∧ last.kind = .eof

namespace Continues

variable {depth : Nat} {stmts : List Stmt} {lexemes : List Lexeme}

theorem closed {close last : Token} (closes : close.kind = .symbol .rbrace)
    (ends : last.kind = .eof) : Continues depth [] [.token close, .token last] := by
  intro n m s pending _ _
  obtain ⟨n, rfl⟩ : ∃ k, n = k + 1 := ⟨n - 1, by omega⟩
  obtain ⟨m, rfl⟩ : ∃ k, m = k + 1 := ⟨m - 1, by omega⟩
  have skipped : skipSemicolons (n + 1) s = .ok () s :=
    skipSemicolons_stop n pending (by rw [closes]; decide)
  have got : check (symbol .rbrace) s = .ok true s := by
    rw [check_run _ pending, closes]
    rfl
  refine ⟨[], s, close, last, ?_, rfl, pending, closes, ends⟩
  rw [bind_run skipped, stmtsUntilBrace, bind_run got]
  rfl

theorem semicolon (continues : Continues depth stmts lexemes)
    (kind : t.kind = .symbol .semicolon) : Continues depth stmts (.token t :: lexemes) := by
  intro n m s pending enough many
  have size := size_bounds (.token t)
  simp only [sizeOfPending] at enough many
  obtain ⟨n, rfl⟩ : ∃ k, n = k + 1 := ⟨n - 1, by omega⟩
  have step : (skipSemicolons (n + 1) >>= fun _ => stmtsUntilBrace (stmt depth) m) s =
      (skipSemicolons n >>= fun _ => stmtsUntilBrace (stmt depth) m)
        { s with pending := lexemes, read := t :: s.read } := by
    change EStateM.bind _ _ _ = EStateM.bind _ _ _
    unfold EStateM.bind
    rw [skipSemicolons_step n pending kind]
  rw [step]
  exact continues n m _ rfl (by omega) (by omega)

theorem semicolons {tokens : List Token} (continues : Continues depth stmts lexemes)
    (kinds : ∀ t ∈ tokens, t.kind = .symbol .semicolon) :
    Continues depth stmts (tokens.map .token ++ lexemes) := by
  induction tokens with
  | nil => exact continues
  | cons t tokens ih =>
    obtain ⟨kind, kinds⟩ := forall_mem_cons.mp kinds
    exact (ih kinds).semicolon kind

theorem cons {t : Stmt} {head : Token}
    (pending : lexemes = .token head :: rest) (starts : head.kind.startsStmt)
    (read : ∀ s, s.pending = lexemes → ∃ t' u, stmt depth s = .ok t' u ∧
      t'.bare = t.bare ∧ Continues depth stmts u.pending) :
    Continues depth (t :: stmts) lexemes := by
  intro n m s same _ _
  obtain ⟨n, rfl⟩ : ∃ k, n = k + 1 := ⟨n - 1, by omega⟩
  obtain ⟨m, rfl⟩ : ∃ k, m = k + 1 := ⟨m - 1, by omega⟩
  have faces := same.trans pending
  have other : ∀ {kind : TokenKind}, kind.isFixed → kind.startsStmt = false →
      head.kind.sameClass kind = false := by
    intro _ fixed noStart
    rw [Bool.eq_false_iff]
    intro same
    rw [TokenKind.eq_of_sameClass fixed same, noStart] at starts
    cases starts
  have skipped : skipSemicolons (n + 1) s = .ok () s := by
    refine skipSemicolons_stop n faces fun semicolon => ?_
    rw [semicolon] at starts
    cases starts
  have opened : check (symbol .rbrace) s = .ok false s := by
    rw [check_run _ faces, other rfl rfl]
  have going : check .eof s = .ok false s := by
    rw [check_run _ faces, other rfl rfl]
  obtain ⟨t', u, got, equal, continues⟩ := read s same
  have less : sizeOfPending u.pending < sizeOfPending lexemes := by
    have imitates : Imitates default (stmt depth) (stmt depth) Stmt.bare :=
      stmt_imitates (Nat.le_refl depth)
    rw [← same]
    exact imitates.advances s u t' (by rw [faces]; exact cons_ne_nil _ _) got
  obtain ⟨ss, v, close, last, run, equals, result⟩ :=
    continues m m u rfl (by omega) (by omega)
  refine ⟨t' :: ss, v, close, last, ?_, by simp [equal, equals], result⟩
  rw [bind_run skipped, stmtsUntilBrace, bind_run opened]
  simp only [Bool.false_eq_true, ↓reduceIte]
  rw [bind_run going]
  simp only [Bool.false_eq_true, ↓reduceIte]
  rw [bind_run got, ← bind_assoc, bind_run run]
  rfl

end Continues

variable {lexemes lexemes' : List Lexeme} {x : Seam} {fresh : Bool}

theorem Seam.Aligned.weaken
    (aligned : x.Aligned false lexemes lexemes') : x.Aligned fresh lexemes lexemes' := by
  cases aligned with
  | seam => exact .seam
  | token kind line more => exact .token kind (fun _ => line rfl) more

theorem Seam.Aligned.length_le
    (aligned : x.Aligned fresh lexemes lexemes') : x.left.length ≤ lexemes.length := by
  induction aligned with
  | seam => exact .refl
  | token _ _ _ ih => exact Nat.le_succ_of_le ih

theorem skipSemicolons_aligned
    {lexemes' : List Lexeme} (aligned : x.Aligned fresh s.pending lexemes')
    (run : skipSemicolons n s = .ok () u) :
    ∃ (semicolons : List Token) (rest' : List Lexeme), lexemes' = semicolons.map .token ++ rest' ∧
      (∀ t ∈ semicolons, t.kind = .symbol .semicolon) ∧ x.Aligned fresh u.pending rest' := by
  induction n generalizing s lexemes' fresh with
  | zero => exact absurd run (Fails.exhausted s u ())
  | succ n ih =>
  have begins := aligned
  generalize pending : s.pending = lexemes at aligned
  cases aligned with
  | seam =>
    rw [skipSemicolons_stop n pending (by rw [x.closes]; decide)] at run
    cases run
    exact ⟨[], _, rfl, by simp, begins⟩
  | @token _ t t' rest rest' kind line more =>
  by_cases semicolon : t.kind = .symbol .semicolon
  · rw [skipSemicolons_step n pending semicolon] at run
    obtain ⟨semicolons, last', split, kinds, aligned⟩ := ih more run
    refine ⟨t' :: semicolons, last', by simp [split], ?_, aligned.weaken⟩
    exact forall_mem_cons.mpr ⟨kind.trans semicolon, kinds⟩
  rw [skipSemicolons_stop n pending semicolon] at run
  cases run
  exact ⟨[], _, rfl, by simp, begins⟩

theorem Seam.Aligned.right_of_length
    (aligned : x.Aligned fresh lexemes lexemes') (length : lexemes.length ≤ x.left.length) :
    lexemes' = x.right := by
  cases aligned with
  | seam => rfl
  | token _ _ more =>
    have := more.length_le
    simp only [length_cons] at length
    omega

theorem Continues.of_single {n k m depth : Nat} {s s1 u : Input} {t : Stmt}
    {lexemes' : List Lexeme} {stmts : List Stmt} (le : n ≤ depth)
    (aligned : x.Aligned true s.pending lexemes') (skipped : skipSemicolons k s = .ok () s1)
    (read : stmtsUntilBrace (stmt n) m s1 = .ok [t] u) (length : u.pending.length ≤ x.left.length)
    (retained : x.Retained u) (continues : Continues depth stmts x.right) :
    Continues depth (t :: stmts) lexemes' := by
  obtain ⟨semicolons, rest', rfl, kinds, aligned⟩ := skipSemicolons_aligned aligned skipped
  refine .semicolons ?_ kinds
  rcases stmtsUntilBrace_ok read with
    ⟨none, -⟩ | ⟨m, fst, more, v, w, one, got, skipped, further⟩
  · cases none
  cases one
  -- behind the one statement there are only semicolons
  rcases stmtsUntilBrace_ok further with ⟨-, rfl⟩ | ⟨_, _, _, _, _, two, _⟩
  · obtain ⟨head, rest, pending, starts⟩ := stmt_starts n s1 v t got
    have kept : x.Retained v := Nat.le_trans retained (Shrinks.skipSemicolons m v u () skipped)
    have read : ∀ s', s'.pending = rest' → ∃ t' u', stmt depth s' = .ok t' u' ∧
        t'.bare = t.bare ∧ Continues depth stmts u'.pending := by
      intro _ same
      obtain ⟨t', v', found', equal, aligned⟩ :=
        ((stmt_imitates le).mimics true).follows (by rw [same]; exact aligned) got kept
      obtain ⟨_, _, split, kinds, aligned⟩ := skipSemicolons_aligned aligned skipped
      refine ⟨t', v', found', equal, ?_⟩
      rw [split, aligned.right_of_length length]
      exact continues.semicolons kinds
    rw [pending] at aligned
    generalize whole : token head :: rest = lexemes at aligned
    cases aligned with
    | seam =>
      cases whole
      rw [x.closes] at starts
      cases starts
    | token kind =>
      cases whole
      exact .cons rfl (by rw [kind]; exact starts) read
  · cases two

/-- The block that a text is as a whole, if it is one: what is left is the token for the end. -/
def readBlock? (text : String) : Option Block :=
  let s := ofSource text
  match block (stmt (bound s)) (bound s) s with
  | .ok b s =>
    match s.pending with
    | [.token last] => if last.kind = .eof then some b else none
    | _ => none
  | .error _ _ => none

variable {text : String} {b : Block}

theorem readBlock?_eq_some : readBlock? text = some b ↔
    ∃ s last, block (stmt (bound (.ofSource text))) (bound (.ofSource text)) (.ofSource text) =
      .ok b s ∧ s.pending = [.token last] ∧ last.kind = .eof := by
  cases run : block (stmt (bound (.ofSource text))) (bound (.ofSource text)) (.ofSource text) with
  | error => simp [readBlock?, run]
  | ok c s =>
  have got : readBlock? text = some b ↔ c = b ∧ ∃ last, s.pending = [.token last] ∧
      last.kind = .eof := by
    simp only [readBlock?, run]
    rcases pending : s.pending with _ | ⟨⟨t⟩ | d, _ | ⟨r, _⟩⟩ <;> simp [and_comm]
  rw [got]
  constructor
  · rintro ⟨rfl, last, left, ends⟩
    exact ⟨s, last, rfl, left, ends⟩
  rintro ⟨_, last, ⟨⟩, left, ends⟩
  exact ⟨rfl, last, left, ends⟩

def braced (text : String) : String :=
  "\x7b " ++ text ++ " \x7d"

theorem braced_toList (text : String) :
    (braced text).toList = '\x7b' :: ' ' :: (text.toList ++ [' ', '\x7d']) := by
  simp [braced, String.toList_append]

theorem pending_braced {lexemes : List Lexeme}
    (split : Scan.lexemes ('\x7b' :: ' ' :: (text.toList ++ [' ', '\x7d'])) = lexemes) :
    (ofSource (braced text)).pending = lexemes := by
  rw [← split, ← braced_toList]
  rfl

theorem Splits.fault_mem {before after : List Lexeme} {d : Diagnostic}
    (splits : Splits before after) (mem : .fault d ∈ before) : .fault d ∈ after := by
  induction splits with
  | nil => exact mem
  | keep _ ih =>
    rcases mem_cons.mp mem with rfl | mem
    · exact .head _
    · exact .tail _ (ih mem)
  | split _ _ ih =>
    rcases mem_cons.mp mem with same | mem
    · cases same
    · exact mem_append_right _ (ih mem)

theorem faultless_of_readBlock? (read : readBlock? text = some b)
    (d : Diagnostic) : .fault d ∉ Scan.lexemes text.toList := by
  obtain ⟨s, _, run, left, -⟩ := readBlock?_eq_some.mp read
  have sound : (ofSource text).Sound := ofChars_sound _
  obtain ⟨later, -⟩ := ((finds_block (finds_stmt _) _ (Nat.sub_le _ 2)).reads _ sound).ok run
  obtain ⟨_, -, -, splits⟩ := later.consumed
  intro mem
  have kept := splits.fault_mem mem
  rw [left] at kept
  simp at kept

open Scan

def Tells (kind : TokenKind) (marks : List (TokenKind × Bool)) (stmts : List Stmt) : Prop :=
  ∀ depth, 2 * marks.length + 16 ≤ depth → ∀ (t : Token) (ts : List Token), t.kind = kind →
    ts.map mark = marks → ∀ (next : Token) (more : List Lexeme) (rest : List Stmt), next.Stops →
    Continues depth rest (.token next :: more) →
    Continues depth (stmts ++ rest) (.token t :: (ts.map .token ++ .token next :: more))

def Sentences (text : List Char) (stmts : List Stmt) : Prop :=
  ∃ kind flag marks last, Spelled false text ((kind, flag) :: marks) last ∧
    (kind = .symbol .semicolon ∨ kind.startsStmt) ∧ Tells kind marks stmts

theorem Seam.Aligned.of_marks {ts ts' : List Token} (same : ts'.map mark = ts.map mark) :
    x.Aligned false (ts.map .token ++ x.left) (ts'.map .token ++ x.right) := by
  induction ts generalizing ts' with
  | nil =>
    obtain rfl : ts' = [] := by simpa using same
    exact .seam
  | cons t ts ih =>
  cases ts' with
  | nil => cases same
  | cons =>
    obtain ⟨fst, more⟩ := List.cons.inj same
    obtain ⟨kind, line⟩ := Prod.mk.inj fst
    exact .token kind (fun _ => line) (ih more)

theorem skipSemicolons_ok_stop
    (run : skipSemicolons n s = .ok () u) (pending : s.pending = .token t :: rest)
    (other : t.kind ≠ .symbol .semicolon) : u = s := by
  cases n with
  | zero => exact absurd run (Fails.exhausted s u ())
  | succ n =>
    rw [skipSemicolons_stop n pending other] at run
    cases run
    rfl

theorem expect_ok (run : expect kind s = .ok t u) :
    s.pending = .token t :: u.pending ∨ s.pending = [] ∧ u.pending = [] := by
  obtain ⟨t', v, got, more⟩ := bind_ok run
  unfold Input.next at got
  split at more
  · rename_i fits
    cases more
    split at got <;> cases got
    · rename_i none
      exact .inr ⟨none, none⟩
    rename_i rest some
    exact .inl some
  · cases more

theorem block_ok {stmt : Parser Stmt} {opening : Token} (run : block stmt n s = .ok b u)
    (pending : s.pending = .token opening :: rest) (some : u.pending ≠ []) :
    ∃ s1 s2 s3 close, s1.pending = rest ∧ skipSemicolons n s1 = .ok () s2 ∧
      stmtsUntilBrace stmt n s2 = .ok b.stmts s3 ∧ s3.pending = .token close :: u.pending := by
  obtain ⟨t, s1, opened, run⟩ := bind_ok run
  obtain ⟨_, s2, skipped, run⟩ := bind_ok run
  obtain ⟨_, s3, read, run⟩ := bind_ok run
  obtain ⟨close, _, closed, run⟩ := bind_ok run
  cases run
  have behind : s1.pending = rest := by
    rcases expect_ok opened with pending' | ⟨none, -⟩
    · rw [pending] at pending'
      exact (List.cons.inj pending').2.symm
    rw [none] at pending
    cases pending
  rcases expect_ok closed with left | ⟨-, none⟩
  · exact ⟨s1, s2, s3, close, behind, skipped, read, left⟩
  · exact absurd none some

theorem Sentences.of_block {t : Stmt} {span : Span} (free : commentFree text.toList)
    (read : readBlock? (braced text) = some (.mk [t] span)) : Sentences text.toList [t] := by
  have faultless := faultless_of_readBlock? read
  rw [braced_toList] at faultless
  obtain ⟨opening, _, whole⟩ := lexemes_braced text.toList
  obtain ⟨marks, last, spelled⟩ := exists_spelled text.toList free 2 false fun d mem =>
    faultless d (by rw [whole]; exact .tail _ mem)
  obtain ⟨_, tokens, close, stop, split, -, same, closes, ends⟩ := spelled.braced
  have pending := pending_braced split
  obtain ⟨s, end', run, left, -⟩ := readBlock?_eq_some.mp read
  obtain ⟨s1, _, _, close', behind, skipped, stmts, before⟩ :=
    block_ok run pending (by rw [left]; exact cons_ne_nil _ _)
  rw [left] at before
  have starts : ∀ head rest, s1.pending = .token head :: rest →
      head.kind = .symbol .semicolon ∨ head.kind.startsStmt := by
    intro head _ faces
    by_cases semicolon : head.kind = .symbol .semicolon
    · exact .inl semicolon
    obtain rfl := skipSemicolons_ok_stop skipped faces semicolon
    rcases stmtsUntilBrace_ok stmts with ⟨none, -⟩ | ⟨m, _, _, v, w, -, got, -⟩
    · cases none
    obtain ⟨_, _, faces', starts⟩ := stmt_starts _ _ _ _ got
    rw [faces] at faces'
    cases faces'
    exact .inr starts
  cases tokens with
  | nil =>
    have impossible := starts close _ behind
    rw [closes] at impossible
    rcases impossible with semicolon | starts
    · cases semicolon
    · cases starts
  | cons head ts =>
  rw [← same] at spelled
  refine ⟨head.kind, head.newlineBefore, ts.map mark, last, spelled, starts head _ behind, ?_⟩
  intro _ le t' ts' kind marks next more _ stops continues
  -- the text is read up to its brace; elsewhere the next token stands in the place of that
  let x : Seam := ⟨close, [.token stop], next, more, closes, stops⟩
  have aligned : x.Aligned true s1.pending (.token t' :: (ts'.map .token ++ x.right)) := by
    rw [behind]
    exact .token kind (fun fresh => by cases fresh) (.of_marks marks)
  refine .of_single ?_ aligned skipped stmts ?_ ?_ continues
  · unfold bound
    rw [pending]
    simpa [Nat.mul_add, Nat.add_assoc] using le
  · rw [before]
    exact .refl
  have left : sizeOfPending x.left = 2 := by
    simp [x, Seam.left, sizeOfPending, Lexeme.size, closes, ends]
  have fst := size_bounds (.token close')
  have snd := size_bounds (.token end')
  unfold Seam.Retained
  rw [left, before]
  simp only [sizeOfPending]
  omega

theorem Continues.readBlock {opening : Token}
    {stmts : List Stmt} (pending : (ofSource (braced text)).pending = .token opening :: rest)
    (opens : opening.kind = .symbol .lbrace)
    (continues : Continues (bound (.ofSource (braced text))) stmts rest) :
    ∃ b, readBlock? (braced text) = some b ∧ b.bare = (Block.mk stmts {}).bare := by
  have size : sizeOfPending rest < bound (.ofSource (braced text)) := by
    have := sizeOfPending_le rest
    unfold bound
    rw [pending, List.length_cons]
    omega
  have opened : expect (symbol .lbrace) (ofSource (braced text)) = _ :=
    Runs.run_expect pending (by rw [opens]; rfl)
  obtain ⟨ss, u, close, last, run, equal, left, closes, ends⟩ := continues _ _
    { ofSource (braced text) with pending := rest, read := opening :: _ } rfl size size
  have closed : expect (symbol .rbrace) u = _ := Runs.run_expect left (by rw [closes]; rfl)
  refine ⟨.mk ss ⟨opening.span.start, max close.span.stop opening.span.start⟩,
    readBlock?_eq_some.mpr ⟨{ u with pending := [.token last], read := close :: u.read }, last, ?_,
      rfl, ends⟩, ?_⟩
  · unfold block
    rw [bind_run opened, ← bind_assoc, bind_run run, bind_run closed]
    rfl
  · rw [Block.bare, Block.bare, Stmt.bares_eq_map, Stmt.bares_eq_map, equal]

namespace Sentences

variable {a b : List Char} {ss ts : List Stmt}

theorem join {c : Char} (separates : isSeparator c) (fst : Sentences a ss)
    (snd : ∀ since, ∃ kind flag marks last, Spelled since (c :: b) ((kind, flag) :: marks) last ∧
      (∀ t, mark t = (kind, flag) → t.Stops) ∧ Tells kind marks ts) :
    Sentences (a ++ [c] ++ b) (ss ++ ts) := by
  obtain ⟨kind, flag, marks, middle, spelled, starts, tells⟩ := fst
  obtain ⟨kind', flag', marks', last, spelled', stops', tells'⟩ := snd middle
  refine ⟨kind, flag, marks ++ (kind', flag') :: marks', last, ?_, starts, ?_⟩
  · rw [append_assoc]
    exact spelled.append (.cons separates) spelled'
  intro depth le t _ same split next more rest stops continues
  obtain ⟨tokens1, tokens2, rfl, same1, same2⟩ := map_eq_append_iff.mp split
  obtain ⟨t', tokens2, rfl, head, same2⟩ := map_eq_cons_iff.mp same2
  simp only [length_append, length_cons] at le
  have rear := tells' depth (by omega) t' tokens2 (Prod.mk.inj head).1 same2 next more rest stops
    continues
  have whole := tells depth (by omega) t tokens1 same same1 t' _ _ (stops' t' head) rear
  simpa [append_assoc] using whole

theorem line (fst : Sentences a ss) (snd : Sentences b ts) :
    Sentences (a ++ ['\n'] ++ b) (ss ++ ts) := by
  obtain ⟨kind, _, marks, last, spelled, starts, tells⟩ := snd
  refine fst.join rfl fun since => ⟨kind, true, marks, last, .blank rfl ?_, fun t same => ?_, tells⟩
  · rw [show (since || decide ('\n' = '\n')) = true by simp]
    exact spelled.newLine
  -- the line end is what keeps the first part from going on
  obtain ⟨kind_eq, line⟩ := Prod.mk.inj same
  rcases starts with semicolon | starts
  · exact .inl (kind_eq.trans semicolon)
  · exact .inr (.inr ⟨line, by rw [kind_eq]; exact starts⟩)

theorem semicolon (fst : Sentences a ss) (snd : Sentences b ts) :
    Sentences (a ++ [';'] ++ b) (ss ++ ts) := by
  obtain ⟨kind, flag, marks, last, spelled, -, tells⟩ := snd
  refine fst.join rfl fun since => ⟨.symbol .semicolon, since, (kind, flag) :: marks, last, ?_,
    fun t same => .inl (Prod.mk.inj same).1, ?_⟩
  · rw [← nil_append b]
    exact .token rfl (fun _ _ => first_semicolon _) spelled
  intro depth le t _ isSemicolon split next more rest stops continues
  obtain ⟨t', ts', rfl, head, same⟩ := map_eq_cons_iff.mp split
  rw [length_cons] at le
  exact (tells depth (by omega) t' ts' (Prod.mk.inj head).1 same next more rest stops
    continues).semicolon isSemicolon

theorem readBlock (sentences : Sentences text.toList ss) :
    ∃ b, readBlock? (braced text) = some b ∧ b.bare = (Block.mk ss {}).bare := by
  obtain ⟨_, _, marks, _, spelled, _, tells⟩ := sentences
  obtain ⟨_, _, close, stop, split, opens, same, closes, ends⟩ := spelled.braced
  obtain ⟨t, ts, rfl, head, same⟩ := map_eq_cons_iff.mp same
  have pending := pending_braced split
  have depth : 2 * marks.length + 16 ≤ bound (.ofSource (braced text)) := by
    unfold bound
    rw [pending, ← same]
    simp only [length_cons, length_append, length_map, length_nil]
    omega
  have continues := tells _ depth t ts (Prod.mk.inj head).1 same close [.token stop] []
    (.inr (.inl closes)) (.closed closes ends)
  rw [append_nil] at continues
  exact continues.readBlock pending opens

theorem intercalate {separator : List Char}
    (join : ∀ {a b : List Char} {ss ts : List Stmt}, Sentences a ss → Sentences b ts →
      Sentences (a ++ separator ++ b) (ss ++ ts)) {parts : List (String × Stmt)}
    (each : ∀ part ∈ parts, Sentences part.1.toList [part.2]) (some : parts ≠ []) :
    Sentences (separator.intercalate (parts.map fun part => part.1.toList))
      (parts.map Prod.snd) := by
  induction parts with
  | nil => exact absurd rfl some
  | cons part parts ih =>
  obtain ⟨fst, rest⟩ := forall_mem_cons.mp each
  cases parts with
  | nil => simpa using fst
  | cons =>
    have more := join fst (ih rest (cons_ne_nil _ _))
    simpa [intercalate_cons_cons] using more

end Sentences

/-- A text without comments that is one statement, between braces. -/
def IsStatement (text : String) (t : Stmt) : Prop :=
  commentFree text.toList ∧ ∃ span, readBlock? (braced text) = some (.mk [t] span)

theorem readBlock_joined {separator : String}
    (join : ∀ {a b : List Char} {ss ts : List Stmt}, Sentences a ss → Sentences b ts →
      Sentences (a ++ separator.toList ++ b) (ss ++ ts)) {parts : List (String × Stmt)}
    (each : ∀ part ∈ parts, IsStatement part.1 part.2) :
    ∃ b, readBlock? (braced (separator.intercalate (parts.map Prod.fst))) = some b ∧
      b.bare = (Block.mk (parts.map Prod.snd) {}).bare := by
  by_cases none : parts = []
  · subst none
    obtain ⟨_, tokens, _, _, split, opens, same, closes, ends⟩ :=
      (.nil : Spelled false [] [] false).braced
    obtain rfl : tokens = [] := by simpa using same
    exact Continues.readBlock (pending_braced split) opens (.closed closes ends)
  have sentences : ∀ part ∈ parts, Sentences part.1.toList [part.2] := by
    intro part mem
    obtain ⟨free, _, read⟩ := each part mem
    exact .of_block free read
  refine Sentences.readBlock ?_
  rw [String.toList_intercalate, map_map]
  exact .intercalate join sentences none

/-- Statements follow each other without ado. Take texts without comments that are one statement
each, between braces. Joined by line ends, or by semicolons, they are a block of just these
statements, in this order. -/
theorem readBlock_intercalate {parts : List (String × Stmt)}
    (each : ∀ part ∈ parts, IsStatement part.1 part.2) :
    (∃ b, readBlock? (braced ("\n".intercalate (parts.map Prod.fst))) = some b ∧
      b.bare = (Block.mk (parts.map Prod.snd) {}).bare) ∧
    (∃ b, readBlock? (braced (";".intercalate (parts.map Prod.fst))) = some b ∧
      b.bare = (Block.mk (parts.map Prod.snd) {}).bare) :=
  ⟨readBlock_joined Sentences.line each, readBlock_joined Sentences.semicolon each⟩

theorem exists_isStatement (free : commentFree text.toList)
    (one : (readBlock? (braced text)).map (fun b => b.stmts.length) = some 1) :
    ∃ t, IsStatement text t := by
  obtain ⟨b, read, length⟩ := Option.map_eq_some_iff.mp one
  obtain ⟨t, stmts⟩ := length_eq_one_iff.mp length
  cases b with
  | mk ss span =>
    obtain rfl : ss = [t] := stmts
    exact ⟨t, free, span, read⟩

/-- A `return`, a name, parentheses and a minus: on one line these would go on with each other. -/
theorem readBlock_intercalate_return : ∃ parts : List (String × Stmt),
    parts.map Prod.fst = ["return", "x", "(y)", "-z;", "; if a \x7b b \x7d"] ∧
    (∀ part ∈ parts, IsStatement part.1 part.2) ∧
    (∃ b, readBlock? (braced ("\n".intercalate (parts.map Prod.fst))) = some b ∧
      b.bare = (Block.mk (parts.map Prod.snd) {}).bare) ∧
    (∃ b, readBlock? (braced (";".intercalate (parts.map Prod.fst))) = some b ∧
      b.bare = (Block.mk (parts.map Prod.snd) {}).bare) := by
  obtain ⟨t₁, first⟩ : ∃ t, IsStatement "return" t :=
    exists_isStatement (by decide +kernel) (by decide +kernel)
  obtain ⟨t₂, second⟩ : ∃ t, IsStatement "x" t :=
    exists_isStatement (by decide +kernel) (by decide +kernel)
  obtain ⟨t₃, third⟩ : ∃ t, IsStatement "(y)" t :=
    exists_isStatement (by decide +kernel) (by decide +kernel)
  obtain ⟨t₄, fourth⟩ : ∃ t, IsStatement "-z;" t :=
    exists_isStatement (by decide +kernel) (by decide +kernel)
  obtain ⟨t₅, fifth⟩ : ∃ t, IsStatement "; if a \x7b b \x7d" t :=
    exists_isStatement (by decide +kernel) (by decide +kernel)
  have each : ∀ part ∈ [("return", t₁), ("x", t₂), ("(y)", t₃), ("-z;", t₄),
      ("; if a \x7b b \x7d", t₅)], IsStatement part.1 part.2 := by
    simp [first, second, third, fourth, fifth]
  exact ⟨_, rfl, each, readBlock_intercalate each⟩

end Stencil
