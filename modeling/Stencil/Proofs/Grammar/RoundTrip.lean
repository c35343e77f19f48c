import Stencil.Grammar.Item
import Stencil.Proofs.Grammar.Printing
import Stencil.Proofs.Token.Reading

/-!
Reading back what was printed. A rule that is given the tokens of a type or of an expression, with
something behind them that closes, reads these tokens and no more.
-/

namespace Stencil

open Input Grammar List

def Runs {α : Type} (r : Parser α) (kinds rest : List TokenKind) (post : α → Prop) : Prop :=
  ∀ s : Input, Glues kinds s.pending →
    ∃ a s', r s = .ok a s' ∧ Glues rest s'.pending ∧ post a

def Looks (kind : TokenKind) (t : Token) : Prop :=
  t.newlineBefore = false ∧ (t.kind = kind ∨ kind = .symbol .gt ∧ t.kind = .symbol .shr)

variable {kind : TokenKind} {t : Token}

theorem Looks.kind_eq (looks : Looks kind t) (plain : kind ≠ .symbol .gt) : t.kind = kind := by
  rcases looks.2 with same | ⟨same, -⟩
  · exact same
  · exact absurd same plain

namespace Glues

variable {kinds : List TokenKind} {lexemes : List Lexeme}

theorem looks (glues : Glues (kind :: kinds) lexemes) :
    ∃ t rest, lexemes = .token t :: rest ∧ Looks kind t := by
  cases glues with
  | one same => exact ⟨_, _, rfl, same, .inl rfl⟩
  | two shr same => exact ⟨_, _, rfl, same, .inr ⟨rfl, shr⟩⟩

theorem uncons (alone : kind = .symbol .gt → kinds.head? ≠ some (.symbol .gt))
    (glues : Glues (kind :: kinds) lexemes) :
    ∃ t rest, lexemes = .token t :: rest ∧ t.kind = kind ∧ t.newlineBefore = false ∧
      Glues kinds rest := by
  cases glues with
  | one same more => exact ⟨_, _, rfl, rfl, same, more⟩
  | two => exact absurd rfl (alone rfl)

end Glues

variable {wanted : TokenKind}

namespace Runs

variable {α β : Type} {kinds mid rest : List TokenKind} {post : α → Prop}

theorem pure {a : α} (holds : post a) : Runs (pure a) kinds kinds post :=
  fun s glues => ⟨a, s, rfl, glues, holds⟩

theorem bind {r : Parser β} {next : β → Parser α} {between : β → Prop}
    (fst : Runs r kinds mid between) (snd : ∀ b, between b → Runs (next b) mid rest post) :
    Runs (r >>= next) kinds rest post := by
  intro s glues
  obtain ⟨b, s1, run, glues1, holds⟩ := fst s glues
  obtain ⟨a, s2, run2, glues2, holds2⟩ := snd b holds s1 glues1
  exact ⟨a, s2, (bind_run run).trans run2, glues2, holds2⟩

theorem known {r : Parser β} {next : β → Parser α} {b : β} (fst : Runs r kinds mid (· = b))
    (snd : Runs (next b) mid rest post) : Runs (r >>= next) kinds rest post := by
  refine bind fst ?_
  rintro _ rfl
  exact snd

theorem mono {r : Parser α} {post' : α → Prop} (runs : Runs r kinds rest post)
    (weaker : ∀ a, post a → post' a) : Runs r kinds rest post' := by
  intro s glues
  obtain ⟨a, s', run, glues', holds⟩ := runs s glues
  exact ⟨a, s', run, glues', weaker a holds⟩

theorem peek : Runs peek (kind :: kinds) (kind :: kinds) (Looks kind) := by
  intro s glues
  obtain ⟨t, _, pending, looks⟩ := glues.looks
  exact ⟨t, s, run_peek pending, glues, looks⟩

theorem next (alone : kind = .symbol .gt → kinds.head? ≠ some (.symbol .gt)) :
    Runs next (kind :: kinds) kinds fun t => t.kind = kind := by
  intro s glues
  obtain ⟨t, _, pending, same, -, more⟩ := glues.uncons alone
  exact ⟨t, _, run_next pending, more, same⟩

theorem step {next : Token → Parser α} (alone : kind = .symbol .gt → kinds.head? ≠ some (.symbol .gt))
    (snd : ∀ t : Token, Runs (next { t with kind }) kinds rest post) :
    Runs (Input.next >>= next) (kind :: kinds) rest post := by
  refine bind (Runs.next alone) fun t same => ?_
  subst same
  exact snd t

theorem check {got : Bool} (sees : ∀ t, Looks kind t → t.kind.sameClass wanted = got) :
    Runs (check wanted) (kind :: kinds) (kind :: kinds) (· = got) :=
  bind peek fun t looks => pure (sees t looks)

theorem sameLine {got : Bool} (sees : ∀ t, Looks kind t → t.kind.sameClass wanted = got) :
    Runs (sameLine wanted) (kind :: kinds) (kind :: kinds) (· = got) := by
  refine bind peek fun t looks => pure ?_
  rw [looks.1, sees t looks]
  rfl

theorem accept_other (sees : ∀ t, Looks kind t → t.kind.sameClass wanted = false) :
    Runs (accept wanted) (kind :: kinds) (kind :: kinds) (· = false) := by
  refine known (check sees) ?_
  exact pure rfl

variable {s : Symbol}

theorem sees_symbol (plain : s ≠ .gt) (looks : Looks (.symbol s) t) : t.kind = .symbol s :=
  looks.kind_eq fun same => plain (TokenKind.symbol.inj same)

theorem check_symbol (plain : s ≠ .gt) (wanted : Symbol) :
    Runs (Input.check (symbol wanted)) (.symbol s :: kinds) (.symbol s :: kinds)
      (· = decide (s = wanted)) :=
  check fun t looks => by rw [sees_symbol plain looks]; rfl

theorem sameLine_symbol (plain : s ≠ .gt) (wanted : Symbol) :
    Runs (Grammar.sameLine (symbol wanted)) (.symbol s :: kinds) (.symbol s :: kinds)
      (· = decide (s = wanted)) :=
  sameLine fun t looks => by rw [sees_symbol plain looks]; rfl

theorem sameClass_symbol (s : Symbol) : (TokenKind.symbol s).sameClass (symbol s) :=
  decide_eq_true rfl

theorem accept (plain : s ≠ .gt) : Runs (accept (symbol s)) (.symbol s :: kinds) kinds (·) := by
  refine known (check_symbol plain s) ?_
  rw [decide_eq_true rfl]
  refine bind (next ?_) fun _ _ => pure rfl
  rintro ⟨⟩
  exact absurd rfl plain

theorem expect (plain : s ≠ .gt) :
    Runs (expect (symbol s)) (.symbol s :: kinds) kinds fun _ => True := by
  refine bind (next ?_) ?_
  · rintro ⟨⟩
    exact absurd rfl plain
  intro t same
  rw [same, if_pos (sameClass_symbol s)]
  exact pure trivial

theorem spanFrom {start : Nat} {next : Span → Parser α}
    (snd : ∀ span, Runs (next span) kinds rest post) :
    Runs (Grammar.spanFrom start >>= next) kinds rest post :=
  fun s glues => snd _ s glues

theorem identifier (name : String) :
    Runs identifier (.identifier name :: kinds) kinds fun got => got.1 = name := by
  refine bind (next (by simp)) ?_
  intro t same
  rw [same]
  exact pure rfl

theorem run_expect {s : Input}
    (pending : s.pending = .token t :: lexemes) (same : t.kind.sameClass kind) :
    Input.expect kind s = .ok t { s with pending := lexemes, read := t :: s.read } := by
  unfold Input.expect expectWith
  rw [bind_run (run_next pending), if_pos same]
  rfl

theorem closeAngle : Runs closeAngle (.symbol .gt :: kinds) kinds fun _ => True := by
  intro s glues
  generalize got : (.symbol .gt :: kinds) = all at glues
  generalize pending : s.pending = lexemes at glues
  cases glues with
  | nil => cases got
  | @one t _ rest _ more =>
    -- a `>` of its own is not split
    obtain ⟨same, rfl⟩ := List.cons.inj got
    have split : splitShr s = .ok () s := by
      unfold splitShr
      rw [bind_run (run_peek pending), ← same]
      rfl
    refine ⟨(), { s with pending := rest, read := t :: s.read }, ?_, more, trivial⟩
    unfold Grammar.closeAngle
    rw [bind_run split, bind_run (run_expect pending (by rw [← same]; rfl))]
    rfl
  | @two t _ rest shr same more =>
  -- the second half of the `>>` stays in front of what is left
  obtain ⟨-, rfl⟩ := List.cons.inj got
  have split : splitShr s = .ok () { s with pending := halves t ++ rest } := by
    unfold splitShr
    rw [bind_run (run_peek pending), if_pos shr]
    show EStateM.Result.ok _ _ = _
    dsimp only
    rw [pending]
    rfl
  let before : Token := { t with kind := .symbol .gt, span := ⟨t.span.start, t.span.start + 1⟩ }
  let after : Token := { kind := .symbol .gt, span := ⟨t.span.start + 1, t.span.stop⟩ }
  refine ⟨(), { s with pending := .token after :: rest, read := before :: s.read }, ?_,
    .one (t := after) rfl more, trivial⟩
  unfold Grammar.closeAngle
  rw [bind_run split, bind_run (run_expect rfl rfl)]
  rfl

theorem checkSecond {fst : TokenKind} (alone : fst ≠ .symbol .gt) (plain : s ≠ .gt) :
    Runs (checkSecond (symbol s)) (fst :: .symbol s :: kinds) (fst :: .symbol s :: kinds) (·) := by
  intro u glues
  obtain ⟨t, _, pending, -, -, more⟩ := glues.uncons fun same => absurd same alone
  obtain ⟨t', _, pending', looks⟩ := more.looks
  have got : peekAt 1 u = .ok t' u := by
    unfold peekAt
    rw [pending, pending']
    rfl
  refine ⟨true, u, ?_, glues, rfl⟩
  unfold Input.checkSecond checkWith
  rw [bind_run got, sees_symbol plain looks, sameClass_symbol]
  rfl

end Runs

def Settles {α : Type} (ok : Prop) (r : Parser α) (kinds rest : List TokenKind) (post : α → Prop) :
    Prop :=
  (ok → Runs r kinds rest post) ∧
    (¬ok → ∀ s : Input, Glues kinds s.pending → ∃ d s', r s = .error d s')

namespace Settles

variable {α β : Type} {kinds mid rest : List TokenKind} {post : α → Prop} {ok ok' : Prop}
  {r : Parser β} {next : β → Parser α} {between : β → Prop}

theorem ofRuns {r : Parser α} (holds : ok) (runs : Runs r kinds rest post) :
    Settles ok r kinds rest post :=
  ⟨fun _ => runs, fun fails => absurd holds fails⟩

theorem congr {r : Parser α} (settles : Settles ok r kinds rest post) (same : ok ↔ ok') :
    Settles ok' r kinds rest post :=
  ⟨fun holds => settles.1 (same.mpr holds),
    fun fails => settles.2 fun holds => fails (same.mp holds)⟩

theorem bind (fst : Settles ok r kinds mid between)
    (snd : ∀ b, between b → Settles ok' (next b) mid rest post) :
    Settles (ok ∧ ok') (r >>= next) kinds rest post := by
  refine ⟨fun both => (fst.1 both.1).bind fun b holds => (snd b holds).1 both.2, ?_⟩
  intro fails s glues
  by_cases holds : ok
  · obtain ⟨b, s1, run, glues1, between⟩ := fst.1 holds s glues
    rw [bind_run run]
    exact (snd b between).2 (fun holds' => fails ⟨holds, holds'⟩) s1 glues1
  obtain ⟨d, s1, run⟩ := fst.2 holds s glues
  refine ⟨d, s1, ?_⟩
  show EStateM.bind r next s = _
  rw [EStateM.bind, run]

theorem afterRuns (fst : Runs r kinds mid between)
    (snd : ∀ b, between b → Settles ok (next b) mid rest post) :
    Settles ok (r >>= next) kinds rest post :=
  (bind (ofRuns trivial fst) snd).congr (by simp)

theorem afterKnown {b : β} (fst : Runs r kinds mid (· = b))
    (snd : Settles ok (next b) mid rest post) : Settles ok (r >>= next) kinds rest post := by
  refine afterRuns fst ?_
  rintro _ rfl
  exact snd

theorem thenRuns (fst : Settles ok r kinds mid between)
    (snd : ∀ b, between b → Runs (next b) mid rest post) :
    Settles ok (r >>= next) kinds rest post :=
  (bind fst fun b holds => ofRuns trivial (snd b holds)).congr (by simp)

end Settles

namespace Runs

variable {α : Type} {rest : List TokenKind}

open TypeSyntax (commas)

theorem commas_cons (fst : List TokenKind) (more : List (List TokenKind)) : commas (fst :: more) =
      fst ++ if more.isEmpty then [] else .symbol .comma :: commas more := by
  cases more with
  | nil => simp [commas]
  | cons => simp [commas, intercalate_cons_cons]

variable {γ : Type} {item : Parser α} {tokens : α → List TokenKind} {shape : α → γ}
  {close : TokenKind} {ok : α → Prop}

def Items (ok : α → Prop) (item : Parser α) (tokens : α → List TokenKind) (shape : α → γ)
    (close : TokenKind) (xs : List α) : Prop :=
  ∀ x ∈ xs, ∀ kind rest, kind = .symbol .comma ∨ kind = close →
    Settles (ok x) item (tokens x ++ kind :: rest) (kind :: rest) fun y => shape y = shape x

theorem separated (other : ∀ t, Looks close t → t.kind.sameClass (symbol .comma) = false)
    (xs : List α) (some : xs ≠ []) (items : Items ok item tokens shape close xs) {n : Nat}
    (enough : xs.length ≤ n) :
    Settles (∀ x ∈ xs, ok x) (separated (symbol .comma) item n)
      (commas (xs.map tokens) ++ close :: rest) (close :: rest)
      fun ys => ys.map shape = xs.map shape := by
  induction xs generalizing n with
  | nil => exact absurd rfl some
  | cons x xs ih =>
  obtain ⟨own, others⟩ := forall_mem_cons.mp items
  cases n with
  | zero => cases enough
  | succ =>
  rw [map_cons, commas_cons, append_assoc]
  cases xs with
  | nil =>
    refine (Settles.thenRuns (own close rest (.inr rfl)) fun y same => ?_).congr (by simp)
    refine known (accept_other other) ?_
    exact pure (by simp [same])
  | cons =>
  refine (Settles.bind (own (.symbol .comma) _ (.inl rfl)) fun y same => ?_).congr
    forall_mem_cons.symm
  refine .afterKnown (accept (by decide)) ?_
  refine .thenRuns (ih (by simp) others (Nat.le_of_succ_le_succ enough)) fun _ rest => ?_
  exact pure (by simp [same, rest])

theorem commaList {c : Symbol} (apart : c ≠ .gt ∧ c ≠ .comma) (xs : List α)
    (items : Items ok item tokens shape (.symbol c) xs)
    (starts : ∀ x ∈ xs, ∃ kind more, tokens x = kind :: more ∧ kind ≠ .symbol .gt ∧
      kind.sameClass (symbol c) = false) {n : Nat} (enough : xs.length < n) :
    Settles (∀ x ∈ xs, ok x) (commaList (symbol c) item n)
      (commas (xs.map tokens) ++ .symbol c :: rest) (.symbol c :: rest)
      fun ys => ys.map shape = xs.map shape := by
  induction xs generalizing n with
  | nil =>
    cases n with
    | zero => cases enough
    | succ =>
    refine .ofRuns (by simp) (known (check_symbol apart.1 c) ?_)
    rw [decide_eq_true rfl]
    exact pure rfl
  | cons x xs ih =>
  obtain ⟨own, others⟩ := forall_mem_cons.mp items
  obtain ⟨⟨_, _, shown, plain, other⟩, further⟩ := forall_mem_cons.mp starts
  cases n with
  | zero => cases enough
  | succ =>
  rw [map_cons, commas_cons, append_assoc]
  have seen : ∀ after, Runs (Input.check (symbol c)) (tokens x ++ after)
      (tokens x ++ after) (· = false) := by
    intro _
    rw [shown]
    refine check fun t looks => ?_
    rw [looks.kind_eq plain, other]
  refine .afterKnown (seen _) ?_
  cases xs with
  | nil =>
    refine (Settles.thenRuns (own (.symbol c) rest (.inr rfl)) fun y same => ?_).congr (by simp)
    refine known (accept_other fun t looks => ?_) ?_
    · rw [sees_symbol apart.1 looks]
      exact decide_eq_false apart.2
    exact pure (by simp [same])
  | cons =>
  refine (Settles.bind (own (.symbol .comma) _ (.inl rfl)) fun y same => ?_).congr
    forall_mem_cons.symm
  refine .afterKnown (accept (by decide)) ?_
  refine .thenRuns (ih others further (Nat.lt_of_succ_lt_succ enough)) fun _ rest => ?_
  exact pure (by simp [same, rest])

end Runs

variable {span : Span}

section

open TypeSyntax

variable {n : Nat} {rest : List TokenKind}

theorem length_commas {α : Type} (xs : List α) (tokens : α → List TokenKind) :
    xs.length ≤ (commas (xs.map tokens)).length + 1 ∧
      ∀ x ∈ xs, (tokens x).length ≤ (commas (xs.map tokens)).length := by
  induction xs with
  | nil => simp
  | cons fst more ih =>
  rw [map_cons, Runs.commas_cons]
  cases more with
  | nil => simp
  | cons =>
  obtain ⟨count, each⟩ := ih
  simp only [map_cons, length_cons, length_append, isEmpty_cons, Bool.false_eq_true, if_false]
    at count each ⊢
  refine ⟨by omega, forall_mem_cons.mpr ⟨by omega, fun x mem => ?_⟩⟩
  have le := each x mem
  omega

inductive Closing : TokenKind → Prop
  | eof : Closing .eof
  | comma : Closing (.symbol .comma)
  | rparen : Closing (.symbol .rparen)
  | rbracket : Closing (.symbol .rbracket)
  | rbrace : Closing (.symbol .rbrace)

inductive Ends : TokenKind → Prop
  | gt : Ends (.symbol .gt)
  | semicolon : Ends (.symbol .semicolon)
  | of {kind : TokenKind} : Closing kind → Ends kind

inductive GoesOn : TokenKind → Prop
  | dot : GoesOn (symbol .dot)
  | lt : GoesOn (symbol .lt)
  | fatArrow : GoesOn (symbol .fatArrow)
  | lparen : GoesOn (symbol .lparen)
  | lbracket : GoesOn (symbol .lbracket)
  | kwAs : GoesOn (keyword .kwAs)

theorem Ends.other (ends : Ends kind) (goesOn : GoesOn wanted) (t : Token)
    (looks : Looks kind t) : t.kind.sameClass wanted = false := by
  rcases looks.2 with same | ⟨-, same⟩ <;> rw [same]
  · cases goesOn <;> rcases ends with _ | _ | ⟨_ | _⟩ <;> rfl
  · cases goesOn <;> rfl

theorem pathTail_runs (more : List String) {tail : List TokenKind}
    (stops : Runs (accept (symbol .dot)) tail tail (· = false)) (enough : more.length < n) :
    Runs (pathTail n)
      ((more.flatMap fun name => [.symbol .dot, .identifier name]) ++ tail) tail (· = more) := by
  induction more generalizing n with
  | nil =>
    cases n with
    | zero => cases enough
    | succ =>
      refine .known stops ?_
      exact .pure rfl
  | cons name more ih =>
  cases n with
  | zero => cases enough
  | succ =>
  refine .known (.accept (by decide)) ?_
  refine .bind (.identifier name) ?_
  rintro ⟨_, _⟩ rfl
  refine .known (ih (Nat.lt_of_succ_lt_succ enough)) ?_
  exact .pure rfl

theorem length_flatMap {α β : Type} {f : α → List β} (some : ∀ x, 0 < (f x).length) (xs : List α) :
    xs.length ≤ (xs.flatMap f).length := by
  induction xs with
  | nil => exact .refl
  | cons x =>
    have := some x
    simp only [flatMap_cons, length_append, length_cons]
    omega

theorem TypeSyntax.tokens_start {t : TypeSyntax} (legible : t.Legible) :
    ∃ kind more, t.tokens = kind :: more ∧ kind ≠ .symbol .gt ∧
      kind.sameClass (symbol .rparen) = false := by
  cases legible with
  | @reference target span =>
    cases target <;> exact ⟨_, _, rfl, by simp, rfl⟩
  | _ => exact ⟨_, _, rfl, by simp, rfl⟩

def ReadsType (t : TypeSyntax) : Prop :=
  ∀ n kind rest, t.tokens.length < n → Ends kind →
    Settles (t.isSingle) (type (n + 1)) (t.tokens ++ kind :: rest) (kind :: rest)
      fun t' => t'.bare = t.bare

theorem items_types {close : TokenKind} (ends : Ends close) {ts : List TypeSyntax}
    (reads : ∀ t ∈ ts, ReadsType t)
    (enough : (commas (ts.map tokens)).length < n) :
    Runs.Items (·.isSingle) (type (n + 1)) tokens bare close ts := by
  intro t mem kind rest closes
  have length := (length_commas ts tokens).2 t mem
  refine reads t mem n kind rest (by omega) ?_
  rcases closes with rfl | rfl
  · exact .of .comma
  · exact ends

theorem typeArguments_runs {args : List TypeSyntax} (reads : ∀ t ∈ args, ReadsType t)
    (enough : (commas (args.map tokens)).length < n) (ends : Ends kind) :
    Settles (∀ t ∈ args, t.isSingle) (typeArguments (type (n + 1)) (n + 1))
      ((if args.isEmpty then [] else
        .symbol .lt :: (commas (args.map tokens) ++ [.symbol .gt])) ++ kind :: rest)
      (kind :: rest) fun got => got.map bare = args.map bare := by
  cases args with
  | nil =>
    refine .ofRuns (by simp) (.known (.sameLine (ends.other .lt)) ?_)
    exact .pure rfl
  | cons a as =>
  simp only [isEmpty_cons, Bool.false_eq_true, if_false, cons_append, append_assoc, nil_append]
  refine .afterKnown (.sameLine_symbol (by decide) .lt) ?_
  refine .afterRuns (.next (by simp)) fun _ _ => ?_
  have count := (length_commas (a :: as) tokens).1
  refine .thenRuns (Runs.separated ?_ (a :: as) (by simp)
    (items_types .gt reads enough) (by omega)) fun _ same => ?_
  · rintro t ⟨-, seen | ⟨-, seen⟩⟩ <;> rw [seen] <;> rfl
  · exact .bind .closeAngle fun _ _ => .pure same

theorem ReadsType.named {fst : String} {more : List String} {args : List TypeSyntax}
    (reads : ∀ t ∈ args, ReadsType t) :
    ReadsType (.named (fst :: more) args span) := by
  intro n kind rest enough ends
  simp only [tokens, pathTokens, tokensOf_eq_map, length_append,
    length_cons, cons_append, append_assoc] at enough ⊢
  obtain ⟨n, rfl⟩ : ∃ m, n = m + 1 := ⟨n - 1, by omega⟩
  refine .afterRuns (.next (by simp)) fun t same => ?_
  rw [same]
  have path := length_flatMap (f := fun name => [TokenKind.symbol .dot, .identifier name]) (by simp)
    more
  -- the path ends here: what follows is the `<` of the arguments or the token behind the type
  have stops : ∀ tail, tail = (if args.isEmpty then [] else
      .symbol .lt :: (commas (args.map tokens) ++ [.symbol .gt])) ++ kind :: rest →
      Runs (accept (symbol .dot)) tail tail (· = false) := by
    rintro _ rfl
    cases args with
    | nil => exact .accept_other (ends.other .dot)
    | cons =>
      refine .accept_other fun u looks => ?_
      rw [Runs.sees_symbol (by decide) looks]
      rfl
  refine .afterKnown (pathTail_runs more (stops _ rfl) (by omega)) ?_
  have room : (commas (args.map tokens)).length < n := by
    cases args with
    | nil =>
      show 0 < n
      omega
    | cons =>
      simp only [isEmpty_cons, Bool.false_eq_true, if_false, length_cons,
        length_append, length_nil] at enough
      omega
  refine (Settles.thenRuns (typeArguments_runs reads room ends) fun _ args' => ?_).congr
    areSingle_iff.symm
  refine .spanFrom fun _ => .pure ?_
  simp [bare, bares_eq_map, args']

theorem ReadsType.array {elem : TypeSyntax} {length : Nat}
    (inner : ReadsType elem) (small : length < Nat.pow 2 64) :
    ReadsType (.array elem length span) := by
  intro n kind rest enough _
  simp only [tokens, length_append, length_cons, length_nil,
    cons_append, append_assoc, nil_append] at enough ⊢
  obtain ⟨n, rfl⟩ : ∃ m, n = m + 1 := ⟨n - 1, by omega⟩
  refine .afterRuns (.next (by simp)) fun t same => ?_
  rw [same]
  refine .thenRuns (inner n _ _ (by omega) .semicolon) fun _ got => ?_
  refine .bind (.expect (by decide)) fun _ _ => ?_
  have size : Runs arrayLength (.int (.ofNat length) :: .symbol .rbracket :: kind :: rest)
      (.symbol .rbracket :: kind :: rest) (· = length) := by
    refine .bind (.next (by simp)) fun u same => ?_
    rw [same]
    exact .pure (UInt64.toNat_ofNat_of_lt small)
  refine .known size ?_
  refine .bind (.expect (by decide)) fun _ _ => ?_
  exact .spanFrom fun _ => .pure (by simp [bare, got])

theorem ReadsType.reference {target : TypeSyntax} (inner : ReadsType target) :
    ReadsType (.reference target span) := by
  intro n kind rest enough ends
  cases single : target.isReference with
  | true =>
    -- no type starts with `&&`
    refine ⟨by simp [isSingle, single], fun _ s glues => ?_⟩
    cases target with
    | reference =>
      obtain ⟨t, _, pending, kind, -, -⟩ := glues.uncons (by simp)
      rw [type, bind_run (run_next pending), kind]
      exact ⟨_, _, rfl⟩
    | _ => cases single
  | false =>
  rw [tokens_reference single] at enough ⊢
  simp only [length_cons, cons_append] at enough ⊢
  obtain ⟨n, rfl⟩ : ∃ m, n = m + 1 := ⟨n - 1, by omega⟩
  refine .afterRuns (.next (by simp)) fun t same => ?_
  rw [same]
  refine (Settles.thenRuns (inner n kind rest (by omega) ends) fun _ got => ?_).congr
    (by simp [isSingle, single])
  exact .spanFrom fun _ => .pure (by simp [bare, got])

theorem ReadsType.function {params : List TypeSyntax} {result : Option TypeSyntax}
    (legible : ∀ t ∈ params, t.Legible) (reads : ∀ t ∈ params, ReadsType t)
    (outcome : ∀ t ∈ result, ReadsType t) : ReadsType (.function params result span) := by
  intro n kind rest enough ends
  simp only [tokens, tokensOf_eq_map, length_cons,
    length_append, cons_append, append_assoc] at enough ⊢
  obtain ⟨n, rfl⟩ : ∃ m, n = m + 1 := ⟨n - 1, by omega⟩
  refine .afterRuns (.next (by simp)) fun t same => ?_
  rw [same]
  refine .afterRuns (.expect (by decide)) fun _ _ => ?_
  have count := (length_commas params tokens).1
  have last : Settles (resultIsSingle result) (after (symbol .fatArrow) (type (n + 1)))
      (resultTokens result ++ kind :: rest) (kind :: rest)
      fun got => bareResult got = bareResult result := by
    cases result with
    | none =>
      refine .ofRuns rfl (.known (.accept_other (ends.other .fatArrow)) ?_)
      exact .pure rfl
    | some t =>
    simp only [resultTokens, length_cons] at enough
    refine .afterKnown (.accept (by decide)) ?_
    refine .thenRuns (outcome t rfl n kind rest (by omega) ends) fun _ got => .pure ?_
    simp [bareResult, got]
  have single : (∀ t ∈ params, t.isSingle) ∧ resultIsSingle result ↔
      (TypeSyntax.function params result span).isSingle := by
    simp [isSingle, areSingle_iff]
  refine .congr (.bind (Runs.commaList (by decide) params (items_types (.of .rparen) reads (by omega))
    (fun t mem => TypeSyntax.tokens_start (legible t mem)) (by omega))
    fun got params' => ?_) single
  refine .afterRuns (.expect (by decide)) fun _ _ => ?_
  refine .thenRuns last fun _ found' => ?_
  refine .spanFrom fun _ => .pure ?_
  simp [bare, bares_eq_map, params', found']

theorem readsType {t : TypeSyntax} (legible : t.Legible) : ReadsType t := by
  induction legible with
  | primitive | self =>
    intro n _ _ _ _
    refine .ofRuns rfl (.bind (.next (by simp)) fun t same => ?_)
    rw [same]
    exact .spanFrom fun _ => .pure rfl
  | named _ _ ih => exact .named ih
  | array _ small ih => exact .array ih small
  | reference _ ih => exact .reference ih
  | function legible _ ih ih' => exact .function legible ih ih'

end

open Expr (bare tokens bareEntries_eq_map bares_eq_map entryTokens_eq_map groups_eq_map)

def Quiet (kind : TokenKind) : Prop :=
  ∀ t, Looks kind t → t.kind.sameClass (symbol .lparen) = false ∧
    t.kind.sameClass (symbol .dot) = false ∧ t.kind.sameClass (symbol .lbracket) = false

theorem Closing.quiet (closing : Closing kind) : Quiet kind := by
  intro t looks
  have ends : Ends kind := .of closing
  exact ⟨ends.other .lparen t looks, ends.other .dot t looks, ends.other .lbracket t looks⟩

theorem BinaryOp.quiet (op : BinaryOp) : Quiet (.symbol op.symbol) ∧
    ∀ t, Looks (.symbol op.symbol) t → t.kind.sameClass (keyword .kwAs) = false := by
  constructor <;> rintro t ⟨-, same | ⟨-, same⟩⟩ <;> rw [same]
  · cases op <;> exact ⟨rfl, rfl, rfl⟩
  · exact ⟨rfl, rfl, rfl⟩
  · rfl
  · rfl

theorem length_grouped (tokens : List TokenKind) : (grouped tokens).length = tokens.length + 2 := by
  simp [grouped]

section

variable {n start least : Nat} {kinds mid rest : List TokenKind}
  {expr : Parser Expr} {post : Expr → Prop}

theorem suffixes_end (quiet : Quiet kind) {e : Expr} (holds : post e) :
    Runs (suffixes expr start (n + 1) e) (kind :: rest) (kind :: rest) post := by
  refine .known (.sameLine fun t looks => (quiet t looks).1) ?_
  refine .known (.check fun t looks => (quiet t looks).2.1) ?_
  refine .known (.sameLine fun t looks => (quiet t looks).2.2) ?_
  exact .pure holds

theorem casts_end (other : ∀ t, Looks kind t → t.kind.sameClass (keyword .kwAs) = false)
    {e : Expr} (holds : post e) : Runs (casts (n + 1) e) (kind :: rest) (kind :: rest) post :=
  .known (.sameLine other) (.pure holds)

theorem casts_once (closing : Closing kind) {type : TypeSyntax} (printable : type.Printable)
    (enough : type.tokens.length ≤ n) (e : Expr) :
    Runs (casts (n + 3) e) (.keyword .kwAs :: (type.tokens ++ kind :: rest)) (kind :: rest)
      fun e' => e'.bare = .cast e.bare type.bare {} := by
  have marked : Runs (sameLine (keyword .kwAs)) (.keyword .kwAs :: (type.tokens ++ kind :: rest))
      (.keyword .kwAs :: (type.tokens ++ kind :: rest)) (·) := by
    refine .sameLine fun t looks => ?_
    rw [looks.kind_eq (by simp)]
    rfl
  refine .known marked ?_
  refine .step (by simp) fun _ => ?_
  obtain ⟨legible, single⟩ := printable
  refine .bind ((readsType legible (n + 1) kind rest (by omega) (.of closing)).1 single)
    fun _ same => ?_
  refine casts_end (Ends.other (.of closing) .kwAs) ?_
  rw [bare, same]

theorem binaryTail_end (closing : Closing kind) {arg : Nat → Parser Expr} {e : Expr}
    (holds : post e) :
    Runs (binaryTail arg least (n + 1) e) (kind :: rest) (kind :: rest) post := by
  have none : Runs binaryOp? (kind :: rest) (kind :: rest) (· = none) := by
    refine .bind .peek fun t looks => ?_
    rw [looks.1, looks.kind_eq (by cases closing <;> simp)]
    cases closing <;> exact .pure rfl
  exact .known none (.pure holds)

theorem unary_of_primary (plain : prefixed? kind = none) (angle : kind ≠ .symbol .gt)
    {between : Expr → Prop} (fst : Runs (primary expr n) (kind :: kinds) mid between)
    (snd : ∀ e, between e → ∀ start, Runs (suffixes expr start n e) mid rest post) :
    Runs (unary expr (n + 1)) (kind :: kinds) rest post := by
  refine .bind .peek fun t looks => ?_
  rw [looks.kind_eq angle, plain]
  exact .bind fst fun e holds => snd e holds _

theorem unary_plain {fst : TokenKind} (plain : prefixed? fst = none)
    (angle : fst ≠ .symbol .gt) (quiet : Quiet kind)
    (runs : Runs (primary expr (n + 1)) (fst :: kinds) (kind :: rest) post) :
    Runs (unary expr (n + 2)) (fst :: kinds) (kind :: rest) post :=
  unary_of_primary plain angle runs fun _ holds _ => suffixes_end quiet holds

theorem exprFrom_of_unary (closing : Closing kind)
    (fst : Runs (unary (exprFrom (n + 1) 0) (n + 1)) kinds (kind :: rest) post) :
    Runs (exprFrom (n + 2) least) kinds (kind :: rest) post := by
  refine .bind fst fun e holds => ?_
  refine .known (casts_end (Ends.other (.of closing) .kwAs) rfl) ?_
  exact binaryTail_end closing holds

theorem unary_prefixed {s : Symbol} {build : Expr → Span → Expr}
    (front : prefixed? (.symbol s) = some build) (plain : s ≠ .gt) {between : Expr → Prop}
    (arg : Runs (unary expr n) kinds rest between)
    (holds : ∀ e, between e → ∀ span, post (build e span)) :
    Runs (unary expr (n + 1)) (.symbol s :: kinds) rest post := by
  refine .bind .peek fun t looks => ?_
  rw [Runs.sees_symbol plain looks, front]
  refine .bind (.next ?_) fun _ _ => ?_
  · rintro ⟨⟩
    exact absurd rfl plain
  refine .bind arg fun e got => ?_
  exact .spanFrom fun _ => .pure (holds e got _)

theorem binaryOp_runs (op : BinaryOp) (angle : kind ≠ .symbol .gt) :
    Runs binaryOp? (.symbol op.symbol :: kind :: rest) (.symbol op.symbol :: kind :: rest)
      (· = some op) := by
  intro s glues
  obtain ⟨t, _, pending, same, line, -⟩ := glues.uncons (by simp [angle])
  refine ⟨some op, s, ?_, glues, rfl⟩
  unfold binaryOp?
  rw [bind_run (run_peek pending), line, same]
  show EStateM.Result.ok (BinaryOp.ofSymbol? op.symbol) s = _
  rw [BinaryOp.ofSymbol?_symbol]

theorem exprFrom_of_primary {fst : TokenKind} (plain : prefixed? fst = none)
    (angle : fst ≠ .symbol .gt) (closing : Closing kind)
    (runs : Runs (primary (exprFrom (n + 2) 0) (n + 1)) (fst :: kinds) (kind :: rest) post) :
    Runs (exprFrom (n + 3) least) (fst :: kinds) (kind :: rest) post :=
  exprFrom_of_unary closing (unary_plain plain angle closing.quiet runs)

end

def ReadsExpr (e : Expr) : Prop :=
  ∀ n kind rest, e.tokens.length + 2 ≤ n → Closing kind →
    Runs (exprFrom (n + 2) 0) (e.tokens ++ kind :: rest) (kind :: rest) fun e' => e'.bare = e.bare

theorem ReadsExpr.single {e : Expr} {word : TokenKind} (shape : e.tokens = [word])
    (plain : prefixed? word = none) (angle : word ≠ .symbol .gt)
    (runs : ∀ n kind rest, Runs (primary (exprFrom (n + 2) 0) (n + 1)) (word :: kind :: rest)
      (kind :: rest) fun e' => e'.bare = e.bare) : ReadsExpr e := by
  intro n kind rest _ closing
  obtain ⟨n, rfl⟩ : ∃ m, n = m + 1 := ⟨n - 1, by omega⟩
  rw [shape]
  exact exprFrom_of_primary plain angle closing (runs n kind rest)

section

variable {e : Expr} (reads : ReadsExpr e) {n m least : Nat} (enough : e.tokens.length + 2 ≤ n)
   {rest : List TokenKind}

include reads enough

theorem primary_group : Runs (primary (exprFrom (n + 2) 0) m) (grouped e.tokens ++ rest) rest
      fun e' => e'.bare = e.bare := by
  have shape : grouped e.tokens ++ rest =
      .symbol .lparen :: (e.tokens ++ .symbol .rparen :: rest) := by
    simp [grouped]
  rw [shape]
  refine .step (by simp) fun t => ?_
  refine .bind (reads n _ rest enough .rparen) fun e' got => ?_
  refine .bind (.expect (by decide)) fun _ _ => ?_
  exact .spanFrom fun _ => .pure ((e'.bare_withSpan _).trans got)

theorem unary_group (quiet : Quiet kind) :
    Runs (unary (exprFrom (n + 2) 0) (m + 2)) (grouped e.tokens ++ kind :: rest) (kind :: rest)
      fun e' => e'.bare = e.bare :=
  unary_plain rfl (by simp) quiet (primary_group reads enough)

theorem exprFrom_suffixed (closing : Closing kind) {mid : List TokenKind} {post : Expr → Prop}
    (snd : ∀ e', e'.bare = e.bare → ∀ start,
      Runs (suffixes (exprFrom (n + 2) 0) start (n + 1) e') mid (kind :: rest) post) :
    Runs (exprFrom (n + 3) least) (grouped e.tokens ++ mid) (kind :: rest) post :=
  exprFrom_of_unary closing (unary_of_primary rfl (by simp) (primary_group reads enough) snd)

theorem exprFrom_group (closing : Closing kind) :
    Runs (exprFrom (n + 3) least) (grouped e.tokens ++ kind :: rest) (kind :: rest)
      fun e' => e'.bare = e.bare :=
  exprFrom_of_unary closing (unary_group reads enough closing.quiet)

end

theorem ReadsExpr.prefixed {s : Symbol} {build : Expr → Span → Expr} {e arg : Expr}
    (front : prefixed? (.symbol s) = some build) (plain : s ≠ .gt) (reads : ReadsExpr arg)
    (shape : e.tokens = .symbol s :: grouped arg.tokens)
    (same : ∀ e', e'.bare = arg.bare → ∀ span, (build e' span).bare = e.bare) :
    ReadsExpr e := by
  intro n _ _ enough closing
  rw [shape, length_cons, length_grouped] at enough
  obtain ⟨n, rfl⟩ : ∃ m, n = m + 2 := ⟨n - 2, by omega⟩
  rw [shape]
  exact exprFrom_of_unary closing (unary_prefixed front plain
    (unary_group reads (by omega) closing.quiet) same)

section

open TypeSyntax (commas)

variable {n : Nat} {close : TokenKind}

theorem items_groups (closing : Closing close) {es : List Expr} (reads : ∀ e ∈ es, ReadsExpr e)
    (enough : (commas (es.map fun e => grouped e.tokens)).length ≤ n) :
    Runs.Items (fun _ => True) (exprFrom (n + 3) 0) (fun e => grouped e.tokens) bare close es := by
  intro e mem _ _ closes
  have length := (length_commas es fun e => grouped e.tokens).2 e mem
  rw [length_grouped] at length
  refine .ofRuns trivial (exprFrom_group (reads e mem) (by omega) ?_)
  rcases closes with rfl | rfl
  · exact .comma
  · exact closing

theorem entry_runs (label : Option String) {expr : Parser Expr} {rest after : List TokenKind}
    {post : Expr → Prop} (value : Runs expr (.symbol .lparen :: rest) after post) :
    Runs (entry expr) (labelTokens label ++ .symbol .lparen :: rest) after
      fun e => e.name = label ∧ post e.value := by
  cases label with
  | none =>
    refine .bind .peek fun t looks => ?_
    have none : Runs (entryName t) (.symbol .lparen :: rest) (.symbol .lparen :: rest)
        (· = none) := by
      rw [entryName, Runs.sees_symbol (by decide) looks]
      exact .pure rfl
    refine .known none ?_
    refine .bind value fun e holds => ?_
    exact .spanFrom fun _ => .pure ⟨rfl, holds⟩
  | some name =>
  refine .bind .peek fun t looks => ?_
  have named : Runs (entryName t) (.identifier name :: .symbol .colon :: .symbol .lparen :: rest)
      (.symbol .lparen :: rest) (· = some name) := by
    rw [entryName, looks.kind_eq (by simp)]
    refine .known (.checkSecond (by simp) (by decide)) ?_
    refine .bind (.identifier name) ?_
    rintro ⟨_, _⟩ rfl
    exact .bind (.expect (by decide)) fun _ _ => .pure rfl
  refine .known named ?_
  refine .bind value fun e holds => ?_
  exact .spanFrom fun _ => .pure ⟨rfl, holds⟩

theorem Entry.tokens_start (e : Entry Expr) : ∃ kind more, e.tokens = kind :: more ∧
    kind ≠ .symbol .gt ∧ kind.sameClass (symbol .rbrace) = false := by
  unfold Entry.tokens
  cases e.name with
  | none | some name => exact ⟨_, _, rfl, by simp, rfl⟩

theorem items_entries {es : List (Entry Expr)} (reads : ∀ e ∈ es, ReadsExpr e.value)
    (enough : (commas (es.map Entry.tokens)).length ≤ n) :
    Runs.Items (fun _ => True) (entry (exprFrom (n + 3) 0)) Entry.tokens Entry.bare
      (.symbol .rbrace) es := by
  intro e mem kind _ closes
  have length := (length_commas es Entry.tokens).2 e mem
  have own : e.tokens.length = (labelTokens e.name).length + (e.value.tokens.length + 2) := by
    simp [Entry.tokens, grouped]
  have closing : Closing kind := by
    rcases closes with rfl | rfl
    · exact .comma
    · exact .rbrace
  have room : e.value.tokens.length + 2 ≤ n := by omega
  rw [Entry.tokens, append_assoc]
  refine .ofRuns trivial ((entry_runs e.name (exprFrom_group (reads e mem) room closing)).mono ?_)
  rintro _ ⟨name, same⟩
  simp [Entry.bare, name, same]

theorem ReadsExpr.identifier {name : String}
    (printable : IsName name ∨ name = "self") : ReadsExpr (.identifier name span) := by
  rcases printable with isName | rfl
  · have shape : (Expr.identifier name span).tokens = [.identifier name] := by
      rw [tokens, isName.2]
    refine .single shape rfl (by simp) fun n _ _ => ?_
    exact .step (by simp) fun _ => .spanFrom fun _ => .pure rfl
  have shape : (Expr.identifier "self" span).tokens = [.keyword .kwSelf] := rfl
  refine .single shape rfl (by simp) fun n _ _ => ?_
  exact .step (by simp) fun _ => .spanFrom fun _ => .pure rfl

theorem ReadsExpr.array {items : List Expr} (reads : ∀ e ∈ items, ReadsExpr e) :
    ReadsExpr (.array items span) := by
  intro n _ _ enough closing
  simp only [tokens, groups_eq_map, length_cons, length_append,
    length_nil, cons_append, append_assoc, nil_append] at enough ⊢
  obtain ⟨n, rfl⟩ : ∃ m, n = m + 2 := ⟨n - 2, by omega⟩
  have count := (length_commas items fun e => grouped e.tokens).1
  refine exprFrom_of_primary rfl (by simp) closing ?_
  refine .step (by simp) fun t => ?_
  refine .bind ((Runs.commaList (by decide) items
    (items_groups .rbracket reads (by omega))
    (fun e _ => ⟨_, _, rfl, by simp, rfl⟩) (by omega)).1 (by simp)) fun _ same => ?_
  refine .bind (.expect (by decide)) fun _ _ => ?_
  refine .spanFrom fun _ => .pure ?_
  simp [bare, bares_eq_map, same]

theorem ReadsExpr.initializer {entries : List (Entry Expr)}
    (reads : ∀ e ∈ entries, ReadsExpr e.value) : ReadsExpr (.initializer entries span) := by
  intro n _ _ enough closing
  simp only [tokens, entryTokens_eq_map, length_cons, length_append,
    length_nil, cons_append, append_assoc, nil_append] at enough ⊢
  obtain ⟨n, rfl⟩ : ∃ m, n = m + 2 := ⟨n - 2, by omega⟩
  have count := (length_commas entries Entry.tokens).1
  refine exprFrom_of_primary rfl (by simp) closing ?_
  refine .step (by simp) fun t => ?_
  refine .bind ((Runs.commaList (by decide) entries (items_entries reads (by omega))
    (fun e _ => e.tokens_start) (by omega)).1 (by simp)) fun _ same => ?_
  refine .bind (.expect (by decide)) fun _ _ => ?_
  refine .spanFrom fun _ => .pure ?_
  simp [bare, bareEntries_eq_map, same]

theorem ReadsExpr.member {object : Expr} {name : String} {nameSpan span : Span}
    (inner : ReadsExpr object) : ReadsExpr (.member object name nameSpan span) := by
  intro n _ _ enough closing
  simp only [tokens, length_grouped, length_append] at enough
  obtain ⟨n, rfl⟩ : ∃ m, n = m + 2 := ⟨n - 2, by omega⟩
  rw [tokens, append_assoc]
  refine exprFrom_suffixed inner (by omega) closing fun e got _ => ?_
  refine .known (.sameLine_symbol (by decide) .lparen) ?_
  refine .known (.check_symbol (by decide) .dot) ?_
  refine .step (by simp) fun _ => ?_
  refine .bind (.identifier name) ?_
  rintro ⟨_, _⟩ rfl
  refine .spanFrom fun _ => ?_
  refine suffixes_end closing.quiet ?_
  simp [bare, got]

theorem ReadsExpr.call {callee : Expr} {args : List Expr} (inner : ReadsExpr callee)
    (reads : ∀ e ∈ args, ReadsExpr e) : ReadsExpr (.call callee args span) := by
  intro n _ _ enough closing
  simp only [tokens, groups_eq_map, length_grouped, length_cons, length_append] at enough
  obtain ⟨n, rfl⟩ : ∃ m, n = m + 2 := ⟨n - 2, by omega⟩
  have count := (length_commas args fun e => grouped e.tokens).1
  rw [tokens, groups_eq_map, append_assoc, cons_append, append_assoc]
  refine exprFrom_suffixed inner (by omega) closing fun e got _ => ?_
  refine .known (.sameLine_symbol (by decide) .lparen) ?_
  refine .step (by simp) fun _ => ?_
  refine .bind ((Runs.commaList (by decide) args (items_groups .rparen reads (by omega))
    (fun e _ => ⟨_, _, rfl, by simp, rfl⟩) (by omega)).1 (by simp)) fun _ same => ?_
  refine .bind (.expect (by decide)) fun _ _ => ?_
  refine .spanFrom fun _ => ?_
  refine suffixes_end closing.quiet ?_
  simp [bare, bares_eq_map, got, same]

theorem ReadsExpr.index {base position : Expr} (inner : ReadsExpr base)
    (inner' : ReadsExpr position) : ReadsExpr (.index base position span) := by
  intro n _ _ enough closing
  simp only [tokens, length_grouped, length_cons, length_append] at enough
  obtain ⟨n, rfl⟩ : ∃ m, n = m + 2 := ⟨n - 2, by omega⟩
  rw [tokens, append_assoc, cons_append, append_assoc]
  refine exprFrom_suffixed inner (by omega) closing fun e got _ => ?_
  refine .known (.sameLine_symbol (by decide) .lparen) ?_
  refine .known (.check_symbol (by decide) .dot) ?_
  refine .known (.sameLine_symbol (by decide) .lbracket) ?_
  refine .step (by simp) fun _ => ?_
  refine .bind (exprFrom_group inner' (by omega) .rbracket) fun _ found' => ?_
  refine .bind (.expect (by decide)) fun _ _ => ?_
  refine .spanFrom fun _ => ?_
  refine suffixes_end closing.quiet ?_
  simp [bare, got, found']

theorem ReadsExpr.binary {op : BinaryOp} {left right : Expr}
    (inner : ReadsExpr left) (inner' : ReadsExpr right) :
    ReadsExpr (.binary op left right span) := by
  intro n _ _ enough closing
  simp only [tokens, length_grouped, length_cons, length_append] at enough
  obtain ⟨n, rfl⟩ : ∃ m, n = m + 2 := ⟨n - 2, by omega⟩
  obtain ⟨quiet, other⟩ := op.quiet
  rw [tokens, append_assoc]
  refine .bind (unary_group inner (by omega) quiet) fun left' got => ?_
  refine .known (casts_end other rfl) ?_
  refine .known (binaryOp_runs op (by simp)) ?_
  refine .step (by simp) fun _ => ?_
  refine .bind (exprFrom_group inner' (by omega) closing) fun _ found' => ?_
  refine binaryTail_end closing ?_
  simp [bare, got, found']

theorem ReadsExpr.cast {arg : Expr} {type : TypeSyntax}
    (inner : ReadsExpr arg) (printable : type.Printable) :
    ReadsExpr (.cast arg type span) := by
  intro n _ _ enough closing
  simp only [tokens, length_grouped, length_cons, length_append] at enough
  obtain ⟨n, rfl⟩ : ∃ m, n = m + 2 := ⟨n - 2, by omega⟩
  rw [tokens, append_assoc]
  -- `as` is no suffix of the operand
  have quiet : Quiet (.keyword .kwAs) := by
    intro t looks
    rw [looks.kind_eq (by simp)]
    exact ⟨rfl, rfl, rfl⟩
  refine .bind (unary_group inner (by omega) quiet) fun arg' got => ?_
  refine .bind (casts_once closing printable (by omega) arg') fun e same => ?_
  refine binaryTail_end closing ?_
  rw [same, got, bare]

end

mutual

theorem readsExpr : ∀ e, e.Printable → ReadsExpr e
  | .float _ _, printable => printable.elim
  | .int value span, _ => by
    refine .single rfl rfl (by simp) fun n kind rest => ?_
    exact .step (by simp) fun _ => .spanFrom fun _ => .pure rfl
  | .bool value span, _ => by
    refine .single rfl rfl (by simp) fun n kind rest => ?_
    refine .step (by simp) fun t => ?_
    cases value <;> exact .spanFrom fun _ => .pure rfl
  | .string value span, _ => by
    refine .single rfl rfl (by simp) fun n kind rest => ?_
    exact .step (by simp) fun _ => .spanFrom fun _ => .pure rfl
  | .identifier _ _, printable => .identifier printable
  | .array items _, printable => .array (readsExprs items printable)
  | .initializer entries _, printable => .initializer (readsEntries entries printable)
  | .member object _ _ _, printable => .member (readsExpr object printable.1)
  | .call callee args _, printable =>
    .call (readsExpr callee printable.1) (readsExprs args printable.2)
  | .index base position _, printable =>
    .index (readsExpr base printable.1) (readsExpr position printable.2)
  | .binary _ left right _, printable =>
    .binary (readsExpr left printable.1) (readsExpr right printable.2)
  | .unary op arg span, printable => by
    have front : prefixed? (.symbol op.symbol) = some (.unary op) := by cases op <;> rfl
    exact .prefixed front (by cases op <;> decide) (readsExpr arg printable) rfl
      fun e same _ => by simp [bare, same]
  | .addressOf arg span, printable =>
    ReadsExpr.prefixed rfl (by decide) (readsExpr arg printable) rfl
      fun e same _ => by simp [bare, same]
  | .deref arg span, printable =>
    ReadsExpr.prefixed rfl (by decide) (readsExpr arg printable) rfl
      fun e same _ => by simp [bare, same]
  | .cast arg _ _, printable => .cast (readsExpr arg printable.1) printable.2

theorem readsExprs : ∀ es, Expr.AllPrintable es → ∀ e ∈ es, ReadsExpr e
  | [], _ => by simp
  | e :: es, printable =>
    forall_mem_cons.mpr ⟨readsExpr e printable.1, readsExprs es printable.2⟩

theorem readsEntries : ∀ es : List (Entry Expr), Expr.EntriesPrintable es →
    ∀ e ∈ es, ReadsExpr e.value
  | [], _ => by simp
  | e :: es, printable =>
    forall_mem_cons.mpr ⟨readsExpr e.value printable.1.2, readsEntries es printable.2⟩

end

theorem glues_source {text : String} {kinds : List TokenKind}
    (spelling : Scan.Spelling text.toList (kinds ++ [.eof])) :
    Glues (kinds ++ [.eof]) (Input.ofSource text).pending ∧
      kinds.length + 9 ≤ bound (.ofSource text) := by
  -- a lexeme is one token or two, so that the depth the rules start with is enough
  have glues : Glues (kinds ++ [.eof]) (Input.ofSource text).pending := spelling.spells.1 0
  have length := glues.length_le
  rw [length_append, length_singleton] at length
  exact ⟨glues, by unfold bound; omega⟩

theorem Glues.at_end {lexemes : List Lexeme} (glues : Glues [.eof] lexemes) :
    ∃ last, lexemes = [.token last] ∧ last.kind = .eof := by
  obtain ⟨last, _, pending, kind, -, more⟩ := glues.uncons (by simp)
  cases more
  exact ⟨last, pending, kind⟩

theorem Runs.source {α : Type} {rule : Nat → Parser α} {text : String} {kinds : List TokenKind}
    {post : α → Prop} (spelling : Scan.Spelling text.toList (kinds ++ [.eof]))
    (runs : ∀ n, kinds.length + 9 ≤ n → Runs (rule n) (kinds ++ [.eof]) [.eof] post) :
    ∃ a s last, rule (bound (.ofSource text)) (.ofSource text) = .ok a s ∧ post a ∧
      s.pending = [.token last] ∧ last.kind = .eof := by
  obtain ⟨glues, enough⟩ := glues_source spelling
  obtain ⟨a, s, run, left, holds⟩ := runs _ enough _ glues
  obtain ⟨last, pending, kind⟩ := left.at_end
  exact ⟨a, s, last, run, holds, pending, kind⟩

/-- An expression is read back from its text, up to places, and the text is read to its end. -/
theorem expr_text_roundTrip (e : Expr) (printable : e.Printable) :
    ∃ e' s last, Grammar.expr (bound (.ofSource e.text)) (.ofSource e.text) = .ok e' s ∧
      Expr.parse e.text = .ok e' ∧ e'.bare = e.bare ∧
      s.pending = [.token last] ∧ last.kind = .eof := by
  have spelling : Scan.Spelling (e.text.toList ++ []) (e.tokens ++ [.eof]) :=
    (e.written printable).spelling (by simp [Closes]) .done
  rw [List.append_nil] at spelling
  have runs : ∀ n, e.tokens.length + 9 ≤ n →
      Runs (Grammar.expr n) (e.tokens ++ [.eof]) [.eof] fun e' => e'.bare = e.bare := by
    intro n enough
    obtain ⟨n, rfl⟩ : ∃ m, n = m + 2 := ⟨n - 2, by omega⟩
    exact readsExpr e printable n .eof [] (by omega) .eof
  obtain ⟨e', s, last, run, same, pending, kind⟩ := Runs.source spelling runs
  refine ⟨e', s, last, run, ?_, same, pending, kind⟩
  unfold Expr.parse Grammar.parse
  dsimp only
  have parsed : Grammar.expr (bound (.ofChars e.text.toList)) (.ofChars e.text.toList) =
    .ok e' s := run
  rw [parsed]

/-- The `>>` of an operator is one token; the one at the end of nested generic arguments closes two
lists. -/
theorem expr_text_roundTrip_cast :
    ∃ e, Expr.parse "((self) >> (\"a\\n\\\"\")) as Map<int, List<Self>>" = .ok e ∧
      e.bare = .cast (.binary .shr (.identifier "self" {}) (.string "a\n\"" {}) {})
        (.named ["Map"] [.primitive .int {}, .named ["List"] [.self {}] {}] {}) {} := by
  have map : IsName "Map" := ⟨by decide, rfl⟩
  have list : IsName "List" := ⟨by decide, rfl⟩
  have inner : (TypeSyntax.named ["List"] [.self {}] {}).Legible :=
    .named (by simpa using list) (by simpa using .self)
  have type :
      (TypeSyntax.named ["Map"] [.primitive .int {}, .named ["List"] [.self {}] {}] {}).Legible :=
    .named (by simpa using map) (by simpa using ⟨.primitive, inner⟩)
  obtain ⟨e, s, last, -, parsed, same, -⟩ := expr_text_roundTrip
    (.cast (.binary .shr (.identifier "self" {}) (.string "a\n\"" {}) {}) _ {})
    ⟨⟨.inr rfl, trivial⟩, type, rfl⟩
  exact ⟨e, parsed, same⟩

/-- The text of a type is read if no reference in it is directly to a reference, and only then; it is
read to its end, and gives the type up to places. -/
theorem type_text_roundTrip {t : TypeSyntax} (legible : t.Legible) :
    ((∃ t' s, type (bound (.ofSource t.text)) (.ofSource t.text) = .ok t' s) ↔
      t.isSingle = true) ∧
    ∀ t' s, type (bound (.ofSource t.text)) (.ofSource t.text) = .ok t' s → t'.bare = t.bare ∧
      ∃ last, s.pending = [.token last] ∧ last.kind = .eof := by
  have spelling := (TypeSyntax.spelled legible).1.spelling (by simp [Closes]) .done
  rw [List.append_nil] at spelling
  obtain ⟨glues, enough⟩ := glues_source spelling
  obtain ⟨n, depth⟩ : ∃ n, bound (.ofSource t.text) = n + 1 := ⟨_, rfl⟩
  obtain ⟨reads, fails⟩ := readsType legible n .eof [] (by omega) (.of .eof)
  rw [depth]
  by_cases single : t.isSingle
  · obtain ⟨t', s, run, left, same⟩ := reads single _ glues
    refine ⟨⟨fun _ => single, fun _ => ⟨t', s, run⟩⟩, fun t'' s' run' => ?_⟩
    cases run.symm.trans run'
    exact ⟨same, left.at_end⟩
  · obtain ⟨d, s, run⟩ := fails single _ glues
    simp [run, single]

/-- A `>>` closes two lists, but `&&` does not start a type. -/
theorem type_text_roundTrip_double :
    (∃ t s, type (bound (.ofSource "A<A<&A>>")) (.ofSource "A<A<&A>>") = .ok t s) ∧
      ¬∃ t s, type (bound (.ofSource "A<A<&&A>>")) (.ofSource "A<A<&&A>>") = .ok t s := by
  have name : IsName "A" := ⟨by decide, rfl⟩
  have generic : ∀ t : TypeSyntax, t.Legible → (TypeSyntax.named ["A"] [t] {}).Legible :=
    fun t legible => .named (by simpa using name) (by simpa using legible)
  have plain : (TypeSyntax.named ["A"] [] {}).Legible := .named (by simpa using name) (by simp)
  have one : (TypeSyntax.reference (.named ["A"] [] {}) {}).Legible := .reference plain
  have two : (TypeSyntax.reference (.reference (.named ["A"] [] {}) {}) {}).Legible := .reference one
  refine ⟨(type_text_roundTrip (generic _ (generic _ one))).1.mpr rfl, fun reads => ?_⟩
  have single := (type_text_roundTrip (generic _ (generic _ two))).1.mp reads
  revert single
  decide

end Stencil
