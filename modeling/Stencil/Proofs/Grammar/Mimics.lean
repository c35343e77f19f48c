import Stencil.Proofs.Grammar.RoundTrip

/-!
Reading the same tokens twice. Two streams start with tokens that differ in their places only; in
the first one a brace stands behind these, in the second one a token that no statement goes on
with.
-/

namespace Stencil

open Input Grammar Bool

variable {kind : TokenKind}

namespace TokenKind

def startsStmt : TokenKind → Bool
  | keyword .kwLet | keyword .kwConst | keyword .kwReturn | keyword .kwIf | keyword .kwWhile
  | keyword .kwBreak | keyword .kwContinue | keyword .kwTrue | keyword .kwFalse
  | keyword .kwSelf => true
  | int _ | float _ | string _ | identifier _ => true
  | symbol .lparen | symbol .lbracket | symbol .lbrace | symbol .minus | symbol .bang
  | symbol .tilde | symbol .amp | symbol .star => true
  | _ => false

def isFixed : TokenKind → Bool
  | keyword _ | symbol _ | eof => true
  | _ => false

theorem eq_of_sameClass {a b : TokenKind} (fixed : b.isFixed)
    (same : a.sameClass b) : a = b := by
  cases b <;> cases fixed
  all_goals cases a <;> first | cases same | skip
  all_goals first | rfl | rw [of_decide_eq_true same]

def goesOn (kind : TokenKind) : Bool :=
  kind.isFixed && !kind.startsStmt && kind ≠ .symbol .semicolon && kind ≠ .symbol .rbrace

theorem isFixed_of_goesOn (goesOn : kind.goesOn) :
    kind.isFixed ∧ kind ≠ .symbol .rbrace := by
  simp only [TokenKind.goesOn, and_eq_true, decide_eq_true_eq] at goesOn
  exact ⟨goesOn.1.1.1, goesOn.2⟩

end TokenKind

def Token.Stops (t : Token) : Prop :=
  t.kind = .symbol .semicolon ∨ t.kind = .symbol .rbrace ∨
    t.newlineBefore ∧ t.kind.startsStmt

/-- What follows the common tokens of two streams. -/
structure Seam where
  brace : Token
  after : List Lexeme
  next : Token
  more : List Lexeme
  closes : brace.kind = .symbol .rbrace
  stops : next.Stops

instance : Inhabited Seam where
  default :=
    { brace := ⟨.symbol .rbrace, {}, false⟩, after := [], next := ⟨.symbol .rbrace, {}, false⟩,
      more := [], closes := rfl, stops := .inr (.inl rfl) }

namespace Seam

def left (x : Seam) : List Lexeme := .token x.brace :: x.after

def right (x : Seam) : List Lexeme := .token x.next :: x.more

theorem brace_other (x : Seam) (fixed : kind.isFixed)
    (other : kind ≠ .symbol .rbrace) : x.brace.kind.sameClass kind = false := by
  rw [eq_false_iff]
  intro same
  exact other ((TokenKind.eq_of_sameClass fixed same).symm.trans x.closes)

theorem next_other (x : Seam) (goesOn : kind.goesOn) : x.next.kind.sameClass kind = false := by
  simp only [TokenKind.goesOn, and_eq_true, not_eq_true', decide_eq_true_eq] at goesOn
  obtain ⟨⟨⟨fixed, noStart⟩, noSemicolon⟩, noBrace⟩ := goesOn
  rw [eq_false_iff]
  intro same
  have kind_eq := TokenKind.eq_of_sameClass fixed same
  rcases x.stops with stop | stop | ⟨-, starts⟩
  · exact noSemicolon (kind_eq.symm.trans stop)
  · exact noBrace (kind_eq.symm.trans stop)
  rw [kind_eq, noStart] at starts
  cases starts

inductive Aligned (x : Seam) : Bool → List Lexeme → List Lexeme → Prop
  | seam {fresh : Bool} : Aligned x fresh x.left x.right
  | token {fresh : Bool} {t t' : Token} {rest rest' : List Lexeme} : t'.kind = t.kind →
      (fresh = false → t'.newlineBefore = t.newlineBefore) → Aligned x false rest rest' →
      Aligned x fresh (.token t :: rest) (.token t' :: rest')

inductive Facing (x : Seam) (t t' : Token) : List Lexeme → List Lexeme → Prop
  | mk {rest rest' : List Lexeme} : Aligned x false rest rest' →
      Facing x t t' (.token t :: rest) (.token t' :: rest')

inductive Parted (x : Seam) : List Lexeme → List Lexeme → Prop
  | mk : Parted x x.left x.right

variable {x : Seam} {t t' : Token} {lexemes lexemes' : List Lexeme}

theorem Parted.aligned (parted : Parted x lexemes lexemes') : Aligned x false lexemes lexemes' := by
  cases parted
  exact .seam

theorem Facing.aligned {fresh : Bool} (kind : t'.kind = t.kind)
    (line : fresh = false → t'.newlineBefore = t.newlineBefore)
    (facing : Facing x t t' lexemes lexemes') : Aligned x fresh lexemes lexemes' := by
  cases facing with
  | mk more => exact .token kind line more

end Seam

def Shrinks {α : Type} (r : Parser α) : Prop :=
  ∀ s u a, r s = .ok a u → sizeOfPending u.pending ≤ sizeOfPending s.pending

def Advances {α : Type} (r : Parser α) : Prop :=
  ∀ s u a, s.pending ≠ [] → r s = .ok a u →
    sizeOfPending u.pending < sizeOfPending s.pending

def Seam.Retained (x : Seam) (u : Input) : Prop :=
  sizeOfPending x.left ≤ sizeOfPending u.pending

def Seam.Overrun {α : Type} (x : Seam) (r : Parser α) : Prop :=
  ∀ s u a, s.pending = x.left → r s = .ok a u → ¬ x.Retained u

structure Mimics {α γ : Type} (x : Seam) (start : List Lexeme → List Lexeme → Prop)
    (r r' : Parser α) (shape : α → γ) : Prop where
  shrinks : Shrinks r
  follows : ∀ {s s' u : Input} {a : α}, start s.pending s'.pending → r s = .ok a u →
    x.Retained u → ∃ a' u', r' s' = .ok a' u' ∧ shape a' = shape a ∧
      x.Aligned false u.pending u'.pending

abbrev Seam.Agrees {α γ : Type} (x : Seam) (r r' : Parser α) (shape : α → γ) : Prop :=
  Mimics x (x.Aligned false) r r' shape

variable {α β γ δ : Type} {x : Seam} {start : List Lexeme → List Lexeme → Prop} {fresh : Bool}
  {shape : α → γ} {form : β → δ}

variable {r : Parser β}

theorem check_run {s : Input} {t : Token} {rest : List Lexeme} (kind : TokenKind)
    (pending : s.pending = .token t :: rest) : check kind s = .ok (t.kind.sameClass kind) s :=
  bind_run (run_peek pending)

def Fails (r : Parser α) : Prop :=
  ∀ s u a, r s ≠ .ok a u

theorem Fails.throw (d : Diagnostic) : Fails (throw d : Parser α) := by
  intro s u a run
  cases run

theorem Fails.bind_left {next : β → Parser α} (fails : Fails r) : Fails (r >>= next) := by
  intro s u a run
  obtain ⟨b, v, got, -⟩ := bind_ok run
  exact fails s v b got

theorem Fails.bind_right {next : β → Parser α} (fails : ∀ b, Fails (next b)) :
    Fails (r >>= next) := by
  intro s u a run
  obtain ⟨b, v, -, more⟩ := bind_ok run
  exact fails b v u a more

theorem Fails.exhausted : Fails (exhausted : Parser α) :=
  .bind_right fun _ => .throw _

theorem fuel_induction {motive : (n n' : Nat) → n ≤ n' → Prop}
    (zero : ∀ n', motive 0 n' (Nat.zero_le n'))
    (succ : ∀ n n' le, motive n n' le → motive (n + 1) (n' + 1) (Nat.succ_le_succ le))
    (n n' : Nat) (le : n ≤ n') : motive n n' le := by
  induction n generalizing n' with
  | zero => exact zero n'
  | succ n ih =>
    cases n' with
    | zero => cases le
    | succ n' => exact succ n n' _ (ih n' (Nat.le_of_succ_le_succ le))

theorem Fails.unexpected (what : String) (t : Token) : Fails (unexpected what t : Parser α) :=
  .throw _

theorem Shrinks.of_fails {r : Parser α} (fails : Fails r) : Shrinks r :=
  fun s u a run => absurd run (fails s u a)

theorem Shrinks.pure (a : α) : Shrinks (pure a) := by
  intro s u b run
  cases run
  exact .refl

theorem Shrinks.bind {next : β → Parser α} (fst : Shrinks r)
    (snd : ∀ b, Shrinks (next b)) : Shrinks (r >>= next) := by
  intro s u a run
  obtain ⟨b, v, got, more⟩ := bind_ok run
  exact Nat.le_trans (snd b v u a more) (fst s v b got)

theorem Shrinks.peekAt (n : Nat) : Shrinks (peekAt n) := by
  intro s u a run
  unfold Input.peekAt at run
  split at run <;> cases run
  exact .refl

theorem Shrinks.next : Shrinks next := by
  intro s u a run
  unfold Input.next at run
  split at run <;> cases run
  · exact .refl
  rename_i t rest pending
  rw [pending]
  exact Nat.le_add_left _ _

theorem Shrinks.skipSemicolons (n : Nat) : Shrinks (skipSemicolons n) := by
  have accepts : Shrinks (accept (symbol .semicolon)) := by
    refine .bind (.bind (.peekAt 0) fun _ => .pure _) fun got => ?_
    cases got with
    | true => exact .bind .next fun _ => .pure _
    | false => exact .pure _
  induction n with
  | zero => exact .of_fails .exhausted
  | succ n ih =>
  refine .bind accepts fun taken => ?_
  cases taken with
  | true => exact ih
  | false => exact .pure _

namespace Advances

theorem of_fails {r : Parser α} (fails : Fails r) : Advances r :=
  fun s u a _ run => absurd run (fails s u a)

theorem bind {next : β → Parser α} (fst : Advances r)
    (snd : ∀ b, Shrinks (next b)) : Advances (r >>= next) := by
  intro s u a some run
  obtain ⟨b, v, got, more⟩ := bind_ok run
  exact Nat.lt_of_le_of_lt (snd b v u a more) (fst s v b some got)

theorem bind_right {next : β → Parser α} (fst : Shrinks r)
    (shrinks : ∀ b, Shrinks (next b)) (snd : ∀ b, Advances (next b)) :
    Advances (r >>= next) := by
  intro s u a some run
  obtain ⟨b, v, got, more⟩ := bind_ok run
  have le := fst s v b got
  by_cases none : v.pending = []
  · -- the first step has read all there was
    have all : sizeOfPending v.pending = 0 := by rw [none]; rfl
    have := shrinks b v u a more
    have := sizeOfPending_pos some
    omega
  · exact Nat.lt_of_lt_of_le (snd b v u a none more) le

theorem next : Advances Input.next := by
  intro s u t some run
  unfold Input.next at run
  split at run <;> cases run
  · rename_i pending
    exact absurd pending some
  rename_i rest pending
  have := Lexeme.size_bounds (.token t)
  rw [pending]
  simp only [sizeOfPending]
  omega

theorem expect : Advances (Input.expect kind) := by
  refine next.bind fun t => ?_
  split
  · exact .pure t
  · exact .of_fails (.throw _)

theorem overrun {r : Parser α} (advances : Advances r) : x.Overrun r := by
  intro s u a pending run retained
  have := advances s u a (by rw [pending]; exact List.cons_ne_nil _ _) run
  rw [pending] at this
  exact absurd retained (Nat.not_le_of_lt this)

end Advances

namespace Seam.Overrun

theorem of_fails {r : Parser α} (fails : Fails r) : x.Overrun r :=
  (Advances.of_fails fails).overrun

theorem bind {next : β → Parser α} (fst : x.Overrun r)
    (snd : ∀ b, Shrinks (next b)) : x.Overrun (r >>= next) := by
  intro s u a pending run retained
  obtain ⟨b, v, got, more⟩ := bind_ok run
  exact fst s v b pending got (Nat.le_trans retained (snd b v u a more))

theorem peek_bind {next : Token → Parser α} (snd : x.Overrun (next x.brace)) :
    x.Overrun (peek >>= next) := by
  intro s u a pending run
  rw [bind_run (run_peek pending)] at run
  exact snd s u a pending run

theorem check_bind {next : Bool → Parser α} (snd : x.Overrun (next (x.brace.kind.sameClass kind))) :
    x.Overrun (check kind >>= next) := by
  unfold check checkWith
  rw [bind_assoc]
  refine peek_bind ?_
  exact snd

end Seam.Overrun

namespace Mimics

variable {r r' : Parser α}

theorem mono {start' : List Lexeme → List Lexeme → Prop} (mimics : Mimics x start r r' shape)
    (weaker : ∀ lexemes lexemes', start' lexemes lexemes' → start lexemes lexemes') :
    Mimics x start' r r' shape :=
  ⟨mimics.shrinks, fun begins run retained => mimics.follows (weaker _ _ begins) run retained⟩

theorem of_fails (fails : Fails r) : Mimics x start r r' shape :=
  ⟨fun s u a run => absurd run (fails s u a), fun _ run => absurd run (fails _ _ _)⟩

theorem of_overrun (shrinks : Shrinks r) (overrun : x.Overrun r) :
    Mimics x x.Parted r r' shape := by
  refine ⟨shrinks, ?_⟩
  intro s s' u a parted run retained
  generalize pending : s.pending = lexemes at parted
  generalize s'.pending = lexemes' at parted
  cases parted
  exact absurd retained (overrun s u a pending run)

variable {t t' : Token}

theorem facing (kind : t'.kind = t.kind)
    (line : t'.newlineBefore = t.newlineBefore) (mimics : x.Agrees r r' shape) :
    Mimics x (x.Facing t t') r r' shape :=
  mimics.mono fun _ _ => Seam.Facing.aligned kind fun _ => line

theorem parted (mimics : x.Agrees r r' shape) : Mimics x x.Parted r r' shape :=
  mimics.mono fun _ _ => Seam.Parted.aligned

theorem pure {a a' : α} (same : shape a' = shape a) : x.Agrees (pure a) (pure a') shape := by
  refine ⟨.pure a, ?_⟩
  intro s s' u b aligned run _
  cases run
  exact ⟨a', s', rfl, same, aligned⟩

variable {r r' : Parser β}

theorem bind {next next' : β → Parser α} (fst : Mimics x start r r' form)
    (snd : ∀ b b', form b' = form b → x.Agrees (next b) (next' b') shape) :
    Mimics x start (r >>= next) (r' >>= next') shape := by
  refine ⟨.bind fst.shrinks fun b => (snd b b rfl).shrinks, ?_⟩
  intro s _ u a begins run retained
  obtain ⟨b, v, got, more⟩ := bind_ok run
  have kept : x.Retained v := Nat.le_trans retained ((snd b b rfl).shrinks v u a more)
  obtain ⟨b', _, found', same, aligned⟩ := fst.follows begins got kept
  obtain ⟨a', u', more', result⟩ := (snd b b' same).follows aligned more retained
  exact ⟨a', u', (bind_run found').trans more', result⟩

theorem bind_same {next next' : β → Parser α} (fst : Mimics x start r r' id)
    (snd : ∀ b, x.Agrees (next b) (next' b) shape) :
    Mimics x start (r >>= next) (r' >>= next') shape := by
  refine fst.bind fun b b' same => ?_
  obtain rfl : b' = b := same
  exact snd _

theorem map {f : β → α} (inner : Mimics x start r r' form)
    (same : ∀ b b', form b' = form b → shape (f b') = shape (f b)) :
    Mimics x start (f <$> r) (f <$> r') shape := by
  exact inner.bind fun b b' equal => .pure (same b b' equal)

theorem spanFrom_bind {begin begin' : Nat} {next next' : Span → Parser α}
    (snd : ∀ span span', Mimics x start (next span) (next' span') shape) :
    Mimics x start (spanFrom begin >>= next) (spanFrom begin' >>= next') shape := by
  refine ⟨?_, ?_⟩
  · intro s u a run
    exact (snd _ ⟨begin, max s.lastEnd begin⟩).shrinks s u a run
  intro s s' u a begins run retained
  exact (snd ⟨begin, max s.lastEnd begin⟩ ⟨begin', max s'.lastEnd begin'⟩).follows begins run
    retained

theorem peek_bind {next next' : Token → Parser α}
    (seam : Mimics x x.Parted (next x.brace) (next' x.next) shape)
    (lies : ∀ t t', t'.kind = t.kind → (fresh = false → t'.newlineBefore = t.newlineBefore) →
      Mimics x (x.Facing t t') (next t) (next' t') shape) :
    Mimics x (x.Aligned fresh) (peek >>= next) (peek >>= next') shape := by
  refine ⟨.bind (.peekAt 0) fun t => (lies t t rfl fun _ => rfl).shrinks, ?_⟩
  intro s s' u a aligned run retained
  generalize pending : s.pending = lexemes at aligned
  generalize pending' : s'.pending = lexemes' at aligned
  cases aligned with
  | seam =>
    rw [bind_run (run_peek pending)] at run
    rw [bind_run (run_peek pending')]
    exact seam.follows (by rw [pending, pending']; exact .mk) run retained
  | token kind line more =>
    rw [bind_run (run_peek pending)] at run
    rw [bind_run (run_peek pending')]
    exact (lies _ _ kind line).follows (by rw [pending, pending']; exact .mk more) run retained

theorem next_bind {next next' : Token → Parser α}
    (snd : ∀ t t', t'.kind = t.kind → x.Agrees (next t) (next' t') shape) :
    Mimics x (x.Aligned fresh) (Input.next >>= next) (Input.next >>= next') shape := by
  have shrinks : ∀ t, Shrinks (next t) := fun t => (snd t t rfl).shrinks
  refine ⟨.bind .next shrinks, ?_⟩
  intro s s' u a aligned run retained
  generalize pending : s.pending = lexemes at aligned
  generalize pending' : s'.pending = lexemes' at aligned
  cases aligned with
  | seam => exact absurd retained ((Advances.next.bind shrinks).overrun s u a pending run)
  | token kind line more =>
    rw [bind_run (run_next pending)] at run
    rw [bind_run (run_next pending')]
    exact (snd _ _ kind).follows more run retained

theorem expect : Mimics x (x.Aligned fresh) (expect kind) (expect kind) Token.kind := by
  refine next_bind fun t _ same => ?_
  rw [same]
  split
  · exact .pure same
  · exact .of_fails (.throw _)

theorem identifier :
    Mimics x (x.Aligned fresh) identifier identifier (Prod.fst : String × Span → String) := by
  refine next_bind fun t _ same => ?_
  rw [same]
  cases t.kind with
  | identifier => exact .pure rfl
  | _ => exact .of_fails (.unexpected _ _)

theorem check_bind {next next' : Bool → Parser α}
    (seam : Mimics x x.Parted (next (x.brace.kind.sameClass kind))
      (next' (x.next.kind.sameClass kind)) shape)
    (lies : ∀ t t', t'.kind = t.kind → t'.newlineBefore = t.newlineBefore → ∀ same,
      Mimics x (x.Facing t t') (next same) (next' same) shape) :
    x.Agrees (check kind >>= next) (check kind >>= next') shape := by
  unfold check checkWith
  rw [bind_assoc, bind_assoc]
  refine peek_bind ?_ fun t t' same line => ?_
  · rw [pure_bind, pure_bind]
    exact seam
  rw [pure_bind, pure_bind, same]
  exact lies t t' same (line rfl) _

theorem seen_check_bind {next next' : Bool → Parser α} (same : t'.kind = t.kind)
    (snd : ∀ got, Mimics x (x.Facing t t') (next got) (next' got) shape) :
    Mimics x (x.Facing t t') (Input.check kind >>= next) (Input.check kind >>= next')
      shape := by
  refine ⟨.bind (.bind (.peekAt 0) fun _ => .pure _) fun got => (snd got).shrinks, ?_⟩
  intro s s' u a facing run retained
  have begins := facing
  generalize pending : s.pending = lexemes at facing
  generalize pending' : s'.pending = lexemes' at facing
  cases facing with
  | mk =>
    rw [bind_run (check_run kind pending)] at run
    rw [bind_run (check_run kind pending'), same]
    exact (snd _).follows begins run retained

theorem check (goesOn : kind.goesOn) : x.Agrees (check kind) (check kind) id := by
  refine peek_bind ?_ fun t _ same line => ?_
  · obtain ⟨fixed, other⟩ := TokenKind.isFixed_of_goesOn goesOn
    rw [x.brace_other fixed other, x.next_other goesOn]
    exact parted (.pure rfl)
  rw [same]
  exact facing same (line rfl) (.pure rfl)

theorem accept (goesOn : kind.goesOn) : x.Agrees (accept kind) (accept kind) id := by
  refine (check goesOn).bind_same fun got => ?_
  cases got with
  | true => exact next_bind fun _ _ _ => .pure rfl
  | false => exact .pure rfl

theorem sameLine (fixed : kind.isFixed) (other : kind ≠ .symbol .rbrace)
    (noSemicolon : kind ≠ .symbol .semicolon) :
    x.Agrees (sameLine kind) (sameLine kind) id := by
  refine peek_bind ?_ fun t _ same line => ?_
  · have got : (!x.next.newlineBefore && x.next.kind.sameClass kind) = false := by
      rcases x.stops with stop | stop | ⟨line, -⟩
      · rw [and_eq_false_iff, eq_false_iff (b := x.next.kind.sameClass kind)]
        exact .inr fun same => noSemicolon ((TokenKind.eq_of_sameClass fixed same).symm.trans stop)
      · rw [and_eq_false_iff, eq_false_iff (b := x.next.kind.sameClass kind)]
        exact .inr fun same => other ((TokenKind.eq_of_sameClass fixed same).symm.trans stop)
      rw [line]
      rfl
    rw [got, x.brace_other fixed other, Bool.and_false]
    exact parted (.pure rfl)
  rw [same, line rfl]
  exact facing same (line rfl) (.pure rfl)

theorem binaryOp? : x.Agrees binaryOp? binaryOp? id := by
  refine peek_bind ?_ fun t t' same line => ?_
  · have none : Mimics x x.Parted (.pure none) (.pure none) (id : Option BinaryOp → _) :=
      parted (.pure rfl)
    rw [x.closes]
    rcases x.stops with stop | stop | ⟨line, -⟩
    · rw [stop]
      cases x.brace.newlineBefore <;> cases x.next.newlineBefore <;> exact none
    · rw [stop]
      cases x.brace.newlineBefore <;> cases x.next.newlineBefore <;> exact none
    rw [line]
    cases x.brace.newlineBefore <;> exact none
  rw [same, line rfl]
  have same : ∀ op, Mimics x (x.Facing t t') (.pure op) (.pure op) (id : Option BinaryOp → _) :=
    fun _ => facing same (line rfl) (.pure rfl)
  split
  · exact same none
  cases t.kind with
  | symbol => exact same _
  | _ => exact same none

theorem checkSecond (goesOn : kind.goesOn)
    (same : t'.kind = t.kind) (line : t'.newlineBefore = t.newlineBefore) :
    Mimics x (x.Facing t t') (checkSecond kind) (checkSecond kind) id := by
  refine ⟨.bind (.peekAt 1) fun _ => .pure _, ?_⟩
  intro s s' u _ facing run _
  have aligned : x.Aligned false s.pending s'.pending := facing.aligned same fun _ => line
  have look : ∀ {v : Input} {fst snd : Token} {rest : List Lexeme},
      v.pending = .token fst :: .token snd :: rest →
      Input.checkSecond kind v = .ok (snd.kind.sameClass kind) v := by
    intro v _ snd _ pending
    have ahead : peekAt 1 v = .ok snd v := by
      unfold peekAt
      rw [pending]
      rfl
    exact bind_run ahead
  generalize pending : s.pending = lexemes at facing
  generalize pending' : s'.pending = lexemes' at facing
  cases facing with
  | mk more =>
  cases more with
  | seam =>
    rw [look pending] at run
    cases run
    obtain ⟨fixed, other⟩ := TokenKind.isFixed_of_goesOn goesOn
    refine ⟨_, s', look pending', ?_, aligned⟩
    rw [x.brace_other fixed other, x.next_other goesOn]
  | token kind' =>
    rw [look pending] at run
    cases run
    exact ⟨_, s', look pending', by rw [kind'], aligned⟩

theorem splitShr : x.Agrees splitShr splitShr id := by
  refine ⟨?_, ?_⟩
  · intro s u a run
    obtain ⟨t, v, seen, more⟩ := bind_ok run
    obtain ⟨rfl, faces⟩ := peek_faces seen
    split at more <;> cases more
    · rename_i shr
      obtain ⟨-, rfl⟩ | ⟨rest, pending⟩ := faces
      · cases shr
      dsimp only
      rw [pending]
      exact Nat.le_of_eq (Splits.split shr (.refl rest)).size
    · exact .refl
  intro s s' u a aligned run _
  have begins := aligned
  generalize pending : s.pending = lexemes at aligned
  generalize pending' : s'.pending = lexemes' at aligned
  cases aligned with
  | seam =>
    rw [run_splitShr pending] at run
    refine ⟨(), _, run_splitShr pending', rfl, ?_⟩
    have noBrace : x.brace.kind ≠ .symbol .shr := by rw [x.closes]; decide
    have noNext : x.next.kind ≠ .symbol .shr := by
      rcases x.stops with stop | stop | ⟨-, starts⟩
      · rw [stop]; decide
      · rw [stop]; decide
      intro shr
      rw [shr] at starts
      cases starts
    rw [if_neg noBrace] at run
    cases run
    rwa [if_neg noNext]
  | @token _ t t' _ _ kind line more =>
  rw [run_splitShr pending] at run
  refine ⟨(), _, run_splitShr pending', rfl, ?_⟩
  cases run
  rw [kind]
  split
  · exact .token rfl line (.token rfl (fun _ => rfl) more)
  · exact begins

theorem closeAngle : x.Agrees closeAngle closeAngle id :=
  splitShr.bind_same fun _ => expect.bind fun _ _ _ => .pure rfl

variable {item item' : Parser β}

theorem after {mark : TokenKind} (goesOn : mark.goesOn) (inner : x.Agrees item item' form) :
    x.Agrees (after mark item) (after mark item') (Option.map form) := by
  refine (accept goesOn).bind_same fun got => ?_
  cases got with
  | true => exact inner.bind fun b _ equal => .pure (congrArg some equal)
  | false => exact .pure rfl

variable {n n' : Nat}

theorem separated {separator : TokenKind} (le : n ≤ n')
    (goesOn : separator.goesOn) (inner : x.Agrees item item' form) :
    x.Agrees (separated separator item n) (separated separator item' n') (List.map form) := by
  induction n, n', le using fuel_induction with
  | zero => exact .of_fails .exhausted
  | succ n n' le ih =>
  refine inner.bind fun b _ equal => (accept goesOn).bind_same fun got => ?_
  cases got with
  | true => exact ih.bind fun _ _ more => .pure (by simp [equal, more])
  | false => exact .pure (by simp [equal])

/-- A list and the token that closes it. At the seam, the token or an item would be the brace. -/
theorem commaList_bind {close : TokenKind} {next next' : List β → Parser α} (le : n ≤ n')
    (inner : x.Agrees item item' form) (overrun : x.Overrun item)
    (snd : ∀ bs bs', bs'.map form = bs.map form → x.Agrees (next bs) (next' bs') shape) :
    x.Agrees (commaList close item n >>= fun bs => Input.expect close >>= fun _ => next bs)
      (commaList close item' n' >>= fun bs => Input.expect close >>= fun _ => next' bs)
      shape := by
  induction n, n', le using fuel_induction generalizing next next' with
  | zero => exact .of_fails (.bind_left .exhausted)
  | succ n n' le ih =>
  have closing : ∀ bs bs', bs'.map form = bs.map form → x.Agrees
      (Input.expect close >>= fun _ => next bs)
      (Input.expect close >>= fun _ => next' bs') shape :=
    fun bs bs' equal => expect.bind fun _ _ _ => snd bs bs' equal
  have items : ∀ b b', form b' = form b → x.Agrees (Input.accept (symbol .comma) >>= fun more =>
        (if more = true then commaList close item n >>= fun bs => Pure.pure (b :: bs)
          else Pure.pure [b]) >>= fun bs => Input.expect close >>= fun _ => next bs)
      (Input.accept (symbol .comma) >>= fun more =>
        (if more = true then commaList close item' n' >>= fun bs => Pure.pure (b' :: bs)
          else Pure.pure [b']) >>= fun bs => Input.expect close >>= fun _ => next' bs)
      shape := by
    intro b b' equal
    refine (accept rfl).bind_same fun more => ?_
    cases more with
    | true =>
      simp only [↓reduceIte, bind_assoc, pure_bind]
      exact ih fun _ _ same => snd _ _ (by simp [equal, same])
    | false => exact closing [b] [b'] (by simp [equal])
  -- with an item or without, the brace would be read at the seam
  have step := inner.bind items
  have ends := overrun.bind fun b => (items b b rfl).shrinks
  simp only [commaList, bind_assoc]
  refine check_bind ?_ fun t _ kind line same => ?_
  · cases x.brace.kind.sameClass close with
    | true =>
      exact of_overrun (closing [] [] rfl).shrinks
        (Advances.expect.overrun.bind fun _ => (snd [] [] rfl).shrinks)
    | false =>
      simp only [false_eq_true, ↓reduceIte, bind_assoc]
      exact of_overrun step.shrinks ends
  cases same with
  | true =>
    exact facing kind line (closing [] [] rfl)
  | false =>
    simp only [false_eq_true, ↓reduceIte, bind_assoc]
    exact facing kind line step

theorem skipSemicolons_bind {next next' : Parser α} (le : n ≤ n')
    (snd : x.Agrees next next' shape) (overrun : x.Overrun next) :
    x.Agrees (skipSemicolons n >>= fun _ => next) (skipSemicolons n' >>= fun _ => next') shape ∧
      x.Overrun (skipSemicolons n >>= fun _ => next) := by
  induction n, n', le using fuel_induction with
  | zero => exact ⟨.of_fails (.bind_left .exhausted), .of_fails (.bind_left .exhausted)⟩
  | succ n n' le ih =>
  have more := ih.1
  have none : x.brace.kind.sameClass (symbol .semicolon) = false :=
    x.brace_other rfl (by decide)
  simp only [skipSemicolons, accept_eq, bind_assoc]
  refine ⟨check_bind ?_ fun t _ kind line same => ?_, .check_bind ?_⟩
  · simp only [none, false_eq_true, ↓reduceIte, pure_bind]
    exact of_overrun snd.shrinks overrun
  · cases same with
    | true =>
      simp only [↓reduceIte, bind_assoc, pure_bind]
      exact facing kind line (next_bind fun _ _ _ => more)
    | false =>
      exact facing kind line snd
  simp only [none, false_eq_true, ↓reduceIte, pure_bind]
  exact overrun

theorem stmtsUntilBrace_bind {stmt stmt' : Parser Stmt}
    {next next' : List Stmt → Parser α} (le : n ≤ n')
    (inner : x.Agrees stmt stmt' Stmt.bare)
    (snd : ∀ ss ss', ss'.map Stmt.bare = ss.map Stmt.bare → x.Agrees (next ss) (next' ss') shape) :
    x.Agrees (stmtsUntilBrace stmt n >>= fun ss =>
          Input.expect (symbol .rbrace) >>= fun _ => next ss)
        (stmtsUntilBrace stmt' n' >>= fun ss =>
          Input.expect (symbol .rbrace) >>= fun _ => next' ss) shape ∧
      x.Overrun (stmtsUntilBrace stmt n >>= fun ss =>
        Input.expect (symbol .rbrace) >>= fun _ => next ss) := by
  induction n, n', le using fuel_induction generalizing next next' with
  | zero => exact ⟨.of_fails (.bind_left .exhausted), .of_fails (.bind_left .exhausted)⟩
  | succ n n' le ih =>
  have got : x.brace.kind.sameClass (symbol .rbrace) := by rw [x.closes]; rfl
  have closing : x.Agrees (Input.expect (symbol .rbrace) >>= fun _ => next [])
      (Input.expect (symbol .rbrace) >>= fun _ => next' []) shape :=
    expect.bind fun _ _ _ => snd [] [] rfl
  have ends : x.Overrun (Input.expect (symbol .rbrace) >>= fun _ => next []) :=
    Advances.expect.overrun.bind fun _ => (snd [] [] rfl).shrinks
  simp only [stmtsUntilBrace, bind_assoc]
  refine ⟨check_bind ?_ fun t _ kind line same => ?_, .check_bind ?_⟩
  · simp only [got, ↓reduceIte, pure_bind]
    exact of_overrun closing.shrinks ends
  · cases same with
    | true =>
      exact facing kind line closing
    | false =>
      simp only [false_eq_true, ↓reduceIte, bind_assoc]
      refine seen_check_bind kind fun ended => ?_
      cases ended with
      | true => exact .of_fails (.bind_left (.bind_right fun _ => .throw _))
      | false =>
      simp only [false_eq_true, ↓reduceIte, bind_assoc, pure_bind]
      refine facing kind line (inner.bind fun fst fst' equal => ?_)
      obtain ⟨further, overrun⟩ := ih fun ss ss' more =>
        snd (fst :: ss) (fst' :: ss') (by simp [equal, more])
      exact (skipSemicolons_bind le further overrun).1
  simp only [got, ↓reduceIte, pure_bind]
  exact ends

end Mimics

end Stencil
