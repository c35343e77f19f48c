import Stencil.Proofs.Grammar.RoundTrip

namespace Stencil

open Input Grammar

namespace Expr

def operator? : Expr → Option BinaryOp
  | binary op _ _ _ => some op
  | _ => none

/-- The operands and operators from left to right. -/
def reading : Expr → Expr × List (BinaryOp × Expr)
  | binary op left right _ =>
    (left.reading.1, left.reading.2 ++ (op, right.reading.1) :: right.reading.2)
  | e => (e.bare, [])

/-- To the left of an operator stand only operators that bind as tight, to the right only those that
bind tighter. -/
def Ranked : Expr → Prop
  | binary op left right _ => left.Ranked ∧ right.Ranked ∧
    (∀ q ∈ left.operator?, op.precedence ≤ q.precedence) ∧
    ∀ q ∈ right.operator?, op.precedence < q.precedence
  | _ => True

def IsOperand (e : Expr) : Prop :=
  (∃ n, e = .int n {}) ∨ ∃ name, e = .identifier name {} ∧ IsName name

theorem Ranked.reading_le {least : Nat} (e : Expr) (ranked : e.Ranked)
    (root : ∀ q ∈ e.operator?, least ≤ q.precedence) :
    ∀ x ∈ e.reading.2, least ≤ x.1.precedence := by
  cases e with
  | binary op left right =>
    obtain ⟨left', right', tight, tighter⟩ := ranked
    have own := root op rfl
    refine List.forall_mem_append.mpr ⟨?_, List.forall_mem_cons.mpr ⟨own, ?_⟩⟩
    · exact left'.reading_le left fun q here => Nat.le_trans own (tight q here)
    · exact right'.reading_le right fun q here => Nat.le_trans own (Nat.le_of_lt (tighter q here))
  | _ => simp [reading]

theorem split_unique {α : Type} (rank : α → Nat) {x x' : α} {xs ys xs' ys' : List α}
    (same : xs ++ x :: ys = xs' ++ x' :: ys') (before : ∀ y ∈ xs, rank x ≤ rank y)
    (after : ∀ y ∈ ys, rank x < rank y) (before' : ∀ y ∈ xs', rank x' ≤ rank y)
    (after' : ∀ y ∈ ys', rank x' < rank y) : xs = xs' ∧ x = x' ∧ ys = ys' := by
  rcases List.append_eq_append_iff.mp same with ⟨mid, rfl, rest⟩ | ⟨mid, rfl, rest⟩ <;>
    cases mid with
    | nil => simp_all
    | cons =>
      grind

theorem Ranked.unique (e e' : Expr) (ranked : e.Ranked) (ranked' : e'.Ranked)
    (same : e.reading = e'.reading) : e.bare = e'.bare := by
  cases e with
  | binary op left right =>
    cases e' with
    | binary op' left' right' =>
      obtain ⟨first, rest⟩ := Prod.mk.inj same
      obtain ⟨before, here, after⟩ := split_unique (fun x => x.1.precedence) rest
        (ranked.1.reading_le left ranked.2.2.1) (ranked.2.1.reading_le right ranked.2.2.2)
        (ranked'.1.reading_le left' ranked'.2.2.1) (ranked'.2.1.reading_le right' ranked'.2.2.2)
      obtain ⟨rfl, snd⟩ := Prod.mk.inj here
      have left_eq := ranked.1.unique left left' ranked'.1 (Prod.ext first before)
      have right_eq := ranked.2.1.unique right right' ranked'.2.1 (Prod.ext snd after)
      rw [bare, bare, left_eq, right_eq]
    | _ => simp [reading] at same
  | _ =>
    cases e' with
    | binary => simp [reading] at same
    | _ => exact congrArg Prod.fst same

end Expr

theorem Expr.IsOperand.token {e : Expr} (atom : e.IsOperand) : ∃ kind, e.tokens = [kind] ∧
    kind ≠ .symbol .gt ∧ prefixed? kind = none ∧ ∀ expr n rest,
      Runs (primary expr n) (kind :: rest) rest
        fun e' => e'.Ranked ∧ e'.reading = (e, []) ∧ e'.operator? = none := by
  rcases atom with ⟨n, rfl⟩ | ⟨_, rfl, isName⟩
  · refine ⟨_, rfl, by simp, rfl, fun _ n _ => ?_⟩
    exact .step (by simp) fun _ => .spanFrom fun _ => .pure ⟨trivial, rfl, rfl⟩
  refine ⟨_, rfl, by simp [isName.2], by rw [isName.2]; rfl, fun _ n _ => ?_⟩
  rw [isName.2]
  exact .step (by simp) fun _ => .spanFrom fun _ => .pure ⟨trivial, rfl, rfl⟩

def chainTokens (chain : List (BinaryOp × Expr)) : List TokenKind :=
  chain.flatMap fun x => .symbol x.1.symbol :: x.2.tokens

structure Groups (least : Nat) (first : Expr) (chain : List (BinaryOp × Expr)) (e : Expr) :
    Prop where
  ranked : e.Ranked
  reading : e.reading = (first, chain)
  root : ∀ q ∈ e.operator?, least ≤ q.precedence

theorem Groups.mk_binary {least : Nat} {op : BinaryOp} {first snd left right : Expr}
    {before after : List (BinaryOp × Expr)} (groups : Groups least first before left) (span : Span)
    (groups' : Groups (op.precedence + 1) snd after right) (enough : least ≤ op.precedence)
    (loose : ∀ q ∈ left.operator?, op.precedence ≤ q.precedence) :
    Groups least first (before ++ (op, snd) :: after) (.binary op left right span) where
  ranked := ⟨groups.ranked, groups'.ranked, loose, groups'.root⟩
  reading := by rw [Expr.reading, groups.reading, groups'.reading]
  root := by
    rintro _ ⟨⟩
    exact enough

def bindsFrom (least : Nat) (x : BinaryOp × Expr) : Bool :=
  least ≤ x.1.precedence

def Climbs (rule : Nat → Parser Expr) (size : Nat) : Prop :=
  ∀ least first kind chain, first.IsOperand → first.tokens = [kind] →
    (∀ x ∈ chain, x.2.IsOperand) → chain.length < size →
    Runs (rule least) (kind :: (chainTokens chain ++ [.eof]))
      (chainTokens (chain.dropWhile (bindsFrom least)) ++ [.eof])
      (Groups least first (chain.takeWhile (bindsFrom least)))

variable {arg : Nat → Parser Expr} {size least n : Nat} {first left : Expr}
  {before chain : List (BinaryOp × Expr)}

theorem takeWhile_bindsFrom {more : Nat} (le : least ≤ more) (chain : List (BinaryOp × Expr)) :
    chain.takeWhile (bindsFrom more) ++
          (chain.dropWhile (bindsFrom more)).takeWhile (bindsFrom least) =
        chain.takeWhile (bindsFrom least) ∧
      (chain.dropWhile (bindsFrom more)).dropWhile (bindsFrom least) =
        chain.dropWhile (bindsFrom least) := by
  induction chain with
  | nil => exact ⟨rfl, rfl⟩
  | cons x chain ih =>
  cases tight : bindsFrom more x with
  | false => simp [tight]
  | true =>
    have weaker : bindsFrom least x :=
      decide_eq_true (Nat.le_trans le (of_decide_eq_true tight))
    simpa [tight, weaker] using ih

theorem binaryTail_runs (climbs : Climbs arg size) (atoms : ∀ x ∈ chain, x.2.IsOperand)
    (short : chain.length ≤ size) (enough : chain.length < n)
    (groups : Groups least first before left)
    (loose : ∀ q ∈ left.operator?, ∀ x ∈ chain.head?, x.1.precedence ≤ q.precedence) :
    Runs (binaryTail arg least n left) (chainTokens chain ++ [.eof])
      (chainTokens (chain.dropWhile (bindsFrom least)) ++ [.eof])
      (Groups least first (before ++ chain.takeWhile (bindsFrom least))) := by
  induction n generalizing chain before left with
  | zero => cases enough
  | succ n ih =>
  cases chain with
  | nil =>
    refine binaryTail_end .eof ?_
    rwa [List.takeWhile_nil, List.append_nil]
  | cons x chain =>
  obtain ⟨op, right⟩ := x
  obtain ⟨atom, atoms⟩ := List.forall_mem_cons.mp atoms
  obtain ⟨kind, shape, angle, -⟩ := atom.token
  have front : chainTokens ((op, right) :: chain) ++ [.eof] =
      .symbol op.symbol :: kind :: (chainTokens chain ++ [.eof]) := by
    simp [chainTokens, shape]
  rw [front]
  refine .known (binaryOp_runs op angle) ?_
  by_cases low : op.precedence < least
  · have stays : bindsFrom least (op, right) = false := decide_eq_false (Nat.not_le.mpr low)
    simp only [low, if_true, List.dropWhile_cons, List.takeWhile_cons, stays,
      Bool.false_eq_true, if_false, List.append_nil, front]
    exact .pure groups
  have tight := Nat.not_lt.mp low
  have taken : bindsFrom least (op, right) := decide_eq_true tight
  obtain ⟨more, rest⟩ := takeWhile_bindsFrom (Nat.le_succ_of_le tight) chain
  have sublist := List.dropWhile_sublist (l := chain) (bindsFrom (op.precedence + 1))
  have length := sublist.length_le
  rw [List.length_cons] at short enough
  simp only [low, if_false, List.dropWhile_cons, List.takeWhile_cons, taken, if_true]
  refine .bind (.next (by simp [angle])) fun _ _ => ?_
  refine .bind (climbs _ right kind chain atom shape atoms (by omega)) fun right' inner => ?_
  have whole := groups.mk_binary (left.span.join right'.span) inner tight
    fun q here => loose q here _ rfl
  rw [← rest, ← more]
  refine (ih (fun x mem => atoms x (sublist.subset mem)) (by omega) (by omega) whole ?_).mono ?_
  · rintro _ ⟨⟩ x head
    have next := List.head?_dropWhile_not (bindsFrom (op.precedence + 1)) chain
    rw [head] at next
    exact Nat.le_of_lt_succ (Nat.not_le.mp (of_decide_eq_false next))
  simp only [List.append_assoc, List.cons_append]
  exact fun _ h => h

theorem chainTokens_quiet (chain : List (BinaryOp × Expr)) : ∃ kind rest,
    chainTokens chain ++ [.eof] = kind :: rest ∧ Quiet kind ∧
      ∀ t, Looks kind t → t.kind.sameClass (keyword .kwAs) = false := by
  cases chain with
  | nil => exact ⟨_, _, rfl, Closing.eof.quiet, Ends.other (.of .eof) .kwAs⟩
  | cons x => exact ⟨_, _, rfl, x.1.quiet⟩

theorem exprFrom_climbs (n : Nat) : Climbs (exprFrom (n + 2)) n := by
  induction n with
  | zero => exact fun _ _ _ _ _ _ _ short => absurd short (Nat.not_lt_zero _)
  | succ n ih =>
  intro least first _ chain atom shape atoms short
  obtain ⟨_, same, angle, plain, reads⟩ := atom.token
  cases shape.symm.trans same
  obtain ⟨_, _, front, quiet, other⟩ := chainTokens_quiet chain
  rw [front]
  refine .bind (unary_plain plain angle quiet (reads _ _ _)) ?_
  rintro e ⟨ranked, reading, none⟩
  refine .known (casts_end other rfl) ?_
  have groups : Groups least first [] e := ⟨ranked, reading, by simp [none]⟩
  rw [← front]
  exact binaryTail_runs ih atoms (Nat.le_of_lt_succ short) (by omega) groups (by simp [none])

def chainText (first : Expr) : List (BinaryOp × Expr) → String
  | [] => first.text
  | (op, next) :: chain => first.text ++ " " ++ op.text ++ " " ++ chainText next chain

open Scan

theorem Expr.IsOperand.spelling {e : Expr} (atom : e.IsOperand) {cs : List Char}
    {kinds : List TokenKind} (next : ∀ c ∈ cs.head?, isWordPart c = false ∧ c ≠ '.')
    (spelling : Spelling cs kinds) : Spelling (e.text.toList ++ cs) (e.tokens ++ kinds) := by
  rcases atom with ⟨n, rfl⟩ | ⟨_, rfl, isName⟩
  · have spelled := Spelling.number n.toNat_lt next spelling
    simpa [Expr.text, Expr.tokens] using spelled
  have spelled := Spelling.word isName.1 (fun c head => (next c head).1) spelling
  rwa [String.ofList_toList] at spelled

theorem Expr.IsOperand.solid {e : Expr} (atom : e.IsOperand) : Solid e.text.toList := by
  rcases atom with ⟨n, rfl⟩ | ⟨_, rfl, isName⟩
  · obtain ⟨d, ds, digits, -, solid⟩ := toDigits_solid n.toNat
    exact ⟨d, ds, by simpa [text] using digits, solid⟩
  · exact IsWord.solid isName.1

theorem chainText_solid (atom : first.IsOperand) (chain : List (BinaryOp × Expr)) :
    Solid (chainText first chain).toList := by
  obtain ⟨c, _, shape, solid⟩ := atom.solid
  cases chain <;> exact ⟨c, by simp [chainText, shape, solid]⟩

theorem chain_spelling (atom : first.IsOperand) (atoms : ∀ x ∈ chain, x.2.IsOperand) :
    Spelling (chainText first chain).toList (first.tokens ++ (chainTokens chain ++ [.eof])) := by
  induction chain generalizing first with
  | nil => simpa [chainText, chainTokens] using atom.spelling (by simp) .done
  | cons x chain ih =>
  obtain ⟨own, atoms⟩ := List.forall_mem_cons.mp atoms
  obtain ⟨c, _, shape, solid⟩ := chainText_solid own chain
  have inner := ih own atoms
  rw [shape] at inner
  have spelled := atom.spelling (by simp [isWordPart]) (.operator x.1.symbol solid inner)
  simpa [chainText, chainTokens, shape, BinaryOp.text] using spelled

/-- A chain of operands and operators is read to its end as the one tree in which operators bind by
precedence, and those of one precedence from the left. -/
theorem expr_parse_chain (first : Expr) (chain : List (BinaryOp × Expr)) (atom : first.IsOperand)
    (atoms : ∀ x ∈ chain, x.2.IsOperand) : ∃ e s last,
      Grammar.expr (bound (.ofSource (chainText first chain))) (.ofSource (chainText first chain)) =
        .ok e s ∧ s.pending = [.token last] ∧ last.kind = .eof ∧
      e.Ranked ∧ e.reading = (first, chain) ∧
      ∀ e' : Expr, e'.Ranked → e'.reading = (first, chain) → e'.bare = e.bare := by
  have spelling := chain_spelling atom atoms
  rw [← List.append_assoc] at spelling
  have runs : ∀ n, (first.tokens ++ chainTokens chain).length + 9 ≤ n → Runs (Grammar.expr n)
      (first.tokens ++ chainTokens chain ++ [.eof]) [.eof] (Groups 0 first chain) := by
    intro n enough
    obtain ⟨n, rfl⟩ : ∃ m, n = m + 2 := ⟨n - 2, by omega⟩
    obtain ⟨kind, shape, -⟩ := atom.token
    have length := length_flatMap (f := fun x : BinaryOp × Expr => .symbol x.1.symbol :: x.2.tokens)
      (by simp) chain
    simp only [shape, chainTokens, List.length_append] at enough
    have climbs := exprFrom_climbs n 0 first kind chain atom shape atoms (by omega)
    -- every operator binds tight enough
    have all : ∀ x ∈ chain, bindsFrom 0 x := fun _ _ => rfl
    have taken : (chain ++ []).takeWhile (bindsFrom 0) = _ := List.takeWhile_append_of_pos all
    have rest : (chain ++ []).dropWhile (bindsFrom 0) = _ := List.dropWhile_append_of_pos all
    rw [List.append_nil] at taken rest
    rw [taken, rest] at climbs
    simpa [shape, Grammar.expr, chainTokens] using climbs
  obtain ⟨e, s, last, run, groups, pending, kind⟩ := Runs.source spelling runs
  refine ⟨e, s, last, run, pending, kind, groups.ranked, groups.reading,
    fun e' ranked reading => ?_⟩
  exact ranked.unique e' e groups.ranked (reading.trans groups.reading.symm)

/-- The product is an operand of the second difference, and the first difference the other. -/
theorem expr_parse_chain_difference : ∃ e s, Grammar.expr (bound (.ofSource "a - b - 2 * c"))
    (.ofSource "a - b - 2 * c") = .ok e s ∧
      e.bare = .binary .sub (.binary .sub (.identifier "a" {}) (.identifier "b" {}) {})
        (.binary .mul (.int 2 {}) (.identifier "c" {}) {}) {} := by
  have a : IsName "a" := ⟨by decide, rfl⟩
  have b : IsName "b" := ⟨by decide, rfl⟩
  have c : IsName "c" := ⟨by decide, rfl⟩
  obtain ⟨e, s, last, run, -, -, -, -, unique⟩ := expr_parse_chain (.identifier "a" {})
    [(.sub, .identifier "b" {}), (.sub, .int 2 {}), (.mul, .identifier "c" {})]
    (.inr ⟨_, rfl, a⟩) (by simp [Expr.IsOperand, b, c])
  refine ⟨e, s, run, ?_⟩
  rw [← unique (.binary .sub (.binary .sub (.identifier "a" {}) (.identifier "b" {}) {})
    (.binary .mul (.int 2 {}) (.identifier "c" {}) {}) {}) (by simp [Expr.Ranked, Expr.operator?,
      BinaryOp.precedence]) rfl]
  rfl

end Stencil
