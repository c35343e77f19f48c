import Stencil.Proofs.Token.Reading
import Stencil.Proofs.Token.Stream

/-!
Looking ahead changes nothing. However a stream is used, the tokens that are taken from it are those
that `next` alone gives, and a token that is seen is the one that `next` gives later.
-/

namespace Stencil.TokenStream

open List

/-- One use of a stream that meets no fault of the text, and the tokens that it takes. -/
inductive Uses (s : TokenStream) : List Token → TokenStream → Prop
  | next {t : Token} {u : TokenStream} : next s = .ok t u → Uses s [t] u
  | peekAt {n : Nat} {t : Token} {u : TokenStream} : peekAt n s = .ok t u → Uses s [] u
  | check {kind : TokenKind} {found : Bool} {u : TokenStream} : check kind s = .ok found u →
      Uses s [] u
  | checkSecond {kind : TokenKind} {found : Bool} {u : TokenStream} :
      checkSecond kind s = .ok found u → Uses s [] u
  | refuse {kind : TokenKind} {u : TokenStream} : accept kind s = .ok false u → Uses s [] u
  | accept {kind : TokenKind} {t : Token} {v u : TokenStream} : accept kind s = .ok true u →
      TokenStream.check kind s = .ok true v → TokenStream.next v = .ok t u → Uses s [t] u
  | expect {kind : TokenKind} {t : Token} {u : TokenStream} : expect kind s = .ok t u → Uses s [t] u
  | mismatch {kind : TokenKind} {d : Diagnostic} {t : Token} {u : TokenStream} :
      TokenStream.expect kind s = .error d u → TokenStream.next s = .ok t u → Uses s [t] u

/-- Any number of uses, and the tokens that they take. -/
inductive Used : TokenStream → List Token → TokenStream → Prop
  | nil {s : TokenStream} : Used s [] s
  | cons {s v u : TokenStream} {taken more : List Token} : s.Uses taken v → Used v more u →
      Used s (taken ++ more) u

variable {s u : TokenStream} {t : Token} {taken : List Token} {kind : TokenKind} {got : Bool} {n : Nat}

theorem next_ok (run : next s = .ok t u) : s.upcoming = .cons (.token t) u.upcoming := by
  rw [next_upcoming s, run]
  rfl

theorem checkWith_ok (run : checkWith (peekAt n) kind s = .ok got u) : u.upcoming = s.upcoming := by
  obtain ⟨t, v, seen, given⟩ := bind_ok run
  cases given
  exact (peekAt_ok seen).1

theorem accept_ok (run : accept kind s = .ok got u) : ∃ v, check kind s = .ok got v ∧
    if got then ∃ t, next v = .ok t u else u = v := by
  obtain ⟨same, v, seen, more⟩ := bind_ok run
  cases same with
  | false =>
    cases more
    exact ⟨_, seen, rfl⟩
  | true =>
    obtain ⟨t, w, taken, given⟩ := bind_ok more
    cases given
    exact ⟨v, seen, t, taken⟩

theorem Uses.upcoming (uses : s.Uses taken u) : s.upcoming = taken.map .token ++ₛ u.upcoming := by
  cases uses with
  | next run | mismatch _ run => exact next_ok run
  | peekAt run => exact (peekAt_ok run).1.symm
  | check run | checkSecond run => exact (checkWith_ok run).symm
  | refuse run =>
    obtain ⟨v, seen, rfl⟩ := accept_ok run
    exact (checkWith_ok seen).symm
  | accept _ seen run => exact (checkWith_ok seen).symm.trans (next_ok run)
  | expect run =>
    obtain ⟨t, v, given, more⟩ := bind_ok run
    split at more <;> cases more
    exact next_ok given

theorem Used.upcoming (used : Used s taken u) : s.upcoming = taken.map .token ++ₛ u.upcoming := by
  induction used with
  | nil => rfl
  | cons uses _ ih => rw [uses.upcoming, ih, map_append, Stream'.append_append_stream]

/-- A `>>` is replaced by two `>` that share its place. -/
structure Halves (t a b : Token) : Prop where
  kinds : t.kind = .symbol .shr ∧ a.kind = .symbol .gt ∧ b.kind = .symbol .gt
  spans : a.span.start = t.span.start ∧ a.span.stop = b.span.start ∧ b.span.stop = t.span.stop
  lines : a.newlineBefore = t.newlineBefore ∧ b.newlineBefore = false

theorem peek_queue (seen : peek s = .ok t u) : ∃ waiting, u.peeked = t :: waiting := by
  have front := (peekAt_ok seen).2
  cases queue : u.peeked with
  | nil => simp [queue] at front
  | cons fst waiting => exact ⟨waiting, by simpa [queue] using front⟩

theorem splitShr_upcoming (run : splitShr s = .ok () u) :
    u.upcoming = s.upcoming ∧ (∀ t v, peek s = .ok t v → t.kind ≠ .symbol .shr) ∨
    ∃ t a b rest, Halves t a b ∧ s.upcoming = .cons (.token t) rest ∧
      u.upcoming = .cons (.token a) (.cons (.token b) rest) := by
  obtain ⟨t, v, seen, more⟩ := bind_ok run
  have same := (peekAt_ok seen).1
  split at more <;> cases more
  · rename_i shr
    obtain ⟨waiting, queue⟩ := peek_queue seen
    obtain ⟨a, b, two, halved⟩ : ∃ a b, t.halves = [a, b] ∧ Halves t a b :=
      ⟨_, _, rfl, ⟨shr, rfl, rfl⟩, ⟨rfl, rfl, rfl⟩, rfl, rfl⟩
    refine .inr ⟨t, a, b, waiting.map .token ++ₛ v.scanner.upcoming, halved, ?_, ?_⟩
    · rw [← same, TokenStream.upcoming, queue]
      rfl
    · simp only [TokenStream.upcoming, queue, two]
      rfl
  · rename_i other
    refine .inl ⟨same, fun _ _ seen' => ?_⟩
    cases seen.symm.trans seen'
    exact other

def Shows (s : TokenStream) (p : Input) : Prop :=
  s.upcoming = p.pending ++ₛ .const (.token p.endToken)

namespace Shows

variable {p : Input}

theorem ofSource (source : String) : (TokenStream.ofSource source).Shows (.ofSource source) := by
  rw [Shows, upcoming_ofSource]
  rfl

theorem front {r : Lexeme} {rest : Stream' Lexeme}
    (same : .cons r rest = p.pending ++ₛ .const (.token p.endToken)) :
    p.pending = [] ∧ r = .token p.endToken ∧ rest = .const (.token p.endToken) ∨
      ∃ more, p.pending = r :: more ∧ rest = more ++ₛ .const (.token p.endToken) := by
  cases pending : p.pending with
  | nil =>
    rw [pending, Stream'.nil_append_stream, Stream'.const_eq] at same
    exact .inl ⟨rfl, Stream'.cons_injective2 same⟩
  | cons fst more =>
    rw [pending] at same
    obtain ⟨rfl, rest⟩ := Stream'.cons_injective2 same
    exact .inr ⟨more, rfl, rest⟩

theorem next (same : s.Shows p) (run : TokenStream.next s = .ok t u) :
    ∃ q, Input.next p = .ok t q ∧ u.Shows q := by
  rcases front ((next_ok run).symm.trans same) with ⟨none, last, rest⟩ | ⟨more, pending, rest⟩
  · cases last
    exact ⟨_, run_next_end none, by rw [Shows, rest, none]; rfl⟩
  · exact ⟨_, run_next pending, rest⟩

theorem lookup {pending : List Lexeme} {tokens : List Token} {e : Token} {rest : Stream' Lexeme}
    (same : tokens.map .token ++ₛ rest = pending ++ₛ .const (.token e)) (seen : tokens[n]? = some t) :
    ∃ got, Input.lookup n pending = .ok got ∧ got.getD e = t := by
  induction tokens generalizing n pending with
  | nil => cases seen
  | cons a tokens ih =>
  cases pending with
  | nil =>
    have front := congrArg (Stream'.get · n) same
    obtain ⟨lies, rfl⟩ := List.getElem?_eq_some_iff.mp seen
    rw [Stream'.get_append_left n _ _ (by simpa using lies), getElem_map] at front
    exact ⟨none, by rw [Input.lookup], (Lexeme.token.inj front).symm⟩
  | cons r pending =>
  obtain ⟨rfl, more⟩ := Stream'.cons_injective2 same
  cases n with
  | zero =>
    cases seen
    exact ⟨_, rfl, rfl⟩
  | succ n =>
    obtain ⟨got, looked, given⟩ := ih more seen
    exact ⟨got, by rw [Input.lookup, looked], given⟩

theorem peekAt (same : s.Shows p) (run : TokenStream.peekAt n s = .ok t u) :
    Input.peekAt n p = .ok t p ∧ u.Shows p := by
  obtain ⟨kept, seen⟩ := peekAt_ok run
  obtain ⟨got, looked, rfl⟩ := lookup ((kept.trans same : u.upcoming = _)) seen
  exact ⟨by rw [Input.peekAt, looked], kept.trans same⟩

theorem splitShr (same : s.Shows p) (run : TokenStream.splitShr s = .ok () u) :
    ∃ q, Input.splitShr p = .ok () q ∧ u.Shows q := by
  obtain ⟨t, v, seen, further⟩ := bind_ok run
  obtain ⟨looked, shows⟩ := same.peekAt seen
  rw [Input.splitShr, bind_run (show Input.peek p = _ from looked)]
  split at further <;> cases further
  · rename_i shr
    rw [if_pos shr]
    refine ⟨_, rfl, ?_⟩
    obtain ⟨waiting, queue⟩ := peek_queue seen
    have coming : v.upcoming = .cons (.token t) (waiting.map .token ++ₛ v.scanner.upcoming) := by
      rw [upcoming, queue]
      rfl
    rcases front (coming.symm.trans shows) with ⟨-, last, -⟩ | ⟨more, pending, rest⟩
    · cases last
      cases shr
    · rw [Shows, upcoming]
      dsimp only
      rw [queue, pending, map_append, Stream'.append_append_stream, drop_one, tail_cons, rest,
        Stream'.append_append_stream]
      rfl
  · rw [if_neg ‹_›]
    exact ⟨p, rfl, shows⟩

end Shows
theorem scanned_fault {offset : Nat} {since cs : List Char} {d : Diagnostic} {x : Scanner}
    (got : Scan.nextFrom offset since cs = (.fault d, x)) : d.kind = .lexical := by
  fun_induction Scan.nextFrom offset since cs with
  | case1 | case3 => cases got
  | case2 offset since c rest n text stop fst ih => exact ih got
  | case4 offset since c rest n text stop problem fst =>
    cases got
    obtain proper | ⟨impossible, -⟩ := Scan.first_cases c rest <;> rw [fst] at *
    · exact proper
    · cases impossible

theorem next_fault {d : Diagnostic} (run : next s = .error d u) : d.kind = .lexical := by
  unfold next at run
  split at run
  · cases run
  unfold scanToken at run
  dsimp only at run
  split at run
  · cases run
  · split at run <;> cases run
    exact scanned_fault ‹_›

/-- However a stream is used, what is taken is what `next` gives, in order, and what is seen is what
`next` gives later. Splitting changes only a `>>` in front. A call that fails otherwise than at a fault
of the text is a use as well. -/
theorem lookahead_transparent (source : String) :
    (∀ tokens u, Used (ofSource source) tokens u → ∀ n,
      (ofSource source).results (tokens.length + n) = tokens.map .token ++ u.results n) ∧
    (∀ s k t u, peekAt k s = .ok t u →
      (s.results (k + 1))[k]? = some (.token t) ∧ ∀ n, u.results n = s.results n) ∧
    (∀ s u, splitShr s = .ok () u →
      (∀ n, u.results n = s.results n) ∧ (∀ t v, peek s = .ok t v → t.kind ≠ .symbol .shr) ∨
      ∃ t a b, Halves t a b ∧ ∀ n, ∃ rest, s.results (n + 1) = .token t :: rest ∧
        u.results (n + 2) = .token a :: .token b :: rest) ∧
    (∀ s kind u, accept kind s = .ok true u → ∃ t, s.Uses [t] u) ∧
    ∀ s kind d u, expect kind s = .error d u → d.kind = .lexical ∨ ∃ t, s.Uses [t] u := by
  simp only [results_eq]
  refine ⟨fun tokens u used n => ?_, fun s k t u seen => ?_, fun s u run => ?_,
    fun s kind u run => ?_, fun s kind d u run => ?_⟩
  · rw [used.upcoming, Stream'.append_take, length_map]
  · obtain ⟨same, front⟩ := peekAt_ok seen
    refine ⟨?_, fun n => congrArg _ same⟩
    rw [Stream'.getElem?_take (Nat.lt_succ_self k), ← same, get_upcoming front]
  · rcases splitShr_upcoming run with ⟨same, other⟩ | ⟨t, a, b, rest, halves, before, after⟩
    · exact .inl ⟨fun n => congrArg _ same, other⟩
    · refine .inr ⟨t, a, b, halves, fun n => ⟨rest.take n, ?_, ?_⟩⟩
      · rw [before, Stream'.take_succ_cons]
      · rw [after, Stream'.take_succ_cons, Stream'.take_succ_cons]
  · obtain ⟨v, seen, t, taken⟩ := accept_ok run
    exact ⟨t, .accept run seen taken⟩
  · cases given : TokenStream.next s with
    | ok t v =>
      have more := (bind_run given).symm.trans run
      split at more <;> cases more
      exact .inr ⟨t, .mismatch run given⟩
    | error e v =>
      cases (bind_run_error given).symm.trans run
      exact .inl (next_fault given)

end Stencil.TokenStream
