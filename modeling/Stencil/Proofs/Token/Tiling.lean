import Stencil.Token.Input

namespace Stencil

open List

theorem byteLength_pos {cs : List Char} (some : cs ≠ []) : 0 < byteLength cs := by
  cases cs with
  | nil => exact absurd rfl some
  | cons c =>
    have := Char.utf8Size_pos c
    simp only [byteLength]
    omega

theorem append_of_byteLength_le {a b x y : List Char} (same : a ++ x = b ++ y)
    (le : byteLength a ≤ byteLength b) : ∃ c, b = a ++ c ∧ x = c ++ y := by
  rcases append_eq_append_iff.mp same with ⟨c, rfl, rfl⟩ | ⟨c, rfl, rfl⟩
  · exact ⟨c, rfl, rfl⟩
  rw [byteLength_append] at le
  cases c with
  | nil => exact ⟨[], by simp⟩
  | cons d c =>
    have := byteLength_pos (cons_ne_nil d c)
    omega

theorem newline_mem_iff {before part after : List Char} : '\n' ∈ part ↔
    ∃ pre post, before ++ part ++ after = pre ++ '\n' :: post ∧
      byteLength before ≤ byteLength pre ∧ byteLength pre < byteLength (before ++ part) := by
  constructor
  · intro mem
    obtain ⟨a, b, rfl⟩ := append_of_mem mem
    have := Char.utf8Size_pos '\n'
    refine ⟨before ++ a, b ++ after, by simp, ?_, ?_⟩ <;>
      simp only [byteLength_append, byteLength] <;> omega
  rintro ⟨_, _, same, least, most⟩
  rw [append_assoc] at same
  obtain ⟨a, rfl, inner⟩ := append_of_byteLength_le same least
  rcases append_eq_append_iff.mp inner with ⟨c, rfl, -⟩ | ⟨c, rfl, rest⟩
  · simp only [byteLength_append] at most
    omega
  cases c with
  | nil =>
    simp only [append_nil, byteLength_append] at most
    omega
  | cons =>
    obtain ⟨rfl, -⟩ := List.cons.inj rest
    simp

def Content.Proper : Content → Prop
  | .skipped => False
  | .token kind => kind ≠ .eof
  | .fault problem => problem.kind = .lexical

namespace Scan

/-- The inside of a block comment. A star is followed by another character than a slash, which it
takes with it. -/
inductive CommentText : List Char → Prop
  | nil : CommentText []
  | plain {c : Char} {cs : List Char} : c ≠ '*' → CommentText cs → CommentText (c :: cs)
  | star {c : Char} {cs : List Char} : c ≠ '/' → CommentText cs → CommentText ('*' :: c :: cs)

/-- Text that holds no token, with the text behind it: blanks, a comment up to the end of its line,
or a closed block comment. -/
inductive Skipped : List Char → List Char → Prop
  | blanks {text after : List Char} : (∀ c ∈ text, isBlank c) → Skipped text after
  | line {text after : List Char} : '\n' ∉ text → (after = [] ∨ after.head? = some '\n') →
      Skipped ('/' :: '/' :: text) after
  | block {text after : List Char} : CommentText text →
      Skipped ('/' :: '*' :: (text ++ ['*', '/'])) after

theorem commentBody_closed {cs : List Char} {n : Nat} (closed : commentBody cs = (true, n)) :
    ∃ text, CommentText text ∧ cs.take n = text ++ ['*', '/'] := by
  fun_induction commentBody cs generalizing n with
  | case1 | case2 => cases closed
  | case3 =>
    cases closed
    exact ⟨[], .nil, rfl⟩
  | case4 c cs other ok m inner ih =>
    cases closed
    obtain ⟨text, lies, same⟩ := ih inner
    refine ⟨'*' :: c :: text, .star ?_ lies, by simp [same]⟩
    rintro rfl
    exact other rfl
  | case5 c cs notStar notClosed notPair ok m inner ih =>
  cases closed
  obtain ⟨text, lies, same⟩ := ih inner
  refine ⟨c :: text, .plain ?_ lies, by simp [same]⟩
  rintro rfl
  cases cs with
  | nil => exact notStar rfl rfl
  | cons d cs => exact notPair d cs rfl rfl

theorem faultOf_kind (text : List Char) : (faultOf text).kind = .lexical := by
  unfold faultOf
  dsimp only
  split
  · rfl
  · split <;> rfl
  · rfl

theorem integer_proper (base : Nat) (digits text : List Char) :
    (integer base digits text).Proper := by
  rw [integer]
  split
  · exact TokenKind.noConfusion
  · exact faultOf_kind _

theorem decimalNumber_proper (c : Char) (rest : List Char) : (decimalNumber c rest).1.Proper := by
  unfold decimalNumber
  dsimp only
  split
  · split
    · exact TokenKind.noConfusion
    · exact integer_proper _ _ _
  · exact integer_proper _ _ _

theorem number_proper (c : Char) (rest : List Char) : (number c rest).1.Proper := by
  unfold number
  split
  · split
    · exact integer_proper _ _ _
    · exact decimalNumber_proper _ _
  · split
    · exact integer_proper _ _ _
    · exact decimalNumber_proper _ _
  · exact decimalNumber_proper _ _

theorem quoted_proper (rest : List Char) : (quoted rest).1.Proper := by
  rw [quoted]
  split
  · exact faultOf_kind _
  split
  · exact TokenKind.noConfusion
  · exact faultOf_kind _

theorem symbolic_proper (c : Char) (rest : List Char) : (symbolic c rest).1.Proper := by
  rw [symbolic]
  split
  · exact TokenKind.noConfusion
  split
  · exact TokenKind.noConfusion
  · exact faultOf_kind _

theorem ofWord_ne_eof (word : String) : TokenKind.ofWord word ≠ .eof := by
  rw [TokenKind.ofWord]
  split
  · exact TokenKind.noConfusion
  · split <;> exact TokenKind.noConfusion

theorem take_takeWhile (p : Char → Bool) (cs : List Char) :
    cs.take (cs.takeWhile p).length = cs.takeWhile p :=
  (prefix_iff_eq_take.mp ( takeWhile_prefix p)).symm

theorem drop_takeWhile (p : Char → Bool) (cs : List Char) :
    cs.drop (cs.takeWhile p).length = cs.dropWhile p := by
  induction cs with
  | nil => rfl
  | cons c cs ih =>
    by_cases holds : p c
    · simp [holds, ih]
    · simp [holds]

theorem skipped_line (rest : List Char) (slash : rest.head? = some '/') :
    Skipped ('/' :: rest.takeWhile (· != '\n')) (rest.dropWhile (· != '\n')) := by
  obtain ⟨rest, rfl⟩ := head?_eq_some_iff.mp slash
  refine .line ?_ ?_
  · intro mem
    have := all_eq_true.mp all_takeWhile _ mem
    simp at this
  cases after : ('/' :: rest).dropWhile (· != '\n') with
  | nil => exact .inl rfl
  | cons =>
    have stops := head?_dropWhile_not (· != '\n') ('/' :: rest)
    rw [after] at stops
    exact .inr (by simpa using stops)

theorem first_cases (c : Char) (rest : List Char) : (first c rest).1.Proper ∨
    ((first c rest).1 = .skipped ∧
      Skipped (c :: rest.take (first c rest).2) (rest.drop (first c rest).2)) := by
  unfold first
  split
  · rename_i blank
    refine .inr ⟨rfl, .blanks ?_⟩
    intro d mem
    rcases mem_cons.mp mem with rfl | mem
    · exact blank
    rw [take_takeWhile] at mem
    exact all_eq_true.mp all_takeWhile _ mem
  split
  · rename_i slashes
    obtain ⟨rfl, slash⟩ :=
      Bool.and_eq_true_iff.mp slashes |>.imp of_decide_eq_true of_decide_eq_true
    refine .inr ⟨rfl, ?_⟩
    rw [take_takeWhile, drop_takeWhile]
    exact skipped_line rest slash
  split
  · rename_i opening
    obtain ⟨rfl, star⟩ :=
      Bool.and_eq_true_iff.mp opening |>.imp of_decide_eq_true of_decide_eq_true
    obtain ⟨rest, rfl⟩ := head?_eq_some_iff.mp star
    unfold blockComment
    split
    · rename_i n closed
      obtain ⟨text, lies, same⟩ := commentBody_closed closed
      refine .inr ⟨rfl, ?_⟩
      rw [take_succ_cons, show rest.take n = text ++ ['*', '/'] from same]
      exact .block lies
    · exact .inl (faultOf_kind _)
  refine .inl ?_
  split
  · exact quoted_proper rest
  split
  · exact number_proper c rest
  split
  · exact ofWord_ne_eof _
  · exact symbolic_proper c rest

theorem segments_cons (c : Char) (rest : List Char) : segments (c :: rest) =
    ⟨c :: rest.take (first c rest).2, (first c rest).1⟩ ::
      segments (rest.drop (first c rest).2) := by
  rw [segments]

end Scan

namespace Lexeme

def span : Lexeme → Span
  | token t => t.span
  | fault d => d.span

def isEnd : Lexeme → Bool
  | token t => t.kind = .eof
  | fault _ => false

end Lexeme

inductive Tiling : List Char → List Char → List Char → List Lexeme → Prop
  | done {before since : List Char} : Tiling before since []
      [.token ⟨.eof, ⟨byteLength before, byteLength before⟩, since.contains '\n'⟩]
  | skip {before since text rest : List Char} {results : List Lexeme} : Scan.Skipped text rest →
      Tiling (before ++ text) (since ++ text) rest results →
      Tiling before since (text ++ rest) results
  | token {before since text rest : List Char} {results : List Lexeme} {kind : TokenKind} :
      text ≠ [] → kind ≠ .eof → Tiling (before ++ text) [] rest results →
      Tiling before since (text ++ rest)
        (.token ⟨kind, ⟨byteLength before, byteLength (before ++ text)⟩, since.contains '\n'⟩ ::
          results)
  | fault {before since text rest : List Char} {results : List Lexeme} {problem : Problem} :
      text ≠ [] → problem.kind = .lexical → Tiling (before ++ text) (since ++ text) rest results →
      Tiling before since (text ++ rest)
        (.fault (problem.at ⟨byteLength before, byteLength (before ++ text)⟩) :: results)

theorem Scan.lexemesFrom_tiling (rest before since : List Char) : Tiling before since rest
      (lexemesFrom (byteLength before) (since.contains '\n') (segments rest)) := by
  induction rest using segments.induct generalizing before since with
  | case1 =>
    rw [segments, lexemesFrom]
    exact .done
  | case2 c rest content n got ih =>
  have cut : c :: rest = (c :: rest.take n) ++ rest.drop n := by simp
  rw [segments_cons, got, lexemesFrom]
  have kinds := first_cases c rest
  rw [got] at kinds
  rw [← byteLength_append before (c :: rest.take n)]
  cases content with
  | skipped =>
    obtain proper | ⟨-, skipped⟩ := kinds
    · exact proper.elim
    have inner := ih (before ++ c :: rest.take n) (since ++ c :: rest.take n)
    rw [contains_append] at inner
    conv => arg 3; rw [cut]
    exact .skip skipped inner
  | token =>
    obtain proper | ⟨impossible, -⟩ := kinds
    · conv => arg 3; rw [cut]
      exact .token (cons_ne_nil _ _) proper (ih (before ++ c :: rest.take n) [])
    · cases impossible
  | fault =>
  obtain lexical | ⟨impossible, -⟩ := kinds
  · have inner := ih (before ++ c :: rest.take n) (since ++ c :: rest.take n)
    rw [contains_append] at inner
    conv => arg 3; rw [cut]
    exact .fault (cons_ne_nil _ _) lexical inner
  · cases impossible

namespace Tiling

variable {before since rest : List Char} {results : List Lexeme}

def Cuts (whole : List Char) (span : Span) (lies : List Char) : Prop :=
  ∃ pre post, whole = pre ++ lies ++ post ∧
    span = ⟨byteLength pre, byteLength (pre ++ lies)⟩

section

variable (tiling : Tiling before since rest results)
include tiling

theorem start_le : ∀ r ∈ results, byteLength before ≤ r.span.start := by
  induction tiling with
  | done => simp [Lexeme.span]
  | skip _ _ ih =>
    intro r mem
    have := ih r mem
    rw [byteLength_append] at this
    omega
  | token _ _ _ ih | fault _ _ _ ih =>
  intro r mem
  rcases mem_cons.mp mem with rfl | mem
  · exact .refl
  have := ih r mem
  rw [byteLength_append] at this
  omega

theorem ends : ∃ got newline,
    results = got ++ [.token ⟨.eof, ⟨byteLength (before ++ rest), byteLength (before ++ rest)⟩,
      newline⟩] ∧
    ∀ r ∈ got, r.isEnd = false ∧ ∃ lies, lies ≠ [] ∧ Cuts (before ++ rest) r.span lies := by
  induction tiling with
  | @done before since => exact ⟨[], since.contains '\n', by simp, by simp⟩
  | skip _ _ ih =>
    rw [append_assoc] at ih
    exact ih
  | @token before since text rest results kind some proper _ ih =>
    rw [append_assoc] at ih
    obtain ⟨got, newline, rfl, inner⟩ := ih
    refine ⟨_ :: got, newline, rfl,
      forall_mem_cons.mpr ⟨⟨?_, text, some, before, rest, ?_, rfl⟩, inner⟩⟩
    · exact decide_eq_false proper
    · rw [append_assoc]
  | @fault before since text rest results problem some _ _ ih =>
  rw [append_assoc] at ih
  obtain ⟨got, newline, rfl, inner⟩ := ih
  refine ⟨_ :: got, newline, rfl,
    forall_mem_cons.mpr ⟨⟨rfl, text, some, before, rest, ?_, rfl⟩, inner⟩⟩
  rw [append_assoc]

theorem increasing : results.Pairwise fun a b =>
    a.span.stop ≤ b.span.start ∧ a.span.start < b.span.start := by
  -- a result that is not the last one holds some text, so its start lies before its end
  have step : ∀ {before text : List Char} {later : List Lexeme}, text ≠ [] →
      (∀ r ∈ later, byteLength (before ++ text) ≤ r.span.start) → ∀ r ∈ later,
        byteLength (before ++ text) ≤ r.span.start ∧ byteLength before < r.span.start := by
    intro _ _ _ some behind r mem
    have := behind r mem
    have := byteLength_pos some
    rw [byteLength_append] at *
    omega
  induction tiling with
  | done => exact pairwise_singleton _ _
  | skip _ _ ih => exact ih
  | token some _ inner ih | fault some _ inner ih =>
    exact pairwise_cons.mpr ⟨step some inner.start_le, ih⟩

end

/-- A piece of a text around a position that is blank or a comment, and that no result touches. -/
structure Omits (whole : List Char) (results : List Lexeme) (pos : Nat)
    (pre piece post : List Char) : Prop where
  cut : whole = pre ++ piece ++ post
  skipped : Scan.Skipped piece post
  around : byteLength pre ≤ pos ∧ pos < byteLength (pre ++ piece)
  apart : ∀ r ∈ results, r.span.stop ≤ byteLength pre ∨ byteLength (pre ++ piece) ≤ r.span.start

theorem covers (tiling : Tiling before since rest results) {pos : Nat}
    (least : byteLength before ≤ pos) (most : pos < byteLength (before ++ rest)) :
    (∃ r ∈ results, r.span.start ≤ pos ∧ pos < r.span.stop) ∨
    ∃ pre piece post, byteLength before ≤ byteLength pre ∧
      Omits (before ++ rest) results pos pre piece post := by
  induction tiling with
  | done =>
    rw [append_nil] at most
    omega
  | @skip before since text rest results skipped inner ih =>
    by_cases lies : pos < byteLength (before ++ text)
    · exact .inr ⟨before, text, rest, .refl, by simp, skipped, ⟨least, lies⟩,
        fun r mem => .inr (inner.start_le r mem)⟩
    obtain got | ⟨pre, piece, post, behind, omits⟩ :=
      ih (Nat.le_of_not_lt lies) (by rwa [append_assoc])
    · exact .inl got
    rw [append_assoc] at omits
    refine .inr ⟨pre, piece, post, ?_, omits⟩
    rw [byteLength_append] at behind
    omega
  | @token before since text rest results kind _ _ inner ih
  | @fault before since text rest results problem _ _ inner ih =>
  by_cases lies : pos < byteLength (before ++ text)
  · exact .inl ⟨_, (.head _), least, lies⟩
  obtain ⟨r, mem, got⟩ | ⟨pre, piece, post, behind, omits⟩ :=
    ih (Nat.le_of_not_lt lies) (by rwa [append_assoc])
  · exact .inl ⟨r, .tail _ mem, got⟩
  rw [append_assoc] at omits
  refine .inr ⟨pre, piece, post, ?_, omits.cut, omits.skipped, omits.around,
    forall_mem_cons.mpr ⟨.inl behind, omits.apart⟩⟩
  rw [byteLength_append] at behind
  omega

end Tiling

def lastTokenEnd (start : Nat) : List Lexeme → Nat
  | [] => start
  | .token t :: rest => lastTokenEnd t.span.stop rest
  | .fault _ :: rest => lastTokenEnd start rest

def NewlineBetween (whole : List Char) (start stop : Nat) : Prop :=
  ∃ pre post, whole = pre ++ '\n' :: post ∧ start ≤ byteLength pre ∧ byteLength pre < stop

/-- A token knows whether a line has ended since the token before it. -/
theorem Tiling.newlines (before : List Char) {since rest : List Char} {results : List Lexeme}
    (tiling : Tiling (before ++ since) since rest results) {earlier later : List Lexeme} {t : Token}
    (place : results = earlier ++ .token t :: later) : t.newlineBefore ↔
      NewlineBetween (before ++ since ++ rest) (lastTokenEnd (byteLength before) earlier)
        t.span.start := by
  -- the token at the front of the results knows what stands in `since`
  have front : ∀ {before since tail : List Char},
      since.contains '\n' ↔ NewlineBetween (before ++ since ++ tail) (byteLength before)
        (byteLength (before ++ since)) := by
    intro _ _ _
    rw [contains_iff_mem]
    exact newline_mem_iff
  generalize gone : before ++ since = all at tiling ⊢
  induction tiling generalizing before earlier with
  | @done all since =>
    subst gone
    cases earlier with
    | nil =>
      obtain ⟨same, -⟩ := List.cons.inj place
      cases same
      exact front
    | cons => simp at place
  | @skip all since text rest results skipped inner ih =>
    subst gone
    have := ih before place (append_assoc before since text).symm
    rwa [append_assoc (before ++ since)] at this
  | @token all since text rest results kind _ _ inner ih =>
    subst gone
    cases earlier with
    | nil =>
      obtain ⟨same, -⟩ := List.cons.inj place
      cases same
      exact front
    | cons r earlier =>
      obtain ⟨rfl, more⟩ := List.cons.inj place
      have := ih (before ++ since ++ text) more (append_nil _)
      rwa [append_assoc (before ++ since)] at this
  | @fault all since text rest results problem _ _ inner ih =>
  subst gone
  cases earlier with
  | nil =>
    obtain ⟨same, -⟩ := List.cons.inj place
    cases same
  | cons r earlier =>
    obtain ⟨rfl, more⟩ := List.cons.inj place
    have := ih before more (append_assoc before since text).symm
    rwa [append_assoc (before ++ since)] at this

namespace Input

theorem allTokens_map (tokens : List Token) : allTokens (tokens.map .token) = .ok tokens := by
  induction tokens with
  | nil => rfl
  | cons t tokens ih =>
    rw [map_cons, allTokens, ih]
    rfl

end Input

/-- How the results of scanning lie in a source text. -/
structure Tiles (source : List Char) (results : List Lexeme) : Prop where
  ends : ∃ found newline, results = found ++
      [.token ⟨.eof, ⟨byteLength source, byteLength source⟩, newline⟩] ∧
    ∀ r ∈ found, r.isEnd = false
  solid : ∀ r ∈ results, r.isEnd = false → r.span.start < r.span.stop
  whole : ∀ r ∈ results, ∃ inside, Tiling.Cuts source r.span inside
  increasing : results.Pairwise fun a b =>
    a.span.stop ≤ b.span.start ∧ a.span.start < b.span.start
  covers : ∀ pos < byteLength source, (∃ r ∈ results, r.span.start ≤ pos ∧ pos < r.span.stop) ∨
    ∃ pre piece post, Tiling.Omits source results pos pre piece post
  newlines : ∀ earlier t later, results = earlier ++ .token t :: later →
    (t.newlineBefore ↔ NewlineBetween source (lastTokenEnd 0 earlier) t.span.start)

theorem Tiling.cuts_end (source : List Char) :
    Cuts source ⟨byteLength source, byteLength source⟩ [] :=
  ⟨source, [], by simp, by simp⟩

theorem Tiling.Cuts.solid {source lies : List Char} {span : Span} (cut : Cuts source span lies)
    (some : lies ≠ []) : span.start < span.stop := by
  obtain ⟨_, _, -, rfl⟩ := cut
  have := byteLength_pos some
  simp only [byteLength_append]
  omega

theorem Tiling.tiles {source : List Char} {results : List Lexeme}
    (tiling : Tiling [] [] source results) : Tiles source results := by
  obtain ⟨got, newline, rfl, inner⟩ := tiling.ends
  refine ⟨⟨got, newline, rfl, fun r mem => (inner r mem).1⟩, ?_, ?_, tiling.increasing, ?_, ?_⟩
  · intro r mem proper
    rcases mem_append.mp mem with mem | mem
    · obtain ⟨-, _, some, cut⟩ := inner r mem
      exact cut.solid some
    rw [mem_singleton.mp mem] at proper
    cases proper
  · intro r mem
    rcases mem_append.mp mem with mem | mem
    · obtain ⟨-, lies, -, cut⟩ := inner r mem
      exact ⟨lies, cut⟩
    rw [mem_singleton.mp mem]
    exact ⟨[], cuts_end source⟩
  · intro pos lies
    obtain got | ⟨pre, piece, post, -, omits⟩ := tiling.covers (Nat.zero_le pos) lies
    · exact .inl got
    · exact .inr ⟨pre, piece, post, omits⟩
  · exact fun _ t _ place => Tiling.newlines [] tiling place

end Stencil
