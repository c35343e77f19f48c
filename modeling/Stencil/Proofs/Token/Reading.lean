import Stencil.Grammar.Basic
import Stencil.Proofs.Steps
import Stencil.Proofs.Token.Tiling

/-!
Reasoning about readers. A reader that succeeds has read tokens from the front of the stream, where
a `>>` may have been split; one that fails does so at a place in the text.
-/

namespace Stencil

open List Input

def Lexeme.size : Lexeme → Nat
  | token t => if t.kind = .symbol .shr then 2 else 1
  | fault _ => 1

def sizeOfPending : List Lexeme → Nat
  | [] => 0
  | r :: rest => r.size + sizeOfPending rest

theorem Lexeme.size_bounds (r : Lexeme) : 1 ≤ r.size ∧ r.size ≤ 2 := by
  unfold size
  split
  · split <;> decide
  · decide

theorem sizeOfPending_le (lexemes : List Lexeme) : sizeOfPending lexemes ≤ 2 * lexemes.length := by
  induction lexemes with
  | nil => exact .refl
  | cons r =>
    have := r.size_bounds
    simp only [sizeOfPending, length_cons]
    omega

theorem sizeOfPending_pos {lexemes : List Lexeme} (some : lexemes ≠ []) :
    0 < sizeOfPending lexemes := by
  cases lexemes with
  | nil => exact absurd rfl some
  | cons r =>
    have := r.size_bounds
    simp only [sizeOfPending]
    omega

theorem sizeOfPending_append (a b : List Lexeme) :
    sizeOfPending (a ++ b) = sizeOfPending a + sizeOfPending b := by
  induction a with
  | nil => simp [sizeOfPending]
  | cons r a ih => simp only [cons_append, sizeOfPending, ih, Nat.add_assoc]

/-- Lexemes after some `>>` among them have been split. -/
inductive Splits : List Lexeme → List Lexeme → Prop
  | nil : Splits [] []
  | keep {r : Lexeme} {before after : List Lexeme} :
      Splits before after → Splits (r :: before) (r :: after)
  | split {t : Token} {before after : List Lexeme} : t.kind = .symbol .shr →
      Splits before after → Splits (.token t :: before) (halves t ++ after)

namespace Splits

theorem refl (lexemes : List Lexeme) : Splits lexemes lexemes := by
  induction lexemes with
  | nil => exact .nil
  | cons r rest ih => exact .keep ih

theorem append {a b c d : List Lexeme} (fst : Splits a b) (snd : Splits c d) :
    Splits (a ++ c) (b ++ d) := by
  induction fst with
  | nil => exact snd
  | keep _ ih => exact .keep ih
  | split shr _ ih => exact .split shr ih

theorem trans {a b c : List Lexeme} (fst : Splits a b) (snd : Splits b c) : Splits a c := by
  induction fst generalizing c with
  | nil => exact snd
  | keep _ ih =>
    cases snd with
    | keep more => exact .keep (ih more)
    | split shr more => exact .split shr (ih more)
  | split shr _ ih =>
  cases snd with
  | keep more =>
    cases more with
    | keep more => exact .split shr (ih more)
    | split impossible => cases impossible
  | split impossible => cases impossible

theorem size {a b : List Lexeme} (splits : Splits a b) : sizeOfPending b = sizeOfPending a := by
  induction splits with
  | nil => rfl
  | keep _ ih => simp only [sizeOfPending, ih]
  | split shr _ ih =>
    simp [halves, Token.halves, sizeOfPending, Lexeme.size, shr, ih]
    omega

end Splits

namespace Span

def Holds (outer inner : Span) : Prop :=
  outer.start ≤ inner.start ∧ inner.start ≤ inner.stop ∧ inner.stop ≤ outer.stop

theorem Holds.trans {a b c : Span} (fst : a.Holds b) (snd : b.Holds c) : a.Holds c := by
  unfold Holds at *
  omega

end Span

/-- A `>>` holds some text, and a fault is one of the text. -/
def Lexeme.Solid : Lexeme → Prop
  | token t => t.kind = .symbol .shr → t.span.start < t.span.stop
  | fault d => d.kind = .lexical

def Placed (stop : Nat) : Nat → List Lexeme → Prop
  | start, [] => start ≤ stop
  | start, r :: rest => start ≤ r.span.start ∧ r.span.start ≤ r.span.stop ∧ r.Solid ∧
      Placed stop r.span.stop rest

namespace Placed

variable {start stop : Nat} {lexemes : List Lexeme}

variable (placed : Placed stop start lexemes)
include placed

theorem start_le : start ≤ stop := by
  induction lexemes generalizing start with
  | nil => exact placed
  | cons r rest ih =>
    obtain ⟨_, _, -, more⟩ := placed
    have := ih more
    omega

theorem weaken {earlier : Nat} (le : earlier ≤ start) : Placed stop earlier lexemes := by
  cases lexemes with
  | nil => exact Nat.le_trans le placed
  | cons => exact ⟨Nat.le_trans le placed.1, placed.2⟩

theorem holds : ∀ r ∈ lexemes, Span.Holds ⟨start, stop⟩ r.span ∧ r.Solid := by
  induction lexemes generalizing start with
  | nil => simp
  | cons r rest ih =>
  obtain ⟨fst, ordered, solid, more⟩ := placed
  intro q mem
  rcases mem_cons.mp mem with rfl | mem
  · exact ⟨⟨fst, ordered, more.start_le⟩, solid⟩
  obtain ⟨_, solid⟩ := ih more q mem
  refine ⟨?_, solid⟩
  simp only [Span.Holds] at *
  omega

end Placed

variable {t : Token}

namespace Input

def front (s : Input) : Nat :=
  (s.pending.head?.map (·.span.start)).getD s.length

/-- How much is left to read. A `>>` counts twice. -/
def size (s : Input) : Nat :=
  sizeOfPending s.pending

/-- The pending lexemes lie in the text behind the last token. -/
def Sound (s : Input) : Prop :=
  Placed s.length s.lastEnd s.pending

variable {s : Input}

theorem Sound.lastEnd_le (sound : s.Sound) : s.lastEnd ≤ s.front ∧ s.front ≤ s.length := by
  unfold Sound at sound
  unfold front
  cases pending : s.pending with
  | nil =>
    rw [pending] at sound
    exact ⟨sound, .refl⟩
  | cons =>
  rw [pending] at sound
  obtain ⟨_, _, -, more⟩ := sound
  have := more.start_le
  simp only [head?_cons, Option.map_some, Option.getD_some]
  omega

structure Later (s s' : Input) : Prop where
  length : s'.length = s.length
  sound : s'.Sound
  front : s.front ≤ s'.front
  lastEnd : s.lastEnd ≤ s'.lastEnd
  consumed : ∃ tokens : List Token, s'.read = tokens.reverse ++ s.read ∧
    (∀ t ∈ tokens, t.kind ≠ .eof) ∧ Splits s.pending (tokens.map .token ++ s'.pending)

namespace Later

variable {a b c : Input}

theorem refl (sound : a.Sound) : a.Later a :=
  ⟨rfl, sound, .refl, .refl, [], rfl, by simp, .refl _⟩

theorem trans (fst : a.Later b) (snd : b.Later c) : a.Later c := by
  obtain ⟨tokens, read, proper, splits⟩ := fst.consumed
  obtain ⟨more, readMore, properMore, splitsMore⟩ := snd.consumed
  refine ⟨snd.length.trans fst.length, snd.sound, Nat.le_trans fst.front snd.front,
    Nat.le_trans fst.lastEnd snd.lastEnd, tokens ++ more, ?_, ?_, ?_⟩
  · rw [readMore, read, reverse_append, append_assoc]
  · exact forall_mem_append.mpr ⟨proper, properMore⟩
  rw [map_append, append_assoc]
  exact splits.trans (.append (.refl _) splitsMore)

theorem size_le (later : a.Later b) : b.size ≤ a.size := by
  obtain ⟨_, -, -, splits⟩ := later.consumed
  have := splits.size
  rw [sizeOfPending_append] at this
  unfold size
  omega

end Later

def Faces (s : Input) (t : Token) : Prop :=
  (s.pending = [] ∧ t = s.endToken) ∨ ∃ rest, s.pending = .token t :: rest

theorem Faces.start (faces : s.Faces t) : t.span.start = s.front := by
  unfold front
  obtain ⟨pending, rfl⟩ | ⟨_, pending⟩ := faces <;> rw [pending] <;> rfl

theorem Faces.holds (sound : s.Sound) (faces : s.Faces t) : t.span.Within s.length := by
  obtain ⟨pending, rfl⟩ | ⟨_, pending⟩ := faces
  · exact ⟨.refl, .refl⟩
  have := Placed.holds sound (.token t) (by rw [pending]; exact (.head _))
  exact this.1.2

end Input

theorem Tiling.placed {before since rest : List Char} {results : List Lexeme}
    (tiling : Tiling before since rest results) :
    Placed (byteLength (before ++ rest)) (byteLength before) results := by
  induction tiling with
  | done =>
    rw [append_nil]
    refine ⟨.refl, .refl, ?_, .refl⟩
    rintro ⟨⟩
  | @skip before since text rest results _ _ ih =>
    -- the next result starts behind what is skipped
    rw [append_assoc] at ih
    refine ih.weaken ?_
    rw [byteLength_append]
    omega
  | @token before since text rest results kind some _ _ ih =>
    rw [append_assoc] at ih
    have solid : byteLength before < byteLength (before ++ text) := by
      have := byteLength_pos some
      rw [byteLength_append]
      omega
    exact ⟨.refl, Nat.le_of_lt solid, fun _ => solid, ih⟩
  | @fault before since text rest results problem some lexical _ ih =>
  rw [append_assoc] at ih
  refine ⟨.refl, ?_, lexical, ih⟩
  change byteLength before ≤ byteLength (before ++ text)
  rw [byteLength_append]
  exact Nat.le_add_right _ _

theorem Input.ofChars_sound (source : List Char) : (ofChars source).Sound :=
  (Scan.lexemesFrom_tiling source [] []).placed

variable {α β : Type} {s : Input}

section

variable {rest : List Lexeme}

theorem accept_eq (kind : TokenKind) : accept kind = do
    if ← check kind then
      let _ ← next
      return true
    else return false := rfl

theorem run_peek (pending : s.pending = .token t :: rest) : peek s = .ok t s := by
  unfold peek peekAt
  rw [pending]
  rfl

theorem run_next (pending : s.pending = .token t :: rest) :
    Input.next s = .ok t { s with pending := rest, read := t :: s.read } := by
  unfold Input.next
  rw [pending]

theorem run_next_end (none : s.pending = []) :
    Input.next s = .ok s.endToken { s with read := s.endToken :: s.read } := by
  unfold Input.next
  rw [none]

theorem run_splitShr (pending : s.pending = .token t :: rest) : splitShr s = .ok ()
    (if t.kind = .symbol .shr then { s with pending := halves t ++ rest } else s) := by
  unfold splitShr
  rw [bind_run (run_peek pending)]
  split
  · change EStateM.Result.ok () { s with pending := halves t ++ s.pending.drop 1 } = _
    rw [pending]
    rfl
  · rfl

end

structure Reports (depth : Nat) (s : Input) (d : Diagnostic) : Prop where
  within : d.span.Within s.length
  kind : d.kind = .lexical ∨ d.kind = .syntactic
  deep : d.problem = .tooDeep → depth ≤ s.size

/-- A reader that succeeds leads to a later state, with a result for which something holds there. -/
def Reads (depth : Nat) (r : Parser α) (s : Input) (post : α → Input → Prop) : Prop :=
  match r s with
  | .ok a s' => s.Later s' ∧ post a s'
  | .error d _ => Reports depth s d

variable {d : Diagnostic} {depth : Nat}

theorem Reports.of_lexical (within : d.span.Within s.length) (lexical : d.kind = .lexical) :
    Reports depth s d := by
  refine ⟨within, .inl lexical, fun deep => ?_⟩
  rw [Diagnostic.kind, deep] at lexical
  cases lexical

namespace Reads

variable {post : α → Input → Prop} {r : Parser α}

theorem of_ok {u : Input} {a : α} (run : r s = .ok a u)
    (later : s.Later u) (holds : post a u) : Reads depth r s post := by
  unfold Reads
  rw [run]
  exact ⟨later, holds⟩

theorem of_error {u : Input} (run : r s = .error d u)
    (reports : Reports depth s d) : Reads depth r s post := by
  unfold Reads
  rw [run]
  exact reports

theorem ok {s' : Input} {a : α} (reads : Reads depth r s post)
    (run : r s = .ok a s') : s.Later s' ∧ post a s' := by
  unfold Reads at reads
  rwa [run] at reads

theorem error {s' : Input} (reads : Reads depth r s post)
    (run : r s = .error d s') : Reports depth s d := by
  unfold Reads at reads
  rwa [run] at reads

theorem pure {a : α} (sound : s.Sound) (holds : post a s) : Reads depth (pure a) s post :=
  of_ok rfl (.refl sound) holds

theorem mono {post' : α → Input → Prop} (reads : Reads depth r s post)
    (weaker : ∀ a s', s.Later s' → post a s' → post' a s') : Reads depth r s post' := by
  cases run : r s with
  | ok a s' =>
    obtain ⟨later, holds⟩ := reads.ok run
    exact of_ok run later (weaker a s' later holds)
  | error => exact of_error run (reads.error run)

theorem lower {most : Nat} (reads : Reads most r s post) (le : depth ≤ most) :
    Reads depth r s post := by
  cases run : r s with
  | ok => exact of_ok run (reads.ok run).1 (reads.ok run).2
  | error =>
    have reports := reads.error run
    exact of_error run { reports with deep := fun deep => Nat.le_trans le (reports.deep deep) }

section

variable {r : Parser β} {next : β → Parser α} {mid : β → Input → Prop}

theorem bind_deep (rest : Nat) (fst : Reads depth r s mid) (snd : ∀ b s', s.Later s' →
      mid b s' → (rest ≤ s'.size → depth ≤ s.size) ∧ Reads rest (next b) s' post) :
    Reads depth (r >>= next) s post := by
  cases run : r s with
  | error => exact of_error (bind_run_error run) (fst.error run)
  | ok b s' =>
  obtain ⟨later, holds⟩ := fst.ok run
  obtain ⟨deep, inner⟩ := snd b s' later holds
  cases more : next b s' with
  | ok =>
    obtain ⟨later', result⟩ := inner.ok more
    exact of_ok ((bind_run run).trans more) (later.trans later') result
  | error =>
  have reports := inner.error more
  refine of_error ((bind_run run).trans more) ⟨?_, reports.kind, deep ∘ reports.deep⟩
  rw [← later.length]
  exact reports.within

theorem bind (fst : Reads depth r s mid)
    (snd : ∀ b s', s.Later s' → mid b s' → Reads depth (next b) s' post) :
    Reads depth (r >>= next) s post :=
  bind_deep depth fst fun b s' later holds =>
    ⟨(Nat.le_trans · later.size_le), snd b s' later holds⟩

theorem bind_less (fst : Reads depth r s mid) (snd : ∀ b s', s.Later s' → mid b s' →
      s'.size < s.size ∧ Reads (depth - 1) (next b) s' post) :
    Reads depth (r >>= next) s post := by
  refine bind_deep (depth - 1) fst fun b s' later holds => ?_
  obtain ⟨_, more⟩ := snd b s' later holds
  exact ⟨by omega, more⟩

end

theorem map {r : Parser β} {f : β → α} (inner : Reads depth r s fun b s' => post (f b) s') :
    Reads depth (f <$> r) s post := by
  have unfolded : (f <$> r) s = EStateM.map f r s := rfl
  cases run : r s with
  | error d s' =>
    refine of_error (u := s') ?_ (inner.error run)
    rw [unfolded, EStateM.map, run]
  | ok =>
    obtain ⟨later, holds⟩ := inner.ok run
    refine of_ok ?_ later holds
    rw [unfolded, EStateM.map, run]

theorem throw {problem : Problem} {span : Span} (within : span.Within s.length)
    (kind : problem.kind = .syntactic) (other : problem ≠ .tooDeep) :
    Reads (α := α) depth (.throw (problem.at span)) s post :=
  of_error rfl ⟨within, .inr kind, fun deep => absurd deep other⟩

end Reads

structure Input.Takes (s : Input) (t : Token) (s' : Input) : Prop where
  start : t.span.start = s.front
  ordered : t.span.start ≤ t.span.stop
  stop : s'.lastEnd = t.span.stop
  less : s'.size < s.size

theorem lookup_fault {n : Nat} {lexemes rest : List Lexeme}
    (failed : lookup n lexemes = .error (d, rest)) : Lexeme.fault d ∈ lexemes := by
  fun_induction lookup n lexemes generalizing rest with
  | case1 | case3 | case4 => cases failed
  | case2 =>
    cases failed
    exact .head _
  | case5 n t more d' rest' inner ih =>
    -- the fault is met further on, behind `t`
    cases failed
    exact .tail _ (ih inner)

theorem lookup_zero {lexemes : List Lexeme} {got : Option Token}
    (run : lookup 0 lexemes = .ok got) :
    (lexemes = [] ∧ got = none) ∨ ∃ t rest, lexemes = .token t :: rest ∧ got = some t := by
  cases lexemes with
  | nil => exact .inl ⟨rfl, (Except.ok.inj run).symm⟩
  | cons r rest =>
    cases r with
    | token t => exact .inr ⟨t, rest, rfl, (Except.ok.inj run).symm⟩
    | fault => cases run

theorem peekAt_same {n : Nat} {u : Input} (seen : peekAt n s = .ok t u) :
    u = s ∧ ∃ got, lookup n s.pending = .ok got ∧ t = got.getD s.endToken := by
  unfold peekAt at seen
  split at seen <;> cases seen
  rename_i got looked
  exact ⟨rfl, got, looked, rfl⟩

theorem peek_faces {u : Input} (seen : peek s = .ok t u) : u = s ∧ s.Faces t := by
  obtain ⟨same, _, looked, rfl⟩ := peekAt_same seen
  obtain ⟨none, rfl⟩ | ⟨t, rest, pending, rfl⟩ := lookup_zero looked
  · exact ⟨same, .inl ⟨none, rfl⟩⟩
  · exact ⟨same, .inr ⟨rest, pending⟩⟩

namespace Reads

variable {post : α → Input → Prop}

theorem peekAt (n : Nat) (sound : s.Sound) :
    Reads depth (peekAt n) s fun t s' => s' = s ∧ (n = 0 → s.Faces t) := by
  cases got : lookup n s.pending with
  | ok t =>
    refine of_ok (a := t.getD s.endToken) (u := s) ?_ (.refl sound) ⟨rfl, ?_⟩
    · unfold Input.peekAt
      rw [got]
    rintro rfl
    obtain ⟨none, rfl⟩ | ⟨t, rest, pending, rfl⟩ := lookup_zero got
    · exact .inl ⟨none, rfl⟩
    · exact .inr ⟨rest, pending⟩
  | error e =>
  obtain ⟨holds, lexical⟩ := Placed.holds sound (.fault e.1) (lookup_fault got)
  refine of_error (u := { s with pending := e.2 }) ?_ (.of_lexical holds.2 lexical)
  unfold Input.peekAt
  rw [got]

theorem peek_bind {next : Token → Parser α} (sound : s.Sound)
    (after : ∀ t, s.Faces t → Reads depth (next t) s post) : Reads depth (peek >>= next) s post := by
  refine bind (peekAt 0 sound) ?_
  rintro t _ - ⟨rfl, faces⟩
  exact after t (faces rfl)

theorem check_bind {kind : TokenKind} {next : Bool → Parser α} (sound : s.Sound)
    (after : ∀ t, s.Faces t → Reads depth (next (t.kind.sameClass kind)) s post) :
    Reads depth (check kind >>= next) s post := by
  unfold check checkWith
  rw [bind_assoc]
  refine peek_bind sound ?_
  intro t faces
  exact after t faces

theorem checkSecond (kind : TokenKind) (sound : s.Sound) :
    Reads depth (checkSecond kind) s fun _ s' => s' = s := by
  refine bind (peekAt 1 sound) ?_
  rintro t _ _ ⟨rfl, -⟩
  exact pure sound rfl

theorem next_of_faces (sound : s.Sound) (faces : s.Faces t) (proper : t.kind ≠ .eof) :
    Reads depth next s fun u s' => u = t ∧ s.Takes t s' := by
  obtain ⟨-, rfl⟩ | ⟨rest, pending⟩ := faces
  · exact absurd rfl proper
  have sound' := sound
  unfold Sound at sound'
  rw [pending] at sound'
  obtain ⟨fst, ordered, -, more⟩ := sound'
  have start := Faces.start (.inr ⟨rest, pending⟩)
  have before := fst
  have ordered : t.span.start ≤ t.span.stop := ordered
  have sound' : Sound { s with pending := rest, read := t :: s.read } := more
  have after : t.span.stop ≤ front { s with pending := rest, read := t :: s.read } :=
    sound'.lastEnd_le.1
  have less : sizeOfPending rest < s.size := by
    have := Lexeme.size_bounds (.token t)
    rw [Input.size, pending, sizeOfPending]
    omega
  refine of_ok (run_next pending)
    ⟨rfl, sound', by omega, Nat.le_trans before ordered, [t], rfl, ?_, ?_⟩
    ⟨rfl, start, ordered, rfl, less⟩
  · simpa using proper
  rw [pending]
  exact .refl _

theorem take_bind {next' : Token → Parser α} (sound : s.Sound) (faces : s.Faces t)
    (proper : t.kind ≠ .eof)
    (after : ∀ s', s.Later s' → s.Takes t s' → Reads (depth - 1) (next' t) s' post) :
    Reads depth (next >>= next') s post := by
  refine bind_less (next_of_faces sound faces proper) ?_
  rintro u s' later ⟨rfl, takes⟩
  exact ⟨takes.less, after s' later takes⟩

/-- A step after the next token, which has to refuse the end. -/
theorem next_bind {next' : Token → Parser α} (sound : s.Sound)
    (after : ∀ t s', s.Later s' → s.Takes t s' → t.kind ≠ .eof →
      Reads (depth - 1) (next' t) s' post)
    (ended : ∀ t s', t.kind = .eof → ∃ what got,
      next' t s' = .error ((Problem.expected what got).at t.span) s') :
    Reads depth (next >>= next') s post := by
  cases pending : s.pending with
  | nil =>
    obtain ⟨_, _, failed⟩ := ended s.endToken { s with read := s.endToken :: s.read } rfl
    refine of_error ((bind_run (run_next_end pending)).trans failed) ⟨?_, .inr rfl, by rintro ⟨⟩⟩
    exact ⟨.refl, .refl⟩
  | cons r rest =>
  cases r with
  | fault d =>
    have run : Input.next s = .error d { s with pending := rest } := by
      unfold Input.next
      rw [pending]
    obtain ⟨holds, lexical⟩ :=
      Placed.holds sound (.fault d) (by rw [pending]; exact (.head _))
    exact of_error (bind_run_error run) (.of_lexical holds.2 lexical)
  | token t =>
  have faces : s.Faces t := .inr ⟨rest, pending⟩
  by_cases proper : t.kind = .eof
  · obtain ⟨_, _, failed⟩ :=
      ended t { s with pending := rest, read := t :: s.read } proper
    refine of_error ((bind_run (run_next pending)).trans failed) ⟨?_, .inr rfl, by rintro ⟨⟩⟩
    exact faces.holds sound
  · exact take_bind sound faces proper fun s' later takes => after t s' later takes proper

end Reads

end Stencil
