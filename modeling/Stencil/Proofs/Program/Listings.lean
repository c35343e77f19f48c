import Stencil.Compile
import Stencil.Proofs.Grammar.Spans

namespace Stencil

open Input List

namespace Splits

theorem of_tokens {lexemes : List Lexeme} {tokens : List Token}
    (splits : Splits lexemes (tokens.map .token)) :
    ∃ all : List Token, lexemes = all.map .token := by
  generalize result : tokens.map Lexeme.token = got at splits
  induction splits generalizing tokens with
  | nil => exact ⟨[], rfl⟩
  | keep _ ih =>
    obtain ⟨t, _, rfl, rfl, more⟩ := map_eq_cons_iff.mp result
    obtain ⟨all, rfl⟩ := ih more
    exact ⟨t :: all, rfl⟩
  | @split t before after _ _ ih =>
  obtain ⟨-, rest, rfl, -, more⟩ := map_eq_cons_iff.mp result
  obtain ⟨-, _, rfl, -, more⟩ := map_eq_cons_iff.mp more
  obtain ⟨all, rfl⟩ := ih more
  exact ⟨t :: all, rfl⟩

theorem end_mem {lexemes got : List Lexeme} {last : Token} (splits : Splits lexemes got)
    (ended : last.kind = .eof) (mem : .token last ∈ lexemes) : .token last ∈ got := by
  induction splits with
  | nil => exact mem
  | keep _ ih =>
    rcases mem_cons.mp mem with rfl | mem
    · exact (.head _)
    · exact .tail _ (ih mem)
  | split shr _ ih =>
  rcases mem_cons.mp mem with same | mem
  · cases same
    rw [ended] at shr
    cases shr
  · exact mem_append_right _ (ih mem)

theorem upToEnd {got rest : List Lexeme} {last t : Token} {tokens : List Token}
    (splits : Splits (got ++ [.token last]) (tokens.map .token ++ .token t :: rest))
    (ended : last.kind = .eof) (faces : t.kind = .eof) (proper : ∀ r ∈ got, r.isEnd = false)
    (read : ∀ t ∈ tokens, t.kind ≠ .eof) :
    .token t :: rest = [.token last] ∧ Splits got (tokens.map .token) := by
  induction got generalizing tokens with
  | nil =>
    generalize result : tokens.map Lexeme.token ++ .token t :: rest = all at splits
    cases splits with
    | keep more =>
      cases more
      cases tokens with
      | nil => exact ⟨result, .nil⟩
      | cons =>
        obtain ⟨same, -⟩ := List.cons.inj result
        cases same
        exact absurd ended (read last (.head _))
    | split shr =>
      rw [ended] at shr
      cases shr
  | cons r got ih =>
  obtain ⟨properFirst, properRest⟩ := forall_mem_cons.mp proper
  generalize result : tokens.map Lexeme.token ++ .token t :: rest = all at splits
  cases splits with
  | keep more =>
    cases tokens with
    | nil =>
      obtain ⟨same, -⟩ := List.cons.inj result
      subst same
      exact absurd faces (of_decide_eq_false properFirst)
    | cons =>
      obtain ⟨rfl, rfl⟩ := List.cons.inj result
      obtain ⟨last, splits⟩ := ih more properRest (forall_mem_cons.mp read).2
      exact ⟨last, .keep splits⟩
  | @split v _ _ shr more =>
  cases tokens with
  | nil =>
    obtain ⟨same, -⟩ := List.cons.inj result
    cases same
    cases faces
  | cons u tokens =>
  obtain ⟨fst, others⟩ := List.cons.inj result
  cases fst
  cases tokens with
  | nil =>
    obtain ⟨snd, -⟩ := List.cons.inj others
    cases snd
    cases faces
  | cons =>
  obtain ⟨snd, tail⟩ := List.cons.inj others
  cases snd
  subst tail
  obtain ⟨last, splits⟩ := ih more properRest (forall_mem_cons.mp (forall_mem_cons.mp read).2).2
  exact ⟨last, .split shr splits⟩

end Splits

/-- What has been read when a whole text has: all tokens before the one for the end, in order and
each once, where a `>>` may count as two `>`. -/
structure ReadsAll (source : List Char) (s : Input) (all : List Token) (last : Token) :
    Prop where
  accepted : allTokens (Scan.lexemes source) = .ok (all ++ [last])
  ended : last.kind = .eof
  pending : s.pending = [.token last]
  read : Splits (all.map .token) (s.read.reverse.map .token)

variable {m : Module}

theorem module_readsAll {source : List Char} {n : Nat} {s : Input}
    (run : Grammar.module n (.ofChars source) = .ok m s) :
    ∃ all last, ReadsAll source s all last := by
  obtain ⟨later, -, t, faces, kind⟩ := (reads_module n (ofChars_sound source)).ok run
  obtain ⟨got, newline, lexemes, proper⟩ :=
    (Scan.lexemesFrom_tiling source [] []).tiles.ends
  obtain ⟨tokens, read, notEnded, splits⟩ := later.consumed
  have read : s.read.reverse = tokens := by
    rw [read, reverse_append, reverse_reverse]
    rfl
  have start : (Input.ofChars source).pending = got ++ [.token _] := lexemes
  rw [start] at splits
  obtain ⟨pending, -⟩ | ⟨_, pending⟩ := faces
  · -- the token for the end has not been read, so it is still pending
    rw [pending, append_nil] at splits
    obtain ⟨_, mem, same⟩ := mem_map.mp (splits.end_mem rfl (mem_append_right _ (.head _)))
    cases same
    exact absurd rfl (notEnded _ mem)
  rw [pending] at splits
  obtain ⟨last, splits⟩ := splits.upToEnd rfl kind proper notEnded
  obtain ⟨all, rfl⟩ := splits.of_tokens
  refine ⟨all, _, ?_, rfl, pending.trans last, ?_⟩
  · have whole : Scan.lexemes source = (all ++
        [(⟨.eof, ⟨byteLength source, byteLength source⟩, newline⟩ : Token)]).map .token := by
      rw [map_append]
      exact lexemes
    rw [whole, allTokens_map]
  rw [read]
  exact splits

def Compilation.outcome (c : Compilation) : Ir.Module × Report :=
  (c.module, c.report)

theorem parse_run {source : String} (parsed : Module.parse source = .ok m) :
    ∃ s, Grammar.module (Grammar.bound (.ofSource source)) (.ofSource source) = .ok m s := by
  unfold Module.parse Grammar.parse at parsed
  dsimp only at parsed
  split at parsed
  · rename_i result s run
    cases parsed
    exact ⟨s, run⟩
  · cases parsed

theorem tokenListingIf_succeeds {source : String}
    (parsed : Module.parse source = .ok m) (wanted : Bool) :
    ∃ listing, tokenListingIf wanted source = .ok listing := by
  obtain ⟨s, run⟩ := parse_run parsed
  obtain ⟨all, last, reads⟩ := module_readsAll run
  cases wanted with
  | false => exact ⟨[], rfl⟩
  | true =>
  refine ⟨[("Tokens", String.join ((all ++ [last]).map Token.listing))], ?_⟩
  unfold tokenListingIf tokenListing
  rw [reads.accepted]
  rfl

theorem compile_outcome (source fileName : String) (wanted : Listings) :
    (compile source fileName wanted).toOption.map Compilation.outcome =
      (Module.parse source).toOption.map fun m =>
        ((analyze (moduleName fileName) m).builder.module,
          (analyze (moduleName fileName) m).finalReport) := by
  unfold compile
  cases parsed : Module.parse source with
  | ok =>
    obtain ⟨_, listed⟩ := tokenListingIf_succeeds parsed wanted.tokens
    rw [listed]
    rfl
  | error d =>
    cases tokenListingIf wanted.tokens source with
    | ok listing | error d => rfl

/-- Listings do not influence compilation: it succeeds with one choice of listings if and only if it
does with another, and then with the same module and the same report. A text that is read as a
module has no faults, and each of its tokens has been read. -/
theorem compile_listings_irrelevant (source fileName : String) :
    (∀ a b : Listings, (compile source fileName a).toOption.map Compilation.outcome =
      (compile source fileName b).toOption.map Compilation.outcome) ∧
    ∀ m, Module.parse source = .ok m → ∃ s all last,
      Grammar.module (Grammar.bound (.ofSource source)) (.ofSource source) = .ok m s ∧
      ReadsAll source.toList s all last := by
  constructor
  · intro a b
    rw [compile_outcome, compile_outcome]
  · intro m parsed
    obtain ⟨s, run⟩ := parse_run parsed
    obtain ⟨all, last, reads⟩ := module_readsAll run
    exact ⟨s, all, last, run, reads⟩

end Stencil
