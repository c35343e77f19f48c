import Mathlib.Data.Stream.Init
import Stencil.Proofs.Steps
import Stencil.Proofs.Token.Tiling

/-!
A stream of tokens stands for the lexemes that are still to come: those in its queue and those of the
text that has not been scanned. Behind the text there are tokens for its end, again and again.
-/

namespace Stencil

open List Scan

def Lexeme.endAt (length : Nat) : Lexeme :=
  .token ⟨.eof, ⟨length, length⟩, false⟩

namespace Scanner

def lexemes (x : Scanner) : List Lexeme :=
  if x.atEnd then [] else lexemesFrom x.offset (x.since.contains '\n') (segments x.rest)

def stop (x : Scanner) : Nat :=
  if x.atEnd then x.offset else x.offset + byteLength x.rest

def upcoming (x : Scanner) : Stream' Lexeme :=
  x.lexemes ++ₛ .const (.endAt x.stop)

end Scanner

theorem Scan.nextFrom_lexemes (offset : Nat) (since cs : List Char) :
    lexemesFrom offset (since.contains '\n') (segments cs) =
      (nextFrom offset since cs).1 :: (nextFrom offset since cs).2.lexemes ∧
    (nextFrom offset since cs).2.stop = offset + byteLength cs := by
  have stops (offset n : Nat) (c : Char) (rest : List Char) :
      offset + byteLength (c :: take n rest) + byteLength (drop n rest) =
        offset + byteLength (c :: rest) := by
    rw [Nat.add_assoc, ← byteLength_append, cons_append, take_append_drop]
  fun_induction nextFrom offset since cs with
  | case1 => exact ⟨by rw [segments]; rfl, rfl⟩
  | case2 offset since c rest n text stop got ih =>
    rw [segments_cons, got, lexemesFrom, ← contains_append]
    exact ⟨ih.1, ih.2.trans (stops offset n c rest)⟩
  | case3 offset since c rest n text stop kind got =>
    rw [segments_cons, got, lexemesFrom]
    exact ⟨rfl, stops offset n c rest⟩
  | case4 offset since c rest n text stop problem got =>
    rw [segments_cons, got, lexemesFrom, ← contains_append]
    exact ⟨rfl, stops offset n c rest⟩

namespace TokenStream

variable {s u : TokenStream} {t : Token} {d : Diagnostic} {n : Nat}

def upcoming (s : TokenStream) : Stream' Lexeme :=
  s.peeked.map .token ++ₛ s.scanner.upcoming

theorem scanner_upcoming (x : Scanner) (more : x.atEnd = false) :
    x.upcoming = .cons (nextFrom x.offset x.since x.rest).1
      (nextFrom x.offset x.since x.rest).2.upcoming := by
  obtain ⟨lexemes, stop⟩ := nextFrom_lexemes x.offset x.since x.rest
  rw [Scanner.upcoming, Scanner.lexemes, Scanner.stop, more, if_neg nofun, if_neg nofun, lexemes,
    Stream'.cons_append_stream, Scanner.upcoming, stop]

/-- What a call gives, be it a token or a fault, and the stream behind it. -/
def outcome : EStateM.Result Diagnostic TokenStream Token → Lexeme × TokenStream
  | .ok t s => (.token t, s)
  | .error d s => (.fault d, s)

theorem scanToken_upcoming (s : TokenStream) : (outcome (scanToken s)).2.peeked = s.peeked ∧
    s.scanner.upcoming =
      .cons (outcome (scanToken s)).1 (outcome (scanToken s)).2.scanner.upcoming := by
  unfold scanToken
  dsimp only
  split
  · rename_i ended
    have upcoming : s.scanner.upcoming = .const (.endAt s.scanner.offset) := by
      rw [Scanner.upcoming, Scanner.lexemes, Scanner.stop, if_pos ended, if_pos ended,
        Stream'.nil_append_stream]
    refine ⟨rfl, ?_⟩
    dsimp only [outcome]
    rw [upcoming]
    exact Stream'.const_eq _
  · rename_i more
    rw [scanner_upcoming s.scanner (Bool.eq_false_iff.mpr more)]
    split <;> rename_i got <;> rw [got] <;> exact ⟨rfl, rfl⟩

theorem next_upcoming (s : TokenStream) :
    s.upcoming = .cons (outcome (next s)).1 (outcome (next s)).2.upcoming := by
  unfold next upcoming
  split
  · rename_i queue
    rw [queue]
    rfl
  · rename_i empty
    obtain ⟨same, scanned⟩ := scanToken_upcoming s
    rw [same, empty]
    exact scanned

theorem scanAhead_ok (run : scanAhead n s = .ok () u) :
    u.upcoming = s.upcoming ∧ u.peeked.length = s.peeked.length + n := by
  induction n generalizing s with
  | zero =>
    cases run
    exact ⟨rfl, rfl⟩
  | succ n ih =>
    obtain ⟨t, v, scanned, run⟩ := bind_ok run
    obtain ⟨_, w, pushed, run⟩ := bind_ok run
    cases pushed
    obtain ⟨upcoming, length⟩ := ih run
    obtain ⟨queue, following⟩ := scanToken_upcoming s
    rw [scanned] at queue following
    dsimp only [outcome] at queue following
    refine ⟨upcoming.trans ?_, length.trans ?_⟩
    · simp only [TokenStream.upcoming, queue, following, map_append, map_cons, map_nil,
        Stream'.append_append_stream, Stream'.cons_append_stream, Stream'.nil_append_stream]
    · simp only [queue, length_append, length_cons, length_nil]
      exact Nat.add_assoc _ 1 n |>.trans (congrArg _ (Nat.add_comm 1 n))

theorem peekAt_ok (run : peekAt n s = .ok t u) :
    u.upcoming = s.upcoming ∧ u.peeked[n]? = some t := by
  obtain ⟨v, _, got, run⟩ := bind_ok run
  cases got
  obtain ⟨_, w, filled, run⟩ := bind_ok run
  obtain ⟨upcoming, length⟩ := scanAhead_ok filled
  have lies : n < w.peeked.length := by omega
  cases run
  refine ⟨upcoming, ?_⟩
  rw [getD_eq_getElem?_getD, getElem?_eq_getElem lies, Option.getD_some]

theorem get_upcoming (seen : s.peeked[n]? = some t) : s.upcoming.get n = .token t := by
  obtain ⟨lies, rfl⟩ := List.getElem?_eq_some_iff.mp seen
  rw [upcoming, Stream'.get_append_left n _ _ (by simpa using lies), getElem_map]

def results : Nat → TokenStream → List Lexeme
  | 0, _ => []
  | n + 1, s => (outcome (next s)).1 :: results n (outcome (next s)).2

theorem results_eq (n : Nat) (s : TokenStream) : s.results n = s.upcoming.take n := by
  induction n generalizing s with
  | zero => rfl
  | succ n ih =>
    rw [results, ih, next_upcoming s, Stream'.take_succ_cons]

end TokenStream

theorem TokenStream.upcoming_ofSource (source : String) : (ofSource source).upcoming =
    lexemes source.toList ++ₛ .const (.endAt (byteLength source.toList)) := by
  rw [upcoming, ofSource, Scanner.upcoming, Scanner.stop]
  simp only [map_nil, Stream'.nil_append_stream, Nat.zero_add]
  rfl

/-- Calling `next` again and again gives, after finitely many calls, the token for the end of the
text, and the results tile the text. -/
theorem tokens_tile_source (source : String) :
    ∃ n, Tiles source.toList ((TokenStream.ofSource source).results n) := by
  refine ⟨(lexemes source.toList).length, ?_⟩
  rw [TokenStream.results_eq, TokenStream.upcoming_ofSource,
    Stream'.take_append_of_le_length _ _ _ (Nat.le_refl _), take_length]
  exact (lexemesFrom_tiling source.toList [] []).tiles

end Stencil
