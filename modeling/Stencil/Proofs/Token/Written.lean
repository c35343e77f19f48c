import Stencil.Proofs.Grammar.Printing
import Stencil.Proofs.Token.Joining

namespace Stencil

open Scan Input List

/-- The kinds that a token is shown as without loss. A name is a word that is not reserved. -/
def TokenKind.Plain : TokenKind → Prop
  | .identifier name =>
    IsWord name.toList ∧ (∀ k : Keyword, k.text ≠ name) ∧ ∀ p : Primitive, p.text ≠ name
  | .float _ | .string _ | .eof => False
  | .keyword _ | .primitive _ | .int _ | .symbol _ => True

theorem TokenKind.ofWord_name {name : String} (keyword : ∀ k : Keyword, k.text ≠ name)
    (primitive : ∀ p : Primitive, p.text ≠ name) : ofWord name = .identifier name := by
  have noKeyword : Keyword.all.find? (·.text = name) = none := by simp [keyword]
  have noPrimitive : Primitive.all.find? (·.text = name) = none := by simp [primitive]
  rw [ofWord, noKeyword, noPrimitive]

namespace Scan

def Stands (text : List Char) (kind : TokenKind) : Prop :=
  ∃ c word, text = c :: word ∧ isBlank c = false ∧
    ∀ tail, Separates tail → first c (word ++ tail) = (.token kind, word.length)

theorem Stands.word {name : String} {kind : TokenKind} (isWord : IsWord name.toList)
    (same : .ofWord name = kind) : Stands name.toList kind := by
  cases text : name.toList with
  | nil =>
    rw [text] at isWord
    exact isWord.elim
  | cons c word =>
  rw [text] at isWord
  refine ⟨c, word, rfl, (isWordStart_plain isWord.1).1, fun _ separates => ?_⟩
  rw [first_word isWord.1 isWord.2 fun d head => (separator_plain (separates d head)).2.2.2,
    ← text, String.ofList_toList, same]

theorem Stands.number (value : UInt64) : Stands (toString value).toList (.int value) := by
  have text : (toString value).toList = Nat.toDigits 10 value.toNat := Nat.toList_repr
  obtain ⟨d, ds, digits, -, solid⟩ := toDigits_solid value.toNat
  refine ⟨d, ds, text.trans digits, solid, fun tail separates => ?_⟩
  have next : ∀ c ∈ tail.head?, isWordPart c = false ∧ c ≠ '.' := by
    intro c head
    rcases isSeparator_cases (separates c head) with rfl | rfl | rfl <;> decide
  obtain ⟨e, _, same, got⟩ := first_number next value.toNat_lt
  rw [digits] at same
  cases same
  rwa [UInt64.ofNat_toNat] at got

theorem Stands.symbol (s : Symbol) : Stands s.text.toList (.symbol s) := by
  have separated : ∀ tail, Separates tail → tail = [] ∨ ∃ c cs, tail = c :: cs ∧
      (c = ' ' ∨ c = '\n' ∨ c = ';') := by
    intro tail separates
    cases tail with
    | nil => exact .inl rfl
    | cons c cs => exact .inr ⟨c, cs, rfl, isSeparator_cases (separates c rfl)⟩
  cases s <;> refine ⟨_, _, rfl, rfl, fun tail separates => ?_⟩ <;>
    obtain rfl | ⟨c, _, rfl, rfl | rfl | rfl⟩ := separated tail separates <;> rfl

theorem stands_text {kind : TokenKind} (plain : kind.Plain) : Stands kind.text.toList kind := by
  cases kind with
  | keyword k => exact .word k.isWord k.ofWord_text
  | primitive p => exact .word p.isWord p.ofWord_text
  | identifier => exact .word plain.1 (TokenKind.ofWord_name plain.2.1 plain.2.2)
  | int value => exact .number value
  | symbol s => exact .symbol s
  | float | string | eof => exact plain.elim

theorem Stands.spelled {text : List Char} {kind : TokenKind} (stands : Stands text kind) :
    Spelled false text [(kind, false)] false := by
  obtain ⟨c, _, rfl, solid, got⟩ := stands
  simpa using Spelled.token solid got .nil

theorem spelled_texts {kinds : List TokenKind} (plain : ∀ kind ∈ kinds, kind.Plain) :
    Spelled false ([' '].intercalate (kinds.map (·.text.toList))) (kinds.map (·, false)) false := by
  induction kinds with
  | nil => exact .nil
  | cons kind kinds ih =>
  obtain ⟨first, others⟩ := forall_mem_cons.mp plain
  have spelled := (stands_text first).spelled
  cases kinds with
  | nil => simpa [List.intercalate] using spelled
  | cons => exact spelled.append (.cons rfl) (.blank rfl (ih others))

end Scan

/-- Tokens that are written with a blank between them are found again, all on one line. -/
theorem printed_tokens_scan_back (kinds : List TokenKind) (plain : ∀ kind ∈ kinds, kind.Plain) :
    ∃ tokens : List Token,
      allTokens (lexemes (" ".intercalate (kinds.map TokenKind.text)).toList) = .ok tokens ∧
      tokens.map (·.kind) = kinds ++ [.eof] ∧ ∀ t ∈ tokens, t.newlineBefore = false := by
  obtain ⟨tokens, marks, split⟩ := (spelled_texts plain).cut .nil 0
  rw [List.append_nil, segments, lexemesFrom, ← List.map_singleton (f := Lexeme.token),
    ← List.map_append] at split
  have text : (" ".intercalate (kinds.map TokenKind.text)).toList =
      [' '].intercalate (kinds.map (·.text.toList)) := by
    rw [String.toList_intercalate, List.map_map]
    rfl
  have kind : tokens.map (·.kind) = kinds := by
    simpa [mark, Function.comp_def] using congrArg (List.map Prod.fst) marks
  have flags : ∀ t ∈ tokens, t.newlineBefore = false := by
    intro t mem
    have marked := List.mem_map_of_mem (f := mark) mem
    rw [marks] at marked
    obtain ⟨kind, -, same⟩ := List.mem_map.mp marked
    exact (Prod.mk.inj same).2.symm
  refine ⟨_, by rw [text, lexemes, split, allTokens_map], by simp [kind], ?_⟩
  exact List.forall_mem_append.mpr ⟨flags, by simp⟩

theorem printed_tokens_scan_back_near : ∃ tokens : List Token,
    allTokens (lexemes "int3 > > int".toList) = .ok tokens ∧ tokens.map (·.kind) =
      [.identifier "int3", .symbol .gt, .symbol .gt, .primitive .int, .eof] ∧
    ∀ t ∈ tokens, t.newlineBefore = false := by
  have name : (TokenKind.identifier "int3").Plain :=
    ⟨by decide, fun k => by cases k <;> decide, fun p => by cases p <;> decide⟩
  exact printed_tokens_scan_back [.identifier "int3", .symbol .gt, .symbol .gt, .primitive .int]
    (List.forall_mem_cons.mpr ⟨name, by simp [TokenKind.Plain]⟩)

namespace Scan

def quotation (units : List (List Char)) : List Char :=
  '"' :: (units.flatten ++ ['"'])

variable {units : List (List Char)} {c : Char}

theorem unescape_none {unit cs : List Char} (pieces : IsPiece unit) (fails : unescape? cs = none) :
    unescape? (unit ++ cs) = none := by
  obtain ⟨c, ⟨rfl, backslash, -⟩ | ⟨rfl, -⟩⟩ := pieces
  · rw [singleton_append, unescape_plain backslash, fails, Option.map_none]
  rw [unescape?.eq_def]
  simp only [cons_append, nil_append, fails]
  split <;> rfl

theorem unescape_unknown (pieces : ∀ unit ∈ units, IsPiece unit) (unknown : ['\\', c] ∈ units)
    (other : c ∉ ['n', 't', 'r', '0', '\\', '"']) : unescape? units.flatten = none := by
  induction units with
  | nil => simp at unknown
  | cons unit units ih =>
  obtain ⟨first, others⟩ := forall_mem_cons.mp pieces
  rcases mem_cons.mp unknown with rfl | later
  · simp only [mem_cons, not_mem_nil, or_false, not_or] at other
    simp [unescape?, other]
  · exact unescape_none first (ih others later)

theorem lexemes_whole {rest : List Char} {content : Content}
    (got : first c rest = (content, rest.length)) :
    lexemes (c :: rest) = lexemesFrom 0 false [⟨c :: rest, content⟩] := by
  rw [lexemes, segments_cons, got, take_length, drop_length, segments]

end Scan

/-- A quoted text is one string literal, whichever of its characters are escaped. It is one fault,
if a backslash in it means nothing. -/
theorem string_literals_decode (units : List (List Char)) :
    (∀ text : String, List.Forall₂ Writes text.toList units →
      allTokens (lexemes (quotation units)) =
        .ok [⟨.string text, ⟨0, byteLength (quotation units)⟩, false⟩,
          ⟨.eof, ⟨byteLength (quotation units), byteLength (quotation units)⟩, false⟩]) ∧
    ((∀ unit ∈ units, IsPiece unit) →
      (∃ c, ['\\', c] ∈ units ∧ c ∉ ['n', 't', 'r', '0', '\\', '"']) →
      ∃ d, allTokens (lexemes (quotation units)) = .error d ∧ d.kind = .lexical ∧
        d.span = ⟨0, byteLength (quotation units)⟩) := by
  refine ⟨fun text written => ?_, fun pieces => ?_⟩
  · have got := first_string written []
    have whole : units.flatten.length + 1 = (units.flatten ++ ['"']).length := by simp
    rw [quotation, lexemes_whole (whole ▸ got)]
    simp [lexemesFrom, allTokens, pure, Except.pure, bind, Except.bind]
  · rintro ⟨c, unknown, other⟩
    have got : first '"' (units.flatten ++ ['"']) = (.fault (faultOf (quotation units)),
        (units.flatten ++ ['"']).length) := by
      show quoted _ = _
      unfold quoted
      rw [stringBody_pieces pieces]
      simp [unescape_unknown pieces unknown other, quotation, List.take_of_length_le]
    rw [quotation, lexemes_whole got]
    exact ⟨_, rfl, rfl, by simp [quotation, Problem.at]⟩

theorem string_literals_decode_backslashes :
    allTokens (lexemes ['"', '\\', '\\', '\\', '"', '\n', '"']) = .ok
      [⟨.string "\\\"\n", ⟨0, 7⟩, false⟩, ⟨.eof, ⟨7, 7⟩, false⟩] ∧
    ∃ d, allTokens (lexemes ['"', '\\', '\\', '\\', 'x', '"']) = .error d ∧ d.kind = .lexical ∧
      d.span = ⟨0, 6⟩ := by
  constructor
  · refine (string_literals_decode [['\\', '\\'], ['\\', '"'], ['\n']]).1 "\\\"\n" ?_
    exact .cons (.inl rfl) (.cons (.inl rfl) (.cons (.inr ⟨rfl, by decide, by decide⟩) .nil))
  · refine (string_literals_decode [['\\', '\\'], ['\\', 'x']]).2 ?_ ⟨'x', by simp, by decide⟩
    exact List.forall_mem_cons.mpr ⟨⟨'\\', .inr ⟨rfl, by decide⟩⟩,
      List.forall_mem_singleton.mpr ⟨'x', .inr ⟨rfl, by decide⟩⟩⟩

end Stencil
