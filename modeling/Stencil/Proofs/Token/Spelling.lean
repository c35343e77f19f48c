import Mathlib.Data.List.Forall2
import Stencil.Proofs.Token.Tiling

namespace Stencil

open List Symbol

inductive Glues : List TokenKind → List Lexeme → Prop
  | nil : Glues [] []
  | one {t : Token} {kinds : List TokenKind} {lexemes : List Lexeme} :
    t.newlineBefore = false → Glues kinds lexemes → Glues (t.kind :: kinds) (.token t :: lexemes)
  | two {t : Token} {kinds : List TokenKind} {lexemes : List Lexeme} :
    t.kind = .symbol .shr → t.newlineBefore = false → Glues kinds lexemes →
    Glues (.symbol .gt :: .symbol .gt :: kinds) (.token t :: lexemes)

theorem Glues.length_le {kinds : List TokenKind} {lexemes : List Lexeme}
    (glues : Glues kinds lexemes) : kinds.length ≤ 2 * lexemes.length := by
  induction glues with
  | nil => exact .refl
  | one _ _ ih | two _ _ _ ih =>
    simp only [length_cons]
    omega

namespace Scan

def IsWord : List Char → Prop
  | [] => False
  | c :: cs => isWordStart c ∧ ∀ d ∈ cs, isWordPart d

instance : DecidablePred IsWord
  | [] => isFalse id
  | c :: cs =>
    decidable_of_iff (isWordStart c ∧ cs.all isWordPart) (by simp [IsWord])

def escaped : Char → List Char
  | '\n' => ['\\', 'n']
  | '\t' => ['\\', 't']
  | '\r' => ['\\', 'r']
  | '\x00' => ['\\', '0']
  | '\\' => ['\\', '\\']
  | '"' => ['\\', '"']
  | c => [c]

/-- The ways to write a character in a string literal. -/
def Writes (c : Char) (unit : List Char) : Prop :=
  unit = escaped c ∨ unit = [c] ∧ c ≠ '\\' ∧ c ≠ '"'

/-- What a string literal is read as: plain characters, and a backslash with the next one. -/
def IsPiece (unit : List Char) : Prop :=
  ∃ c, unit = [c] ∧ c ≠ '\\' ∧ c ≠ '"' ∨ unit = ['\\', c] ∧ c ≠ '\n'

inductive Spelling : List Char → List TokenKind → Prop
  | done : Spelling [] [.eof]
  | blank {c : Char} {cs : List Char} {kinds : List TokenKind} :
    isBlank c = false → Spelling (c :: cs) kinds → Spelling (' ' :: c :: cs) kinds
  | operator (s : Symbol) {c : Char} {cs : List Char} {kinds : List TokenKind} :
    isBlank c = false → Spelling (c :: cs) kinds →
    Spelling (' ' :: (s.text.toList ++ ' ' :: c :: cs)) (.symbol s :: kinds)
  | word {w cs : List Char} {kinds : List TokenKind} :
    IsWord w → (∀ c ∈ cs.head?, isWordPart c = false) → Spelling cs kinds →
    Spelling (w ++ cs) (.ofWord (String.ofList w) :: kinds)
  | number {n : Nat} {cs : List Char} {kinds : List TokenKind} :
    n < Nat.pow 2 64 → (∀ c ∈ cs.head?, isWordPart c = false ∧ c ≠ '.') → Spelling cs kinds →
    Spelling (Nat.toDigits 10 n ++ cs) (.int (.ofNat n) :: kinds)
  | string (s : String) {cs : List Char} {kinds : List TokenKind} :
    Spelling cs kinds →
    Spelling ('"' :: (s.toList.flatMap escaped ++ '"' :: cs)) (.string s :: kinds)
  | angle {cs : List Char} {kinds : List TokenKind} :
    cs.head? ≠ some '=' → Spelling cs kinds → Spelling ('>' :: cs) (.symbol .gt :: kinds)
  | symbol {c : Char} {s : Symbol} {cs : List Char} {kinds : List TokenKind} :
    single? c = some s → c ≠ '>' → c ≠ '/' →
    (∀ d ∈ cs.head?, double? c d = none) → Spelling cs kinds →
    Spelling (c :: cs) (.symbol s :: kinds)
  | pair {c d : Char} {s : Symbol} {cs : List Char} {kinds : List TokenKind} :
    double? c d = some s → c ≠ '>' → Spelling cs kinds →
    Spelling (c :: d :: cs) (.symbol s :: kinds)

def Spells (cs : List Char) (kinds : List TokenKind) : Prop :=
  ∀ offset, Glues kinds (lexemesFrom offset false (segments cs))

variable {w : List Char}

namespace Spells

variable {c : Char} {rest cs : List Char} {kinds : List TokenKind}

theorem token {kind : TokenKind} {n : Nat} (got : first c rest = (.token kind, n))
    (after : Spells (rest.drop n) kinds) : Spells (c :: rest) (kind :: kinds) := by
  intro offset
  rw [segments_cons, got]
  exact .one (t := ⟨kind, ⟨offset, _⟩, false⟩) rfl (after _)

theorem append {kind : TokenKind}
    (got : first c (w ++ cs) = (.token kind, w.length)) (after : Spells cs kinds) :
    Spells (c :: (w ++ cs)) (kind :: kinds) := by
  refine token got ?_
  rw [drop_left]
  exact after

theorem nil : Spells [] [.eof] := by
  intro offset
  rw [segments]
  exact .one (t := ⟨.eof, ⟨offset, offset⟩, false⟩) rfl .nil

theorem blank (solid : ∀ d ∈ rest.head?, isBlank d = false) (after : Spells rest kinds) :
    Spells (' ' :: rest) kinds := by
  intro _
  have none : rest.takeWhile isBlank = [] := by
    cases rest with
    | nil => rfl
    | cons d => simp [solid d rfl]
  have got : first ' ' rest = (.skipped, 0) := by
    show (Content.skipped, (rest.takeWhile isBlank).length) = _
    rw [none]
    rfl
  rw [segments_cons, got]
  exact after _

end Spells

section

variable {c : Char} {s : Symbol} {rest cs : List Char}

theorem first_symbolic (blank : isBlank c = false) (slash : c ≠ '/') (quote : c ≠ '"')
    (digit : c.isDigit = false) (start : isWordStart c = false) :
    first c rest = symbolic c rest := by
  simp [first, blank, slash, quote, digit, start]

theorem first_single (single : Symbol.single? c = some s) (slash : c ≠ '/')
    (alone : ∀ d ∈ rest.head?, Symbol.double? c d = none) :
    first c rest = (.token (.symbol s), 0) := by
  have plain : isBlank c = false ∧ c ≠ '"' ∧ c.isDigit = false ∧ isWordStart c = false := by
    unfold single? at single
    split at single
    all_goals cases single
    all_goals decide
  have pair : rest.head?.bind (double? c) = none := by
    cases rest with
    | nil => rfl
    | cons d => exact alone d rfl
  rw [first_symbolic plain.1 slash plain.2.1 plain.2.2.1 plain.2.2.2]
  unfold symbolic
  rw [pair, single]

theorem first_double {d : Char} (double : double? c d = some s) :
    first c (d :: cs) = (.token (.symbol s), 1) := by
  have plain : isBlank c = false ∧ c ≠ '/' ∧ c ≠ '"' ∧ c.isDigit = false ∧ isWordStart c = false := by
    unfold Symbol.double? at double
    split at double
    all_goals cases double
    all_goals decide
  rw [first_symbolic plain.1 plain.2.1 plain.2.2.1 plain.2.2.2.1 plain.2.2.2.2]
  simp [symbolic, double]

theorem first_operator (s : Symbol) (rest : List Char) : ∃ c cs, s.text.toList = c :: cs ∧
    isBlank c = false ∧ first c (cs ++ ' ' :: rest) = (.token (.symbol s), cs.length) := by
  cases s <;> exact ⟨_, _, rfl, rfl, rfl⟩

theorem plain_of_code (code : 48 ≤ c.toNat) : isBlank c = false ∧ c ≠ '/' ∧ c ≠ '"' := by
  have other : ∀ d, d.toNat < 48 → c ≠ d := by
    rintro _ _ rfl
    omega
  refine ⟨?_, other _ (by decide), other _ (by decide)⟩
  simp [isBlank, other ' ' (by decide), other '\t' (by decide), other '\n' (by decide),
    other '\r' (by decide), other '\x0c' (by decide)]

theorem isWordStart_plain (start : isWordStart c) :
    isBlank c = false ∧ c ≠ '/' ∧ c ≠ '"' ∧ c.isDigit = false := by
  rcases Bool.or_eq_true_iff.mp start with alpha | underscore
  · have code : 65 ≤ c.toNat := by
      rcases Bool.or_eq_true_iff.mp alpha with upper | lower
      · have low := (of_decide_eq_true upper).1
        exact UInt32.le_iff_toNat_le.mp low
      have low := of_decide_eq_true (Bool.and_eq_true_iff.mp lower).1
      exact Nat.le_trans (by decide) (UInt32.le_iff_toNat_le.mp low)
    obtain ⟨blank, slash, quote⟩ := plain_of_code (Nat.le_trans (by decide) code)
    refine ⟨blank, slash, quote, ?_⟩
    simp [Char.isDigit, UInt32.le_iff_toNat_le]
    omega
  cases of_decide_eq_true underscore
  decide

theorem takeWhile_word {p : Char → Bool} (all : ∀ d ∈ w, p d)
    (next : ∀ d ∈ cs.head?, p d = false) : (w ++ cs).takeWhile p = w := by
  rw [takeWhile_append_of_pos all]
  cases cs with
  | nil => simp
  | cons d => simp [next d rfl]

theorem first_word (start : isWordStart c)
    (parts : ∀ d ∈ w, isWordPart d) (next : ∀ d ∈ cs.head?, isWordPart d = false) :
    first c (w ++ cs) = (.token (.ofWord (.ofList (c :: w))), w.length) := by
  obtain ⟨blank, slash, quote, digit⟩ := isWordStart_plain start
  simp [first, blank, slash, quote, digit, start, takeWhile_word parts next]

theorem toDigits_isDigit (n : Nat) : ∀ d ∈ Nat.toDigits 10 n, d.isDigit := fun _ mem =>
  Nat.isDigit_of_mem_toDigits (by decide) (by decide) mem

theorem digitsValue_toDigits (n : Nat) : digitsValue 10 (Nat.toDigits 10 n) = n := by
  have plain : (Nat.toDigits 10 n).filter (· != '_') = Nat.toDigits 10 n := by
    refine filter_eq_self.mpr fun d mem => bne_iff_ne.mpr ?_
    rintro rfl
    cases toDigits_isDigit n _ mem
  have folds : (Nat.toDigits 10 n).foldl (fun n c => n * 10 + digitValue c) 0 =
      Nat.ofDigitChars 10 (Nat.toDigits 10 n) 0 := by
    refine foldl_ext _ _ _ fun m d mem => ?_
    simp only [digitValue, toDigits_isDigit n d mem, if_true]
    omega
  rw [digitsValue, plain, folds]
  exact Nat.ofDigitChars_toDigits (by decide) (by decide)

theorem isDigit_plain (digit : c.isDigit) : isBlank c = false ∧ c ≠ '/' ∧ c ≠ '"' := by
  have code : 48 ≤ c.toNat ∧ c.toNat ≤ 57 := by
    simpa [Char.isDigit, UInt32.le_iff_toNat_le] using digit
  exact plain_of_code code.1

theorem toDigits_solid (n : Nat) :
    ∃ d ds, Nat.toDigits 10 n = d :: ds ∧ d.isDigit ∧ isBlank d = false := by
  cases spelled : Nat.toDigits 10 n with
  | nil => exact absurd spelled Nat.toDigits_ne_nil
  | cons d ds =>
    have digit := toDigits_isDigit n d (spelled ▸ (.head _))
    exact ⟨d, ds, rfl, digit, (isDigit_plain digit).1⟩

theorem number_decimal (hex : rest.head? ≠ some 'x') (binary : rest.head? ≠ some 'b') :
    number c rest = decimalNumber c rest := by
  unfold number
  split
  · exact absurd rfl hex
  · exact absurd rfl binary
  · rfl

section

variable {d : Char} {ds : List Char} (next : ∀ d ∈ cs.head?, isWordPart d = false ∧ d ≠ '.')
include next

theorem first_decimal (digit : d.isDigit) (more : ds.all (fun c => c.isDigit || c = '_')) :
    first d (ds ++ cs) = (integer 10 (d :: ds) (d :: ds), ds.length) := by
  obtain ⟨blank, slash, quote⟩ := isDigit_plain digit
  have whole : (ds ++ cs).takeWhile (fun d => d.isDigit || d = '_') = ds := by
    refine takeWhile_word (all_eq_true.mp more) fun d head => ?_
    have part := (next d head).1
    simp only [isWordPart, Char.isAlphanum, Bool.or_eq_false_iff] at part ⊢
    exact ⟨part.1.2, part.2⟩
  have letter : ∀ l, (l.isDigit || l = '_') = false → isWordPart l → (ds ++ cs).head? ≠ some l := by
    intro l plain part head
    cases ds with
    | nil => cases part.symm.trans (next l head).1
    | cons =>
      cases head
      cases plain.symm.trans (all_eq_true.mp more l (.head _))
  have decimal : decimalNumber d (ds ++ cs) = (integer 10 (d :: ds) (d :: ds), ds.length) := by
    unfold decimalNumber
    simp only [whole, List.length_cons, Nat.add_sub_cancel, List.drop_left]
    split
    · exact absurd rfl (next '.' rfl).2
    · rfl
  rw [← decimal, ← number_decimal (letter 'x' rfl rfl) (letter 'b' rfl rfl)]
  simp [first, blank, slash, quote, digit]

theorem first_number {n : Nat} (fits : n < Nat.pow 2 64) : ∃ d ds, Nat.toDigits 10 n = d :: ds ∧
    first d (ds ++ cs) = (.token (.int (.ofNat n)), ds.length) := by
  obtain ⟨d, ds, spelled, digit, -⟩ := toDigits_solid n
  refine ⟨d, ds, spelled, ?_⟩
  rw [first_decimal next digit, integer, ← spelled, digitsValue_toDigits, if_pos fits]
  refine all_eq_true.mpr fun c mem => ?_
  rw [toDigits_isDigit n c (spelled ▸ .tail _ mem), Bool.true_or]

end

variable {d : Char} {unit : List Char} {units : List (List Char)}

theorem escaped_isPiece (d : Char) : IsPiece (escaped d) := by
  unfold escaped
  split
  case h_7 backslash quote => exact ⟨d, .inl ⟨rfl, backslash, quote⟩⟩
  all_goals exact ⟨_, .inr ⟨rfl, by decide⟩⟩

theorem Writes.isPiece (writes : Writes d unit) : IsPiece unit := by
  rcases writes with rfl | plain
  · exact escaped_isPiece d
  · exact ⟨d, .inl plain⟩

theorem stringBody_piece (pieces : IsPiece unit) (cs : List Char) : stringBody (unit ++ cs) =
    ((stringBody cs).1, (stringBody cs).2 + unit.length) := by
  obtain ⟨d, ⟨rfl, _, _⟩ | ⟨rfl, newline⟩⟩ := pieces
  · -- neither a backslash nor a quote, so the character counts for itself
    rw [List.singleton_append, stringBody.eq_def]
    split <;> simp_all
  · simp [stringBody, newline]

theorem stringBody_pieces (pieces : ∀ unit ∈ units, IsPiece unit) (cs : List Char) :
    stringBody (units.flatten ++ '"' :: cs) = (true, units.flatten.length + 1) := by
  induction units with
  | nil => rfl
  | cons unit units ih =>
  obtain ⟨first, others⟩ := forall_mem_cons.mp pieces
  rw [flatten_cons, append_assoc, stringBody_piece first, ih others, length_append]
  simp only [Prod.mk.injEq, true_and]
  omega

theorem unescape_plain (backslash : d ≠ '\\') (cs : List Char) :
    unescape? (d :: cs) = (unescape? cs).map (d :: ·) := by
  cases plain : unescape? cs <;> rw [unescape?.eq_def] <;> split <;> simp_all

theorem unescape_writes (writes : Writes d unit) (cs : List Char) :
    unescape? (unit ++ cs) = (unescape? cs).map (d :: ·) := by
  rcases writes with rfl | ⟨rfl, backslash, -⟩
  · unfold escaped
    split
    case h_7 backslash _ => exact unescape_plain backslash cs
    all_goals cases plain : unescape? cs <;> simp [unescape?, plain]
  · exact unescape_plain backslash cs

theorem isPiece_written {text : List Char} (written : List.Forall₂ Writes text units) :
    ∀ unit ∈ units, IsPiece unit := by
  induction written with
  | nil => simp
  | cons writes _ ih => exact forall_mem_cons.mpr ⟨writes.isPiece, ih⟩

theorem unescape_written {text : List Char} (written : List.Forall₂ Writes text units) :
    unescape? units.flatten = some text := by
  induction written with
  | nil => rfl
  | cons writes _ ih => rw [flatten_cons, unescape_writes writes, ih, Option.map_some]

theorem first_string {text : String} (written : List.Forall₂ Writes text.toList units)
    (cs : List Char) : first '"' (units.flatten ++ '"' :: cs) =
      (.token (.string text), units.flatten.length + 1) := by
  show quoted _ = _
  unfold quoted
  rw [stringBody_pieces (isPiece_written written)]
  simp only [Nat.add_sub_cancel, take_left, unescape_written written, String.ofList_toList]

end

/-- What is spelled is scanned. Behind a first `>` the text spells the rest: this is used when the
`>` before it is scanned together with it. -/
theorem Spelling.spells {cs : List Char} {kinds : List TokenKind} (spelling : Spelling cs kinds) :
    Spells cs kinds ∧ ∀ rest, cs = '>' :: rest →
      ∃ others, kinds = .symbol .gt :: others ∧ Spells rest others := by
  induction spelling with
  | done => exact ⟨.nil, by simp⟩
  | blank solid _ ih =>
    refine ⟨.blank ?_ ih.1, by simp⟩
    rintro _ ⟨⟩
    exact solid
  | operator s solid _ ih =>
    rename_i c cs kinds _
    obtain ⟨d, _, text, plain, got⟩ := first_operator s (c :: cs)
    refine ⟨.blank ?_ ?_, by simp⟩
    · rw [text]
      rintro _ ⟨⟩
      exact plain
    rw [text]
    refine .append got (.blank ?_ ih.1)
    rintro _ ⟨⟩
    exact solid
  | @word w cs kinds isWord next _ ih =>
    cases w with
    | nil => exact isWord.elim
    | cons =>
      refine ⟨.append (first_word isWord.1 isWord.2 next) ih.1, ?_⟩
      rintro _ ⟨⟩
      exact absurd isWord.1 (by decide)
  | @number n cs kinds fits next _ ih =>
    obtain ⟨d, _, digits, got⟩ := first_number next fits
    rw [digits]
    refine ⟨.append got ih.1, ?_⟩
    rintro _ ⟨⟩
    obtain ⟨e, _, same, digit, -⟩ := toDigits_solid n
    rw [digits] at same
    cases same
    cases digit
  | @string s cs kinds _ ih =>
    have written : List.Forall₂ Writes s.toList (s.toList.map escaped) :=
      forall₂_map_right_iff.mpr (forall₂_same.mpr fun _ _ => .inl rfl)
    rw [flatMap_def]
    refine ⟨.token (first_string written cs) ?_, by simp⟩
    rw [drop_append, drop_of_length_le (by omega)]
    simpa using ih.1
  | @angle cs kinds next _ ih =>
    refine ⟨?_, ?_⟩
    · cases cs with
      | nil => exact .token rfl ih.1
      | cons d ds =>
        by_cases double : d = '>'
        · -- the two are one lexeme, behind which the text spells what is left
          subst double
          obtain ⟨_, rfl, after⟩ := ih.2 ds rfl
          intro _
          have got : first '>' ('>' :: ds) = (.token (.symbol .shr), 1) := rfl
          rw [segments_cons, got]
          exact .two rfl rfl (after _)
        refine .token (first_single rfl (by decide) ?_) ih.1
        rintro _ ⟨⟩
        unfold double?
        split <;> simp_all
    rintro _ ⟨⟩
    exact ⟨kinds, rfl, ih.1⟩
  | symbol single angle slash alone _ ih =>
    refine ⟨.token (first_single single slash alone) ih.1, ?_⟩
    rintro _ ⟨⟩
    exact absurd rfl angle
  | pair double angle _ ih =>
    refine ⟨.token (first_double double) ih.1, ?_⟩
    rintro _ ⟨⟩
    exact absurd rfl angle

end Scan

end Stencil
