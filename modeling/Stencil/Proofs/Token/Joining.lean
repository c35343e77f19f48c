import Stencil.Proofs.Token.Spelling

/-!
Scanning a text piece by piece. A piece that is followed by a blank or a semicolon is cut into the
same tokens whatever comes behind.
-/

namespace Stencil

open List Symbol

namespace Scan

def isSeparator (c : Char) : Bool :=
  c = ' ' || c = '\n' || c = ';'

def Separates (tail : List Char) : Prop :=
  ∀ c ∈ tail.head?, isSeparator c

theorem Separates.nil : Separates [] := by
  rintro _ ⟨⟩

variable {c : Char} {cs : List Char}

theorem Separates.cons (separator : isSeparator c) : Separates (c :: cs) := by
  rintro _ ⟨⟩
  exact separator

theorem Separates.append {cs ds : List Char} (first : Separates cs) (snd : Separates ds) :
    Separates (cs ++ ds) := by
  cases cs with
  | nil => exact snd
  | cons c => exact .cons (first c rfl)

variable {rest : List Char}

section

variable {tail : List Char}

theorem isSeparator_cases (separator : isSeparator c) : c = ' ' ∨ c = '\n' ∨ c = ';' := by
  simpa [isSeparator, or_assoc] using separator

theorem takeWhile_append {p : Char → Bool} (other : ∀ c, isSeparator c → p c = false)
    (separates : Separates tail) : (rest ++ tail).takeWhile p = rest.takeWhile p := by
  induction rest with
  | nil =>
    cases tail with
    | nil => rfl
    | cons c => simp [other c (separates c rfl)]
  | cons c rest ih =>
    simp only [cons_append, takeWhile_cons, ih]

theorem head_append {d : Char} (other : isSeparator d = false) (separates : Separates tail) :
    (rest ++ tail).head? = some d ↔ rest.head? = some d := by
  cases rest with
  | nil =>
    refine ⟨fun head => ?_, fun head => by cases head⟩
    have separator := separates d head
    rw [other] at separator
    cases separator
  | cons => rfl

theorem separator_plain (separator : isSeparator c) :
    c.isDigit = false ∧ isHexDigit c = false ∧ isBit c = false ∧ isWordPart c = false := by
  rcases isSeparator_cases separator with rfl | rfl | rfl <;> decide

theorem takeWhile_digits (separates : Separates tail) :
    (rest ++ tail).takeWhile Char.isDigit = rest.takeWhile Char.isDigit :=
  takeWhile_append (fun _ separator => (separator_plain separator).1) separates

theorem exponentPart_append (separates : Separates tail) :
    exponentPart (rest ++ tail) = exponentPart rest := by
  have digits : ∀ cs, (cs ++ tail).takeWhile Char.isDigit = cs.takeWhile Char.isDigit :=
    fun _ => takeWhile_digits separates
  have none : ∀ {c : Char} {cs : List Char}, c ≠ 'e' → c ≠ 'E' → exponentPart (c :: cs) = none := by
    intro c _ _ _
    unfold exponentPart
    split <;> simp_all
  -- behind the letter, a sign is looked for
  have signed : ∀ c, c = 'e' ∨ c = 'E' → ∀ cs,
      exponentPart (c :: (cs ++ tail)) = exponentPart (c :: cs) := by
    intro c letter cs
    cases cs with
    | nil =>
      cases tail with
      | nil => rfl
      | cons d =>
        have separator := isSeparator_cases (separates d rfl)
        rcases letter with rfl | rfl <;> rcases separator with rfl | rfl | rfl <;> rfl
    | cons d ds =>
    by_cases minus : d = '-'
    · subst minus
      rcases letter with rfl | rfl <;> simp [exponentPart, digits]
    by_cases plus : d = '+'
    · subst plus
      rcases letter with rfl | rfl <;> simp [exponentPart, digits]
    have run := digits (d :: ds)
    rw [cons_append] at run
    rcases letter with rfl | rfl <;> simp [exponentPart, minus, plus, run]
  cases rest with
  | nil =>
    cases tail with
    | nil => rfl
    | cons c =>
      have separator := isSeparator_cases (separates c rfl)
      rcases separator with rfl | rfl | rfl <;> rfl
  | cons c rest =>
  by_cases lower : c = 'e'
  · exact signed c (.inl lower) rest
  by_cases upper : c = 'E'
  · exact signed c (.inr upper) rest
  · rw [cons_append, none lower upper, none lower upper]

theorem length_takeWhile_le (p : Char → Bool) (cs : List Char) :
    (cs.takeWhile p).length ≤ cs.length :=
  ( takeWhile_prefix p).length_le

variable {n : Nat}

theorem exponentPart_length {value : Int}
    (got : exponentPart cs = some (value, n)) : n ≤ cs.length := by
  have bounded : ∀ (negative : Bool) (sign : Nat) (ds : List Char),
      (if (ds.takeWhile Char.isDigit).isEmpty then none
        else some (if negative then -(digitsValue 10 (ds.takeWhile Char.isDigit) : Int)
          else digitsValue 10 (ds.takeWhile Char.isDigit),
          1 + sign + (ds.takeWhile Char.isDigit).length)) = some (value, n) →
      n ≤ 1 + sign + ds.length := by
    intro _ _ ds got
    have le := length_takeWhile_le Char.isDigit ds
    split at got
    · cases got
    cases got
    omega
  unfold exponentPart at got
  split at got
  iterate 2
    split at got
    rename_i behind negative sign ds same
    have le := bounded _ _ _ got
    split at same <;> cases same <;> simp only [length_cons] at le ⊢ <;> omega
  cases got

theorem takeWhile_number (separates : Separates tail) :
    (rest ++ tail).takeWhile (fun d => d.isDigit || d = '_') =
      rest.takeWhile fun d => d.isDigit || d = '_' := by
  refine takeWhile_append (fun c separator => ?_) separates
  rcases isSeparator_cases separator with rfl | rfl | rfl <;> rfl

theorem decimalNumber_append (c : Char) (separates : Separates tail) :
    decimalNumber c (rest ++ tail) = decimalNumber c rest := by
  unfold decimalNumber
  simp only [takeWhile_number separates, length_cons, Nat.add_sub_cancel]
  rw [drop_append_of_le_length (length_takeWhile_le _ _)]
  generalize rest.drop (rest.takeWhile fun d => d.isDigit || d = '_').length = after
  cases after with
  | nil =>
    cases tail with
    | nil => rfl
    | cons d => rcases isSeparator_cases (separates d rfl) with rfl | rfl | rfl <;> rfl
  | cons x more =>
  by_cases point : x = '.'
  · subst point
    cases more with
    | nil =>
      cases tail with
      | nil => rfl
      | cons d =>
        have plain := (separator_plain (separates d rfl)).1
        simp [plain]
    | cons d more =>
    have fraction : (d :: more ++ tail).takeWhile (fun d => d.isDigit || d = '_') =
        (d :: more).takeWhile fun d => d.isDigit || d = '_' :=
      takeWhile_number separates
    rw [cons_append] at fraction
    have exponent : exponentPart ((d :: (more ++ tail)).drop
        ((d :: more).takeWhile fun d => d.isDigit || d = '_').length) =
        exponentPart ((d :: more).drop
          ((d :: more).takeWhile fun d => d.isDigit || d = '_').length) := by
      rw [← cons_append, drop_append_of_le_length (length_takeWhile_le _ _)]
      exact exponentPart_append separates
    simp only [cons_append, drop_succ_cons, drop_zero, fraction, fractional,
      Nat.add_comm 1, exponent]
  have other : ∀ cs, ∀ d ds, x :: cs ≠ '.' :: d :: ds := by
    intro _ d _ same
    exact point (List.cons.inj same).1
  split
  · rename_i same
    exact absurd same (other _ _ _)
  split
  · rename_i same
    exact absurd same (other _ _ _)
  · rfl

theorem decimalNumber_length (c : Char) (rest : List Char) :
    (decimalNumber c rest).2 ≤ rest.length := by
  unfold decimalNumber
  have digits := length_takeWhile_le (fun d => d.isDigit || d = '_') rest
  simp only [length_cons, Nat.add_sub_cancel]
  generalize run : (rest.takeWhile fun d => d.isDigit || d = '_').length = k at digits
  have left : (rest.drop k).length = rest.length - k := length_drop
  generalize rest.drop k = after at left
  split
  · split
    · rename_i d more digit
      have fraction := length_takeWhile_le (fun d => d.isDigit || d = '_') (d :: more)
      simp only [drop_succ_cons, drop_zero, length_cons, Nat.add_comm 1] at left ⊢
      generalize (d :: more).takeWhile (fun d => d.isDigit || d = '_') = got at fraction
      have exponent : (fractional (c :: rest.takeWhile fun d => d.isDigit || d = '_') got
          ((d :: more).drop got.length)).2 ≤ ((d :: more).drop got.length).length := by
        unfold fractional
        cases part : exponentPart ((d :: more).drop got.length) with
        | none => exact Nat.zero_le _
        | some => exact exponentPart_length part
      rw [length_drop] at exponent
      simp only [length_cons] at exponent fraction
      omega
    · exact digits
  · exact digits

theorem number_append (c : Char) (separates : Separates tail) :
    number c (rest ++ tail) = number c rest := by
  have decimal : decimalNumber c (rest ++ tail) = decimalNumber c rest :=
    decimalNumber_append c separates
  cases rest with
  | nil =>
    rw [nil_append] at decimal ⊢
    cases tail with
    | nil => rfl
    | cons d ds =>
      have other : number c (d :: ds) = decimalNumber c (d :: ds) := by
        rcases isSeparator_cases (separates d rfl) with rfl | rfl | rfl <;> rfl
      exact other.trans decimal
  | cons x more =>
  cases more with
  | nil =>
    cases tail with
    | nil => rfl
    | cons d ds =>
    obtain ⟨-, _, _, -⟩ := separator_plain (separates d rfl)
    have alone : number c [x] = decimalNumber c [x] := by
      unfold number
      split <;> first | rfl | simp_all
    have followed : number c ([x] ++ d :: ds) = decimalNumber c ([x] ++ d :: ds) := by
      unfold number
      split <;> simp_all
    rw [alone, followed, decimal]
  | cons d more =>
  have based : ∀ base isDigit mark, (∀ e, isSeparator e → isDigit e = false) →
      basedNumber base isDigit c mark (x :: d :: (more ++ tail)) =
        basedNumber base isDigit c mark (x :: d :: more) := by
    intro _ isDigit _ other
    have run : (d :: more ++ tail).takeWhile (fun e => isDigit e || e = '_') =
        (d :: more).takeWhile fun e => isDigit e || e = '_' := by
      refine takeWhile_append (fun e separator => ?_) separates
      rcases isSeparator_cases separator with rfl | rfl | rfl <;> simp [other _ separator]
    rw [cons_append] at run
    unfold basedNumber
    simp only [drop_succ_cons, drop_zero, run]
  have hexBased := based 16 isHexDigit 'x' fun e separator => (separator_plain separator).2.1
  have bitBased := based 2 isBit 'b' fun e separator => (separator_plain separator).2.2.1
  rw [cons_append, cons_append] at decimal ⊢
  by_cases hex : x = 'x'
  · subst hex
    unfold number
    rw [hexBased, decimal]
    rfl
  by_cases bit : x = 'b'
  · subst bit
    unfold number
    rw [bitBased, decimal]
    rfl
  have plain : ∀ cs, number c (x :: cs) = decimalNumber c (x :: cs) :=
    fun _ => number_decimal (by simpa using hex) (by simpa using bit)
  rw [plain, plain, decimal]

theorem number_length (c : Char) (rest : List Char) : (number c rest).2 ≤ rest.length := by
  have based : ∀ base isDigit mark more, (basedNumber base isDigit c mark (mark :: more)).2 ≤
      (mark :: more).length := by
    intro _ isDigit _ more
    have le := length_takeWhile_le (fun d => isDigit d || d = '_') more
    simpa [basedNumber] using le
  unfold number
  split
  · split
    · exact based _ _ _ _
    · exact decimalNumber_length c _
  · split
    · exact based _ _ _ _
    · exact decimalNumber_length c _
  · exact decimalNumber_length c _

theorem symbolic_append (c : Char) (separates : Separates tail) :
    symbolic c (rest ++ tail) = symbolic c rest := by
  have pair : (rest ++ tail).head?.bind (double? c) = rest.head?.bind (double? c) := by
    cases rest with
    | cons => rfl
    | nil =>
    cases tail with
    | nil => rfl
    | cons d =>
    have none : double? c d = none := by
      unfold double?
      rcases isSeparator_cases (separates d rfl) with rfl | rfl | rfl <;> split <;> simp_all
    exact none
  unfold symbolic
  rw [pair]

theorem symbolic_length (c : Char) (rest : List Char) : (symbolic c rest).2 ≤ rest.length := by
  unfold symbolic
  split
  · rename_i got
    cases rest with
    | nil => cases got
    | cons => simp
  · split <;> exact Nat.zero_le _

theorem stringBody_closed (closed : stringBody rest = (true, n)) (tail : List Char) :
    stringBody (rest ++ tail) = (true, n) ∧ n ≤ rest.length := by
  fun_induction stringBody rest generalizing n with
  | case1 | case3 | case4 => cases closed
  | case2 => cases closed; exact ⟨rfl, by simp⟩
  | case5 c cs other inner m body ih =>
    cases closed
    obtain ⟨same, le⟩ := ih body
    simp [stringBody, other, same, le]
  | case6 c cs quote lone escape inner m body ih =>
  cases closed
  obtain ⟨same, le⟩ := ih body
  have plain : c ≠ '\\' := by
    rintro rfl
    cases cs with
    | nil => exact lone rfl rfl
    | cons d ds => exact escape d ds rfl rfl
  simp [stringBody, plain, same, le]

theorem stringBody_plain (plain : '"' ∉ cs) : (stringBody cs).1 = false := by
  fun_induction stringBody cs with
  | case1 | case3 | case4 => rfl
  | case2 => simp at plain
  | case5 c cs other closed m body ih =>
    rw [body] at ih
    exact ih fun mem => plain (.tail _ (.tail _ mem))
  | case6 c cs quote lone escape closed m body ih =>
    rw [body] at ih
    exact ih fun mem => plain (.tail _ mem)

theorem stringBody_open (isOpen : stringBody rest = (false, n)) {tail : List Char}
    (plain : '"' ∉ tail) : (stringBody (rest ++ tail)).1 = false := by
  fun_induction stringBody rest generalizing n with
  | case1 => exact stringBody_plain plain
  | case2 => cases isOpen
  | case3 => exact stringBody_plain (by simpa using plain)
  | case4 => rfl
  | case5 c cs other inner m body ih =>
    cases isOpen
    simpa [stringBody, other] using ih body
  | case6 c cs quote lone escape inner m body ih =>
  cases isOpen
  have plain : c ≠ '\\' := by
    rintro rfl
    cases cs with
    | nil => exact lone rfl rfl
    | cons d ds => exact escape d ds rfl rfl
  simpa [stringBody, quote, plain] using ih body

theorem commentBody_plain (plain : '/' ∉ cs) : (commentBody cs).1 = false := by
  fun_induction commentBody cs with
  | case1 | case2 => rfl
  | case3 => simp at plain
  | case4 c cs other closed m body ih =>
    rw [body] at ih
    exact ih fun mem => plain (.tail _ (.tail _ mem))
  | case5 c cs lone slash star closed m body ih =>
    rw [body] at ih
    exact ih fun mem => plain (.tail _ mem)

theorem commentBody_open (isOpen : commentBody rest = (false, n)) {tail : List Char}
    (plain : '/' ∉ tail) : (commentBody (rest ++ tail)).1 = false := by
  fun_induction commentBody rest generalizing n with
  | case1 => exact commentBody_plain plain
  | case2 => exact commentBody_plain (by simpa using plain)
  | case3 => cases isOpen
  | case4 c cs other inner m body ih =>
    cases isOpen
    simpa [commentBody, other] using ih body
  | case5 c cs lone slash star inner m body ih =>
  cases isOpen
  have plain : c ≠ '*' := by
    rintro rfl
    cases cs with
    | nil => exact lone rfl rfl
    | cons d ds => exact star d ds rfl rfl
  simpa [commentBody, plain] using ih body

/-- The content of a piece in a longer text: a token stays the token that it is before any
separator, and a fault stays one before a brace. -/
def Stays (piece : List Char → Content × Nat) (rest : List Char) : Prop :=
  (∃ kind n, n ≤ rest.length ∧ ∀ tail, Separates tail → piece (rest ++ tail) = (.token kind, n)) ∨
    ∃ problem, (piece (rest ++ [' ', '\x7d'])).1 = .fault problem

theorem Stays.of_local {piece : List Char → Content × Nat} (kept : (piece rest).1 ≠ .skipped)
    (same : ∀ tail, Separates tail → piece (rest ++ tail) = piece rest)
    (le : (piece rest).2 ≤ rest.length) : Stays piece rest := by
  cases content : (piece rest).1 with
  | skipped => exact absurd content kept
  | token kind =>
    refine .inl ⟨kind, (piece rest).2, le, fun tail separates => ?_⟩
    rw [same tail separates, ← content]
  | fault problem =>
    refine .inr ⟨problem, ?_⟩
    rw [same _ (.cons rfl), content]

theorem Stays.congr {piece piece' : List Char → Content × Nat} (stays : Stays piece' rest)
    (same : ∀ tail, Separates tail → piece (rest ++ tail) = piece' (rest ++ tail)) :
    Stays piece rest := by
  rcases stays with ⟨kind, n, le, got⟩ | ⟨problem, got⟩
  · refine .inl ⟨kind, n, le, fun tail separates => ?_⟩
    rw [same tail separates, got tail separates]
  · exact .inr ⟨problem, by rw [same _ (.cons rfl), got]⟩

theorem quoted_stays (rest : List Char) : Stays quoted rest := by
  cases body : stringBody rest with
  | mk closed n =>
  cases closed with
  | false =>
    have isOpen := stringBody_open body (by decide : '"' ∉ [' ', '\x7d'])
    refine .inr ?_
    unfold quoted
    split
    · exact ⟨_, rfl⟩
    rename_i got
    rw [got] at isOpen
    cases isOpen
  | true =>
  have le := (stringBody_closed body []).2
  have same : ∀ tail, quoted (rest ++ tail) = quoted rest := by
    intro tail
    have take : ∀ m ≤ rest.length, (rest ++ tail).take m = rest.take m :=
      fun m le => List.take_append_of_le_length le
    unfold quoted
    rw [(stringBody_closed body tail).1, body]
    simp only [take n le, take (n - 1) (by omega)]
  have bounded : (quoted rest).2 = n ∧ (quoted rest).1 ≠ .skipped := by
    unfold quoted
    rw [body]
    simp only
    split <;> simp
  exact .of_local bounded.2 (fun tail _ => same tail) (bounded.1 ▸ le)

theorem blockComment_stays (star : rest.head? = some '*')
    (kept : (blockComment rest).1 ≠ .skipped) : Stays blockComment rest := by
  obtain ⟨body, rfl⟩ := List.head?_eq_some_iff.mp star
  refine .inr ?_
  cases got : commentBody body with
  | mk closed n =>
  cases closed with
  | true => simp [blockComment, got] at kept
  | false =>
  have isOpen := commentBody_open got (by decide : '/' ∉ [' ', '\x7d'])
  unfold blockComment
  split
  · rename_i closed
    rw [List.cons_append, List.drop_succ_cons, List.drop_zero] at closed
    rw [closed] at isOpen
    cases isOpen
  · exact ⟨_, rfl⟩

/-- A piece that is no blank and no comment stays what it is. -/
theorem first_stays (solid : isBlank c = false)
    (kept : (first c rest).1 ≠ .skipped) : Stays (first c) rest := by
  -- what makes a comment of a slash is no separator, so a slash before one stays a slash
  have behind : ∀ d, isSeparator d = false → ∀ tail, Separates tail →
      (c = '/' && (rest ++ tail).head? = some d) = (c = '/' && rest.head? = some d) := by
    intro d other tail separates
    simp only [head_append other separates]
  have slash := behind '/' rfl
  have star := behind '*' rfl
  have self : first c (rest ++ []) = first c rest := by rw [List.append_nil]
  by_cases line : (c = '/' && rest.head? = some '/')
  · exact absurd (by simp [first, solid, line]) kept
  by_cases block : (c = '/' && rest.head? = some '*')
  · have same : ∀ tail, Separates tail → first c (rest ++ tail) = blockComment (rest ++ tail) := by
      intro tail separates
      simp only [first, solid, slash tail separates, star tail separates, line, block]
      rfl
    have starts : rest.head? = some '*' := by simp_all
    rw [← self, same [] .nil, List.append_nil] at kept
    exact (blockComment_stays starts kept).congr same
  by_cases quote : c = '"'
  · have same : ∀ tail, Separates tail → first c (rest ++ tail) = quoted (rest ++ tail) := by
      intro tail separates
      subst quote
      rfl
    exact (quoted_stays rest).congr same
  by_cases digit : c.isDigit
  · have same : ∀ tail, Separates tail → first c (rest ++ tail) = number c (rest ++ tail) := by
      intro tail separates
      simp only [first, solid, slash tail separates, star tail separates, line, block, quote, digit]
      rfl
    rw [← self, same [] .nil, append_nil] at kept
    exact (Stays.of_local kept (fun _ => number_append c) (number_length c rest)).congr same
  by_cases word : isWordStart c
  · refine .inl ⟨.ofWord (.ofList (c :: rest.takeWhile isWordPart)),
      (rest.takeWhile isWordPart).length, length_takeWhile_le _ _, fun tail separates => ?_⟩
    have run : (rest ++ tail).takeWhile isWordPart = rest.takeWhile isWordPart :=
      takeWhile_append (fun _ separator => (separator_plain separator).2.2.2) separates
    simp only [first, solid, slash tail separates, star tail separates, line, block, quote, digit,
      word, run]
    rfl
  have same : ∀ tail, Separates tail → first c (rest ++ tail) = symbolic c (rest ++ tail) := by
    intro tail separates
    simp only [first, solid, slash tail separates, star tail separates, line, block, quote, digit,
      word]
    rfl
  rw [← self, same [] .nil, append_nil] at kept
  exact (Stays.of_local kept (fun _ => symbolic_append c) (symbolic_length c rest)).congr same

end

def commentFree (text : List Char) : Bool :=
  (segments text).all fun s => s.content ≠ .skipped || s.text.all isBlank

def mark (t : Token) : TokenKind × Bool :=
  (t.kind, t.newlineBefore)

inductive Spelled : Bool → List Char → List (TokenKind × Bool) → Bool → Prop
  | nil {newline : Bool} : Spelled newline [] [] newline
  | blank {newline last : Bool} {c : Char} {text : List Char} {marks : List (TokenKind × Bool)} :
      isBlank c → Spelled (newline || c = '\n') text marks last →
      Spelled newline (c :: text) marks last
  | token {newline last : Bool} {c : Char} {word text : List Char} {kind : TokenKind}
      {marks : List (TokenKind × Bool)} :
      isBlank c = false →
      (∀ tail, Separates tail → first c (word ++ (text ++ tail)) = (.token kind, word.length)) →
      Spelled false text marks last →
      Spelled newline (c :: (word ++ text)) ((kind, newline) :: marks) last

theorem segments_blank (blank : isBlank c) (text : List Char) :
    segments (c :: text) =
      ⟨c :: text.takeWhile isBlank, .skipped⟩ :: segments (text.dropWhile isBlank) := by
  have got : first c text = (.skipped, (text.takeWhile isBlank).length) := by simp [first, blank]
  rw [segments_cons, got]
  simp only [take_takeWhile, drop_takeWhile]

theorem lexemesFrom_blank (blank : isBlank c) (offset : Nat) (newline : Bool)
    (text : List Char) : lexemesFrom offset newline (segments (c :: text)) =
      lexemesFrom (offset + c.utf8Size) (newline || c = '\n') (segments text) := by
  rw [segments_blank blank]
  cases text with
  | nil => simp [lexemesFrom, segments, byteLength, eq_comm]
  | cons d =>
  by_cases more : isBlank d
  · rw [segments_blank more]
    simp [lexemesFrom, byteLength, more, Nat.add_assoc, Bool.or_assoc, eq_comm]
  · simp [lexemesFrom, byteLength, more, eq_comm]

theorem lexemesFrom_token {word text : List Char} {kind : TokenKind}
    (got : first c (word ++ text) = (.token kind, word.length)) (offset : Nat) (newline : Bool) :
    lexemesFrom offset newline (segments (c :: (word ++ text))) =
      .token ⟨kind, ⟨offset, offset + byteLength (c :: word)⟩, newline⟩ ::
        lexemesFrom (offset + byteLength (c :: word)) false (segments text) := by
  rw [segments_cons, got]
  simp [lexemesFrom]

namespace Spelled

variable {newline last : Bool} {text tail : List Char} {marks : List (TokenKind × Bool)}

theorem cut (spelled : Spelled newline text marks last) (separates : Separates tail)
    (offset : Nat) : ∃ tokens : List Token, tokens.map mark = marks ∧
      lexemesFrom offset newline (segments (text ++ tail)) = tokens.map .token ++
        lexemesFrom (offset + byteLength text) last (segments tail) := by
  induction spelled generalizing offset with
  | nil => exact ⟨[], rfl, rfl⟩
  | @blank newline last c text marks blank spelled ih =>
    obtain ⟨tokens, same, split⟩ := ih (offset + c.utf8Size)
    refine ⟨tokens, same, ?_⟩
    rw [cons_append, lexemesFrom_blank blank, split, byteLength, Nat.add_assoc]
  | @token newline last c word text kind marks solid got spelled ih =>
  obtain ⟨tokens, same, split⟩ := ih (offset + byteLength (c :: word))
  refine ⟨⟨kind, ⟨offset, offset + byteLength (c :: word)⟩, newline⟩ :: tokens,
    by simp [same, mark], ?_⟩
  rw [cons_append, append_assoc, lexemesFrom_token (got tail separates), split,
    Nat.add_assoc, ← byteLength_append]
  rfl

theorem append {middle : Bool} {more : List Char} {further : List (TokenKind × Bool)}
    (first : Spelled newline text marks middle) (separates : Separates more)
    (snd : Spelled middle more further last) :
    Spelled newline (text ++ more) (marks ++ further) last := by
  induction first with
  | nil => exact snd
  | blank blank _ ih => exact .blank blank (ih snd)
  | token solid got _ ih =>
  rw [cons_append, append_assoc]
  refine .token solid (fun _ closes => ?_) (ih snd)
  rw [append_assoc]
  exact got _ (separates.append closes)

theorem newLine {kind : TokenKind} {flag : Bool}
    (spelled : Spelled newline text ((kind, flag) :: marks) last) :
    Spelled true text ((kind, true) :: marks) last := by
  generalize whole : (kind, flag) :: marks = all at spelled
  induction spelled with
  | nil => cases whole
  | blank blank spelled ih => exact .blank blank (ih whole)
  | token solid got spelled =>
    cases whole
    exact .token solid got spelled

end Spelled

theorem commentFree_blank (blank : isBlank c)
    (free : commentFree (c :: rest)) : commentFree rest := by
  unfold commentFree at free ⊢
  rw [segments_blank blank, all_cons, Bool.and_eq_true] at free
  cases rest with
  | nil => exact free.2
  | cons d =>
  by_cases more : isBlank d
  · rw [segments_blank more]
    simpa [more] using free.2
  · simpa [more] using free.2

theorem exists_spelled (text : List Char) (free : commentFree text) (offset : Nat)
    (newline : Bool) (faultless : ∀ d,
      Lexeme.fault d ∉ lexemesFrom offset newline (segments (text ++ [' ', '\x7d']))) :
    ∃ marks last, Spelled newline text marks last := by
  match text with
  | [] => exact ⟨[], newline, .nil⟩
  | c :: rest =>
    by_cases blank : isBlank c
    · rw [cons_append, lexemesFrom_blank blank] at faultless
      obtain ⟨marks, last, spelled⟩ :=
        exists_spelled rest (commentFree_blank blank free) _ _ faultless
      exact ⟨marks, last, .blank blank spelled⟩
    have solid : isBlank c = false := by simpa using blank
    have parts := segments_cons c rest
    unfold commentFree at free
    rw [parts, all_cons, Bool.and_eq_true] at free
    have kept : (first c rest).1 ≠ .skipped := by
      intro skipped
      simp [skipped, solid] at free
    rcases first_stays solid kept with ⟨kind, n, le, got⟩ | ⟨problem, got⟩
    · have same : first c rest = (.token kind, n) := by simpa using got [] .nil
      have whole : rest = rest.take n ++ rest.drop n := (take_append_drop n rest).symm
      have length := length_take_of_le le
      have found' : ∀ tail, Separates tail →
          first c (rest.take n ++ (rest.drop n ++ tail)) = (.token kind, (rest.take n).length) := by
        intro tail separates
        rw [← append_assoc, ← whole, length, got tail separates]
      have next := lexemesFrom_token (found' [' ', '\x7d'] (.cons rfl)) offset newline
      rw [← append_assoc, ← whole] at next
      rw [cons_append, next] at faultless
      rw [same] at free
      obtain ⟨marks, last, spelled⟩ := exists_spelled (rest.drop n) free.2 _ _
        fun d mem => faultless d (.tail _ mem)
      refine ⟨(kind, newline) :: marks, last, ?_⟩
      rw [whole]
      exact .token solid found' spelled
    refine absurd ?_ (faultless (problem.at ⟨offset, offset + byteLength (c ::
      (rest ++ [' ', '\x7d']).take (first c (rest ++ [' ', '\x7d'])).2)⟩))
    rw [cons_append, segments_cons, got]
    exact .head _
termination_by text.length

theorem first_semicolon (rest : List Char) : first ';' rest = (.token (.symbol .semicolon), 0) := by
  cases rest <;> rfl

theorem lexemesFrom_space (offset : Nat) (newline : Bool) (text : List Char) :
    lexemesFrom offset newline (segments (' ' :: text)) =
      lexemesFrom (offset + 1) newline (segments text) := by
  rw [lexemesFrom_blank rfl, show (newline || decide (' ' = '\n')) = newline by simp]
  rfl

theorem lexemes_braced (text : List Char) : ∃ opening, opening.kind = .symbol .lbrace ∧
    lexemes ('\x7b' :: ' ' :: (text ++ [' ', '\x7d'])) =
      .token opening :: lexemesFrom 2 false (segments (text ++ [' ', '\x7d'])) := by
  have got : first '\x7b' ([] ++ ' ' :: (text ++ [' ', '\x7d'])) =
      (.token (.symbol .lbrace), ([] : List Char).length) := rfl
  have step := lexemesFrom_token got 0 false
  rw [lexemesFrom_space] at step
  exact ⟨⟨.symbol .lbrace, ⟨0, 1⟩, false⟩, rfl, step⟩

theorem Spelled.braced {text : List Char} {marks : List (TokenKind × Bool)} {last : Bool}
    (spelled : Spelled false text marks last) :
    ∃ (opening : Token) (tokens : List Token) (close stop : Token),
      lexemes ('\x7b' :: ' ' :: (text ++ [' ', '\x7d'])) =
        .token opening :: (tokens.map .token ++ [.token close, .token stop]) ∧
      opening.kind = .symbol .lbrace ∧ tokens.map mark = marks ∧
      close.kind = .symbol .rbrace ∧ stop.kind = .eof := by
  obtain ⟨opening, opens, whole⟩ := lexemes_braced text
  obtain ⟨tokens, same, split⟩ := spelled.cut (.cons rfl : Separates [' ', '\x7d']) 2
  have got : first '\x7d' ([] ++ []) = (.token (.symbol .rbrace), ([] : List Char).length) := rfl
  have closing := lexemesFrom_token got (2 + byteLength text + 1) last
  rw [segments, lexemesFrom] at closing
  rw [append_nil] at closing
  rw [lexemesFrom_space, closing] at split
  exact ⟨opening, tokens, _, _, whole.trans (congrArg (.token opening :: ·) split), opens, same,
    rfl, rfl⟩

end Scan

end Stencil
