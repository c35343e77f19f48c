import Stencil.Proofs.Token.Spelling
import Stencil.Syntax.Expr

namespace Stencil

open TokenKind List Symbol Function
open String (toList_append ofList_toList)

theorem eq_map {α β : Type} {f : α → β} {g : List α → List β} (nil : g [] = [])
    (cons : ∀ x xs, g (x :: xs) = f x :: g xs) (xs : List α) : g xs = xs.map f := by
  induction xs with
  | nil => exact nil
  | cons x xs ih => rw [cons, ih, map_cons]

def IsName (name : String) : Prop :=
  Scan.IsWord name.toList ∧ ofWord name = .identifier name

namespace TypeSyntax

def isReference : TypeSyntax → Bool
  | reference _ _ => true
  | _ => false

/-- The names in a type are names, and its array lengths fit 64 bits. -/
inductive Legible : TypeSyntax → Prop
  | primitive {p : Primitive} {span : Span} : Legible (primitive p span)
  | self {span : Span} : Legible (self span)
  | named {first : String} {more : List String} {args : List TypeSyntax} {span : Span} :
    (∀ name ∈ first :: more, IsName name) → (∀ t ∈ args, Legible t) →
    Legible (named (first :: more) args span)
  | array {element : TypeSyntax} {length : Nat} {span : Span} : Legible element →
    length < Nat.pow 2 64 → Legible (array element length span)
  | reference {target : TypeSyntax} {span : Span} : Legible target →
    Legible (reference target span)
  | function {params : List TypeSyntax} {result : Option TypeSyntax} {span : Span} :
    (∀ t ∈ params, Legible t) → (∀ t ∈ result, Legible t) → Legible (function params result span)

mutual

/-- Whether no reference is directly to a reference. -/
def isSingle : TypeSyntax → Bool
  | primitive _ _ | self _ => true
  | named _ args _ => areSingle args
  | array elem _ _ => isSingle elem
  | reference target _ => !target.isReference && isSingle target
  | function params result _ => areSingle params && resultIsSingle result

def areSingle : List TypeSyntax → Bool
  | [] => true
  | t :: ts => isSingle t && areSingle ts

def resultIsSingle : Option TypeSyntax → Bool
  | none => true
  | some t => isSingle t

end

theorem areSingle_iff {ts : List TypeSyntax} : areSingle ts ↔ ∀ t ∈ ts, t.isSingle := by
  induction ts with
  | nil => simp [areSingle]
  | cons t ts ih => simp [areSingle, ih]

/-- A type that can be read back from its text. Since `&&` is one token, no reference in it is
directly to a reference. -/
def Printable (t : TypeSyntax) : Prop :=
  t.Legible ∧ t.isSingle

def pathTokens : List String → List TokenKind
  | [] => []
  | fst :: more => .identifier fst :: more.flatMap fun name => [.symbol .dot, .identifier name]

def commas (items : List (List TokenKind)) : List TokenKind :=
  [TokenKind.symbol .comma].intercalate items

mutual

/-- The tokens of a type. Two marks of references are one token. -/
def tokens : TypeSyntax → List TokenKind
  | primitive p _ => [.primitive p]
  | self _ => [.keyword .kwSelfType]
  | named path args _ => pathTokens path ++
    if args.isEmpty then [] else .symbol .lt :: (commas (tokensOf args) ++ [.symbol .gt])
  | array elem length _ =>
    .symbol .lbracket :: (tokens elem ++
      [.symbol .semicolon, .int (.ofNat length), .symbol .rbracket])
  | reference (reference target _) _ => .symbol .andAnd :: tokens target
  | reference target _ => .symbol .amp :: tokens target
  | function params result _ => .keyword .kwFunc :: .symbol .lparen ::
    (commas (tokensOf params) ++ .symbol .rparen :: resultTokens result)

def tokensOf : List TypeSyntax → List (List TokenKind)
  | [] => []
  | t :: ts => tokens t :: tokensOf ts

def resultTokens : Option TypeSyntax → List TokenKind
  | none => []
  | some t => .symbol .fatArrow :: tokens t

end

theorem tokens_reference {target : TypeSyntax} (single : target.isReference = false) (span : Span) :
    (reference target span).tokens = .symbol .amp :: target.tokens := by
  cases target <;> first | rfl | cases single

theorem tokensOf_eq_map (ts : List TypeSyntax) : tokensOf ts = ts.map tokens :=
  eq_map rfl (fun _ _ => rfl) ts

theorem texts_eq_map (ts : List TypeSyntax) : texts ts = ts.map text :=
  eq_map rfl (fun _ _ => rfl) ts

theorem bares_eq_map (ts : List TypeSyntax) : bares ts = ts.map bare :=
  eq_map rfl (fun _ _ => rfl) ts

end TypeSyntax

def labelText : Option String → String
  | none => ""
  | some name => name ++ ": "

def labelTokens : Option String → List TokenKind
  | none => []
  | some name => [.identifier name, .symbol .colon]

def quotedText (s : String) : String :=
  "\"" ++ String.ofList (s.toList.flatMap Scan.escaped) ++ "\""

def UnaryOp.symbol : UnaryOp → Symbol
  | neg => .minus
  | not => .bang
  | bitNot => .tilde

def grouped (tokens : List TokenKind) : List TokenKind :=
  .symbol .lparen :: (tokens ++ [.symbol .rparen])

namespace Expr

open TypeSyntax (commas)

mutual

/-- An expression on one line, with each part that is an expression in parentheses. -/
def text : Expr → String
  | int value _ => toString value.toNat
  | float value _ => FloatLayout.source.write value
  | bool value _ => if value then "true" else "false"
  | string value _ => quotedText value
  | array items _ => "[" ++ ", ".intercalate (groupTexts items) ++ "]"
  | initializer entries _ => "\x7b" ++ ", ".intercalate (entryTexts entries) ++ "\x7d"
  | identifier name _ => name
  | member object name _ _ => "(" ++ text object ++ ")." ++ name
  | call callee args _ => "(" ++ text callee ++ ")(" ++ ", ".intercalate (groupTexts args) ++ ")"
  | index base position _ => "(" ++ text base ++ ")[(" ++ text position ++ ")]"
  | binary op left right _ => "(" ++ text left ++ ") " ++ op.text ++ " (" ++ text right ++ ")"
  | unary op arg _ => op.text ++ "(" ++ text arg ++ ")"
  | addressOf arg _ => "&(" ++ text arg ++ ")"
  | deref arg _ => "*(" ++ text arg ++ ")"
  | cast arg type _ => "(" ++ text arg ++ ") as " ++ type.text

def groupTexts : List Expr → List String
  | [] => []
  | e :: es => ("(" ++ text e ++ ")") :: groupTexts es

def entryTexts : List (Entry Expr) → List String
  | [] => []
  | e :: es => (labelText e.name ++ "(" ++ text e.value ++ ")") :: entryTexts es

end

mutual

/-- An expression that can be read back from its text: there are no floating-point literals in it,
and its names are names, or `self` where that may stand. -/
def Printable : Expr → Prop
  | int _ _ | bool _ _ | string _ _ => True
  | float _ _ => False
  | array items _ => AllPrintable items
  | initializer entries _ => EntriesPrintable entries
  | identifier name _ => IsName name ∨ name = "self"
  | member object name _ _ => Printable object ∧ IsName name
  | call callee args _ => Printable callee ∧ AllPrintable args
  | index base position _ => Printable base ∧ Printable position
  | binary _ left right _ => Printable left ∧ Printable right
  | unary _ arg _ | addressOf arg _ | deref arg _ => Printable arg
  | cast arg type _ => Printable arg ∧ type.Printable

def AllPrintable : List Expr → Prop
  | [] => True
  | e :: es => Printable e ∧ AllPrintable es

def EntriesPrintable : List (Entry Expr) → Prop
  | [] => True
  | e :: es => ((∀ name ∈ e.name, IsName name) ∧ Printable e.value) ∧ EntriesPrintable es

end

mutual

def tokens : Expr → List TokenKind
  | int value _ => [.int value]
  | float value _ => [.float value]
  | bool value _ => [.keyword (if value then .kwTrue else .kwFalse)]
  | string value _ => [.string value]
  | array items _ => .symbol .lbracket :: (commas (groups items) ++ [.symbol .rbracket])
  | initializer entries _ => .symbol .lbrace :: (commas (entryTokens entries) ++ [.symbol .rbrace])
  | identifier name _ => [.ofWord name]
  | member object name _ _ => grouped (tokens object) ++ [.symbol .dot, .identifier name]
  | call callee args _ =>
    grouped (tokens callee) ++ .symbol .lparen :: (commas (groups args) ++ [.symbol .rparen])
  | index base position _ =>
    grouped (tokens base) ++ .symbol .lbracket :: (grouped (tokens position) ++ [.symbol .rbracket])
  | binary op left right _ => grouped (tokens left) ++ .symbol op.symbol :: grouped (tokens right)
  | unary op arg _ => .symbol op.symbol :: grouped (tokens arg)
  | addressOf arg _ => .symbol .amp :: grouped (tokens arg)
  | deref arg _ => .symbol .star :: grouped (tokens arg)
  | cast arg type _ => grouped (tokens arg) ++ .keyword .kwAs :: type.tokens

def groups : List Expr → List (List TokenKind)
  | [] => []
  | e :: es => grouped (tokens e) :: groups es

def entryTokens : List (Entry Expr) → List (List TokenKind)
  | [] => []
  | e :: es => (labelTokens e.name ++ grouped (tokens e.value)) :: entryTokens es

end

end Expr

namespace Entry

def text (e : Entry Expr) : String :=
  labelText e.name ++ "(" ++ e.value.text ++ ")"

def tokens (e : Entry Expr) : List TokenKind :=
  labelTokens e.name ++ grouped e.value.tokens

def bare (e : Entry Expr) : Entry Expr :=
  { name := e.name, value := e.value.bare, span := {} }

end Entry

namespace Expr

theorem groupTexts_eq_map (es : List Expr) : groupTexts es = es.map fun e => "(" ++ e.text ++ ")" :=
  eq_map rfl (fun _ _ => rfl) es

theorem groups_eq_map (es : List Expr) : groups es = es.map fun e => grouped e.tokens :=
  eq_map rfl (fun _ _ => rfl) es

theorem bares_eq_map (es : List Expr) : bares es = es.map bare :=
  eq_map rfl (fun _ _ => rfl) es

theorem entryTexts_eq_map (es : List (Entry Expr)) : entryTexts es = es.map Entry.text :=
  eq_map rfl (fun _ _ => rfl) es

theorem entryTokens_eq_map (es : List (Entry Expr)) : entryTokens es = es.map Entry.tokens :=
  eq_map rfl (fun _ _ => rfl) es

theorem bareEntries_eq_map (es : List (Entry Expr)) : bareEntries es = es.map Entry.bare :=
  eq_map rfl (fun _ _ => rfl) es

theorem bare_withSpan (e : Expr) (span : Span) : (e.withSpan span).bare = e.bare := by
  cases e <;> rfl

end Expr

open Scan

def closers : List Char := [')', '>', ',', ';', ']', '\x7d']

def Closes (cs : List Char) : Prop :=
  ∀ c ∈ cs.head?, c ∈ closers

def Solid (text : List Char) : Prop :=
  ∃ c rest, text = c :: rest ∧ isBlank c = false

structure Written (text : List Char) (kinds : List TokenKind) : Prop where
  spelling : ∀ {cs others}, Closes cs → Spelling cs others → Spelling (text ++ cs) (kinds ++ others)

variable {c : Char}

namespace Closes

variable {cs : List Char}

theorem of_cons (closes : c ∈ closers) : Closes (c :: cs) := by
  rintro _ ⟨⟩
  exact closes

theorem notNumber (closes : Closes cs) : ∀ c ∈ cs.head?, isWordPart c = false ∧ c ≠ '.' := by
  have each : ∀ c ∈ closers, isWordPart c = false ∧ c ≠ '.' := by
    simp [closers]
    decide
  exact fun c head => each c (closes c head)

theorem notWord (closes : Closes cs) : ∀ c ∈ cs.head?, isWordPart c = false :=
  fun c head => (closes.notNumber c head).1

theorem notEqual (closes : Closes cs) : cs.head? ≠ some '=' :=
  fun head => absurd (closes _ head) (by decide)

end Closes

namespace Scan.Spelling

variable {cs : List Char} {kinds : List TokenKind}

section

variable (spelling : Spelling cs kinds)
include spelling

theorem bracket {s : Symbol} (single : single? c = some s) (plain : ∀ d, double? c d = none)
    (angle : c ≠ '>' ∧ c ≠ '/') : Spelling (c :: cs) (.symbol s :: kinds) :=
  symbol single angle.1 angle.2 (fun d _ => plain d) spelling

theorem lparen : Spelling ('(' :: cs) (.symbol .lparen :: kinds) :=
  spelling.bracket rfl (fun _ => rfl) (by decide)

theorem rparen : Spelling (')' :: cs) (.symbol .rparen :: kinds) :=
  spelling.bracket rfl (fun _ => rfl) (by decide)

theorem lbracket : Spelling ('[' :: cs) (.symbol .lbracket :: kinds) :=
  spelling.bracket rfl (fun _ => rfl) (by decide)

theorem rbracket : Spelling (']' :: cs) (.symbol .rbracket :: kinds) :=
  spelling.bracket rfl (fun _ => rfl) (by decide)

end

theorem name {name : String} (isName : IsName name)
    (next : ∀ c ∈ cs.head?, isWordPart c = false) (spelling : Spelling cs kinds) :
    Spelling (name.toList ++ cs) (.identifier name :: kinds) := by
  have spelled := word isName.1 next spelling
  rwa [ofList_toList, isName.2] at spelled

end Scan.Spelling

variable {cs : List Char} {kinds : List TokenKind} {others : List TokenKind}

namespace Written

theorem grouped {text : List Char} (written : Written text kinds) (spelling : Spelling cs others) :
    Spelling ('(' :: (text ++ ')' :: cs)) (Stencil.grouped kinds ++ others) := by
  have inner := (written.spelling (.of_cons (by decide)) spelling.rparen).lparen
  simpa [Stencil.grouped] using inner

theorem commas {α : Type} {f : α → List Char} {g : α → List TokenKind} (xs : List α)
    (each : ∀ x ∈ xs, Written (f x) (g x) ∧ Solid (f x)) (closes : Closes cs)
    (spelling : Spelling cs others) :
    Spelling ([',', ' '].intercalate (xs.map f) ++ cs)
      (TypeSyntax.commas (xs.map g) ++ others) := by
  induction xs with
  | nil => exact spelling
  | cons x xs ih =>
  obtain ⟨own, rest⟩ := forall_mem_cons.mp each
  cases xs with
  | nil => simpa [TypeSyntax.commas] using own.1.spelling closes spelling
  | cons y ys =>
  have more := ih rest
  obtain ⟨c, _, text', solid⟩ := (rest y (.head _)).2
  have next : ∃ more', [',', ' '].intercalate ((y :: ys).map f) ++ cs = c :: more' := by
    cases ys <;> simp [List.intercalate_cons_cons, text']
  obtain ⟨more', shape⟩ := next
  rw [shape] at more
  have separated : Spelling (',' :: ' ' :: c :: more') (.symbol .comma :: _) :=
    (more.blank solid).bracket rfl (fun _ => rfl) (by decide)
  have all := own.1.spelling (.of_cons (by decide)) separated
  rw [← shape] at all
  simpa [TypeSyntax.commas, List.intercalate_cons_cons] using all

end Written

theorem Keyword.isWord (k : Keyword) : IsWord k.text.toList := by
  cases k <;> decide

theorem Keyword.ofWord_text (k : Keyword) : ofWord k.text = .keyword k := by
  cases k <;> rfl

theorem Scan.Spelling.keyword (k : Keyword)
    (next : ∀ c ∈ cs.head?, isWordPart c = false) (spelling : Spelling cs kinds) :
    Spelling (k.text.toList ++ cs) (.keyword k :: kinds) := by
  have spelled := word k.isWord next spelling
  rwa [ofList_toList, k.ofWord_text] at spelled

theorem Primitive.isWord (p : Primitive) : IsWord p.text.toList := by
  cases p <;> decide

theorem Primitive.ofWord_text (p : Primitive) : ofWord p.text = .primitive p := by
  cases p <;> rfl

theorem IsWord.solid {w : List Char} (isWord : IsWord w) : Solid w := by
  cases w with
  | nil => exact isWord.elim
  | cons c rest => exact ⟨c, rest, rfl, (isWordStart_plain isWord.1).1⟩

theorem path_text (fst : String) (more : List String) : (".".intercalate (fst :: more)).toList =
      fst.toList ++ more.flatMap fun name => '.' :: name.toList := by
  rw [String.toList_intercalate]
  induction more generalizing fst with
  | nil => simp
  | cons name more ih =>
  have rest := ih name
  simp only [map_cons] at rest ⊢
  rw [List.intercalate_cons_cons, rest]
  simp

theorem path_spelling (more : List String) (names : ∀ name ∈ more, IsName name)
    (next : ∀ c ∈ cs.head?, isWordPart c = false) (spelling : Spelling cs others) :
    Spelling ((more.flatMap fun name => '.' :: name.toList) ++ cs)
        ((more.flatMap fun name => [.symbol .dot, .identifier name]) ++ others) ∧
      ∀ c ∈ ((more.flatMap fun name => '.' :: name.toList) ++ cs).head?, isWordPart c = false := by
  induction more with
  | nil => exact ⟨spelling, next⟩
  | cons name more ih =>
  obtain ⟨own, rest⟩ := forall_mem_cons.mp names
  obtain ⟨further, after⟩ := ih rest
  have dotted : Spelling ('.' :: (name.toList ++ _)) (.symbol .dot :: .identifier name :: _) :=
    (Spelling.name own after further).bracket rfl (fun _ => rfl) (by decide)
  refine ⟨by simpa using dotted, ?_⟩
  rintro _ ⟨⟩
  rfl

theorem commas_head {α : Type} {f : α → List Char} {x : α} {xs : List α}
    {rest cs : List Char} (starts : f x = c :: rest) :
    ([',', ' '].intercalate ((x :: xs).map f) ++ cs).head? = some c := by
  cases xs <;> simp [List.intercalate_cons_cons, starts]

namespace TypeSyntax

theorem named_text (fst : String) (more : List String) (args : List TypeSyntax) (span : Span) :
    (named (fst :: more) args span).text.toList =
      fst.toList ++ ((more.flatMap fun name => '.' :: name.toList) ++
        if args.isEmpty then [] else
          '<' :: ([',', ' '].intercalate (args.map fun t => t.text.toList) ++ ['>'])) := by
  rw [text, toList_append, path_text, List.append_assoc]
  cases args with
  | nil => rfl
  | cons => simp [texts_eq_map, comp_def]

theorem text_starts {t : TypeSyntax} (legible : t.Legible) : ∃ c rest, t.text.toList = c :: rest ∧
      (isWordStart c ∨ c = '[' ∨ c = '&' ∧ t.isReference) := by
  cases legible with
  | @primitive p span =>
    cases word : p.text.toList with
    | nil => exact absurd p.isWord (by simp [word, IsWord])
    | cons c rest =>
      have isWord := p.isWord
      rw [word] at isWord
      exact ⟨c, rest, word, .inl isWord.1⟩
  | self => exact ⟨'S', ['e', 'l', 'f'], by simp [text], .inl rfl⟩
  | @named fst more args span names =>
    have isWord := (names fst (.head _)).1
    cases word : fst.toList with
    | nil =>
      rw [word] at isWord
      exact isWord.elim
    | cons c =>
    rw [word] at isWord
    have shape := named_text fst more args span
    rw [word] at shape
    exact ⟨c, _, shape, .inl isWord.1⟩
  | array => exact ⟨'[', by simp [text]⟩
  | reference => exact ⟨'&', by simp [text, isReference]⟩
  | function => exact ⟨'f', by simp [text, isWordStart]⟩

theorem text_solid {t : TypeSyntax} (legible : t.Legible) : Solid t.text.toList := by
  obtain ⟨c, rest, shape, start | rfl | ⟨rfl, -⟩⟩ := text_starts legible
  · exact ⟨c, rest, shape, (isWordStart_plain start).1⟩
  · exact ⟨_, rest, shape, rfl⟩
  · exact ⟨_, rest, shape, rfl⟩

theorem not_double_lt (start : isWordStart c ∨ c = '[' ∨ c = '&') : double? '<' c = none := by
  rcases start with start | rfl | rfl
  · unfold double?
    split <;> simp_all <;> cases start
  · rfl
  · rfl

theorem not_double_amp (start : isWordStart c ∨ c = '[') : double? '&' c = none := by
  rcases start with start | rfl
  · unfold double?
    split <;> simp_all
    cases start
  · rfl

abbrev Spelled (t : TypeSyntax) : Prop :=
  Written t.text.toList t.tokens

/-- Behind two marks of references the text of the target goes on, so the target of a reference is
spelled too. -/
theorem spelled {t : TypeSyntax} (legible : t.Legible) :
    t.Spelled ∧ ∀ target span, t = reference target span → target.Spelled := by
  induction legible with
  | @primitive p =>
    refine ⟨⟨fun {cs others} closes spelling => ?_⟩, by simp⟩
    have spelled := Spelling.word p.isWord closes.notWord spelling
    rwa [ofList_toList, p.ofWord_text] at spelled
  | self => exact ⟨⟨fun closes => .keyword .kwSelfType closes.notWord⟩, by simp⟩
  | @named fst more args span names legible ih =>
    refine ⟨⟨fun {cs others} closes spelling => ?_⟩, by simp⟩
    obtain ⟨own, names⟩ := forall_mem_cons.mp names
    cases args with
    | nil =>
      obtain ⟨path, next⟩ := path_spelling more names closes.notWord spelling
      have spelled := Spelling.name own next path
      rw [named_text]
      simpa [tokens, pathTokens] using spelled
    | cons a as =>
    -- `<` is not scanned together with the first argument
    obtain ⟨c, rest, shape, start⟩ := text_starts (legible a (.head _))
    have list := Written.commas (a :: as)
      (fun t mem => ⟨(ih t mem).1, text_solid (legible t mem)⟩)
      (.of_cons (by decide)) (.angle closes.notEqual spelling)
    have opened := Spelling.symbol (c := '<') rfl (by decide) (by decide) (fun d head => by
      rw [commas_head (f := fun t : TypeSyntax => t.text.toList) shape] at head
      cases head
      exact not_double_lt (start.imp_right fun s => s.imp_right And.left)) list
    obtain ⟨path, next⟩ := path_spelling more names (by rintro _ ⟨⟩; rfl) opened
    have spelled := Spelling.name own next path
    rw [named_text]
    simpa [tokens, pathTokens, tokensOf_eq_map] using spelled
  | @array elem length span legible small ih =>
    refine ⟨⟨fun {cs others} closes spelling => ?_⟩, by simp⟩
    have size := Spelling.number small (by rintro _ ⟨⟩; decide) spelling.rbracket
    obtain ⟨d, _, digits, -, solid⟩ := toDigits_solid length
    rw [digits] at size
    have tail := (size.blank solid).bracket (c := ';') rfl (fun _ => rfl) (by decide)
    have inner := ih.1.spelling (.of_cons (by decide)) tail
    simpa [text, tokens, toList_append, digits] using inner.lbracket
  | @reference target span legible ih =>
    refine ⟨⟨fun {cs others} closes spelling => ?_⟩, by rintro _ _ ⟨⟩; exact ih.1⟩
    cases single : target.isReference with
    | true =>
      cases target with
      | reference target span' =>
        have inner := (ih.2 target span' rfl).spelling closes spelling
        simpa [text, tokens] using Spelling.pair (c := '&') (d := '&') rfl (by decide) inner
      | _ => cases single
    | false =>
    obtain ⟨c, rest, shape, start⟩ := text_starts legible
    have inner := ih.1.spelling closes spelling
    have spelled := Spelling.symbol (c := '&') rfl (by decide) (by decide) (fun d head => by
      rw [shape] at head
      cases head
      -- only another reference would give `&&`
      refine not_double_amp (start.imp_right fun s => s.resolve_right ?_)
      rintro ⟨-, twice⟩
      exact absurd (single.symm.trans twice) (by decide)) inner
    simpa [text, tokens_reference single] using spelled
  | @function params result span legible legible' ih ih' =>
  refine ⟨⟨fun {cs others} closes spelling => ?_⟩, by simp⟩
  have tail : Spelling ((resultText result).toList ++ cs) (resultTokens result ++ others) := by
    cases result with
    | none => exact spelling
    | some t =>
    obtain ⟨c, rest, shape, solid⟩ := text_solid (legible' t rfl)
    have inner := (ih' t rfl).1.spelling closes spelling
    rw [shape] at inner
    have spelled := Spelling.operator .fatArrow solid inner
    simpa [resultText, resultTokens, toList_append, shape, Symbol.text] using spelled
  have list := Written.commas params (fun t mem => ⟨(ih t mem).1, text_solid (legible t mem)⟩)
    (.of_cons (by decide)) tail.rparen
  have spelled := Spelling.keyword .kwFunc (by rintro _ ⟨⟩; rfl) list.lparen
  simpa [text, tokens, toList_append, texts_eq_map, tokensOf_eq_map, Keyword.text,
    comp_def] using spelled

end TypeSyntax

theorem labelText_spelling (label : Option String) (names : ∀ name ∈ label, IsName name)
    (spelling : Spelling ('(' :: cs) kinds) :
    Spelling ((labelText label).toList ++ '(' :: cs) (labelTokens label ++ kinds) := by
  cases label with
  | none => exact spelling
  | some name =>
  have colon : Spelling (':' :: ' ' :: '(' :: cs) (.symbol .colon :: kinds) :=
    (spelling.blank rfl).bracket rfl (fun _ => rfl) (by decide)
  have spelled := Spelling.name (names name rfl) (by rintro _ ⟨⟩; rfl) colon
  simpa [labelText, labelTokens, toList_append] using spelled

theorem Scan.Spelling.front {s : Symbol} (single : single? c = some s) (angle : c ≠ '>' ∧ c ≠ '/')
    (spelling : Spelling ('(' :: cs) kinds) : Spelling (c :: '(' :: cs) (.symbol s :: kinds) := by
  refine .symbol single angle.1 angle.2 ?_ spelling
  rintro _ ⟨⟩
  unfold double?
  split <;> simp_all

namespace Expr

mutual

theorem written (e : Expr) (printable : e.Printable) : Written e.text.toList e.tokens := by
  refine ⟨fun {cs others} closes spelling => ?_⟩
  cases e with
  | float => exact printable.elim
  | int value =>
    have spelled := Spelling.number value.toNat_lt closes.notNumber spelling
    simpa [text, tokens] using spelled
  | bool value =>
    cases value
    · exact .keyword .kwFalse closes.notWord spelling
    · exact .keyword .kwTrue closes.notWord spelling
  | string value =>
    simpa [text, tokens, quotedText, toList_append] using Spelling.string value spelling
  | identifier =>
    rcases printable with isName | rfl
    · have spelled := Spelling.word isName.1 closes.notWord spelling
      rwa [ofList_toList] at spelled
    · exact .keyword .kwSelf closes.notWord spelling
  | array items =>
    have list := Written.commas (f := fun e : Expr => '(' :: (e.text.toList ++ [')'])) items
      (fun e mem => ⟨writtenGroups items printable e mem, _, _, rfl, rfl⟩)
      (.of_cons (by decide))
      spelling.rbracket
    simpa [text, tokens, groupTexts_eq_map, groups_eq_map, toList_append,
      comp_def] using list.lbracket
  | initializer entries =>
    have closed : Spelling ('\x7d' :: cs) (.symbol .rbrace :: others) :=
      spelling.bracket rfl (fun _ => rfl) (by decide)
    have list := Written.commas entries
      (writtenEntries entries printable) (.of_cons (by decide)) closed
    have spelled : Spelling ('\x7b' :: _) (.symbol .lbrace :: _) :=
      list.bracket rfl (fun _ => rfl) (by decide)
    simpa [text, tokens, entryTexts_eq_map, entryTokens_eq_map, toList_append,
      comp_def] using spelled
  | member object name =>
    have dotted : Spelling ('.' :: (name.toList ++ cs))
        (.symbol .dot :: .identifier name :: others) :=
      (Spelling.name printable.2 closes.notWord spelling).bracket rfl (fun _ => rfl) (by decide)
    simpa [text, tokens, toList_append] using (object.written printable.1).grouped dotted
  | call callee args =>
    have list := Written.commas (f := fun e : Expr => '(' :: (e.text.toList ++ [')'])) args
      (fun e mem => ⟨writtenGroups args printable.2 e mem, _, _, rfl, rfl⟩)
      (.of_cons (by decide)) spelling.rparen
    simpa [text, tokens, groupTexts_eq_map, groups_eq_map, toList_append,
      comp_def] using (callee.written printable.1).grouped list.lparen
  | index base position =>
    have inner := (position.written printable.2).grouped spelling.rbracket
    simpa [text, tokens, toList_append] using (base.written printable.1).grouped inner.lbracket
  | binary op left right =>
    have inner := (right.written printable.2).grouped spelling
    have operator := Spelling.operator op.symbol rfl inner
    simpa [text, tokens, toList_append, BinaryOp.text] using
      (left.written printable.1).grouped operator
  | unary op arg =>
    have inner := (arg.written printable).grouped spelling
    cases op
    · simpa [text, tokens, toList_append, UnaryOp.text, UnaryOp.symbol] using
        inner.front (c := '-') rfl (by decide)
    · simpa [text, tokens, toList_append, UnaryOp.text, UnaryOp.symbol] using
        inner.front (c := '!') rfl (by decide)
    simpa [text, tokens, toList_append, UnaryOp.text, UnaryOp.symbol] using
      inner.front (c := '~') rfl (by decide)
  | addressOf arg =>
    simpa [text, tokens, toList_append] using
      ((arg.written printable).grouped spelling).front (c := '&') rfl (by decide)
  | deref arg =>
    simpa [text, tokens, toList_append] using
      ((arg.written printable).grouped spelling).front (c := '*') rfl (by decide)
  | cast arg type =>
  obtain ⟨legible, -⟩ := printable.2
  obtain ⟨c, rest, shape, solid⟩ := TypeSyntax.text_solid legible
  have target := (TypeSyntax.spelled legible).1.spelling closes spelling
  rw [shape] at target
  have marked : Spelling ('a' :: 's' :: ' ' :: c :: (rest ++ cs))
      (.keyword .kwAs :: (type.tokens ++ others)) :=
    Spelling.keyword .kwAs (by rintro _ ⟨⟩; rfl) (target.blank solid)
  simpa [text, tokens, toList_append, shape] using
    (arg.written printable.1).grouped (marked.blank rfl)

theorem writtenGroups : ∀ es, AllPrintable es →
    ∀ e ∈ es, Written ('(' :: (e.text.toList ++ [')'])) (grouped e.tokens)
  | [], _ => by simp
  | e :: es, printable => by
    refine forall_mem_cons.mpr ⟨⟨fun _ spelling => ?_⟩, writtenGroups es printable.2⟩
    simpa using (e.written printable.1).grouped spelling

theorem writtenEntries : ∀ es : List (Entry Expr), EntriesPrintable es →
    ∀ e ∈ es, Written e.text.toList e.tokens ∧ Solid e.text.toList
  | [], _ => by simp
  | e :: es, printable => by
    refine forall_mem_cons.mpr ⟨⟨⟨fun _ spelling => ?_⟩, ?_⟩, writtenEntries es printable.2⟩
    · have inner := (e.value.written printable.1.2).grouped spelling
      simpa [Entry.text, Entry.tokens, toList_append] using
        labelText_spelling e.name printable.1.1 inner
    cases label : e.name with
    | none => exact ⟨'(', by simp [Entry.text, label, labelText, isBlank]⟩
    | some name =>
      obtain ⟨c, _, shape, solid⟩ := IsWord.solid (printable.1.1 name label).1
      exact ⟨c, by simp [Entry.text, label, labelText, shape, solid]⟩

end

end Expr

end Stencil
