import Stencil.Proofs.Grammar.Basic
import Stencil.Syntax.Outline

namespace Stencil

namespace Span

theorem Covers.holds {a b c : Span} (covers : a.Covers b) (holds : b.Holds c) : a.Holds c := by
  unfold Covers Holds at *
  omega

theorem Holds.covers {a b : Span} (holds : a.Holds b) : a.Covers b := ⟨holds.1, holds.2.2⟩

end Span

open Lies

class Spanned (α : Type) where
  span : α → Span
  Nested : α → Prop

instance {α : Type} [Spanned α] : Lies α :=
  ⟨fun outer x => outer.Holds (Spanned.span x) ∧ Spanned.Nested x,
    fun covers => .imp_left covers.holds⟩

theorem Lies.In.holds {α : Type} [Spanned α] {outer : Span} {x : α} (lies : In outer x) :
    outer.Holds (Spanned.span x) :=
  lies.1

theorem Lies.In.lift {α : Type} [Lies α] {outer own : Span} {x : α} (lies : In own x)
    (holds : outer.Holds own) : In outer x :=
  widens holds.covers lies

theorem allIn_iff {α : Type} [Lies α] {outer : Span} {all : List α → Prop} (nil : all [])
    (cons : ∀ x xs, all (x :: xs) ↔ In outer x ∧ all xs) {xs : List α} : all xs ↔ In outer xs := by
  induction xs with
  | nil => exact iff_of_true nil fun _ => nofun
  | cons x xs ih => rw [cons, ih]; exact List.forall_mem_cons.symm

namespace TypeSyntax

mutual

def Nested : TypeSyntax → Prop
  | primitive _ _ | self _ => True
  | named _ args span => AllIn span args
  | array elem _ span => span.Holds elem.span ∧ elem.Nested
  | reference target span => span.Holds target.span ∧ target.Nested
  | function params result span => AllIn span params ∧ ResultIn span result

def AllIn (outer : Span) : List TypeSyntax → Prop
  | [] => True
  | t :: ts => (outer.Holds t.span ∧ t.Nested) ∧ AllIn outer ts

def ResultIn (outer : Span) : Option TypeSyntax → Prop
  | none => True
  | some t => outer.Holds t.span ∧ t.Nested

end

instance : Spanned TypeSyntax := ⟨TypeSyntax.span, TypeSyntax.Nested⟩

variable {outer : Span}

theorem allIn_iff {ts : List TypeSyntax} : AllIn outer ts ↔ In outer ts :=
  Stencil.allIn_iff trivial fun _ _ => .rfl

theorem resultIn_iff {result : Option TypeSyntax} : ResultIn outer result ↔ In outer result := by
  cases result with
  | none => exact iff_of_true trivial fun _ => nofun
  | some t => exact ⟨fun lies _ same => by cases same; exact lies, fun all => all t rfl⟩

end TypeSyntax

namespace Expr

mutual

def Nested : Expr → Prop
  | int _ _ | float _ _ | bool _ _ | string _ _ | identifier _ _ => True
  | array items span => AllIn span items
  | initializer entries span => EntriesIn span entries
  | member object _ nameSpan span =>
    (span.Holds object.span ∧ object.Nested) ∧ span.Holds nameSpan
  | call callee args span => (span.Holds callee.span ∧ callee.Nested) ∧ AllIn span args
  | index left right span | binary _ left right span =>
    (span.Holds left.span ∧ left.Nested) ∧ span.Holds right.span ∧ right.Nested
  | unary _ arg span | addressOf arg span | deref arg span =>
    span.Holds arg.span ∧ arg.Nested
  | cast arg type span => (span.Holds arg.span ∧ arg.Nested) ∧ In span type

def AllIn (outer : Span) : List Expr → Prop
  | [] => True
  | e :: es => (outer.Holds e.span ∧ e.Nested) ∧ AllIn outer es

def EntriesIn (outer : Span) : List (Entry Expr) → Prop
  | [] => True
  | e :: es => (outer.Holds e.span ∧ e.span.Holds e.value.span ∧ e.value.Nested) ∧ EntriesIn outer es

end

instance : Spanned Expr := ⟨Expr.span, Expr.Nested⟩

instance : Spanned (Entry Expr) := ⟨Entry.span, fun e => In e.span e.value⟩

variable {outer : Span}

theorem allIn_iff {es : List Expr} : AllIn outer es ↔ In outer es :=
  Stencil.allIn_iff trivial fun _ _ => .rfl

theorem entriesIn_iff {es : List (Entry Expr)} : EntriesIn outer es ↔ In outer es :=
  Stencil.allIn_iff trivial fun _ _ => .rfl

theorem AllIn.lift {own : Span} {es : List Expr} (holds : outer.Holds own) (lies : AllIn own es) :
    AllIn outer es :=
  allIn_iff.mpr ((allIn_iff.mp lies).lift holds)

theorem EntriesIn.lift {own : Span} {es : List (Entry Expr)} (holds : outer.Holds own)
    (lies : EntriesIn own es) : EntriesIn outer es :=
  entriesIn_iff.mpr ((entriesIn_iff.mp lies).lift holds)

end Expr

theorem Lies.In.withSpan {outer span : Span} {e : Expr} (lies : In span e)
    (holds : outer.Holds span) : In outer (e.withSpan span) := by
  obtain ⟨own, nested⟩ := lies
  cases e with
  | int | float | bool | string | identifier => exact ⟨holds, trivial⟩
  | array => exact ⟨holds, nested.lift own⟩
  | initializer => exact ⟨holds, nested.lift own⟩
  | member => exact ⟨holds, nested.1.imp_left own.trans, own.trans nested.2⟩
  | call => exact ⟨holds, nested.1.imp_left own.trans, nested.2.lift own⟩
  | index | binary => exact ⟨holds, nested.imp (.imp_left own.trans) (.imp_left own.trans)⟩
  | unary | addressOf | deref => exact ⟨holds, And.imp_left own.trans nested⟩
  | cast => exact ⟨holds, nested.imp (.imp_left own.trans) (·.lift own)⟩

mutual

def Stmt.Nested : Stmt → Prop
  | .binding _ nameSpan type init _ span =>
    span.Holds nameSpan ∧ In span type ∧ In span init
  | .assign target value span => In span target ∧ In span value
  | .expr value span => In span value
  | .ret value span => In span value
  | .branch cond body otherwise span =>
    In span cond ∧ (span.Holds body.span ∧ body.Nested) ∧ otherwise.Nested span
  | .loop cond body span => In span cond ∧ span.Holds body.span ∧ body.Nested
  | .leave _ | .again _ => True
  | .block body span => span.Holds body.span ∧ body.Nested

def Alternative.Nested (outer : Span) : Alternative → Prop
  | .absent => True
  | .block body => outer.Holds body.span ∧ body.Nested
  | .branch next => outer.Holds next.span ∧ next.Nested

def Block.Nested : Block → Prop
  | .mk stmts span => Stmt.AllIn span stmts

def Stmt.AllIn (outer : Span) : List Stmt → Prop
  | [] => True
  | s :: ss => (outer.Holds s.span ∧ s.Nested) ∧ Stmt.AllIn outer ss

end

instance : Spanned Stmt := ⟨Stmt.span, Stmt.Nested⟩

instance : Spanned Block := ⟨Block.span, Block.Nested⟩

theorem Stmt.allIn_iff {outer : Span} {ss : List Stmt} : AllIn outer ss ↔ In outer ss :=
  Stencil.allIn_iff trivial fun _ _ => .rfl

instance : Lies Alternative where
  In outer a := a.Nested outer
  widens {_ _ a} covers := match a with
    | .absent => id
    | .block _ | .branch _ => .imp_left covers.holds

instance : Spanned GenericParam := ⟨GenericParam.span, fun g => In g.span g.constraints⟩

instance : Spanned Param := ⟨Param.span, fun p => In p.span p.type⟩

instance : Spanned FieldDecl := ⟨FieldDecl.span, fun f => In f.span f.type⟩

structure FuncDecl.Nested (f : FuncDecl) : Prop where
  name : f.span.Holds f.nameSpan
  params : In f.span f.params
  result : In f.span f.result
  body : In f.span f.body

instance : Spanned FuncDecl := ⟨FuncDecl.span, FuncDecl.Nested⟩

structure AliasDecl.Nested (a : AliasDecl) : Prop where
  generics : In a.span a.generics
  target : In a.span a.target

instance : Spanned AliasDecl := ⟨AliasDecl.span, AliasDecl.Nested⟩

structure TemplateDecl.Nested (d : TemplateDecl) : Prop where
  generics : In d.span d.generics
  fields : In d.span d.fields
  methods : In d.span d.methods

instance : Spanned TemplateDecl := ⟨TemplateDecl.span, TemplateDecl.Nested⟩

structure SpecDecl.Nested (d : SpecDecl) : Prop where
  aliases : In d.span d.aliases
  methods : In d.span d.methods

instance : Spanned SpecDecl := ⟨SpecDecl.span, SpecDecl.Nested⟩

structure ActionDecl.Nested (d : ActionDecl) : Prop where
  spec : In d.span d.spec
  target : In d.span d.target
  aliases : In d.span d.aliases
  methods : In d.span d.methods

instance : Spanned ActionDecl := ⟨ActionDecl.span, ActionDecl.Nested⟩

structure ConstDecl.Nested (d : ConstDecl) : Prop where
  type : In d.span d.type
  value : In d.span d.value

instance : Spanned ConstDecl := ⟨ConstDecl.span, ConstDecl.Nested⟩

def Decl.Nested (outer : Span) : Decl → Prop
  | .func d => In outer d
  | .template d => In outer d
  | .typeAlias d => In outer d
  | .spec d => In outer d
  | .action d => In outer d
  | .const d => In outer d

instance : Lies Decl where
  In outer d := d.Nested outer
  widens {_ _ d} covers := by cases d <;> exact widens covers

mutual

def Item.Nested : Item → Prop
  | .decl d _ span => In span d
  | .package _ items declSpan _ span => span.Holds declSpan ∧ Item.AllIn span items

def Item.AllIn (outer : Span) : List Item → Prop
  | [] => True
  | i :: is => (outer.Holds i.span ∧ i.Nested) ∧ Item.AllIn outer is

end

instance : Spanned Item := ⟨Item.span, Item.Nested⟩

theorem Item.allIn_iff {outer : Span} {items : List Item} : AllIn outer items ↔ In outer items :=
  Stencil.allIn_iff trivial fun _ _ => .rfl

instance : Spanned Module := ⟨Module.span, fun m => In m.span m.items⟩

mutual

def Outline.Nested : Outline → Prop
  | .node _ _ span children => Outline.AllIn span children

def Outline.AllIn (outer : Span) : List Outline → Prop
  | [] => True
  | o :: os => (outer.Holds o.span ∧ o.Nested) ∧ Outline.AllIn outer os

end

instance : Spanned Outline := ⟨Outline.span, Outline.Nested⟩

variable {outer : Span}

namespace Outline

theorem allIn_iff {os : List Outline} : AllIn outer os ↔ In outer os :=
  Stencil.allIn_iff trivial fun _ _ => .rfl

end Outline

theorem Lies.In.children {o : Outline} (lies : In outer o) : In o.span o.children := by
  cases o with
  | node => exact Outline.allIn_iff.mp lies.2

/-- A node that a path leads to is nested like the node that the path starts from. -/
theorem Lies.In.descend {o target : Outline} (lies : In outer o) {path : List Nat}
    (got : o.descend? path = some target) : In outer target := by
  induction path generalizing o with
  | nil =>
    cases got
    exact lies
  | cons i path ih =>
    obtain ⟨child, has, got⟩ := Option.bind_eq_some_iff.mp got
    have own := lies.children child (List.mem_of_getElem? has)
    exact ih (own.lift lies.1) got

namespace Outline

theorem allIn_append {os ps : List Outline} (fst : AllIn outer os)
    (snd : AllIn outer ps) : AllIn outer (os ++ ps) :=
  allIn_iff.mpr fun o mem => (List.mem_append.mp mem).elim (allIn_iff.mp fst o) (allIn_iff.mp snd o)

variable {α : Type} [Lies α] {outline : α → Outline}

theorem allIn_map (single : ∀ x, In outer x → In outer (outline x)) {xs : List α}
    (all : In outer xs) : AllIn outer (xs.map outline) := by
  refine allIn_iff.mpr ?_
  intro o mem
  obtain ⟨x, has, rfl⟩ := List.mem_map.mp mem
  exact single x (all x has)

theorem allIn_option (single : ∀ x, In outer x → In outer (outline x)) {x : Option α}
    (all : In outer x) : AllIn outer (x.map outline).toList := by
  cases x with
  | none => trivial
  | some x => exact ⟨single x (all x rfl), trivial⟩

end Outline

open Outline

theorem TypeSyntax.outline_in (t : TypeSyntax) (lies : In outer t) : In outer t.outline :=
  ⟨lies.1, trivial⟩

mutual

theorem Expr.outline_in {outer : Span} : ∀ e : Expr, In outer e → In outer e.outline
  | .int _ _, lies | .float _ _, lies | .bool _ _, lies | .string _ _, lies
  | .identifier _ _, lies => ⟨lies.1, trivial⟩
  | .array items _, lies => ⟨lies.1, outlines_in items lies.2⟩
  | .initializer entries _, lies => ⟨lies.1, entryOutlines_in entries lies.2⟩
  | .member object _ _ _, lies => ⟨lies.1, object.outline_in lies.2.1, trivial⟩
  | .call callee args _, lies =>
    ⟨lies.1, callee.outline_in lies.2.1, outlines_in args lies.2.2⟩
  | .index base position _, lies =>
    ⟨lies.1, base.outline_in lies.2.1, position.outline_in lies.2.2, trivial⟩
  | .binary _ left right _, lies =>
    ⟨lies.1, left.outline_in lies.2.1, right.outline_in lies.2.2, trivial⟩
  | .unary _ arg _, lies | .addressOf arg _, lies | .deref arg _, lies =>
    ⟨lies.1, arg.outline_in lies.2, trivial⟩
  | .cast arg type _, lies =>
    ⟨lies.1, arg.outline_in lies.2.1, type.outline_in lies.2.2, trivial⟩

theorem Expr.outlines_in {outer : Span} : ∀ es, Expr.AllIn outer es →
    Outline.AllIn outer (outlines es)
  | [], _ => trivial
  | e :: es, lies => ⟨e.outline_in lies.1, outlines_in es lies.2⟩

theorem Expr.entryOutlines_in {outer : Span} : ∀ es : List (Entry Expr),
    EntriesIn outer es → Outline.AllIn outer (entryOutlines es)
  | [], _ => trivial
  | e :: es, lies => ⟨⟨lies.1.1, e.value.outline_in lies.1.2, trivial⟩, entryOutlines_in es lies.2⟩

end

mutual

theorem Stmt.outline_in {outer : Span} : ∀ s : Stmt, In outer s → In outer s.outline
  | .binding _ _ _ _ _ _, lies =>
    ⟨lies.1, allIn_append (allIn_option TypeSyntax.outline_in lies.2.2.1)
      (allIn_option Expr.outline_in lies.2.2.2)⟩
  | .assign target value _, lies =>
    ⟨lies.1, target.outline_in lies.2.1, value.outline_in lies.2.2, trivial⟩
  | .expr value _, lies => ⟨lies.1, value.outline_in lies.2, trivial⟩
  | .ret _ _, lies => ⟨lies.1, allIn_option Expr.outline_in lies.2⟩
  | .branch cond body otherwise _, lies =>
    ⟨lies.1, cond.outline_in lies.2.1, body.outline_in lies.2.2.1, otherwise.outlines_in lies.2.2.2⟩
  | .loop cond body _, lies =>
    ⟨lies.1, cond.outline_in lies.2.1, body.outline_in lies.2.2, trivial⟩
  | .leave _, lies | .again _, lies => ⟨lies.1, trivial⟩
  | .block body _, lies => ⟨lies.1, body.outline_in lies.2, trivial⟩

theorem Alternative.outlines_in {outer : Span} : ∀ a : Alternative, In outer a →
    Outline.AllIn outer a.outlines
  | .absent, _ => trivial
  | .block body, lies => ⟨body.outline_in lies, trivial⟩
  | .branch next, lies => ⟨next.outline_in lies, trivial⟩

theorem Block.outline_in {outer : Span} : ∀ b : Block, In outer b → In outer b.outline
  | .mk stmts _, lies => ⟨lies.1, Stmt.outlines_in stmts lies.2⟩

theorem Stmt.outlines_in {outer : Span} : ∀ ss, Stmt.AllIn outer ss →
    Outline.AllIn outer (Stmt.outlines ss)
  | [], _ => trivial
  | s :: ss, lies => ⟨s.outline_in lies.1, Stmt.outlines_in ss lies.2⟩

end

theorem GenericParam.outline_in (g : GenericParam) (lies : In outer g) : In outer g.outline :=
  ⟨lies.1, allIn_map TypeSyntax.outline_in lies.2⟩

theorem Param.outline_in (p : Param) (lies : In outer p) : In outer p.outline :=
  ⟨lies.1, p.type.outline_in lies.2, trivial⟩

theorem FieldDecl.outline_in (f : FieldDecl) (lies : In outer f) : In outer f.outline :=
  ⟨lies.1, f.type.outline_in lies.2, trivial⟩

theorem FuncDecl.children_in (f : FuncDecl) (nested : f.Nested) : Outline.AllIn f.span f.children :=
  allIn_append (allIn_append (allIn_map Param.outline_in nested.params)
      (allIn_option TypeSyntax.outline_in nested.result))
    (allIn_option Block.outline_in nested.body)

theorem FuncDecl.outline_in (f : FuncDecl) (lies : In outer f) : In outer f.outline :=
  ⟨lies.1, f.children_in lies.2⟩

theorem AliasDecl.children_in (a : AliasDecl) (nested : a.Nested) :
    Outline.AllIn a.span a.children :=
  allIn_append (allIn_map GenericParam.outline_in nested.generics)
    (allIn_option TypeSyntax.outline_in nested.target)

theorem AliasDecl.outline_in (a : AliasDecl) (lies : In outer a) : In outer a.outline :=
  ⟨lies.1, a.children_in lies.2⟩

theorem Decl.children_in (d : Decl) (lies : In outer d) : Outline.AllIn outer d.children := by
  have widen {span : Span} {os : List Outline} (holds : outer.Holds span)
      (all : Outline.AllIn span os) : Outline.AllIn outer os :=
    Outline.allIn_iff.mpr ((Outline.allIn_iff.mp all).lift holds)
  cases d with
  | func d | typeAlias d => exact widen lies.1 (d.children_in lies.2)
  | template =>
    refine widen lies.1 (allIn_append (allIn_append ?_ ?_) ?_)
    · exact allIn_map GenericParam.outline_in lies.2.generics
    · exact allIn_map FieldDecl.outline_in lies.2.fields
    · exact allIn_map FuncDecl.outline_in lies.2.methods
  | spec =>
    refine widen lies.1 (allIn_append ?_ ?_)
    · exact allIn_map AliasDecl.outline_in lies.2.aliases
    · exact allIn_map FuncDecl.outline_in lies.2.methods
  | action d =>
    refine widen lies.1 (allIn_append ?_ ⟨d.target.outline_in lies.2.target, ?_⟩)
    · exact allIn_option TypeSyntax.outline_in lies.2.spec
    exact allIn_append (allIn_map AliasDecl.outline_in lies.2.aliases)
      (allIn_map FuncDecl.outline_in lies.2.methods)
  | const d =>
    refine widen lies.1 (allIn_append ?_ ⟨d.value.outline_in lies.2.value, trivial⟩)
    exact allIn_option TypeSyntax.outline_in lies.2.type

mutual

theorem Item.outline_in {outer : Span} : ∀ i : Item, In outer i → In outer i.outline
  | .decl d _ _, lies => ⟨lies.1, d.children_in lies.2⟩
  | .package _ items _ _ _, lies => ⟨lies.1, Item.outlines_in items lies.2.2⟩

theorem Item.outlines_in {outer : Span} : ∀ items, Item.AllIn outer items →
    Outline.AllIn outer (Item.outlines items)
  | [], _ => trivial
  | i :: is, lies => ⟨i.outline_in lies.1, Item.outlines_in is lies.2⟩

end

theorem Module.outline_in (m : Module) (lies : In outer m) : In outer m.outline :=
  ⟨lies.1, Item.outlines_in m.items (Item.allIn_iff.mpr lies.2)⟩

end Stencil
