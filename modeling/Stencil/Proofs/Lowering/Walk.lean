import Stencil.Lowering.Walk
import Stencil.Proofs.Steps

/-!
Lowering with its state does what the same steps do without it, which are told by arguments what the
state would tell them. Expressions leave the state as it was, also where they fail; statements only
count on.
-/

namespace Stencil

open Analysis

theorem Block.returns_of_isEmpty {b : Block} (empty : b.isEmpty) : b.returns = 0 := by
  obtain ⟨stmts, _⟩ := b
  obtain rfl : stmts = [] := List.isEmpty_iff.mp empty
  rfl

theorem Alternative.returns_of_isEmpty {a : Alternative} (empty : a.isEmpty) : a.returns = 0 := by
  cases a with
  | absent => rfl
  | block => exact Block.returns_of_isEmpty empty
  | branch => cases empty

namespace Lowering

variable {α β : Type} {l : Lowerer}

def Lifts (step : Lowering α) (plain : Analysis α) (l : Lowerer) : Prop :=
  step l = lift plain l

namespace Lifts

variable {step : Lowering β} {plain : Analysis β} {next : β → Lowering α} {next' : β → Analysis α}

theorem bind (fst : Lifts step plain l)
    (snd : ∀ b s, Lifts (next b) (next' b) { l with session := s }) :
    Lifts (step >>= next) (plain >>= next') l := by
  change EStateM.bind step next l = lift (EStateM.bind plain next') l
  rw [EStateM.bind, show step l = _ from fst]
  unfold lift EStateM.bind
  cases plain l.session with
  | ok b s => exact snd b s
  | error => rfl

theorem seq (snd : ∀ b s, Lifts (next b) (next' b) { l with session := s }) :
    Lifts (liftM plain >>= next) (plain >>= next') l :=
  bind rfl snd

theorem map {f : β → α} (inner : Lifts step plain l) : Lifts (f <$> step) (f <$> plain) l := by
  change EStateM.map f step l = lift (EStateM.map f plain) l
  rw [EStateM.map, show step l = _ from inner]
  unfold lift EStateM.map
  cases plain l.session <;> rfl

theorem during {enter : LowerState → LowerState} {leave : LowerState → LowerState → LowerState}
    (inner : Lifts step plain { l with state := enter l.state })
    (back : leave l.state (enter l.state) = l.state) :
    Lifts (Lowering.during enter leave step) plain l := by
  unfold Lifts Lowering.during at *
  rw [inner]
  unfold lift
  cases plain l.session <;> simp only [back]

theorem state_bind {next : LowerState → Lowering α} {plain : Analysis α}
    (after : Lifts (next l.state) plain l) : Lifts (state >>= next) plain l :=
  after

theorem get_bind {next : Lowerer → Lowering α} {next' : Session → Analysis α}
    (after : Lifts (next l) (next' l.session) l) : Lifts (get >>= next) (get >>= next') l :=
  after

theorem entryAddr {base : Place} (aggregate : l.state.aggregate = some base) {index : Nat} :
    Lifts (Lowering.entryAddr index) (base.entryAddr index) l := by
  unfold Lowering.entryAddr
  refine state_bind ?_
  rw [aggregate]
  rfl

theorem shortCircuit {op : BinaryOp} {lhs : TypedValue} {right : Lowering TypedValue}
    {right' : Analysis TypedValue} (inner : ∀ s, Lifts right right' { l with session := s }) :
    Lifts (Lowering.shortCircuit op lhs right) (Stencil.shortCircuit op lhs right') l := by
  unfold Lowering.shortCircuit Stencil.shortCircuit
  cases lhs.value.int? with
  | some n =>
    by_cases stops : n = if op = .or then 1 else 0
    · simp only [if_pos stops]
      rfl
    · simp only [if_neg stops]
      exact inner l.session
  | none => exact seq fun _ _ => bind (inner _) fun _ _ => rfl

theorem within {scope : ScopeId} (inner : ∀ s, Lifts step plain { l with session := s }) :
    Lifts (Lowering.within scope step) (Analysis.within scope plain) l := by
  refine seq fun t s => seq fun _ s => bind ?_ fun result s => seq fun _ s => rfl
  change attempt step _ = lift (Analysis.attempt plain) _
  rw [attempt, show step _ = _ from inner _]
  unfold lift Analysis.attempt
  cases plain _ <;> rfl

end Lifts

section

variable {r : Resolver} {e : Expr} {addr : Ir.Value} {type : Ty}

def Means (r : Resolver) (e : Expr) : Prop :=
  ∀ l : Lowerer, (e.isChain = false → l.state.reference = false) →
    Lifts (meaning r e) (Stencil.meaning r l.state.reference l.state.hint e) l

theorem Means.resolved (means : Means r e) :
    Lifts (resolved e (meaning r e)) (Stencil.meaning r l.state.reference none e) l := by
  unfold Lowering.resolved
  split
  · rename_i chain
    have same : Stencil.meaning r l.state.reference l.state.hint e =
        Stencil.meaning r l.state.reference none e := by
      cases e <;> first | rfl | cases chain
    rw [← same]
    exact means l (by simp [chain])
  · rename_i chain
    have same : Stencil.meaning r l.state.reference none e = Stencil.meaning r false none e := by
      cases e <;> first | rfl | exact absurd rfl chain
    rw [same]
    exact .during (means _ fun _ => rfl) rfl

theorem Means.valued (means : Means r e) {hint : Option Ty} :
    Lifts (valued hint e (meaning r e)) (e.lower r hint) l := by
  unfold Lowering.valued hinted
  exact .during (.bind (means _ fun _ => rfl) fun _ _ => rfl) rfl

theorem Means.operand (means : Means r e) {hint : Option Ty} {next : TypedValue → Lowering α}
    {next' : TypedValue → Analysis α}
    (after : ∀ v s, Lifts (next v) (next' v) { l with session := s }) :
    Lifts (Lowering.valued hint e (meaning r e) >>= next)
      (do next' (← (← Stencil.meaning r false hint e).asValue e.span)) l := by
  have whole : Lifts (Lowering.valued hint e (meaning r e) >>= next) _ l := .bind means.valued after
  rw [Expr.lower, bind_assoc] at whole
  exact whole

theorem Means.stored (means : Means r e) : Lifts (stored addr type e (meaning r e))
    (do storeConverted addr type (← Stencil.meaning r false (some type) e) e.span) l := by
  have same : (do storeConverted addr type (← Stencil.meaning r false (some type) e) e.span) =
      e.lower r (some type) >>= fun v => convertTo v type true e.span >>= fun v =>
        storeAt type addr v.value := by
    simp only [storeConverted, Expr.lower, bind_assoc]
  rw [same]
  exact .bind means.valued fun _ _ => .seq fun _ _ => rfl

theorem Means.filled (means : Means r e) {next : Lowering α} {next' : Analysis α}
    (fills : Lifts (fill r addr type e) (Stencil.fill r addr type e) l)
    (after : ∀ s, Lifts next next' { l with session := s }) :
    Lifts (do
      unless ← fill r addr type e do Lowering.stored addr type e (meaning r e)
      next) (do
      unless ← Stencil.fill r addr type e do
        storeConverted addr type (← Stencil.meaning r false (some type) e) e.span
      next') l := by
  refine .bind fills fun done s => ?_
  cases done with
  | true => exact after s
  | false =>
    have whole : Lifts (Lowering.stored addr type e (meaning r e) >>= fun _ => next) _
        { l with session := s } := .bind means.stored fun _ s => after s
    rw [bind_assoc] at whole
    exact whole

variable (r)

mutual

theorem means : ∀ e, Means r e
  | .int .., _, _ | .float .., _, _ | .bool .., _, _ => rfl
  | .string .., _, _ => .seq fun _ _ => .seq fun _ _ => rfl
  | .array items span, l, _ => by
    rw [meaning.eq_def, Stencil.meaning.eq_def]
    refine .state_bind ?_
    generalize l.state.hint = hint
    have unhinted : Lifts (do
        let values ← values r items
        Meaning.value <$> arrayOfValues (values.zip (items.map Expr.span)) span) (do
        let values ← Stencil.values r items
        Meaning.value <$> arrayOfValues (values.zip (items.map Expr.span)) span) l :=
      .bind (values_lifts items l) fun _ _ => .map rfl
    rcases hint with _ | type
    · exact unhinted
    cases type with
    | array elem length =>
      refine .seq fun slot _ => .seq fun slots s => ?_
      refine .bind (.during (fillItems_lifts items slots _ rfl) rfl) fun _ _ => .map rfl
    | _ => exact unhinted
  | .initializer entries span, l, _ => by
    rw [meaning.eq_def, Stencil.meaning.eq_def]
    refine .state_bind ?_
    generalize l.state.hint = hint
    cases hint with
    | none => rfl
    | some type =>
      refine .seq fun slot _ => .seq fun t s => .seq fun slots s => ?_
      exact .bind (.during (fillEntries_lifts entries slots _ rfl) rfl) fun _ _ => .map rfl
  | .identifier .., l, _ => rfl
  | .member object name nameSpan _, l, _ =>
    .bind (means object).resolved fun _ _ => .state_bind rfl
  | .call callee args span, l, value => by
    have resolved := (means callee).resolved (l := l)
    rw [value rfl] at resolved
    refine .bind resolved fun m s => .seq fun target s => .seq fun _ s => ?_
    exact .bind (arguments_lifts args target.signature.params _) fun _ _ => .map rfl
  | .index base position span, l, _ => by
    refine .bind (means base).resolved fun m s => .seq fun place s => .seq fun place s => ?_
    exact .seq fun _ _ => (means position).operand fun _ _ => .map rfl
  | .binary op left right span, l, _ => by
    rw [meaning.eq_def, Stencil.meaning.eq_def]
    dsimp only
    split
    · refine (means left).operand fun _ _ => .seq fun _ _ => .map (.shortCircuit fun _ => ?_)
      exact (means right).operand fun _ _ => rfl
    · exact (means left).operand fun _ _ => (means right).operand fun _ _ => .map rfl
  | .unary op arg span, l, _ => by
    rw [meaning.eq_def, Stencil.meaning.eq_def]
    dsimp only
    cases negatedLiteral? op arg with
    | some n => rfl
    | none => exact (means arg).operand fun _ _ => .map rfl
  | .addressOf arg span, l, _ => by
    refine .bind (.during (means arg).resolved rfl) fun m _ => ?_
    cases m <;> rfl
  | .deref arg span, l, _ => by
    refine (means arg).operand fun v _ => ?_
    cases v.type.pointee? <;> rfl
  | .cast arg type span, l, _ => by
    exact .seq fun _ _ => .seq fun _ _ => (means arg).operand fun _ _ => .map rfl

theorem fill_lifts : ∀ e addr type l, Lifts (fill r addr type e) (Stencil.fill r addr type e) l
  | .initializer entries span, addr, type, l => by
    refine .seq fun _ _ => .seq fun slots _ => ?_
    exact .bind (.during (fillEntries_lifts entries slots _ rfl) rfl) fun _ _ => rfl
  | .array items span, addr, type, l => by
    rw [fill.eq_def, Stencil.fill.eq_def]
    cases type with
    | array =>
      refine .seq fun slots _ => ?_
      exact .bind (.during (fillItems_lifts items slots _ rfl) rfl) fun _ _ => rfl
    | _ => rfl
  | .int .., _, _, _ | .float .., _, _, _ | .bool .., _, _, _ | .string .., _, _, _
  | .identifier .., _, _, _ | .member .., _, _, _ | .call .., _, _, _ | .index .., _, _, _
  | .binary .., _, _, _ | .unary .., _, _, _ | .addressOf .., _, _, _ | .deref .., _, _, _
  | .cast .., _, _, _ => rfl

theorem fillEntries_lifts : ∀ (entries : List (Entry Expr)) (slots : List (Except Diagnostic Slot))
    (l : Lowerer) {base : Place}, l.state.aggregate = some base →
      Lifts (fillEntries r slots entries) (Stencil.fillEntries r base slots entries) l
  | [], [], _, _, _ | [], _ :: _, _, _, _ | _ :: _, [], _, _, _ => rfl
  | entry :: entries, slot :: slots, l, base, aggregate => by
    refine .seq fun slot s => .bind (.entryAddr (l := ⟨s, l.state⟩) aggregate) fun addr _ => ?_
    exact (means entry.value).filled (fill_lifts entry.value addr slot.type _)
      fun _ => fillEntries_lifts entries slots _ aggregate

theorem fillItems_lifts : ∀ items slots l {base : Place}, l.state.aggregate = some base →
      Lifts (fillItems r slots items) (Stencil.fillItems r base slots items) l
  | [], [], _, _, _ | [], _ :: _, _, _, _ | _ :: _, [], _, _, _ => rfl
  | item :: items, slot :: slots, l, base, aggregate => by
    refine .bind (.entryAddr aggregate) fun addr _ => ?_
    exact (means item).filled (fill_lifts item addr slot.type _)
      fun _ => fillItems_lifts items slots _ aggregate

theorem arguments_lifts : ∀ args types l,
    Lifts (arguments r types args) (Stencil.arguments r types args) l
  | [], [], _ | [], _ :: _, _ | _ :: _, [], _ => rfl
  | arg :: args, type :: types, l => by
    refine (means arg).operand fun _ _ => .seq fun _ _ => ?_
    exact .bind (arguments_lifts args types _) fun _ _ => rfl

theorem values_lifts : ∀ items l, Lifts (values r items) (Stencil.values r items) l
  | [], _ => rfl
  | item :: items, l => by
    exact (means item).operand fun _ _ => .bind (values_lifts items _) fun _ _ => rfl

end

theorem lower_lifts {hint : Option Ty} : Lifts (lower r hint e) (e.lower r hint) l :=
  (means r e).valued

theorem lowerPlace_lifts : Lifts (lowerPlace r e) (e.lowerPlace r) l := by
  refine .bind (.during (means r e).resolved rfl) fun m _ => ?_
  cases m <;> rfl

theorem lowerCondition_lifts : Lifts (lowerCondition r e) (e.lowerCondition r) l :=
  .bind (lower_lifts r) fun _ _ => rfl

theorem lowerInto_lifts : Lifts (lowerInto r addr type e) (e.lowerInto r addr type) l := by
  refine .bind (fill_lifts r e addr type l) fun done _ => ?_
  cases done with
  | true => rfl
  | false => exact (means r e).stored

theorem lowerBinding_lifts {name : String} {span : Span} {type : Option TypeSyntax}
    {init : Option Expr} {constant : Bool} : Lifts (lowerBinding r name span type init constant)
      (Stencil.lowerBinding r name span type init constant) l := by
  cases type with
  | some type =>
    refine .seq fun _ _ => .seq fun _ _ => .seq fun _ _ => .seq fun slot _ => ?_
    cases init with
    | none => rfl
    | some init => exact .bind (lowerInto_lifts r) fun _ _ => rfl
  | none =>
  cases init with
  | none => rfl
  | some init =>
  have plain : Lifts (do
      let v ← lower r none init
      requireStorable v.type init.span
      let slot ← temporary v.type
      storeAt v.type slot v.value
      bindSlot name v.type slot constant span) (do
      let v ← init.lower r none
      requireStorable v.type init.span
      let slot ← temporary v.type
      storeAt v.type slot v.value
      bindSlot name v.type slot constant span) l :=
    .bind (lower_lifts r) fun _ _ => .seq fun _ _ => .seq fun _ _ => .seq fun _ _ => rfl
  cases init with
  | initializer => rfl
  | _ => exact plain

theorem lowerAssignment_lifts {target value : Expr} :
    Lifts (lowerAssignment r target value) (Stencil.lowerAssignment r target value) l := by
  refine .bind (lowerPlace_lifts r) fun place _ => ?_
  cases place.constant with
  | none => exact lowerInto_lifts r
  | some => rfl

theorem returnValue_lifts {result : Ty} {value : Option Expr} {span : Span} :
    Lifts (returnValue r result value span) (Stencil.returnValue r result value span) l := by
  unfold returnValue Stencil.returnValue
  cases value with
  | none => cases result.isVoid <;> rfl
  | some e =>
  cases result.isVoid with
  | true => rfl
  | false => exact .bind (lower_lifts r) fun _ _ => .seq fun _ _ => rfl

end

def frame? (st : LowerState) : Option Frame := st.function.map CurrentFunction.toFrame

theorem counting_zero (st : LowerState) : st.counting 0 = st := by
  obtain ⟨_, _, _, _ | _, _⟩ := st <;> rfl

theorem counting_add (st : LowerState) (m n : Nat) :
    (st.counting m).counting n = st.counting (m + n) := by
  obtain ⟨_, _, _, _ | _, _⟩ := st <;> simp [LowerState.counting, Nat.add_assoc]

theorem frame_counting (st : LowerState) (n : Nat) : frame? (st.counting n) = frame? st := by
  obtain ⟨_, _, _, _ | _, _⟩ := st <;> rfl

def Leaves (step : Lowering Unit) (plain : Analysis α) (l : Lowerer) (left : α → LowerState) : Prop :=
  match plain l.session with
  | .ok a s => step l = .ok () ⟨s, left a⟩
  | .error d s => ∃ st, step l = .error d ⟨s, st⟩

namespace Leaves

variable {step next : Lowering Unit} {left : α → LowerState}

theorem of_run {plain : Analysis Unit} {st : LowerState} (run : step l = lift plain ⟨l.session, st⟩) :
    Leaves step plain l fun _ => st := by
  unfold Leaves
  rw [run, lift]
  cases plain l.session with
  | ok => rfl
  | error => exact ⟨st, rfl⟩

theorem after {fst : Lowering β} {fst' : Analysis β} {next : β → Lowering Unit}
    {next' : β → Analysis α} (lifts : Lifts fst fst' l)
    (snd : ∀ b s, fst' l.session = .ok b s → Leaves (next b) (next' b) ⟨s, l.state⟩ left) :
    Leaves (fst >>= next) (fst' >>= next') l left := by
  change Leaves (EStateM.bind fst next) (EStateM.bind fst' next') l left
  unfold Leaves EStateM.bind
  rw [show fst l = _ from lifts, lift]
  cases run : fst' l.session with
  | ok b s => exact snd b s run
  | error => exact ⟨_, rfl⟩

theorem bind {plain : Analysis β} {next' : β → Analysis α} {mid : β → LowerState}
    (fst : Leaves step plain l mid) (snd : ∀ b s, Leaves next (next' b) ⟨s, mid b⟩ left) :
    Leaves (step >>= fun _ => next) (plain >>= next') l left := by
  change Leaves (EStateM.bind step fun _ => next) (EStateM.bind plain next') l left
  unfold Leaves EStateM.bind at *
  cases run : plain l.session with
  | ok b s =>
    rw [run] at fst
    rw [show step l = _ from fst]
    exact snd b s
  | error =>
    rw [run] at fst
    exact fst.imp fun _ failed => by rw [failed]

theorem within {plain : Analysis α} {scope : ScopeId}
    (inner : ∀ s, Leaves step plain ⟨s, l.state⟩ left) :
    Leaves (Lowering.within scope step) (Analysis.within scope plain) l left := by
  refine after rfl fun t s _ => after rfl fun _ s _ => ?_
  have inner := inner s
  change Leaves (EStateM.bind (attempt step) _) (EStateM.bind (Analysis.attempt plain) _) _ left
  unfold Leaves EStateM.bind attempt Analysis.attempt at *
  dsimp only at inner ⊢
  cases run : plain s with
  | ok =>
    rw [run] at inner
    rw [inner]
    rfl
  | error =>
    rw [run] at inner
    exact inner.imp fun _ failed => by rw [failed]; rfl

end Leaves

abbrev Counts (step : Lowering Unit) (plain : Analysis Unit) (returns : Nat) (l : Lowerer) : Prop :=
  Leaves step plain l fun _ => l.state.counting returns

namespace Counts

variable {step : Lowering Unit} {plain : Analysis Unit} {m n : Nat}

theorem of_lifts (lifts : Lifts step plain l) : Counts step plain 0 l := by
  unfold Counts
  rw [counting_zero]
  exact .of_run lifts

theorem state_bind {next : LowerState → Lowering Unit} (rest : Counts (next l.state) plain n l) :
    Counts (state >>= next) plain n l :=
  rest

theorem seq {fst : Analysis β} {next : β → Lowering Unit} {next' : β → Analysis Unit}
    (snd : ∀ b s, Counts (next b) (next' b) n { l with session := s }) :
    Counts (liftM fst >>= next) (fst >>= next') n l :=
  .after rfl fun b s _ => snd b s

theorem bind (fst : Counts step plain m l) {next : Lowering Unit} {next' : Analysis Unit}
    (snd : ∀ s, Counts next next' n ⟨s, l.state.counting m⟩) :
    Counts (step >>= fun _ => next) (plain >>= fun _ => next') (m + n) l := by
  unfold Counts
  rw [← counting_add]
  exact Leaves.bind fst fun _ => snd

theorem inLoop {targets : LoopTargets}
    (inner : Counts step plain n { l with state.loops := targets :: l.state.loops }) :
    Counts (Lowering.inLoop targets step) plain n l := by
  unfold Counts Leaves Lowering.inLoop Lowering.during at *
  dsimp only at inner ⊢
  cases run : plain l.session with
  | ok =>
    rw [run] at inner
    rw [inner]
    rfl
  | error =>
    rw [run] at inner
    obtain ⟨st, inner⟩ := inner
    exact ⟨_, by rw [inner]⟩

theorem inBranch {block : Option Nat} {next : Nat} (none : block.isNone → n = 0)
    (inner : ∀ s, Counts step plain n { l with session := s }) :
    Counts (Lowering.inBranch block next step) (Stencil.inBranch block next plain) n l := by
  cases block with
  | none =>
    rw [none rfl]
    exact of_lifts rfl
  | some => exact seq fun _ _ => bind (inner _) fun _ => of_lifts rfl

theorem blockUnless {empty : Bool} {name : String} {next : Option Nat → Lowering Unit}
    {next' : Option Nat → Analysis Unit} (snd : ∀ block s, (block.isNone → empty) →
      Counts (next block) (next' block) n { l with session := s }) :
    Counts (liftM (Stencil.blockUnless empty name) >>= next)
      (Stencil.blockUnless empty name >>= next') n l := by
  refine .after rfl fun block s run => snd block s fun none => ?_
  cases empty with
  | true => rfl
  | false =>
    obtain ⟨id, _, -, made⟩ := bind_ok run
    cases made
    cases none

end Counts

section

variable {r : Resolver} {frame : Frame}

theorem lowerReturn_counts (current : frame? l.state = some frame) {value : Option Expr} {span : Span} :
    Counts (lowerReturn r value span) (Stencil.lowerReturn r frame value span) 1 l := by
  obtain ⟨f, function, rfl⟩ := Option.map_eq_some_iff.mp current
  unfold lowerReturn Stencil.lowerReturn
  refine .state_bind ?_
  rw [function]
  exact .after (returnValue_lifts r) fun value s _ => .of_run rfl

mutual

theorem lowerStmt_counts : ∀ s l, frame? l.state = some frame →
    Counts (lowerStmt r s) (Stencil.lowerStmt r frame l.state.loops.head? s) s.returns l
  | .binding .., _, _ => .of_lifts (lowerBinding_lifts r)
  | .assign .., _, _ => .of_lifts (lowerAssignment_lifts r)
  | .expr .., _, _ => .of_lifts (.bind (lower_lifts r) fun _ _ => rfl)
  | .ret .., _, current => lowerReturn_counts current
  | .branch cond body otherwise _, l, current => by
    refine .after (lowerCondition_lifts r) fun v _ _ => ?_
    refine Counts.blockUnless fun yes _ bare => .blockUnless fun no _ bare' => .seq fun _ _ => .seq fun _ _ => ?_
    refine .bind (.inBranch (fun none => Block.returns_of_isEmpty (bare none))
      fun s => lowerBlock_counts body ⟨s, l.state⟩ current) fun _ => ?_
    refine .bind (n := 0) (.inBranch (fun none => Alternative.returns_of_isEmpty (bare' none))
      fun s => ?_) fun _ => .of_lifts rfl
    exact lowerAlternative_counts otherwise ⟨s, l.state.counting body.returns⟩
      ((frame_counting _ _).trans current)
  | .loop cond body _, l, current => by
    refine .seq fun header _ => .seq fun _ _ => .after (lowerCondition_lifts r) fun v _ _ => ?_
    refine Counts.blockUnless fun lies _ bare => .seq fun exit _ => .seq fun _ _ => ?_
    refine .bind (n := 0) (.inBranch (fun none => Block.returns_of_isEmpty (bare none))
      fun s => .inLoop ?_) fun _ => .of_lifts rfl
    exact lowerBlock_counts body
      ⟨s, { l.state with loops := { header, exit } :: l.state.loops }⟩ current
  | .leave .., _, _ | .again .., _, _ => .of_lifts (.state_bind rfl)
  | .block body _, l, current => lowerBlock_counts body l current

theorem lowerAlternative_counts : ∀ a l, frame? l.state = some frame →
    Counts (lowerAlternative r a) (Stencil.lowerAlternative r frame l.state.loops.head? a) a.returns l
  | .absent, _, _ => .of_lifts rfl
  | .block body, l, current => lowerBlock_counts body l current
  | .branch next, l, current => lowerStmt_counts next l current

theorem lowerBlock_counts : ∀ b l, frame? l.state = some frame →
    Counts (lowerBlock r b) (Stencil.lowerBlock r frame l.state.loops.head? b) b.returns l
  | .mk stmts _, l, current =>
    .seq fun _ _ => .seq fun _ _ => .within fun s => lowerStmts_counts stmts ⟨s, l.state⟩ current

theorem lowerStmts_counts : ∀ stmts l, frame? l.state = some frame →
    Counts (lowerStmts r stmts) (Stencil.lowerStmts r frame l.state.loops.head? stmts)
      (Stmt.returnsOf stmts) l
  | [], _, _ => .of_lifts rfl
  | s :: stmts, l, current => by
    refine .seq fun _ u => .bind (lowerStmt_counts s ⟨u, l.state⟩ current) fun v => ?_
    exact lowerStmts_counts stmts ⟨v, l.state.counting s.returns⟩ ((frame_counting _ _).trans current)

end

variable {function : ScopeId} {decl : FuncDecl} {sig : Signature} {body : Block}

/-- The statements of a body. As many `return` statements are lowered as have been counted before. -/
theorem lowerStatements_leaves (loops : l.state.loops = []) :
    Leaves (lowerStatements r function decl sig body)
      (Stencil.lowerStatements r function decl sig body) l fun frame =>
        (l.state.enter frame body.returns).counting body.returns := by
  refine .after rfl fun frame s _ => ?_
  have block := lowerBlock_counts (r := r) body ⟨s, l.state.enter frame body.returns⟩ rfl
  rw [show (l.state.enter frame body.returns).loops = [] from loops] at block
  change Leaves (lowerBlock r body)
    (EStateM.bind (Stencil.lowerBlock r frame none body) fun _ => EStateM.pure frame)
    ⟨s, l.state.enter frame body.returns⟩ _
  unfold Counts Leaves at *
  rw [EStateM.bind]
  dsimp only [List.head?_nil] at block ⊢
  cases run : Stencil.lowerBlock r frame none body s <;> rw [run] at block <;> exact block

theorem lowerBody_leaves (loops : l.state.loops = []) : Leaves (lowerBody r function decl sig body)
      (Stencil.lowerBody r function decl sig body) l fun _ =>
        { l.state with function := none } :=
  (lowerStatements_leaves loops).bind fun _ _ => .of_run rfl

theorem lowerFunction_lifts (id : ScopeId) (s : Session) :
    Lifts (lowerFunction id) (Stencil.lowerFunction id) ⟨s, {}⟩ := by
  unfold lowerFunction Stencil.lowerFunction
  refine .get_bind ?_
  dsimp only
  cases s.tree.kind id with
  | function e =>
    obtain ⟨decl, sig, code, _⟩ := e
    cases code with
    | none => rfl
    | some code =>
    dsimp only
    cases decl.body with
    | none => rfl
    | some body =>
      refine .seq fun _ u => ?_
      have inner : Leaves (within id (lowerBody s.resolver id decl sig body))
          (Analysis.within id (Stencil.lowerBody s.resolver id decl sig body)) ⟨u, {}⟩
            fun _ => {} :=
        .within fun _ => lowerBody_leaves rfl
      change EStateM.bind (attempt _) _ _ = lift (EStateM.bind (Analysis.attempt _) _) _
      unfold Leaves at inner
      rw [EStateM.bind, attempt, lift, EStateM.bind, Analysis.attempt]
      dsimp only at inner ⊢
      cases run : Analysis.within id (Stencil.lowerBody s.resolver id decl sig body) u with
      | ok =>
        rw [run] at inner
        rw [inner]
        rfl
      | error =>
        rw [run] at inner
        obtain ⟨_, inner⟩ := inner
        rw [inner]
        rfl
  | _ => rfl

end

end Lowering

end Stencil
