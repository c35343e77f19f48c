import Stencil.Lowering.Function
import Stencil.Proofs.Analysis.Located
import Stencil.Proofs.Lowering.Aggregate

namespace Stencil

open Locates Span Ir Resolver Problem List Lies

abbrev Lands {α : Type} (text : Span) (step : Analysis α) : Prop :=
  Locates text step

variable {text span : Span} {r : Resolver} {reference : Bool} {name : String} {type : Ty}
  {addr : Value}
  {v : TypedValue} {m : Meaning} {p : Place} {op : BinaryOp} {d : Diagnostic}

theorem newBlock_lands : Lands text (.newBlock name) := by
  refine seq build fun block => ?_
  cases block with
  | some => exact idle
  | none => exact fail_origin

theorem terminate_lands {t : Terminator} : Lands text (.terminate t) := by
  refine get_bind fun s located => ?_
  split
  · exact set { located with }
  · exact fail_origin

theorem loadFrom_lands : Lands text (loadFrom type addr) :=
  seq build fun _ => idle

theorem follow_lands : Lands text p.follow := by
  unfold Place.follow
  split
  · exact seq loadFrom_lands fun _ => idle
  · exact idle

section

variable (holds : text.Holds span)
include holds

theorem convertTo_lands {implicit : Bool} : Lands text (.convertTo v type implicit span) := by
  refine get_bind fun s located => ?_
  split
  · exact seq (set { located with }) fun _ => idle
  · exact fail holds

theorem asValue_lands : Lands text (m.asValue span) := by
  cases m with
  | value => exact idle
  | place => exact loadFrom_lands
  | function | scope =>
    refine tree_bind fun t _ => ?_
    repeat' split
    all_goals first | exact idle | exact fail holds

theorem asPlace_lands : Lands text (m.asPlace span) := by
  unfold Meaning.asPlace
  repeat' split
  · exact idle
  · exact idle
  · exact seq build fun _ => seq build fun _ => idle
  all_goals exact tree_bind fun _ _ => fail holds

theorem nodeMeaning_lands {id : ScopeId} : Lands text (nodeMeaning reference id name span) := by
  refine tree_bind fun t _ => ?_
  repeat' split
  all_goals first | exact idle | exact fail holds

theorem nameMeaning_lands : Lands text (nameMeaning reference name span) := by
  refine tree_bind fun t _ => ?_
  split
  · exact nodeMeaning_lands holds
  · exact fail holds

theorem instanceMember_lands : Lands text (instanceMember reference p name span) := by
  refine seq follow_lands fun p => ?_
  split
  · refine tree_bind fun t _ => ?_
    repeat' split
    all_goals
      first
      | exact idle
      | exact fail holds
      | exact nodeMeaning_lands holds
      | exact seq build fun _ => idle
  · exact fail holds

theorem memberMeaning_lands (located : r.Located text) :
    Lands text (memberMeaning r reference m name span) := by
  cases m with
  | scope =>
    refine seq (namespaceScope_locates located holds) fun _ => tree_bind fun t _ => ?_
    split
    · exact nodeMeaning_lands holds
    · exact fail holds
  | function => exact tree_bind fun _ _ => fail holds
  | value | place => exact seq (asPlace_lands holds) fun p => instanceMember_lands holds

theorem asCondition_lands : Lands text (asCondition v span) :=
  require holds idle

theorem asCallee_lands : Lands text (m.asCallee span) := by
  cases m with
  | function id =>
    refine tree_bind fun t _ => ?_
    cases t.kind id with
    | function => exact check holds idle
    | _ => exact fail holds
  | scope => exact tree_bind fun _ _ => fail holds
  | value | place =>
  refine seq (asValue_lands holds) fun v => ?_
  split
  · exact idle
  · exact fail holds

theorem calleeCheck_lands {c : Callee} {count : Nat} : Lands text (c.check count span) := by
  refine check holds (check holds ?_)
  split
  · exact idle
  · exact fail holds

theorem asArray_lands : Lands text (p.asArray span) := by
  unfold Place.asArray
  split
  · exact idle
  · exact fail holds

theorem elementPlace_lands {length : Nat} : Lands text (elementPlace p type length v span) := by
  refine require holds ?_
  split
  · exact require holds (seq build fun _ => idle)
  · exact seq build fun _ => idle

theorem storeConverted_lands : Lands text (storeConverted addr type m span) :=
  seq (asValue_lands holds) fun _ => seq (convertTo_lands holds) fun _ => build

theorem unaryOperation_lands {op : UnaryOp} {arg : Span} (inner : text.Holds arg) :
    Lands text (unaryOperation op v arg span) := by
  cases op with
  | neg | bitNot =>
    refine require holds ?_
    split
    all_goals first | exact idle | exact seq build fun _ => idle
  | not =>
    refine require inner ?_
    split
    all_goals first | exact idle | exact seq build fun _ => idle

theorem foldConstants_located {a b : Int} {left right : Ty} {rightSpan : Span}
    (inner : text.Holds rightSpan)
    (failed : foldConstants op a b left right rightSpan span = .error d) : d.Located text := by
  unfold foldConstants at failed
  repeat' split at failed
  all_goals cases failed
  all_goals first | exact located holds | exact located inner

theorem binaryOperation_lands {lhs rhs : TypedValue} {left right : Span}
    (fst : text.Holds left) (snd : text.Holds right) :
    Lands text (binaryOperation op lhs rhs left right span) := by
  unfold binaryOperation
  extract_lets compared arithmetic k
  have rest : ∀ u, Lands text (k u) := by
    intro u
    dsimp only [k]
    split
    · exact fromExcept (fun d failed => foldConstants_located holds snd failed) fun _ _ => trivial
    split
    · exact fail holds
    refine require holds ?_
    refine seq (convertTo_lands fst) fun _ => seq (convertTo_lands snd) fun _ => ?_
    split
    · split
      · exact idle
      · exact seq build fun _ => idle
    refine check snd ?_
    split
    · exact idle
    · exact seq build fun _ => idle
  clear_value compared arithmetic k
  split
  · split
    · exact seq build fun _ => idle
    · exact fail_bind holds
  · exact rest ()

end

theorem openCircuit_lands {lhs : TypedValue} : Lands text (openCircuit op lhs) := by
  refine seq build fun _ => seq build fun _ => ?_
  refine seq newBlock_lands fun _ => seq newBlock_lands fun _ => ?_
  exact seq terminate_lands fun _ => seq build fun _ => idle

theorem shortCircuit_lands {lhs : TypedValue} {rhs : Analysis TypedValue}
    (right : Lands text rhs) : Lands text (shortCircuit op lhs rhs) := by
  unfold shortCircuit
  split
  · rename_i n known
    generalize (if op = .or then (1 : Int) else 0) = decisive
    split
    · exact idle
    · exact right
  refine seq openCircuit_lands fun _ => seq right fun _ => ?_
  exact seq build fun _ => seq terminate_lands fun _ => seq build fun _ => loadFrom_lands

theorem storeValues_lands {values : List (TypedValue × Span)} (holds : ∀ v ∈ values, text.Holds v.2)
    {index : Nat} : Lands text (storeValues type addr index values) := by
  induction values generalizing index with
  | nil => exact idle
  | cons value values ih =>
    obtain ⟨fst, rest⟩ := forall_mem_cons.mp holds
    exact seq (convertTo_lands fst) fun v =>
      seq build fun _ => seq build fun _ => ih rest

theorem commonEntryType_located {rest : List (Ty × Span)} (holds : ∀ v ∈ rest, text.Holds v.2)
    (failed : commonEntryType type rest = .error d) : d.Located text := by
  induction rest generalizing type with
  | nil => cases failed
  | cons entry rest ih =>
  obtain ⟨own, others⟩ := forall_mem_cons.mp holds
  rw [commonEntryType] at failed
  split at failed
  · exact ih others failed
  cases failed
  exact located own

theorem arrayOfValues_lands {values : List (TypedValue × Span)}
    (holds : ∀ v ∈ values, text.Holds v.2) (own : text.Holds span) :
    Lands text (arrayOfValues values span) := by
  cases values with
  | nil => exact fail own
  | cons fst rest =>
  have common : ∀ v ∈ rest.map (fun v => (v.1.type, v.2)), text.Holds v.2 := by
    intro v mem
    obtain ⟨w, has, rfl⟩ := mem_map.mp mem
    exact holds w (.tail _ has)
  refine bind (fromExcept (fun d failed => commonEntryType_located common failed)
    fun _ _ => trivial) fun elem _ => ?_
  exact seq build fun _ => seq (storeValues_lands holds) fun _ => loadFrom_lands

theorem arraySlots_located {count : Nat} (holds : text.Holds span)
    (failed : arraySlots type count span = .error d) : d.Located text := by
  unfold arraySlots at failed
  repeat' split at failed
  all_goals cases failed
  all_goals exact located holds

theorem fieldSlots_located {layout : List (String × Ty)} {entries : List (Option String × Span)}
    (holds : ∀ e ∈ entries, text.Holds e.2) {position : Nat} {filled : List Nat}
    (failed : .error d ∈ fieldSlots layout position filled entries) : d.Located text := by
  induction entries generalizing position filled with
  | nil => cases failed
  | cons entry entries ih =>
  obtain ⟨own, others⟩ := forall_mem_cons.mp holds
  rw [fieldSlots] at failed
  split at failed
  · cases mem_singleton.mp failed
    exact located own
  split at failed
  · cases mem_singleton.mp failed
    exact located own
  rcases mem_cons.mp failed with absurd | later
  · cases absurd
  · exact ih others later

/-- Problems with the entries of a list, at the entries or at the list. -/
theorem initializerSlots_located (t : ScopeTree) (type : Ty)
    {entries : List (Option String × Span)} (holds : ∀ e ∈ entries, text.Holds e.2)
    (own : text.Holds span) :
    (∀ d, t.initializerSlots type entries span = .error d → d.Located text) ∧
      ∀ slots, t.initializerSlots type entries span = .ok slots →
        ∀ d, .error d ∈ slots → d.Located text := by
  unfold ScopeTree.initializerSlots
  split
  · dsimp only
    split
    · refine ⟨?_, by simp⟩
      rintro _ ⟨⟩
      exact located own
    refine ⟨by simp, ?_⟩
    rintro _ ⟨⟩ d failed
    exact fieldSlots_located holds failed
  · split
    · rename_i span got
      refine ⟨?_, by simp⟩
      rintro _ ⟨⟩
      exact located (holds _ (mem_of_find?_eq_some got))
    cases slots : arraySlots _ entries.length span with
    | error =>
      refine ⟨?_, by simp [Except.map]⟩
      rintro _ ⟨⟩
      exact arraySlots_located own slots
    | ok => simp [Except.map]
  refine ⟨?_, by simp⟩
  rintro _ ⟨⟩
  exact located own

theorem entryAddr_lands {index : Nat} : Lands text (p.entryAddr index) := by
  unfold Place.entryAddr
  split
  · exact build
  · exact build
  · exact idle

variable {outer : Span}

theorem Entry.heads_hold {entries : List (Entry Expr)} (lies : Expr.EntriesIn outer entries) :
    ∀ e ∈ entries.map Entry.head, outer.Holds e.2 := by
  intro e mem
  obtain ⟨entry, has, rfl⟩ := mem_map.mp mem
  exact (Expr.entriesIn_iff.mp lies entry has).1

section

set_option linter.unusedSectionVars false

variable (located : r.Located text)
include located

mutual

theorem meaning_lands {reference : Bool} {hint : Option Ty} : ∀ e, In text e →
    Lands text (meaning r reference hint e)
  | .int _ _, _ | .float _ _, _ | .bool _ _, _ => idle
  | .string _ _, _ => seq build fun _ => seq build fun _ => idle
  | .array items span, lies => by
    have items' := lies.2.lift lies.1
    unfold meaning
    split
    · refine seq build fun slot => ?_
      refine bind (fromExcept (fun _ failed => arraySlots_located lies.1 failed)
        fun _ _ => trivial) fun slots _ => ?_
      refine seq (fillItems_lands slots items items') fun _ => ?_
      exact map loadFrom_lands
    refine seq (values_lands items items') fun _ => map ?_
    refine arrayOfValues_lands ?_ lies.1
    -- each value is reported at the item it comes from
    intro v mem
    obtain ⟨e, has, same⟩ := mem_map.mp (of_mem_zip mem).2
    rw [← same]
    exact (Expr.allIn_iff.mp items' e has).holds
  | .initializer entries span, lies => by
    have entries' := lies.2.lift lies.1
    cases hint with
    | none => exact fail lies.1
    | some type =>
    refine seq build fun slot => tree_bind fun t _ => ?_
    have slots := initializerSlots_located t type (Entry.heads_hold entries') lies.1
    refine bind (fromExcept slots.1 slots.2) fun got failures => ?_
    refine seq (fillEntries_lands got entries failures entries') fun _ => ?_
    exact map loadFrom_lands
  | .identifier name span, lies => nameMeaning_lands lies.1
  | .member object name nameSpan span, lies =>
    seq (meaning_lands object (.lift lies.2.1 lies.1))
      fun _ => memberMeaning_lands (lies.1.trans lies.2.2) located
  | .call callee args span, lies => by
    have callee' := lies.2.1.imp_left lies.1.trans
    refine seq (meaning_lands callee callee') fun m => ?_
    refine seq (asCallee_lands callee'.1) fun target => ?_
    refine seq (calleeCheck_lands lies.1) fun _ => ?_
    refine seq (arguments_lands _ args (lies.2.2.lift lies.1)) fun args => ?_
    exact map (seq build fun _ => idle)
  | .index base position span, lies => by
    have position' := lies.2.2.imp_left lies.1.trans
    refine seq (meaning_lands base (.lift lies.2.1 lies.1)) fun m => ?_
    refine seq (asPlace_lands lies.1) fun place => ?_
    refine seq follow_lands fun place => ?_
    refine seq (asArray_lands lies.1) fun _ => ?_
    refine seq (meaning_lands position position') fun m => ?_
    refine seq (asValue_lands position'.1) fun v => map ?_
    exact elementPlace_lands position'.1
  | .binary op left right span, lies => by
    have left' := lies.2.1.imp_left lies.1.trans
    have right' := lies.2.2.imp_left lies.1.trans
    unfold meaning
    split
    · refine seq (meaning_lands left left') fun _ => seq (asValue_lands left'.1) fun _ => ?_
      refine seq (asCondition_lands left'.1) fun _ => map (shortCircuit_lands ?_)
      exact seq (meaning_lands right right') fun _ => seq (asValue_lands right'.1) fun _ =>
        asCondition_lands right'.1
    refine seq (meaning_lands left left') fun _ => seq (asValue_lands left'.1) fun _ => ?_
    refine seq (meaning_lands right right') fun _ => seq (asValue_lands right'.1) fun _ => map ?_
    exact binaryOperation_lands lies.1 left'.1 right'.1
  | .unary op arg span, lies => by
    have arg' := And.imp_left lies.1.trans lies.2
    unfold meaning
    split
    · exact idle
    refine seq (meaning_lands arg arg') fun _ => ?_
    refine seq (asValue_lands arg'.1) fun _ => map ?_
    exact unaryOperation_lands lies.1 arg'.1
  | .addressOf arg span, lies => by
    have arg' := And.imp_left lies.1.trans lies.2
    refine seq (meaning_lands arg arg') fun m => ?_
    cases m with
    | place => exact idle
    | _ => exact fail arg'.1
  | .deref arg span, lies => by
    have arg' := And.imp_left lies.1.trans lies.2
    refine seq (meaning_lands arg arg') fun m => ?_
    refine seq (asValue_lands arg'.1) fun v => ?_
    split
    · exact idle
    · exact fail lies.1
  | .cast arg type span, lies => by
    have arg' := lies.2.1.imp_left lies.1.trans
    refine tree_bind fun t _ => ?_
    refine seq (type_locates located type (lies.2.2.lift lies.1)) fun target => ?_
    refine seq (meaning_lands arg arg') fun m => ?_
    refine seq (asValue_lands arg'.1) fun v => map ?_
    exact convertTo_lands lies.1

theorem fill_lands {addr : Value} {type : Ty} : ∀ e, In text e → Lands text (fill r addr type e)
  | .initializer entries span, lies => by
    have entries' := lies.2.lift lies.1
    refine tree_bind fun t _ => ?_
    have slots := initializerSlots_located t type (Entry.heads_hold entries') lies.1
    refine bind (fromExcept slots.1 slots.2) fun got failures => ?_
    exact seq (fillEntries_lands got entries failures entries') fun _ => idle
  | .array items span, lies => by
    have items' := lies.2.lift lies.1
    unfold fill
    split
    · refine bind (fromExcept (fun _ failed => arraySlots_located lies.1 failed)
        fun _ _ => trivial) fun slots _ => ?_
      exact seq (fillItems_lands slots items items') fun _ => idle
    · exact idle
  | .int _ _, _ | .float _ _, _ | .bool _ _, _ | .string _ _, _ | .identifier _ _, _
  | .member _ _ _ _, _ | .call _ _ _, _ | .index _ _ _, _ | .binary _ _ _ _, _ | .unary _ _ _, _
  | .addressOf _ _, _ | .deref _ _, _ | .cast _ _ _, _ => idle

theorem fillEntries_lands {base : Place} :
    ∀ (slots : List (Except Diagnostic Slot)) (entries : List (Entry Expr)),
      (∀ d, .error d ∈ slots → d.Located text) →
      Expr.EntriesIn text entries → Lands text (fillEntries r base slots entries)
  | slot :: slots, entry :: entries, failures, lies => by
    have value := lies.1.2.imp_left lies.1.1.trans
    have rest : Lands text (fillEntries r base slots entries) :=
      fillEntries_lands slots entries (fun d mem => failures d (.tail _ mem)) lies.2
    refine bind (fromExcept (fun d failed => failures d (failed ▸ (.head _)))
      fun _ _ => trivial) fun slot _ => ?_
    refine seq entryAddr_lands fun addr => ?_
    refine seq (fill_lands entry.value value) fun _ => ?_
    split
    · exact rest
    refine seq (meaning_lands entry.value value) fun m => ?_
    exact seq (storeConverted_lands value.1) fun _ => rest
  | [], [], _, _ | [], _ :: _, _, _ | _ :: _, [], _, _ => idle

theorem fillItems_lands {base : Place} : ∀ slots items, Expr.AllIn text items →
      Lands text (fillItems r base slots items)
  | slot :: slots, item :: items, lies => by
    have rest : Lands text (fillItems r base slots items) := fillItems_lands slots items lies.2
    refine seq entryAddr_lands fun addr => ?_
    refine seq (fill_lands item lies.1) fun _ => ?_
    split
    · exact rest
    refine seq (meaning_lands item lies.1) fun m => ?_
    exact seq (storeConverted_lands lies.1.1) fun _ => rest
  | [], [], _ | [], _ :: _, _ | _ :: _, [], _ => idle

theorem arguments_lands : ∀ types args, Expr.AllIn text args → Lands text (arguments r types args)
  | type :: types, arg :: args, lies => by
    refine seq (meaning_lands arg lies.1) fun m => ?_
    refine seq (asValue_lands lies.1.1) fun v => ?_
    refine seq (convertTo_lands lies.1.1) fun v => ?_
    exact seq (arguments_lands types args lies.2) fun _ => idle
  | [], [], _ | [], _ :: _, _ | _ :: _, [], _ => idle

theorem values_lands : ∀ items, Expr.AllIn text items → Lands text (values r items)
  | [], _ => idle
  | item :: items, lies => by
    refine seq (meaning_lands item lies.1) fun m => ?_
    refine seq (asValue_lands lies.1.1) fun v => ?_
    exact seq (values_lands items lies.2) fun _ => idle

end

end

section

variable (located : r.Located text) {e : Expr} (lies : In text e)

include located lies

theorem Expr.lower_lands {hint : Option Ty} : Lands text (e.lower r hint) :=
  seq (meaning_lands located e lies) fun _ => asValue_lands lies.holds

theorem Expr.lowerPlace_lands : Lands text (e.lowerPlace r) := by
  refine seq (meaning_lands located e lies) fun m => ?_
  cases m with
  | place => exact idle
  | _ => exact fail lies.holds

theorem Expr.lowerCondition_lands : Lands text (e.lowerCondition r) :=
  seq (e.lower_lands located lies) fun _ => asCondition_lands lies.holds

theorem Expr.lowerInto_lands : Lands text (e.lowerInto r addr type) := by
  refine seq (fill_lands located e lies) fun _ => ?_
  split
  · exact idle
  exact seq (meaning_lands located e lies) fun _ => storeConverted_lands lies.holds

end

theorem add_lands {kind : ScopeKind} (plain : kind.Located text)
    (holds : text.Holds span) : Lands text (Analysis.add name kind span) :=
  tree_bind fun _ _ => addChild plain holds

variable {constant : Bool}

theorem bindSlot_lands (holds : text.Holds span) :
    Lands text (bindSlot name type addr constant span) :=
  seq (add_lands trivial holds) fun _ => idle

section

variable (located : r.Located text)
include located

theorem lowerBinding_lands (holds : text.Holds span) {type : Option TypeSyntax} {init : Option Expr}
    (inType : In text type) (inInit : In text init) :
    Lands text (lowerBinding r name span type init constant) := by
  cases type with
  | some type =>
    refine tree_bind fun t _ => ?_
    refine seq (type_locates located type (inType type rfl)) fun type => ?_
    refine seq (requireStorable_locates holds) fun _ => seq build fun slot => ?_
    cases init with
    | some init =>
      exact seq (init.lowerInto_lands located (inInit init rfl)) fun _ => bindSlot_lands holds
    | none => exact bindSlot_lands holds
  | none =>
  cases init with
  | none => exact fail holds
  | some init =>
  have lies := inInit init rfl
  have rest : Lands text (do
      let v ← init.lower r none
      requireStorable v.type init.span
      let slot ← temporary v.type
      storeAt v.type slot v.value
      bindSlot name v.type slot constant span) := by
    refine seq (init.lower_lands located lies) fun v => ?_
    refine seq (requireStorable_locates lies.holds) fun _ => ?_
    exact seq build fun slot => seq build fun _ => bindSlot_lands holds
  cases init with
  | initializer => exact fail lies.1
  | _ => exact rest

theorem lowerAssignment_lands {target value : Expr} (left : In text target)
    (right : In text value) :
    Lands text (lowerAssignment r target value) := by
  refine seq (target.lowerPlace_lands located left) fun _ => ?_
  split
  · exact fail_bind left.holds
  · exact value.lowerInto_lands located right

theorem returnValue_lands {value : Option Expr} (lies : In text value) (holds : text.Holds span) :
    Lands text (returnValue r type value span) := by
  cases value with
  | some e =>
    have own := lies e rfl
    refine check own.holds (seq (e.lower_lands located own) fun _ => ?_)
    exact seq (convertTo_lands own.holds) fun _ => idle
  | none => exact require holds idle

theorem lowerReturn_lands {frame : Frame} {value : Option Expr} (lies : In text value)
    (holds : text.Holds span) : Lands text (lowerReturn r frame value span) := by
  refine seq (returnValue_lands located lies holds) fun _ => ?_
  unfold giveBack
  repeat' split
  · exact seq build fun _ => terminate_lands
  all_goals exact terminate_lands

end

variable {loop : Option LoopTargets}

theorem lowerJump_lands (target : LoopTargets → Nat) (holds : text.Holds span) :
    Lands text (lowerJump loop target name span) := by
  cases loop with
  | some => exact terminate_lands
  | none => exact fail holds

theorem closeBranch_lands {next : Nat} : Lands text (closeBranch next) := by
  refine get_bind fun s _ => ?_
  split
  · exact idle
  · exact terminate_lands

theorem blockUnless_lands {empty : Bool} : Lands text (blockUnless empty name) := by
  unfold blockUnless
  split
  · exact idle
  · exact seq newBlock_lands fun _ => idle

theorem inBranch_lands {block : Option Nat} {next : Nat} {step : Analysis Unit}
    (inner : Lands text step) : Lands text (inBranch block next step) := by
  cases block with
  | some => exact seq build fun _ => seq inner fun _ => closeBranch_lands
  | none => exact idle

theorem leaveTerminated_lands : Lands text leaveTerminated := by
  refine get_bind fun s _ => ?_
  split
  · exact seq newBlock_lands fun _ => build
  · exact idle

theorem loopHeader_lands : Lands text loopHeader := by
  refine get_bind fun s _ => ?_
  dsimp only
  split
  · exact idle
  · exact seq newBlock_lands fun _ => seq terminate_lands fun _ => idle

theorem generateName_lands : Lands text (.generateName name) :=
  tree_bind fun _ inText => seq (modifyTree fun _ _ => inText) fun _ => idle

section

set_option linter.unusedSectionVars false

variable (located : r.Located text) (frame : Frame)
include located frame

mutual

theorem lowerStmt_lands {loop : Option LoopTargets} :
    ∀ s, In text s → Lands text (lowerStmt r frame loop s)
  | .binding name nameSpan type init constant span, lies =>
    lowerBinding_lands located (lies.1.trans lies.2.1) (lies.2.2.1.lift lies.1)
      (lies.2.2.2.lift lies.1)
  | .assign target value span, lies =>
    lowerAssignment_lands located (lies.2.1.lift lies.1) (lies.2.2.lift lies.1)
  | .expr value span, lies =>
    seq (value.lower_lands located (In.lift lies.2 lies.1)) fun _ => idle
  | .ret value span, lies => lowerReturn_lands located (.lift lies.2 lies.1) lies.1
  | .branch cond body otherwise span, lies => by
    refine seq (cond.lowerCondition_lands located (lies.2.1.lift lies.1)) fun v => ?_
    refine seq blockUnless_lands fun yes => seq blockUnless_lands fun no => ?_
    refine seq newBlock_lands fun done => seq terminate_lands fun _ => ?_
    refine seq (inBranch_lands (lowerBlock_lands body (.lift lies.2.2.1 lies.1))) fun _ => ?_
    exact seq (inBranch_lands (lowerAlternative_lands otherwise (.lift lies.2.2.2 lies.1)))
      fun _ => build
  | .loop cond body span, lies => by
    refine seq loopHeader_lands fun header => seq build fun _ => ?_
    refine seq (cond.lowerCondition_lands located (lies.2.1.lift lies.1)) fun v => ?_
    refine seq blockUnless_lands fun entry => seq newBlock_lands fun _ => ?_
    refine seq terminate_lands fun _ => ?_
    exact seq (inBranch_lands (lowerBlock_lands body (.lift lies.2.2 lies.1))) fun _ => build
  | .leave span, lies => lowerJump_lands _ lies.1
  | .again span, lies => lowerJump_lands _ lies.1
  | .block body span, lies => lowerBlock_lands body (.lift lies.2 lies.1)

theorem lowerAlternative_lands {loop : Option LoopTargets} :
    ∀ a, In text a → Lands text (lowerAlternative r frame loop a)
  | .absent, _ => idle
  | .block body, lies => lowerBlock_lands body lies
  | .branch next, lies => lowerStmt_lands next lies

theorem lowerBlock_lands {loop : Option LoopTargets} :
    ∀ b, In text b → Lands text (lowerBlock r frame loop b)
  | .mk stmts span, lies => by
    refine seq generateName_lands fun name => ?_
    refine seq (add_lands trivial lies.1) fun scope => within ?_
    exact lowerStmts_lands stmts lies.1 lies.2

theorem lowerStmts_lands {loop : Option LoopTargets} :
    ∀ ss {outer : Span}, text.Holds outer → Stmt.AllIn outer ss →
      Lands text (lowerStmts r frame loop ss)
  | [], _, _, _ => idle
  | s :: ss, _, holds, lies =>
    seq leaveTerminated_lands fun _ =>
      seq (lowerStmt_lands s (.lift lies.1 holds)) fun _ =>
        lowerStmts_lands ss holds lies.2

end

end

theorem bindParam_lands {index : Nat} (holds : text.Holds span) :
    Lands text (bindParam name type constant index span) :=
  seq build fun _ => seq build fun _ => bindSlot_lands holds

theorem funcParams_lands {params : List Param} {types : List Ty} {index : Nat}
    (lies : In text params) : Lands text (bindParams index params types) := by
  induction params generalizing types index with
  | nil => exact idle
  | cons param params ih =>
  cases types with
  | nil => exact idle
  | cons type types =>
  obtain ⟨fst, rest⟩ := forall_mem_cons.mp lies
  refine seq (requireStorable_locates fst.1) fun _ => ?_
  exact seq (bindParam_lands fst.1) fun _ => ih rest

section

variable {decl : FuncDecl} (named : text.Holds decl.nameSpan)

include named

theorem bindSelf_lands {function : ScopeId} {mem : Bool} :
    Lands text (bindSelf function decl mem) := by
  cases mem with
  | false => exact idle
  | true =>
  refine tree_bind fun t _ => ?_
  split
  · exact seq (bindParam_lands named) fun _ => idle
  · exact fail named

variable {frame : Frame}

theorem fallThrough_lands : Lands text (fallThrough frame decl) := by
  unfold fallThrough
  repeat' split
  · exact idle
  · exact idle
  · exact get_bind fun s _ => check named idle

theorem finishBody_lands : Lands text (finishBody frame decl) := by
  refine get_bind fun s _ => ?_
  -- `finish` fills the block behind all `return`s, whichever way the body ends
  extract_lets leave finish
  have rest : ∀ u, Lands text (finish u) := by
    intro u
    dsimp only [finish]
    split
    · refine seq build fun _ => ?_
      split
      · exact seq (map loadFrom_lands) fun _ => terminate_lands
      · exact seq idle fun _ => terminate_lands
    · exact idle
  split
  · exact rest ()
  · exact seq (fallThrough_lands named) fun _ => seq terminate_lands rest

end

theorem newFrame_lands {result : Ty} {returns : Nat} : Lands text (newFrame result returns) := by
  unfold newFrame
  split
  · exact idle
  refine choice idle (map build) fun _ => ?_
  exact seq newBlock_lands fun _ => idle

theorem openBody_lands {decl : FuncDecl} (lies : In text decl) {function : ScopeId}
    {sig : Signature} {returns : Nat} :
    Lands text (openBody function decl sig returns) := by
  have named := lies.1.trans lies.2.name
  refine seq (bindSelf_lands named) fun _ => ?_
  refine seq (funcParams_lands (lies.2.params.lift lies.1)) fun _ => ?_
  exact check named newFrame_lands

theorem lowerBody_lands (located : r.Located text) {decl : FuncDecl}
    (lies : In text decl) {function : ScopeId} {sig : Signature}
    {body : Block} (own : body ∈ decl.body) :
    Lands text (lowerBody r function decl sig body) := by
  refine seq (seq (openBody_lands lies) fun frame => ?_) fun _ => ?_
  · exact seq (lowerBlock_lands located frame body ((lies.2.body body own).lift lies.1))
      fun _ => idle
  · exact finishBody_lands (lies.1.trans lies.2.name)

theorem lowerFunction_lands (function : ScopeId) : Lands text (lowerFunction function) := by
  refine get_bind fun s inText => ?_
  -- the declaration comes from the tree, so that the tree has to lie in the text
  have own := inText.tree.kind function
  split
  · rename_i kind
    rw [kind] at own
    split
    · rename_i given
      refine seq build fun _ => ?_
      refine bind (attempt (within (lowerBody_lands (s.resolver_located) own given))) ?_
      rintro result ⟨failure, -⟩
      cases result with
      | ok => exact build
      | error d => exact seq build fun _ => throw (failure d rfl)
    · exact idle
  · exact idle

end Stencil
