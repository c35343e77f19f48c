import Stencil.Lowering.Operation
import Stencil.Proofs.Lowering.Emit

namespace Stencil

open Analysis Tracked Spot Ty List Option

/-- A value that can be used at its type. -/
structure TypedValue.Sound (v : TypedValue) (x : Spot) : Prop where
  usable : x.Usable v.value v.type.ir
  known : v.type.Known x.tree

/-- A place that values of its type can be loaded from. -/
structure Place.Sound (p : Place) (x : Spot) : Prop where
  usable : x.Usable p.addr (.pointer p.type.ir)
  known : p.type.Known x.tree

def Reaches (x : Spot) (id : ScopeId) (receiver : Option Ir.Value) : Prop :=
  ∀ addr, receiver = some addr → ∃ p e, x.tree.parent? id = some p ∧
    x.tree.kind p = .template e ∧ x.Usable addr (.pointer (.struct e.structName))

def Meaning.Sound (m : Meaning) (x : Spot) : Prop :=
  match m with
  | .value v => v.Sound x
  | .place p => p.Sound x
  | .function id receiver => Reaches x id receiver
  | .scope _ => True

variable {p : Place}

section

variable {x y : Spot}

variable (way : x.Flows y)
include way

theorem Spot.Flows.known {type : Ty} (known : type.Known x.tree) : type.Known y.tree :=
  known.mono way.lowers.tree

theorem Spot.Flows.value {v : TypedValue} (sound : v.Sound x) : v.Sound y :=
  ⟨way.usable sound.usable, way.known sound.known⟩

theorem Spot.Flows.place (sound : p.Sound x) : p.Sound y :=
  ⟨way.usable sound.usable, way.known sound.known⟩

end

section

variable {x : Spot} {type : Ty} {addr : Ir.Value}

theorem temporary_keeps (type : Ty) : Keeps (temporary type) x fun v y =>
    y.Usable v (.pointer type.ir) ∧ v = .temp x.nextTemp ∧
      y.draft.HasSlot x.nextTemp type.ir ∧ y.draft = x.reserved type.ir ∧
        y.block = x.block ∧ y.tree = x.tree ∧ y.nextTemp = x.nextTemp + 1 :=
  entryAlloca_keeps type.ir

section

variable (address : x.Usable addr (.pointer type.ir))
include address

theorem storeAt_keeps {v : Ir.Value}
    (source : x.Usable v type.ir) : Keeps (storeAt type addr v) x fun _ y =>
      x.Emits y (.store type.ir addr v) ∧ y.nextTemp = x.nextTemp :=
  store_keeps address source

theorem loadFrom_keeps (known : type.Known x.tree) :
    Keeps (loadFrom type addr) x fun v y => v.Sound y ∧ v.type = type ∧ v.value = .temp x.nextTemp ∧
        x.Emits y (.load x.nextTemp type.ir addr) ∧ y.nextTemp = x.nextTemp + 1 := by
  refine .bind (load_keeps address) ?_
  rintro v y way ⟨usable, rfl, emits, temps⟩
  exact .pure ⟨⟨usable, way.known known⟩, rfl, rfl, emits, temps⟩

theorem loadFrom_sound (known : type.Known x.tree) :
    Keeps (loadFrom type addr) x fun v y => v.Sound y ∧ v.type = type :=
  (loadFrom_keeps address known).mono fun _ _ _ h => ⟨h.1, h.2.1⟩

end

theorem follow_keeps (sound : p.Sound x) : Keeps p.follow x fun p y => p.Sound y := by
  obtain ⟨usable, known⟩ := sound
  unfold Place.follow
  split
  · rename_i target pointer
    rw [pointer] at usable known
    refine .bind (loadFrom_sound (by rw [pointer]; exact usable) (by rw [pointer]; exact known)) ?_
    rintro v y _ ⟨⟨usable, known⟩, same⟩
    rw [same, pointer] at usable known
    exact .pure ⟨usable, known_pointer.mp known⟩
  · exact .pure ⟨usable, known⟩

end

section

variable {x : Spot} {m : Meaning} {span : Span}

theorem irs_eq_map (types : List Ty) : irs types = types.map ir := by
  induction types with
  | nil => rfl
  | cons type types ih => rw [irs, ih, map_cons]

/-- A function that takes no instance is a value of its type. -/
theorem function_usable {id : ScopeId} {e : FunctionEntry} (kind : x.tree.kind id = .function e)
    {c : Nat} (code : e.code = some c) : ∃ receiver, x.session.Receives id e.signature.member receiver ∧
      x.Usable (.function e.codeName)
        (.pointer (.function (receiver ++ e.signature.params.map ir) e.signature.result.ir)) := by
  have accounts := x.valid.accounts id
  rw [kind] at accounts
  obtain ⟨-, -, -, -, declared⟩ := accounts
  obtain ⟨f, receiver, got, name, params, result, receives⟩ := declared c code
  exact ⟨receiver, receives, trivial, _, _, ⟨f, mem_of_getElem? got, name, params, result⟩, rfl⟩

theorem asValue_keeps (sound : m.Sound x) : Keeps (m.asValue span) x fun v y => v.Sound y := by
  unfold Meaning.asValue
  split
  · exact .pure sound
  · rename_i p
    obtain ⟨usable, known⟩ := sound
    exact (loadFrom_sound usable known).mono fun _ _ _ h => h.1
  · rename_i id receiver
    refine .tree_bind ?_
    split
    · rename_i e kind
      split
      · exact .fail rfl
      rename_i refused
      simp only [Bool.or_eq_true, not_or, Bool.not_eq_true, isNone_eq_false_iff] at refused
      obtain ⟨⟨-, mem⟩, coded⟩ := refused
      obtain ⟨c, code⟩ := isSome_iff_exists.mp coded
      obtain ⟨receiver, receives, usable⟩ := function_usable kind code
      rw [Session.Receives, mem] at receives
      obtain rfl : receiver = [] := receives
      have accounts := x.valid.accounts id
      rw [show x.tree.kind id = _ from kind] at accounts
      refine .pure ⟨?_, known_function.mpr ⟨accounts.1, accounts.2.1⟩⟩
      rw [Signature.type, ir, irs_eq_map]
      exact usable
    · exact .fail rfl
  · exact .tree_bind (.fail rfl)

theorem asPlace_keeps (sound : m.Sound x) : Keeps (m.asPlace span) x fun p y => p.Sound y := by
  unfold Meaning.asPlace
  split
  · exact .pure sound
  · rename_i v
    obtain ⟨usable, known⟩ := sound
    split
    · rename_i target pointer
      rw [pointer] at usable known
      exact .pure ⟨usable, known_pointer.mp known⟩
    refine .bind (temporary_keeps v.type) ?_
    rintro _ y fst ⟨address, -⟩
    refine .bind (storeAt_keeps address (fst.usable usable)) ?_
    intro _ z snd _
    exact .pure ⟨snd.usable address, snd.known (fst.known known)⟩
  · exact .tree_bind (.fail rfl)
  · exact .tree_bind (.fail rfl)

end

variable {x : Spot} {reference : Bool} {id : ScopeId} {name : String} {span : Span}

theorem Spot.slot_usable (x : Spot) {k : Nat} {type : Ir.Ty} (slot : x.draft.HasSlot k type) :
    x.Usable (.temp k) (.pointer type) := by
  refine ⟨.inl ⟨type, slot⟩, ?_⟩
  obtain ⟨entry, fst, mem⟩ := slot
  obtain ⟨_, rfl, result⟩ := (x.built.fits 0 entry fst).typed _ mem
  exact result k rfl

theorem constant_usable (x : Spot) {v : Ir.Value} {type : Ir.Ty} (constant : v.isConstant)
    (has : v.Has x.session.context [] (fun _ => none) type) : x.Usable v type := by
  refine ⟨?_, Session.constant_has constant has⟩
  cases v <;> trivial

theorem nodeMeaning_keeps (slot : ∀ e addr, x.tree.kind id = .var e → e.storage = .slot addr →
      ∃ k, addr = .temp k ∧ x.draft.HasSlot k e.type.ir) :
    Keeps (nodeMeaning reference id name span) x fun m y => m.Sound y := by
  refine .tree_bind ?_
  cases kind : x.tree.kind id with
  | var e =>
    have accounts := x.valid.accounts id
    rw [kind] at accounts
    obtain ⟨⟨known, -⟩, constant⟩ := accounts
    dsimp only
    cases storage : e.storage with
    | field => exact .fail rfl
    | slot addr =>
      obtain ⟨k, rfl, present⟩ := slot e addr kind storage
      exact .pure ⟨x.slot_usable present, known⟩
    | known global value =>
    obtain ⟨isConstant, has, present, -⟩ := constant global value storage
    dsimp only
    split
    · exact .pure ⟨⟨trivial, _, present, rfl⟩, known⟩
    · exact .pure ⟨constant_usable x isConstant has, known⟩
  | function => exact .pure nofun
  | module | package | template e | spec d | typeAlias e => exact .pure trivial
  | block => exact .fail rfl

theorem member_not_slot {scope : ScopeId} (outer : (x.tree.kind scope).isBody = false)
    (got : x.tree.findChild? scope name = some id) : ∀ e addr, x.tree.kind id = .var e →
      e.storage = .slot addr → ∃ k, addr = .temp k ∧ x.draft.HasSlot k e.type.ir := by
  intro e _ kind storage
  have admits := x.valid.shaped.admitted id scope (x.valid.shaped.child got).1
  rw [show x.session.tree.kind id = _ from kind, ScopeKind.admits, storage] at admits
  rw [show (x.tree.kind scope).isBody from admits] at outer
  cases outer

theorem nameMeaning_keeps : Keeps (nameMeaning reference name span) x fun m y => m.Sound y := by
  refine .tree_bind ?_
  split
  · rename_i id got
    exact nodeMeaning_keeps fun e _ kind storage =>
      x.visible.found x.valid.shaped got kind storage
  · exact .fail rfl

theorem field_of_index {t : ScopeTree} {scope child : ScopeId} {index : Nat} {e : VariableEntry}
    (got : t.findChild? scope name = some child) (kind : t.kind child = .var e)
    (position : t.indexOf? scope name = some index) :
    (t.fields scope)[index]? = some (child, e) := by
  simp only [ScopeTree.indexOf?, got, bind_eq_bind, bind_some] at position
  split at position
  · obtain ⟨lies, same, -⟩ := findIdx?_eq_some_iff_getElem.mp position
    have isVar := (ScopeTree.mem_fields (getElem_mem lies)).2
    obtain rfl : (t.fields scope)[index].1 = child := of_decide_eq_true same
    rw [kind] at isVar
    rw [getElem?_eq_getElem lies, ScopeKind.var.inj isVar]
  · cases position

theorem instanceMember_keeps {mem : String} (sound : p.Sound x) :
    Keeps (instanceMember reference p mem span) x fun m y => m.Sound y := by
  refine .bind (follow_keeps sound) ?_
  rintro p y _ ⟨usable, known⟩
  split
  · rename_i struct scope type
    rw [type] at usable known
    obtain ⟨e, template, structName⟩ := known_struct.mp known
    refine .tree_bind ?_
    cases got : y.tree.findChild? scope mem with
    | none => exact .fail rfl
    | some child =>
    have up := (y.valid.shaped.child got).1
    have slot := member_not_slot (by rw [template]; rfl) got
    dsimp only
    split
    · refine .pure ?_
      rintro _ ⟨⟩
      refine ⟨scope, e, up, template, ?_⟩
      rw [structName]
      exact usable
    · rename_i entry kind
      split
      · cases position : y.tree.indexOf? scope mem with
        | none => exact .fail rfl
        | some index =>
          have accounts := y.valid.accounts child
          rw [show y.session.tree.kind child = _ from kind] at accounts
          have field : y.session.context.field struct index entry.type.ir :=
            ⟨scope, e, _, template, structName, field_of_index got kind position, rfl⟩
          refine .bind (fieldAddr_keeps usable field) ?_
          intro _ z snd usable
          exact .pure ⟨usable, snd.known accounts.1.1⟩
      · exact nodeMeaning_keeps slot
    · exact nodeMeaning_keeps slot
  · exact .fail rfl

theorem memberMeaning_keeps {r : Resolver} (resolves : r.Sound) {base : Meaning} {mem : String}
    (sound : base.Sound x) : Keeps (memberMeaning r reference base mem span) x
      fun m y => m.Sound y := by
  unfold memberMeaning
  split
  · rename_i id
    refine .bind (outside (Resolver.namespaceScope_keeps resolves)) ?_
    rintro scope y _ ⟨⟨outer, -⟩, -⟩
    refine .tree_bind ?_
    split
    · rename_i child got
      exact nodeMeaning_keeps (member_not_slot (ScopeKind.isBody_of_isOuter outer) got)
    · exact .fail rfl
  · exact .tree_bind (.fail rfl)
  refine .bind (asPlace_keeps sound) ?_
  exact fun p y _ sound => instanceMember_keeps sound

end Stencil
