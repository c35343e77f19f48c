import Stencil.Lowering.Aggregate
import Stencil.Proofs.Lowering.Operation

namespace Stencil

open Analysis Tracked Ty Option Spot List ScopeTree

variable {x : Spot} {span : Span}

variable {count : Nat}

section

variable {c : Callee} {m : Meaning}

/-- Something that can be called with values of the types of its parameters, and with an instance
in front of them if it takes one. -/
structure Callee.Sound (c : Callee) (x : Spot) : Prop where
  code : ∃ first, x.Usable c.code
      (.pointer (.function (first ++ c.signature.params.map ir) c.signature.result.ir)) ∧
    (c.signature.member = c.receiver.isSome → List.Forall₂ x.Usable c.receiver.toList first)
  params : ∀ type ∈ c.signature.params, type.Known x.tree
  result : c.signature.result.Known x.tree

theorem Spot.Flows.callee {y : Spot} (way : x.Flows y) (sound : c.Sound x) : c.Sound y := by
  obtain ⟨⟨fst, usable, receives⟩, params, result⟩ := sound
  exact ⟨⟨fst, way.usable usable, fun same =>
    (receives same).imp fun _ _ h => way.usable h⟩,
    fun type mem => way.known (params type mem), way.known result⟩

/-- A function takes the instance that it was reached through. -/
theorem function_callee {id : ScopeId} {e : FunctionEntry} {receiver : Option Ir.Value}
    (kind : x.tree.kind id = .function e) {code : Nat} (coded : e.code = some code)
    (reaches : Reaches x id receiver) :
    Callee.Sound ⟨e.decl.name, .function e.codeName, e.signature, receiver⟩ x := by
  have accounts := x.valid.accounts id
  rw [show x.session.tree.kind id = _ from kind] at accounts
  obtain ⟨fst, receives, usable⟩ := function_usable kind coded
  refine ⟨⟨fst, usable, fun same => ?_⟩, accounts.1, accounts.2.1⟩
  rw [Session.Receives, same] at receives
  cases receiver with
  | none =>
    obtain rfl : fst = [] := receives
    exact .nil
  | some addr =>
  obtain ⟨p, _, up, template, rfl⟩ := receives
  obtain ⟨_, _, around', template', address⟩ := reaches addr rfl
  cases up.symm.trans around'
  obtain rfl := ScopeKind.template.inj (template.symm.trans template')
  exact .cons address .nil

theorem asCallee_keeps (sound : m.Sound x) : Keeps (m.asCallee span) x fun c y => c.Sound y := by
  cases m with
  | function id receiver =>
    refine .tree_bind ?_
    split
    · rename_i e kind
      refine .check rfl fun coded => ?_
      have has : e.code ≠ none := fun missing => coded (by rw [missing]; rfl)
      obtain ⟨_, coded⟩ := ne_none_iff_exists'.mp has
      exact .pure (function_callee kind coded sound)
    · exact .fail rfl
  | scope => exact .tree_bind (.fail rfl)
  | value _ | place _ =>
  refine .bind (asValue_keeps sound) ?_
  rintro v y _ ⟨usable, known⟩
  split
  · rename_i params result mem type
    rw [type, ir, irs_eq_map] at usable
    rw [type] at known
    obtain ⟨params, result⟩ := known_function.mp known
    exact .pure ⟨⟨[], usable, fun _ => .nil⟩, params, result⟩
  · exact .fail rfl

theorem check_keeps : Keeps (c.check count span) x fun _ y => x = y ∧
    c.signature.member = c.receiver.isSome ∧ count = c.signature.params.length := by
  refine .check rfl fun missing => Keeps.check rfl fun unexpected => ?_
  split
  · rename_i same
    refine .pure ⟨rfl, ?_, same⟩
    cases mem : c.signature.member <;> cases receiver : c.receiver <;> simp_all
  · exact .fail rfl

theorem call_sound {args : List Ir.Value} (sound : c.Sound x)
    (receives : c.signature.member = c.receiver.isSome)
    (matching : List.Forall₂ x.Usable args (c.signature.params.map ir)) :
    Keeps (c.call args) x fun v y => v.Sound y := by
  obtain ⟨⟨_, usable, matches'⟩, -, result⟩ := sound
  refine .bind (call_keeps usable (rel_append (matches' receives) matching)) ?_
  exact fun v y way usable => Keeps.pure ⟨usable, way.known result⟩

end

section

variable {base : Place} {elem : Ty} {length : Nat}

theorem asArray_keeps : Keeps (base.asArray span) x fun part y => x = y ∧
    base.type = .array part.1 part.2 := by
  unfold Place.asArray
  split
  · rename_i elem length type
    exact .pure ⟨rfl, type⟩
  · exact .fail rfl

theorem elementPlace_keeps {position : TypedValue} (sound : base.Sound x)
    (array : base.type = .array elem length) (index : position.Sound x) :
    Keeps (elementPlace base elem length position span) x fun p y => p.Sound y := by
  obtain ⟨usable, known⟩ := sound
  rw [array] at usable known
  have rest : Keeps (do
      let addr ← build (Ir.Builder.elemAddr elem.ir base.addr position.value)
      return { addr, type := elem, constant := base.constant }) x
      fun (p : Place) y => p.Sound y := by
    refine .bind (elemAddr_keeps usable index.usable.1) ?_
    exact fun v y way usable => Keeps.pure ⟨usable, way.known (known_array.mp known)⟩
  refine .require rfl fun _ => ?_
  split
  · exact .require rfl fun _ => rest
  · exact rest

theorem storeValues_keeps {addr : Ir.Value} (values : List (TypedValue × Span)) :
    ∀ index x, x.Usable addr (.pointer (.array elem.ir length)) →
      elem.Known x.tree → (∀ v ∈ values, v.1.Sound x) →
      Keeps (storeValues elem addr index values) x := by
  induction values with
  | nil => exact fun _ x _ _ _ => Keeps.pure trivial
  | cons fst rest ih =>
  intro index x usable known sound
  refine .bind (convertTo_keeps (sound _ (.head _)) known) ?_
  rintro w y way ⟨converted, same⟩
  refine .bind (elemAddr_keeps (way.usable usable) (v := .int index) trivial) ?_
  intro _ z reached' address
  refine .bind (storeAt_keeps address (same ▸ (reached'.value converted).usable)) ?_
  intro _ u reached'' _
  have whole := way.trans (reached'.trans reached'')
  exact ih (index + 1) u (whole.usable usable) (whole.known known)
    fun v mem => whole.value (sound v (.tail _ mem))

theorem commonEntryType_known {t : ScopeTree} (rest : List (Ty × Span)) :
    ∀ fst {type : Ty}, fst.Known t → (∀ entry ∈ rest, entry.1.Known t) →
      commonEntryType fst rest = .ok type → type.Known t := by
  induction rest with
  | nil =>
    intro _ _ known _ got
    cases got
    exact known
  | cons entry rest ih =>
  intro fst type known entries got
  rw [commonEntryType] at got
  split at got
  · rename_i common same
    exact ih common (commonType_known known (entries _ (.head _)) same)
      (fun entry mem => entries entry (.tail _ mem)) got
  · cases got

theorem commonEntryType_ordinary (rest : List (Ty × Span)) :
    ∀ fst {d : Diagnostic}, commonEntryType fst rest = .error d → d.Ordinary := by
  induction rest with
  | nil => exact fun fst d got => by cases got
  | cons entry rest ih =>
  intro _ d got
  rw [commonEntryType] at got
  split at got
  · exact ih _ got
  cases got
  rfl

theorem arrayOfValues_keeps {values : List (TypedValue × Span)}
    (sound : ∀ v ∈ values, v.1.Sound x) :
    Keeps (arrayOfValues values span) x fun v y => v.Sound y := by
  unfold arrayOfValues
  split
  · exact .fail rfl
  rename_i fst _ rest
  refine .bind (m := fun elem y => x = y ∧ elem.Known x.tree) ?_ ?_
  · refine .fromExcept ?_ fun d got => commonEntryType_ordinary _ _ got
    intro _ got
    refine ⟨rfl, commonEntryType_known _ _ (sound _ (.head _)).known ?_ got⟩
    intro _ mem
    obtain ⟨v, lies, rfl⟩ := List.mem_map.mp mem
    exact (sound v (.tail _ lies)).known
  rintro _ _ _ ⟨rfl, known⟩
  refine .bind (temporary_keeps _) ?_
  rintro _ y way ⟨address, -⟩
  refine .bind (storeValues_keeps _ 0 y address (way.known known)
    fun v mem => way.value (sound v mem)) ?_
  intro _ z reached' _
  refine (loadFrom_sound (reached'.usable address) ?_).mono fun _ _ _ h => h.1
  exact reached'.known (way.known (known_array.mpr known))

end

variable {type : Ty} {part : Slot} {t : ScopeTree}

/-- A part that instances or arrays of a type have. -/
def Slot.Part (slot : Slot) (t : ScopeTree) : Ty → Prop
  | .struct _ template => ∃ field, (t.fields template)[slot.index]? = some field ∧
      field.2.type = slot.type
  | .array elem _ => slot.type = elem
  | _ => False

structure Slot.Fits (slot : Slot) (t : ScopeTree) (type : Ty) : Prop where
  part : slot.Part t type
  known : slot.type.Known t

theorem Spot.Flows.fits {y : Spot} (way : x.Flows y) (known : type.Known x.tree)
    (fits : part.Fits x.tree type) : part.Fits y.tree type := by
  obtain ⟨has, mem⟩ := fits
  refine ⟨?_, way.known mem⟩
  cases type with
  | struct name template =>
    obtain ⟨e, kind, -⟩ := known_struct.mp known
    have lies := lt_of_template kind
    have same := (way.lowers.tree.fields template lies (by rw [kind]; rfl)).2 nofun
    rw [Slot.Part, show y.tree.fields template = _ from same]
    exact has
  | array => exact has
  | _ => exact has.elim

theorem entryAddr_keeps {base : Place} (sound : base.Sound x) (fits : part.Fits x.tree base.type) :
    Keeps (base.entryAddr part.index) x fun v y => y.Usable v (.pointer part.type.ir) := by
  obtain ⟨usable, known⟩ := sound
  obtain ⟨has, -⟩ := fits
  unfold Place.entryAddr
  cases shape : base.type with
  | struct name template =>
    rw [shape] at usable known has
    obtain ⟨e, kind, structName⟩ := known_struct.mp known
    obtain ⟨field, got, same⟩ := has
    exact fieldAddr_keeps usable ⟨template, e, field, kind, structName, got, by rw [same]⟩
  | array elem =>
    rw [shape] at usable has
    obtain rfl : part.type = elem := has
    exact elemAddr_keeps usable (v := .int part.index) trivial
  | _ => rw [shape] at has; exact has.elim

def SlotsFit (t : ScopeTree) (type : Ty) (slots : List (Except Diagnostic Slot)) : Prop :=
  ∀ entry ∈ slots, (∀ slot, entry = .ok slot → slot.Fits t type) ∧
    ∀ d, entry = .error d → d.Ordinary

theorem arraySlots_fit {slots : List Slot} (known : type.Known t)
    (got : arraySlots type count span = .ok slots) : ∀ slot ∈ slots, slot.Fits t type := by
  unfold arraySlots at got
  split at got
  · split at got
    · cases got
      intro _ mem
      obtain ⟨i, -, rfl⟩ := List.mem_map.mp mem
      exact ⟨rfl, known_array.mp known⟩
    · cases got
  · cases got

theorem arraySlots_ordinary {d : Diagnostic}
    (got : arraySlots type count span = .error d) : d.Ordinary := by
  unfold arraySlots at got
  split at got
  · split at got
    · cases got
    cases got
    rfl
  cases got
  rfl

theorem layout_eq (shaped : t.Shaped) {template : ScopeId} {e : TemplateEntry}
    (kind : t.kind template = .template e) :
    t.layout template = (t.fields template).map fun field => (t.name field.1, field.2.type) := by
  rw [layout, ← filterMap_eq_map]
  refine filterMap_congr fun field mem => ?_
  obtain ⟨lies, isVar⟩ := mem_fields mem
  have admits := shaped.admitted _ template (shaped.ordered template _ lies)
  rw [kind, isVar] at admits
  cases storage : field.2.storage <;> rw [ScopeKind.admits, storage] at admits
  · exact if_pos storage
  · cases admits
  · cases admits

theorem Session.Valid.field_known {s : Session} (valid : s.Valid) {template : ScopeId}
    {field : ScopeId × VariableEntry} (mem : field ∈ s.tree.fields template) :
    field.2.type.Known s.tree := by
  have accounts := valid.accounts field.1
  rw [(mem_fields mem).2] at accounts
  exact accounts.1.1

theorem fieldFor_some {layout : List (String × Ty)} {position index : Nat} {name : Option String}
    {field : String × Ty} (got : fieldFor? layout position name = some (index, field)) :
    layout[index]? = some field := by
  cases name with
  | none =>
    obtain ⟨_, here, same⟩ := map_eq_some_iff.mp got
    obtain ⟨rfl, rfl⟩ := Prod.mk.inj same
    exact here
  | some =>
  obtain ⟨_, -, rest⟩ := bind_eq_some_iff.mp got
  obtain ⟨_, here, same⟩ := bind_eq_some_iff.mp rest
  cases same
  exact here

theorem fieldSlots_fit {layout : List (String × Ty)}
    (parts : ∀ index field, layout[index]? = some field → Slot.Fits ⟨index, field.2⟩ t type)
    (entries : List (Option String × Span)) :
    ∀ position filled, SlotsFit t type (fieldSlots layout position filled entries) := by
  induction entries with
  | nil => exact fun _ _ _ mem => by cases mem
  | cons entry rest ih =>
  intro position filled
  rw [fieldSlots]
  split
  · rintro _ mem
    obtain rfl := mem_singleton.mp mem
    exact ⟨nofun, fun d same => Except.error.inj same ▸ rfl⟩
  rename_i index field fieldType got
  split
  · rintro _ mem
    obtain rfl := mem_singleton.mp mem
    exact ⟨nofun, fun d same => Except.error.inj same ▸ rfl⟩
  rintro _ mem
  rcases mem_cons.mp mem with rfl | later
  · exact ⟨fun _ same => Except.ok.inj same ▸ parts _ _ (fieldFor_some got), nofun⟩
  · exact ih _ _ _ later

theorem initializerSlots_fit {s : Session} (valid : s.Valid) (known : type.Known s.tree)
    {entries : List (Option String × Span)} {slots : List (Except Diagnostic Slot)}
    (got : s.tree.initializerSlots type entries span = .ok slots) :
    SlotsFit s.tree type slots := by
  unfold initializerSlots at got
  split at got
  · rename_i name template
    obtain ⟨e, kind, -⟩ := known_struct.mp known
    dsimp only at got
    split at got
    · cases got
    cases got
    refine fieldSlots_fit (fun _ _ here => ?_) _ _ _
    rw [layout_eq valid.shaped kind, getElem?_map] at here
    obtain ⟨field', has, rfl⟩ := map_eq_some_iff.mp here
    exact ⟨⟨field', has, rfl⟩, valid.field_known (mem_of_getElem? has)⟩
  · split at got
    · cases got
    rename_i elem length _ _
    cases slots' : arraySlots (.array elem length) entries.length span with
    | error => rw [slots'] at got; cases got
    | ok =>
    rw [slots'] at got
    cases got
    rintro _ mem
    obtain ⟨part, lies, rfl⟩ := List.mem_map.mp mem
    exact ⟨fun _ same => Except.ok.inj same ▸ arraySlots_fit known slots' part lies, nofun⟩
  · cases got

theorem initializerSlots_ordinary {entries : List (Option String × Span)} {d : Diagnostic}
    (got : t.initializerSlots type entries span = .error d) : d.Ordinary := by
  unfold initializerSlots at got
  split at got
  · dsimp only at got
    split at got
    · cases got
      rfl
    · cases got
  · split at got
    · cases got
      rfl
    rename_i elem length _ _
    cases slots : arraySlots (.array elem length) entries.length span with
    | error =>
      rw [slots] at got
      cases got
      exact arraySlots_ordinary slots
    | ok => rw [slots] at got; cases got
  cases got
  rfl

end Stencil
