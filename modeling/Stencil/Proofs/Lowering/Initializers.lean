import Mathlib.Data.List.Duplicate
import Stencil.Proofs.Program.Layout

/-!
Initializer lists of instances. Entries go to the fields that they name, or else to the field of
their position.
-/

namespace Stencil

open Analysis List

inductive Assigns (types : List Ty) : List (Option Nat) → List Nat → List (Except Diagnostic Slot) → Prop
  | nil (filled : List Nat) : Assigns types [] filled []
  | cons {numbers filled slots} (slot : Slot) (field : types[slot.index]? = some slot.type)
    (free : slot.index ∉ filled) (rest : Assigns types numbers (slot.index :: filled) slots) :
    Assigns types (some slot.index :: numbers) filled (.ok slot :: slots)
  | unknown {numbers filled name span} :
    Assigns types (none :: numbers) filled [.error ((Problem.unknownName name).at span)]
  | taken {numbers filled i name span} (mem : i ∈ filled) :
    Assigns types (some i :: numbers) filled [.error ((Problem.duplicate name).at span)]

theorem fieldSlots_assigns (layout : List (String × Ty)) (heads : List (Option String × Span))
    (position : Nat) (filled : List Nat) :
    Assigns (layout.map Prod.snd)
      ((heads.zipIdx position).map fun head => (fieldFor? layout head.2 head.1.1).map Prod.fst) filled
      (fieldSlots layout position filled heads) := by
  induction heads generalizing position filled with
  | nil => exact .nil filled
  | cons head heads ih =>
  rw [zipIdx_cons, map_cons, fieldSlots]
  cases got : fieldFor? layout position head.1 with
  | none => exact .unknown
  | some field =>
  dsimp only
  split
  · exact .taken ‹_›
  refine .cons ⟨field.1, field.2.2⟩ ?_ ‹_› (ih (position + 1) _)
  rw [getElem?_map, fieldFor_some got]
  rfl

variable {types : List Ty} {numbers : List (Option Nat)} {filled : List Nat}
  {slots : List (Except Diagnostic Slot)}

theorem Assigns.clean {fields : List Slot} {rest : List (Except Diagnostic Slot)}
    (assigns : Assigns types numbers filled (fields.map .ok ++ rest)) :
    (∃ more, numbers = (fields.map Slot.index).map some ++ more ∧ (rest = [] → more = [])) ∧
      (fields.map Slot.index).Nodup ∧
        ∀ field ∈ fields, types[field.index]? = some field.type ∧ field.index ∉ filled := by
  induction fields generalizing numbers filled with
  | nil =>
    refine ⟨⟨numbers, rfl, ?_⟩, .nil, by simp⟩
    rintro rfl
    cases assigns
    rfl
  | cons slot fields ih =>
    cases assigns with
    | cons _ field free further =>
    obtain ⟨⟨more, same, ends⟩, distinct, others⟩ := ih further
    refine ⟨⟨more, by rw [same]; rfl, ends⟩, nodup_cons.mpr ⟨fun again => ?_, distinct⟩,
      forall_mem_cons.mpr ⟨⟨field, free⟩, fun field mem => ?_⟩⟩
    · obtain ⟨field, mem, same⟩ := List.mem_map.mp again
      exact (others field mem).2 (same ▸ .head _)
    · exact ⟨(others field mem).1, fun taken => (others field mem).2 (.tail _ taken)⟩

theorem Assigns.nodup {fields : List Slot} (assigns : Assigns types numbers filled (fields.map .ok)) :
    (fields.map Slot.index).Nodup :=
  (Assigns.clean (by rwa [append_nil])).2.1

theorem Assigns.length_eq (assigns : Assigns types numbers filled slots) (clean : ∀ d, .error d ∉ slots) :
    slots.length = numbers.length := by
  induction assigns with
  | nil => rfl
  | cons _ _ _ _ ih => exact congrArg Nat.succ (ih fun d mem => clean d (.tail _ mem))
  | unknown | taken => exact absurd (.head _) (clean _)

theorem Assigns.length_le (assigns : Assigns types numbers filled slots) :
    slots.length ≤ numbers.length := by
  induction assigns with
  | nil => exact .refl
  | cons _ _ _ _ ih => exact Nat.succ_le_succ ih
  | unknown | taken => exact Nat.succ_le_succ (Nat.zero_le _)

theorem Assigns.problem (assigns : Assigns types numbers filled slots) {d : Diagnostic}
    (mem : .error d ∈ slots) : (d.problem.kind = .unknownName ∧ none ∈ numbers) ∨
      (d.problem.kind = .duplicate ∧ ∃ i, (i ∈ filled ∧ some i ∈ numbers) ∨
        numbers.Duplicate (some i)) := by
  induction assigns with
  | nil => cases mem
  | cons slot _ free _ ih =>
    rcases ih (by simpa using mem) with ⟨kind, unknown⟩ | ⟨kind, i, again⟩
    · exact .inl ⟨kind, .tail _ unknown⟩
    refine .inr ⟨kind, i, ?_⟩
    rcases again with ⟨taken, lies⟩ | twice
    · rcases mem_cons.mp taken with rfl | taken
      · exact .inr (.cons_mem lies)
      · exact .inl ⟨taken, .tail _ lies⟩
    · exact .inr (.cons_duplicate twice)
  | unknown =>
    obtain rfl := Except.error.inj (mem_singleton.mp mem)
    exact .inl ⟨rfl, .head _⟩
  | taken taken =>
    obtain rfl := Except.error.inj (mem_singleton.mp mem)
    exact .inr ⟨rfl, _, .inl ⟨taken, .head _⟩⟩

theorem fillEntries_cons {r : Resolver} {base : Place} {slot : Slot} {entry : Entry Expr}
    {entries : List (Entry Expr)} : fillEntries r base (.ok slot :: slots) (entry :: entries) =
      base.entryAddr slot.index >>= fun addr => entry.value.lowerInto r addr slot.type >>= fun _ =>
        fillEntries r base slots entries := by
  rw [fillEntries, fromExcept, pure_bind]
  simp only [Expr.lowerInto, bind_assoc]
  refine bind_congr fun _ => bind_congr fun filled => ?_
  cases filled <;> simp

section

variable (r : Resolver) (name : String) (addr : Ir.Value) (st : LowerState)

/-- Entries are written one after the other, each at the address of its own field. -/
inductive Fills : List Slot → List (Entry Expr) → Session → Session → Prop
  | nil {s : Session} : Fills [] [] s s
  | cons {slot : Slot} {entry : Entry Expr} {slots : List Slot} {entries : List (Entry Expr)}
      {field : Ir.Value} {s t u s' : Session}
      (addressed : build (Ir.Builder.fieldAddr name addr slot.index) s = .ok field t)
      (written : Lowering.lowerInto r field slot.type entry.value ⟨t, st⟩ = .ok () ⟨u, st⟩)
      (rest : Fills slots entries u s') : Fills (slot :: slots) (entry :: entries) s s'

/-- Entries are written up to one whose value fails, at the address of its own field. -/
def Breaks (d : Diagnostic) (slots : List Slot) (entries : List (Entry Expr)) (s s' : Session) :
    Prop :=
  ∃ filled slot front entry back t field u, slots = filled ++ [slot] ∧
    entries = front ++ entry :: back ∧ Fills r name addr st filled front s t ∧
    build (Ir.Builder.fieldAddr name addr slot.index) t = .ok field u ∧
    Lowering.lowerInto r field slot.type entry.value ⟨u, st⟩ = .error d ⟨s', st⟩

theorem fillEntries_outcome (template : ScopeId) (slots : List (Except Diagnostic Slot))
    (entries : List (Entry Expr)) (s : Session) (short : slots.length ≤ entries.length)
    (whole : (∀ d, .error d ∉ slots) → slots.length = entries.length) :
    Leads (fillEntries r ⟨addr, .struct name template, none⟩ slots entries) s
      (fun _ s' => ∃ fields, slots = fields.map .ok ∧ Fills r name addr st fields entries s s')
      fun d s' => .error d ∈ slots ∨ ∃ fields rest, slots = fields.map .ok ++ rest ∧
        Breaks r name addr st d fields entries s s' := by
  induction slots generalizing entries s with
  | nil =>
    obtain rfl := length_eq_zero_iff.mp (whole fun _ => not_mem_nil).symm
    exact ⟨[], rfl, .nil⟩
  | cons slot slots ih =>
  cases entries with
  | nil => cases short
  | cons entry entries =>
  cases slot with
  | error => exact .inl (.head _)
  | ok slot =>
  obtain ⟨field, t, addressed⟩ : ∃ field t,
      build (Ir.Builder.fieldAddr name addr slot.index) s = .ok field t := ⟨_, _, rfl⟩
  have lifts : Lowering.lowerInto r field slot.type entry.value ⟨t, st⟩ = _ :=
    Lowering.lowerInto_lifts r
  unfold Lowering.lift at lifts
  have addressed' : Place.entryAddr ⟨addr, .struct name template, none⟩ slot.index s = .ok field t :=
    addressed
  rw [fillEntries_cons, Leads, bind_run addressed']
  cases run : entry.value.lowerInto r field slot.type t with
  | ok _ u =>
    rw [run] at lifts
    rw [bind_run run]
    refine (ih entries u (Nat.le_of_succ_le_succ short) fun clean => ?_).mono ?_ ?_
    · exact Nat.succ.inj (whole (by simpa using clean))
    · rintro _ _ ⟨fields, rfl, fills⟩
      exact ⟨slot :: fields, rfl, .cons addressed lifts fills⟩
    · rintro d _ (problem | ⟨fields, rest, rfl, filled, last, front, own, back, v, f, w, more⟩)
      · exact .inl (.tail _ problem)
      obtain ⟨rfl, rfl, fills, fails⟩ := more
      exact .inr ⟨slot :: (filled ++ [last]), rest, rfl, slot :: filled, last, entry :: front, own,
        back, v, f, w, rfl, rfl, .cons addressed lifts fills, fails⟩
  | error d u =>
    rw [run] at lifts
    rw [bind_run_error run]
    exact .inr ⟨[slot], slots, rfl, [], slot, [], entry, entries, s, field, t, rfl, rfl, .nil,
      addressed, lifts⟩

end

namespace ScopeTree

variable {t : ScopeTree} {template : ScopeId} {e : TemplateEntry}

/-- The numbers of the fields that entries are for: the field of its name, or else the position. -/
def entryNumbers (t : ScopeTree) (template : ScopeId) (heads : List (Option String × Span)) :
    List (Option Nat) :=
  heads.zipIdx.map fun (head, i) => match head.1 with
    | some name => t.indexOf? template name
    | none => some i

theorem Shaped.fieldFor_named (shaped : t.Shaped) (kind : t.kind template = .template e)
    (position : Nat) (name : String) :
    (fieldFor? (t.layout template) position (some name)).map Prod.fst = t.indexOf? template name := by
  have numbers {i : Nat} {field : ScopeId × VariableEntry} (here : (t.fields template)[i]? = some field) :
      t.Numbers template field.1 i field.2.type := shaped.numbers kind here
  cases looked : t.indexOf? template name with
  | some =>
    obtain ⟨_, child, looked⟩ := Option.bind_eq_some_iff.mp looked
    split at looked
    · obtain ⟨lies, same, -⟩ := findIdx?_eq_some_iff_getElem.mp looked
      have named := (numbers (getElem?_eq_getElem lies)).named position
      rw [of_decide_eq_true same, (shaped.child child).2] at named
      rw [named]
      rfl
    · cases looked
  | none =>
  rw [Option.map_eq_none_iff]
  by_contra got
  obtain ⟨_, got⟩ := Option.ne_none_iff_exists'.mp got
  obtain ⟨i, first, -⟩ := Option.bind_eq_some_iff.mp got
  obtain ⟨lies, same, -⟩ := findIdx?_eq_some_iff_getElem.mp first
  have here := getElem?_eq_getElem lies
  generalize (t.layout template)[i] = entry at here same
  rw [layout_eq shaped kind, getElem?_map] at here
  obtain ⟨field, has, rfl⟩ := Option.map_eq_some_iff.mp here
  have again := (numbers has).looked
  rw [show t.name field.1 = name from of_decide_eq_true same, looked] at again
  cases again

theorem Shaped.entryNumbers_eq (shaped : t.Shaped) (kind : t.kind template = .template e)
    {heads : List (Option String × Span)} (short : heads.length ≤ (t.layout template).length) :
    (heads.zipIdx.map fun head => (fieldFor? (t.layout template) head.2 head.1.1).map Prod.fst) =
      t.entryNumbers template heads := by
  refine map_congr_left ?_
  rintro ⟨⟨name, _⟩, i⟩ mem
  cases name with
  | some name => exact shaped.fieldFor_named kind i name
  | none =>
    have := (mem_zipIdx mem).2.1
    simp [fieldFor?, getElem?_eq_getElem (show i < (t.layout template).length by omega)]

theorem Shaped.entryNumbers_lt (shaped : t.Shaped) (kind : t.kind template = .template e)
    {heads : List (Option String × Span)} (short : heads.length ≤ (t.layout template).length) {i : Nat}
    (mem : some i ∈ t.entryNumbers template heads) : i < (t.layout template).length := by
  rw [← shaped.entryNumbers_eq kind short] at mem
  obtain ⟨_, -, numbered⟩ := List.mem_map.mp mem
  obtain ⟨_, got, rfl⟩ := Option.map_eq_some_iff.mp numbered
  exact (List.getElem?_eq_some_iff.mp (fieldFor_some got)).1

end ScopeTree

namespace ScopeTree

variable {t : ScopeTree} {template : ScopeId} {e : TemplateEntry}

def fieldTypes (t : ScopeTree) (template : ScopeId) : List Ty :=
  (t.fields template).map fun field => field.2.type

theorem layout_types (shaped : t.Shaped) (kind : t.kind template = .template e) :
    (t.layout template).map Prod.snd = t.fieldTypes template := by
  rw [layout_eq shaped kind, List.map_map]
  rfl

end ScopeTree

section

variable {s : Session} (shaped : s.tree.Shaped) {template : ScopeId} {e : TemplateEntry}
  (kind : s.tree.kind template = .template e) (r : Resolver) (addr : Ir.Value) (name : String)
  (entries : List (Entry Expr)) (span : Span) (st : LowerState)
include shaped kind

theorem fill_initializer_leads :
    let types := s.tree.fieldTypes template
    let numbers := s.tree.entryNumbers template (entries.map Entry.head)
    Leads (fill r addr (.struct name template) (.initializer entries span)) s
      (fun _ s' => entries.length ≤ types.length ∧ ∃ slots : List Slot,
        numbers = (slots.map Slot.index).map some ∧ (slots.map Slot.index).Nodup ∧
        (∀ slot ∈ slots, types[slot.index]? = some slot.type) ∧
        Fills r name addr st slots entries s s')
      fun d s' => (d.problem.kind = .argumentCount ∧ types.length < entries.length) ∨
        (d.problem.kind = .unknownName ∧ none ∈ numbers) ∨
        (d.problem.kind = .duplicate ∧ ∃ i, numbers.Duplicate (some i)) ∨
        ∃ slots : List Slot, (slots.map Slot.index).map some <+: numbers ∧
          (slots.map Slot.index).Nodup ∧ (∀ slot ∈ slots, types[slot.index]? = some slot.type) ∧
          Breaks r name addr st d slots entries s s' := by
  intro types numbers
  have size : (s.tree.layout template).length = types.length := by
    rw [← List.length_map Prod.snd, ScopeTree.layout_types shaped kind]
  change Leads (fromExcept (s.tree.initializerSlots (.struct name template) (entries.map Entry.head)
    span) >>= fun slots => fillEntries r ⟨addr, .struct name template, none⟩ slots entries >>= fun _ =>
      pure true) s _ _
  rw [ScopeTree.initializerSlots, size, List.length_map]
  split
  · rename_i many
    exact .inl ⟨rfl, many⟩
  · rename_i few
    have assigns := fieldSlots_assigns (s.tree.layout template) (entries.map Entry.head) 0 []
    rw [shaped.entryNumbers_eq kind (by simpa [size] using few), ScopeTree.layout_types shaped kind] at assigns
    have count : numbers.length = entries.length := by simp [numbers, ScopeTree.entryNumbers]
    rw [fromExcept, pure_bind]
    refine leads_bind.mpr ((fillEntries_outcome r name addr st template _ entries s
      (count ▸ assigns.length_le) fun clean => count ▸ assigns.length_eq clean).mono ?_ ?_)
    · rintro _ _ ⟨fields, same, fills⟩
      rw [same, ← append_nil (fields.map _)] at assigns
      obtain ⟨⟨more, numbered, ends⟩, distinct, has⟩ := assigns.clean
      obtain rfl := ends rfl
      exact ⟨Nat.not_lt.mp few, fields, by rwa [append_nil] at numbered, distinct,
        fun slot mem => (has slot mem).1, fills⟩
    rintro d _ (problem | ⟨fields, rest, same, fails⟩)
    · rcases assigns.problem problem with unknown | ⟨kind, i, again⟩
      · exact .inr (.inl unknown)
      · exact .inr (.inr (.inl ⟨kind, i, by simpa using again⟩))
    · rw [same] at assigns
      obtain ⟨⟨more, numbered, -⟩, distinct, has⟩ := assigns.clean
      exact .inr (.inr (.inr ⟨fields, ⟨more, numbered.symm⟩, distinct,
        fun slot mem => (has slot mem).1, fails⟩))

end

/-- An initializer list that succeeds writes different fields of the template, each entry that of its
name or else that of its position, at the address of the field. One that fails has too many entries, an
unknown name, a field given twice or a value that fails at its own field, and the first three always
fail. No entry of a list that is not too long is for a field beyond the last. Behind the list the
aggregate around it is current again. -/
theorem Lowering.fill_initializer_exact {l : Lowerer} (shaped : l.session.tree.Shaped)
    {template : ScopeId} {e : TemplateEntry} (kind : l.session.tree.kind template = .template e)
    (r : Resolver) (addr : Ir.Value) (name : String) (entries : List (Entry Expr)) (span : Span) :
    let list := fill r addr (.struct name template) (.initializer entries span)
    let types := l.session.tree.fieldTypes template
    let numbers := l.session.tree.entryNumbers template (entries.map Entry.head)
    let inner := { l.state with aggregate := some { addr, type := .struct name template } }
    (∀ b l', list l = .ok b l' → l'.state = l.state ∧ ∃ slots : List Slot,
      numbers = (slots.map Slot.index).map some ∧ (slots.map Slot.index).Nodup ∧
      (∀ slot ∈ slots, slot.index < types.length ∧ types[slot.index]? = some slot.type) ∧
      Fills r name addr inner slots entries l.session l'.session) ∧
    (∀ d l', list l = .error d l' → l'.state = l.state ∧
      ((d.problem.kind = .argumentCount ∧ types.length < entries.length) ∨
      (d.problem.kind = .unknownName ∧ none ∈ numbers) ∨
      (d.problem.kind = .duplicate ∧ ∃ i, numbers.Duplicate (some i)) ∨
      ∃ slots : List Slot, (slots.map Slot.index).map some <+: numbers ∧
        (slots.map Slot.index).Nodup ∧ (∀ slot ∈ slots, types[slot.index]? = some slot.type) ∧
        Breaks r name addr inner d slots entries l.session l'.session)) ∧
    (types.length < entries.length ∨ none ∈ numbers ∨ (∃ i, numbers.Duplicate (some i)) →
      ∃ d l', list l = .error d l') ∧
    (entries.length ≤ types.length → ∀ i, some i ∈ numbers → i < types.length) := by
  intro list types numbers inner
  have leads := fill_initializer_leads shaped kind r addr name entries span inner
  have lifts : list l = _ := fill_lifts r (.initializer entries span) addr (.struct name template) l
  have bounded : entries.length ≤ types.length → ∀ i, some i ∈ numbers → i < types.length := by
    intro short i member
    have size := congrArg List.length (ScopeTree.layout_types shaped kind)
    rw [List.length_map] at size
    rw [← show _ = types.length from size] at short ⊢
    exact shaped.entryNumbers_lt kind (by rwa [List.length_map]) member
  unfold Leads at leads
  unfold lift at lifts
  rw [lifts]
  cases run : Stencil.fill r addr (.struct name template) (.initializer entries span) l.session with
  | ok _ s' =>
    rw [run] at leads
    obtain ⟨few, slots, numbered, distinct, fields, fills⟩ := leads
    refine ⟨?_, ?_, ?_, bounded⟩
    · rintro _ _ ⟨⟩
      exact ⟨rfl, slots, numbered, distinct, fun slot mem =>
        ⟨(List.getElem?_eq_some_iff.mp (fields slot mem)).1, fields slot mem⟩, fills⟩
    · rintro _ _ ⟨⟩
    · rintro (more | unknown | ⟨i, twice⟩)
      · exact absurd few (Nat.not_le.mpr more)
      · rw [show numbers = _ from numbered] at unknown
        simp at unknown
      · have nodup := distinct.map fun _ _ => Option.some.inj
        rw [← show numbers = _ from numbered] at nodup
        exact (twice.not_nodup nodup).elim
  | error d s' =>
    rw [run] at leads
    refine ⟨?_, ?_, fun _ => ⟨d, _, rfl⟩, bounded⟩
    · rintro _ _ ⟨⟩
    · rintro _ _ ⟨⟩
      exact ⟨rfl, leads⟩

def twoFields : Module :=
  Module.ofText "template P { a: bool b: bool }"

def settledEntries : List (Entry Expr) :=
  [⟨none, .bool true {}, {}⟩, ⟨some "b", .bool true {}, {}⟩]

def competingEntries : List (Entry Expr) :=
  [⟨some "b", .bool true {}, {}⟩, ⟨none, .bool true {}, {}⟩]

theorem Lowering.fill_initializer_twoFields :
    let s := analyze "m" twoFields
    let list entries := fill s.resolver (.temp 0) (.struct "P" 1) (.initializer entries {}) ⟨s, {}⟩
    (∃ l' slots, list settledEntries = .ok true l' ∧ slots.map Slot.index = [0, 1] ∧
      Fills s.resolver "P" (.temp 0) { aggregate := some { addr := .temp 0, type := .struct "P" 1 } }
        slots settledEntries s l'.session) ∧
    ∃ d l', list competingEntries = .error d l' := by
  intro s list
  obtain ⟨isTemplate, settled, competing, succeeds⟩ : (s.tree.kind 1).template?.isSome ∧
      s.tree.entryNumbers 1 (settledEntries.map Entry.head) = [some 0, some 1] ∧
      s.tree.entryNumbers 1 (competingEntries.map Entry.head) = [some 1, some 1] ∧
      EStateM.run' (fill s.resolver (.temp 0) (.struct "P" 1) (.initializer settledEntries {}))
        ⟨s, {}⟩ = some true := by
    decide +kernel
  have shaped : s.tree.Shaped := (analyze_analyzed "m" twoFields {}).valid.shaped
  cases kind : s.tree.kind 1 with
  | template e =>
    have exact := fill_initializer_exact (l := ⟨s, {}⟩) shaped kind s.resolver (.temp 0) "P"
    obtain ⟨l', run⟩ := ok_of_run' succeeds
    obtain ⟨-, slots, numbered, -, -, fills⟩ := (exact settledEntries {}).1 _ l' run
    refine ⟨⟨l', slots, run, ?_, fills⟩, (exact competingEntries {}).2.2.1
      (.inr (.inr ⟨1, competing ▸ .cons_mem (.head _)⟩))⟩
    exact (List.map_inj_right fun _ _ => Option.some.inj).mp (numbered.symm.trans settled)
  | _ => simp [kind, ScopeKind.template?] at isTemplate

end Stencil
