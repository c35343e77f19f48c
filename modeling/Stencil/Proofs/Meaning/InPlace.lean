import Stencil.Proofs.Lowering.Initializers
import Stencil.Proofs.Meaning.Formulas

namespace Stencil

open Analysis List

def SetsInTurn (settings : List (Ir.Part × Ir.Formula)) (s s' : Session) : Prop :=
  ∃ code, s.Appends code s' ∧ ∀ m parts,
    (∀ x ∈ settings, m.Anchors x.1.slot ∧ ∀ i ∈ x.2.slots, m.Anchors i) →
      m.parts.setInTurn settings = some parts →
        ∃ m', Ir.moves m code = some m' ∧ m'.parts = parts ∧
          ∀ i, i < s.builder.nextTemp → m'.temps i = m.temps i

variable {span : Span}

section

variable {f : Ir.Formula} {s s1 s2 s3 : Session} {a b : Ir.Value} {type : Ty} {k index : Nat}

theorem Supplies.converted {v w : TypedValue} (supplies : Supplies f type s v s1)
    (run : convertTo v type true span s1 = .ok w s2) : s2 = s1 ∧ w.value = v.value := by
  rcases supplies with ⟨typed, -⟩ | ⟨-, becomes, -⟩
  · rw [convertTo_same typed] at run
    cases run
    exact ⟨rfl, rfl⟩
  rw [becomes.converts] at run
  cases run
  exact ⟨rfl, becomes.value.symm⟩

theorem SetsInTurn.nil (s : Session) : SetsInTurn [] s s := by
  refine ⟨[], .refl s, fun m _ _ set => ⟨m, rfl, ?_, fun _ _ => rfl⟩⟩
  exact Option.some.inj set

theorem SetsInTurn.appends {settings : List (Ir.Part × Ir.Formula)}
    (sets : SetsInTurn settings s s1) : ∃ code, s.Appends code s1 := by
  obtain ⟨code, appends, -⟩ := sets
  exact ⟨code, appends⟩

theorem SetsInTurn.cons {x : Ir.Part × Ir.Formula} {rest : List (Ir.Part × Ir.Formula)}
    (fst : SetsInTurn [x] s s1) (snd : SetsInTurn rest s1 s2)
    (known : ∀ y ∈ rest, y.1.slot < s.builder.nextTemp ∧
      ∀ i ∈ y.2.slots, i < s.builder.nextTemp) : SetsInTurn (x :: rest) s s2 := by
  obtain ⟨code, appends, runs⟩ := fst
  obtain ⟨code', appends', runs'⟩ := snd
  refine ⟨code ++ code', appends.trans appends', fun m parts anchored set => ?_⟩
  obtain ⟨here, later⟩ := forall_mem_cons.mp anchored
  obtain ⟨d, value, set⟩ := Option.bind_eq_some_iff.mp set
  obtain ⟨m1, moved, parts1, kept⟩ := runs m (m.parts.set x.1 d)
    (forall_mem_cons.mpr ⟨here, by simp⟩) (by simp [Ir.Parts.setInTurn, value])
  obtain ⟨m2, moved', parts2, kept'⟩ := runs' m1 parts
    (fun y mem => ⟨(kept _ (known y mem).1).trans (later y mem).1,
      fun i named => (kept i ((known y mem).2 i named)).trans ((later y mem).2 i named)⟩)
    (parts1 ▸ set)
  refine ⟨m2, by simp [Ir.moves_append, moved, moved'], parts2, fun i below => ?_⟩
  exact (kept' i (Nat.lt_of_lt_of_le below appends.temps)).trans (kept i below)

theorem Provides.store {type : Ir.Ty} (value : Provides f type s1 b s2)
    (address : Delivers (.entry (.slot k) index) s a s1)
    (known : ∀ i ∈ f.slots, i < s.builder.nextTemp)
    (run : build (Ir.Builder.store type a b) s2 = .ok () s3) :
    SetsInTurn [(⟨k, [index]⟩, f)] s s3 := by
  obtain ⟨_, appends, stays, runs⟩ := address.provides .void
  obtain ⟨_, appends', -, runs'⟩ := value
  obtain ⟨u, run', appends'', -⟩ := Session.Appends.emit (.store type a b) s2
  obtain rfl : u = s3 := by
    rw [Ir.Builder.store, run'] at run
    cases run
    rfl
  refine ⟨_, (appends.trans appends').trans appends'', fun m _ anchored set => ?_⟩
  obtain ⟨⟨slot, operands⟩, -⟩ := forall_mem_cons.mp anchored
  obtain ⟨d, value, set⟩ := Option.bind_eq_some_iff.mp set
  cases set
  obtain ⟨m1, moved, kept, result⟩ := runs m (.address ⟨k, [index]⟩)
    (by simpa [Ir.Formula.slots] using slot) rfl
  rw [← kept.parts] at value
  obtain ⟨m2, moved', kept', result'⟩ :=
    runs' m1 d (fun i mem => kept.anchors (known i mem) (operands i mem)) value
  refine ⟨m2.setPart ⟨k, [index]⟩ d, ?_, ?_, fun i bound => ?_⟩
  · have part : a.part? m2 = some ⟨k, [index]⟩ := by
      simp [Ir.Value.part?, stays m1 m2 kept', result, Ir.Datum.part?]
    have stored : (Ir.Inst.store type a b).move m2 = some (m2.setPart ⟨k, [index]⟩ d) := by
      simp [Ir.Inst.move, part, result']
    simp [Ir.moves_append, moved, moved', Ir.moves, stored]
  · change m2.parts.set _ d = m.parts.set _ d
    rw [kept'.parts, kept.parts]
  · exact (kept'.temps i (Nat.lt_of_lt_of_le bound appends.temps)).trans (kept.temps i bound)

end

/-- An entry of a literal: the part of the target that it is for, and the formula for its value. -/
structure Filling where
  slot : Slot
  item : Expr
  formula : Ir.Formula

def Filling.setting (x : Filling) (k : Nat) : Ir.Part × Ir.Formula :=
  (⟨k, [x.slot.index]⟩, x.formula)

def Filling.Denotes (x : Filling) (t : ScopeTree) : Prop :=
  x.item.Denotes t .operand x.slot.type x.formula

variable {xs : List Filling}

section

variable {r : Resolver} {t : ScopeTree} {s s' : Session} {base : Place} {k : Nat} {x : Filling}

theorem Expr.Denotes.fill_eq {role : Role} {e : Expr} {type : Ty} {f : Ir.Formula}
    (denotes : e.Denotes t role type f) (r : Resolver) (addr : Ir.Value) (target : Ty) :
    fill r addr target e = pure false := by
  induction denotes with
  | content place ih | computed value ih => exact ih
  | _ => rfl

theorem entryAddr_delivers {index : Nat} {addr : Ir.Value} (address : base.addr = .temp k)
    (aggregate : base.type.ir.isAggregate) (known : k < s.builder.nextTemp)
    (run : base.entryAddr index s = .ok addr s') : Delivers (.entry (.slot k) index) s addr s' := by
  have slot := Delivers.slot known
  rw [← address] at slot
  unfold Place.entryAddr at run
  cases type : base.type with
  | struct =>
    rw [type] at run
    exact slot.entry (fun _ _ => rfl) run
  | array =>
    rw [type] at run
    exact slot.entry (fun _ _ => rfl) run
  | _ =>
    rw [type] at aggregate
    cases aggregate

theorem storeEntry_sets {addr : Ir.Value} {m : Meaning} {u1 u2 : Session}
    (address : base.addr = .temp k) (aggregate : base.type.ir.isAggregate) (known : k < s.builder.nextTemp)
    (known' : ∀ i ∈ x.formula.slots, i < s.builder.nextTemp) (denotes : x.Denotes s.tree)
    (located : base.entryAddr x.slot.index s = .ok addr u1)
    (meant : meaning r false (some x.slot.type) x.item u1 = .ok m u2)
    (stored : storeConverted addr x.slot.type m span u2 = .ok () s') :
    SetsInTurn [x.setting k] s s' := by
  have entry := entryAddr_delivers address aggregate known located
  obtain ⟨_, appends⟩ := (entry.provides .void).appends
  obtain ⟨v, u3, loaded, rest⟩ := bind_ok stored
  obtain ⟨w, _, converted, last⟩ := bind_ok rest
  have supplies := denotes.lowers u1 appends.tree
    (fun i mem => Nat.lt_of_lt_of_le (known' i mem) appends.temps) _ _ m u2 _ v u3 meant loaded
  obtain ⟨rfl, same⟩ := supplies.converted converted
  exact (same ▸ supplies.provides).store entry known' last

structure Fillable (xs : List Filling) (base : Place) (k : Nat) (s : Session) : Prop where
  address : base.addr = .temp k
  aggregate : base.type.ir.isAggregate
  known : k < s.builder.nextTemp
  denotes : ∀ x ∈ xs, x.Denotes s.tree
  operands : ∀ x ∈ xs, ∀ i ∈ x.formula.slots, i < s.builder.nextTemp

theorem Fillable.tail (ready : Fillable (x :: xs) base k s)
    {code : List Ir.Inst} (appends : s.Appends code s') : Fillable xs base k s' where
  address := ready.address
  aggregate := ready.aggregate
  known := Nat.lt_of_lt_of_le ready.known appends.temps
  denotes y mem := appends.tree ▸ ready.denotes y (.tail _ mem)
  operands y mem i named := Nat.lt_of_lt_of_le
    (ready.operands y (.tail _ mem) i named) appends.temps

theorem Fillable.step (ready : Fillable (x :: xs) base k s) {rest : Analysis Unit}
    (others : ∀ u, Fillable xs base k u → rest u = .ok () s' →
      SetsInTurn (xs.map (Filling.setting · k)) u s')
    (run : (do
      let addr ← base.entryAddr x.slot.index
      unless ← fill r addr x.slot.type x.item do
        storeConverted addr x.slot.type (← meaning r false (some x.slot.type) x.item) x.item.span
      rest) s = .ok () s') :
    SetsInTurn ((x :: xs).map (Filling.setting · k)) s s' := by
  obtain ⟨here, -⟩ := forall_mem_cons.mp ready.denotes
  obtain ⟨operands, later⟩ := forall_mem_cons.mp ready.operands
  obtain ⟨_, _, located, run⟩ := bind_ok run
  rw [here.fill_eq, pure_bind] at run
  obtain ⟨m, _, meant, run⟩ := bind_ok run
  obtain ⟨_, u3, stored, run⟩ := bind_ok run
  have fst := storeEntry_sets ready.address ready.aggregate ready.known operands here located
    meant stored
  obtain ⟨_, appends⟩ := fst.appends
  refine fst.cons (others u3 (ready.tail appends) run) fun y mem => ?_
  obtain ⟨z, lies, rfl⟩ := mem_map.mp mem
  exact ⟨ready.known, later z lies⟩

theorem fillItems_sets (xs : List Filling) : ∀ s, Fillable xs base k s →
    fillItems r base (xs.map Filling.slot) (xs.map Filling.item) s = .ok () s' →
      SetsInTurn (xs.map (Filling.setting · k)) s s' := by
  induction xs with
  | nil =>
    intro s _ run
    cases run
    exact .nil _
  | cons x xs ih =>
    intro s ready run
    exact ready.step ih run

theorem fillEntries_sets (xs : List Filling) : ∀ s (entries : List (Entry Expr)),
    entries.map Entry.value = xs.map Filling.item → Fillable xs base k s →
      fillEntries r base (xs.map fun x => .ok x.slot) entries s = .ok () s' →
        SetsInTurn (xs.map (Filling.setting · k)) s s' := by
  induction xs with
  | nil =>
    intro s _ _ _ run
    rw [map_nil, fillEntries.eq_def] at run
    cases run
    exact .nil _
  | cons x xs ih =>
  intro s entries same ready run
  cases entries with
  | nil => cases same
  | cons entry entries =>
    obtain ⟨value, same⟩ := List.cons.inj same
    rw [map_cons, fillEntries, fromExcept, pure_bind, value] at run
    exact ready.step (fun u ready run => ih u entries same ready run) run

end

/-- The entries of a literal for storage of a type, in the order of their evaluation. -/
inductive Expr.Lists (t : ScopeTree) (type : Ty) : Expr → List Filling → Prop
  | array {items : List Expr} {span : Span} {xs : List Filling}
      (slots : arraySlots type items.length span = .ok (xs.map Filling.slot))
      (values : items = xs.map Filling.item) : Lists t type (.array items span) xs
  | initializer {entries : List (Entry Expr)} {span : Span} {xs : List Filling}
      (slots : t.initializerSlots type (entries.map Entry.head) span =
        .ok (xs.map fun x => .ok x.slot))
      (values : entries.map Entry.value = xs.map Filling.item) :
      Lists t type (.initializer entries span) xs

section

variable {r : Resolver} {t : ScopeTree} {type : Ty} {value : Expr} {s s' : Session} {k : Nat}

theorem arraySlots_ok {count : Nat} {slots : List Slot}
    (got : arraySlots type count span = .ok slots) :
    type.ir.isAggregate ∧ (slots.map Slot.index).Nodup := by
  cases type with
  | array =>
    unfold arraySlots at got
    dsimp only at got
    split at got
    · cases got
      refine ⟨rfl, ?_⟩
      rw [map_map]
      exact (map_id _).symm ▸ nodup_range
    · cases got
  | _ => cases got

theorem Expr.Lists.slots_ok (lists : value.Lists t type xs) :
    type.ir.isAggregate ∧ (xs.map (·.slot.index)).Nodup := by
  have reshape : xs.map (·.slot.index) = (xs.map Filling.slot).map Slot.index := by
    rw [map_map]
    rfl
  rw [reshape]
  cases lists with
  | array slots => exact arraySlots_ok slots
  | @initializer entries span _ slots values =>
  cases type with
  | struct name template =>
    unfold ScopeTree.initializerSlots at slots
    dsimp only at slots
    split at slots
    · cases slots
    have given : fieldSlots (t.layout template) 0 [] (entries.map Entry.head) =
        (xs.map Filling.slot).map .ok := by
      rw [map_map]
      exact Except.ok.inj slots
    exact ⟨rfl, Assigns.nodup (given ▸ fieldSlots_assigns _ _ 0 [])⟩
  | array elem length =>
    unfold ScopeTree.initializerSlots at slots
    dsimp only at slots
    split at slots
    · cases slots
    cases got : arraySlots (.array elem length) (entries.map Entry.head).length span with
    | error =>
      rw [got] at slots
      cases slots
    | ok given =>
    rw [got] at slots
    have same : (given.map .ok : List (Except Diagnostic Slot)) =
        (xs.map Filling.slot).map .ok := by
      rw [map_map]
      exact Except.ok.inj slots
    obtain rfl := (map_inj_right fun _ _ => Except.ok.inj).mp same
    exact arraySlots_ok got
  | _ => cases slots

theorem lowerInto_sets (lists : value.Lists s.tree type xs) (known : k < s.builder.nextTemp)
    (denotes : ∀ x ∈ xs, x.Denotes s.tree)
    (operands : ∀ x ∈ xs, ∀ i ∈ x.formula.slots, i < s.builder.nextTemp)
    (run : value.lowerInto r (.temp k) type s = .ok () s') :
    SetsInTurn (xs.map (Filling.setting · k)) s s' := by
  have ready : Fillable xs { addr := .temp k, type } k s :=
    ⟨rfl, lists.slots_ok.1, known, denotes, operands⟩
  obtain ⟨b, u, filled, run⟩ := bind_ok run
  cases lists with
  | @array items span _ slots values =>
    have elem : ∃ elem length, type = .array elem length := by
      cases type with
      | array => exact ⟨_, _, rfl⟩
      | _ => cases slots
    obtain ⟨elem, _, rfl⟩ := elem
    rw [fill, slots, fromExcept, pure_bind] at filled
    obtain ⟨_, _, items', rest⟩ := bind_ok filled
    cases rest
    cases run
    rw [values] at items'
    exact fillItems_sets xs s ready items'
  | @initializer entries span _ slots values =>
  rw [fill, tree_run, slots, fromExcept, pure_bind] at filled
  obtain ⟨_, _, entries', rest⟩ := bind_ok filled
  cases rest
  cases run
  exact fillEntries_sets xs s entries values ready entries'

theorem lowerAssignment_sets {name : String} {id : ScopeId} {e : VariableEntry}
    (got : s.tree.find? name = some id) (kind : s.tree.kind id = .var e)
    (stored : e.storage = .slot (.temp k)) (lists : value.Lists s.tree e.type xs)
    (known : k < s.builder.nextTemp) (denotes : ∀ x ∈ xs, x.Denotes s.tree)
    (operands : ∀ x ∈ xs, ∀ i ∈ x.formula.slots, i < s.builder.nextTemp)
    (run : lowerAssignment r (.identifier name span) value s = .ok () s') :
    SetsInTurn (xs.map (Filling.setting · k)) s s' := by
  obtain ⟨p, u, placed, run⟩ := bind_ok run
  obtain ⟨m, _, meant, placed⟩ := bind_ok placed
  rw [meaning, nameMeaning_slot got kind stored] at meant
  cases meant
  cases placed
  cases constant : e.constant with
  | true =>
    simp only [constant] at run
    cases run
  | false =>
    simp only [constant] at run
    exact lowerInto_sets lists known denotes operands run

end

/-- If no entry looks at a part that an entry before it has set, every entry of the literal has the
value that it had in front of the assignment, and all else is as before. -/
theorem lowerAssignment_readsFirst {r : Resolver} {name : String} {span : Span} {value : Expr}
    {s s' : Session} {id : ScopeId} {e : VariableEntry} {k : Nat} {xs : List Filling}
    (got : s.tree.find? name = some id) (kind : s.tree.kind id = .var e)
    (stored : e.storage = .slot (.temp k)) (lists : value.Lists s.tree e.type xs)
    (known : k < s.builder.nextTemp) (denotes : ∀ x ∈ xs, x.Denotes s.tree)
    (operands : ∀ x ∈ xs, ∀ i ∈ x.formula.slots, i < s.builder.nextTemp)
    (run : lowerAssignment r (.identifier name span) value s = .ok () s') :
    ∃ code, s'.builder.code? = s.builder.code?.map (· ++ code) ∧ ∀ m : Ir.PartMemory,
      m.Anchors k → (∀ x ∈ xs, ∀ i ∈ x.formula.slots, m.Anchors i) →
        (∀ x ∈ xs, (x.formula.eval m.parts).isSome = true) →
          (xs.Pairwise fun x y => ⟨k, [x.slot.index]⟩ ∉ y.formula.reads m.parts) →
            ∃ m', Ir.moves m code = some m' ∧
              (∀ x ∈ xs, m'.parts ⟨k, [x.slot.index]⟩ = x.formula.eval m.parts) ∧
                ∀ p : Ir.Part, (∀ x ∈ xs, p ≠ ⟨k, [x.slot.index]⟩) → m'.parts p = m.parts p := by
  obtain ⟨code, appends, runs⟩ :=
    lowerAssignment_sets got kind stored lists known denotes operands run
  refine ⟨code, appends.code, fun m anchored anchored' defined apart => ?_⟩
  have undisturbed : Ir.Undisturbed m.parts (xs.map (Filling.setting · k)) := by
    refine List.pairwise_map.mpr ?_
    refine (apart.and (List.pairwise_map.mp lists.slots_ok.2)).imp fun {x y} both => ?_
    exact ⟨both.1, by simpa [Filling.setting] using both.2⟩
  obtain ⟨after, set, values, others⟩ := Ir.Parts.setInTurn_undisturbed undisturbed
    (List.forall_mem_map.mpr defined) fun _ _ _ _ => rfl
  obtain ⟨m', moved, rfl, -⟩ := runs m after
    (List.forall_mem_map.mpr fun x mem => ⟨anchored, anchored' x mem⟩) set
  refine ⟨m', moved, List.forall_mem_map.mp values, fun p away => ?_⟩
  exact others p (List.forall_mem_map.mpr away)

def twoIntegers : Session where
  tree := { nodes := [
    { name := "m", kind := .module, parent := none, names := [("a", 1)], order := [1] },
    { name := "a", kind := .var ⟨.array (.int 32 true) 2, .slot (.temp 0), false⟩,
      parent := some 0 }] }
  builder :=
    { Ir.Builder.new "m" with
      module.functions := [⟨"f", [], .void, false,
        [{ id := 0, name := "entry", insts := [.alloca 0 (.array (.int 32) 2)] }]⟩]
      function := some 0
      block := some 0
      nextTemp := 1 }

def entryOf (n : UInt64) : Expr :=
  .index (.identifier "a" {}) (.int n {}) {}

def entryFormula (n : Nat) : Ir.Formula :=
  .load (.entry (.slot 0) n)

def pairMemory (fst snd : Nat) : Ir.PartMemory where
  temps k := if k = 0 then some (.address ⟨0, []⟩) else none
  parts p := if p = ⟨0, [0]⟩ then some (.word fst)
    else if p = ⟨0, [1]⟩ then some (.word snd) else none

theorem twoIntegers_found : twoIntegers.tree.find? "a" = some 1 := by decide +kernel

theorem entryOf_denotes (n : UInt64) : (entryOf n).Denotes twoIntegers.tree .operand (.int 32 true)
    (entryFormula n.toNat) :=
  .computed (.content (.entry (.variable twoIntegers_found rfl rfl)))

def sumAndDouble : List Filling :=
  [⟨⟨0, .int 32 true⟩, .binary .add (entryOf 0) (entryOf 1) {},
      .binary .add (.int 32) true (entryFormula 0) (entryFormula 1)⟩,
    ⟨⟨1, .int 32 true⟩, .binary .mul (entryOf 1) (.int 2 {}) {},
      .binary .mul (.int 32) true (entryFormula 1) (.constant (.int 32) 2)⟩]

theorem lowerAssignment_readsFirst_sumAndDouble :
    ∃ s' code, lowerAssignment (.within 0) (.identifier "a" {})
      (.array (sumAndDouble.map Filling.item) {}) twoIntegers = .ok () s' ∧
        s'.builder.code? = twoIntegers.builder.code?.map (· ++ code) ∧
          ∃ m', Ir.moves (pairMemory 3 4) code = some m' ∧
            m'.parts ⟨0, [0]⟩ = some (.word 7) ∧ m'.parts ⟨0, [1]⟩ = some (.word 8) := by
  obtain ⟨s', run⟩ : ∃ s', lowerAssignment (.within 0) (.identifier "a" {})
      (.array (sumAndDouble.map Filling.item) {}) twoIntegers = .ok () s' :=
    ok_of_run' (by decide +kernel)
  have denotes : ∀ x ∈ sumAndDouble, x.Denotes twoIntegers.tree := by
    have sum : Expr.Denotes twoIntegers.tree .value (.binary .add (entryOf 0) (entryOf 1) {})
        (.int 32 true) (.binary .add (.int 32) true (entryFormula 0) (entryFormula 1)) :=
      .binary rfl rfl (.inl rfl) (entryOf_denotes 0) (entryOf_denotes 1)
    have double : Expr.Denotes twoIntegers.tree .value (.binary .mul (entryOf 1) (.int 2 {}) {})
        (.int 32 true) (.binary .mul (.int 32) true (entryFormula 1) (.constant (.int 32) 2)) :=
      .binary rfl rfl (.inl rfl) (entryOf_denotes 1) (.literal (by decide) ⟨by decide, by decide⟩)
    exact List.forall_mem_cons.mpr ⟨.computed sum, List.forall_mem_cons.mpr ⟨.computed double, by simp⟩⟩
  obtain ⟨code, appended, runs⟩ := lowerAssignment_readsFirst twoIntegers_found rfl rfl
    (.array rfl rfl) (by decide) denotes (by decide) run
  obtain ⟨m', moved, values, -⟩ := runs (pairMemory 3 4) rfl (by decide) (by decide) (by decide)
  obtain ⟨fst, others⟩ := List.forall_mem_cons.mp values
  obtain ⟨snd, -⟩ := List.forall_mem_cons.mp others
  exact ⟨s', code, run, appended, m', moved, fst, snd⟩

def swapped : List Filling :=
  [⟨⟨0, .int 32 true⟩, entryOf 1, entryFormula 1⟩, ⟨⟨1, .int 32 true⟩, entryOf 0, entryFormula 0⟩]

/-- An entry that reads what has been set before it does not have the value of before: both entries
become the second one. -/
theorem lowerAssignment_swapped :
    ∃ s' code, lowerAssignment (.within 0) (.identifier "a" {})
      (.array (swapped.map Filling.item) {}) twoIntegers = .ok () s' ∧
        s'.builder.code? = twoIntegers.builder.code?.map (· ++ code) ∧
          ∃ m', Ir.moves (pairMemory 1 2) code = some m' ∧ m'.parts ⟨0, [0]⟩ = some (.word 2) ∧
            m'.parts ⟨0, [1]⟩ = some (.word 2) ∧
              (entryFormula 0).eval (pairMemory 1 2).parts = some (.word 1) := by
  obtain ⟨s', run⟩ : ∃ s', lowerAssignment (.within 0) (.identifier "a" {})
      (.array (swapped.map Filling.item) {}) twoIntegers = .ok () s' :=
    ok_of_run' (by decide +kernel)
  have denotes : ∀ x ∈ swapped, x.Denotes twoIntegers.tree :=
    List.forall_mem_cons.mpr ⟨entryOf_denotes 1, List.forall_mem_cons.mpr ⟨entryOf_denotes 0, by simp⟩⟩
  obtain ⟨code, appends, runs⟩ := lowerAssignment_sets twoIntegers_found rfl rfl (.array rfl rfl)
    (by decide) denotes (by decide) run
  obtain ⟨m', moved, parts, -⟩ := runs (pairMemory 1 2)
    (((pairMemory 1 2).parts.set ⟨0, [0]⟩ (.word 2)).set ⟨0, [1]⟩ (.word 2)) (by decide) rfl
  exact ⟨s', code, run, appends.code, m', moved, by rw [parts]; rfl, by rw [parts]; rfl, rfl⟩

end Stencil
