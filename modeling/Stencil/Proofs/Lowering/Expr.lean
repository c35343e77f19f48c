import Stencil.Proofs.Lowering.Aggregate
import Stencil.Proofs.Lowering.Logical

namespace Stencil

open Analysis Tracked List Ir.Builder Spot

variable {x : Spot} {span : Span} {α : Type}

theorem length_loop (bytes : ByteArray) (i : Nat) (before : List UInt8) :
    (ByteArray.toList.loop bytes i before).length = before.length + (bytes.size - i) := by
  induction i, before using ByteArray.toList.loop.induct bytes with
  | case1 i before lies ih =>
    rw [ByteArray.toList.loop, if_pos lies, ih, length_cons]
    omega
  | case2 i before outside =>
    rw [ByteArray.toList.loop, if_neg outside, length_reverse]
    omega

theorem length_bytes (s : String) : s.toUTF8.toList.length = s.utf8ByteSize := by
  rw [ByteArray.toList, length_loop, length_nil, Nat.zero_add]
  rfl

theorem ir_stringType (s : String) :
    (stringType s).ir = .array (.int 8) (s.toUTF8.toList ++ [0]).length := by
  rw [length_append, length_bytes]
  rfl

theorem addString_keeps (content : List UInt8) : Keeps (build (addString content)) x fun given y =>
      y.Usable given.1 (.pointer given.2) ∧ given.2 = .array (.int 8) content.length := by
  obtain ⟨valid, grows⟩ := x.valid.withGlobal []
    (g := { name := ".str." ++ toString x.session.builder.nextString
            type := .array (.int 8) content.length, init := some (.bytes content), constant := true }) rfl
    fun orderly => orderly_withLiteral orderly .bytes rfl rfl
  have added : Keeps (build (addString content)) (⟨x.session, x.valid⟩ : Stage [])
      fun given y => given.2 = .array (.int 8) content.length ∧
        ∃ name, given.1 = .global name ∧ y.session.context.global name given.2 :=
    Keeps.build rfl valid grows ⟨rfl, _, rfl, _, mem_concat_self, rfl, rfl⟩
  refine (outside added).mono ?_
  rintro _ y - ⟨⟨type, _, same, has⟩, -⟩
  refine ⟨?_, type⟩
  rw [same]
  exact ⟨trivial, _, has, rfl⟩

theorem Spot.operand {step : Analysis Meaning} {next : TypedValue → Analysis α}
    {post : α → Spot → Prop} (inner : Keeps step x fun m y => m.Sound y)
    (after : ∀ v y, x.Flows y → v.Sound y → Keeps (next v) y post) :
    Keeps (step >>= fun m => m.asValue span >>= next) x post := by
  refine .bind inner fun m y way sound => ?_
  refine .bind (asValue_keeps sound) fun v z reached' sound => ?_
  exact after v z (way.trans reached') sound

variable {type : Ty} {addr : Ir.Value}

theorem storeConverted_keeps {m : Meaning}
    (address : x.Usable addr (.pointer type.ir)) (known : type.Known x.tree) (sound : m.Sound x) :
    Keeps (storeConverted addr type m span) x := by
  refine .bind (asValue_keeps sound) fun v y way sound => ?_
  refine .bind (convertTo_keeps sound (way.known known)) ?_
  rintro w z reached' ⟨converted, same⟩
  refine (storeAt_keeps ((way.trans reached').usable address) ?_).mono fun _ _ _ _ => trivial
  rw [← same]
  exact converted.usable

theorem Spot.condition {step : Analysis Meaning} (inner : Keeps step x fun m y => m.Sound y)
    {condition : Span} :
    Keeps (do asCondition (← (← step).asValue span) condition) x fun v y =>
      v.Sound y ∧ v.type.isBool := by
  refine operand inner fun v y _ sound => ?_
  refine asCondition_keeps.mono ?_
  rintro w z - ⟨rfl, rfl, bool⟩
  exact ⟨sound, bool⟩

def HintKnown (hint : Option Ty) (x : Spot) : Prop := ∀ type, hint = some type → type.Known x.tree

theorem hintKnown_none (x : Spot) : HintKnown none x := nofun

theorem hintKnown_some (known : type.Known x.tree) : HintKnown (some type) x := by
  rintro _ ⟨⟩
  exact known

theorem value_keeps {step : Analysis TypedValue} (inner : Keeps step x fun v y => v.Sound y) :
    Keeps (Meaning.value <$> step) x fun m y => m.Sound y :=
  Keeps.map inner

/-- A part is filled in place, or else its value is stored. -/
theorem fillOrStore_keeps {fills : Analysis Bool} {means : Analysis Meaning}
    {next : Analysis α} {post : α → Spot → Prop}
    (address : x.Usable addr (.pointer type.ir)) (known : type.Known x.tree)
    (filled : Keeps fills x)
    (meant : ∀ y, x.Flows y → Keeps means y fun m z => m.Sound z)
    (after : ∀ y, x.Flows y → Keeps next y post) :
    Keeps (do
      unless ← fills do storeConverted addr type (← means) span
      next) x post := by
  refine .bind filled fun done y way _ => ?_
  cases done with
  | true => exact after y way
  | false =>
  refine .bind (meant y way) fun m z reached' sound => ?_
  have whole := way.trans reached'
  refine .bind (storeConverted_keeps (whole.usable address) (whole.known known) sound) ?_
  exact fun _ u reached'' _ => after u (whole.trans reached'')

section

set_option linter.unusedSectionVars false

variable {r : Resolver} (resolves : r.Sound)
include resolves

mutual

theorem meaning_keeps : ∀ e reference (hint : Option Ty) (x : Spot), HintKnown hint x →
      Keeps (meaning r reference hint e) x fun m y => m.Sound y
  | .int n _, _, _, x, _ => by
    exact .pure (int_sound _ (fitting_literal n))
  | .float n _, _, _, x, _ => by
    exact .pure ⟨⟨trivial, _, rfl⟩, Ty.known_float _⟩
  | .bool b _, _, _, x, _ => by
    exact .pure (truth_sound b x)
  | .string s _, _, _, x, _ => by
    refine .bind (addString_keeps _) ?_
    rintro ⟨global, type⟩ y - ⟨usable, rfl⟩
    refine .bind (load_keeps usable) ?_
    rintro v z - ⟨usable, -⟩
    refine .pure ⟨?_, Ty.known_array.mpr (Ty.known_int _ (by decide))⟩
    rw [ir_stringType]
    exact usable
  | .array items span, _, hint, x, hinted => by
    rw [meaning.eq_def]
    dsimp only
    split
    · rename_i elem length
      have known := hinted _ rfl
      refine .bind (temporary_keeps _) ?_
      rintro _ y way ⟨address, -⟩
      refine .bind (m := fun slots z => y = z ∧
        ∀ part ∈ slots, part.Fits y.tree (.array elem length)) ?_ ?_
      · exact .fromExcept (fun _ got => ⟨rfl, arraySlots_fit (way.known known) got⟩)
          fun d got => arraySlots_ordinary got
      rintro slots _ - ⟨rfl, fit⟩
      refine .bind (fillItems_keeps items _ slots y ⟨address, way.known known⟩ fit) ?_
      intro _ z reached' _
      exact value_keeps ((loadFrom_sound (reached'.usable address)
        (reached'.known (way.known known))).mono fun _ _ _ h => h.1)
    refine .bind (values_keeps items x) ?_
    intro _ y _ sound
    refine value_keeps (arrayOfValues_keeps fun v mem => ?_)
    exact sound v.1 (of_mem_zip mem).1
  | .initializer entries span, _, hint, x, hinted => by
    rw [meaning.eq_def]
    dsimp only
    split
    · exact .fail rfl
    rename_i type
    have known := hinted _ rfl
    refine .bind (temporary_keeps _) ?_
    rintro _ y way ⟨address, -⟩
    refine .tree_bind ?_
    refine .bind (m := fun slots z => y = z ∧ SlotsFit y.tree type slots) ?_ ?_
    · exact .fromExcept (fun _ got => ⟨rfl, initializerSlots_fit y.valid (way.known known) got⟩)
        fun d got => initializerSlots_ordinary got
    rintro slots _ - ⟨rfl, fit⟩
    refine .bind (fillEntries_keeps entries _ slots y ⟨address, way.known known⟩ fit) ?_
    intro _ z reached' _
    exact value_keeps ((loadFrom_sound (reached'.usable address)
      (reached'.known (way.known known))).mono fun _ _ _ h => h.1)
  | .identifier name span, _, _, x, _ => by
    exact nameMeaning_keeps
  | .member object name nameSpan _, reference, _, x, _ => by
    refine .bind (meaning_keeps object reference none x (hintKnown_none x)) ?_
    exact fun _ y _ sound => memberMeaning_keeps resolves sound
  | .call callee args span, _, _, x, _ => by
    refine .bind (meaning_keeps callee false none x (hintKnown_none x)) ?_
    intro m y _ sound
    refine .bind (asCallee_keeps sound) fun target z _ sound => ?_
    refine .bind check_keeps ?_
    rintro _ _ - ⟨rfl, receives, count⟩
    refine .bind (arguments_keeps args target.signature.params z sound.params) ?_
    intro _ u way matching
    exact value_keeps (call_sound (way.callee sound) receives (matching count))
  | .index base position span, reference, _, x, _ => by
    refine .bind (meaning_keeps base reference none x (hintKnown_none x)) ?_
    intro m y _ sound
    refine .bind (asPlace_keeps sound) fun p z _ sound => ?_
    refine .bind (follow_keeps sound) fun p u _ sound => ?_
    refine .bind asArray_keeps ?_
    rintro ⟨_, _⟩ _ - ⟨rfl, array⟩
    refine operand (meaning_keeps position false none u (hintKnown_none u)) ?_
    intro v w way index
    exact .map (elementPlace_keeps (way.place sound) array index)
  | .binary op left right span, _, _, x, _ => by
    rw [meaning]
    split
    · refine operand (meaning_keeps left false none x (hintKnown_none x)) ?_
      intro v y _ sound
      refine .bind asCondition_keeps ?_
      rintro _ _ - ⟨rfl, rfl, bool⟩
      have snd : ∀ z, Keeps (do
          asCondition (← (← meaning r false none right).asValue right.span) right.span) z
          fun v u => v.Sound u ∧ v.type.isBool ∧ True := fun z =>
        (condition (meaning_keeps right false none z (hintKnown_none z))).mono
          fun _ _ _ h => ⟨h.1, h.2, trivial⟩
      exact value_keeps ((shortCircuit_keeps sound bool fun z _ _ => snd z).mono fun _ _ _ h => h.1)
    refine operand (meaning_keeps left false none x (hintKnown_none x)) ?_
    intro v y _ fst
    refine operand (meaning_keeps right false none y (hintKnown_none y)) ?_
    intro w z way snd
    exact value_keeps (binaryOperation_keeps (way.value fst) snd)
  | .unary op operand span, _, _, x, _ => by
    rw [meaning]
    split
    · rename_i n _
      exact .pure (int_sound _ (fitting_negated n))
    refine Spot.operand (meaning_keeps operand false none x (hintKnown_none x)) ?_
    exact fun v y _ sound => value_keeps (unaryOperation_keeps sound)
  | .addressOf operand span, _, _, x, _ => by
    refine .bind (meaning_keeps operand true none x (hintKnown_none x)) ?_
    intro m y _ sound
    split
    · exact .pure ⟨sound.usable, Ty.known_pointer.mpr sound.known⟩
    · exact .fail rfl
  | .deref operand span, _, _, x, _ => by
    refine Spot.operand (meaning_keeps operand false none x (hintKnown_none x)) ?_
    rintro ⟨v, type⟩ y _ ⟨usable, known⟩
    cases type with
    | pointer => exact .pure ⟨usable, Ty.known_pointer.mp known⟩
    | _ => exact .fail rfl
  | .cast operand type span, _, _, x, _ => by
    refine .tree_bind ?_
    refine .bind (outside (Resolver.type_keeps resolves _ type _)) ?_
    rintro _ y - ⟨known, -⟩
    refine Spot.operand (meaning_keeps operand false none y (hintKnown_none y)) ?_
    intro v z way sound
    exact value_keeps ((convertTo_keeps sound (way.known known)).mono fun _ _ _ h => h.1)

theorem fill_keeps : ∀ e addr type
    (x : Spot), x.Usable addr (.pointer type.ir) → type.Known x.tree → Keeps (fill r addr type e) x
  | .initializer entries span, addr, type, x, address, known => by
    refine .tree_bind ?_
    refine .bind (m := fun slots z => x = z ∧ SlotsFit x.tree type slots) ?_ ?_
    · exact .fromExcept (fun _ got => ⟨rfl, initializerSlots_fit x.valid known got⟩)
        fun d got => initializerSlots_ordinary got
    rintro slots _ - ⟨rfl, fit⟩
    refine .bind (fillEntries_keeps entries _ slots x ⟨address, known⟩ fit) ?_
    exact fun _ _ _ _ => Keeps.pure trivial
  | .array items span, addr, type, x, address, known => by
    rw [fill.eq_def]
    dsimp only
    split
    · rename_i elem length
      refine .bind (m := fun slots z => x = z ∧
        ∀ part ∈ slots, part.Fits x.tree (.array elem length)) ?_ ?_
      · exact .fromExcept (fun _ got => ⟨rfl, arraySlots_fit known got⟩)
          fun d got => arraySlots_ordinary got
      rintro slots _ - ⟨rfl, fit⟩
      refine .bind (fillItems_keeps items _ slots x ⟨address, known⟩ fit) ?_
      exact fun _ _ _ _ => Keeps.pure trivial
    · exact .pure trivial
  | .int .., _, _, _, _, _ | .float .., _, _, _, _, _ | .bool .., _, _, _, _, _
  | .string .., _, _, _, _, _ | .identifier .., _, _, _, _, _ | .member .., _, _, _, _, _
  | .call .., _, _, _, _, _ | .index .., _, _, _, _, _ | .binary .., _, _, _, _, _
  | .unary .., _, _, _, _, _ | .addressOf .., _, _, _, _, _ | .deref .., _, _, _, _, _
  | .cast .., _, _, _, _, _ =>
    Keeps.pure trivial

theorem fillEntries_keeps : ∀ (entries : List (Entry Expr))
    (base : Place) (slots : List (Except Diagnostic Slot)) (x : Spot), base.Sound x →
      SlotsFit x.tree base.type slots → Keeps (fillEntries r base slots entries) x
  | _, _, [], _, _, _ => by
    rw [fillEntries.eq_def]
    exact .pure trivial
  | [], _, _ :: _, _, _, _ => Keeps.pure trivial
  | entry :: entries, base, slot :: slots, x, sound, fit => by
    obtain ⟨here, wrong⟩ := fit slot (.head _)
    refine .bind (m := fun part z => x = z ∧ part.Fits x.tree base.type) ?_ ?_
    · exact .fromExcept (fun part same => ⟨rfl, here part same⟩) wrong
    rintro part _ - ⟨rfl, fits⟩
    refine .bind (entryAddr_keeps sound fits) fun addr y way address => ?_
    have known := (way.fits sound.known fits).known
    refine fillOrStore_keeps address known
      (fill_keeps entry.value addr part.type y address known) ?_ ?_
    · exact fun z reached' => meaning_keeps entry.value false (some part.type) z
        (hintKnown_some (reached'.known known))
    intro z reached'
    have whole := way.trans reached'
    refine fillEntries_keeps entries base slots z (whole.place sound) ?_
    intro slot mem
    obtain ⟨fits, wrong⟩ := fit slot (.tail _ mem)
    exact ⟨fun part same => whole.fits sound.known (fits part same), wrong⟩

theorem fillItems_keeps : ∀ items (base : Place) (slots : List Slot) (x : Spot), base.Sound x →
      (∀ part ∈ slots, part.Fits x.tree base.type) →
      Keeps (fillItems r base slots items) x
  | _, _, [], _, _, _ => by
    rw [fillItems.eq_def]
    exact .pure trivial
  | [], _, _ :: _, _, _, _ => Keeps.pure trivial
  | item :: items, base, part :: slots, x, sound, fit => by
    have fits := fit part (.head _)
    refine .bind (entryAddr_keeps sound fits) fun addr y way address => ?_
    have known := (way.fits sound.known fits).known
    refine fillOrStore_keeps address known (fill_keeps item addr part.type y address known) ?_ ?_
    · exact fun z reached' => meaning_keeps item false (some part.type) z
        (hintKnown_some (reached'.known known))
    intro z reached'
    have whole := way.trans reached'
    refine fillItems_keeps items base slots z (whole.place sound) ?_
    exact fun part mem => whole.fits sound.known (fit part (.tail _ mem))

theorem arguments_keeps : ∀ args (types : List Ty) (x : Spot), (∀ type ∈ types, type.Known x.tree) →
      Keeps (arguments r types args) x fun values y => args.length = types.length →
        List.Forall₂ y.Usable values (types.map Ty.ir)
  | [], [], _, _ => Keeps.pure fun _ => .nil
  | _ :: _, [], _, _ => Keeps.pure fun same => by cases same
  | [], _ :: _, _, _ => Keeps.pure fun same => by cases same
  | arg :: args, type :: types, x, known => by
    refine operand (meaning_keeps arg false (some type) x
      (hintKnown_some (known type (.head _)))) ?_
    intro v y way sound
    refine .bind (convertTo_keeps sound (way.known (known type (.head _)))) ?_
    rintro w z reached' ⟨converted, same⟩
    refine .bind (arguments_keeps args types z fun type mem =>
      (way.trans reached').known (known type (.tail _ mem))) ?_
    intro values u reached'' matching
    refine .pure fun count => .cons ?_ (matching (Nat.succ.inj count))
    rw [← same]
    exact (reached''.value converted).usable

theorem values_keeps : ∀ items x, Keeps (values r items) x fun got y => ∀ v ∈ got, v.Sound y
  | [], _ => Keeps.pure nofun
  | item :: items, x => by
    refine operand (meaning_keeps item false none x (hintKnown_none x)) ?_
    intro v y _ sound
    refine .bind (values_keeps items y) fun got z way rest => ?_
    refine .pure fun w mem => ?_
    rcases mem_cons.mp mem with rfl | later
    · exact way.value sound
    · exact rest w later

end

end

namespace Expr

variable {r : Resolver} {e : Expr}

theorem lower_keeps (resolves : r.Sound) {hint : Option Ty} (hinted : HintKnown hint x) :
    Keeps (e.lower r hint) x fun v y => v.Sound y :=
  Keeps.bind (meaning_keeps resolves e false hint x hinted) fun _ _ _ sound => asValue_keeps sound

theorem lowerPlace_keeps (resolves : r.Sound) : Keeps (e.lowerPlace r) x fun p y => p.Sound y := by
  refine .bind (meaning_keeps resolves e true none x (hintKnown_none x)) ?_
  intro m y _ sound
  split
  · exact .pure sound
  · exact .fail rfl

theorem lowerCondition_keeps (resolves : r.Sound) :
    Keeps (e.lowerCondition r) x fun v y => v.Sound y ∧ v.type.isBool := by
  refine .bind (lower_keeps resolves (hintKnown_none x)) fun v y _ sound => ?_
  refine asCondition_keeps.mono ?_
  rintro w z - ⟨rfl, rfl, bool⟩
  exact ⟨sound, bool⟩

theorem lowerInto_keeps (resolves : r.Sound)
    (address : x.Usable addr (.pointer type.ir)) (known : type.Known x.tree) :
    Keeps (e.lowerInto r addr type) x := by
  refine .bind (fill_keeps resolves e addr type x address known) fun done y way _ => ?_
  cases done with
  | true => exact .pure trivial
  | false =>
  refine .bind (meaning_keeps resolves e false (some type) y
    (hintKnown_some (way.known known))) fun m z reached' sound => ?_
  have whole := way.trans reached'
  exact storeConverted_keeps (whole.usable address) (whole.known known) sound

end Expr

end Stencil
