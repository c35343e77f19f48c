import Stencil.Proofs.Lowering.Blocks
import Stencil.Proofs.Lowering.Operation

namespace Stencil

open Analysis Tracked Ir List

variable {op : BinaryOp} {lhs : TypedValue} {rhs : Analysis TypedValue} {x : Spot}
  {post : Spot → TypedValue → Spot → Prop}

theorem bool_usable (sound : lhs.Sound x) (bool : lhs.type.isBool) :
    x.Usable lhs.value Ty.bool.ir := by
  have usable := sound.usable
  rw [ir_of_bool bool] at usable
  exact usable

variable {cond : Value} {more done : Nat}

theorem circuitEnd_successors :
    ∀ target ∈ (circuitEnd op cond more done).successors, target ∈ [done, more] := by
  unfold circuitEnd
  split <;> simp [Ir.Terminator.successors]

theorem circuitEnd_ne_nil : (circuitEnd op cond more done).successors ≠ [] := by
  unfold circuitEnd
  split <;> exact cons_ne_nil _ _

theorem circuitEnd_operands : (circuitEnd op cond more done).operands = [cond] := by
  unfold circuitEnd
  split <;> rfl

theorem circuitEnd_typed {Γ : Context} {params : List Ir.Ty} {types : Types} {result : Ir.Ty}
    (bool : cond.Has Γ params types .bool) :
    (circuitEnd op cond more done).Typed Γ params types result := by
  unfold circuitEnd
  split <;> exact bool

/-- The left operand is in its slot, and the insertion block is the one of the right operand. -/
structure Forks (op : BinaryOp) (x : Spot) (left : Value) (done : Nat) (w : Spot) : Prop where
  reached : x.Follows w.toSite
  tree : w.tree = x.tree
  code : w.code = []
  waiting : w.waiting = done :: x.waiting
  slot : w.draft.HasSlot x.nextTemp .bool
  inside : 0 < done ∧ done < w.draft.size
  owned : x.Owns done ∧ x.Owns w.block
  counts : ∀ k, x.Defined k → w.supply done k
  supplied : ∀ k, w.supply done k → w.Defined k
  ended : w.draft.Ended x.block (x.code ++ [.store .bool (.temp x.nextTemp) left])
    (circuitEnd op left w.block done)
  links : x.draft.Links w.draft x.Owns

/-- The right operand is in the slot too, and the insertion block is the last one. -/
structure Joins (u : Spot) (slot right : Value) (z : Spot) (v : Value) : Prop where
  reached : u.Follows z.toSite
  tree : z.tree = u.tree
  waiting : u.waiting = z.block :: z.waiting
  supplied : ∀ k, u.supply z.block k → z.Defined k
  ended : z.draft.Ended u.block (u.code ++ [.store .bool slot right]) (.jump z.block)
  result : z.code = [.load u.nextTemp .bool slot] ∧ v = .temp u.nextTemp
  links : u.draft.Links z.draft fun id => u.Owns id ∨ id = z.block

structure ShortCircuits (op : BinaryOp) (x : Spot) (left : Value) (w : Spot) (right : Value)
    (u z : Spot) (v : Value) : Prop where
  forks : Forks op x left z.block w
  passed : w.Flows u
  joins : Joins u (.temp x.nextTemp) right z v

theorem openCircuit_keeps (sound : lhs.Sound x) (bool : lhs.type.isBool) :
    Keeps (openCircuit op lhs) x.toSite fun out y => ∃ w : Spot, w.toSite = y ∧
      out.1 = .temp x.nextTemp ∧ Forks op x lhs.value out.2 w := by
  refine .bind (temporary_keeps .bool).site ?_
  rintro _ _ _ ⟨x1, rfl, to1, address, rfl, slot, draft1, block1, tree1, -⟩
  refine .bind (storeAt_keeps address (to1.usable (bool_usable sound bool))).site ?_
  rintro _ _ _ ⟨x2, rfl, to2, emits, -⟩
  refine .bind (prepare_keeps (.refl x2 x2.Defined) (by simp) fun _ h => h) ?_
  rintro more _ _ ⟨_, rfl, opens⟩
  refine .bind (prepare_keeps opens (by simp) fun _ h => h) ?_
  rintro done _ _ ⟨x3, rfl, opens⟩
  have before := to1.trans to2
  have to3 := opens.reached
  have kept : ∀ k, x2.Defined k → x3.Defined k := fun k => to3.defined opens.block
  have usable := before.usable (bool_usable sound bool)
  have cond : x3.Usable lhs.value .bool := ⟨to3.ready kept usable.1, to3.has usable.2⟩
  refine .bind (terminate_keeps (t := circuitEnd op lhs.value more done)
    (fun target mem => opens.inside target (circuitEnd_successors target mem)) ?_ ?_
    (circuitEnd_typed cond.2)) ?_
  · rw [circuitEnd_operands]
    exact forall_mem_singleton.mpr cond.1
  · intro target mem k stocked
    exact kept k ((opens.supply target (circuitEnd_successors target mem) k).mp stocked)
  intro _ _ to4 ends
  refine .bind (position_keeps [done] x2.waiting ends.attached
    (ends.waiting.trans opens.waiting) ends.terminated) ?_
  rintro _ _ to5 ⟨w, rfl, moves, waiting⟩
  refine .pure ⟨w, rfl, rfl, ?_⟩
  have owned : ∀ id ∈ [done, more], x.Owns id := fun id mem =>
    before.inside.owns before.draft.length (opens.owned id mem)
  have last := to4.trans to5
  have inside := opens.inside done (by simp)
  constructor
  case reached => exact before.toFollows.trans (to3.trans last)
  case tree => rw [moves.tree, ends.tree, opens.tree, emits.tree, tree1]
  case code => exact moves.code
  case waiting => rw [waiting, before.waiting]; rfl
  case slot => exact (to2.toFollows.trans (to3.trans last)).draft.slots _ _ slot
  case inside => exact inside.imp_right fun less => Nat.lt_of_lt_of_le less last.draft.length
  case owned => exact ⟨owned done (by simp), moves.block ▸ owned more (by simp)⟩
  case counts =>
    intro k defined
    rw [moves.supply, ends.supply, opens.supply done (by simp)]
    exact before.defined k defined
  case supplied =>
    intro k stocked
    refine .inl ?_
    rw [moves.supply, ends.supply] at stocked ⊢
    rw [moves.block, opens.supply more (by simp)]
    exact (opens.supply done (by simp) k).mp stocked
  case ended =>
    have front : x3.code = x.code ++ [_] :=
      opens.code.trans ((emits.code rfl).trans (by rw [x.code_reserved .bool draft1 block1]))
    have ended := ends.ended
    rw [front, opens.block, emits.block, block1, ← moves.block] at ended
    exact to5.draft.ended ended
  case links =>
    refine before.inside.links.trans ((opens.links.mono fun _ => False.elim).trans ?_)
    exact (ends.links circuitEnd_ne_nil fun next mem =>
      owned next (circuitEnd_successors next mem)).trans (.of_eq moves.draft)

theorem closeCircuit_keeps {u : Spot} {right : TypedValue} {slot : Nat} {back : List Nat}
    (has : u.draft.HasSlot slot .bool) (inside : 0 < done ∧ done < u.draft.size)
    (waiting : u.waiting = done :: back) (supplied : ∀ k, u.supply done k → u.Defined k)
    (sound : right.Sound u) (bool : right.type.isBool) :
    Keeps (closeCircuit (.temp slot) done right) u.toSite fun v y => ∃ z : Spot, z.toSite = y ∧
      z.block = done ∧ v.Sound z ∧ v.type = .bool ∧
        Joins u (.temp slot) right.value z v.value := by
  refine .bind (storeAt_keeps (u.slot_usable has) (bool_usable sound bool)).site ?_
  rintro _ _ _ ⟨u1, rfl, to1, emits1, temps1⟩
  have same := to1.draft.supplies done
  refine .bind (terminate_keeps ?_ (by simp [Ir.Terminator.operands]) ?_ trivial) ?_
  · refine forall_mem_singleton.mpr (inside.imp_right fun less => ?_)
    exact Nat.lt_of_lt_of_le less to1.draft.length
  · refine forall_mem_singleton.mpr fun k stocked => to1.defined k (supplied k ?_)
    exact (same k inside.2).mp stocked
  intro _ _ to2 ends
  refine .bind (position_keeps [] back ends.attached ?_ ends.terminated) ?_
  · rw [ends.waiting, to1.waiting, waiting]
    rfl
  rintro _ _ to3 ⟨u3, rfl, moves, waiting'⟩
  have way := to1.toFollows.trans (to2.trans to3)
  refine (loadFrom_keeps (u3.slot_usable (way.draft.slots _ _ has)) Ty.known_bool).site.mono ?_
  rintro v _ _ ⟨z, rfl, to4, sound', type, value, emits, -⟩
  have block := emits.block.trans moves.block
  refine ⟨z, rfl, block, sound', type, ?_⟩
  constructor
  case reached => exact way.trans to4.toFollows
  case tree => rw [emits.tree, moves.tree, ends.tree, emits1.tree]
  case waiting => rw [waiting, block, to4.waiting, waiting']; rfl
  case supplied =>
    intro k stocked
    refine to4.defined k (.inl ?_)
    rw [moves.supply, moves.block, ends.supply]
    exact (same k inside.2).mpr (block ▸ stocked)
  case ended =>
    have ended := ends.ended
    rw [emits1.code rfl, emits1.block] at ended
    exact block ▸ (to3.trans to4.toFollows).draft.ended ended
  case result =>
    have code := emits.code rfl
    rw [moves.code, nil_append] at code
    have temps : u3.nextTemp = u.nextTemp := moves.temps.trans (ends.temps.trans temps1)
    rw [code, value, temps]
    exact ⟨rfl, rfl⟩
  case links =>
    have next : ∀ id ∈ [done], u.Owns id ∨ id = z.block := forall_mem_singleton.mpr (.inr block.symm)
    refine (to1.inside.links.mono fun _ => .inl).trans (.trans (ends.links (cons_ne_nil _ _) next) ?_)
    refine .trans (.of_eq moves.draft) ?_
    refine to4.inside.links.mono fun id owns => owns.elim (fun here => .inr ?_) fun new => .inl ?_
    · exact here.trans emits.block.symm
    · exact .inr (Nat.le_trans way.draft.length new)

theorem ShortCircuits.flows {left right v : Value} {w u z : Spot}
    (code : ShortCircuits op x left w right u z v) : x.Flows z := by
  obtain ⟨forks, passed, joins⟩ := code
  refine ⟨forks.reached.trans (passed.toFollows.trans joins.reached), ?_, ?_, .inr ?_, ?_, ?_⟩
  · have waiting := joins.waiting.symm.trans (passed.waiting.trans forks.waiting)
    exact (cons.inj waiting).2
  · intro k defined
    refine joins.supplied k ?_
    exact (passed.draft.supplies _ k forks.inside.2).mpr (forks.counts k defined)
  · rw [joins.result.1]
    exact cons_ne_nil _ _
  · have inner : ∀ id, w.Owns id → x.Owns id := fun id =>
      x.owns_trans forks.reached.draft.length forks.owned.2
    refine forks.links.trans ((passed.inside.links.mono inner).trans (joins.links.mono ?_))
    rintro id (owns | rfl)
    · exact inner id (passed.inside.owns passed.draft.length owns)
    · exact forks.owned.1
  · exact forks.owned.1

/-- The right operand is evaluated in a block of its own; the result is in a slot. -/
theorem shortCircuit_branches (fst : lhs.Sound x) (bool : lhs.type.isBool)
    (snd : ∀ y, x.Follows y.toSite → y.tree = x.tree → Keeps rhs y fun v z =>
      v.Sound z ∧ v.type.isBool ∧ post y v z) :
    Keeps (do let (slot, done) ← openCircuit op lhs; closeCircuit slot done (← rhs)) x fun v z =>
      v.Sound z ∧ v.type = .bool ∧
        ∃ w right u, post w right u ∧ ShortCircuits op x lhs.value w right.value u z v.value := by
  refine .spot (.bind (openCircuit_keeps fst bool) ?_)
  rintro ⟨_, done⟩ _ _ ⟨w, rfl, rfl, forks⟩
  refine .bind (snd w forks.reached forks.tree).site ?_
  rintro right _ _ ⟨u, rfl, passed, sound, bool', holds⟩
  have length := passed.draft.length
  refine (closeCircuit_keeps (passed.draft.slots _ _ forks.slot)
    (forks.inside.imp_right fun less => Nat.lt_of_lt_of_le less length)
    (passed.waiting.trans forks.waiting) (fun k stocked => passed.defined k ?_) sound bool').mono ?_
  · exact forks.supplied k ((passed.draft.supplies done k forks.inside.2).mp stocked)
  rintro v _ _ ⟨z, rfl, rfl, sound', type, joins⟩
  have code : ShortCircuits op x lhs.value w right.value u z v.value := ⟨forks, passed, joins⟩
  exact ⟨z, rfl, code.flows, sound', type, w, right, u, holds, code⟩

inductive Circuit (op : BinaryOp) (lhs : TypedValue) (post : Spot → TypedValue → Spot → Prop)
    (x : Spot) : TypedValue → Spot → Prop
  | decided {n : Int} (value : lhs.value = .int n) (decides : n = if op = .or then 1 else 0) :
    Circuit op lhs post x lhs x
  | passed {n : Int} {v : TypedValue} {z : Spot} (value : lhs.value = .int n)
      (undecided : ¬n = if op = .or then 1 else 0) (holds : post x v z) : Circuit op lhs post x v z
  | branches {w u z : Spot} {right v : TypedValue} (value : lhs.value.int? = none)
      (typed : v.type = .bool) (holds : post w right u)
      (code : ShortCircuits op x lhs.value w right.value u z v.value) : Circuit op lhs post x v z

theorem shortCircuit_keeps (fst : lhs.Sound x) (bool : lhs.type.isBool)
    (snd : ∀ y, x.Follows y.toSite → y.tree = x.tree → Keeps rhs y fun v z =>
      v.Sound z ∧ v.type.isBool ∧ post y v z) :
    Keeps (shortCircuit op lhs rhs) x fun v z => v.Sound z ∧ v.type.isBool ∧
      Circuit op lhs post x v z := by
  unfold shortCircuit
  split
  · rename_i n constant
    have value : lhs.value = .int n := by
      cases h : lhs.value <;> rw [h] at constant <;> cases constant
      rfl
    by_cases decides : n = if op = .or then 1 else 0
    · rw [if_pos decides]
      exact .pure ⟨fst, bool, .decided value decides⟩
    rw [if_neg decides]
    refine (snd x (.refl _) rfl).mono ?_
    rintro v z _ ⟨sound, bool', holds⟩
    exact ⟨sound, bool', .passed value decides holds⟩
  rename_i dynamic
  refine (shortCircuit_branches fst bool snd).mono ?_
  rintro v z _ ⟨sound, type, w, _, u, holds, code⟩
  exact ⟨sound, by rw [type]; rfl, .branches dynamic type holds code⟩

end Stencil
