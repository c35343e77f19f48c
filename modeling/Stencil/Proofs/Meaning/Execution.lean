import Stencil.Proofs.Ir.Machine
import Stencil.Proofs.Lowering.Junction
import Stencil.Proofs.Meaning.Names

/-!
Runs of a finished body, seen from the sites at which it was built. A site stands for the point in
a block behind the code that was there at that time.
-/

namespace Stencil

open Analysis Ir Ir.Function Site List Ir.Inst Ir.Value Local

def Scalar.cell : Scalar → Cell
  | int v => .word v.toNat
  | bool b => .word b.toNat

theorem Scalar.cell_injective {s s' : Scalar} (types : s.type = s'.type) (same : s.cell = s'.cell) :
    s = s' := by
  cases s <;> cases s' <;> first | cases types; done | skip
  · exact congrArg Scalar.int (BitVec.eq_of_toNat_eq (Ir.Cell.word.inj same))
  rename_i b b'
  cases b <;> cases b' <;> first | rfl | cases same

def Ir.Function.codeOf (f : Function) (i : Nat) : List Inst :=
  (f.blocks[i]?.map Ir.Block.code).getD []

def Site.state (x : Site) (f : Function) (m : Memory) : State :=
  .running x.block ((f.codeOf x.block).drop x.code.length) m

variable {inst : Inst}

section

variable {x y last : Site} {args : List Cell} {m m' : Memory} {t : Terminator}

theorem Site.Advances.trans {z : Site} (fst : x.Advances y) (snd : y.Advances z) : x.Advances z :=
  ⟨fst.lowers.trans snd.lowers, fst.draft.trans snd.draft⟩

theorem Site.Advances.code (advanced : x.Advances last) : x.code <+: last.draft.codeOf x.block := by
  obtain ⟨b, here⟩ := x.pending.here
  obtain ⟨_, there, continued⟩ := advanced.draft.blocks x.block b here
  rw [x.code_eq here, codeOf, there]
  exact continued.code

theorem Site.state_congr (block : y.block = x.block) (code : y.code = x.code) (f : Function) :
    y.state f m = x.state f m := by
  rw [state, state, block, code]

theorem Site.Beside.state (beside : x.Beside y) (f : Function) : y.state f m = x.state f m :=
  state_congr beside.block beside.code f

theorem step_code (block : y.block = x.block) (code : y.code = x.code ++ [inst])
    (advanced : y.Advances last) (run : inst.run args m = some m') :
    last.draft.Travels args 1 (x.state last.draft m) (y.state last.draft m') := by
  obtain ⟨rest, whole⟩ := advanced.code
  have front : (last.draft.codeOf x.block).drop x.code.length = inst :: rest := by
    rw [← block, ← whole, code, append_assoc, drop_left]
    rfl
  have back : (last.draft.codeOf y.block).drop y.code.length = rest := by
    rw [← whole, drop_left]
  rw [state, state, front, back, block]
  exact travels_inst run

theorem Spot.Emits.step {x y : Spot} (emits : x.Emits y inst)
    (plain : inst.isAlloca = false) (advanced : y.Advances last) (run : inst.run args m = some m') :
    last.draft.Travels args 1 (x.state last.draft m) (y.state last.draft m') :=
  step_code emits.block (emits.code plain) advanced run

theorem state_ended {rest : List Inst} (ended : last.draft.Ended x.block (x.code ++ rest) t) :
    x.state last.draft m = .running x.block rest m := by
  obtain ⟨b, here, whole, -⟩ := ended
  rw [state, codeOf, here, Option.map_some, Option.getD_some, whole, drop_left]

theorem state_end (ended : last.draft.Ended x.block x.code t) :
    x.state last.draft m = .running x.block [] m :=
  state_ended (by rwa [append_nil])

variable {code : List Inst}

theorem leads_end {f : Function} {i : Nat} (args : List Cell)
    (m : Memory) (ended : f.Ended i code t) :
    f.Leads args 1 (.running i [] m) (f.leave args m t) := by
  obtain ⟨b, here, -, done⟩ := ended
  refine .single ?_
  rw [step, here, Option.bind_some, done]

theorem enter_block {i : Nat} {b : Ir.Block} (last : Site) (here : last.draft.blocks[i]? = some b)
    (later : 0 < i) : last.draft.enter i m = .running i (last.draft.codeOf i) m := by
  have bare : b.code = b.insts := filter_eq_self.mpr fun inst mem => by
    rw [(last.built.fits i b here).noSlots later inst mem]
    rfl
  rw [enter, here, codeOf, here]
  exact congrArg (Ir.State.running i · m) bare.symm

variable {i target : Nat}

theorem enter_successor (ended : last.draft.Ended i code t) (mem : target ∈ t.successors) :
    last.draft.enter target m = .running target (last.draft.codeOf target) m := by
  obtain ⟨b, here, -, done⟩ := ended
  obtain ⟨later, lies⟩ := (last.built.fits i b here).targets target (by
    rw [Ir.Block.successors, done]
    exact mem)
  exact enter_block last (getElem?_eq_getElem lies) later

theorem travels_end (ended : last.draft.Ended i code t)
    (taken : target ∈ t.taken) (mem : target ∈ t.successors)
    (leave : last.draft.leave args m t = last.draft.enter target m) :
    last.draft.Travels args 1 (.running i [] m) (.running target (last.draft.codeOf target) m) where
  leads := by
    rw [← enter_successor ended mem, ← leave]
    exact leads_end args m ended
  reaches b there := by
    obtain ⟨block, here, -, done⟩ := ended
    cases there
    refine ⟨i, rfl, .step ⟨block, here, ?_⟩ (.here target)⟩
    rw [Ir.Block.taken, done]
    exact taken

theorem travels_jump (ended : last.draft.Ended i code (.jump target)) :
    last.draft.Travels args 1 (.running i [] m) (.running target (last.draft.codeOf target) m) :=
  travels_end ended (mem_singleton_self _) (mem_singleton_self _) rfl

theorem travels_ret {i : Nat} {v : Value} {c : Cell}
    (ended : last.draft.Ended i code (.ret (some v)))
    (given : v.cell? args m last.draft.result = some c) :
    last.draft.Travels args 1 (.running i [] m) (.returned (some c)) where
  leads := by
    have left := leads_end args m ended
    rwa [leave, given] at left
  reaches _ there := by cases there

end

variable {k : Nat}

namespace Ir.Memory

/-- Temporaries and slots below a number have kept their contents. -/
structure Keeps (n : Nat) (m m' : Memory) : Prop where
  temps : ∀ k < n, m'.temps k = m.temps k
  slots : ∀ k < n, m'.slots k = m.slots k

variable {n n' : Nat} {m m' m'' : Memory}

theorem Keeps.refl (n : Nat) (m : Memory) : m.Keeps n m := ⟨fun _ _ => rfl, fun _ _ => rfl⟩

theorem Keeps.trans (fst : m.Keeps n m') (snd : m'.Keeps n m'') : m.Keeps n m'' where
  temps k below := (snd.temps k below).trans (fst.temps k below)
  slots k below := (snd.slots k below).trans (fst.slots k below)

theorem Keeps.less (kept : m.Keeps n' m') (less : n ≤ n') : m.Keeps n m' where
  temps k below := kept.temps k (Nat.lt_of_lt_of_le below less)
  slots k below := kept.slots k (Nat.lt_of_lt_of_le below less)

theorem keeps_setTemp (above : n ≤ k) (c : Cell) : m.Keeps n (m.setTemp k c) where
  temps _ below := if_neg (Nat.ne_of_lt (Nat.lt_of_lt_of_le below above))
  slots _ _ := rfl

theorem keeps_setSlot (above : n ≤ k) (c : Cell) : m.Keeps n (m.setSlot k c) where
  temps _ _ := rfl
  slots _ below := if_neg (Nat.ne_of_lt (Nat.lt_of_lt_of_le below above))

@[simp] theorem temps_setTemp (m : Memory) (k : Nat) (c : Cell) :
    (m.setTemp k c).temps k = some c := if_pos rfl

@[simp] theorem slots_setSlot (m : Memory) (k : Nat) (c : Cell) :
    (m.setSlot k c).slots k = some c := if_pos rfl

end Ir.Memory

variable {type : Ir.Ty}

section

variable {last : Site} {m : Memory} {args : List Cell} {c : Cell}

theorem run_load (args : List Cell) (address : m.temps k = some (.slot k))
    (content : m.slots k = some c) (dst : Nat)
    (type : Ir.Ty) : run args m (.load dst type (.temp k)) = some (m.setTemp dst c) := by
  rw [run, slot?, cell?, address]
  exact congrArg (Option.bind · fun c => some (m.setTemp dst c)) content

theorem run_store {v : Value} (address : m.temps k = some (.slot k))
    (given : v.cell? args m type = some c) :
    run args m (.store type (.temp k) v) = some (m.setSlot k c) := by
  rw [run, given, slot?, cell?, address]
  rfl

def Site.Stacked (last : Site) (m : Memory) : Prop :=
  ∀ k type, last.draft.HasSlot k type → m.temps k = some (.slot k)

theorem eq_of_dst {insts : List Inst} (distinct : (insts.filterMap dst?).Nodup)
    {a b : Inst} (fst : a ∈ insts) (snd : b ∈ insts) (dst : a.dst? = some k)
    (dst' : b.dst? = some k) : a = b := by
  induction insts with
  | nil => cases fst
  | cons inst insts ih =>
  have among : ∀ c ∈ insts, c.dst? = some k → k ∈ insts.filterMap dst? :=
    fun c mem result => mem_filterMap.mpr ⟨c, mem, result⟩
  cases here : inst.dst? with
  | none =>
    rw [filterMap_cons_none here] at distinct
    have later : ∀ {c : Inst}, c ∈ inst :: insts → c.dst? = some k → c ∈ insts := by
      intro c mem result
      refine (mem_cons.mp mem).resolve_left ?_
      rintro rfl
      rw [here] at result
      cases result
    exact ih distinct (later fst dst) (later snd dst')
  | some =>
  rw [filterMap_cons_some here] at distinct
  obtain ⟨fresh, distinct⟩ := nodup_cons.mp distinct
  rcases mem_cons.mp fst with rfl | later
  · cases here.symm.trans dst
    rcases mem_cons.mp snd with rfl | later'
    · rfl
    · exact absurd (among b later' dst') fresh
  rcases mem_cons.mp snd with rfl | later'
  · cases here.symm.trans dst'
    exact absurd (among a later dst) fresh
  · exact ih distinct later later'

theorem Site.not_slot (last : Site) {i k : Nat}
    (mem : inst ∈ last.draft.codeOf i) (dst : inst.dst? = some k)
    (slot : last.draft.HasSlot k type) : False := by
  rw [codeOf] at mem
  cases here : last.draft.blocks[i]? with
  | none =>
    rw [here] at mem
    cases mem
  | some b =>
  rw [here] at mem
  obtain ⟨lies, plain⟩ := mem_filter.mp mem
  obtain ⟨entry, fst, alloca⟩ := slot
  have same := eq_of_dst last.built.distinct (mem_flatMap.mpr ⟨b, mem_of_getElem? here, lies⟩)
    (mem_flatMap.mpr ⟨entry, mem_of_getElem? fst, alloca⟩) dst rfl
  rw [same] at plain
  cases plain

theorem Site.Stacked.setTemp (stacked : last.Stacked m) {i k : Nat}
    (mem : inst ∈ last.draft.codeOf i) (dst : inst.dst? = some k) (c : Cell) :
    last.Stacked (m.setTemp k c) := by
  intro n type slot
  by_cases same : n = k
  · subst same
    exact (last.not_slot mem dst slot).elim
  · exact (if_neg same).trans (stacked n type slot)

theorem Site.Stacked.setSlot (stacked : last.Stacked m) (k : Nat) (c : Cell) :
    last.Stacked (m.setSlot k c) :=
  stacked

theorem Site.Advances.mem {y : Site} (advanced : y.Advances last)
    (mem : inst ∈ y.code) : inst ∈ last.draft.codeOf y.block :=
  advanced.code.subset mem

end

structure Site.Knows (x : Site) (vars : List Local) : Prop where
  sees : x.tree.Sees x.tree.current vars
  written : ∀ v ∈ vars, isWritten v.name
  slots : ∀ v ∈ vars, x.draft.HasSlot v.slot v.type.ty.ir
  distinct : (vars.map slot).Nodup

def Local.Hold (m : Memory) (vars : List Local) (env : Env) : Prop :=
  List.Forall₂ (fun v entry => v.name = entry.1 ∧ entry.2.type = v.type ∧
    m.slots v.slot = some entry.2.cell) vars env

variable {x y : Site} {vars : List Local} {env : Env} {m m' : Memory}

theorem Site.slot_lt (x : Site) (slot : x.draft.HasSlot k type) : k < x.nextTemp := by
  obtain ⟨entry, fst, alloca⟩ := slot
  refine x.built.bounded k (mem_filterMap.mpr ⟨.alloca k type, ?_, rfl⟩)
  exact mem_flatMap.mpr ⟨entry, mem_of_getElem? fst, alloca⟩

theorem Site.Knows.below (knows : x.Knows vars) : ∀ v ∈ vars, v.slot < x.nextTemp :=
  fun v mem => x.slot_lt (knows.slots v mem)

theorem Site.Knows.later (knows : x.Knows vars) (tree : y.tree = x.tree)
    (slots : ∀ k type, x.draft.HasSlot k type → y.draft.HasSlot k type) : y.Knows vars where
  sees := by
    rw [tree]
    exact knows.sees
  written := knows.written
  slots v mem := slots _ _ (knows.slots v mem)
  distinct := knows.distinct

variable (hold : Hold m vars env)
include hold

theorem Local.Hold.congr
    (same : ∀ v ∈ vars, m'.slots v.slot = m.slots v.slot) : Hold m' vars env := by
  induction hold with
  | nil => exact .nil
  | @cons v entry vars env here _ ih =>
    refine .cons ⟨here.1, here.2.1, ?_⟩ (ih fun w mem => same w (.tail _ mem))
    rw [same v (.head _)]
    exact here.2.2

theorem Local.Hold.keeps {n : Nat} (below : ∀ v ∈ vars, v.slot < n)
    (kept : m.Keeps n m') : Hold m' vars env :=
  hold.congr fun v mem => kept.slots _ (below v mem)

/-- A variable that a name leads to has its value in its slot. -/
theorem Local.Hold.lookup {name : String} {v : Local} (got : named? vars name = some v) :
    ∃ s, env.lookup name = some s ∧ s.type = v.type ∧ m.slots v.slot = some s.cell := by
  induction hold with
  | nil => cases got
  | @cons w entry vars env here _ ih =>
  obtain ⟨_, s⟩ := entry
  obtain ⟨same, type, content⟩ := here
  rw [named?, find?_cons] at got
  rw [lookup_cons]
  by_cases hit : w.name = name
  · rw [decide_eq_true hit] at got
    cases got
    rw [← hit, same, beq_self_eq_true]
    exact ⟨s, rfl, type, content⟩
  rw [decide_eq_false hit] at got
  rw [beq_false_of_ne (fun back => hit (same.trans back.symm))]
  exact ih got

theorem Local.Hold.assign (distinct : (vars.map slot).Nodup)
    {name : String} {v : Local} (got : named? vars name = some v) {s : Scalar}
    (type : s.type = v.type) : Hold (m.setSlot v.slot s.cell) vars (.assign name s env) := by
  induction hold with
  | nil => cases got
  | @cons w entry vars env here rest ih =>
  obtain ⟨same, before, content⟩ := here
  obtain ⟨fresh, distinct⟩ := nodup_cons.mp distinct
  rw [named?, find?_cons] at got
  rw [Env.assign]
  by_cases hit : w.name = name
  · rw [decide_eq_true hit] at got
    cases got
    rw [if_pos (same.symm.trans hit)]
    refine .cons ⟨same, type, Ir.Memory.slots_setSlot ..⟩ (Local.Hold.congr rest ?_)
    exact fun u mem => if_neg fun shared => fresh (List.mem_map.mpr ⟨u, mem, shared⟩)
  rw [decide_eq_false hit] at got
  rw [if_neg (fun back => hit (same.trans back))]
  refine .cons ⟨same, before, ?_⟩ (ih distinct got)
  have apart : w.slot ≠ v.slot := fun shared =>
    fresh (List.mem_map.mpr ⟨v, mem_of_find?_eq_some got, shared.symm⟩)
  exact (if_neg apart).trans content

end Stencil
