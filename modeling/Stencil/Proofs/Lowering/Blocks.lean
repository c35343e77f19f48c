import Stencil.Lowering.Stmt
import Stencil.Proofs.Lowering.Emit

namespace Stencil

open Analysis Tracked Ir.Function Ir.Builder

def Site.Attached (x : Site) : Prop := ∃ code, x.session.builder.function = some code

theorem Site.Follows.attached {x y : Site} (way : x.Follows y) (attached : x.Attached) :
    y.Attached := by
  obtain ⟨code, function⟩ := attached
  exact ⟨code, way.lowers.function.trans function⟩

section

variable {α : Type} {step : Analysis α} {x : Spot}

theorem Analysis.Keeps.site {post : α → Spot → Prop} (inner : Keeps step x post) :
    Keeps step x.toSite fun a y => ∃ z : Spot, z.toSite = y ∧ x.Flows z ∧ post a z := by
  refine Leads.mono inner ?_ fun _ _ h => h
  rintro a s ⟨y, same, way, holds⟩
  exact ⟨y.toSite, same, way.toFollows, y, rfl, way, holds⟩

theorem Analysis.Keeps.spot {post : α → Spot → Prop}
    (outer : Keeps step x.toSite fun a y => ∃ z : Spot, z.toSite = y ∧ x.Flows z ∧ post a z) :
    Keeps step x post := by
  refine Leads.mono outer ?_ fun _ _ h => h
  rintro a s ⟨_, same, -, y, rfl, way, holds⟩
  exact ⟨y, same, way, holds⟩

end

theorem Site.mem_defined (x : Site) {k : Nat} (defined : x.Defined k) : k ∈ x.draft.defined := by
  obtain ⟨b, here⟩ := x.pending.here
  rw [Site.Defined, x.code_eq here] at defined
  exact x.built.mem_defined here (List.filter_subset_self _) (.inr defined)

variable {y : Site}

section

variable (x : Site)

structure Site.Opens (x y : Site) (stem : String) (set : Nat → Prop) (id : Nat) : Prop where
  number : id = x.draft.size
  attached : y.Attached
  draft : y.draft = x.draft.extend (stem ++ toString id)
  block : y.block = x.block
  waiting : y.waiting = id :: x.waiting
  supply : ∀ k, y.supply id k ↔ set k
  tree : y.tree = x.tree

theorem Site.inhabited : 0 < x.draft.size :=
  Nat.lt_of_le_of_lt (Nat.zero_le _) x.pending.inside

def Site.extend {name : String} {set : Nat → Prop}
    (named : Ir.NameOf x.draft.size name) (known : ∀ k, set k → k ∈ x.draft.defined) :
    Site :=
  x.recode (continues_extend x.draft x.supply name set) (Nat.le_refl _)
    (x.built.extend x.inhabited named known) (x.pending.extend name)

variable {x} {stem : String}

theorem newBlock_keeps (letters : ∀ c ∈ stem.toList, c.isDigit = false)
    (set : Nat → Prop) (known : ∀ k, set k → k ∈ x.draft.defined) :
    Keeps (newBlock stem) x fun id y => x.Opens y stem set id := by
  have later := Nat.ne_of_gt x.inhabited
  have named : Ir.NameOf x.draft.size (stem ++ toString x.draft.size) :=
    ⟨stem, letters, by rw [if_neg later]⟩
  cases function : x.session.builder.function with
  | none =>
    refine .bind (m := fun id _ => id = none) ?_ ?_
    · have missing : x.session.builder.currentFunction? = none := by
        rw [currentFunction?, function]; rfl
      exact .step (y := x) (Spot.build_run (appendBlock_missing missing stem)) (.refl x) rfl
    rintro _ y _ rfl
    exact .fail rfl
  | some code =>
  refine .bind (m := fun id y => id = some x.draft.size ∧ x.Opens y stem set x.draft.size) ?_ ?_
  · have run := x.linked.appendBlock_eq function stem
    rw [if_neg later] at run
    refine .step (y := x.extend named known) (Spot.build_run run)
      (Site.follows_recoded (continues_extend ..) .refl rfl (fun _ _ h => h) rfl rfl rfl) ⟨rfl, ?_⟩
    exact ⟨rfl, ⟨code, function⟩, rfl, rfl, rfl, fun k => x.supply.stock_here _ set k, rfl⟩
  rintro _ y _ ⟨rfl, opens⟩
  exact .pure opens

variable {set : Nat → Prop} {id : Nat}

variable (opens : x.Opens y stem set id)
include opens

theorem Site.Opens.links {goal : Nat → Prop} : x.draft.Links y.draft goal := by
  rw [opens.draft]
  exact links_extend _ _

theorem Site.Opens.isOpen (isOpen : x.IsOpen) : y.IsOpen := by
  obtain ⟨b, here, running⟩ := isOpen
  refine ⟨b, ?_, running⟩
  rw [opens.draft, opens.block]
  exact extend_old here

theorem Site.Opens.length : y.draft.size = x.draft.size + 1 := by
  rw [opens.draft, extend_length]

theorem Site.Opens.code : y.code = x.code := by
  obtain ⟨b, here⟩ := x.pending.here
  have there : y.draft.blocks[y.block]? = some b := by
    rw [opens.draft, opens.block]
    exact extend_old here
  rw [y.code_eq there, x.code_eq here]

end

section

variable {x : Spot} {t : Ir.Terminator}

structure Spot.Ends (x : Spot) (y : Site) (t : Ir.Terminator) : Prop where
  attached : y.Attached
  draft : y.draft = x.draft.change x.block (·.finish t)
  block : y.block = x.block
  waiting : y.waiting = x.waiting
  supply : y.supply = x.supply
  tree : y.tree = x.tree
  temps : y.nextTemp = x.nextTemp

section

variable (ends : x.Ends y t)
include ends

theorem Spot.Ends.terminated : ∀ b, y.draft.blocks[y.block]? = some b → b.isTerminated := by
  intro b here
  obtain ⟨_, before, -⟩ := x.isOpen
  rw [ends.draft, ends.block, change_here before] at here
  cases here
  rfl

theorem Spot.Ends.ended : y.draft.Ended x.block x.code t := by
  obtain ⟨b, here, -⟩ := x.isOpen
  refine ⟨b.finish t, ?_, (x.code_eq here).symm, rfl⟩
  rw [ends.draft]
  exact change_here here

theorem Spot.Ends.links {goal : Nat → Prop} (some : t.successors ≠ [])
    (goes : ∀ next ∈ t.successors, goal next) : x.draft.Links y.draft goal := by
  obtain ⟨b, here, isOpen⟩ := x.isOpen
  rw [ends.draft]
  exact links_finish here isOpen some goes

theorem Spot.Ends.code : y.code = x.code := by
  obtain ⟨b, here, same, -⟩ := ends.ended
  rw [y.code_eq (ends.block.symm ▸ here), same]

theorem Spot.Ends.length : y.draft.size = x.draft.size := by
  rw [ends.draft]
  exact change_length

end

theorem terminate_run {code : Nat} (function : x.session.builder.function = some code) :
    terminate t x.session = .ok () (x.session.withBuilder
      (x.session.builder.withCurrent (x.draft.change x.block (·.finish t)))) := by
  obtain ⟨b, here, isOpen⟩ := x.isOpen
  simp only [Analysis.terminate, get_bind, x.linked.terminate_eq function here isOpen]
  rfl

/-- The end of a block needs what it uses, and supplies what the blocks that it goes to count on. -/
theorem terminate_keeps (targets : ∀ target ∈ t.successors, 0 < target ∧ target < x.draft.size)
    (ready : ∀ v ∈ t.operands, x.Ready v)
    (supplied : ∀ target ∈ t.successors, ∀ k, x.supply target k → x.Defined k)
    (typed : t.Typed x.session.context x.draft.params x.types x.draft.result) :
    Keeps (terminate t) x.toSite fun _ y => x.Ends y t := by
  obtain ⟨b, here, isOpen⟩ := x.isOpen
  simp only [Site.Ready, Site.Defined, x.code_eq here] at ready supplied
  cases function : x.session.builder.function with
  | none =>
    have run : ∀ p, Ir.Builder.terminate t x.session.builder = .error p →
        terminate t x.session = .error (p.at {}) x.session := by
      intro p fails
      simp only [Analysis.terminate, get_bind, fails]
      rfl
    unfold Keeps Analysis.Leads
    rw [show session x.toSite = x.session from rfl]
    rcases terminate_detached function t with fails | fails <;>
      · rw [run _ fails]
        exact stopped x.toSite _ rfl
  | some code =>
  have continues : x.draft.Continues x.supply (x.draft.change x.block (·.finish t)) x.supply :=
    continues_finish here isOpen
  refine .step (y := x.recode continues .refl
    (x.built.finish here targets ready supplied typed) (x.pending.change _)) (terminate_run function)
    (Site.follows_recoded continues .refl rfl (fun _ _ h => h) rfl rfl rfl) ?_
  exact ⟨⟨code, function⟩, rfl, rfl, rfl, rfl, rfl, rfl⟩

end

variable {x : Site} {next : Nat}

structure Site.Moves (x : Site) (y : Spot) (next : Nat) : Prop where
  draft : y.draft = x.draft
  block : y.block = next
  code : y.code = []
  supply : y.supply = x.supply
  tree : y.tree = x.tree
  temps : y.nextTemp = x.nextTemp

theorem position_keeps (front back : List Nat) (attached : x.Attached)
    (waiting : x.waiting = front ++ next :: back)
    (done : ∀ b, x.draft.blocks[x.block]? = some b → b.isTerminated) :
    Keeps (build (position next)) x fun _ y =>
      ∃ z : Spot, z.toSite = y ∧ x.Moves z next ∧ z.waiting = front ++ back := by
  obtain ⟨_, function⟩ := attached
  have same := x.linked.withCurrent_self
  obtain ⟨valid, lowers⟩ := x.valid.rebuilt
    (b := { x.session.builder with block := some next }) x.linked ⟨rfl, rfl, rfl⟩
    (by rw [same]) rfl rfl rfl rfl rfl .refl
  have pending := x.pending
  rw [waiting] at pending
  obtain ⟨-, b, here, isOpen, bare⟩ := pending.waits next (by simp)
  let z : Spot := { x with
    session := x.session.withBuilder { x.session.builder with block := some next }
    block := next
    waiting := front ++ back
    valid := valid
    linked := x.linked.position function next
    built := x.built.mono lowers.context
    pending := pending.position done
    visible := x.visible.rebuilt _ fun _ _ h => h
    isOpen := ⟨b, here, isOpen⟩ }
  refine .step (y := z.toSite) rfl
    ⟨lowers, .refl _ _, fun _ _ h => h, rfl, rfl, rfl, rfl⟩ ⟨z, rfl, ?_, rfl⟩
  exact ⟨rfl, rfl, (z.code_eq here).trans bare, rfl, rfl, rfl⟩

section

variable {x y : Spot} {set : Nat → Prop} {new : List Nat} {stem : String}

structure Spot.Prepares (x y : Spot) (set : Nat → Prop) (new : List Nat) : Prop where
  reached : x.Follows y.toSite
  block : y.block = x.block
  code : y.code = x.code
  tree : y.tree = x.tree
  waiting : y.waiting = new ++ x.waiting
  inside : ∀ id ∈ new, 0 < id ∧ id < y.draft.size
  supply : ∀ id ∈ new, ∀ k, y.supply id k ↔ set k
  owned : ∀ id ∈ new, x.Owns id
  links : x.draft.Links y.draft fun _ => False

theorem Spot.Prepares.refl (x : Spot) (set : Nat → Prop) : x.Prepares x set [] :=
  ⟨.refl x.toSite, rfl, rfl, rfl, rfl, nofun, nofun, nofun, .refl _ _⟩

theorem prepare_keeps (before : x.Prepares y set new)
    (letters : ∀ c ∈ stem.toList, c.isDigit = false) (known : ∀ k, set k → x.Defined k) :
    Keeps (newBlock stem) y.toSite fun id z => ∃ u : Spot, u.toSite = z ∧
      x.Prepares u set (id :: new) := by
  refine (newBlock_keeps letters set fun k given =>
    y.mem_defined (before.reached.defined before.block (known k given))).mono ?_
  intro _ z way opens
  refine ⟨⟨z, opens.isOpen y.isOpen⟩, rfl, before.reached.trans way,
    opens.block.trans before.block, opens.code.trans before.code, opens.tree.trans before.tree,
    ?_, ?_, ?_, ?_, before.links.trans opens.links⟩
  · rw [opens.waiting, before.waiting]
    rfl
  · refine List.forall_mem_cons.mpr ⟨?_, fun id old => ?_⟩
    · rw [opens.length, opens.number]
      exact ⟨y.inhabited, Nat.lt_succ_self _⟩
    · exact (before.inside id old).imp_right fun low => Nat.lt_of_lt_of_le low way.draft.length
  · refine List.forall_mem_cons.mpr ⟨opens.supply, fun id old k => ?_⟩
    exact (way.draft.supplies id k (before.inside id old).2).trans (before.supply id old k)
  exact List.forall_mem_cons.mpr ⟨.inr (opens.number ▸ before.reached.draft.length), before.owned⟩

end

end Stencil
