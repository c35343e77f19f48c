import Stencil.Proofs.Lowering.Visible

/-!
States in the middle of a body. A site knows the function under construction and what is true of
its blocks; a spot is a site whose insertion block is open.
-/

namespace Stencil

open Ir

/-- A session while the body of a function is built. The supply and the types of temporaries are
not part of the session; they are what the code is known to obey. -/
structure Site where
  session : Session
  draft : Function
  block : Nat
  supply : Supply
  types : Types
  waiting : List Nat
  owner : ScopeId
  start : Nat
  assigns : Bool
  valid : session.Valid
  linked : session.builder.Linked draft block
  built : draft.Draft session.context supply types session.builder.nextTemp
  pending : draft.Pending block waiting
  visible : session.Visible draft owner start

variable {x y : Site} {v : Value}

namespace Site

abbrev tree (x : Site) : ScopeTree := x.session.tree

abbrev nextTemp (x : Site) : Nat := x.session.builder.nextTemp

def code (x : Site) : List Inst := (x.draft.blocks[x.block]?.map Ir.Block.code).getD []

def Defined (x : Site) (k : Nat) : Prop := x.supply x.block k ∨ Defines x.code k

def Ready (x : Site) (v : Value) : Prop := x.draft.Ready x.supply x.block x.code v

def Has (x : Site) (v : Value) (type : Ir.Ty) : Prop :=
  v.Has x.session.context x.draft.params x.types type

def Usable (x : Site) (v : Value) (type : Ir.Ty) : Prop := x.Ready v ∧ x.Has v type

def IsOpen (x : Site) : Prop := ∃ b, x.draft.blocks[x.block]? = some b ∧ b.terminator = none

def Excuses (x : Site) (d : Diagnostic) : Prop := d.Regular ∧ (x.assigns = false → d.Ordinary)

theorem excuses (x : Site) {d : Diagnostic} (ordinary : d.Ordinary) : x.Excuses d :=
  ⟨ordinary.regular, fun _ => ordinary⟩

theorem code_eq (x : Site) {b : Ir.Block} (here : x.draft.blocks[x.block]? = some b) :
    x.code = b.code := by
  rw [code, here]
  rfl

/-- A later site of the same body. -/
structure Follows (x y : Site) : Prop where
  lowers : x.session.Lowers y.session
  draft : x.draft.Continues x.supply y.draft y.supply
  types : x.types.Within y.types
  current : y.tree.current = x.tree.current
  owner : y.owner = x.owner
  start : y.start = x.start
  assigns : y.assigns = x.assigns

theorem Follows.refl (x : Site) : x.Follows x :=
  ⟨.refl x.session, .refl x.draft x.supply, fun _ _ h => h, rfl, rfl, rfl, rfl⟩

theorem Follows.trans {x y z : Site} (fst : x.Follows y) (snd : y.Follows z) : x.Follows z where
  lowers := fst.lowers.trans snd.lowers
  draft := fst.draft.trans snd.draft
  types k type known := snd.types k type (fst.types k type known)
  current := snd.current.trans fst.current
  owner := snd.owner.trans fst.owner
  start := snd.start.trans fst.start
  assigns := snd.assigns.trans fst.assigns

theorem Follows.excuses {x y : Site} (way : x.Follows y) {d : Diagnostic} (excused : y.Excuses d) :
    x.Excuses d :=
  ⟨excused.1, fun off => excused.2 (way.assigns.trans off)⟩

instance : Analysis.Tracked Site where
  session := session
  later := Follows
  failed x d s := x.Excuses d ∧ s.Valid ∧ x.session.Lowers s
  refl := Follows.refl
  trans := Follows.trans
  carried := by
    rintro x y d s way ⟨excused, valid, more⟩
    exact ⟨way.excuses excused, valid, way.lowers.trans more⟩
  stopped x _ ordinary := ⟨x.excuses ordinary, x.valid, .refl x.session⟩

variable (way : x.Follows y)
include way

theorem Follows.has {type : Ir.Ty} (has : x.Has v type) : y.Has v type := by
  rw [Has, way.draft.params]
  exact .mono has way.lowers.context way.types

theorem Follows.code (same : y.block = x.block) : x.code <+: y.code := by
  obtain ⟨b, here⟩ := x.pending.here
  obtain ⟨_, there, continued⟩ := way.draft.blocks x.block b here
  rw [x.code_eq here, y.code_eq (same ▸ there)]
  exact continued.code

theorem Follows.defined (same : y.block = x.block) {k : Nat}
    (defined : x.Defined k) : y.Defined k := by
  rcases defined with supplied | defines
  · refine .inl ?_
    rw [same]
    exact (way.draft.supplies x.block k x.pending.inside).mpr supplied
  · exact .inr (defines.of_prefix (way.code same))

/-- A value stays ready if the temporaries that were defined still are. -/
theorem Follows.ready (defined : ∀ k, x.Defined k → y.Defined k) (ready : x.Ready v) : y.Ready v :=
  Ir.Function.Ready.mono ready way.draft.params way.draft.slots
    (fun k supplied => defined k (.inl supplied)) (fun k defines => defined k (.inr defines))

end Site

namespace Site

def Owns (x : Site) (id : Nat) : Prop := id = x.block ∨ x.draft.size ≤ id

/-- What is done up to a later site goes on in blocks of its own. -/
structure Inside (x y : Site) : Prop where
  links : x.draft.Links y.draft x.Owns
  block : x.Owns y.block

theorem Inside.refl (x : Site) : x.Inside x := ⟨.refl _ _, .inl rfl⟩

theorem owns_trans (x : Site) {y : Site} (longer : x.draft.size ≤ y.draft.size)
    (block : x.Owns y.block) {id : Nat} (owns : y.Owns id) : x.Owns id := by
  rcases owns with rfl | new
  · exact block
  · exact .inr (Nat.le_trans longer new)

theorem Inside.owns (lies : x.Inside y)
    (longer : x.draft.size ≤ y.draft.size) {id : Nat} (owns : y.Owns id) :
    x.Owns id :=
  x.owns_trans longer lies.block owns

theorem Inside.trans {x y z : Site} (fst : x.Inside y)
    (longer : x.draft.size ≤ y.draft.size) (snd : y.Inside z) : x.Inside z where
  links := fst.links.trans (snd.links.mono fun _ => fst.owns longer)
  block := fst.owns longer snd.block

end Site

/-- A site whose insertion block is open. -/
structure Spot extends Site where
  isOpen : toSite.IsOpen

namespace Spot

/-- A later spot in the same expression. -/
structure Flows (x y : Spot) : Prop extends x.toSite.Follows y.toSite where
  waiting : y.waiting = x.waiting
  defined : ∀ k, x.Defined k → y.Defined k
  moved : y.block = x.block ∨ y.code ≠ []
  inside : x.Inside y.toSite

theorem Flows.refl (x : Spot) : x.Flows x :=
  ⟨.refl x.toSite, rfl, fun _ h => h, .inl rfl, .refl x.toSite⟩

theorem Flows.trans {x y z : Spot} (fst : x.Flows y) (snd : y.Flows z) : x.Flows z where
  toFollows := fst.toFollows.trans snd.toFollows
  waiting := snd.waiting.trans fst.waiting
  defined k h := snd.defined k (fst.defined k h)
  moved := by
    rcases snd.moved with same | filled
    · rcases fst.moved with still | before
      · exact .inl (same.trans still)
      refine .inr fun empty => before ?_
      have code := snd.toFollows.code same
      rw [empty] at code
      exact List.prefix_nil.mp code
    · exact .inr filled
  inside := fst.inside.trans fst.draft.length snd.inside

instance : Analysis.Tracked Spot where
  session x := x.session
  later := Flows
  failed x d s := x.Excuses d ∧ s.Valid ∧ x.session.Lowers s
  refl := Flows.refl
  trans := Flows.trans
  carried := by
    rintro x y d s way ⟨excused, valid, more⟩
    exact ⟨way.excuses excused, valid, way.lowers.trans more⟩
  stopped x _ ordinary := ⟨x.excuses ordinary, x.valid, .refl x.session⟩

theorem Flows.usable {x y : Spot} (way : x.Flows y) {type : Ir.Ty}
    (usable : x.Usable v type) : y.Usable v type :=
  ⟨way.ready way.defined usable.1, way.toFollows.has usable.2⟩

theorem flows_of_follows {x y : Spot} (way : x.toSite.Follows y.toSite)
    (same : y.block = x.block) (waiting : y.waiting = x.waiting)
    (links : x.draft.Links y.draft x.Owns) : x.Flows y :=
  ⟨way, waiting, fun _ h => way.defined same h, .inl same, links, .inl same⟩

end Spot

end Stencil
