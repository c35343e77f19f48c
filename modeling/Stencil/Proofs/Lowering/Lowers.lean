import Stencil.Proofs.Analysis.Instance
import Stencil.Proofs.Ir.Linked

namespace Stencil.Session

open List Ir.Builder

structure Lowers (s s' : Session) : Prop extends s.Extends [] s' where
  function : s'.builder.function = s.builder.function
  others : ∀ i f, s.builder.function ≠ some i →
    s.builder.functions[i]? = some f → s'.builder.functions[i]? = some f
  fresh : ∀ i f, s.builder.function ≠ some i →
    s.builder.functions.length ≤ i → s'.builder.functions[i]? = some f → f.blocks = []
  temps : s.builder.nextTemp ≤ s'.builder.nextTemp
  bodies : ∃ new, s'.bodies = s.bodies ++ new ∧ ∀ id ∈ new, s.tree.size ≤ id
  lowered : ∀ id e, s.tree.size ≤ id → s'.tree.kind id = .function e →
    e.code.isSome → e.decl.body.isSome → id ∈ s'.bodies

section

variable {s s' s'' : Session}

theorem Grows.lowers (grows : s.Grows [] s') : s.Lowers s' where
  toExtends := grows.toExtends
  function := grows.frame.1
  others i f _ got := by
    obtain ⟨_, same, -⟩ := grows.functions
    rw [same, getElem?_append_left (List.getElem?_eq_some_iff.mp got).1, got]
  fresh i f _ young got := by
    obtain ⟨_, same, bare⟩ := grows.functions
    rw [same, getElem?_append_right young] at got
    exact bare f (mem_of_getElem? got)
  temps := Nat.le_of_eq grows.frame.2.2.symm
  bodies := grows.bodies
  lowered := grows.lowered

theorem Lowers.refl (s : Session) : s.Lowers s :=
  (Grows.refl [] s).lowers

theorem Lowers.trans (fst : s.Lowers s') (snd : s'.Lowers s'') : s.Lowers s'' where
  toExtends := fst.toExtends.trans snd.toExtends
  function := snd.function.trans fst.function
  others i f other got :=
    snd.others i f (fun h => other (fst.function.symm.trans h)) (fst.others i f other got)
  fresh i f other young got := by
    have other' : s'.builder.function ≠ some i := fun h => other (fst.function.symm.trans h)
    rcases Nat.lt_or_ge i s'.builder.functions.length with old | new
    · have before := getElem?_eq_getElem old
      cases (snd.others i _ other' before).symm.trans got
      exact fst.fresh i _ other young before
    · exact snd.fresh i f other' new got
  temps := Nat.le_trans fst.temps snd.temps
  bodies := appended_trans fst.bodies snd.bodies fun _ => Nat.le_trans fst.tree.length
  lowered id e young kind code body := by
    rcases Nat.lt_or_ge id s'.tree.size with old | new
    · have before := function_of_refined (snd.tree.kind id old) kind
      obtain ⟨_, same, -⟩ := snd.bodies
      rw [same]
      exact mem_append_left _ (fst.lowered id e young before code body)
    · exact snd.lowered id e new kind code body

end

variable {s : Session} {f f' : Ir.Function} {c : Nat} {b : Ir.Builder}

/-- Of the code only the function under construction changes. -/
theorem Valid.rebuilt (valid : s.Valid) (linked : s.builder.Linked f c)
    (same : f'.name = f.name ∧ f'.params = f.params ∧ f'.result = f.result)
    (functions : b.functions = (s.builder.withCurrent f').functions)
    (globals : b.module.globals = s.builder.module.globals)
    (structs : b.module.structs = s.builder.module.structs)
    (strings : b.nextString = s.builder.nextString)
    (function : b.function = s.builder.function) (late : b.late = s.builder.late)
    (temps : s.builder.nextTemp ≤ b.nextTemp) :
    (s.withBuilder b).Valid ∧ s.Lowers (s.withBuilder b) := by
  have extended : s.Extends [] (s.withBuilder b) := by
    refine .recoded ?_ (globals ▸ prefix_rfl) (fun orderly =>
      orderly.congr structs globals strings) structs
    intro i g got
    rw [functions]
    exact linked.heads same got
  constructor
  · refine valid.withBuilder extended ?_ (late.trans valid.late)
    intro i g got other
    rw [function] at other
    rw [functions, withCurrent_other other] at got
    exact (valid.finished i g got other).imp_right fun h => h.mono extended.context
  refine { extended with
    function := function, others := ?_, fresh := ?_, temps := temps
    bodies := (Lowers.refl s).bodies, lowered := (Lowers.refl s).lowered }
  · intro i g other got
    exact (congrArg (·[i]?) functions).trans ((withCurrent_other other).trans got)
  intro i g other young got
  refine (Lowers.refl s).fresh i g other young ?_
  exact (withCurrent_other other).symm.trans ((congrArg (·[i]?) functions).symm.trans got)

theorem Valid.relocated (valid : s.Valid) {t : ScopeTree} (nodes : t.nodes = s.tree.nodes)
    (current : s.tree.isAlive t.current) :
    (s.withTree t).Valid ∧ s.Lowers (s.withTree t) := by
  obtain ⟨moved, extended⟩ : _ ∧ s.Extends [] (s.withTree t) := valid.moved nodes current
  refine ⟨moved, { extended with
    function := rfl, others := fun _ _ _ got => got, fresh := (Lowers.refl s).fresh
    temps := .refl
    bodies := (Lowers.refl s).bodies, lowered := ?_ }⟩
  intro id e young kind
  refine (Lowers.refl s).lowered id e young ?_
  rw [← kind, Session.withTree, ScopeTree.kind, ScopeTree.kind, ScopeTree.node, ScopeTree.node,
    nodes]

theorem Lowers.grown {parent : ScopeId} {name : String} {kind : ScopeKind} {span : Span}
    (lies : parent < s.tree.size)
    (extended : s.Extends [] (s.grown parent name kind span)) (plain : ∀ e, kind ≠ .function e) :
    s.Lowers (s.grown parent name kind span) where
  toExtends := extended
  function := rfl
  others _ _ _ got := got
  fresh := (Lowers.refl s).fresh
  temps := .refl
  bodies := (Lowers.refl s).bodies
  lowered _ e young has :=
    absurd (kind_grown_young (k := .function e) lies young nofun has).2 (plain e)

end Stencil.Session
