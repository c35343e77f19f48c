import Stencil.Proofs.Scope.Shape

namespace Stencil

open List String

def PlainName (name : String) : Prop :=
  ∀ c ∈ name.toList, c ≠ '.' ∧ c ≠ '<'

instance : DecidablePred PlainName := fun name =>
  List.decidableBAll (fun c => c ≠ '.' ∧ c ≠ '<') name.toList

def Titled (base name : String) : Prop :=
  name = base ∨ ∃ rest, name = base ++ "<" ++ rest

theorem plain_split {a a' r r' : List Char} {c c' : Char}
    (plain : ∀ x ∈ a, x ≠ '.' ∧ x ≠ '<') (plain' : ∀ x ∈ a', x ≠ '.' ∧ x ≠ '<')
    (mark : c = '.' ∨ c = '<') (mark' : c' = '.' ∨ c' = '<') (same : a ++ c :: r = a' ++ c' :: r') :
    a = a' ∧ c = c' ∧ r = r' := by
  induction a generalizing a' with
  | nil =>
    cases a' with
    | nil =>
      obtain ⟨fst, rest⟩ := List.cons.inj same
      exact ⟨rfl, fst, rest⟩
    | cons =>
    obtain ⟨rfl, -⟩ := List.cons.inj same
    have other := plain' c (.head _)
    rcases mark with rfl | rfl
    · exact absurd rfl other.1
    · exact absurd rfl other.2
  | cons x a ih =>
  cases a' with
  | nil =>
    obtain ⟨rfl, -⟩ := List.cons.inj same
    have other := plain x (.head _)
    rcases mark' with rfl | rfl
    · exact absurd rfl other.1
    · exact absurd rfl other.2
  | cons =>
  obtain ⟨rfl, tail⟩ := List.cons.inj same
  obtain ⟨rfl, marks⟩ := ih (fun y mem => plain y (.tail _ mem))
    (fun y mem => plain' y (.tail _ mem)) tail
  exact ⟨rfl, marks⟩

theorem dotted_cons (name : String) (names : List String) (last : String) :
    ".".intercalate (name :: (names ++ [last])) =
      name ++ "." ++ ".".intercalate (names ++ [last]) := by
  cases names with
  | nil => rw [nil_append, String.intercalate_cons_cons]
  | cons => rw [cons_append, String.intercalate_cons_cons]

theorem dotted_concat (names : List String) (last : String) (some : names ≠ []) :
    ".".intercalate (names ++ [last]) = ".".intercalate names ++ "." ++ last := by
  induction names with
  | nil => exact absurd rfl some
  | cons fst rest ih =>
  rw [cons_append, dotted_cons]
  cases rest with
  | nil => simp
  | cons =>
    rw [ih (cons_ne_nil _ _), String.intercalate_cons_cons]
    simp only [String.append_assoc]

theorem titled_ne_dotted {base name other text : String} (plain : PlainName base)
    (titled : Titled base name) (plain' : PlainName other) : name ≠ other ++ "." ++ text := by
  intro same
  have chars : name.toList = other.toList ++ '.' :: text.toList := by
    rw [same]
    simp [toList_append]
  rcases titled with rfl | ⟨rest, rfl⟩
  · have dot := plain '.' (chars ▸ mem_append_right _ (.head _))
    exact dot.1 rfl
  have split : base.toList ++ '<' :: rest.toList = other.toList ++ '.' :: text.toList := by
    rw [← chars]
    simp [toList_append]
  obtain ⟨-, clash, -⟩ := plain_split plain plain' (.inr rfl) (.inl rfl) split
  exact absurd clash (by decide)

/-- Dotted names with plain parts in front and a title at the end can be taken apart. -/
theorem dotted_injective {base base' last last' : String} (plain : PlainName base)
    (plain' : PlainName base') (titled : Titled base last) (titled' : Titled base' last') :
    ∀ names names', (∀ n ∈ names, PlainName n) → (∀ n ∈ names', PlainName n) →
      ".".intercalate (names ++ [last]) = ".".intercalate (names' ++ [last']) →
      names = names' ∧ last = last' := by
  intro names
  induction names with
  | nil =>
    intro names' _ plains' same
    cases names' with
    | nil => exact ⟨rfl, by simpa using same⟩
    | cons fst =>
      rw [cons_append, dotted_cons, nil_append, String.intercalate_singleton] at same
      exact absurd same (titled_ne_dotted plain titled (plains' fst (.head _)))
  | cons fst rest ih =>
  intro names' plains plains' same
  cases names' with
  | nil =>
    rw [cons_append, dotted_cons, nil_append, String.intercalate_singleton] at same
    exact absurd same.symm (titled_ne_dotted plain' titled' (plains fst (.head _)))
  | cons fst' rest' =>
  rw [cons_append, cons_append, dotted_cons, dotted_cons] at same
  have chars := congrArg String.toList same
  simp only [toList_append, List.append_assoc] at chars
  obtain ⟨front, -, back⟩ := plain_split (plains fst (.head _))
    (plains' fst' (.head _)) (.inl rfl) (.inl rfl) chars
  obtain rfl := toList_inj.mp front
  obtain ⟨rfl, last_eq⟩ := ih rest' (fun n mem => plains n (.tail _ mem))
    (fun n mem => plains' n (.tail _ mem)) (toList_inj.mp back)
  exact ⟨rfl, last_eq⟩

theorem dotted_split {front front' last last' : String} (plain : PlainName last)
    (plain' : PlainName last') (same : front ++ "." ++ last = front' ++ "." ++ last') :
    front = front' ∧ last = last' := by
  have chars := congrArg (fun text => text.toList.reverse) same
  simp only [toList_append, reverse_append] at chars
  have reversed : ∀ {name : String}, PlainName name →
      ∀ c ∈ name.toList.reverse, c ≠ '.' ∧ c ≠ '<' := fun plain c mem =>
    plain c (mem_reverse.mp mem)
  obtain ⟨lasts, -, fronts⟩ := plain_split (reversed plain) (reversed plain') (.inl rfl)
    (.inl rfl) chars
  exact ⟨toList_inj.mp (reverse_injective fronts), toList_inj.mp (reverse_injective lasts)⟩

theorem plain_ne_dotted {name front last : String} (plain : PlainName name) :
    name ≠ front ++ "." ++ last := by
  rintro rfl
  refine (plain '.' ?_).1 rfl
  simp [toList_append]

namespace ScopeTree

variable {t : ScopeTree} {p p' q : ScopeId}

theorem path_root (t : ScopeTree) : t.path root = [] := by
  rw [path, ancestors]
  simp

theorem Shaped.path_child (shaped : t.Shaped) (up : t.parent? p = some q) :
    t.path p = t.path q ++ [t.name p] := by
  have inner : p ≠ ScopeTree.root := by
    rintro rfl
    exact Nat.not_lt_zero _ (shaped.parents _ _ up)
  rw [path, path, shaped.ancestors_eq, up]
  simp [inner]

theorem Shaped.parent_of_ne_root (shaped : t.Shaped) (lies : p < t.size)
    (inner : p ≠ ScopeTree.root) : ∃ q, t.parent? p = some q := by
  cases up : t.parent? p with
  | none => exact absurd (shaped.rooted p lies up) inner
  | some q => exact ⟨q, rfl⟩

theorem qualify_eq (t : ScopeTree) (p : ScopeId) (name : String) :
    t.qualify p name = ".".intercalate (t.path p ++ [name]) := by
  rw [qualify]
  split
  · rename_i same
    rw [same, path_root, nil_append, String.intercalate_singleton]
  rename_i inner
  have some : t.path p ≠ [] := by
    rw [path, ancestors]
    simp [inner]
  exact (dotted_concat (t.path p) name some).symm

theorem Shaped.namespace_cases (shaped : t.Shaped) (isNamespace : (t.kind p).isNamespace) :
    p = ScopeTree.root ∨ (t.kind p = .package ∧ ∃ q, t.parent? p = some q ∧
      (t.kind q).isNamespace) := by
  have lies : p < t.size := lt_of_kind_ne_block (by
    intro block
    rw [block] at isNamespace
    cases isNamespace)
  by_cases inner : p = ScopeTree.root
  · exact .inl inner
  obtain ⟨q, up⟩ := shaped.parent_of_ne_root lies inner
  have admits := shaped.admitted p q up
  cases kind : t.kind p <;> rw [kind] at isNamespace admits <;>
    simp only [ScopeKind.isNamespace, Bool.false_eq_true] at isNamespace
  · cases admits
  · exact .inr ⟨rfl, q, up, admits⟩

theorem Shaped.path_plain (shaped : t.Shaped)
    (plain : ∀ id, t.kind id = .package → PlainName (t.name id)) (p : ScopeId)
    (isNamespace : (t.kind p).isNamespace) : ∀ name ∈ t.path p, PlainName name := by
  induction p using Nat.strongRecOn with
  | ind p ih =>
  rcases shaped.namespace_cases isNamespace with rfl | ⟨package, q, up, outer⟩
  · rw [path_root]
    exact nofun
  intro name mem
  rw [shaped.path_child up] at mem
  rcases mem_append.mp mem with front | last
  · exact ih q (shaped.parents p q up) outer name front
  rw [mem_singleton.mp last]
  exact plain p package

theorem Shaped.path_injective (shaped : t.Shaped) (p p' : ScopeId)
    (isNamespace : (t.kind p).isNamespace) (isNamespace' : (t.kind p').isNamespace)
    (same : t.path p = t.path p') : p = p' := by
  induction p using Nat.strongRecOn generalizing p' with
  | ind p ih =>
  rcases shaped.namespace_cases isNamespace with rfl | ⟨-, q, up, outer⟩ <;>
    rcases shaped.namespace_cases isNamespace' with rfl | ⟨-, q', around', outer'⟩
  · rfl
  · rw [path_root, shaped.path_child around'] at same
    exact absurd same.symm (concat_ne_nil _ _)
  · rw [path_root, shaped.path_child up] at same
    exact absurd same (concat_ne_nil _ _)
  rw [shaped.path_child up, shaped.path_child around'] at same
  obtain ⟨front, last⟩ := append_inj' same rfl
  obtain rfl := ih q (shaped.parents p q up) q' outer outer' front
  have got := shaped.registered p q (shaped.namespaces p isNamespace) up
  have found' := shaped.registered p' q (shaped.namespaces p' isNamespace') around'
  rw [(List.cons.inj last).1, found'] at got
  exact (Option.some.inj got).symm

theorem Shaped.qualify_injective (shaped : t.Shaped)
    (plain : ∀ id, t.kind id = .package → PlainName (t.name id)) {id id' : ScopeId}
    {base base' : String} (up : t.parent? id = some p) (around' : t.parent? id' = some p')
    (alive : t.isAlive id) (alive' : t.isAlive id')
    (outer : (t.kind p).isNamespace) (outer' : (t.kind p').isNamespace)
    (base_plain : PlainName base) (base_plain' : PlainName base')
    (titled : Titled base (t.name id)) (titled' : Titled base' (t.name id'))
    (same : t.qualify p (t.name id) = t.qualify p' (t.name id')) : id = id' := by
  rw [qualify_eq, qualify_eq] at same
  obtain ⟨paths, names⟩ := dotted_injective base_plain base_plain' titled titled' _ _
    (shaped.path_plain plain p outer) (shaped.path_plain plain p' outer') same
  obtain rfl := shaped.path_injective p p' outer outer' paths
  have got := shaped.registered id p alive up
  have found' := shaped.registered id' p alive' around'
  rw [names, found'] at got
  exact (Option.some.inj got).symm

end ScopeTree

end Stencil
