import Stencil.Proofs.Token.Reading

/-!
What the small readers read: something between the front of the stream before a rule and the last
token after it.
-/

namespace Stencil

open Input Grammar

variable {α β : Type} {s : Input} {depth : Nat}

class TokenKind.Proper (kind : TokenKind) : Prop where
  ne : kind ≠ .eof

instance {sym : Symbol} : (symbol sym).Proper := ⟨TokenKind.noConfusion⟩

instance {k : Keyword} : (keyword k).Proper := ⟨TokenKind.noConfusion⟩

theorem TokenKind.sameClass_proper {a b : TokenKind} [proper : b.Proper]
    (same : a.sameClass b) : a ≠ .eof := by
  rintro rfl
  cases b <;> first | exact proper.ne rfl | cases same

variable {t : Token}

theorem Input.Takes.within {s' : Input} (takes : s.Takes t s')
    (sound : s'.Sound) : t.span.Within s'.length := by
  have := sound.lastEnd_le
  have := takes.stop
  have := takes.ordered
  unfold Span.Within
  omega

class Lies (α : Type) where
  In : Span → α → Prop
  widens {a b : Span} {x : α} : b.Covers a → In a x → In b x

open Lies

instance [Lies α] : Lies (List α) :=
  ⟨fun outer got => ∀ a ∈ got, In outer a, fun covers all a mem => widens covers (all a mem)⟩

instance [Lies α] : Lies (Option α) :=
  ⟨fun outer got => ∀ a ∈ got, In outer a, fun covers all a mem => widens covers (all a mem)⟩

instance [Lies α] [Lies β] : Lies (α × β) :=
  ⟨fun outer got => In outer got.1 ∧ In outer got.2,
    fun covers => .imp (widens covers) (widens covers)⟩

def Input.upTo (s s' : Input) : Span := ⟨s.front, s'.lastEnd⟩

/-- Some token has been read. -/
def Input.Passes (s s' : Input) : Prop :=
  s.front ≤ s'.lastEnd ∧ s'.size < s.size

/-- A reader gives something that lies in what it reads. -/
structure Finds [Lies α] (depth : Nat) (r : Parser α) : Prop where
  reads : ∀ s : Input, s.Sound →
    Reads depth r s fun a s' => s.Passes s' ∧ In (s.upTo s') a

structure Gathers [Lies α] (depth : Nat) (r : Parser α) : Prop where
  reads : ∀ s : Input, s.Sound → Reads depth r s fun a s' => In (s.upTo s') a

theorem Finds.gathers [Lies α] {r : Parser α} (finds : Finds depth r) : Gathers depth r :=
  ⟨fun s sound => (finds.reads s sound).mono fun _ _ _ got => got.2⟩

structure Midway (least : Nat) (s0 : Input) (start : Nat) (held : Span → Prop)
    (s : Input) : Prop where
  later : s0.Later s
  passed : s.size + least ≤ s0.size
  behind : s0.front ≤ start
  front : start ≤ s.front
  held : ∀ stop, s.lastEnd ≤ stop → held ⟨start, stop⟩

variable {kind : TokenKind}

namespace Reads

variable {post : α → Input → Prop}

theorem exhausted (sound : s.Sound) : Reads (α := α) 0 exhausted s post := by
  refine peek_bind sound ?_
  intro t faces
  exact of_error rfl ⟨faces.holds sound, .inr rfl, fun _ => Nat.zero_le _⟩

theorem unexpected {what : String} (within : t.span.Within s.length) :
    Reads (α := α) depth (unexpected what t) s post :=
  throw within rfl Problem.noConfusion

theorem accept_bind [kind.Proper] {next : Bool → Parser α} (sound : s.Sound)
    (yes : ∀ t s', s.Later s' → s.Takes t s' → Reads (depth - 1) (next true) s' post)
    (no : Reads depth (next false) s post) : Reads depth (accept kind >>= next) s post := by
  rw [accept_eq, bind_assoc]
  refine check_bind sound fun t faces => ?_
  cases same : t.kind.sameClass kind with
  | true =>
    simp only [↓reduceIte, bind_assoc]
    exact take_bind sound faces (TokenKind.sameClass_proper same) (yes t)
  | false => exact no

theorem accept [kind.Proper] (sound : s.Sound) : Reads depth (accept kind) s fun _ _ => True := by
  rw [← bind_pure (Grammar.accept kind)]
  exact accept_bind sound (fun _ _ later _ => pure later.sound trivial) (pure sound trivial)

theorem expect [proper : kind.Proper] (sound : s.Sound) :
    Reads depth (expect kind) s fun t s' => s.Takes t s' := by
  refine next_bind sound ?_ ?_
  · intro t _ later takes _
    split
    · exact pure later.sound takes
    · exact throw (takes.within later.sound) rfl Problem.noConfusion
  intro t _ ended
  have other : t.kind.sameClass kind = false := by
    rw [ended]
    cases kind <;> first | exact absurd rfl proper.ne | rfl
  rw [other]
  exact ⟨_, _, rfl⟩

theorem identifier (sound : s.Sound) :
    Reads depth identifier s fun got s' => ∃ t, t.span = got.2 ∧ s.Takes t s' := by
  refine next_bind sound ?_ ?_
  · intro t _ later takes _
    split
    · exact pure later.sound ⟨t, rfl, takes⟩
    · exact unexpected (takes.within later.sound)
  intro t _ ended
  rw [ended]
  exact ⟨_, _, rfl⟩

theorem spanFrom_bind {start : Nat} {next : Span → Parser α} (read : start ≤ s.lastEnd)
    (after : Reads depth (next ⟨start, s.lastEnd⟩) s post) :
    Reads depth (spanFrom start >>= next) s post := by
  have run : (spanFrom start >>= next) s = next ⟨start, max s.lastEnd start⟩ s := rfl
  rw [Nat.max_eq_left read] at run
  unfold Reads at after ⊢
  rwa [run]

theorem splitShr (sound : s.Sound) : Reads depth splitShr s fun _ s' => s'.lastEnd = s.lastEnd := by
  refine peek_bind sound ?_
  intro t faces
  split
  · rename_i shr
    obtain ⟨-, rfl⟩ | ⟨rest, pending⟩ := faces
    · cases shr
    have sound' := sound
    unfold Sound at sound'
    rw [pending] at sound'
    obtain ⟨fst, ordered, solid, more⟩ := sound'
    refine of_ok (u := { s with pending := halves t ++ s.pending.drop 1 }) rfl
      ⟨rfl, ?_, ?_, .refl, [], rfl, by simp, ?_⟩ rfl
    · unfold Sound
      rw [pending]
      exact ⟨fst, Nat.le_succ _, by rintro ⟨⟩, .refl, solid shr, by rintro ⟨⟩, more⟩
    · unfold Input.front
      rw [pending]
      exact .refl
    rw [pending]
    exact .split shr (.refl rest)
  · exact pure sound rfl

theorem closeAngle (sound : s.Sound) : Reads depth closeAngle s fun _ _ => True := by
  refine bind (splitShr sound) ?_
  intro _ _ later1 _
  refine bind (expect later1.sound) ?_
  intro _ _ later2 _
  exact pure later2.sound trivial

theorem sameLine_bind {next : Bool → Parser α} (sound : s.Sound)
    (yes : ∀ t, s.Faces t → t.kind.sameClass kind → Reads depth (next true) s post)
    (no : Reads depth (next false) s post) : Reads depth (sameLine kind >>= next) s post := by
  unfold sameLine
  rw [bind_assoc]
  refine peek_bind sound ?_
  intro t faces
  cases holds : !t.newlineBefore && t.kind.sameClass kind with
  | true => exact yes t faces (Bool.and_eq_true_iff.mp holds).2
  | false => exact no

theorem skipSemicolons (n : Nat) (sound : s.Sound) (le : depth ≤ n) :
    Reads depth (skipSemicolons n) s fun _ _ => True := by
  induction n generalizing s depth with
  | zero =>
    cases le
    exact exhausted sound
  | succ n ih =>
    refine accept_bind sound (fun _ _ later _ => ?_) (pure sound trivial)
    exact ih later.sound (by omega)

end Reads

theorem Input.Takes.le {s' : Input} (takes : s.Takes t s') : t.span.start ≤ s'.lastEnd :=
  takes.stop ▸ takes.ordered

namespace Midway

variable {s0 s' : Input} {start least most : Nat} {held held' : Span → Prop}
  {r : Parser β} {next : β → Parser α} {post : α → Input → Prop}

theorem sound (m : Midway least s0 start held s) : s.Sound := m.later.sound

theorem here (sound : s.Sound) : Midway 0 s s.front (fun _ => True) s :=
  ⟨.refl sound, .refl, .refl, .refl, fun _ _ => trivial⟩

theorem begin (takes : s0.Takes t s) (later : s0.Later s) :
    Midway 1 s0 t.span.start (fun outer => outer.start ≤ outer.stop) s where
  later := later
  passed := takes.less
  behind := Nat.le_of_eq takes.start.symm
  front := Nat.le_trans takes.le later.sound.lastEnd_le.1
  held _ le := Nat.le_trans takes.le le

section

variable (m : Midway least s0 start held s)
include m

theorem move (later : s.Later s') : Midway least s0 start held s' where
  later := m.later.trans later
  passed := Nat.le_trans (Nat.add_le_add_right later.size_le _) m.passed
  behind := m.behind
  front := Nat.le_trans m.front later.front
  held stop le := m.held stop (Nat.le_trans later.lastEnd le)

theorem now : held ⟨start, s.lastEnd⟩ := m.held _ .refl

theorem mono (weaker : ∀ outer, held outer → held' outer) : Midway least s0 start held' s :=
  { m with held := fun stop le => weaker _ (m.held stop le) }

theorem turn (read : start ≤ s.lastEnd)
    (makes : ∀ outer, outer.Holds ⟨start, s.lastEnd⟩ → held ⟨start, s.lastEnd⟩ → held' outer) :
    Midway least s0 start held' s :=
  { m with held := fun _ le => makes _ ⟨.refl, read, le⟩ m.now }

theorem pass (later : s.Later s') (less : s'.size < s.size) : Midway 1 s0 start held s' :=
  { m.move later with passed := Nat.le_trans less m.later.size_le }

end

theorem found [Lies β] {a : β} (m : Midway 1 s0 start (fun outer => In outer a) s)
    (read : start ≤ s.lastEnd) : s0.Passes s ∧ In (s0.upTo s) a := by
  have covers : (s0.upTo s).Covers ⟨start, s.lastEnd⟩ := ⟨m.behind, .refl⟩
  exact ⟨⟨Nat.le_trans m.behind read, m.passed⟩, widens covers m.now⟩

section

variable (m : Midway least s0 start held s)
include m

theorem skip {mid : β → Input → Prop} (reads : Reads depth r s mid)
    (rest : ∀ b s', Midway least s0 start held s' → Reads depth (next b) s' post) :
    Reads depth (r >>= next) s post :=
  reads.bind fun b s' later _ => rest b s' (m.move later)

theorem part [Lies β] (gathers : Gathers most r) (le : depth ≤ most)
    (rest : ∀ b s', Midway least s0 start (fun outer => held outer ∧ In outer b) s' →
      Reads depth (next b) s' post) : Reads depth (r >>= next) s post := by
  have reads := (gathers.reads s m.sound).lower le
  refine reads.bind fun b s' later holds => rest b s' ?_
  have moved := m.move later
  exact { moved with
    held := fun stop le => ⟨moved.held stop le, widens ⟨m.front, le⟩ holds⟩ }

theorem find [Lies β] (finds : Finds most r) (le : depth ≤ most)
    (rest : ∀ b s', start ≤ s'.lastEnd →
      Midway 1 s0 start (fun outer => held outer ∧ In outer b) s' →
      Reads (depth - 1) (next b) s' post) : Reads depth (r >>= next) s post := by
  have reads := (finds.reads s m.sound).lower le
  refine reads.bind_less fun b s' later got =>
    ⟨got.1.2, rest b s' (Nat.le_trans m.front got.1.1) ?_⟩
  have moved := m.pass later got.1.2
  exact { moved with
    held := fun stop le => ⟨moved.held stop le, widens ⟨m.front, le⟩ got.2⟩ }

theorem accept [kind.Proper] {next : Bool → Parser α}
    (yes : ∀ s', Midway 1 s0 start held s' → Reads (depth - 1) (next true) s' post)
    (no : Midway least s0 start held s → Reads depth (next false) s post) :
    Reads depth (Grammar.accept kind >>= next) s post :=
  .accept_bind m.sound (fun _ s' later takes => yes s' (m.pass later takes.less)) (no m)

theorem expect [kind.Proper] {next : Token → Parser α}
    (rest : ∀ t s', Midway 1 s0 start held s' → Reads (depth - 1) (next t) s' post) :
    Reads depth (Grammar.expect kind >>= next) s post :=
  (Reads.expect m.sound).bind_less fun t s' later takes =>
    ⟨takes.less, rest t s' (m.pass later takes.less)⟩

theorem take {next' : Token → Parser α} (faces : s.Faces t) (proper : t.kind ≠ .eof)
    (rest : ∀ s', Midway 1 s0 start held s' → Reads (depth - 1) (next' t) s' post) :
    Reads depth (Grammar.next >>= next') s post :=
  Reads.take_bind m.sound faces proper fun s' later takes => rest s' (m.pass later takes.less)

theorem name {next : String × Span → Parser α} (rest : ∀ name (t : Token) s', s.Takes t s' →
      Midway 1 s0 start (fun outer => held outer ∧ outer.Holds t.span) s' →
        Reads (depth - 1) (next (name, t.span)) s' post) :
    Reads depth (Grammar.identifier >>= next) s post := by
  refine (Reads.identifier m.sound).bind_less ?_
  rintro ⟨name, _⟩ s' later ⟨t, rfl, takes⟩
  have moved := m.pass later takes.less
  refine ⟨takes.less, rest name t s' takes
    { moved with held := fun stop le => ⟨moved.held stop le, ?_⟩ }⟩
  exact ⟨takes.start ▸ m.front, takes.ordered, takes.stop ▸ le⟩

end

theorem pure {a : β} {post : β → Input → Prop} (m : Midway least s0 s0.front held s)
    (gives : held (s0.upTo s) → post a s) : Reads depth (.pure a) s post :=
  Reads.pure m.sound (gives m.now)

theorem close [Lies β] {build : Span → β} (m : Midway 1 s0 start held s)
    (read : held ⟨start, s.lastEnd⟩ → start ≤ s.lastEnd)
    (makes : ∀ outer span, outer.Holds span → held span → In outer (build span)) :
    Reads depth (Grammar.spanFrom start >>= fun span => Pure.pure (build span)) s fun a s' =>
      s0.Passes s' ∧ In (s0.upTo s') a := by
  have read := read m.now
  have passes : s0.Passes s := ⟨Nat.le_trans m.behind read, m.passed⟩
  refine Reads.spanFrom_bind read (Reads.pure m.sound ⟨passes, ?_⟩)
  exact makes _ _ ⟨m.behind, read, .refl⟩ m.now

/-- A part that ends the whole. -/
theorem last [Lies α] [Lies β] {build : β → Span → α}
    (m : Midway least s0 start held s) (finds : Finds most r) (le : depth ≤ most)
    (makes : ∀ outer span b, outer.Holds span → In span b → In outer (build b span)) :
    Reads depth (r >>= fun b => Grammar.spanFrom start >>= fun span => Pure.pure (build b span)) s
      fun a s' => s0.Passes s' ∧ In (s0.upTo s') a :=
  m.find finds le fun _ _ read m => m.close (fun _ => read) fun _ _ holds h => makes _ _ _ holds h.2

end Midway

namespace Finds

variable [Lies α] {item : Parser α}

theorem of_expect [kind.Proper] {next : Token → Parser α}
    (rest : ∀ s t s', Midway 1 s t.span.start (fun outer => outer.start ≤ outer.stop) s' →
      Reads (depth - 1) (next t) s' fun a s2 => s.Passes s2 ∧ In (s.upTo s2) a) :
    Finds depth (Grammar.expect kind >>= next) :=
  ⟨fun s sound => (Reads.expect sound).bind_less fun t s' later takes =>
    ⟨takes.less, rest s t s' (.begin takes later)⟩⟩

theorem exhausted : Finds 0 (Grammar.exhausted : Parser α) :=
  ⟨fun _ sound => Reads.exhausted sound⟩

theorem mono {most : Nat} (finds : Finds most item) (le : depth ≤ most) : Finds depth item :=
  ⟨fun s sound => (finds.reads s sound).lower le⟩

theorem after [kind.Proper] (finds : Finds depth item) :
    Gathers depth (Grammar.after kind item) := by
  refine ⟨fun s sound => ?_⟩
  refine (Midway.here sound).accept (fun _ m => ?_) fun m => m.pure fun _ _ => nofun
  refine m.part finds.gathers (by omega) fun a _ m => m.pure fun h => ?_
  rintro _ ⟨⟩
  exact h.2

theorem commaList {close : TokenKind} (n : Nat) (finds : Finds depth item) (le : depth ≤ n) :
    Gathers depth (Grammar.commaList close item n) := by
  refine ⟨?_⟩
  induction n generalizing depth with
  | zero =>
    cases le
    exact fun s sound => Reads.exhausted sound
  | succ n ih =>
  refine fun s sound => Reads.check_bind sound fun t _ => ?_
  split
  · exact .pure sound fun _ => nofun
  refine (Midway.here sound).find finds (by omega) fun a _ _ m => ?_
  refine m.accept (fun _ m => ?_) fun m =>
    m.pure fun h => List.forall_mem_singleton.mpr h.2
  refine m.part ⟨ih (finds.mono (Nat.sub_le depth 1)) (by omega)⟩ (by omega) fun _ _ m =>
    m.pure fun h => ?_
  exact List.forall_mem_cons.mpr ⟨h.1.2, h.2⟩

theorem separated [kind.Proper] (n : Nat) (finds : Finds depth item) (le : depth ≤ n) :
    Finds depth (Grammar.separated kind item n) := by
  induction n generalizing depth with
  | zero =>
    cases le
    exact .exhausted
  | succ n ih =>
  refine ⟨fun s sound => ?_⟩
  refine (Midway.here sound).find finds (by omega) fun a _ read m => ?_
  refine m.accept (fun _ m => ?_) fun m =>
    .pure m.sound ⟨⟨read, m.passed⟩, List.forall_mem_singleton.mpr m.now.2⟩
  refine m.find (ih (finds.mono (Nat.sub_le depth 1)) (by omega)) (by omega) fun _ _ read m => ?_
  exact .pure m.sound ⟨⟨read, m.passed⟩, List.forall_mem_cons.mpr ⟨m.now.1.2, m.now.2⟩⟩

end Finds

end Stencil
