import Stencil.Analysis.Session

/-! Reasoning about steps that may fail, above all those of an analysis, which keep a session also
then. -/

namespace Stencil

section

variable {ε σ α β : Type} {step : EStateM ε σ β} {next : β → EStateM ε σ α} {s s' : σ}

theorem bind_run {b : β} (run : step s = .ok b s') : (step >>= next) s = next b s' := by
  change EStateM.bind step next s = _
  rw [EStateM.bind, run]

theorem bind_run_error {e : ε} (run : step s = .error e s') : (step >>= next) s = .error e s' := by
  change EStateM.bind step next s = _
  rw [EStateM.bind, run]

theorem bind_ok {a : α} (run : (step >>= next) s = .ok a s') :
    ∃ b u, step s = .ok b u ∧ next b u = .ok a s' := by
  change EStateM.bind step next s = _ at run
  unfold EStateM.bind at run
  split at run
  · rename_i b u fst
    exact ⟨b, u, fst, run⟩
  · cases run

theorem ok_of_run' {a : α} {step : EStateM ε σ α} {s : σ} (run : step.run' s = some a) :
    ∃ s', step s = .ok a s' := by
  unfold EStateM.run' EStateM.run at run
  split at run
  · rename_i s' done
    cases run
    exact ⟨s', done⟩
  · cases run

end

def Problem.Regular (p : Problem) : Prop :=
  ∀ block, p ≠ .alreadyTerminated block

def Diagnostic.Regular (d : Diagnostic) : Prop :=
  d.problem.Regular

def Problem.isOrdinary : Problem → Bool
  | .alreadyTerminated _ => false
  | p => p.kind != .constantAssigned

def Diagnostic.Ordinary (d : Diagnostic) : Prop :=
  d.problem.isOrdinary

theorem Diagnostic.Ordinary.regular {d : Diagnostic} (ordinary : d.Ordinary) : d.Regular := by
  intro block same
  rw [Ordinary, same] at ordinary
  cases ordinary

theorem Diagnostic.Ordinary.kind {d : Diagnostic} (ordinary : d.Ordinary) :
    d.kind ≠ .constantAssigned := by
  intro same
  unfold Ordinary Problem.isOrdinary at ordinary
  split at ordinary
  · cases ordinary
  · exact absurd same (bne_iff_ne.mp ordinary)

variable {p : Problem}

namespace Analysis

variable {α β σ : Type}

/-- What holds after a step, whether it succeeds or not. -/
def Leads (step : Analysis α) (s : Session) (done : α → Session → Prop)
    (failed : Diagnostic → Session → Prop) : Prop :=
  match step s with
  | .ok a s' => done a s'
  | .error d s' => failed d s'

variable {next : β → Analysis α}

section

variable {s : Session} {done : α → Session → Prop} {failed : Diagnostic → Session → Prop}

theorem leads_bind {step : Analysis β} : Leads (step >>= next) s done failed ↔
      Leads step s (fun b s' => Leads (next b) s' done failed) failed := by
  change (match EStateM.bind step next s with
    | .ok a s' => done a s'
    | .error d s' => failed d s') ↔ _
  unfold EStateM.bind Leads
  cases step s <;> exact .rfl

theorem leads_map {f : β → α} {step : Analysis β} :
    Leads (f <$> step) s done failed ↔ Leads step s (fun b s' => done (f b) s') failed := by
  change (match EStateM.map f step s with
    | .ok a s' => done a s'
    | .error d s' => failed d s') ↔ _
  unfold EStateM.map Leads
  cases step s <;> exact .rfl

theorem get_bind (next : Session → Analysis α) (s : Session) : (get >>= next) s = next s s := rfl

variable {step : Analysis β}

theorem leads_get {next : Session → Analysis α} :
    Leads (get >>= next) s done failed ↔ Leads (next s) s done failed := Iff.rfl

theorem leads_attempt (step : Analysis β) (next : Except Diagnostic β → Session → Prop) :
    Leads (attempt step) s next failed ↔
      Leads step s (fun b s' => next (.ok b) s') (fun d s' => next (.error d) s') := by
  unfold Leads attempt
  cases step s <;> exact .rfl

theorem leads_reporting {done : Option β → Session → Prop} : Leads (reporting step) s done failed ↔
      Leads step s (fun b s' => done (some b) s')
        (fun d s' => done none { s' with report := s'.report.push d }) := by
  refine leads_bind.trans ((leads_attempt _ _).trans ?_)
  exact .rfl

theorem reporting_succeeds (step : Analysis β) :
    Leads (reporting step) s (fun _ _ => True) fun _ _ => False := by
  rw [leads_reporting, Leads]
  split <;> trivial

variable {step : Analysis α}

theorem Leads.mono {done' : α → Session → Prop}
    {failed' : Diagnostic → Session → Prop} (before : Leads step s done failed)
    (success : ∀ a s', done a s' → done' a s') (failure : ∀ d s', failed d s' → failed' d s') :
    Leads step s done' failed' := by
  unfold Leads at before ⊢
  split at before
  · exact success _ _ before
  · exact failure _ _ before

theorem Leads.and {done' : α → Session → Prop}
    {failed' : Diagnostic → Session → Prop} (fst : Leads step s done failed)
    (snd : Leads step s done' failed') : Leads step s (fun a s' => done a s' ∧ done' a s')
      fun d s' => failed d s' ∧ failed' d s' := by
  unfold Leads at fst snd ⊢
  cases run : step s with
  | ok a s' | error d s' =>
    rw [run] at fst snd
    exact ⟨fst, snd⟩

theorem leads_run (leads : Leads step s done failed) :
    Leads step s (fun a s' => step s = .ok a s' ∧ done a s')
      fun d s' => step s = .error d s' ∧ failed d s' := by
  unfold Leads at leads ⊢
  cases run : step s with
  | ok a s' | error d s' =>
    rw [run] at leads
    exact ⟨rfl, leads⟩

end

theorem build_eq (step : Ir.Build α) (s : Session) :
    build step s = .ok (step s.builder).1 { s with builder := (step s.builder).2 } := rfl

class Tracked (σ : Type) where
  session : σ → Session
  later : σ → σ → Prop
  failed : σ → Diagnostic → Session → Prop
  refl : ∀ x, later x x
  trans : ∀ {x y z}, later x y → later y z → later x z
  carried : ∀ {x y d s}, later x y → failed y d s → failed x d s
  stopped : ∀ x d, d.Ordinary → failed x d (session x)

open Tracked

/-- From a state a step leads to a later state, with a result for which something holds there. -/
def Keeps [Tracked σ] (step : Analysis α) (x : σ) (post : α → σ → Prop := fun _ _ => True) :
    Prop :=
  Leads step (session x) (fun a s => ∃ y, session y = s ∧ later x y ∧ post a y) (failed x)

/-- A step that does not fail leads on. -/
theorem Keeps.leads_on [Tracked σ] {x : σ} {post : β → σ → Prop} {step : Analysis β}
    {done : α → Session → Prop} {failed : Diagnostic → Session → Prop}
    (keeps : Keeps step x post) (sure : ∃ b s, step (session x) = .ok b s)
    (more : ∀ b y, later x y → post b y → Leads (next b) (session y) done failed) :
    Leads (step >>= next) (session x) done failed := by
  obtain ⟨b, s, run⟩ := sure
  rw [Keeps, Leads, run] at keeps
  obtain ⟨y, rfl, way, holds⟩ := keeps
  rw [Leads, bind_run run]
  exact more b y way holds

namespace Keeps

variable [Tracked σ] {x : σ} {post : α → σ → Prop}

theorem pure {a : α} (holds : post a x) : Keeps (pure a) x post :=
  ⟨x, rfl, refl x, holds⟩

variable {span : Span}

theorem fail (ordinary : p.isOrdinary) : Keeps (α := α) (fail p span) x post :=
  stopped x _ ordinary

theorem throw {d : Diagnostic} (ordinary : d.Ordinary) : Keeps (α := α) (.throw d) x post :=
  stopped x _ ordinary

theorem mono {step : Analysis α} {post' : α → σ → Prop} (before : Keeps step x post)
    (weaker : ∀ a y, later x y → post a y → post' a y) : Keeps step x post' := by
  refine Leads.mono before ?_ (fun _ _ h => h)
  rintro a s ⟨y, same, way, holds⟩
  exact ⟨y, same, way, weaker a y way holds⟩

theorem traced {step : Analysis α} (inner : Keeps step x post) :
    Keeps step x fun a y => post a y ∧ step (session x) = .ok a (session y) := by
  unfold Keeps Leads at inner ⊢
  cases run : step (session x) with
  | ok =>
    rw [run] at inner
    obtain ⟨y, rfl, way, holds⟩ := inner
    exact ⟨y, rfl, way, holds, rfl⟩
  | error =>
    rw [run] at inner
    exact inner

theorem bind {step : Analysis β} {m : β → σ → Prop} (fst : Keeps step x m)
    (snd : ∀ b y, later x y → m b y → Keeps (next b) y post) :
    Keeps (step >>= next) x post := by
  refine leads_bind.mpr (.mono fst ?_ (fun _ _ h => h))
  rintro b s ⟨y, rfl, way, holds⟩
  refine .mono (snd b y way holds) ?_ (fun _ _ h => carried way h)
  rintro a s ⟨z, same, more, result⟩
  exact ⟨z, same, trans way more, result⟩

theorem fail_bind (ordinary : p.isOrdinary) : Keeps (.fail p span >>= next) x post :=
  Keeps.bind (m := fun _ _ => False) (Keeps.fail ordinary) fun _ _ _ h => h.elim

theorem check {c : Prop} [Decidable c] {rest : Analysis α}
    (ordinary : p.isOrdinary) (passed : ¬c → Keeps rest x post) :
    Keeps (if c then Analysis.fail p span >>= fun _ : PUnit => rest else rest) x post := by
  split
  · exact .fail_bind ordinary
  · exact passed ‹_›

theorem require {c : Prop} [Decidable c] {rest : Analysis α}
    (ordinary : p.isOrdinary) (passed : c → Keeps rest x post) :
    Keeps (if c then rest else Analysis.fail p span >>= fun _ : PUnit => rest) x post := by
  split
  · exact passed ‹_›
  · exact .fail_bind ordinary

theorem join {c : Prop} [Decidable c] {yes no : Analysis β}
    (whole : Keeps ((if c then yes else no) >>= next) x post) :
    Keeps (if c then yes >>= next else no >>= next) x post := by
  split
  · rename_i holds
    rwa [if_pos holds] at whole
  rename_i fails
  rwa [if_neg fails] at whole

theorem map {step : Analysis β} {f : β → α} (inner : Keeps step x fun b y => post (f b) y) :
    Keeps (f <$> step) x post :=
  leads_map.mpr inner

theorem step {step : Analysis α} {a : α} {y : σ} (run : step (session x) = .ok a (session y))
    (way : later x y) (holds : post a y) : Keeps step x post := by
  unfold Keeps Leads
  rw [run]
  exact ⟨y, rfl, way, holds⟩

theorem get_bind {next : Session → Analysis α} (after : Keeps (next (session x)) x post) :
    Keeps (get >>= next) x post :=
  after

theorem tree_bind {next : ScopeTree → Analysis α} (after : Keeps (next (session x).tree) x post) :
    Keeps (tree >>= next) x post :=
  after

theorem fromExcept {e : Except Diagnostic α} (success : ∀ a, e = .ok a → post a x)
    (failure : ∀ d, e = .error d → d.Ordinary) : Keeps (fromExcept e) x post := by
  cases e with
  | ok a => exact .pure (success a rfl)
  | error d => exact .throw (failure d rfl)

end Keeps

end Analysis

end Stencil
