import Stencil.Compile
import Stencil.Proofs.Ir.Flow
import Stencil.Proofs.Program.Passes

namespace Stencil

/-- The module that a text stands for, which is empty if the text cannot be read. -/
def Module.ofText (source : String) : Module :=
  (Module.parse source).toOption.getD default

theorem Session.Valid.finished_of_mem {s : Session} (valid : s.Valid) (idle : s.Idle)
    {f : Ir.Function} (mem : f ∈ s.builder.functions) (body : f.blocks ≠ []) :
    f.Finished s.context := by
  obtain ⟨i, got⟩ := List.mem_iff_getElem?.mp mem
  have other : s.builder.function ≠ some i := by
    rw [idle]
    nofun
  exact (valid.finished i f got other).resolve_left body

theorem Session.Analyzed.finished {plainly : Prop} {s : Session} (analyzed : s.Analyzed plainly)
    {f : Ir.Function} (mem : f ∈ s.builder.functions) (body : f.blocks ≠ []) :
    f.Finished s.context :=
  analyzed.valid.finished_of_mem analyzed.idle mem body

/-- The control flow of every body is well formed, no instruction has been put behind the end of a
block, and no block was to be ended twice. -/
theorem analyze_controlFlow (moduleName : String) (m : Module) (limits : Limits) :
    (∀ f ∈ (analyze moduleName m limits).builder.functions, f.blocks ≠ [] → f.ControlFlow) ∧
      (analyze moduleName m limits).builder.late = 0 ∧
      ∀ d ∈ (analyze moduleName m limits).report.entries, ∀ block,
        d.problem ≠ .alreadyTerminated block := by
  have analyzed := analyze_analyzed moduleName m limits
  exact ⟨fun f mem body => (analyzed.finished mem body).controlFlow, analyzed.valid.late,
    fun d mem => analyzed.valid.regular d mem⟩

/-- In every body temporaries are assigned once and before they are used, parameters exist, and
stack slots come first. -/
theorem analyze_assigned (moduleName : String) (m : Module) (limits : Limits) :
    ∀ f ∈ (analyze moduleName m limits).builder.functions, f.blocks ≠ [] → f.Assigned :=
  fun _ member body => ((analyze_analyzed moduleName m limits).finished member body).assigned body

theorem analyze_assigned_loop :
    ∃ f ∈ (analyze "m" (Module.ofText
        "func f(n: int) => int { while n > 2 || n < 0 { n = n * n } return n }")).builder.functions,
      f.blocks.length = 6 ∧ f.Assigned := by
  obtain ⟨f, mem, blocks⟩ : ∃ f ∈ (analyze "m" (Module.ofText
      "func f(n: int) => int { while n > 2 || n < 0 { n = n * n } return n }")).builder.functions,
      f.size = 6 := by
    decide +kernel
  refine ⟨f, mem, blocks, analyze_assigned _ _ {} f mem ?_⟩
  intro none
  rw [Ir.Function.size, none] at blocks
  cases blocks

end Stencil
