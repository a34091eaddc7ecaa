import Confinement.Audit
import Confinement.Body
import Confinement.Options

/-!
# Sandboxing a module

The pass plans every function before it changes anything, defines the symbols of the region,
confines the bodies of all functions, flags the module, and may audit the result. A module that
cannot be planned, or whose symbols stand in the way, is left alone. The bodies do not depend on one
another: working on them side by side gives each of them what working on them in order gives it
(`outcomes_parallel`).

Only behind a fault can the two ways be told apart. In order, the first fault ends the work and is
the one that is reported. Side by side, functions behind it may have been worked on by then, and the
fault of one of them may be reported instead; which one is left open. What is defined here (`settle`)
is how the work in order ends.
-/

set_option autoImplicit false

namespace Confinement

/-- A change of a module that may end in an error. -/
abbrev Sandboxing := EStateM Error Module

/-- The pass with its choices made. -/
structure Pass where
  /-- The width to confine to. -/
  width : Width
  /-- Are functions worked on side by side? -/
  parallel : Bool
  /-- Is the result audited? -/
  verify : Bool
  deriving DecidableEq

/-- The pass that options ask for. -/
def Pass.ofOptions (options : Options) : Except Error Pass :=
  options.width.map fun width =>
    { width, parallel := options.parallel, verify := options.verify }

/-- The pass without any choice of the user. -/
def Pass.default : Pass where
  width := .full
  parallel := Options.default.parallel
  verify := Options.default.verify

instance : Inhabited Pass := ⟨.default⟩

/-- What the pass did to a module. -/
structure Report where
  /-- The width confined to. -/
  width : Width
  /-- Function bodies gone through. -/
  functions : Nat
  /-- Functions that load the base. -/
  baseLoads : Nat
  /-- How much was confined in all of them. -/
  tally : Tally
  deriving DecidableEq, Inhabited

/-- The report on some bodies. -/
def Report.ofBodies (width : Width) (bodies : List BodyTally) : Report where
  width := width
  functions := bodies.length
  baseLoads := bodies.countP (·.loadedBase)
  tally := bodies.foldr (fun body sum => body.tally + sum) 0

/-- The plans of all functions, or the error of the first that has none. -/
def Module.plans (m : Module) : Except Error (List Plan) :=
  m.functions.mapM fun f => f.plan m.symbols

/-! ## The bodies of a module -/

/-- What became of a function; a declaration has no body to tally. -/
abbrev Outcome := EStateM.Result Fault Func (Option BodyTally)

/-- Confines one function by its plan. -/
def Context.outcome (cx : Context) (f : Func) (plan : Plan) : Outcome :=
  if f.isDeclaration then .ok none f else (some <$> Edit.confineBody cx plan).run f

/-- Confines functions by their plans, each on its own. There is an outcome for every function, also
for those that the work in order does not reach because of a fault before them. -/
def Context.outcomes (cx : Context) (parallel : Bool) (work : List (Func × Plan)) : List Outcome :=
  if parallel then
    (work.map fun (f, plan) => Task.spawn fun _ => cx.outcome f plan).map Task.get
  else work.map fun (f, plan) => cx.outcome f plan

/-- Working side by side gives what working in order gives. -/
theorem outcomes_parallel (cx : Context) (parallel : Bool) (work : List (Func × Plan)) :
    cx.outcomes parallel work = work.map fun (f, plan) => cx.outcome f plan := by
  cases parallel
  · rfl
  · simp [Context.outcomes, Function.comp_def, Task.spawn]

/-- Takes the confined functions over in order. After a fault, the functions behind it stay as they
were; when they are worked on side by side, some of them may have been confined already, and one of
their faults may take the place of the first. -/
def settle : List (Func × Outcome) → EStateM.Result Fault (List Func) (List BodyTally)
  | [] => .ok [] []
  | (_, .error fault f) :: rest => .error fault (f :: rest.map (·.1))
  | (_, .ok body f) :: rest =>
    match settle rest with
    | .ok bodies fs => .ok (body.toList ++ bodies) (f :: fs)
    | .error fault fs => .error fault (f :: fs)

/-- Confines the functions of a module by their plans. -/
def Module.confineBodies (cx : Context) (parallel : Bool) (plans : List Plan) :
    EStateM Fault Module (List BodyTally) := fun m =>
  match settle (m.functions.zip (cx.outcomes parallel (m.functions.zip plans))) with
  | .ok bodies functions => .ok bodies { m with functions }
  | .error fault functions => .error fault { m with functions }

/-! ## The pass -/

/-- Objects to a module that does not pass the audit. -/
def Module.audit (m : Module) (region : Region) : Except Error Unit :=
  match m.violations region with
  | [] => .ok ()
  | first :: rest => .error (.unconfined (rest.length + 1) first)

/-- Sandboxes a module that is not sandboxed yet. -/
def Pass.run (pass : Pass) : Sandboxing Report := do
  let m ← get
  if m.hasFlag sandboxedFlag then throw (.alreadySandboxed m.name)
  -- Every function is planned against the symbols as they are, before the region adds its own.
  let plans ← ofExcept m.plans
  let region ← (Region.install pass.width).adaptExcept .conflict
  let cx := (← get).context region
  let bodies ← (Module.confineBodies cx pass.parallel plans).adaptExcept .malformed
  modify (·.setFlag sandboxedFlag)
  if pass.verify then ofExcept ((← get).audit region)
  return .ofBodies pass.width bodies

end Confinement
