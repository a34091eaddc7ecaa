import Confinement.Proofs.Completion
import Confinement.Proofs.Confined

/-!
# How a run ends

A run looks at everything that can stand against it before it changes the module: the flag, the
plans, the two symbols of the region. Behind that the bodies are confined, and as long as the
counters of what the accesses may remove can be trusted nothing is refused any more
(`settle_completes`). So a run either ends in an error and leaves the module as it was
(`Pass.run_atomic`), or succeeds and leaves nothing that reads what is gone (`Pass.run_closed`); with
exact counters it succeeds exactly when nothing stood against it, and placement and counters are
exact again (`Pass.run_progress`).

Counters are not always exact: an operand that names a number still to be given out is not counted.
With such operands a run may remove what is read, and may fail half-way.
-/

set_option autoImplicit false

namespace Confinement

open Func

/-! ## Symbols -/

/-- Nothing stands against the symbols of a region: the constant of the width is not there yet, and a
base that is there can be filled in. -/
def Module.AdmitsRegion (m : Module) : Prop :=
  m.globalNamed? widthSymbol = none ∧ ∀ entry ∈ m.findGlobal? baseSymbol, entry.2.HoldsBase

instance (m : Module) : Decidable m.AdmitsRegion :=
  inferInstanceAs (Decidable (_ ∧ ∀ entry ∈ m.findGlobal? baseSymbol, entry.2.HoldsBase))

section Symbols

variable {m m' : Module} {width : Width}

theorem Linking.addGlobal_eq {g : Global} (h : m.globalNamed? g.name = none) :
    (addGlobal g).run m = .ok m.globals.length { m with globals := m.globals ++ [g] } := by
  rw [addGlobal]
  rw [run_get_bind, h]
  rfl

/-- The base is taken over, or it is declared. -/
theorem Linking.globalOfType_base (h : m.AdmitsRegion) :
    ∃ id m₁, (globalOfType baseSymbol (.int 64)).run m = .ok id m₁ ∧
      m₁.globalNamed? widthSymbol = none := by
  obtain ⟨hwidth, hbase⟩ := h
  rw [globalOfType]
  rw [run_get_bind]
  cases hf : m.findGlobal? baseSymbol with
  | none =>
    refine ⟨_, _, addGlobal_eq (Module.findGlobal?_eq_none_iff.mp hf), ?_⟩
    rw [Module.globalNamed?_append rfl, hwidth]
    rfl
  | some entry =>
    obtain ⟨id, found⟩ := entry
    have hty : found.ty = .int 64 := (hbase (id, found) hf).1
    refine ⟨id, m, ?_, hwidth⟩
    simp only [hty, if_true]
    rfl

/-- The symbols of a region are defined exactly when nothing stands against them, and a module that
does not admit them is left alone. -/
theorem Region.install_outcome (m : Module) (width : Width) :
    (m.AdmitsRegion ∧ ∃ region m₁, (Region.install width).run m = .ok region m₁) ∨
      (¬ m.AdmitsRegion ∧ ∃ conflict, (Region.install width).run m = .error conflict m) := by
  rw [install]
  rw [run_get_bind]
  by_cases hw : (m.globalNamed? widthSymbol).isSome
  · refine Or.inr ⟨fun h => ?_, _, by rw [if_pos hw]; rfl⟩
    rw [h.1] at hw
    cases hw
  · have hnone : m.globalNamed? widthSymbol = none := Option.not_isSome_iff_eq_none.mp hw
    rw [if_neg hw]
    split
    · next hb =>
      refine Or.inr ⟨fun h => ?_, _, rfl⟩
      obtain ⟨entry, hentry, hnot⟩ := (Option.any_eq_true _ _).mp hb
      exact of_decide_eq_true hnot (h.2 entry hentry)
    · next hb =>
      have hadmits : m.AdmitsRegion := by
        refine ⟨hnone, fun entry hentry => Decidable.byContradiction fun hnot => hb ?_⟩
        exact (Option.any_eq_true _ _).mpr ⟨entry, hentry, decide_eq_true hnot⟩
      obtain ⟨base, m₁, hbase, hfree⟩ := Linking.globalOfType_base hadmits
      exact Or.inl ⟨hadmits, _, _, run_bind_eq_ok.mpr ⟨base, m₁, hbase,
        run_bind_eq_ok.mpr ⟨_, _, Linking.addGlobal_eq hfree, rfl⟩⟩⟩

/-- A module keeps its symbols when those of a region are defined. -/
theorem Region.install_within {region : Region}
    (h : (Region.install width).run m = .ok region m') : m.symbols.Within m'.symbols := by
  obtain ⟨-, hfunctions, -, -, more, hglobals⟩ := Region.install_eq_ok h
  refine ⟨?_, ?_⟩
  · rw [Module.symbols, Module.symbols, hglobals, List.map_append]
    exact List.prefix_append _ _
  · rw [Module.symbols, Module.symbols, hfunctions]

end Symbols

/-! ## Bodies -/

/-- What becomes of a function: a declaration stays, and a body is complete. -/
def Func.Finishes (f g : Func) (cx : Context) (symbols : SymbolTable) : Prop :=
  (f.isDeclaration = true ∧ g = f) ∨ ∃ base, f.Completes g cx symbols base

theorem Func.Finishes.upholds {f g : Func} {cx : Context} {symbols : SymbolTable}
    (h : f.Finishes g cx symbols) : f.Upholds none g := by
  rcases h with ⟨-, rfl⟩ | ⟨base, hcompletes⟩
  · exact .refl none g
  · exact hcompletes.upholds

/-- Every function that has a plan is confined, and nothing is refused. -/
theorem settle_completes {cx : Context} {symbols : SymbolTable} {fs : List Func} {plans : List Plan}
    (hplaced : ∀ f ∈ fs, f.Placed)
    (htrusted : ∀ f ∈ fs, f.Trusted symbols cx.layout cx.region.width)
    (hwithin : symbols.Within cx.symbols)
    (hplans : List.Forall₂ (fun f plan => f.plan symbols = .ok plan) fs plans) :
    ∃ bodies gs, settle (fs.zip (cx.outcomes false (fs.zip plans))) = .ok bodies gs ∧
      List.Forall₂ (fun f g => f.Finishes g cx symbols) fs gs := by
  induction hplans with
  | nil => exact ⟨[], [], rfl, .nil⟩
  | @cons f plan fs plans hplan _ ih =>
    obtain ⟨hf, hfs⟩ := List.forall_mem_cons.mp hplaced
    obtain ⟨ht, hts⟩ := List.forall_mem_cons.mp htrusted
    obtain ⟨bodies, gs, hsettle, hall⟩ := ih hfs hts
    have hout : ∃ body g, cx.outcome f plan = .ok body g ∧ f.Finishes g cx symbols := by
      rw [Context.outcome]
      split
      · next hdecl => exact ⟨none, f, rfl, Or.inl ⟨hdecl, rfl⟩⟩
      · obtain ⟨body, g, base, hrun, hcompletes⟩ :=
          Edit.confineBody_completes hf (ht.within hf hplan hwithin) hplan hwithin
        exact ⟨some body, g, Edit.run_map_eq_ok.mpr ⟨body, hrun, rfl⟩, Or.inr ⟨base, hcompletes⟩⟩
    obtain ⟨body, g, hout, hfg⟩ := hout
    refine ⟨body.toList ++ bodies, g :: gs, ?_, .cons hfg hall⟩
    have hwork : (f :: fs).zip (cx.outcomes false ((f :: fs).zip (plan :: plans))) =
        (f, cx.outcome f plan) :: fs.zip (cx.outcomes false (fs.zip plans)) := rfl
    rw [hwork, hout]
    simp only [settle, hsettle]

/-! ## The pass -/

section Pass

variable {pass : Pass} {m m' : Module} {report : Report} {e : Error}

/-- A module that is sandboxed already is left alone. -/
theorem Pass.run_flagged (h : m.hasFlag sandboxedFlag = true) :
    pass.run.run m = .error (.alreadySandboxed m.name) m := by
  rw [Pass.run]
  rw [run_get_bind]
  simp only [h, if_true]
  rfl

/-- A module without plans is left alone. -/
theorem Pass.run_unplanned (hflag : m.hasFlag sandboxedFlag = false) (h : m.plans = .error e) :
    pass.run.run m = .error e m := by
  rw [Pass.run]
  rw [run_get_bind]
  simp only [hflag, Bool.false_eq_true, if_false, h]
  rfl

/-- A module that does not admit the symbols of a region is left alone. -/
theorem Pass.run_conflict {plans : List Plan} {conflict : Conflict}
    (hflag : m.hasFlag sandboxedFlag = false) (hplans : m.plans = .ok plans)
    (h : (Region.install pass.width).run m = .error conflict m) :
    pass.run.run m = .error (.conflict conflict) m := by
  have hadapted : ((Region.install pass.width).adaptExcept Error.conflict).run m =
      .error (.conflict conflict) m := by
    rw [EStateM.run_adaptExcept, h]
  rw [Pass.run]
  rw [run_get_bind]
  simp only [hflag, Bool.false_eq_true, if_false, hplans]
  change ((Region.install pass.width).adaptExcept Error.conflict >>= _).run m = _
  rw [EStateM.run_bind, hadapted]

/-- The end of a run, when the bodies are confined. -/
def Pass.finish (pass : Pass) (region : Region) (report : Report) : Sandboxing Report := do
  modify (·.setFlag sandboxedFlag)
  if pass.verify then ofExcept ((← get).audit region)
  return report

/-- Up to its end, a run plans, defines the symbols of the region and confines the bodies. -/
theorem Pass.run_eq_finish {plans : List Plan} {region : Region} {m₁ m₂ : Module}
    {bodies : List BodyTally} (hflag : m.hasFlag sandboxedFlag = false)
    (hplans : m.plans = .ok plans) (hregion : (Region.install pass.width).run m = .ok region m₁)
    (hbodies : (Module.confineBodies (m₁.context region) pass.parallel plans).run m₁ =
      .ok bodies m₂) :
    pass.run.run m = (pass.finish region (.ofBodies pass.width bodies)).run m₂ := by
  have hinstall : ((Region.install pass.width).adaptExcept Error.conflict).run m =
      .ok region m₁ := run_adaptExcept_eq_ok.mpr hregion
  have hconfine : ((Module.confineBodies (m₁.context region) pass.parallel plans).adaptExcept
      Error.malformed).run m₁ = .ok bodies m₂ := run_adaptExcept_eq_ok.mpr hbodies
  rw [Pass.run]
  rw [run_get_bind]
  simp only [hflag, Bool.false_eq_true, if_false, hplans]
  change ((Region.install pass.width).adaptExcept Error.conflict >>= _).run m = _
  rw [EStateM.run_bind, hinstall]
  show EStateM.run (get >>= _) m₁ = _
  rw [run_get_bind, EStateM.run_bind, hconfine]
  rfl

/-- Confined bodies are taken over. -/
theorem Module.confineBodies_of_settle {cx : Context} {parallel : Bool} {plans : List Plan}
    {bodies : List BodyTally} {functions : List Func}
    (h : settle (m.functions.zip (cx.outcomes false (m.functions.zip plans))) =
      .ok bodies functions) :
    (Module.confineBodies cx parallel plans).run m = .ok bodies { m with functions } := by
  show Module.confineBodies _ _ _ m = _
  rw [Module.confineBodies, outcomes_parallel, ← outcomes_parallel _ false, h]

/-- The steps that make up a run that succeeds. -/
theorem Pass.run_of_steps {plans : List Plan} {region : Region} {m₁ : Module}
    {bodies : List BodyTally} {functions : List Func}
    (hflag : m.hasFlag sandboxedFlag = false) (hplans : m.plans = .ok plans)
    (hregion : (Region.install pass.width).run m = .ok region m₁)
    (hsettle : settle (m.functions.zip ((m₁.context region).outcomes false
      (m.functions.zip plans))) = .ok bodies functions)
    (haudit : pass.verify = true →
      (({ m₁ with functions } : Module).setFlag sandboxedFlag).audit region = .ok ()) :
    pass.run.run m = .ok (.ofBodies pass.width bodies)
      (({ m₁ with functions } : Module).setFlag sandboxedFlag) := by
  rw [← (Region.install_eq_ok hregion).2.1] at hsettle
  rw [run_eq_finish hflag hplans hregion (Module.confineBodies_of_settle hsettle), finish]
  refine run_bind_eq_ok.mpr ⟨(), _, rfl, ?_⟩
  cases hverify : pass.verify with
  | false => rfl
  | true =>
    simp only [if_true]
    rw [run_get_bind]
    exact run_ofExcept_bind_eq_ok.mpr ⟨(), haudit hverify, rfl⟩

end Pass

/-- Nothing stands against a run: the module is not sandboxed yet, every function has a plan, and the
symbols of the region can be defined. -/
structure Module.Sandboxable (m : Module) : Prop where
  unflagged : m.hasFlag sandboxedFlag = false
  plan : ∀ f ∈ m.functions, ∃ plan, f.plan m.symbols = .ok plan
  admits : m.AdmitsRegion

section Pass

variable {pass : Pass} {m m' : Module} {report : Report} {e : Error}

/-- A module has plans when each of its functions has one. -/
theorem Module.plans_eq_ok_iff :
    (∃ plans, m.plans = .ok plans) ↔ ∀ f ∈ m.functions, ∃ plan, f.plan m.symbols = .ok plan := by
  simp only [Module.plans, mapM_eq_ok]
  generalize m.functions = fs
  induction fs with
  | nil => exact ⟨fun _ f hf => absurd hf List.not_mem_nil, fun _ => ⟨[], .nil⟩⟩
  | cons f fs ih =>
    rw [List.forall_mem_cons, ← ih]
    constructor
    · rintro ⟨plans, h⟩
      obtain ⟨plan, rest, hplan, hrest, -⟩ := List.forall₂_cons_left_iff.mp h
      exact ⟨⟨plan, hplan⟩, rest, hrest⟩
    · rintro ⟨⟨plan, hplan⟩, rest, hrest⟩
      exact ⟨plan :: rest, .cons hplan hrest⟩

/-- What stands against a run ends it before the module is changed. -/
theorem Pass.run_unsandboxable (pass : Pass) (h : ¬ m.Sandboxable) :
    ∃ e, pass.run.run m = .error e m := by
  cases hflag : m.hasFlag sandboxedFlag with
  | true => exact ⟨_, run_flagged hflag⟩
  | false =>
    cases hplans : m.plans with
    | error e => exact ⟨e, run_unplanned hflag hplans⟩
    | ok plans =>
      rcases Region.install_outcome m pass.width with ⟨hadmits, -⟩ | ⟨-, conflict, hregion⟩
      · exact absurd ⟨hflag, Module.plans_eq_ok_iff.mp ⟨plans, hplans⟩, hadmits⟩ h
      · exact ⟨_, run_conflict hflag hplans hregion⟩

/-- Behind the symbols of the region every body is confined. -/
theorem Pass.steps_of_install {plans : List Plan} {region : Region} {m₁ : Module}
    (hregion : (Region.install pass.width).run m = .ok region m₁)
    (hplaced : ∀ f ∈ m.functions, f.Placed)
    (htrusted : ∀ f ∈ m.functions, f.Trusted m.symbols m.layout pass.width)
    (hplans : m.plans = .ok plans) :
    ∃ bodies functions, settle (m.functions.zip ((m₁.context region).outcomes false
        (m.functions.zip plans))) = .ok bodies functions ∧
      List.Forall₂ (fun f g => f.Finishes g (m₁.context region) m.symbols) m.functions functions := by
  obtain ⟨hwidth, -, hlayout, -⟩ := Region.install_eq_ok hregion
  have hwithin : m.symbols.Within (m₁.context region).symbols := Region.install_within hregion
  -- the region has the width of the pass, and sizes stay what they were
  rw [← hwidth, ← hlayout] at htrusted
  exact settle_completes hplaced htrusted hwithin (mapM_eq_ok.mp hplans)

/-- Behind that every step is served, up to the audit. -/
theorem Pass.steps_of_sandboxable (pass : Pass) (hplaced : ∀ f ∈ m.functions, f.Placed)
    (htrusted : ∀ f ∈ m.functions, f.Trusted m.symbols m.layout pass.width) (h : m.Sandboxable) :
    ∃ plans region m₁ bodies functions, m.plans = .ok plans ∧
      (Region.install pass.width).run m = .ok region m₁ ∧
      settle (m.functions.zip ((m₁.context region).outcomes false (m.functions.zip plans))) =
        .ok bodies functions ∧
      List.Forall₂ (fun f g => f.Finishes g (m₁.context region) m.symbols) m.functions functions := by
  obtain ⟨plans, hplans⟩ := Module.plans_eq_ok_iff.mpr h.plan
  rcases Region.install_outcome m pass.width with ⟨-, region, m₁, hregion⟩ | ⟨hnot, -⟩
  · obtain ⟨bodies, functions, hsettle, hall⟩ := steps_of_install hregion hplaced htrusted hplans
    exact ⟨plans, region, m₁, bodies, functions, hplans, hregion, hsettle, hall⟩
  · exact absurd h.admits hnot

theorem Pass.run_succeeds (hplaced : ∀ f ∈ m.functions, f.Placed)
    (htrusted : ∀ f ∈ m.functions, f.Trusted m.symbols m.layout pass.width)
    (hverify : pass.verify = false) (h : m.Sandboxable) :
    ∃ report m', pass.run.run m = .ok report m' := by
  obtain ⟨plans, region, m₁, bodies, functions, hplans, hregion, hsettle, -⟩ :=
    steps_of_sandboxable pass hplaced htrusted h
  exact ⟨_, _, run_of_steps h.unflagged hplans hregion hsettle
    fun hv => absurd (hverify.symm.trans hv) Bool.false_ne_true⟩

/-- A run that succeeds completes every body. -/
theorem Pass.run_finishes (hplaced : ∀ f ∈ m.functions, f.Placed)
    (htrusted : ∀ f ∈ m.functions, f.Trusted m.symbols m.layout pass.width)
    (h : pass.run.run m = .ok report m') :
    ∃ cx, List.Forall₂ (fun f g => f.Finishes g cx m.symbols) m.functions m'.functions := by
  obtain ⟨plans, region, m₁, bodies, functions, hplans, hregion, hsettle, rfl, -⟩ := run_eq_ok h
  obtain ⟨bodies', functions', hsettle', hall⟩ := steps_of_install hregion hplaced htrusted hplans
  cases hsettle.symm.trans hsettle'
  exact ⟨m₁.context region, hall⟩

/-- Does a run fail, and leave a module that passes a check? -/
def Pass.fails (pass : Pass) (m : Module) (check : Module → Bool) : Bool :=
  match pass.run.run m with
  | .ok _ _ => false
  | .error _ m' => check m'

theorem Pass.run_of_fails {check : Module → Bool} (h : pass.fails m check = true) :
    ∃ e m', pass.run.run m = .error e m' ∧ check m' = true := by
  rw [fails] at h
  cases hrun : pass.run.run m with
  | ok report m' =>
    rw [hrun] at h
    cases h
  | error e m' =>
    rw [hrun] at h
    exact ⟨e, m', rfl, h⟩

end Pass

/-! ## Runs that fail -/

/-- A run that is not audited either succeeds or leaves the module as it was, as long as no counter
of what the accesses may remove is too low; the counters matter only where nothing stands against
the run. -/
theorem Pass.run_atomic {pass : Pass} {m m' : Module} {e : Error} (hm : m.Built)
    (htrusted : m.Sandboxable → ∀ f ∈ m.functions, f.Trusted m.symbols m.layout pass.width)
    (hverify : pass.verify = false) (h : pass.run.run m = .error e m') : m' = m := by
  by_cases hs : m.Sandboxable
  · obtain ⟨report, m'', hrun⟩ :=
      Pass.run_succeeds (fun f hf => (hm f hf).placed) (htrusted hs) hverify hs
    rw [hrun] at h
    cases h
  · obtain ⟨e', hrun⟩ := Pass.run_unsandboxable pass hs
    rw [hrun] at h
    cases h
    rfl

/-- The full width, one function after the other, without an audit. -/
def Pass.unaudited : Pass where
  width := .full
  parallel := false
  verify := false

/-- A module that exports a width already. -/
def takenModule : Module :=
  { foldedLoadModule with globals := [Width.full.global] }

example : ¬ takenModule.AdmitsRegion := by decide +kernel

theorem takenModule_unchanged : ∃ e m',
    Pass.unaudited.run.run takenModule = .error e m' ∧ m' = takenModule := by
  have hfails : Pass.unaudited.fails takenModule (fun _ => true) = true := by decide +kernel
  obtain ⟨e, m', hrun, -⟩ := Pass.run_of_fails hfails
  have hexact : ∀ f ∈ takenModule.functions, f.Exact := by decide +kernel
  exact ⟨e, m', hrun,
    Pass.run_atomic foldedLoadModule_built (fun _ f hf => (hexact f hf).trusted _ _ _) rfl hrun⟩

/-- A function whose second block reads, through an address that the first block computes and reads
through, and was written before it: the number of the address was still to be given out. -/
def earlyLoad : Func :=
  [.addBlock "entry",
    .addBlock "later",
    .append 1 (.load (.inst 2)) (.int 32),
    .append 0 (.binary .add (.arg 0) (.int 32 4)) (.int 32),
    .append 0 (.cast .inttoptr (.inst 1)) (.ptr (.int 32)),
    .append 0 (.load (.inst 2)) (.int 32),
    .append 0 (.br 1) .void,
    .append 1 (.ret none) .void].foldl Operation.apply
    (.declare "early" [.int 32] .void)

/-- A module of this function alone. -/
def earlyLoadModule : Module where
  name := "early"
  layout := {}
  functions := [earlyLoad]
  globals := []
  flags := []

/-- The access in the first block takes the address along, so the one in the second block is refused
when the first has been rewritten already. -/
theorem earlyLoadModule_changed : earlyLoadModule.Built ∧
    ∃ e m', Pass.unaudited.run.run earlyLoadModule = .error e m' ∧ m' ≠ earlyLoadModule := by
  have hfails : Pass.unaudited.fails earlyLoadModule (· ≠ earlyLoadModule) = true := by
    decide +kernel
  obtain ⟨e, m', hrun, hchanged⟩ := Pass.run_of_fails hfails
  exact ⟨Module.built_of_functions_eq rfl ((Func.Built.declare _ _ _).history _), e, m', hrun,
    of_decide_eq_true hchanged⟩

/-! ## Runs that succeed -/

/-- A run leaves no operand that names what is gone where there was none, as long as no counter of
what the accesses may remove is too low. -/
theorem Pass.run_closed {pass : Pass} {m m' : Module} {report : Report} (hm : m.Built)
    (htrusted : ∀ f ∈ m.functions, f.Trusted m.symbols m.layout pass.width)
    (hclosed : ∀ f ∈ m.functions, f.Closed) (h : pass.run.run m = .ok report m') :
    ∀ g ∈ m'.functions, g.Closed := by
  obtain ⟨cx, hall⟩ := Pass.run_finishes (fun f hf => (hm f hf).placed) htrusted h
  intro g hg
  obtain ⟨f, hf, hfinish⟩ := exists_mem_of_forall₂ hall g hg
  exact hfinish.upholds.closed (hclosed f hf)

/-- A loop that goes on in steps of 4 and reads 8 bytes ahead. The number of the next place was still to
be given out when the place came to be, so it is not counted there. -/
def lookahead : Func :=
  [.addBlock "entry",
    .addBlock "loop",
    .append 0 (.br 1) .void,
    .append 1 (.phi [(.arg 0, 0), (.inst 2, 1)]) (.int 32),
    .append 1 (.binary .add (.inst 1) (.int 32 4)) (.int 32),
    .append 1 (.binary .add (.inst 1) (.int 32 8)) (.int 32),
    .append 1 (.cast .inttoptr (.inst 3)) (.ptr (.int 32)),
    .append 1 (.load (.inst 4)) (.int 32),
    .append 1 (.br 1) .void].foldl Operation.apply
    (.declare "lookahead" [.int 32] .void)

/-- A module of this function alone. -/
def lookaheadModule : Module where
  name := "lookahead"
  layout := {}
  functions := [lookahead]
  globals := []
  flags := []

theorem lookaheadModule_closed : ¬ lookahead.Exact ∧ ∃ report m',
    Pass.default.run.run lookaheadModule = .ok report m' ∧ report.tally.removed = 2 ∧
      ∀ g ∈ m'.functions, g.Closed := by
  have hruns : Pass.default.succeeds lookaheadModule
      (fun report _ => report.tally.removed == 2) = true := by decide +kernel
  obtain ⟨report, m', hrun, hremoved⟩ := Pass.run_of_succeeds hruns
  have hbuilt : lookaheadModule.Built :=
    Module.built_of_functions_eq rfl ((Func.Built.declare _ _ _).history _)
  have htrusted : ∀ f ∈ lookaheadModule.functions,
      f.Trusted lookaheadModule.symbols lookaheadModule.layout Pass.default.width := by
    intro f hf
    rw [List.mem_singleton.mp hf]
    exact trusted_of_countsConversion (forall_inst?_of_all (by decide +kernel))
  exact ⟨by decide +kernel, report, m', hrun, eq_of_beq hremoved,
    Pass.run_closed hbuilt htrusted (by decide +kernel) hrun⟩

/-- A loop that reads at the place it goes on from. -/
def stride : Func :=
  [.addBlock "entry",
    .addBlock "loop",
    .append 0 (.br 1) .void,
    .append 1 (.phi [(.arg 0, 0), (.inst 2, 1)]) (.int 32),
    .append 1 (.binary .add (.inst 1) (.int 32 4)) (.int 32),
    .append 1 (.cast .inttoptr (.inst 2)) (.ptr (.int 32)),
    .append 1 (.load (.inst 3)) (.int 32),
    .append 1 (.br 1) .void].foldl Operation.apply
    (.declare "stride" [.int 32] .void)

/-- A module of this function alone. -/
def strideModule : Module where
  name := "stride"
  layout := {}
  functions := [stride]
  globals := []
  flags := []

/-- The place to go on from is removed, though the loop reads it, and the audit does not object. -/
theorem strideModule_dangles : strideModule.Built ∧ (∀ f ∈ strideModule.functions, f.Closed) ∧
    ∃ report m', Pass.default.run.run strideModule = .ok report m' ∧
      ¬ ∀ g ∈ m'.functions, g.Closed := by
  have hruns : Pass.default.succeeds strideModule
      (fun _ m' => ¬ ∀ g ∈ m'.functions, g.Closed) = true := by decide +kernel
  obtain ⟨report, m', hrun, hdangles⟩ := Pass.run_of_succeeds hruns
  exact ⟨Module.built_of_functions_eq rfl ((Func.Built.declare _ _ _).history _),
    by decide +kernel, report, m', hrun, of_decide_eq_true hdangles⟩

/-- With exact counters, a run that is not audited succeeds exactly when nothing stands against it,
and leaves functions that are placed, have exact counters, and read nothing that is gone if they did
not before. -/
theorem Pass.run_progress {pass : Pass} {m : Module} (hverify : pass.verify = false)
    (hplaced : ∀ f ∈ m.functions, f.Placed) (hexact : ∀ f ∈ m.functions, f.Exact) :
    ((∃ report m', pass.run.run m = .ok report m') ↔ m.Sandboxable) ∧
      ∀ report m', pass.run.run m = .ok report m' →
        List.Forall₂ (fun f g => g.Placed ∧ g.Exact ∧ (f.Closed → g.Closed))
          m.functions m'.functions := by
  have htrusted : ∀ f ∈ m.functions, f.Trusted m.symbols m.layout pass.width := fun f hf =>
    (hexact f hf).trusted _ _ _
  refine ⟨⟨?_, Pass.run_succeeds hplaced htrusted hverify⟩, ?_⟩
  · rintro ⟨report, m', hrun⟩
    by_contra hnot
    obtain ⟨e, herror⟩ := Pass.run_unsandboxable pass hnot
    rw [hrun] at herror
    cases herror
  · intro report m' hrun
    obtain ⟨cx, hall⟩ := Pass.run_finishes hplaced htrusted hrun
    have hbefore : ∀ f ∈ m.functions, f.Placed ∧ f.Exact := fun f hf => ⟨hplaced f hf, hexact f hf⟩
    refine ((List.forall₂_and_left _ _).mpr ⟨hbefore, hall⟩).imp fun f g hfg => ?_
    obtain ⟨⟨hp, he⟩, hfinish⟩ := hfg
    have hup := hfinish.upholds
    exact ⟨hup.placed hp, hup.exact he, hup.closed⟩

theorem foldedLoadModule_progress : foldedLoadModule.Sandboxable ∧ ∃ report m',
    Pass.unaudited.run.run foldedLoadModule = .ok report m' ∧
      List.Forall₂ (fun f g => g.Placed ∧ g.Exact ∧ (f.Closed → g.Closed))
        foldedLoadModule.functions m'.functions := by
  have hverify : Pass.unaudited.verify = false := rfl
  have hplaced : ∀ f ∈ foldedLoadModule.functions, f.Placed := fun f hf =>
    (foldedLoadModule_built f hf).placed
  obtain ⟨hiff, hkept⟩ := Pass.run_progress hverify hplaced (by decide +kernel)
  have hruns : Pass.unaudited.succeeds foldedLoadModule (fun _ _ => true) = true := by
    decide +kernel
  obtain ⟨report, m', hrun, -⟩ := Pass.run_of_succeeds hruns
  exact ⟨hiff.mp ⟨report, m', hrun⟩, report, m', hrun, hkept report m' hrun⟩

end Confinement
