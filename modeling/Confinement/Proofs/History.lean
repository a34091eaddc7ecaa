import Confinement.Proofs.Outcome

/-!
# Histories of a module

A module is worked on by calls: runs of the pass, new functions, new symbols, flags, and requests to
edit one of its functions. Served or refused, no call takes a flag or a symbol away (`Call.extends`).
A run that finds nothing against it defines the constant of the width before anything else, and a
module that has this constant, or the flag of a sandboxed module, is left alone by every later run
(`Module.Spent`). So at most one run of a history changes the module, however it ends, and after one
that succeeded every other is refused (`Module.runs_once`).
-/

set_option autoImplicit false

namespace Confinement

/-! ## What a program leaves -/

/-- The module that a program leaves, be it served or refused. -/
def Module.leftBy {ε α : Type} (m : Module) (action : EStateM ε Module α) : Module :=
  match action.run m with
  | .ok _ m' => m'
  | .error _ m' => m'

/-- One module has everything that another has: its flags, and its symbols in front of other ones. -/
structure Module.Extends (m m' : Module) : Prop where
  flags : m.flags ⊆ m'.flags
  globals : m.globals <+: m'.globals

namespace Module

variable {m m' m'' : Module} {ε α β : Type}

theorem leftBy_of_ok {action : EStateM ε Module α} {a : α} (h : action.run m = .ok a m') :
    m.leftBy action = m' := by
  rw [leftBy, h]

theorem leftBy_of_error {action : EStateM ε Module α} {e : ε} (h : action.run m = .error e m') :
    m.leftBy action = m' := by
  rw [leftBy, h]

theorem leftBy_bind_of_ok {action : EStateM ε Module α} {next : α → EStateM ε Module β} {a : α}
    (h : action.run m = .ok a m') : m.leftBy (action >>= next) = m'.leftBy (next a) := by
  rw [leftBy, EStateM.run_bind, h]
  rfl

theorem leftBy_bind_of_error {action : EStateM ε Module α} {next : α → EStateM ε Module β} {e : ε}
    (h : action.run m = .error e m') : m.leftBy (action >>= next) = m' := by
  rw [leftBy, EStateM.run_bind, h]

theorem Extends.refl (m : Module) : m.Extends m :=
  ⟨List.Subset.refl _, List.prefix_refl _⟩

theorem Extends.trans (h : m.Extends m') (h' : m'.Extends m'') : m.Extends m'' :=
  ⟨List.Subset.trans h.flags h'.flags, h.globals.trans h'.globals⟩

/-- Flags stay. -/
theorem Extends.hasFlag (h : m.Extends m') {flag : String} (hflag : m.hasFlag flag = true) :
    m'.hasFlag flag = true := by
  rw [Module.hasFlag, decide_eq_true_eq] at hflag ⊢
  exact h.flags hflag

/-- Names stay defined. -/
theorem Extends.globalNamed? (h : m.Extends m') {name : String}
    (hname : (m.globalNamed? name).isSome) : (m'.globalNamed? name).isSome := by
  rw [Module.globalNamed?, List.findIdx?_isSome, List.any_eq_true] at hname ⊢
  obtain ⟨g, hg, hgname⟩ := hname
  exact ⟨g, h.globals.subset hg, hgname⟩

theorem extends_setFlag (m : Module) (flag : String) : m.Extends (m.setFlag flag) :=
  ⟨fun _ h => List.mem_insert_of_mem h, List.prefix_refl _⟩

end Module

/-! ## Programs that take nothing away -/

/-- A program leaves a module that has everything that it started from. -/
def Extending {ε α : Type} (action : EStateM ε Module α) : Prop :=
  ∀ m : Module, m.Extends (m.leftBy action)

namespace Extending

variable {ε ε' α β : Type}

theorem bind {action : EStateM ε Module α} {next : α → EStateM ε Module β} (h : Extending action)
    (hnext : ∀ a, Extending (next a)) : Extending (action >>= next) := by
  intro m
  have hm := h m
  cases hrun : action.run m with
  | ok a m' =>
    rw [Module.leftBy_of_ok hrun] at hm
    rw [Module.leftBy_bind_of_ok hrun]
    exact hm.trans (hnext a m')
  | error e m' =>
    rw [Module.leftBy_of_error hrun] at hm
    rw [Module.leftBy_bind_of_error hrun]
    exact hm

theorem pure (a : α) : Extending (pure a : EStateM ε Module α) := fun m => .refl m

theorem get : Extending (get : EStateM ε Module Module) := fun m => .refl m

theorem ofExcept (result : Except ε α) : Extending (ofExcept result : EStateM ε Module α) := by
  intro m
  cases result <;> exact .refl m

theorem adaptExcept {action : EStateM ε Module α} (h : Extending action) (change : ε → ε') :
    Extending (action.adaptExcept change) := by
  intro m
  have hm := h m
  rw [Module.leftBy, EStateM.run_adaptExcept]
  rw [Module.leftBy] at hm
  cases hrun : action.run m with
  | ok a m' =>
    rw [hrun] at hm
    exact hm
  | error e m' =>
    rw [hrun] at hm
    exact hm

theorem setFlag (flag : String) :
    Extending (modify (·.setFlag flag) : EStateM ε Module PUnit) := fun m => m.extends_setFlag flag

end Extending

theorem Linking.addFunction_extending (f : Func) : Extending (addFunction f) := fun _ =>
  ⟨List.Subset.refl _, List.prefix_refl _⟩

theorem Linking.addGlobal_extending (g : Global) : Extending (addGlobal g) := by
  intro m
  cases hname : m.globalNamed? g.name with
  | none =>
    rw [Module.leftBy_of_ok (addGlobal_eq hname)]
    exact ⟨List.Subset.refl _, List.prefix_append _ _⟩
  | some id =>
    have hrefused : (addGlobal g).run m = .error { name := g.name, cause := .alreadyDefined } m := by
      rw [addGlobal]
      rw [run_get_bind, hname]
      rfl
    rw [Module.leftBy_of_error hrefused]
    exact .refl m

theorem Linking.globalOfType_extending (name : String) (ty : Ty) :
    Extending (globalOfType name ty) := by
  rw [globalOfType]
  refine Extending.get.bind fun m => ?_
  split
  · exact addGlobal_extending _
  · split
    · exact .pure _
    · exact .ofExcept (.error _)

/-- Confining bodies changes nothing but functions. -/
theorem Module.confineBodies_extending (cx : Context) (parallel : Bool) (plans : List Plan) :
    Extending (confineBodies cx parallel plans) := by
  intro m
  unfold leftBy confineBodies
  simp only [EStateM.run]
  cases settle (m.functions.zip (cx.outcomes parallel (m.functions.zip plans))) with
  | ok bodies functions => exact ⟨List.Subset.refl _, List.prefix_refl _⟩
  | error fault functions => exact ⟨List.Subset.refl _, List.prefix_refl _⟩

/-- Behind the definition of the symbols of its region, a run takes nothing away. -/
theorem Pass.extends_of_sandboxable (pass : Pass) {m : Module} (h : m.Sandboxable) :
    ∃ region m₁, (Region.install pass.width).run m = .ok region m₁ ∧
      m₁.Extends (m.leftBy pass.run) := by
  obtain ⟨plans, hplans⟩ := Module.plans_eq_ok_iff.mpr h.plan
  rcases Region.install_outcome m pass.width with ⟨-, region, m₁, hregion⟩ | ⟨hnot, -⟩
  · refine ⟨region, m₁, hregion, ?_⟩
    have hadapted := run_adaptExcept_eq_ok (g := Error.conflict) |>.mpr hregion
    have hget : (get : Sandboxing Module).run m = .ok m m := rfl
    rw [Pass.run]
    rw [Module.leftBy_bind_of_ok hget]
    simp only [h.unflagged, Bool.false_eq_true, if_false]
    rw [Module.leftBy_bind_of_ok (run_ofExcept_eq_ok.mpr ⟨hplans, rfl⟩),
      Module.leftBy_bind_of_ok hadapted]
    refine Extending.bind .get (fun m₂ => ?_) m₁
    refine .bind ((Module.confineBodies_extending _ _ _).adaptExcept _) fun bodies => ?_
    refine .bind (.setFlag _) fun _ => ?_
    split
    · exact .bind .get fun m₃ => .bind (.ofExcept _) fun _ => .pure _
    · exact .pure _
  · exact absurd h.admits hnot

/-- The symbols of a region come behind those of the module. -/
theorem Region.install_extends {m m' : Module} {width : Width} {region : Region}
    (h : (Region.install width).run m = .ok region m') : m.Extends m' := by
  obtain ⟨m₁, hbase, hsize, -⟩ := install_steps h
  have h₁ := Linking.globalOfType_extending baseSymbol (.int 64) m
  rw [Module.leftBy_of_ok hbase] at h₁
  have h₂ := Linking.addGlobal_extending width.global m₁
  rw [Module.leftBy_of_ok hsize] at h₂
  exact h₁.trans h₂

theorem Pass.run_extending (pass : Pass) : Extending pass.run := by
  intro m
  by_cases h : m.Sandboxable
  · obtain ⟨region, m₁, hregion, hrest⟩ := pass.extends_of_sandboxable h
    exact (Region.install_extends hregion).trans hrest
  · obtain ⟨e, hrun⟩ := pass.run_unsandboxable h
    rw [Module.leftBy_of_error hrun]
    exact .refl m

/-! ## Calls -/

/-- A call on a module. -/
inductive Call where
  | run (pass : Pass)
  | addFunction (f : Func)
  | addGlobal (g : Global)
  | globalOfType (name : String) (ty : Ty)
  | setFlag (flag : String)
  | edit (id : FuncId) (op : Operation)
  deriving DecidableEq

/-- The module that a call leaves, be it served or refused. -/
def Call.apply (m : Module) : Call → Module
  | .run pass => m.leftBy pass.run
  | .addFunction f => m.leftBy (Linking.addFunction f)
  | .addGlobal g => m.leftBy (Linking.addGlobal g)
  | .globalOfType name ty => m.leftBy (Linking.globalOfType name ty)
  | .setFlag flag => m.setFlag flag
  | .edit id op => { m with functions := m.functions.modify id op.apply }

/-- The module that calls leave, one after the other. -/
def Module.after (m : Module) (calls : List Call) : Module :=
  calls.foldl Call.apply m

/-- A run of the pass in a history, with the module that it is made on. -/
structure Attempt where
  before : Module
  pass : Pass
  deriving DecidableEq

namespace Attempt

/-- Does the run change the module? -/
def changes (attempt : Attempt) : Bool :=
  attempt.before.leftBy attempt.pass.run ≠ attempt.before

/-- The run returns a report. -/
def Succeeds (attempt : Attempt) : Prop :=
  ∃ report m', attempt.pass.run.run attempt.before = .ok report m'

/-- The run returns that the module is sandboxed already, and leaves it alone. -/
def Refused (attempt : Attempt) : Prop :=
  attempt.pass.run.run attempt.before =
    .error (.alreadySandboxed attempt.before.name) attempt.before

end Attempt

/-- The run that a call makes, if it makes one. -/
def Call.attempt? (m : Module) : Call → Option Attempt
  | .run pass => some { before := m, pass }
  | _ => none

/-- The runs of a history, in order. -/
def Module.attempts (m : Module) : List Call → List Attempt
  | [] => []
  | call :: calls => (call.attempt? m).toList ++ (call.apply m).attempts calls

/-- A call takes nothing away. -/
theorem Call.extends (call : Call) (m : Module) : m.Extends (call.apply m) := by
  cases call with
  | run pass => exact pass.run_extending m
  | addFunction f => exact Linking.addFunction_extending f m
  | addGlobal g => exact Linking.addGlobal_extending g m
  | globalOfType name ty => exact Linking.globalOfType_extending name ty m
  | setFlag flag => exact m.extends_setFlag flag
  | edit id op => exact ⟨List.Subset.refl _, List.prefix_refl _⟩

namespace Module

variable {m : Module} {calls : List Call} {attempt : Attempt}

theorem extends_after (m : Module) (calls : List Call) : m.Extends (m.after calls) := by
  induction calls generalizing m with
  | nil => exact .refl m
  | cons call calls ih => exact (call.extends m).trans (ih (call.apply m))

/-- A run of a history is one of its calls, made on the module that the calls before it left. -/
theorem before_of_mem_attempts (h : attempt ∈ m.attempts calls) : ∃ earlier later,
    calls = earlier ++ .run attempt.pass :: later ∧ attempt.before = m.after earlier := by
  induction calls generalizing m with
  | nil => cases h
  | cons call calls ih =>
    rcases List.mem_append.mp h with hhere | hlater
    · cases call with
      | run pass =>
        obtain rfl := List.mem_singleton.mp hhere
        exact ⟨[], calls, rfl, rfl⟩
      | _ => cases hhere
    · obtain ⟨earlier, later, rfl, hbefore⟩ := ih hlater
      exact ⟨call :: earlier, later, rfl, hbefore⟩

/-- The module of a run has everything that the history started from. -/
theorem extends_before (h : attempt ∈ m.attempts calls) : m.Extends attempt.before := by
  obtain ⟨earlier, -, -, hbefore⟩ := before_of_mem_attempts h
  exact hbefore ▸ m.extends_after earlier

end Module

/-! ## Runs -/

/-- No run changes the module any more: it is sandboxed, or its width is defined. -/
def Module.Spent (m : Module) : Prop :=
  m.hasFlag sandboxedFlag = true ∨ (m.globalNamed? widthSymbol).isSome

namespace Module

variable {m m' : Module}

theorem Spent.extends (hm : m.Spent) (h : m.Extends m') : m'.Spent :=
  hm.imp h.hasFlag h.globalNamed?

theorem Spent.not_sandboxable (hm : m.Spent) : ¬ m.Sandboxable := by
  intro h
  rcases hm with hflag | hname
  · rw [h.unflagged] at hflag
    cases hflag
  · rw [h.admits.1] at hname
    cases hname

/-- What stands against a run keeps it from changing the module. -/
theorem leftBy_run_of_unsandboxable (pass : Pass) (h : ¬ m.Sandboxable) :
    m.leftBy pass.run = m := by
  obtain ⟨e, hrun⟩ := pass.run_unsandboxable h
  exact leftBy_of_error hrun

/-- A run that finds nothing against it leaves no second one. -/
theorem spent_of_sandboxable (pass : Pass) (h : m.Sandboxable) : (m.leftBy pass.run).Spent := by
  obtain ⟨region, m₁, hregion, hrest⟩ := pass.extends_of_sandboxable h
  have hnamed : m₁.Spent := Or.inr (by rw [Region.install_named hregion]; rfl)
  exact hnamed.extends hrest

/-- Once no run changes the module any more, no run of any history does. -/
theorem Spent.changes_eq_false (hm : m.Spent) {calls : List Call} {attempt : Attempt}
    (h : attempt ∈ m.attempts calls) : attempt.changes = false := by
  have hbefore := hm.extends (extends_before h)
  exact decide_eq_false fun hne =>
    hne (leftBy_run_of_unsandboxable attempt.pass hbefore.not_sandboxable)

theorem Spent.countP_changes (hm : m.Spent) (calls : List Call) :
    (m.attempts calls).countP (·.changes) = 0 := by
  rw [List.countP_eq_zero]
  intro attempt h
  rw [hm.changes_eq_false h]
  exact Bool.false_ne_true

/-- Once the module is sandboxed, every run is refused. -/
theorem refused_of_hasFlag (hm : m.hasFlag sandboxedFlag = true) {calls : List Call}
    {attempt : Attempt} (h : attempt ∈ m.attempts calls) : attempt.Refused :=
  Pass.run_flagged ((extends_before h).hasFlag hm)

/-- A run that succeeds flags the module. -/
theorem hasFlag_of_run {pass : Pass} {report : Report} (h : pass.run.run m = .ok report m') :
    m'.hasFlag sandboxedFlag = true := by
  obtain ⟨-, -, m₁, -, functions, -, -, -, rfl, -⟩ := Pass.run_eq_ok h
  exact (hasFlag_setFlag _ _ _).mpr (Or.inl rfl)

/-- In every history at most one run changes the module, however it ends, and behind a run that
succeeds every other is refused. -/
theorem runs_once (m : Module) (calls : List Call) :
    (m.attempts calls).countP (·.changes) ≤ 1 ∧
      (m.attempts calls).Pairwise fun first later => first.Succeeds → later.Refused := by
  induction calls generalizing m with
  | nil => exact ⟨Nat.zero_le 1, .nil⟩
  | cons call calls ih =>
    obtain ⟨hcount, hpairs⟩ := ih (call.apply m)
    cases hcall : call.attempt? m with
    | none =>
      rw [attempts, hcall]
      exact ⟨hcount, hpairs⟩
    | some attempt =>
      obtain ⟨pass, rfl, rfl⟩ : ∃ pass, call = .run pass ∧ attempt = { before := m, pass } := by
        cases call with
        | run pass => exact ⟨pass, rfl, (Option.some.inj hcall).symm⟩
        | _ => cases hcall
      rw [attempts, hcall]
      refine ⟨?_, List.pairwise_cons.mpr ⟨?_, hpairs⟩⟩
      · rw [Option.toList_some, List.singleton_append, List.countP_cons]
        split
        · next hchanges =>
          -- a run has changed the module, so nothing stood against it, and no other run will
          have hs : m.Sandboxable := by
            by_contra hnot
            exact of_decide_eq_true hchanges (leftBy_run_of_unsandboxable pass hnot)
          have hspent : (Call.apply m (.run pass)).Spent := spent_of_sandboxable pass hs
          rw [hspent.countP_changes]
        · exact hcount
      · rintro later hlater ⟨report, m', hrun⟩
        have hafter : Call.apply m (.run pass) = m' := leftBy_of_ok hrun
        exact refused_of_hasFlag (hafter ▸ hasFlag_of_run hrun) hlater

end Module

/-- A run that fails half-way, behind which nothing is changed. -/
example : (earlyLoadModule.attempts [.run .unaudited, .setFlag "noted", .run .narrow]).map
    (·.changes) = [true, false] := by
  decide +kernel

end Confinement
