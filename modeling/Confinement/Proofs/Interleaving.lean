import Confinement.Proofs.Outcome
import Confinement.Proofs.Stepwise
import Mathlib.Algebra.BigOperators.Group.List.Basic

/-!
# Functions confined in turns

The functions of a module may be confined in turns: each turn does the next chore of one function, on
the module as the other turns have left it (`Workshop.turn`). A turn reads and writes one function and
what is known of the base there, so every function sees its own chores only, in their order
(`Workshop.turn_reaches`). Whatever the turns are, they end in the module and in the count of a run
that goes through the functions one after the other (`Pass.run_interleaved`).
-/

set_option autoImplicit false

namespace Confinement

open Func

/-! ## Turns -/

/-- The turn of a function. -/
structure Turn where
  /-- The function. -/
  func : FuncId
  /-- What is done. -/
  chore : Chore
  deriving DecidableEq

/-- The chores of one function in a schedule. -/
def choresOf (schedule : List Turn) (func : FuncId) : List Chore :=
  (schedule.filter (·.func = func)).map (·.chore)

/-- A schedule does the chores of several plans, those of each plan in order and nothing else. -/
structure Interleaves (schedule : List Turn) (plans : List Plan) : Prop where
  known : ∀ turn ∈ schedule, turn.func < plans.length
  own : ∀ func plan, plans[func]? = some plan →
    choresOf schedule func = plan.flatMap Planned.chores

instance (schedule : List Turn) (plans : List Plan) : Decidable (Interleaves schedule plans) :=
  decidable_of_iff ((∀ turn ∈ schedule, turn.func < plans.length) ∧
      ∀ func : Fin plans.length, choresOf schedule func = plans[func].flatMap Planned.chores)
    ⟨fun ⟨hknown, hown⟩ => ⟨hknown, fun func plan hplan => by
      obtain ⟨hlt, rfl⟩ := List.getElem?_eq_some_iff.mp hplan
      exact hown ⟨func, hlt⟩⟩,
    fun h => ⟨h.known, fun func => h.own func _ (List.getElem?_eq_getElem func.isLt)⟩⟩

/-- A module whose functions are being confined, each with a load of the base of its own. -/
structure Workshop where
  /-- The module as it stands. -/
  module : Module
  /-- What is known about the base in each function. -/
  caches : List BaseCache
  /-- What was done so far. -/
  tally : Tally
  deriving DecidableEq

namespace Workshop

/-- Nothing is done yet. -/
def start (region : Region) (m : Module) : Workshop where
  module := m
  caches := m.functions.map fun _ => .start region.memoryBase
  tally := 0

/-- A function with its load of the base. -/
def draft? (w : Workshop) (func : FuncId) : Option Draft := do
  let f ← w.module.functions[func]?
  let base ← w.caches[func]?
  return { func := f, base }

/-- The function has become another one. -/
def put (w : Workshop) (func : FuncId) (d : Draft) : Workshop :=
  { w with
    module := { w.module with functions := w.module.functions.set func d.func }
    caches := w.caches.set func d.base }

/-- Does the next chore of one function. -/
def turn (cx : Context) (turn : Turn) : EStateM Fault Workshop Unit := fun w =>
  match w.draft? turn.func with
  | none => .error (.unknownFunction turn.func) w
  | some d =>
    match turn.chore.perform cx d with
    | .ok here e => .ok () { w.put turn.func e with tally := w.tally + here }
    | .error fault e => .error fault (w.put turn.func e)

/-- Works through a schedule. -/
def carryOut (cx : Context) : List Turn → EStateM Fault Workshop Unit
  | [] => return ()
  | next :: schedule => do
    turn cx next
    carryOut cx schedule

/-- What is reported when all is done on the functions of a module. -/
def report (w : Workshop) (width : Width) (m : Module) : Report where
  width := width
  functions := m.functions.countP (! ·.isDeclaration)
  baseLoads := w.caches.countP (·.loaded.isSome)
  tally := w.tally

/-! ## Where the functions get to -/

variable {cx : Context} {w : Workshop} {next : Turn} {schedule : List Turn} {ends : List Draft}
  {tallies : List Tally} {func : FuncId} {d : Draft}

theorem draft?_eq_some_iff : w.draft? func = some d ↔
    w.module.functions[func]? = some d.func ∧ w.caches[func]? = some d.base := by
  obtain ⟨f, base⟩ := d
  simp only [draft?, Option.bind_eq_bind, Option.bind_eq_some_iff, Option.pure_def,
    Option.some.injEq, Draft.mk.injEq]
  constructor
  · rintro ⟨f', hf, base', hbase, rfl, rfl⟩
    exact ⟨hf, hbase⟩
  · rintro ⟨hf, hbase⟩
    exact ⟨f, hf, base, hbase, rfl, rfl⟩

/-- A turn is seen by its own function. -/
theorem draft?_put {e : Draft} (hd : w.draft? func = some d) (other : FuncId) :
    (w.put func e).draft? other = if other = func then some e else w.draft? other := by
  obtain ⟨hf, hbase⟩ := draft?_eq_some_iff.mp hd
  have hflt := (List.getElem?_eq_some_iff.mp hf).1
  have hblt := (List.getElem?_eq_some_iff.mp hbase).1
  by_cases he : other = func
  · subst he
    simp [draft?, put, hflt, hblt]
  · simp [draft?, put, he, Ne.symm he]

/-- When each function does its chores of a schedule, they get to `ends` by the work `tallies`. -/
structure Reaches (cx : Context) (schedule : List Turn) (tallies : List Tally) (ends : List Draft)
    (w : Workshop) : Prop where
  functions : w.module.functions.length = ends.length
  caches : w.caches.length = ends.length
  counted : tallies.length = ends.length
  known : ∀ turn ∈ schedule, turn.func < ends.length
  each : ∀ func d tally e, w.draft? func = some d → tallies[func]? = some tally →
    ends[func]? = some e → (Drafting.performAll cx (choresOf schedule func)).run d = .ok tally e

theorem Reaches.exists_draft? (hw : Reaches cx schedule tallies ends w) (hlt : func < ends.length) :
    ∃ d, w.draft? func = some d := by
  have hf : func < w.module.functions.length := hw.functions ▸ hlt
  have hbase : func < w.caches.length := hw.caches ▸ hlt
  exact ⟨⟨w.module.functions[func], w.caches[func]⟩,
    draft?_eq_some_iff.mpr ⟨List.getElem?_eq_getElem hf, List.getElem?_eq_getElem hbase⟩⟩

/-- What one function has done is counted once. -/
theorem sum_eq_add_sum_set {tallies : List Tally} {func : Nat} {here rest : Tally}
    (h : tallies[func]? = some (here + rest)) :
    tallies.sum = here + (tallies.set func rest).sum := by
  induction tallies generalizing func with
  | nil => cases h
  | cons tally tallies ih =>
    cases func with
    | zero =>
      cases h
      rw [List.set_cons_zero, List.sum_cons, List.sum_cons, add_assoc]
    | succ func =>
      rw [List.set_cons_succ, List.sum_cons, List.sum_cons, ih h, add_left_comm]

/-- A turn succeeds, and every function still gets to where it would. -/
theorem turn_reaches (hw : Reaches cx (next :: schedule) tallies ends w) :
    ∃ here rest w', (turn cx next).run w = .ok () w' ∧
      tallies[next.func]? = some (here + rest) ∧ w'.tally = w.tally + here ∧
      w'.module = { w.module with functions := w'.module.functions } ∧
      Reaches cx schedule (tallies.set next.func rest) ends w' := by
  have hlt := hw.known next List.mem_cons_self
  obtain ⟨d, hd⟩ := hw.exists_draft? hlt
  obtain ⟨total, htotal⟩ : ∃ total, tallies[next.func]? = some total :=
    ⟨_, List.getElem?_eq_getElem (hw.counted ▸ hlt)⟩
  obtain ⟨e, he⟩ : ∃ e, ends[next.func]? = some e := ⟨_, List.getElem?_eq_getElem hlt⟩
  -- the chore of this turn is the first that the function has left to do
  have hchores : choresOf (next :: schedule) next.func =
      next.chore :: choresOf schedule next.func := by
    simp [choresOf]
  have hothers : ∀ other, other ≠ next.func →
      choresOf (next :: schedule) other = choresOf schedule other := by
    intro other hne
    simp [choresOf, Ne.symm hne]
  have hrun := hw.each next.func d total e hd htotal he
  rw [hchores] at hrun
  obtain ⟨here, u, rest, hhere, hrest, rfl⟩ := Drafting.performAll_cons_eq_ok.mp hrun
  refine ⟨here, rest, { w.put next.func u with tally := w.tally + here }, ?_, htotal, rfl, rfl, ?_⟩
  · change turn cx next w = _
    change next.chore.perform cx d = _ at hhere
    rw [turn, hd]
    simp only [hhere]
  refine { functions := ?_, caches := ?_, counted := ?_, known := ?_, each := ?_ }
  · exact List.length_set.trans hw.functions
  · exact List.length_set.trans hw.caches
  · exact List.length_set.trans hw.counted
  · exact (List.forall_mem_cons.mp hw.known).2
  · intro func d' tally e' hd' htally he'
    change (w.put next.func u).draft? func = some d' at hd'
    rw [draft?_put hd] at hd'
    by_cases hself : func = next.func
    · subst hself
      rw [if_pos rfl] at hd'
      rw [List.getElem?_set_self (hw.counted ▸ hlt)] at htally
      cases hd'
      cases htally
      cases he.symm.trans he'
      exact hrest
    · rw [if_neg hself] at hd'
      rw [List.getElem?_set_ne (Ne.symm hself)] at htally
      rw [← hothers func hself]
      exact hw.each func d' tally e' hd' htally he'

/-- A list is the image of another one when its entries are. -/
theorem eq_map_of_getElem? {α β : Type} {l : List β} {l' : List α} {image : α → β}
    (hlength : l.length = l'.length)
    (h : ∀ (i : Nat) (a : α), l'[i]? = some a → l[i]? = some (image a)) :
    l = l'.map image := by
  refine List.ext_getElem? fun i => ?_
  rw [List.getElem?_map]
  cases ha : l'[i]? with
  | none => exact List.getElem?_eq_none (hlength ▸ List.getElem?_eq_none_iff.mp ha)
  | some a => exact h i a ha

/-- When nothing is left to do, every function is where it gets to. -/
theorem Reaches.done (hw : Reaches cx [] tallies ends w) :
    w.module.functions = ends.map (·.func) ∧ w.caches = ends.map (·.base) ∧ tallies.sum = 0 := by
  have hat : ∀ func e tally, ends[func]? = some e → tallies[func]? = some tally →
      w.draft? func = some e ∧ tally = 0 := by
    intro func e tally he htally
    obtain ⟨d, hd⟩ := hw.exists_draft? (List.getElem?_eq_some_iff.mp he).1
    obtain ⟨rfl, rfl⟩ := run_pure_eq_ok.mp (hw.each func d tally e hd htally he)
    exact ⟨hd, rfl⟩
  have hplace : ∀ func e, ends[func]? = some e → w.draft? func = some e := by
    intro func e he
    have hlt : func < tallies.length := hw.counted ▸ (List.getElem?_eq_some_iff.mp he).1
    exact (hat func e _ he (List.getElem?_eq_getElem hlt)).1
  refine ⟨eq_map_of_getElem? hw.functions fun func e he => ?_,
    eq_map_of_getElem? hw.caches fun func e he => ?_, List.sum_eq_zero fun tally htally => ?_⟩
  · exact (draft?_eq_some_iff.mp (hplace func e he)).1
  · exact (draft?_eq_some_iff.mp (hplace func e he)).2
  · obtain ⟨func, htally⟩ := List.mem_iff_getElem?.mp htally
    have hlt : func < ends.length := hw.counted ▸ (List.getElem?_eq_some_iff.mp htally).1
    exact (hat func _ tally (List.getElem?_eq_getElem hlt) htally).2

/-- Turn after turn, every function gets to where its own chores take it. -/
theorem carryOut_reaches (hw : Reaches cx schedule tallies ends w) :
    ∃ w', (carryOut cx schedule).run w = .ok () w' ∧
      w'.module = { w.module with functions := ends.map (·.func) } ∧
      w'.caches = ends.map (·.base) ∧ w'.tally = w.tally + tallies.sum := by
  induction schedule generalizing w tallies with
  | nil =>
    obtain ⟨hfunctions, hcaches, hsum⟩ := hw.done
    refine ⟨w, rfl, ?_, hcaches, ?_⟩
    · rw [← hfunctions]
    · rw [hsum, add_zero]
  | cons next schedule ih =>
    obtain ⟨here, rest, u, hturn, htotal, htally, hmodule, hu⟩ := turn_reaches hw
    obtain ⟨w', hrun, hmodule', hcaches, htally'⟩ := ih hu
    refine ⟨w', run_bind_eq_ok.mpr ⟨(), u, hturn, hrun⟩, ?_, hcaches, ?_⟩
    · rw [hmodule', hmodule]
    · rw [htally', htally, sum_eq_add_sum_set htotal, add_assoc]

end Workshop

/-! ## Functions one after the other -/

section Bodies

variable {cx : Context} {symbols : SymbolTable} {f g : Func} {plan : Plan}

/-- A function that is confined by its plan, or left alone, has done the chores of the plan; a
declaration has none. -/
theorem Context.outcome_performs {body : Option BodyTally} (hplan : f.plan symbols = .ok plan)
    (h : cx.outcome f plan = .ok body g) :
    ∃ tally e, (Drafting.performAll cx (plan.flatMap Planned.chores)).run
        { func := f, base := .start cx.region.memoryBase } = .ok tally e ∧ g = e.func ∧
      ((f.isDeclaration = true ∧ body = none ∧ tally = 0 ∧ e.base.loaded = none) ∨
        (f.isDeclaration = false ∧
          body = some { tally, loadedBase := e.base.loaded.isSome })) := by
  rw [outcome] at h
  cases hdecl : f.isDeclaration with
  | true =>
    rw [hdecl, if_pos rfl] at h
    cases h
    -- a declaration lists nothing, so nothing is planned
    obtain ⟨-, rfl⟩ := plan_eq_ok_iff.mp hplan
    rw [Func.order, isDeclaration_iff.mp hdecl]
    exact ⟨0, _, rfl, rfl, Or.inl ⟨rfl, rfl, rfl, rfl⟩⟩
  | false =>
    rw [hdecl, if_neg Bool.false_ne_true] at h
    obtain ⟨found, hrun, rfl⟩ := Edit.run_map_eq_ok.mp h
    obtain ⟨e, hperform, hg, hloaded⟩ := Edit.confineBody_performs hplan hrun
    refine ⟨found.tally, e, hperform, hg, Or.inr ⟨rfl, ?_⟩⟩
    rw [← hloaded]

/-- Functions that are all confined by their plans have done the chores of these, and are reported
with the sum of what was done. -/
theorem settle_performs {fs : List Func} {plans : List Plan}
    (hplans : List.Forall₂ (fun f plan => f.plan symbols = .ok plan) fs plans)
    (hok : ∀ entry ∈ fs.zip plans, ∃ body g, cx.outcome entry.1 entry.2 = .ok body g)
    (width : Width) :
    ∃ bodies, ∃ done : List (Tally × Draft),
      settle (fs.zip (cx.outcomes false (fs.zip plans))) = .ok bodies (done.map (·.2.func)) ∧
      List.Forall₂ (fun entry made => (Drafting.performAll cx (entry.2.flatMap Planned.chores)).run
        { func := entry.1, base := .start cx.region.memoryBase } = .ok made.1 made.2)
        (fs.zip plans) done ∧
      Report.ofBodies width bodies =
        { width
          functions := fs.countP (! ·.isDeclaration)
          baseLoads := done.countP (·.2.base.loaded.isSome)
          tally := (done.map (·.1)).sum } := by
  induction hplans with
  | nil => exact ⟨[], [], rfl, .nil, rfl⟩
  | @cons f plan fs plans hplan _ ih =>
    rw [List.zip_cons_cons, List.forall_mem_cons] at hok
    obtain ⟨⟨body, g, hfirst⟩, hrest⟩ := hok
    obtain ⟨bodies, done, hsettle, hall, hreport⟩ := ih hrest
    obtain ⟨tally, e, hperform, rfl, hcase⟩ := Context.outcome_performs hplan hfirst
    refine ⟨body.toList ++ bodies, (tally, e) :: done, ?_, .cons hperform hall, ?_⟩
    · rw [outcomes_parallel] at hsettle ⊢
      simp only [List.zip_cons_cons, List.map_cons, hfirst, settle, hsettle]
    · simp only [Report.ofBodies, Report.mk.injEq, true_and] at hreport ⊢
      obtain ⟨hfunctions, hloads, htally⟩ := hreport
      rcases hcase with ⟨hdecl, rfl, rfl, hbase⟩ | ⟨hdecl, rfl⟩
      · simp [hdecl, hbase, hfunctions, hloads, htally]
      · simp [hdecl, List.countP_cons, hfunctions, hloads, htally]

/-- Functions that were settled were all confined. -/
theorem outcome_of_settle {planned : Func → Plan → Prop} {fs gs : List Func} {plans : List Plan}
    {bodies : List BodyTally} (hplans : List.Forall₂ planned fs plans)
    (h : settle (fs.zip (cx.outcomes false (fs.zip plans))) = .ok bodies gs) :
    ∀ entry ∈ fs.zip plans, ∃ body g, cx.outcome entry.1 entry.2 = .ok body g := by
  have hall := settle_eq_ok h
  clear h
  induction hplans generalizing gs with
  | nil => exact fun entry hentry => absurd hentry List.not_mem_nil
  | @cons f plan fs plans _ _ ih =>
    obtain ⟨g, gs', ⟨body, hbody⟩, hrest, -⟩ := List.forall₂_cons_left_iff.mp hall
    rw [List.zip_cons_cons, List.forall_mem_cons]
    exact ⟨⟨body, g, hbody⟩, ih hrest⟩

/-- Where each function of a module gets to is where the chores of its plan take it. -/
theorem Workshop.start_reaches {m : Module} {plans : List Plan} {done : List (Tally × Draft)}
    {schedule : List Turn} (hlength : m.functions.length = plans.length)
    (hall : List.Forall₂ (fun entry made =>
      (Drafting.performAll cx (entry.2.flatMap Planned.chores)).run
        { func := entry.1, base := .start cx.region.memoryBase } = .ok made.1 made.2)
      (m.functions.zip plans) done)
    (hschedule : Interleaves schedule plans) :
    Reaches cx schedule (done.map (·.1)) (done.map (·.2)) (.start cx.region m) := by
  have hdone : (m.functions.zip plans).length = done.length := hall.length_eq
  rw [List.length_zip, hlength, Nat.min_self] at hdone
  refine { functions := ?_, caches := ?_, counted := ?_, known := ?_, each := ?_ }
  · rw [List.length_map, ← hdone, ← hlength, Workshop.start]
  · rw [List.length_map, ← hdone, ← hlength, Workshop.start, List.length_map]
  · rw [List.length_map, List.length_map]
  · intro turn hturn
    rw [List.length_map, ← hdone]
    exact hschedule.known turn hturn
  · intro func d tally e hd htally he
    obtain ⟨hf, hbase⟩ := draft?_eq_some_iff.mp hd
    change m.functions[func]? = some d.func at hf
    change (m.functions.map fun _ => BaseCache.start cx.region.memoryBase)[func]? = some d.base
      at hbase
    rw [List.getElem?_map, hf] at hbase
    obtain ⟨hlt, hf⟩ := List.getElem?_eq_some_iff.mp hf
    rw [List.getElem?_map] at htally he
    obtain ⟨made, hmade, rfl⟩ := Option.map_eq_some_iff.mp htally
    rw [hmade] at he
    cases he
    obtain ⟨hlt', rfl⟩ := List.getElem?_eq_some_iff.mp hmade
    have hplan := List.getElem?_eq_getElem (hdone ▸ hlt' : func < plans.length)
    have hperform := hall.get (hall.length_eq ▸ hlt') hlt'
    simp only [List.get_eq_getElem, List.getElem_zip, hf] at hperform
    obtain ⟨f, base⟩ := d
    cases hbase
    rw [hschedule.own func _ hplan]
    exact hperform

end Bodies

/-! ## A run -/

section Run

variable {pass : Pass} {m m₁ : Module} {plans : List Plan} {region : Region}

/-- Whatever the turns in which the functions of a module are confined, they end in the module and
in the sum that a run has when it is about to finish. -/
theorem Pass.run_interleaved {schedule : List Turn} (hflag : m.hasFlag sandboxedFlag = false)
    (hplans : m.plans = .ok plans) (hregion : (Region.install pass.width).run m = .ok region m₁)
    (hbodies : ∀ entry ∈ m.functions.zip plans,
      ∃ body g, (m₁.context region).outcome entry.1 entry.2 = .ok body g)
    (hschedule : Interleaves schedule plans) :
    ∃ w, (Workshop.carryOut (m₁.context region) schedule).run (.start region m₁) = .ok () w ∧
      pass.run.run m = (pass.finish region (w.report pass.width m)).run w.module := by
  have hfunctions := (Region.install_eq_ok hregion).2.1
  have hforall := mapM_eq_ok.mp hplans
  obtain ⟨bodies, done, hsettle, hall, hreport⟩ := settle_performs hforall hbodies pass.width
  rw [← hfunctions] at hsettle hall hforall
  obtain ⟨w, hrun, hmodule, hcaches, htally⟩ :=
    Workshop.carryOut_reaches (Workshop.start_reaches hforall.length_eq hall hschedule)
  refine ⟨w, hrun, ?_⟩
  have hconfined : (Module.confineBodies (m₁.context region) pass.parallel plans).run m₁ =
      .ok bodies w.module := by
    rw [Module.confineBodies_of_settle hsettle, hmodule, List.map_map]
    rfl
  have hsame : w.report pass.width m = .ofBodies pass.width bodies := by
    rw [hreport, Workshop.report, hcaches, htally, List.map_map, List.countP_map]
    congr 1
    exact zero_add _
  rw [hsame]
  exact run_eq_finish hflag hplans hregion hconfined

end Run

/-! ## Two functions in turns -/

/-- A function that fills memory. -/
def filling : Func :=
  [.addBlock "entry",
    .append 0 (.intrinsic .memset [.arg 0, .int 8 0, .arg 1]) .void,
    .append 0 (.ret none) .void].foldl Operation.apply
    (.declare "filling" [.ptr (.int 8), .int 32] .void)

/-- A module of two functions with a declaration between them. -/
def pairedModule : Module where
  name := "paired"
  layout := {}
  functions := [foldedLoad, .declare "other" [.ptr (.int 8)] .void, filling]
  globals := []
  flags := []

/-- The load, the address to fill, the store, the length to fill. -/
def pairedTurns : List Turn :=
  [⟨0, .address 2 ⟨0, true⟩⟩, ⟨2, .address 0 ⟨0, false⟩⟩, ⟨0, .address 3 ⟨1, true⟩⟩,
    ⟨2, .length 0 2⟩]

theorem pairedModule_interleaved : ∃ region m₁ w,
    (Region.install Pass.narrow.width).run pairedModule = .ok region m₁ ∧
      (Workshop.carryOut (m₁.context region) pairedTurns).run (.start region m₁) = .ok () w ∧
      Pass.narrow.run.run pairedModule =
        (Pass.narrow.finish region (w.report Pass.narrow.width pairedModule)).run w.module := by
  have hruns : Pass.narrow.succeeds pairedModule
      (fun report _ => report.tally.folded == 1 && report.tally.lengths == 1) = true := by
    decide +kernel
  obtain ⟨report, m', hrun, -⟩ := Pass.run_of_succeeds hruns
  obtain ⟨plans, region, m₁, bodies, functions, hplans, hregion, hsettle, -⟩ := Pass.run_eq_ok hrun
  have hturns : pairedModule.plans.toOption.all (decide <| Interleaves pairedTurns ·) = true := by
    decide +kernel
  rw [hplans] at hturns
  obtain ⟨w, hw⟩ := Pass.run_interleaved rfl hplans hregion
    (outcome_of_settle (mapM_eq_ok.mp hplans) hsettle) (of_decide_eq_true hturns)
  exact ⟨region, m₁, w, hregion, hw⟩

end Confinement
