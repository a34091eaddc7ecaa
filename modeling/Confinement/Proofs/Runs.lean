import Confinement.Pass
import Confinement.Proofs.Success
import Mathlib.Data.List.Forall2

/-!
# What a successful run of the pass went through

A run that succeeds has planned every function against the symbols that it found, defined the symbols
of the region, and confined every body by its plan (`Pass.run_eq_ok`). Function by function, a
declaration is left alone and a body is confined in the context of the region (`Pass.run_bodies`);
the order in which this is done does not matter.
-/

set_option autoImplicit false

namespace Confinement

/-! ## Lists -/

/-- Results that are collected from a list correspond to its entries. -/
theorem mapM_eq_ok {ε α β : Type} {g : α → Except ε β} {l : List α} {l' : List β} :
    l.mapM g = .ok l' ↔ List.Forall₂ (fun a b => g a = .ok b) l l' := by
  induction l generalizing l' with
  | nil =>
    rw [List.mapM_nil, List.forall₂_nil_left_iff]
    constructor
    · intro h
      cases h
      rfl
    · rintro rfl
      rfl
  | cons a l ih =>
    rw [List.mapM_cons, bind_eq_ok, List.forall₂_cons_left_iff]
    constructor
    · rintro ⟨b, hb, h⟩
      obtain ⟨bs, hbs, h⟩ := bind_eq_ok.mp h
      cases h
      exact ⟨b, bs, hb, ih.mp hbs, rfl⟩
    · rintro ⟨b, bs, hb, hbs, rfl⟩
      exact ⟨b, hb, bind_eq_ok.mpr ⟨bs, ih.mpr hbs, rfl⟩⟩

/-- What corresponds to the entries of a list comes from one of them each. -/
theorem exists_mem_of_forall₂ {α β : Type} {R : α → β → Prop} {l : List α} {l' : List β}
    (h : List.Forall₂ R l l') : ∀ b ∈ l', ∃ a ∈ l, R a b := by
  induction h with
  | nil => exact fun b hb => absurd hb List.not_mem_nil
  | @cons a b l l' hab _ ih =>
    intro other hother
    rcases List.mem_cons.mp hother with rfl | hother
    · exact ⟨a, List.mem_cons_self, hab⟩
    · obtain ⟨found, hfound, hrel⟩ := ih other hother
      exact ⟨found, List.mem_cons_of_mem a hfound, hrel⟩

/-- Every function was confined, and is taken over as it became. -/
theorem settle_eq_ok {work : List (Func × Outcome)} {bodies : List BodyTally} {fs : List Func}
    (h : settle work = .ok bodies fs) :
    List.Forall₂ (fun entry f => ∃ body, entry.2 = .ok body f) work fs := by
  induction work generalizing bodies fs with
  | nil =>
    cases h
    exact .nil
  | cons entry work ih =>
    obtain ⟨f, outcome⟩ := entry
    cases outcome with
    | error fault g => cases h
    | ok body g =>
      rw [settle] at h
      cases hrest : settle work with
      | error fault gs =>
        rw [hrest] at h
        cases h
      | ok bodies' gs =>
        rw [hrest] at h
        cases h
        exact .cons ⟨body, rfl⟩ (ih hrest)

/-- Functions that were planned and settled, side by side. -/
theorem forall₂_of_settle {cx : Context} {planned : Func → Plan → Prop} {fs gs : List Func}
    {plans : List Plan} {bodies : List BodyTally} (hplans : List.Forall₂ planned fs plans)
    (h : settle (fs.zip (cx.outcomes false (fs.zip plans))) = .ok bodies gs) :
    List.Forall₂ (fun f g => ∃ plan body, planned f plan ∧ cx.outcome f plan = .ok body g)
      fs gs := by
  have hall := settle_eq_ok h
  clear h
  induction hplans generalizing gs with
  | nil =>
    rw [List.forall₂_nil_left_iff.mp hall]
    exact .nil
  | @cons f plan fs plans hplan _ ih =>
    obtain ⟨g, gs', ⟨body, hbody⟩, hrest, rfl⟩ := List.forall₂_cons_left_iff.mp hall
    exact .cons ⟨plan, body, hplan, hbody⟩ (ih hrest)

/-! ## Symbols -/

section Symbols

variable {m m' : Module} {id : GlobalId}

theorem Linking.addGlobal_eq_ok {g : Global} (h : (addGlobal g).run m = .ok id m') :
    (m.globalNamed? g.name).isSome = false ∧ id = m.globals.length ∧
      m' = { m with globals := m.globals ++ [g] } := by
  rw [addGlobal] at h
  rw [run_get_bind] at h
  cases hn : (m.globalNamed? g.name).isSome with
  | true =>
    simp only [hn, if_true] at h
    cases h
  | false =>
    simp only [hn, Bool.false_eq_true, if_false] at h
    cases h
    exact ⟨rfl, rfl, rfl⟩

/-- The global is there, or it is added. -/
theorem Linking.globalOfType_eq_ok {name : String} {ty : Ty}
    (h : (globalOfType name ty).run m = .ok id m') :
    (∃ found, m.findGlobal? name = some (id, found) ∧ found.ty = ty ∧ m' = m) ∨
      (m.findGlobal? name = none ∧ id = m.globals.length ∧
        m' = { m with globals := m.globals ++
          [{ name, ty, linkage := .external, isConstant := false, init := none }] }) := by
  rw [globalOfType] at h
  rw [run_get_bind] at h
  cases hf : m.findGlobal? name with
  | none =>
    simp only [hf] at h
    obtain ⟨-, hid, hm⟩ := addGlobal_eq_ok h
    exact Or.inr ⟨rfl, hid, hm⟩
  | some entry =>
    obtain ⟨found, g⟩ := entry
    simp only [hf] at h
    by_cases hty : g.ty = ty
    · simp only [hty, if_true] at h
      obtain ⟨rfl, rfl⟩ := run_pure_eq_ok.mp h
      exact Or.inl ⟨g, rfl, hty, rfl⟩
    · simp only [hty, if_false] at h
      cases h

theorem Module.findGlobal?_eq_none_iff {name : String} :
    m.findGlobal? name = none ↔ m.globalNamed? name = none := by
  rw [findGlobal?]
  cases hn : m.globalNamed? name with
  | none => simp
  | some id =>
    obtain ⟨hlt, -⟩ := List.findIdx?_eq_some_iff_getElem.mp hn
    have hg : m.global? id = some m.globals[id] := List.getElem?_eq_getElem hlt
    simp [hg]

theorem Module.globalNamed?_of_findGlobal? {name : String} {found : Global}
    (h : m.findGlobal? name = some (id, found)) : m.globalNamed? name = some id := by
  rw [findGlobal?] at h
  obtain ⟨id', hn, h⟩ := Option.bind_eq_some_iff.mp h
  obtain ⟨g, -, hpair⟩ := Option.map_eq_some_iff.mp h
  cases hpair
  exact hn

/-- A name keeps its number when a global is added, and a new name has the next one. -/
theorem Module.globalNamed?_append {name : String} {g : Global}
    (hm : m'.globals = m.globals ++ [g]) :
    m'.globalNamed? name = (m.globalNamed? name).or
      (if g.name = name then some m.globals.length else none) := by
  unfold globalNamed?
  rw [hm, List.findIdx?_append, List.findIdx?_singleton]
  by_cases hg : g.name = name
  · simp [hg]
  · simp [hg]

/-- The base is found or declared first, and the width is defined behind it. -/
theorem Region.install_steps {width : Width} {region : Region}
    (h : (Region.install width).run m = .ok region m') :
    ∃ m₁, (Linking.globalOfType baseSymbol (.int 64)).run m = .ok region.memoryBase m₁ ∧
      (Linking.addGlobal width.global).run m₁ = .ok region.pointerSize m' ∧
      region.width = width := by
  rw [install] at h
  rw [run_get_bind] at h
  by_cases hw : (m.globalNamed? widthSymbol).isSome
  · simp only [hw, if_true] at h
    cases h
  · rw [if_neg hw] at h
    split at h
    · cases h
    · obtain ⟨base, m₁, hbase, h⟩ := run_bind_eq_ok.mp h
      obtain ⟨size, m₂, hsize, h⟩ := run_bind_eq_ok.mp h
      obtain ⟨rfl, rfl⟩ := run_pure_eq_ok.mp h
      exact ⟨m₁, hbase, hsize, rfl⟩

/-- The symbols of a region come behind those that were there, and nothing else changes. -/
theorem Region.install_eq_ok {width : Width} {region : Region}
    (h : (Region.install width).run m = .ok region m') :
    region.width = width ∧ m'.functions = m.functions ∧ m'.layout = m.layout ∧
      m'.globalNamed? baseSymbol = some region.memoryBase ∧
      ∃ more, m'.globals = m.globals ++ more := by
  obtain ⟨m₁, hbase, hsize, hwidth⟩ := install_steps h
  obtain ⟨-, -, rfl⟩ := Linking.addGlobal_eq_ok hsize
  -- the base was found under its name, or was added behind symbols with other names
  have hnamed : m₁.globalNamed? baseSymbol = some region.memoryBase := by
    rcases Linking.globalOfType_eq_ok hbase with ⟨found, hfound, -, rfl⟩ | ⟨hnone, hid, rfl⟩
    · exact Module.globalNamed?_of_findGlobal? hfound
    · rw [Module.globalNamed?_append rfl, Module.findGlobal?_eq_none_iff.mp hnone, hid]
      rfl
  refine ⟨hwidth, ?_, ?_, ?_, ?_⟩
  · rcases Linking.globalOfType_eq_ok hbase with ⟨-, -, -, rfl⟩ | ⟨-, -, rfl⟩ <;> rfl
  · rcases Linking.globalOfType_eq_ok hbase with ⟨-, -, -, rfl⟩ | ⟨-, -, rfl⟩ <;> rfl
  · rw [Module.globalNamed?_append rfl, hnamed]
    rfl
  · rcases Linking.globalOfType_eq_ok hbase with ⟨-, -, -, rfl⟩ | ⟨-, -, rfl⟩
    · exact ⟨_, rfl⟩
    · exact ⟨_, List.append_assoc _ _ _⟩

/-- The constant of the width is found under its name. -/
theorem Region.install_named {width : Width} {region : Region}
    (h : (Region.install width).run m = .ok region m') :
    m'.globalNamed? widthSymbol = some region.pointerSize := by
  obtain ⟨m₁, -, hsize, -⟩ := install_steps h
  obtain ⟨hfree, hid, rfl⟩ := Linking.addGlobal_eq_ok hsize
  have hnone : m₁.globalNamed? widthSymbol = none :=
    Option.isNone_iff_eq_none.mp (Option.isSome_eq_false_iff.mp hfree)
  rw [Module.globalNamed?_append rfl, hnone, hid]
  rfl

end Symbols

/-! ## The pass -/

section Pass

variable {pass : Pass} {m m' : Module} {report : Report}

theorem Module.confineBodies_eq_ok {cx : Context} {parallel : Bool} {plans : List Plan}
    {bodies : List BodyTally} (h : (Module.confineBodies cx parallel plans).run m = .ok bodies m') :
    ∃ functions, settle (m.functions.zip (cx.outcomes false (m.functions.zip plans))) =
        .ok bodies functions ∧
      m' = { m with functions } := by
  unfold Module.confineBodies at h
  simp only [EStateM.run] at h
  rw [outcomes_parallel, ← outcomes_parallel cx false] at h
  cases hs : settle (m.functions.zip (cx.outcomes false (m.functions.zip plans))) with
  | ok bodies' functions =>
    rw [hs] at h
    cases h
    exact ⟨functions, rfl, rfl⟩
  | error fault functions =>
    rw [hs] at h
    cases h

/-- The steps of a run that succeeded. -/
theorem Pass.run_eq_ok (h : pass.run.run m = .ok report m') :
    ∃ plans region m₁ bodies functions, m.plans = .ok plans ∧
      (Region.install pass.width).run m = .ok region m₁ ∧
      settle (m.functions.zip ((m₁.context region).outcomes false (m.functions.zip plans))) =
        .ok bodies functions ∧
      m' = ({ m₁ with functions } : Module).setFlag sandboxedFlag ∧
      (pass.verify = true → m'.audit region = .ok ()) ∧
      report = .ofBodies pass.width bodies := by
  rw [Pass.run] at h
  rw [run_get_bind] at h
  cases hflag : m.hasFlag sandboxedFlag with
  | true =>
    simp only [hflag, if_true] at h
    cases h
  | false =>
    simp only [hflag, Bool.false_eq_true, if_false] at h
    obtain ⟨plans, hplans, h⟩ := run_ofExcept_bind_eq_ok.mp h
    obtain ⟨region, m₁, hregion, h⟩ := run_bind_eq_ok.mp h
    have hregion := run_adaptExcept_eq_ok.mp hregion
    rw [run_get_bind] at h
    obtain ⟨bodies, m₂, hbodies, h⟩ := run_bind_eq_ok.mp h
    obtain ⟨functions, hsettle, rfl⟩ :=
      Module.confineBodies_eq_ok (run_adaptExcept_eq_ok.mp hbodies)
    obtain ⟨done, m₃, hmodify, h⟩ := run_bind_eq_ok.mp h
    cases hmodify
    -- the symbols of the region leave the functions as they were
    rw [(Region.install_eq_ok hregion).2.1] at hsettle
    refine ⟨plans, region, m₁, bodies, functions, hplans, hregion, hsettle, ?_⟩
    cases hverify : pass.verify with
    | false =>
      simp only [hverify, Bool.false_eq_true, if_false] at h
      obtain ⟨rfl, rfl⟩ := run_pure_eq_ok.mp h
      exact ⟨rfl, fun hv => absurd hv Bool.false_ne_true, rfl⟩
    | true =>
      simp only [hverify, if_true] at h
      rw [run_get_bind] at h
      obtain ⟨done', haudit, h⟩ := run_ofExcept_bind_eq_ok.mp h
      obtain ⟨rfl, rfl⟩ := run_pure_eq_ok.mp h
      exact ⟨rfl, fun _ => haudit, rfl⟩

/-- The module that a run leaves is the one with the symbols of the region, flagged, and function by
function a declaration is left alone and a body is confined by its plan. -/
theorem Pass.run_regions (h : pass.run.run m = .ok report m') :
    ∃ region m₁, (Region.install pass.width).run m = .ok region m₁ ∧
      m' = ({ m₁ with functions := m'.functions } : Module).setFlag sandboxedFlag ∧
      List.Forall₂ (fun f g => f ∈ m.functions ∧ ((f.isDeclaration = true ∧ g = f) ∨
        ∃ plan body, f.plan m.symbols = .ok plan ∧
          (Edit.confineBody (m₁.context region) plan).run f = .ok body g)) m.functions m'.functions := by
  obtain ⟨plans, region, m₁, bodies, functions, hplans, hregion, hsettle, rfl, -⟩ := run_eq_ok h
  refine ⟨region, m₁, hregion, rfl, ?_⟩
  have hall := forall₂_of_settle (mapM_eq_ok.mp hplans) hsettle
  refine (List.forall₂_and_left _ _).mpr ⟨fun f hf => hf, hall.imp fun f g hfg => ?_⟩
  obtain ⟨plan, body, hplan, hbody⟩ := hfg
  rw [Context.outcome] at hbody
  split at hbody
  · next hdecl =>
    cases hbody
    exact Or.inl ⟨hdecl, rfl⟩
  · obtain ⟨body', hrun, -⟩ := Edit.run_map_eq_ok.mp hbody
    exact Or.inr ⟨plan, body', hplan, hrun⟩

/-- Function by function: a declaration is left alone, and a body is confined by its plan in the
context of the region. -/
theorem Pass.run_bodies (h : pass.run.run m = .ok report m') :
    ∃ cx : Context, cx.region.width = pass.width ∧ cx.layout = m.layout ∧
      m'.layout = m.layout ∧ m'.globalNamed? baseSymbol = some cx.region.memoryBase ∧
      List.Forall₂ (fun f g => f ∈ m.functions ∧ ((f.isDeclaration = true ∧ g = f) ∨
        ∃ plan body, f.plan m.symbols = .ok plan ∧
          (Edit.confineBody cx plan).run f = .ok body g)) m.functions m'.functions := by
  obtain ⟨region, m₁, hregion, hm', hall⟩ := run_regions h
  obtain ⟨hwidth, -, hlayout, hnamed, -⟩ := Region.install_eq_ok hregion
  have hlayout' : m'.layout = m₁.layout := by rw [hm']; rfl
  have hnamed' : m'.globalNamed? baseSymbol = m₁.globalNamed? baseSymbol := by rw [hm']; rfl
  exact ⟨m₁.context region, hwidth, hlayout, hlayout'.trans hlayout, hnamed'.trans hnamed, hall⟩

/-- Is an edit served, with a result and a function that pass a check? -/
def Edit.succeeds {α : Type} (action : Edit α) (f : Func) (check : α → Func → Bool) : Bool :=
  match action.run f with
  | .ok a g => check a g
  | .error _ _ => false

theorem Edit.run_of_succeeds {α : Type} {action : Edit α} {f : Func} {check : α → Func → Bool}
    (h : action.succeeds f check = true) : ∃ a g, action.run f = .ok a g ∧ check a g = true := by
  rw [succeeds] at h
  cases hrun : action.run f with
  | ok a g =>
    rw [hrun] at h
    exact ⟨a, g, rfl, h⟩
  | error e g =>
    rw [hrun] at h
    cases h

/-- Does a run succeed, with a report and a module that pass a check? -/
def Pass.succeeds (pass : Pass) (m : Module) (check : Report → Module → Bool) : Bool :=
  match pass.run.run m with
  | .ok report m' => check report m'
  | .error _ _ => false

theorem Pass.run_of_succeeds {check : Report → Module → Bool}
    (h : pass.succeeds m check = true) :
    ∃ report m', pass.run.run m = .ok report m' ∧ check report m' = true := by
  rw [succeeds] at h
  cases hrun : pass.run.run m with
  | ok report m' =>
    rw [hrun] at h
    exact ⟨report, m', rfl, h⟩
  | error e m' =>
    rw [hrun] at h
    cases h

end Pass

end Confinement
