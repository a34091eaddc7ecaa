import Confinement.Proofs.RegionContract

/-!
# Definitions of symbols

A module comes to its symbols by definitions: of functions, of globals, and of globals that are
asked for by name and type and may be there already. What becomes of a definition is said once, with
all it can be refused for (`Definition.Outcome`, `Definition.outcome`). No definition takes a symbol
away or gives its number to another one (`Definition.grows`), and none takes a name twice
(`Definition.distinct`). So behind every history of definitions a name stands for one number, a
number stands for what it was handed out for, and the symbol table tells exactly the symbols
(`Module.define_orders`).
-/

set_option autoImplicit false

namespace Confinement

/-! ## Requests and what they hand out -/

/-- A global that is defined elsewhere. -/
def Global.declared (name : String) (ty : Ty) : Global :=
  { name, ty, linkage := .external, isConstant := false, init := none }

/-- A request to define a symbol of a module. -/
inductive Definition where
  /-- A function, of whatever name. -/
  | function (f : Func)
  /-- A global, whose name must be free. -/
  | global (g : Global)
  /-- The global of a name and a type; it is declared if the name is free. -/
  | globalOfType (name : String) (ty : Ty)
  deriving DecidableEq

/-- What is handed out for a symbol. -/
inductive Handle where
  | function (id : FuncId)
  | global (id : GlobalId)
  deriving DecidableEq

/-- What a symbol stands for. -/
inductive Entity where
  | function (f : Func)
  | global (g : Global)
  deriving DecidableEq

namespace Definition

/-- Serves a request, or refuses it. -/
def run : Definition → Linking Handle
  | .function f => .function <$> Linking.addFunction f
  | .global g => .global <$> Linking.addGlobal g
  | .globalOfType name ty => .global <$> Linking.globalOfType name ty

/-- The module that a request leaves, be it served or refused. -/
def apply (m : Module) (d : Definition) : Module :=
  m.leftBy d.run

/-- Is this what a request asks for? -/
inductive Asks : Definition → Entity → Prop
  | function (f : Func) : Asks (.function f) (.function f)
  | global (g : Global) : Asks (.global g) (.global g)
  | globalOfType (name : String) (ty : Ty) (g : Global) (hname : g.name = name) (hty : g.ty = ty) :
    Asks (.globalOfType name ty) (.global g)

/-- What becomes of a request: the handle and the module that it leaves, or the conflict. -/
inductive Outcome (m : Module) : Definition → EStateM.Result Conflict Module Handle → Prop
  /-- A function comes behind the others. -/
  | function (f : Func) : Outcome m (.function f)
      (.ok (.function m.functions.length) { m with functions := m.functions ++ [f] })
  /-- A global of a free name comes behind the others. -/
  | fresh (g : Global) (hfree : m.globalNamed? g.name = none) : Outcome m (.global g)
      (.ok (.global m.globals.length) { m with globals := m.globals ++ [g] })
  /-- The name is taken. -/
  | taken (g other : Global) (hother : other ∈ m.globals) (hname : other.name = g.name) :
    Outcome m (.global g) (.error { name := g.name, cause := .alreadyDefined } m)
  /-- A global that is not there is declared as defined elsewhere, behind the others. -/
  | declared (name : String) (ty : Ty) (hfree : m.globalNamed? name = none) :
    Outcome m (.globalOfType name ty)
      (.ok (.global m.globals.length) { m with globals := m.globals ++ [.declared name ty] })
  /-- A global that is there is found. -/
  | found (id : GlobalId) (g : Global) (hg : m.global? id = some g) :
    Outcome m (.globalOfType g.name g.ty) (.ok (.global id) m)
  /-- The name is taken by a global of another type. -/
  | otherType (name : String) (ty : Ty) (other : Global) (hother : other ∈ m.globals)
    (hname : other.name = name) (hty : other.ty ≠ ty) : Outcome m (.globalOfType name ty)
      (.error { name, cause := .otherType ty other.ty } m)

end Definition

/-- The symbol that a handle stands for. -/
def Module.at? (m : Module) : Handle → Option Entity
  | .function id => m.functions[id]?.map .function
  | .global id => (m.global? id).map .global

/-- The module that a history of requests leaves. -/
def Module.define (m : Module) (ds : List Definition) : Module :=
  ds.foldl Definition.apply m

/-! ## One request -/

section Step

variable {m m' : Module}

theorem Linking.run_map {α β : Type} (change : α → β) (action : Linking α) (m : Module) :
    (change <$> action).run m =
      match action.run m with
      | .ok a m' => .ok (change a) m'
      | .error conflict m' => .error conflict m' := by
  rw [map_eq_pure_bind, EStateM.run_bind]
  cases action.run m <;> rfl

theorem Linking.addGlobal_taken {g : Global} {id : GlobalId}
    (h : m.globalNamed? g.name = some id) :
    (addGlobal g).run m = .error { name := g.name, cause := .alreadyDefined } m := by
  rw [addGlobal]
  rw [run_get_bind, h]
  rfl

theorem Linking.globalOfType_declared {name : String} (ty : Ty)
    (h : m.globalNamed? name = none) : (globalOfType name ty).run m =
      .ok m.globals.length { m with globals := m.globals ++ [.declared name ty] } := by
  rw [globalOfType]
  rw [run_get_bind, Module.findGlobal?_eq_none_iff.mpr h]
  exact addGlobal_eq h

theorem Linking.globalOfType_found {name : String} {id : GlobalId} {g : Global}
    (h : m.findGlobal? name = some (id, g)) : (globalOfType name g.ty).run m = .ok id m := by
  rw [globalOfType]
  rw [run_get_bind, h]
  simp only [if_true]
  rfl

theorem Linking.globalOfType_otherType {name : String} {ty : Ty} {id : GlobalId} {g : Global}
    (h : m.findGlobal? name = some (id, g)) (hty : g.ty ≠ ty) :
    (globalOfType name ty).run m = .error { name, cause := .otherType ty g.ty } m := by
  rw [globalOfType]
  rw [run_get_bind, h]
  simp only [hty, if_false]
  rfl

/-- Every request has its outcome. -/
theorem Definition.outcome (m : Module) (d : Definition) : d.Outcome m (d.run.run m) := by
  cases d with
  | function f => exact .function f
  | global g =>
    rw [run, Linking.run_map]
    cases hname : m.globalNamed? g.name with
    | none =>
      rw [Linking.addGlobal_eq hname]
      exact .fresh g hname
    | some id =>
      obtain ⟨other, hother, hnamed⟩ := Module.named_of_globalNamed? hname
      rw [Linking.addGlobal_taken hname]
      exact .taken g other (List.mem_of_getElem? hother) hnamed
  | globalOfType name ty =>
    rw [run, Linking.run_map]
    cases hfind : m.findGlobal? name with
    | none =>
      have hname := Module.findGlobal?_eq_none_iff.mp hfind
      rw [Linking.globalOfType_declared ty hname]
      exact .declared name ty hname
    | some entry =>
      obtain ⟨id, g⟩ := entry
      obtain ⟨hg, rfl⟩ := Module.named_of_findGlobal? hfind
      by_cases hty : g.ty = ty
      · subst hty
        rw [Linking.globalOfType_found hfind]
        exact .found id g hg
      · rw [Linking.globalOfType_otherType hfind hty]
        exact .otherType g.name ty g (List.mem_of_getElem? hg) rfl hty

/-- What holds of the outcomes of a request holds of its run and of the module that it leaves. -/
theorem Definition.left_of_outcome {P : Module → Prop} (m : Module) (d : Definition)
    (hok : ∀ handle m', d.Outcome m (.ok handle m') → P m') (hrefused : P m) : P (d.apply m) := by
  have houtcome := d.outcome m
  rw [apply, Module.leftBy]
  cases hrun : d.run.run m with
  | ok handle m' =>
    rw [hrun] at houtcome
    exact hok handle m' houtcome
  | error conflict m' =>
    rw [hrun] at houtcome
    cases houtcome <;> exact hrefused

/-- A refused request changes nothing. -/
theorem Definition.unchanged_of_refused {d : Definition} {conflict : Conflict}
    (h : d.run.run m = .error conflict m') : m' = m := by
  have houtcome := h ▸ d.outcome m
  cases houtcome <;> rfl

/-- What is handed out stands for what was asked for. -/
theorem Definition.at?_of_run {d : Definition} {handle : Handle}
    (h : d.run.run m = .ok handle m') : ∃ e, d.Asks e ∧ m'.at? handle = some e := by
  have houtcome := h ▸ d.outcome m
  cases houtcome with
  | function f => exact ⟨_, .function f, by simp [Module.at?]⟩
  | fresh g hfree => exact ⟨_, .global g, by simp [Module.at?, Module.global?]⟩
  | declared name ty hfree =>
    exact ⟨_, .globalOfType name ty (.declared name ty) rfl rfl,
      by simp [Module.at?, Module.global?]⟩
  | found id g hg => exact ⟨_, .globalOfType _ _ g rfl rfl, by simp [Module.at?, hg]⟩

/-- A request takes no name twice. -/
theorem Definition.distinct (d : Definition) (hm : m.Distinct) : (d.apply m).Distinct := by
  refine left_of_outcome m d (fun handle m' houtcome => ?_) hm
  cases houtcome with
  | function f => exact hm
  | fresh g hfree => exact hm.push hfree rfl
  | declared name ty hfree => exact hm.push hfree rfl
  | found id g hg => exact hm

end Step

/-! ## Histories -/

/-- One module has the symbols of another in front of its own. -/
structure Module.Grows (m m' : Module) : Prop where
  functions : m.functions <+: m'.functions
  globals : m.globals <+: m'.globals

namespace Module

variable {m m' m'' : Module}

theorem Grows.refl (m : Module) : m.Grows m :=
  ⟨List.prefix_refl _, List.prefix_refl _⟩

theorem Grows.trans (h : m.Grows m') (h' : m'.Grows m'') : m.Grows m'' :=
  ⟨h.functions.trans h'.functions, h.globals.trans h'.globals⟩

theorem Grows.global? {id : GlobalId} {g : Global} (h : m.Grows m')
    (hg : m.global? id = some g) : m'.global? id = some g := by
  obtain ⟨more, hmore⟩ := h.globals
  rw [Module.global?, ← hmore, List.getElem?_append_left (List.getElem?_eq_some_iff.mp hg).1]
  exact hg

/-- A handle keeps its meaning. -/
theorem Grows.at? {handle : Handle} {e : Entity} (h : m.Grows m')
    (he : m.at? handle = some e) : m'.at? handle = some e := by
  cases handle with
  | function id =>
    obtain ⟨f, hf, rfl⟩ := Option.map_eq_some_iff.mp he
    obtain ⟨more, hmore⟩ := h.functions
    rw [Module.at?, ← hmore, List.getElem?_append_left (List.getElem?_eq_some_iff.mp hf).1, hf]
    rfl
  | global id =>
    obtain ⟨g, hg, rfl⟩ := Option.map_eq_some_iff.mp he
    rw [Module.at?, h.global? hg]
    rfl

end Module

/-- A request takes no symbol away. -/
theorem Definition.grows (m : Module) (d : Definition) : m.Grows (d.apply m) := by
  refine left_of_outcome m d (fun handle m' houtcome => ?_) (.refl m)
  cases houtcome with
  | function f => exact ⟨List.prefix_append _ _, List.prefix_refl _⟩
  | fresh g hfree => exact ⟨List.prefix_refl _, List.prefix_append _ _⟩
  | declared name ty hfree => exact ⟨List.prefix_refl _, List.prefix_append _ _⟩
  | found id g hg => exact .refl m

namespace Module

variable {m m' : Module}

theorem define_append (m : Module) (earlier later : List Definition) :
    m.define (earlier ++ later) = (m.define earlier).define later :=
  List.foldl_append

theorem grows_define (m : Module) (ds : List Definition) : m.Grows (m.define ds) := by
  induction ds generalizing m with
  | nil => exact .refl m
  | cons d ds ih => exact (d.grows m).trans (ih (d.apply m))

theorem Distinct.define (hm : m.Distinct) (ds : List Definition) : (m.define ds).Distinct := by
  induction ds generalizing m with
  | nil => exact hm
  | cons d ds ih => exact ih (d.distinct hm)

/-- What was handed out in a history means at its end what it meant then. -/
theorem at?_define {d : Definition} {handle : Handle} {e : Entity} (later : List Definition)
    (hrun : d.run.run m = .ok handle m') (he : m'.at? handle = some e) :
    (m.define (d :: later)).at? handle = some e := by
  have hleft : d.apply m = m' := leftBy_of_ok hrun
  rw [define, List.foldl_cons, hleft]
  exact (m'.grows_define later).at? he

/-! ## Globals that are asked for by name and type -/

/-- A global is found or declared unless its name stands for one of another type. -/
theorem Distinct.globalOfType_served_iff (hm : m.Distinct) (name : String) (ty : Ty) :
    (∃ id m', (Linking.globalOfType name ty).run m = .ok id m') ↔
      ∀ g ∈ m.globals, g.name = name → g.ty = ty := by
  constructor
  · rintro ⟨id, m', h⟩ g hg hname
    rcases Linking.globalOfType_eq_ok h with ⟨found, hfind, hty, -⟩ | ⟨hnone, -, -⟩
    · -- names are different, so this is the global that was found
      obtain ⟨other, hother⟩ := List.getElem?_of_mem hg
      have hsame := hfind.symm.trans (hm.findGlobal?_eq_some_iff.mpr ⟨hother, hname⟩)
      cases hsame
      exact hty
    · exact absurd hname (globalNamed?_eq_none_iff.mp (findGlobal?_eq_none_iff.mp hnone) g hg)
  · intro hty
    cases hfind : m.findGlobal? name with
    | none =>
      have hfree := findGlobal?_eq_none_iff.mp hfind
      exact ⟨_, _, Linking.globalOfType_declared ty hfree⟩
    | some entry =>
      obtain ⟨id, g⟩ := entry
      obtain ⟨hg, hname⟩ := named_of_findGlobal? hfind
      rw [← hty g (List.mem_of_getElem? hg) hname]
      exact ⟨id, m, Linking.globalOfType_found hfind⟩

/-- Asked for again, at whatever time, a global is found under its number. -/
theorem Distinct.globalOfType_again {name : String} {ty : Ty} {id : GlobalId} (hm : m.Distinct)
    (h : (Linking.globalOfType name ty).run m = .ok id m') (later : List Definition) :
    (Linking.globalOfType name ty).run (m'.define later) = .ok id (m'.define later) := by
  have hrun : (Definition.globalOfType name ty).run.run m = .ok (.global id) m' := by
    rw [Definition.run, Linking.run_map, h]
  obtain ⟨e, hasks, he⟩ := Definition.at?_of_run hrun
  cases hasks with
  | globalOfType _ _ g hname hty =>
    obtain ⟨found, hfound, hsame⟩ := Option.map_eq_some_iff.mp he
    cases hsame
    have hg := (m'.grows_define later).global? hfound
    have hdistinct := (hm.globalOfType h).define later
    rw [← hty]
    exact Linking.globalOfType_found (hdistinct.findGlobal?_eq_some_iff.mpr ⟨hg, hname⟩)

/-! ## Any history -/

/-- Names, numbers and the symbol table of a module agree. -/
structure Tabled (m : Module) : Prop where
  /-- No two globals have the same name. -/
  distinct : m.Distinct
  /-- A name stands for the number of the global that has it. -/
  named : ∀ name id,
    m.globalNamed? name = some id ↔ ∃ g, m.global? id = some g ∧ g.name = name
  /-- The table has each global with its name and as an address of its type. -/
  globals : ∀ id g, m.global? id = some g →
    m.symbols.globalName? id = some g.name ∧ m.symbols.globalType id = .ok (.ptr g.ty)
  /-- It has no other global. -/
  onlyGlobals : ∀ id, m.global? id = none →
    m.symbols.globalName? id = none ∧ m.symbols.globalType id = .error (.unknownGlobal id)
  /-- The table has each function with its name and as an address of its signature. -/
  functions : ∀ (id : FuncId) f, m.functions[id]? = some f →
    m.symbols.functionName? id = some f.name ∧
      m.symbols.functionType id = .ok (.ptr f.signature)
  /-- It has no other function. -/
  onlyFunctions : ∀ (id : FuncId), m.functions[id]? = none →
    m.symbols.functionName? id = none ∧ m.symbols.functionType id = .error (.unknownFunction id)

theorem Distinct.tabled (hm : m.Distinct) : m.Tabled where
  distinct := hm
  named := fun _ _ => hm.globalNamed?_eq_some_iff
  globals := by
    intro id g hg
    rw [Module.global?] at hg
    simp [SymbolTable.globalName?, SymbolTable.globalType, symbols, hg]
  onlyGlobals := by
    intro id hnone
    rw [Module.global?] at hnone
    simp [SymbolTable.globalName?, SymbolTable.globalType, symbols, hnone]
  functions := by
    intro id f hf
    simp [SymbolTable.functionName?, SymbolTable.functionType, symbols, hf]
  onlyFunctions := by
    intro id hnone
    simp [SymbolTable.functionName?, SymbolTable.functionType, symbols, hnone]

/-- How a module answers the next request. -/
structure Responds (m : Module) : Prop where
  /-- If the request is refused, nothing changes. -/
  unchanged : ∀ (d : Definition) conflict m', d.run.run m = .error conflict m' → m' = m
  /-- A global is found or declared exactly if its name is free or it has the type. -/
  served : ∀ name ty, (∃ id m', (Linking.globalOfType name ty).run m = .ok id m') ↔
    ∀ g ∈ m.globals, g.name = name → g.ty = ty
  /-- Asked for again, at once or later, it has the same number, and nothing changes. -/
  again : ∀ name ty id m', (Linking.globalOfType name ty).run m = .ok id m' → ∀ later,
    (Linking.globalOfType name ty).run (m'.define later) = .ok id (m'.define later)

/-- Behind every history of definitions, names, numbers and the symbol table agree. The module
answers the next request, and each handle of the history stands for what was asked for when it was
handed out. -/
theorem define_orders (name : String) (layout : DataLayout) (ds : List Definition) :
    ((empty name layout).define ds).Tabled ∧ ((empty name layout).define ds).Responds ∧
      ∀ earlier d later handle m', ds = earlier ++ d :: later →
        d.run.run ((empty name layout).define earlier) = .ok handle m' →
        ∃ e, d.Asks e ∧ m'.at? handle = some e ∧
          ((empty name layout).define ds).at? handle = some e := by
  have hempty : (empty name layout).Distinct := List.nodup_nil
  have hm := hempty.define ds
  refine ⟨hm.tabled, { unchanged := fun d conflict m' h => Definition.unchanged_of_refused h,
                       served := hm.globalOfType_served_iff,
                       again := fun _ _ _ _ h later => hm.globalOfType_again h later }, ?_⟩
  rintro earlier d later handle m' rfl hrun
  obtain ⟨e, hasks, he⟩ := Definition.at?_of_run hrun
  refine ⟨e, hasks, he, ?_⟩
  rw [define_append]
  exact at?_define later hrun he

/-- A name that is refused for one type is still found for the other. -/
example : ((empty "m" {}).define [.globalOfType "g" (.int 32), .globalOfType "g" (.int 64),
    .function (.declare "g" [] .void)]).symbols =
      { globals := [{ name := "g", ty := .ptr (.int 32) }],
        functions := [{ name := "g", ty := .ptr (.func .void []) }] } := rfl

end Module

end Confinement
