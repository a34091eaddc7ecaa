import Confinement.Proofs.History
import Confinement.Proofs.Word

/-!
# The contract of a region

The runtime knows a region by two names. In a module whose globals have different names, the symbols
of a region are installed exactly when the name of the width is free and a global with the name of the
base, if there is one, can be filled in by the runtime (`Module.Receives`). Then the module has one
global of each name, the region has their numbers, and no other region can be installed
(`Region.Honours`); otherwise the module stays as it was and the conflict names the symbol that stands
in the way (`Module.Conflicts`). `Region.install_contract` puts this together.
-/

set_option autoImplicit false

namespace Confinement

/-! ## Names of globals -/

namespace Module

/-- No two globals have the same name. -/
def Distinct (m : Module) : Prop :=
  (m.globals.map (·.name)).Nodup

instance (m : Module) : Decidable m.Distinct :=
  inferInstanceAs (Decidable (List.Nodup _))

/-- The global `g` of number `id` is the only one of a name. -/
structure Sole (m : Module) (name : String) (id : GlobalId) (g : Global) : Prop where
  found : m.global? id = some g
  named : g.name = name
  sole : ∀ other h, m.global? other = some h → h.name = name → other = id

variable {m m' : Module} {name : String} {id : GlobalId} {g : Global}

theorem globalNamed?_eq_none_iff : m.globalNamed? name = none ↔ ∀ g ∈ m.globals, g.name ≠ name := by
  simp [globalNamed?]

/-- Where names differ, two globals of one name have one number. -/
theorem Distinct.eq_of_named {other : GlobalId} {h : Global} (hm : m.Distinct)
    (hg : m.global? id = some g) (hh : m.global? other = some h) (hname : h.name = g.name) :
    other = id := by
  have hgname : (m.globals.map (·.name))[id]? = some g.name := by
    rw [List.getElem?_map]
    exact congrArg (Option.map (·.name)) hg
  have hhname : (m.globals.map (·.name))[other]? = some g.name := by
    rw [← hname, List.getElem?_map]
    exact congrArg (Option.map (·.name)) hh
  have hlt : other < (m.globals.map (·.name)).length := (List.getElem?_eq_some_iff.mp hhname).1
  exact (List.getElem?_inj hlt hm).mp (hhname.trans hgname.symm)

/-- What the first number of a name stands for has the name. -/
theorem named_of_globalNamed? (h : m.globalNamed? name = some id) :
    ∃ g, m.global? id = some g ∧ g.name = name := by
  obtain ⟨hid, hname, -⟩ := List.findIdx?_eq_some_iff_getElem.mp h
  exact ⟨m.globals[id], List.getElem?_eq_getElem hid, of_decide_eq_true hname⟩

/-- What is found by a name has it. -/
theorem named_of_findGlobal? (h : m.findGlobal? name = some (id, g)) :
    m.global? id = some g ∧ g.name = name := by
  have hnamed := globalNamed?_of_findGlobal? h
  obtain ⟨named, hg, hname⟩ := named_of_globalNamed? hnamed
  rw [findGlobal?, hnamed, Option.bind_some, hg, Option.map_some] at h
  cases h
  exact ⟨hg, hname⟩

/-- Where names differ, a name stands for one number. -/
theorem Distinct.globalNamed?_eq_some_iff (hm : m.Distinct) :
    m.globalNamed? name = some id ↔ ∃ g, m.global? id = some g ∧ g.name = name := by
  constructor
  · exact named_of_globalNamed?
  · rintro ⟨g, hg, hname⟩
    cases hfirst : m.globalNamed? name with
    | none =>
      have hmem : g ∈ m.globals := List.mem_of_getElem? hg
      exact absurd hname (globalNamed?_eq_none_iff.mp hfirst g hmem)
    | some first =>
      -- the first global of the name is this one
      obtain ⟨h, hh, hnamed⟩ := named_of_globalNamed? hfirst
      rw [hm.eq_of_named hg hh (hnamed.trans hname.symm)]

theorem Distinct.sole (hm : m.Distinct) (hg : m.global? id = some g) (hname : g.name = name) :
    m.Sole name id g where
  found := hg
  named := hname
  sole := fun _ _ hh hother => hm.eq_of_named hg hh (hother.trans hname.symm)

theorem Distinct.findGlobal?_eq_some_iff (hm : m.Distinct) :
    m.findGlobal? name = some (id, g) ↔ m.global? id = some g ∧ g.name = name := by
  constructor
  · exact named_of_findGlobal?
  · rintro ⟨hg, hname⟩
    have hnamed : m.globalNamed? name = some id := hm.globalNamed?_eq_some_iff.mpr ⟨g, hg, hname⟩
    rw [findGlobal?, hnamed, Option.bind_some, hg, Option.map_some]

/-- A global with a free name keeps names different. -/
theorem Distinct.push (hm : m.Distinct) (hfree : m.globalNamed? g.name = none)
    (hglobals : m'.globals = m.globals ++ [g]) : m'.Distinct := by
  rw [Distinct, hglobals, List.map_append, List.nodup_append]
  refine ⟨hm, List.nodup_singleton _, ?_⟩
  intro taken htaken new hnew
  obtain ⟨h, hh, rfl⟩ := List.mem_map.mp htaken
  rw [List.map_singleton, List.mem_singleton] at hnew
  rw [hnew]
  exact globalNamed?_eq_none_iff.mp hfree h hh

theorem Distinct.addGlobal (hm : m.Distinct) (h : (Linking.addGlobal g).run m = .ok id m') :
    m'.Distinct := by
  obtain ⟨hfree, -, rfl⟩ := Linking.addGlobal_eq_ok h
  exact hm.push (Option.isNone_iff_eq_none.mp (Option.isSome_eq_false_iff.mp hfree)) rfl

theorem Distinct.globalOfType {ty : Ty} (hm : m.Distinct)
    (h : (Linking.globalOfType name ty).run m = .ok id m') : m'.Distinct := by
  rcases Linking.globalOfType_eq_ok h with ⟨-, -, -, rfl⟩ | ⟨hnone, -, rfl⟩
  · exact hm
  · exact hm.push (findGlobal?_eq_none_iff.mp hnone) rfl

end Module

/-! ## What stands against a region -/

/-- A module receives a region: the name of the width is free, and what has the name of the base can
be filled in. -/
structure Module.Receives (m : Module) : Prop where
  width : ∀ g ∈ m.globals, g.name ≠ widthSymbol
  base : ∀ g ∈ m.globals, g.name = baseSymbol → g.HoldsBase

/-- What a module has against a region. The name of the width is looked at first. -/
inductive Module.Conflicts (m : Module) : Conflict → Prop
  /-- A global has the name of the width. -/
  | width (g : Global) (hg : g ∈ m.globals) (hname : g.name = widthSymbol) :
    Conflicts m { name := widthSymbol, cause := .widthDefined }
  /-- A global has the name of the base and cannot be filled in. -/
  | base (hfree : ∀ g ∈ m.globals, g.name ≠ widthSymbol) (g : Global) (hg : g ∈ m.globals)
    (hname : g.name = baseSymbol) (hnot : ¬ g.HoldsBase) :
    Conflicts m { name := baseSymbol, cause := .baseUnusable }

section Install

variable {m m' : Module} {width : Width} {region : Region} {conflict : Conflict}

theorem Module.Distinct.admitsRegion_iff (hm : m.Distinct) : m.AdmitsRegion ↔ m.Receives := by
  constructor
  · rintro ⟨hwidth, hbase⟩
    refine ⟨globalNamed?_eq_none_iff.mp hwidth, fun g hg hname => ?_⟩
    obtain ⟨id, hid⟩ := List.getElem?_of_mem hg
    exact hbase (id, g) (hm.findGlobal?_eq_some_iff.mpr ⟨hid, hname⟩)
  · rintro ⟨hwidth, hbase⟩
    refine ⟨globalNamed?_eq_none_iff.mpr hwidth, fun entry hentry => ?_⟩
    obtain ⟨hid, hname⟩ := hm.findGlobal?_eq_some_iff.mp hentry
    exact hbase entry.2 (List.mem_of_getElem? hid) hname

/-- Where the width is defined, nothing else is looked at. -/
theorem Region.install_taken {g : Global} (width : Width) (hg : g ∈ m.globals)
    (hname : g.name = widthSymbol) :
    (Region.install width).run m = .error { name := widthSymbol, cause := .widthDefined } m := by
  have hsome : (m.globalNamed? widthSymbol).isSome := by
    rw [Option.isSome_iff_ne_none]
    exact fun hnone => Module.globalNamed?_eq_none_iff.mp hnone g hg hname
  rw [install]
  rw [run_get_bind, if_pos hsome]
  rfl

/-- A conflict is what the module has against the region, and the module stays as it was. -/
theorem Region.install_eq_error (h : (Region.install width).run m = .error conflict m') :
    m' = m ∧ m.Conflicts conflict := by
  cases hname : m.globalNamed? widthSymbol with
  | some id =>
    obtain ⟨g, hg, hnamed⟩ := Module.named_of_globalNamed? hname
    have hmem : g ∈ m.globals := List.mem_of_getElem? hg
    rw [install_taken width hmem hnamed] at h
    cases h
    exact ⟨rfl, .width g hmem hnamed⟩
  | none =>
    rcases Region.install_outcome m width with ⟨-, region, m₁, hok⟩ | ⟨hnot, -⟩
    · rw [hok] at h
      cases h
    · -- the name of the width is free, so the base is what cannot be filled in
      obtain ⟨⟨id, g⟩, hentry, hunfit⟩ :
          ∃ entry ∈ m.findGlobal? baseSymbol, ¬ entry.2.HoldsBase := by
        by_contra hall
        push Not at hall
        exact hnot ⟨hname, hall⟩
      have hany : ((m.findGlobal? baseSymbol).any fun entry => ¬ entry.2.HoldsBase) = true :=
        (Option.any_eq_true _ _).mpr ⟨(id, g), hentry, decide_eq_true hunfit⟩
      obtain ⟨hg, hbase⟩ := Module.named_of_findGlobal? hentry
      rw [install] at h
      rw [run_get_bind, hname, Option.isSome_none, if_neg Bool.false_ne_true, if_pos hany] at h
      cases h
      have hfree := Module.globalNamed?_eq_none_iff.mp hname
      exact ⟨rfl, .base hfree g (List.mem_of_getElem? hg) hbase hunfit⟩

/-- The constant of a width reads as the width, with a sign and without. -/
theorem Width.global_reads (w : Width) : ∃ c, w.global.init = some c ∧ c.ty = .int 32 ∧
    c.signed? = some (w.bits : Int) ∧ c.unsigned? = some w.bits := by
  have hle := w.le
  refine ⟨_, rfl, rfl, ?_, Constant.unsigned?_ofInt_natCast (by omega) (by omega)⟩
  have hbits : Nat.pow 2 (Constant.storedBits 32) = 0x100000000 := by decide
  rw [Constant.signed?_ofInt, hbits, Int.bmod_eq_of_le (by omega) (by omega)]

/-! ## What a region leaves -/

/-- What holds of a region that was installed in the module `m` and of the module `m'` that has it. -/
structure Region.Honours (region : Region) (width : Width) (m m' : Module) : Prop where
  /-- The region has the width that was asked for. -/
  asked : region.width = width
  /-- What was there keeps its number. -/
  kept : m.globals <+: m'.globals
  /-- Nothing but the globals changes. -/
  frame : m' = { m with globals := m'.globals }
  /-- Names are still different. -/
  distinct : m'.Distinct
  /-- One global has the name of the base, and the runtime can fill it in. -/
  base : ∃ g, m'.Sole baseSymbol region.memoryBase g ∧ g.HoldsBase
  /-- One global has the name of the width: an exported 32-bit constant that reads as the width. -/
  size : ∃ g c, m'.Sole widthSymbol region.pointerSize g ∧ g.ty = .int 32 ∧
    g.linkage = .external ∧ g.isConstant = true ∧ g.init = some c ∧ c.ty = .int 32 ∧
    c.signed? = some (width.bits : Int) ∧ c.unsigned? = some width.bits
  /-- No region is installed behind it, of whatever width. -/
  last : ∀ later : Width, (Region.install later).run m' =
    .error { name := widthSymbol, cause := .widthDefined } m'

/-- The base that is found or declared can be filled in. -/
theorem Linking.globalOfType_holdsBase {id : GlobalId} (hm : m.Distinct) (hreceives : m.Receives)
    (h : (Linking.globalOfType baseSymbol (.int 64)).run m = .ok id m') :
    ∃ g, m'.global? id = some g ∧ g.name = baseSymbol ∧ g.HoldsBase := by
  rcases globalOfType_eq_ok h with ⟨g, hfound, -, rfl⟩ | ⟨-, rfl, rfl⟩
  · obtain ⟨hg, hname⟩ := hm.findGlobal?_eq_some_iff.mp hfound
    exact ⟨g, hg, hname, hreceives.base g (List.mem_of_getElem? hg) hname⟩
  · exact ⟨_, List.getElem?_concat_length, rfl, rfl, rfl, rfl, rfl⟩

theorem Region.honours_of_install (hm : m.Distinct) (hreceives : m.Receives)
    (h : (Region.install width).run m = .ok region m') : region.Honours width m m' := by
  obtain ⟨m₁, hbase, hsize, hwidth⟩ := install_steps h
  have hm₁ : m₁.Distinct := hm.globalOfType hbase
  have hm' : m'.Distinct := hm₁.addGlobal hsize
  obtain ⟨base, hbaseAt, hbaseName, hholds⟩ :=
    Linking.globalOfType_holdsBase hm hreceives hbase
  obtain ⟨-, hid, hadded⟩ := Linking.addGlobal_eq_ok hsize
  have hglobals : m'.globals = m₁.globals ++ [width.global] := by rw [hadded]
  have hsizeAt : m'.global? region.pointerSize = some width.global := by
    rw [Module.global?, hglobals, hid, List.getElem?_concat_length]
  -- the base stands before the width
  have hbaseAt' : m'.global? region.memoryBase = some base := by
    rw [Module.global?, hglobals, List.getElem?_append_left (List.getElem?_eq_some_iff.mp hbaseAt).1]
    exact hbaseAt
  obtain ⟨c, hinit, hty, hsigned, hunsigned⟩ := width.global_reads
  refine { asked := hwidth, kept := (install_extends h).globals, frame := ?_, distinct := hm',
           base := ⟨base, hm'.sole hbaseAt' hbaseName, hholds⟩,
           size := ⟨width.global, c, hm'.sole hsizeAt rfl, rfl, rfl, rfl, hinit, hty, hsigned,
             hunsigned⟩,
           last := fun later => install_taken later (List.mem_of_getElem? hsizeAt) rfl }
  rw [hadded]
  rcases Linking.globalOfType_eq_ok hbase with ⟨-, -, -, rfl⟩ | ⟨-, -, rfl⟩ <;> rfl

/-- The contract with the runtime is met as a whole or not at all. In a module whose globals have
different names, a region is installed exactly when the module receives it. If it is not, the module
is as it was, and the conflict is what the module has against the region; if it is, the region
honours the contract. -/
theorem Region.install_contract (hm : m.Distinct) (width : Width) :
    ((∃ region m', (Region.install width).run m = .ok region m') ↔ m.Receives) ∧
      (∀ conflict m', (Region.install width).run m = .error conflict m' →
        m' = m ∧ m.Conflicts conflict) ∧
      ∀ region m', (Region.install width).run m = .ok region m' → region.Honours width m m' := by
  have hreceives : (∃ region m', (Region.install width).run m = .ok region m') ↔ m.Receives := by
    rw [← hm.admitsRegion_iff]
    rcases Region.install_outcome m width with ⟨hadmits, hok⟩ | ⟨hnot, conflict, herror⟩
    · exact ⟨fun _ => hadmits, fun _ => hok⟩
    · refine ⟨?_, fun hadmits => absurd hadmits hnot⟩
      rintro ⟨region, m', hok⟩
      rw [herror] at hok
      cases hok
  refine ⟨hreceives, fun conflict m' h => install_eq_error h, fun region m' h => ?_⟩
  exact honours_of_install hm (hreceives.mp ⟨region, m', h⟩) h

end Install

/-- A module that has a heap of its own and, behind it, declares the base. -/
def declaringModule : Module where
  name := "declaring"
  layout := {}
  functions := []
  globals := [
    { name := "heap", ty := .array 64 (.int 8), linkage := .internal, isConstant := false,
      init := none },
    { name := baseSymbol, ty := .int 64, linkage := .external, isConstant := false, init := none }]
  flags := []

/-- The declared base is taken over, and the width comes behind it. -/
theorem declaringModule_honoured : declaringModule.Distinct ∧ ∃ region m',
    (Region.install .full).run declaringModule = .ok region m' ∧ region.memoryBase = 1 ∧
      region.pointerSize = 2 ∧ declaringModule.Receives ∧
      region.Honours .full declaringModule m' := by
  have hm : declaringModule.Distinct := by decide
  obtain ⟨hreceives, -, hhonours⟩ := Region.install_contract hm .full
  have hrun : (Region.install .full).run declaringModule =
      .ok { width := .full, memoryBase := 1, pointerSize := 2 }
        { declaringModule with globals := declaringModule.globals ++ [Width.full.global] } := rfl
  exact ⟨hm, _, _, hrun, rfl, rfl, hreceives.mp ⟨_, _, hrun⟩, hhonours _ _ hrun⟩

end Confinement
