import Confinement.Access.Plan
import Confinement.Region

/-!
# The audit of a sandboxed module

The audit looks at a module alone, without knowing how it came about. In every function body it
expects one load of the base, in front of everything else; from there the address of every other
access must be computed in one of the ways that confine it, and every length must be masked. Each
slot that is not gives one finding.
-/

set_option autoImplicit false

namespace Confinement

/-- What a finding is about. -/
inductive Site where
  /-- A load of the base. -/
  | base
  /-- The address in a slot. -/
  | pointer (slot : Nat)
  /-- The length in a slot. -/
  | length (slot : Nat)
  deriving DecidableEq, Inhabited

/-- Something that the audit objects to. -/
structure Finding where
  /-- The instruction. -/
  id : InstId
  /-- The part of it. -/
  site : Site
  /-- What is wrong. -/
  reason : Reason
  deriving DecidableEq

/-- What the audit of a function refers to. -/
structure Auditor where
  /-- The function. -/
  func : Func
  /-- The region and the symbols. -/
  cx : Context
  deriving DecidableEq, Inhabited

namespace Auditor

variable (a : Auditor)

/-- Does an instruction load the base? -/
def loadsBase (id : InstId) : Bool :=
  (a.func.inst? id).any fun inst => inst.kind = .load (.global a.cx.region.memoryBase)

/-- The loads of the base in program order. -/
def baseLoads : List InstId :=
  a.func.order.filter a.loadsBase

/-- The load that the address computations are expected to start from. -/
def base? : Option InstId :=
  a.baseLoads.head?

/-- Is a value the loaded base? -/
def isBase (v : Value) : Bool :=
  match a.base? with
  | some id => v = .inst id
  | none => false

/-- Is a value the mask of the width? -/
def isMask (v : Value) : Bool :=
  match a.cx.region.width.mask? with
  | some mask => v.const?.bind (·.unsigned?) = some mask
  | none => false

/-- Is a value masked, in so far as the width needs a mask? -/
def isMasked (v : Value) : Bool :=
  match a.cx.region.width.mask? with
  | none => true
  | some _ =>
    match a.func.producer? v with
    | some (.binary .and _ rhs) => a.isMask rhs
    | _ => false

/-- Refuses a value unless it is a masked 32-bit integer that is widened by zeros. -/
def checkOffset (v : Value) : Except Reason Unit :=
  match a.func.producer? v with
  | some (.cast .zext narrow) =>
    match a.func.valueType a.cx.symbols narrow with
    | .error fault => .error (.untyped fault)
    | .ok ty =>
      if ¬ ty.isInt 32 then .error (.extendedFrom ty)
      else if a.isMasked narrow then .ok () else .error .notMasked
  | _ => .error .notExtended

/-- Refuses a value unless it is the base plus an offset inside the subspace. -/
def checkSum (v : Value) : Except Reason Unit :=
  match a.func.producer? v with
  | some (.binary .add lhs rhs) => if a.isBase lhs then a.checkOffset rhs else .error .baseNotAdded
  | _ => .error .baseNotAdded

/-- The bytes that an access of a single value through an address touches. -/
def pointeeSize (address : Value) : Except Reason Nat :=
  match a.func.valueType a.cx.symbols address with
  | .error fault => .error (.untyped fault)
  | .ok ty =>
    match ty.pointee? with
    | some pointee => .ok (a.cx.layout.storeSize pointee)
    | none => .error .notAddress

/-- Refuses an addition to a confined sum unless the constant leaves a single value inside the guard
region. -/
def checkFolded (address sum constant : Value) (firstClass : Bool) : Except Reason Unit := do
  match constant.const?.bind (·.signed?) with
  | none => throw .offsetNotConstant
  | some offset =>
    if ¬ firstClass then throw .bulkFolded
    let size ← a.pointeeSize address
    if ¬ StaysInGuard offset size a.cx.region.width.size then throw (.pastGuard offset)
    a.checkSum sum

/-- Refuses an address unless it is computed in one of the ways that confine it. -/
def checkPointer (address : Value) (firstClass : Bool) : Except Reason Unit :=
  match a.func.producer? address with
  | some (.cast .inttoptr integer) =>
    match a.func.producer? integer with
    | some (.binary .add lhs rhs) =>
      -- A sum that does not start at the base can only be a confined sum plus a constant.
      if a.isBase lhs then a.checkSum integer else a.checkFolded address lhs rhs firstClass
    | _ => a.checkSum integer
  | _ => .error .notRebuilt

/-- Refuses a length unless it is masked. -/
def checkLength (v : Value) : Except Reason Unit :=
  if a.isMasked v then .ok () else .error .lengthNotMasked

/-- Checks the value in a slot, which has to exist. -/
def checkSlot (kind : InstKind) (slot : Nat) (check : Value → Except Reason Unit) :
    Except Reason Unit :=
  match kind.operand? slot with
  | some v => check v
  | none => .error (.missingOperand slot)

/-- The finding that the outcome of a check gives, if any. -/
def finding (id : InstId) (site : Site) : Except Reason Unit → List Finding
  | .ok () => []
  | .error reason => [{ id, site, reason }]

/-- The findings on the slots of an access. -/
def accessFindings (id : InstId) (kind : InstKind) (access : Access) : List Finding :=
  (access.pointers.flatMap fun slot =>
    finding id (.pointer slot.index)
      (checkSlot kind slot.index fun v => a.checkPointer v slot.firstClass)) ++
  (access.length.toList.flatMap fun slot =>
    finding id (.length slot) (checkSlot kind slot a.checkLength))

/-- The findings on an instruction; a load of the base is no access to confine. -/
def instFindings (id : InstId) : List Finding :=
  if a.loadsBase id then []
  else
    match a.func.inst? id with
    | none => []
    | some inst =>
      match inst.kind.access? with
      | none => []
      | some access => a.accessFindings id inst.kind access

/-- The findings on the loads of the base: there is one at most, and it stands at the entry. -/
def baseFindings : List Finding :=
  (match a.baseLoads with
    | _ :: second :: _ => [{ id := second, site := .base, reason := .baseLoadedTwice }]
    | _ => []) ++
  (match a.baseLoads with
    | [] => []
    | first :: _ =>
      if (a.func.block? 0).bind (·.insts.head?) = some first then []
      else [{ id := first, site := .base, reason := .baseNotAtEntry }])

/-- Everything that the audit objects to in a function. -/
def findings : List Finding :=
  a.baseFindings ++ a.func.order.flatMap a.instFindings

/-- A finding as a message shows it. -/
def violation (finding : Finding) : Violation where
  func := a.func.name
  inst := a.func.instText a.cx.symbols finding.id
  reason := finding.reason

end Auditor

/-- Everything that the audit objects to in the function bodies of a module. -/
def Module.violations (m : Module) (region : Region) : List Violation :=
  (m.functions.filter fun f => ¬ f.isDeclaration).flatMap fun func =>
    let a : Auditor := { func, cx := m.context region }
    a.findings.map a.violation

end Confinement
