import Confinement.Error
import Confinement.Json.Value
import Confinement.Width

/-!
# Options

What the user chooses: the width, whether functions are worked on side by side, and whether the
result is audited. Options are read from a JSON object, in which every option may be left out and
other keys are ignored, or from a JSON array that gives them in order.
-/

set_option autoImplicit false

namespace Confinement

/-- The choices of the user. -/
structure Options where
  /-- The width of the subspace in bits. -/
  pointerSizeBits : Nat
  /-- Are functions worked on side by side? -/
  parallel : Bool
  /-- Is the result audited? -/
  verify : Bool
  deriving DecidableEq

/-- A full 32-bit subspace, one function after the other, audited. -/
def Options.default : Options where
  pointerSizeBits := 32
  parallel := false
  verify := true

instance : Inhabited Options := ⟨.default⟩

/-- The width that the options ask for. -/
def Options.width (options : Options) : Except Error Width :=
  match Width.ofBits? options.pointerSizeBits with
  | some width => .ok width
  | none => .error (.invalidWidth options.pointerSizeBits)

/-! ## Writing -/

/-- The options as a JSON object, in a fixed order and without blanks. -/
def Options.write (options : Options) : String :=
  s!"\x7b\"pointer_size_bits\":{options.pointerSizeBits},\"parallel\":{options.parallel}," ++
    s!"\"verify\":{options.verify}\x7d"

/-! ## Reading -/

/-- The options that a document gives. -/
structure GivenOptions where
  pointerSizeBits : Option Nat
  parallel : Option Bool
  verify : Option Bool
  deriving DecidableEq

namespace GivenOptions

/-- No option is given. -/
def none : GivenOptions where
  pointerSizeBits := .none
  parallel := .none
  verify := .none

/-- The options, with the usual choice for one that is not given. -/
def complete (given : GivenOptions) : Options where
  pointerSizeBits := given.pointerSizeBits.getD Options.default.pointerSizeBits
  parallel := given.parallel.getD Options.default.parallel
  verify := given.verify.getD Options.default.verify

/-- A number of bits: digits alone, within 32 bits. -/
def readBits (option : String) : Json.Value → Except OptionsFault Nat
  | .number (some n) => if n < 0x100000000 then .ok n else .error (.wrongKind option)
  | _ => .error (.wrongKind option)

/-- A yes or no. -/
def readBool (option : String) : Json.Value → Except OptionsFault Bool
  | .bool b => .ok b
  | _ => .error (.wrongKind option)

/-- Takes up the member of an object. -/
def addMember (given : GivenOptions) : Option String × Json.Value → Except OptionsFault GivenOptions
  | (.none, _) => .error .brokenKey
  | (some key, v) =>
    if key = "pointer_size_bits" then
      if given.pointerSizeBits.isSome then .error (.repeated key)
      else (readBits key v).map fun n => { given with pointerSizeBits := some n }
    else if key = "parallel" then
      if given.parallel.isSome then .error (.repeated key)
      else (readBool key v).map fun b => { given with parallel := some b }
    else if key = "verify" then
      if given.verify.isSome then .error (.repeated key)
      else (readBool key v).map fun b => { given with verify := some b }
    else .ok given

/-- The options in the items of an array. -/
def ofItems : List Json.Value → Except OptionsFault GivenOptions
  | [] => .ok none
  | [bits] => do
    let n ← readBits "pointer_size_bits" bits
    return { none with pointerSizeBits := some n }
  | [bits, parallel] => do
    let n ← readBits "pointer_size_bits" bits
    let p ← readBool "parallel" parallel
    return { none with pointerSizeBits := some n, parallel := some p }
  | [bits, parallel, verify] => do
    let n ← readBits "pointer_size_bits" bits
    let p ← readBool "parallel" parallel
    let v ← readBool "verify" verify
    return { pointerSizeBits := some n, parallel := some p, verify := some v }
  | _ => .error .tooMany

/-- The options in a JSON value. -/
def ofValue : Json.Value → Except OptionsFault GivenOptions
  | .object members => members.foldlM addMember none
  | .array items => ofItems items
  | _ => .error .notRecord

end GivenOptions

/-- Reads options from a JSON text, and refuses a width that cannot be had. -/
def Options.read (text : String) : Except Error Options :=
  match Json.parse? text with
  | none => .error (.invalidOptions .notJson)
  | some v =>
    match GivenOptions.ofValue v with
    | .error fault => .error (.invalidOptions fault)
    | .ok given => given.complete.width.map fun _ => given.complete

end Confinement
