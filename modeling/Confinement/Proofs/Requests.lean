import Confinement.Proofs.Counters

/-!
# Requests that cannot be served

Several edits work in stages: an instruction is numbered and its operands are counted before its block
lists it, and a removal takes it off the list before its operands are uncounted. What an edit needs is
asked for before the first stage changes anything, so a request that is refused leaves the function as
it was, and it is refused for one of four causes, which the fault names (`Operation.Refused`).

Whether there is a block or an instruction to speak of can be read off the history alone: the blocks
are those that were added, and the live instructions are those whose numbers were handed out and not
taken away since (`Func.Population`, one step at a time). `Func.after_declare_answers` puts this
together for every function that a history of requests leads to.
-/

set_option autoImplicit false

namespace Confinement

open Func

/-! ## Blocks and live instructions through a history -/

namespace Operation

/-- Does a request add a block? -/
def opens : Operation → Bool
  | .addBlock _ => true
  | _ => false

/-- The number whose instruction a request takes away: one if it is a served removal, and else
none. -/
def removed? (f : Func) : Operation → Option InstId
  | .erase id => ((Edit.erase id).result? f).map fun _ => id
  | _ => none

end Operation

/-- The numbers whose instructions a history takes away, in the order of its requests. -/
def Func.removed (f : Func) : List Operation → List InstId
  | [] => []
  | op :: ops => (op.removed? f).toList ++ (op.apply f).removed ops

/-- What a request does to the blocks and the live instructions: some blocks come, one instruction
comes to life or none, and one goes or none. -/
structure Func.Population (opened : Nat) (number gone : Option InstId) (f g : Func) : Prop where
  blocks : g.blocks.length = f.blocks.length + opened
  live : ∀ id, (g.inst? id).isSome ↔ ((f.inst? id).isSome ∨ number = some id) ∧ gone ≠ some id

namespace Func.Population

variable {f g : Func} {id : InstId} {b : BlockId} {change : List InstId → List InstId}

theorem length_relist (f : Func) (b : BlockId) (change : List InstId → List InstId) :
    (f.relist b change).blocks.length = f.blocks.length := by
  simp [Func.relist]

theorem same (hblocks : g.blocks.length = f.blocks.length) (hinst : ∀ id, g.inst? id = f.inst? id) :
    Population 0 none none f g where
  blocks := hblocks
  live := by
    intro id
    simp [hinst]

/-- One instruction comes with the next number. -/
theorem added {kind : InstKind} {ty : Ty}
    (hg : g = ((f.countUses kind.operands).addCell
      { kind, ty, block := b, loc := none }).relist b change) :
    Population 0 (some f.cells.size) none f g where
  blocks := by
    rw [hg, length_relist]
    exact congrArg List.length (f.blocks_countUses kind.operands)
  live := by
    intro id
    rw [hg, inst?_relist, inst?_addCell, size_countUses, inst?_countUses]
    by_cases hid : id = f.cells.size
    · simp [hid]
    · simp [hid, Ne.symm hid]

/-- One live instruction is changed. -/
theorem written {inst now : Inst} (hi : f.inst? id = some inst) (hblocks : g.blocks = f.blocks)
    (hinst : ∀ other, g.inst? other = if other = id then some now else f.inst? other) :
    Population 0 none none f g where
  blocks := congrArg List.length hblocks
  live := by
    intro other
    rw [hinst]
    by_cases hother : other = id
    · simp [hother, hi]
    · simp [hother]

/-- One live instruction goes. -/
theorem taken (hblocks : g.blocks.length = f.blocks.length)
    (hinst : ∀ other, g.inst? other = if other = id then none else f.inst? other) :
    Population 0 none (some id) f g where
  blocks := hblocks
  live := by
    intro other
    rw [hinst]
    by_cases hother : other = id
    · simp [hother]
    · simp [hother, Ne.symm hother]

end Func.Population

/-- Each request, served or refused. -/
theorem Operation.apply_population (f : Func) (op : Operation) :
    Population (if op.opens then 1 else 0) (op.given? f) (op.removed? f) f (op.apply f) := by
  -- a refused request changes nothing, so what is left is about served ones
  have hsame : Population 0 none none f f := .same rfl fun _ => rfl
  cases op with
  | addBlock name => exact ⟨List.length_append, fun id => by simp [given?, removed?]; rfl⟩
  | append b kind ty =>
    refine (Edit.append_serves f b kind ty).outcome (P := fun number g => Population 0 number none f g)
      ?_ hsame
    intro id g hrun
    obtain ⟨-, rfl, hg⟩ := (Edit.append_serves f b kind ty).of_ok hrun
    exact .added hg
  | insertAtHead b kind ty =>
    refine (Edit.insertAtHead_serves f b kind ty).outcome
      (P := fun number g => Population 0 number none f g) ?_ hsame
    intro id g hrun
    obtain ⟨-, rfl, hg⟩ := (Edit.insertAtHead_serves f b kind ty).of_ok hrun
    exact .added hg
  | insertBefore anchor kind ty =>
    refine (Edit.insertBefore_serves f anchor kind ty).outcome
      (P := fun number g => Population 0 number none f g) ?_ hsame
    intro id g hrun
    obtain ⟨b, place, -, rfl, hg⟩ := (Edit.insertBefore_serves f anchor kind ty).of_ok hrun
    exact .added hg
  | replaceOperand id slot v =>
    refine (Edit.replaceOperand_serves f id slot v).outcome
      (P := fun _ g => Population 0 none none f g) ?_ hsame
    intro u g hrun
    obtain ⟨inst, old, -, -, hg⟩ := (Edit.replaceOperand_serves f id slot v).of_ok hrun
    obtain ⟨inst, old, hi, -, -, hinst⟩ := Edit.inst?_replaceOperand hrun
    refine .written hi ?_ hinst
    rw [hg, blocks_countUse, blocks_uncountUse]
    rfl
  | setLoc id loc =>
    refine (Edit.setLoc_serves f id loc).outcome (P := fun _ g => Population 0 none none f g) ?_ hsame
    intro u g hrun
    obtain ⟨inst, -, hg⟩ := (Edit.setLoc_serves f id loc).of_ok hrun
    obtain ⟨inst, hi, -, hinst⟩ := Edit.inst?_setLoc hrun
    refine .written hi ?_ hinst
    rw [hg]
    rfl
  | erase id =>
    refine (Edit.erase_serves f id).outcome
      (P := fun done g => Population 0 none (done.map fun _ => id) f g) ?_ hsame
    intro u g hrun
    obtain ⟨inst, b, place, -, -, -, hg⟩ := (Edit.erase_serves f id).of_ok hrun
    refine .taken ?_ (Edit.inst?_erase hrun).2
    rw [hg, blocks_uncountUses]
    exact Population.length_relist f b (·.eraseIdx place)

/-- What a request takes away had a number. -/
theorem Operation.lt_size_of_removed? {f : Func} {op : Operation} {id : InstId}
    (h : op.removed? f = some id) : id < f.cells.size := by
  cases op with
  | erase taken =>
    obtain ⟨u, hdone, hid⟩ := Option.map_eq_some_iff.mp h
    cases hid
    obtain ⟨inst, b, place, -, hi, -⟩ := (Edit.erase_serves f id).of_ok (Edit.run_of_result? hdone)
    exact lt_size_of_inst? hi
  | _ => cases h

namespace Func

variable {f : Func}

/-- A history adds the blocks that it asks for. -/
theorem length_blocks_after (f : Func) (ops : List Operation) :
    (f.after ops).blocks.length = f.blocks.length + ops.countP (·.opens) := by
  induction ops generalizing f with
  | nil => rfl
  | cons op ops ih =>
    have hstep := (op.apply_population f).blocks
    have hrest := ih (op.apply f)
    rw [List.countP_cons]
    rw [after, List.foldl_cons]
    rw [after] at hrest
    omega

/-- A history hands out numbers that were not handed out before. -/
theorem size_le_of_mem_given {id : InstId} {ops : List Operation} (h : id ∈ f.given ops) :
    f.cells.size ≤ id := by
  have hnodup : (List.range f.cells.size ++ f.given ops).Nodup := by
    rw [range_append_given]
    exact List.nodup_range
  rw [← Nat.not_lt, ← List.mem_range]
  exact fun hbefore => (List.nodup_append.mp hnodup).2.2 id hbefore id h rfl

/-- Behind a history an instruction is live if it was before or its number was handed out, unless it
was taken away. -/
theorem isSome_inst?_after (f : Func) (ops : List Operation) (id : InstId) :
    ((f.after ops).inst? id).isSome ↔
      ((f.inst? id).isSome ∨ id ∈ f.given ops) ∧ id ∉ f.removed ops := by
  induction ops generalizing f with
  | nil => simp [after, given, removed]
  | cons op ops ih =>
    have hstep := (op.apply_population f).live id
    have hrest := ih (op.apply f)
    -- what the first request takes away is not handed out later
    have hlater : id ∈ (op.apply f).given ops → op.removed? f ≠ some id := by
      intro hgiven hremoved
      have hid := Operation.lt_size_of_removed? hremoved
      have hsize := size_le_of_mem_given hgiven
      rcases (op.apply_numbers f).next with ⟨-, hnext⟩ | ⟨-, hnext⟩
      · rw [hnext] at hsize
        exact Nat.not_lt.mpr hsize hid
      · rw [hnext] at hsize
        exact Nat.not_lt.mpr (Nat.le_of_succ_le hsize) hid
    rw [after, List.foldl_cons]
    rw [after] at hrest
    rw [hrest, hstep, given, removed, List.mem_append, List.mem_append, Option.mem_toList,
      Option.mem_toList]
    by_cases hid : id ∈ (op.apply f).given ops
    · simp [hid, hlater hid]
    · simp [hid, and_assoc]

end Func

/-! ## Any history -/

/-- How a function behind a history of requests answers the next one, if the history has added
`opened` blocks, handed out the numbers `given` and taken away the instructions of `removed`. -/
structure Func.Answers (opened : Nat) (given removed : List InstId) (f : Func) : Prop where
  /-- A request that is refused changes nothing. -/
  unchanged : ∀ op : Operation, op.fault? f ≠ none → op.apply f = f
  /-- A request is refused exactly for the cause that the fault names. -/
  refused : ∀ (op : Operation) (fault : Fault), op.fault? f = some fault ↔ op.Refused f fault
  /-- The blocks that were added exist, and no others. -/
  blocks : f.blocks.length = opened
  /-- The instructions whose numbers were handed out and not taken away are live, and no others. -/
  insts : ∀ id, f.inst? id = none ↔ id ∉ given ∨ id ∈ removed

/-- Behind every history of requests, a request with whatever arguments is refused exactly when what
it names does not exist or was removed, when the operand does not exist, or when the instruction to
remove is counted as read; and then nothing has changed. -/
theorem Func.after_declare_answers (name : String) (params : List Ty) (ret : Ty)
    (ops : List Operation) :
    ((declare name params ret).after ops).Answers (ops.countP (·.opens))
      ((declare name params ret).given ops) ((declare name params ret).removed ops) := by
  have hplaced : ((declare name params ret).after ops).Placed :=
    ((Built.declare name params ret).history ops).placed
  refine { unchanged := fun op h => Operation.apply_of_refused h,
           refused := fun op fault => ⟨hplaced.refused_of_fault?, fun h => h.fault?_eq⟩,
           blocks := ?blocks, insts := ?insts }
  case blocks =>
    rw [length_blocks_after]
    exact Nat.zero_add _
  case insts =>
    intro id
    have hlive := isSome_inst?_after (declare name params ret) ops id
    have hstart : ¬ ((declare name params ret).inst? id).isSome := Bool.false_ne_true
    rw [← Option.not_isSome_iff_eq_none, hlive, or_iff_right hstart, not_and_or, not_not]

/-- The number of a removed instruction is still counted at: removing it again is refused for the
counter once it is read. -/
example :
    let f := (Func.declare "f" [] .void).after [.addBlock "entry", .append 0 .unreachable .void,
      .erase 0, .append 0 (.ret (some (.inst 0))) .void]
    (Operation.setLoc 0 none).fault? f = some (.stale "f" 0) ∧
      (Operation.erase 0).fault? f = some (.stillUsed "f" 0) := by
  decide

end Confinement
