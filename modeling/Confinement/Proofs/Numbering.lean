import Confinement.Proofs.Census

/-!
# Numbers and places through a history of requests

A history is a list of requests to edit one function, each of which is served or refused
(`Func.after`). The numbers that it hands out are 0, 1, 2 and so on (`Func.range_append_given`), so no
number is handed out twice; a number whose instruction is gone never comes to mean another one
(`Func.gone_after`). A served insertion puts its instruction at one spot of one block and moves
nothing else (`Func.Splices`), and whatever is live can be found in its block
(`Func.Placed.fault?_ne_unlisted`). `Func.Orderly` gathers this for a function behind any history and
for one request more.
-/

set_option autoImplicit false

namespace Confinement

open Func

/-! ## Results of requests -/

namespace Edit

variable {α : Type}

/-- The result of an edit; none if it is refused. -/
def result? (action : Edit α) (f : Func) : Option α :=
  match action.run f with
  | .ok a _ => some a
  | .error _ _ => none

/-- Why an edit is refused; nothing if it is served. -/
def fault? (action : Edit α) (f : Func) : Option Fault :=
  match action.run f with
  | .ok _ _ => none
  | .error fault _ => some fault

/-- What holds of the result of an edit and of the function that it leaves: what holds of a served
run, and that nothing has changed if it is refused. -/
theorem Serves.outcome {action : Edit α} {f : Func} {post : α → Func → Prop}
    {P : Option α → Func → Prop} (hs : action.Serves f post)
    (hserved : ∀ a g, action.run f = .ok a g → P (some a) g) (hrefused : P none f) :
    P (action.result? f) (action.left f) := by
  rw [Serves] at hs
  rw [result?, Edit.left]
  cases hrun : action.run f with
  | ok a g => exact hserved a g hrun
  | error fault g =>
    rw [hrun] at hs
    have hsame : g = f := hs
    rw [hsame]
    exact hrefused

theorem run_of_result? {action : Edit α} {f : Func} {a : α} (h : action.result? f = some a) :
    action.run f = .ok a (action.left f) := by
  rw [result?] at h
  rw [Edit.left]
  cases hrun : action.run f with
  | ok b g =>
    rw [hrun] at h
    cases h
    rfl
  | error fault g =>
    rw [hrun] at h
    cases h

theorem run_of_fault? {action : Edit α} {f : Func} (h : action.fault? f = none) :
    ∃ a, action.run f = .ok a (action.left f) := by
  rw [fault?] at h
  rw [Edit.left]
  cases hrun : action.run f with
  | ok a g => exact ⟨a, rfl⟩
  | error fault g =>
    rw [hrun] at h
    cases h

end Edit

namespace Operation

/-- The number that a request hands out: one if it is a served insertion, and else none. -/
def given? (f : Func) : Operation → Option InstId
  | .append b kind ty => (Edit.append b kind ty).result? f
  | .insertAtHead b kind ty => (Edit.insertAtHead b kind ty).result? f
  | .insertBefore anchor kind ty => (Edit.insertBefore anchor kind ty).result? f
  | _ => none

/-- Why a request is refused; nothing if it is served. -/
def fault? (f : Func) : Operation → Option Fault
  | .addBlock name => (Edit.addBlock name).fault? f
  | .append b kind ty => (Edit.append b kind ty).fault? f
  | .insertAtHead b kind ty => (Edit.insertAtHead b kind ty).fault? f
  | .insertBefore anchor kind ty => (Edit.insertBefore anchor kind ty).fault? f
  | .replaceOperand id slot v => (Edit.replaceOperand id slot v).fault? f
  | .setLoc id loc => (Edit.setLoc id loc).fault? f
  | .erase id => (Edit.erase id).fault? f

end Operation

/-- The function that a history of requests leaves. -/
def Func.after (f : Func) (ops : List Operation) : Func :=
  ops.foldl Operation.apply f

/-- The numbers that a history hands out, in the order of its requests. -/
def Func.given (f : Func) : List Operation → List InstId
  | [] => []
  | op :: ops => (op.given? f).toList ++ (op.apply f).given ops

/-! ## Numbers -/

/-- What a request does to the numbers: it hands out the next one or none, and no number that was
handed out before comes to life. -/
structure Func.Numbers (number : Option InstId) (f g : Func) : Prop where
  next : number = none ∧ g.cells.size = f.cells.size ∨
    number = some f.cells.size ∧ g.cells.size = f.cells.size + 1
  gone : ∀ id, id < f.cells.size → f.inst? id = none → g.inst? id = none

namespace Func.Numbers

variable {f g : Func}

theorem same (hsize : g.cells.size = f.cells.size) (hinst : ∀ id, g.inst? id = f.inst? id) :
    Numbers none f g where
  next := .inl ⟨rfl, hsize⟩
  gone := fun id _ hid => (hinst id).trans hid

/-- One live instruction is changed, or goes. -/
theorem written {id : InstId} {inst : Inst} {now : Option Inst} (hi : f.inst? id = some inst)
    (hsize : g.cells.size = f.cells.size)
    (hinst : ∀ other, g.inst? other = if other = id then now else f.inst? other) :
    Numbers none f g where
  next := .inl ⟨rfl, hsize⟩
  gone := by
    intro other _ hother
    rw [hinst, if_neg, hother]
    rintro rfl
    rw [hi] at hother
    cases hother

/-- One instruction comes with the next number. -/
theorem added {id : InstId} {inst : Inst} (hid : id = f.cells.size)
    (hsize : g.cells.size = f.cells.size + 1)
    (hinst : ∀ other, g.inst? other = if other = id then some inst else f.inst? other) :
    Numbers (some id) f g where
  next := .inr ⟨congrArg some hid, hsize⟩
  gone := by
    intro other hother hnone
    rw [hinst, if_neg, hnone]
    exact hid ▸ Nat.ne_of_lt hother

end Func.Numbers

/-- Each request, served or refused. -/
theorem Operation.apply_numbers (f : Func) (op : Operation) :
    Numbers (op.given? f) f (op.apply f) := by
  -- a refused request hands out nothing and changes nothing, so what is left is about served ones
  have hsame : Numbers none f f := .same rfl fun _ => rfl
  cases op with
  | addBlock name => exact .same rfl fun _ => rfl
  | append b kind ty =>
    refine (Edit.append_serves f b kind ty).outcome (P := fun number g => Numbers number f g)
      ?_ hsame
    intro id g hrun
    obtain ⟨hid, hsize, hinst⟩ := Edit.inst?_append hrun
    exact .added hid hsize hinst
  | insertAtHead b kind ty =>
    refine (Edit.insertAtHead_serves f b kind ty).outcome (P := fun number g => Numbers number f g)
      ?_ hsame
    intro id g hrun
    obtain ⟨hid, hsize, hinst⟩ := Edit.inst?_insertAtHead hrun
    exact .added hid hsize hinst
  | insertBefore anchor kind ty =>
    refine (Edit.insertBefore_serves f anchor kind ty).outcome
      (P := fun number g => Numbers number f g) ?_ hsame
    intro id g hrun
    obtain ⟨hid, hsize, b, hinst⟩ := Edit.inst?_insertBefore hrun
    exact .added hid hsize hinst
  | replaceOperand id slot v =>
    refine (Edit.replaceOperand_serves f id slot v).outcome (P := fun _ g => Numbers none f g) ?_ hsame
    intro u g hrun
    obtain ⟨inst, old, hi, -, hsize, hinst⟩ := Edit.inst?_replaceOperand hrun
    exact .written hi hsize hinst
  | setLoc id loc =>
    refine (Edit.setLoc_serves f id loc).outcome (P := fun _ g => Numbers none f g) ?_ hsame
    intro u g hrun
    obtain ⟨inst, hi, hsize, hinst⟩ := Edit.inst?_setLoc hrun
    exact .written hi hsize hinst
  | erase id =>
    refine (Edit.erase_serves f id).outcome (P := fun _ g => Numbers none f g) ?_ hsame
    intro u g hrun
    obtain ⟨inst, b, place, -, hi, -, -⟩ := (Edit.erase_serves f id).of_ok hrun
    obtain ⟨hsize, hinst⟩ := Edit.inst?_erase hrun
    exact .written hi hsize hinst

namespace Func

variable {f : Func}

/-- The numbers that were handed out before a history, followed by those that it hands out, are the
first ones, in order and without a hole. -/
theorem range_append_given (f : Func) (ops : List Operation) :
    List.range f.cells.size ++ f.given ops = List.range (f.after ops).cells.size := by
  induction ops generalizing f with
  | nil => exact List.append_nil _
  | cons op ops ih =>
    -- the first request hands out the next number, which the range then ends with, or none
    have hrest := ih (op.apply f)
    rw [given]
    rcases (op.apply_numbers f).next with ⟨hnone, hsize⟩ | ⟨hsome, hsize⟩
    · rw [hsize] at hrest
      rw [hnone]
      exact hrest
    · rw [hsize, List.range_succ, List.append_assoc] at hrest
      rw [hsome]
      exact hrest

/-- What is gone does not come back. -/
theorem gone_after {id : InstId} (hid : id < f.cells.size) (hnone : f.inst? id = none)
    (ops : List Operation) : (f.after ops).inst? id = none := by
  induction ops generalizing f with
  | nil => exact hnone
  | cons op ops ih =>
    have hstep := op.apply_numbers f
    refine ih ?_ (hstep.gone id hid hnone)
    rcases hstep.next with ⟨-, hsize⟩ | ⟨-, hsize⟩
    · exact hsize ▸ hid
    · exact hsize ▸ Nat.lt_succ_of_lt hid

/-! ## Places -/

section Lists

variable {α : Type}

theorem insertIdx_length_append (before after : List α) (a : α) :
    (before ++ after).insertIdx before.length a = before ++ a :: after := by
  induction before with
  | nil => rfl
  | cons b before ih => rw [List.cons_append, List.length_cons, List.insertIdx_succ_cons, ih]; rfl

/-- What stands before and after the first place of an entry. -/
theorem exists_append_of_idxOf? [BEq α] [LawfulBEq α] {l : List α} {a : α} {place : Nat}
    (h : l.idxOf? a = some place) :
    ∃ before after, l = before ++ a :: after ∧ before.length = place := by
  obtain ⟨hlt, hget, -⟩ := List.idxOf?_eq_some_iff.mp h
  refine ⟨l.take place, l.drop (place + 1), ?_, List.length_take_of_le (Nat.le_of_lt hlt)⟩
  calc l = l.take place ++ l.drop place := (List.take_append_drop place l).symm
    _ = l.take place ++ a :: l.drop (place + 1) := by rw [List.drop_eq_getElem_cons hlt, hget]

end Lists

/-- The instruction `inst` comes to stand between `before` and `after` in its block, under the next
number. Every other instruction is what it was, and every other place where it was. -/
structure Splices (f : Func) (id : InstId) (inst : Inst) (before after : List InstId) (g : Func) :
    Prop where
  number : id = f.cells.size
  insts : ∀ other, g.inst? other = if other = id then some inst else f.inst? other
  blocks : ∃ name front back, front.length = inst.block ∧
    f.blocks = front ++ { name, insts := before ++ after } :: back ∧
    g.blocks = front ++ { name, insts := before ++ id :: after } :: back

variable {g : Func} {kind : InstKind} {ty : Ty} {b : BlockId} {before after : List InstId}

/-- A change of one list puts the new number between the two halves of the list. -/
theorem splices_of_relist {block : Block} {change : List InstId → List InstId}
    (hb : f.block? b = some block) (hinsts : block.insts = before ++ after)
    (hchange : change block.insts = before ++ f.cells.size :: after) :
    f.Splices f.cells.size { kind, ty, block := b, loc := none } before after
      (((f.countUses kind.operands).addCell { kind, ty, block := b, loc := none }).relist b
        change) where
  number := rfl
  insts := by
    intro other
    rw [inst?_relist, inst?_addCell, size_countUses, inst?_countUses]
  blocks := by
    obtain ⟨hlt, hget⟩ := List.getElem?_eq_some_iff.mp hb
    refine ⟨block.name, f.blocks.take b, f.blocks.drop (b + 1), ?_, ?_, ?_⟩
    · exact List.length_take_of_le (Nat.le_of_lt hlt)
    · rw [← hinsts]
      calc f.blocks = f.blocks.take b ++ f.blocks.drop b := (List.take_append_drop b _).symm
        _ = f.blocks.take b ++ block :: f.blocks.drop (b + 1) := by
          rw [List.drop_eq_getElem_cons hlt, hget]
    · show ((f.countUses kind.operands).blocks).modify b _ = _
      rw [blocks_countUses, List.modify_eq_take_cons_drop hlt, hget, hchange]

/-- The order of a function changes at the one spot only. -/
theorem Splices.order {id : InstId} {inst : Inst} (h : f.Splices id inst before after g) :
    ∃ front back, f.order = front ++ (before ++ after) ++ back ∧
      g.order = front ++ (before ++ id :: after) ++ back := by
  obtain ⟨name, front, back, -, hf, hg⟩ := h.blocks
  refine ⟨front.flatMap (·.insts), back.flatMap (·.insts), ?_, ?_⟩
  · rw [Func.order, hf, List.flatMap_append, List.flatMap_cons, ← List.append_assoc]
  · rw [Func.order, hg, List.flatMap_append, List.flatMap_cons, ← List.append_assoc]

end Func

/-- What an insertion asks for: the instruction, and what stands before and after it in its block. -/
inductive Operation.Asks : Operation → Inst → List InstId → List InstId → Prop
  /-- The end of a block. -/
  | append (b : BlockId) (kind : InstKind) (ty : Ty) (before : List InstId) :
    Asks (.append b kind ty) { kind, ty, block := b, loc := none } before []
  /-- The head of a block. -/
  | insertAtHead (b : BlockId) (kind : InstKind) (ty : Ty) (after : List InstId) :
    Asks (.insertAtHead b kind ty) { kind, ty, block := b, loc := none } [] after
  /-- The spot directly before another instruction. -/
  | insertBefore (anchor : InstId) (kind : InstKind) (ty : Ty) (b : BlockId)
    (before after : List InstId) :
    Asks (.insertBefore anchor kind ty) { kind, ty, block := b, loc := none } before
      (anchor :: after)

/-- A served insertion puts its instruction where it was asked to. -/
theorem Operation.splices (f : Func) (op : Operation) {id : InstId} (h : op.given? f = some id) :
    ∃ inst before after, op.Asks inst before after ∧ f.Splices id inst before after (op.apply f) := by
  cases op with
  | append b kind ty =>
    have hrun := Edit.run_of_result? h
    obtain ⟨hb, rfl, hg⟩ := (Edit.append_serves f b kind ty).of_ok hrun
    obtain ⟨block, hb⟩ := Option.isSome_iff_exists.mp hb
    refine ⟨_, block.insts, [], .append b kind ty block.insts, ?_⟩
    rw [apply, hg]
    exact splices_of_relist hb (List.append_nil _).symm rfl
  | insertAtHead b kind ty =>
    have hrun := Edit.run_of_result? h
    obtain ⟨hb, rfl, hg⟩ := (Edit.insertAtHead_serves f b kind ty).of_ok hrun
    obtain ⟨block, hb⟩ := Option.isSome_iff_exists.mp hb
    refine ⟨_, [], block.insts, .insertAtHead b kind ty block.insts, ?_⟩
    rw [apply, hg]
    exact splices_of_relist hb rfl rfl
  | insertBefore anchor kind ty =>
    have hrun := Edit.run_of_result? h
    obtain ⟨b, place, hplace, rfl, hg⟩ := (Edit.insertBefore_serves f anchor kind ty).of_ok hrun
    obtain ⟨found, block, -, -, hb, hidx⟩ := place?_eq_some hplace
    obtain ⟨before, after, hinsts, hplace⟩ := exists_append_of_idxOf? hidx
    refine ⟨_, before, anchor :: after, .insertBefore anchor kind ty b before after, ?_⟩
    rw [apply, hg]
    refine splices_of_relist hb hinsts ?_
    rw [hinsts, ← hplace, insertIdx_length_append]
  -- the others hand out nothing
  | _ => cases h

/-! ## Refusals -/

namespace Edit

variable {α : Type} {action : Edit α} {f g : Func}

theorem fault?_of_ok {a : α} (h : action.run f = .ok a g) : action.fault? f = none := by
  rw [fault?, h]

theorem fault?_of_error {fault : Fault} (h : action.run f = .error fault g) :
    action.fault? f = some fault := by
  rw [fault?, h]

end Edit

namespace Operation

/-- The block that a request names. -/
def block? : Operation → Option BlockId
  | .append b _ _ | .insertAtHead b _ _ => some b
  | _ => none

/-- The instruction that a request needs to be live. -/
def target? : Operation → Option InstId
  | .insertBefore id _ _ | .replaceOperand id _ _ | .setLoc id _ | .erase id => some id
  | _ => none

/-- Why a function cannot serve a request. -/
inductive Refused (f : Func) : Operation → Fault → Prop
  /-- The block does not exist. -/
  | noBlock {op : Operation} {b : BlockId} (hop : op.block? = some b) (h : f.blocks.length ≤ b) :
    Refused f op (.noBlock f.name b)
  /-- The instruction does not exist or was removed. A removal looks at the counter first. -/
  | stale {op : Operation} {id : InstId} (hop : op.target? = some id) (h : f.inst? id = none)
    (hunread : op = .erase id → f.useCount id = 0) : Refused f op (.stale f.name id)
  /-- The instruction has no such operand. -/
  | noSlot {id : InstId} {slot : Nat} {v : Value} {inst : Inst} (hi : f.inst? id = some inst)
    (h : inst.kind.operands.length ≤ slot) : Refused f (.replaceOperand id slot v) (.noSlot id slot)
  /-- The instruction is counted as read. -/
  | stillUsed {id : InstId} (h : 0 < f.useCount id) : Refused f (.erase id) (.stillUsed f.name id)

end Operation

theorem Func.block?_eq_none_iff {f : Func} {b : BlockId} : f.block? b = none ↔ f.blocks.length ≤ b :=
  List.getElem?_eq_none_iff

/-- Where live instructions and listed numbers agree, a request is refused for what its fault says. -/
theorem Func.Placed.refused_of_fault? {f : Func} {op : Operation} {fault : Fault} (hf : f.Placed)
    (h : op.fault? f = some fault) : op.Refused f fault := by
  cases op with
  | addBlock name => cases h
  | append b kind ty =>
    cases hb : f.block? b with
    | none =>
      rw [Operation.fault?, Edit.fault?_of_error (Edit.append_noBlock kind ty hb)] at h
      cases h
      exact .noBlock rfl (block?_eq_none_iff.mp hb)
    | some block =>
      have hsome : (f.block? b).isSome := Option.isSome_of_eq_some hb
      simp [Operation.fault?, Edit.fault?_of_ok (Edit.append_eq kind ty hsome)] at h
  | insertAtHead b kind ty =>
    cases hb : f.block? b with
    | none =>
      rw [Operation.fault?, Edit.fault?_of_error (Edit.insertAtHead_noBlock kind ty hb)] at h
      cases h
      exact .noBlock rfl (block?_eq_none_iff.mp hb)
    | some block =>
      have hsome : (f.block? b).isSome := Option.isSome_of_eq_some hb
      simp [Operation.fault?, Edit.fault?_of_ok (Edit.insertAtHead_eq kind ty hsome)] at h
  | insertBefore anchor kind ty =>
    cases hi : f.inst? anchor with
    | none =>
      rw [Operation.fault?, Edit.fault?_of_error (Edit.insertBefore_stale kind ty hi)] at h
      cases h
      exact .stale rfl hi fun he => nomatch he
    | some inst =>
      -- what is live has a place
      obtain ⟨place, hplace⟩ := hf.place?_eq hi
      simp [Operation.fault?, Edit.fault?_of_ok (Edit.insertBefore_eq kind ty hplace)] at h
  | replaceOperand id slot v =>
    cases hi : f.inst? id with
    | none =>
      rw [Operation.fault?, Edit.fault?_of_error (Edit.replaceOperand_stale slot v hi)] at h
      cases h
      exact .stale rfl hi fun he => nomatch he
    | some inst =>
      cases ho : inst.kind.operand? slot with
      | none =>
        rw [Operation.fault?, Edit.fault?_of_error (Edit.replaceOperand_noSlot v hi ho)] at h
        cases h
        exact .noSlot hi (List.getElem?_eq_none_iff.mp ho)
      | some old => simp [Operation.fault?, Edit.fault?_of_ok (Edit.replaceOperand_eq v hi ho)] at h
  | setLoc id loc =>
    cases hi : f.inst? id with
    | none =>
      rw [Operation.fault?, Edit.fault?_of_error (Edit.setLoc_stale loc hi)] at h
      cases h
      exact .stale rfl hi fun he => nomatch he
    | some inst => simp [Operation.fault?, Edit.fault?_of_ok (Edit.setLoc_eq loc hi)] at h
  | erase id =>
    rcases Nat.eq_zero_or_pos (f.useCount id) with hu | hu
    · cases hi : f.inst? id with
      | none =>
        rw [Operation.fault?, Edit.fault?_of_error (Edit.erase_stale hu hi)] at h
        cases h
        exact .stale rfl hi fun _ => hu
      | some inst =>
        obtain ⟨place, hplace⟩ := hf.place?_eq hi
        simp [Operation.fault?, Edit.fault?_of_ok (Edit.erase_eq hu hi hplace)] at h
    · rw [Operation.fault?, Edit.fault?_of_error (Edit.erase_stillUsed hu)] at h
      cases h
      exact .stillUsed hu

/-- Each of the causes has its request refused. -/
theorem Operation.Refused.fault?_eq {f : Func} {op : Operation} {fault : Fault}
    (h : op.Refused f fault) : op.fault? f = some fault := by
  cases h with
  | noBlock hop h =>
    have hb := block?_eq_none_iff.mpr h
    cases op with
    | append b kind ty =>
      cases hop
      exact Edit.fault?_of_error (Edit.append_noBlock kind ty hb)
    | insertAtHead b kind ty =>
      cases hop
      exact Edit.fault?_of_error (Edit.insertAtHead_noBlock kind ty hb)
    | _ => cases hop
  | stale hop h hunread =>
    cases op with
    | insertBefore anchor kind ty =>
      cases hop
      exact Edit.fault?_of_error (Edit.insertBefore_stale kind ty h)
    | replaceOperand id slot v =>
      cases hop
      exact Edit.fault?_of_error (Edit.replaceOperand_stale slot v h)
    | setLoc id loc =>
      cases hop
      exact Edit.fault?_of_error (Edit.setLoc_stale loc h)
    | erase id =>
      cases hop
      exact Edit.fault?_of_error (Edit.erase_stale (hunread rfl) h)
    | _ => cases hop
  | noSlot hi h =>
    exact Edit.fault?_of_error (Edit.replaceOperand_noSlot _ hi (List.getElem?_eq_none_iff.mpr h))
  | stillUsed h => exact Edit.fault?_of_error (Edit.erase_stillUsed h)

/-- Where live instructions and listed numbers agree, no request misses an instruction in its block. -/
theorem Func.Placed.fault?_ne_unlisted {f : Func} (hf : f.Placed) (op : Operation) (missing : InstId) :
    op.fault? f ≠ some (.unlisted missing) := by
  intro h
  cases hf.refused_of_fault? h

/-- A served removal empties a cell that was in use. -/
theorem Operation.inst?_of_erased {f : Func} {id : InstId}
    (h : (Operation.erase id).fault? f = none) :
    id < f.cells.size ∧ id < ((Operation.erase id).apply f).cells.size ∧
      ((Operation.erase id).apply f).inst? id = none := by
  obtain ⟨u, hrun⟩ := Edit.run_of_fault? h
  obtain ⟨inst, b, place, -, hi, -, -⟩ := (Edit.erase_serves f id).of_ok hrun
  obtain ⟨hsize, hinst⟩ := Edit.inst?_erase hrun
  have hid : id < f.cells.size := lt_size_of_inst? hi
  refine ⟨hid, ?_, ?_⟩
  · rw [apply, hsize]
    exact hid
  · rw [apply, hinst, if_pos rfl]

/-! ## Any history -/

/-- What holds of a function behind a history of requests that has handed out the numbers `given`. -/
structure Func.Orderly (given : List InstId) (f : Func) : Prop where
  /-- Every live instruction is listed once, in the block that it names, and nothing else is. -/
  placed : f.Placed
  /-- The program order repeats nothing. -/
  once : f.order.Nodup
  /-- The program order has the live instructions. -/
  lists : ∀ id, id ∈ f.order ↔ ∃ inst, f.inst? id = some inst
  /-- As many are listed as are live. -/
  counts : f.instCount = (f.liveBelow f.cells.size).card
  /-- The numbers were handed out one by one, and a live instruction has one of them. -/
  numbers : given = List.range f.cells.size
  /-- The next insertion gets another number. -/
  fresh : ∀ (op : Operation) (id : InstId), op.given? f = some id → id ∉ given
  /-- The next insertion puts its instruction where it was asked to and moves nothing else, in the
  lists of the blocks as in the program order. -/
  spliced : ∀ (op : Operation) (id : InstId), op.given? f = some id →
    ∃ inst before after, op.Asks inst before after ∧
      f.Splices id inst before after (op.apply f) ∧
      ∃ front back, f.order = front ++ (before ++ after) ++ back ∧
        (op.apply f).order = front ++ (before ++ id :: after) ++ back
  /-- No request misses an instruction in its block. -/
  found : ∀ (op : Operation) (id : InstId), op.fault? f ≠ some (.unlisted id)
  /-- What was removed stays away, whatever comes. -/
  gone : ∀ id ∈ given, f.inst? id = none → ∀ more, (f.after more).inst? id = none
  /-- So does what is removed next. -/
  erased : ∀ id, (Operation.erase id).fault? f = none →
    id ∈ given ∧ ∀ more, (((Operation.erase id).apply f).after more).inst? id = none

/-- Numbers and lists agree behind every history of requests, with whatever arguments. -/
theorem Func.after_declare_orderly (name : String) (params : List Ty) (ret : Ty)
    (ops : List Operation) :
    ((declare name params ret).after ops).Orderly ((declare name params ret).given ops) := by
  have hplaced : ((declare name params ret).after ops).Placed :=
    ((Built.declare name params ret).history ops).placed
  have hnumbers : (declare name params ret).given ops =
      List.range ((declare name params ret).after ops).cells.size :=
    (List.nil_append _).symm.trans (range_append_given (declare name params ret) ops)
  refine { placed := hplaced, once := hplaced.nodup_order, lists := fun id => hplaced.mem_order,
           counts := hplaced.instCount_eq_card, numbers := hnumbers, fresh := ?fresh,
           spliced := ?spliced, found := hplaced.fault?_ne_unlisted, gone := ?gone,
           erased := ?erased }
  case fresh =>
    intro op id hid hmem
    -- the next number is beyond the range
    obtain ⟨inst, before, after, -, hsplice⟩ := op.splices _ hid
    rw [hnumbers, List.mem_range, hsplice.number] at hmem
    exact Nat.lt_irrefl _ hmem
  case spliced =>
    intro op id hid
    obtain ⟨inst, before, after, hasks, hsplice⟩ := op.splices _ hid
    exact ⟨inst, before, after, hasks, hsplice, hsplice.order⟩
  case gone =>
    intro id hid hnone more
    rw [hnumbers, List.mem_range] at hid
    exact gone_after hid hnone more
  case erased =>
    intro id hserved
    obtain ⟨hid, hlater, hnone⟩ := Operation.inst?_of_erased hserved
    rw [hnumbers, List.mem_range]
    exact ⟨hid, fun more => gone_after hlater hnone more⟩

/-- The number of a removed instruction is passed over, not handed out again. -/
example :
    let history : List Operation := [.addBlock "entry", .append 0 (.ret none) .void,
      .insertBefore 0 .unreachable .void, .erase 1, .insertAtHead 0 .unreachable .void]
    let f := Func.declare "f" [] .void
    f.given history = [0, 1, 2] ∧ (f.after history).order = [2, 0] := by
  decide

end Confinement
