import Confinement.Proofs.Numbering

/-!
# Counters through a history of requests

Each request takes some values out of operand slots and writes some into them
(`Operation.releases`, `Operation.installs`), and the counters follow with two reservations: what is
written is not counted at a number that is not handed out yet, and a counter stops at zero
(`Func.Recounts`). A slot that was written too early is therefore not counted, but may be uncounted
later, so a counter is a lower bound of the number of slots that read its instruction whatever the
history is (`Func.Capped`). It is that number as long as no slot comes to read a number that is still
to be handed out (`Func.LooksBack`); then no counter is ever stopped at zero, and a removal is refused
for live readers and for nothing else but a stale number (`Func.after_declare_counts`).
-/

set_option autoImplicit false

namespace Confinement

open Func

/-! ## Slots that requests write -/

/-- A refused edit leaves the function as it is. -/
theorem Edit.Serves.left_of_refused {α : Type} {action : Edit α} {f : Func} {post : α → Func → Prop}
    (hs : action.Serves f post) (h : action.fault? f ≠ none) : action.left f = f := by
  rw [Serves] at hs
  rw [fault?] at h
  rw [Edit.left]
  cases hrun : action.run f with
  | ok a g =>
    rw [hrun] at h
    exact absurd rfl h
  | error fault g =>
    rw [hrun] at hs
    exact hs

namespace Operation

/-- The values that a request writes into slots. -/
def written : Operation → List Value
  | .append _ kind _ | .insertAtHead _ kind _ | .insertBefore _ kind _ => kind.operands
  | .replaceOperand _ _ v => [v]
  | _ => []

/-- The values in the slots that a request overwrites or takes away. -/
def overwritten (f : Func) : Operation → List Value
  | .replaceOperand id slot _ => (f.operand? id slot).toList
  | .erase id => f.reading id
  | _ => []

/-- The values that slots come to hold; none if the request is refused. -/
def installs (f : Func) (op : Operation) : List Value :=
  if op.fault? f = none then op.written else []

/-- The values that slots no longer hold; none if the request is refused. -/
def releases (f : Func) (op : Operation) : List Value :=
  if op.fault? f = none then op.overwritten f else []

theorem apply_of_refused {f : Func} {op : Operation} (h : op.fault? f ≠ none) : op.apply f = f := by
  cases op with
  | addBlock name => exact absurd rfl h
  | append b kind ty => exact (Edit.append_serves f b kind ty).left_of_refused h
  | insertAtHead b kind ty => exact (Edit.insertAtHead_serves f b kind ty).left_of_refused h
  | insertBefore anchor kind ty => exact (Edit.insertBefore_serves f anchor kind ty).left_of_refused h
  | replaceOperand id slot v => exact (Edit.replaceOperand_serves f id slot v).left_of_refused h
  | setLoc id loc => exact (Edit.setLoc_serves f id loc).left_of_refused h
  | erase id => exact (Edit.erase_serves f id).left_of_refused h

end Operation

/-! ## What a request does to slots and counters -/

/-- Slots give up `released` and come to hold `installed`, and the counters follow. -/
structure Func.Recounts (released installed : List Value) (f g : Func) : Prop where
  held : ∀ id, released.count (.inst id) ≤ f.reads id
  reads : ∀ id, g.reads id + released.count (.inst id) = f.reads id + installed.count (.inst id)
  uses : ∀ id, g.useCount id = f.useCount id - released.count (.inst id) +
    if id < f.cells.size then installed.count (.inst id) else 0

namespace Func.Recounts

variable {f g : Func} {id : InstId} {inst : Inst} {kind : InstKind} {ty : Ty}

theorem nothing (hreads : ∀ id, g.reads id = f.reads id)
    (huses : ∀ id, g.useCount id = f.useCount id) : Recounts [] [] f g where
  held := fun _ => Nat.zero_le _
  reads := hreads
  uses := by
    intro id
    rw [huses]
    simp

theorem added {b : BlockId} {change : List InstId → List InstId}
    (hg : g = ((f.countUses kind.operands).addCell
      { kind, ty, block := b, loc := none }).relist b change) :
    Recounts [] kind.operands f g where
  held := fun _ => Nat.zero_le _
  reads := by
    have hsize : g.cells.size = f.cells.size + 1 := by
      rw [hg]
      simp [Func.relist, Func.addCell]
    have hinst : ∀ other, g.inst? other = if other = f.cells.size then
        some { kind, ty, block := b, loc := none } else f.inst? other := by
      intro other
      rw [hg, inst?_relist, inst?_addCell, size_countUses, inst?_countUses]
    exact reads_of_added hsize hinst
  uses := by
    intro id
    -- the operands are counted before there is a counter for the new number
    rw [hg, useCount_relist, useCount_addCell, useCount_countUses, List.count_nil, Nat.sub_zero]

theorem written {slot : Nat} {old v : Value} {u : Unit}
    (hrun : (Edit.replaceOperand id slot v).run f = .ok u g) (hi : f.inst? id = some inst)
    (ho : inst.kind.operand? slot = some old) : Recounts [old] [v] f g := by
  have hcount : ∀ (w : Value) (read : InstId),
      [w].count (.inst read) = if w = .inst read then 1 else 0 := by
    intro w read
    rw [List.count_singleton]
    simp only [beq_iff_eq]
  refine ⟨?_, ?_, ?_⟩
  · intro read
    rw [hcount]
    split
    · next he => exact reads_pos_of_operand? hi (he ▸ ho)
    · exact Nat.zero_le _
  · intro read
    rw [hcount, hcount]
    exact Edit.reads_replaceOperand hrun hi ho read
  · intro read
    obtain ⟨found, was, hfound, hwas, hg⟩ := (Edit.replaceOperand_serves f id slot v).of_ok hrun
    cases hi.symm.trans hfound
    cases ho.symm.trans hwas
    rw [hg, useCount_countUse, useCount_uncountUse, useCount_setCell, size_uncountUse, size_setCell,
      hcount, hcount]
    by_cases hread : read < f.cells.size
    · simp [hread]
    · simp [hread]

theorem erased {u : Unit} (hrun : (Edit.erase id).run f = .ok u g) :
    Recounts (f.reading id) [] f g := by
  obtain ⟨inst, b, place, -, hi, -, hg⟩ := (Edit.erase_serves f id).of_ok hrun
  have hreads := Edit.reads_erase hrun hi
  rw [reading_of_inst? hi]
  refine ⟨?_, hreads, ?_⟩
  · intro read
    rw [← hreads read]
    exact Nat.le_add_left _ _
  · intro read
    rw [hg, useCount_uncountUses, useCount_setCell, useCount_relist, List.count_nil, ite_self,
      Nat.add_zero]

end Func.Recounts

/-- Each request, served or refused. -/
theorem Operation.apply_recounts (f : Func) (op : Operation) :
    f.Recounts (op.releases f) (op.installs f) (op.apply f) := by
  by_cases h : op.fault? f = none
  · rw [releases, installs, if_pos h, if_pos h]
    cases op with
    | addBlock name =>
      exact .nothing (fun _ => rfl) fun _ => rfl
    | append b kind ty =>
      obtain ⟨id, hrun⟩ := Edit.run_of_fault? h
      obtain ⟨-, -, hg⟩ := (Edit.append_serves f b kind ty).of_ok hrun
      exact .added hg
    | insertAtHead b kind ty =>
      obtain ⟨id, hrun⟩ := Edit.run_of_fault? h
      obtain ⟨-, -, hg⟩ := (Edit.insertAtHead_serves f b kind ty).of_ok hrun
      exact .added hg
    | insertBefore anchor kind ty =>
      obtain ⟨id, hrun⟩ := Edit.run_of_fault? h
      obtain ⟨b, place, -, -, hg⟩ := (Edit.insertBefore_serves f anchor kind ty).of_ok hrun
      exact .added hg
    | replaceOperand id slot v =>
      obtain ⟨u, hrun⟩ := Edit.run_of_fault? h
      obtain ⟨inst, old, hi, ho, -⟩ := (Edit.replaceOperand_serves f id slot v).of_ok hrun
      have hold : (f.operand? id slot).toList = [old] := by
        rw [operand?, hi, Option.bind_some, ho]
        rfl
      rw [overwritten, hold]
      exact .written hrun hi ho
    | setLoc id loc =>
      obtain ⟨u, hrun⟩ := Edit.run_of_fault? h
      obtain ⟨inst, -, hg⟩ := (Edit.setLoc_serves f id loc).of_ok hrun
      refine .nothing (Edit.reads_setLoc hrun) fun read => ?_
      show ((Edit.setLoc id loc).left f).useCount read = _
      rw [hg, useCount_setCell]
    | erase id =>
      obtain ⟨u, hrun⟩ := Edit.run_of_fault? h
      exact .erased hrun
  · -- refused: no slot changes
    rw [releases, installs, if_neg h, if_neg h, apply_of_refused h]
    exact .nothing (fun _ => rfl) fun _ => rfl

/-! ## Counters -/

/-- A value names no number that is still to be handed out. -/
def Value.Precedes (v : Value) (n : Nat) : Prop :=
  ∀ id ∈ v.inst?, id < n

instance (v : Value) (n : Nat) : Decidable (v.Precedes n) :=
  inferInstanceAs (Decidable (∀ id ∈ v.inst?, id < n))

namespace Func

/-- Through a history, no slot comes to hold a number that is still to be handed out. -/
def LooksBack (f : Func) : List Operation → Prop
  | [] => True
  | op :: ops => (∀ v ∈ op.installs f, v.Precedes f.cells.size) ∧ (op.apply f).LooksBack ops

instance decidableLooksBack : (f : Func) → (ops : List Operation) → Decidable (f.LooksBack ops)
  | _, [] => inferInstanceAs (Decidable True)
  | f, op :: ops =>
    have := decidableLooksBack (op.apply f) ops
    inferInstanceAs (Decidable ((∀ v ∈ op.installs f, v.Precedes f.cells.size) ∧
      (op.apply f).LooksBack ops))

/-- No counter is more than the number of slots that read its instruction. -/
def Capped (f : Func) : Prop :=
  ∀ id, f.useCount id ≤ f.reads id

variable {f g : Func} {released installed : List Value}

/-- A slot that gives up what was never counted takes one away on both sides, or stops at zero. -/
theorem Recounts.capped (h : Recounts released installed f g) (hf : f.Capped) : g.Capped := by
  intro id
  have hcap := hf id
  have hheld := h.held id
  have hreads := h.reads id
  have huses := h.uses id
  have hnew : (if id < f.cells.size then installed.count (.inst id) else 0) ≤
      installed.count (.inst id) := by
    split
    · exact Nat.le_refl _
    · exact Nat.zero_le _
  -- what is given up is held, so a subtraction that stops at zero stops at a lower bound
  omega

/-- What slots come to read is counted if it has a number. -/
theorem Recounts.exact (h : Recounts released installed f g) (hf : f.Exact)
    (hback : ∀ v ∈ installed, v.Precedes f.cells.size) : g.Exact := by
  intro id
  have hcount := hf id
  have hheld := h.held id
  have hreads := h.reads id
  have huses := h.uses id
  have hnew : (if id < f.cells.size then installed.count (.inst id) else 0) =
      installed.count (.inst id) := by
    split
    · rfl
    · next hid =>
      -- nothing that is written names a later number
      rw [eq_comm, List.count_eq_zero]
      exact fun hmem => hid (hback _ hmem id rfl)
  omega

theorem Capped.after (hf : f.Capped) (ops : List Operation) : (f.after ops).Capped := by
  induction ops generalizing f with
  | nil => exact hf
  | cons op ops ih => exact ih ((op.apply_recounts f).capped hf)

theorem Exact.after {ops : List Operation} (hf : f.Exact) (hback : f.LooksBack ops) :
    (f.after ops).Exact := by
  induction ops generalizing f with
  | nil => exact hf
  | cons op ops ih => exact ih ((op.apply_recounts f).exact hf hback.1) hback.2

/-- A removal is refused for what the counter says, or because there is nothing to remove. -/
theorem Placed.erase_refused_iff (hf : f.Placed) {id : InstId} :
    (Operation.erase id).fault? f ≠ none ↔ 0 < f.useCount id ∨ f.inst? id = none := by
  constructor
  · intro h
    obtain ⟨fault, hfault⟩ := Option.ne_none_iff_exists'.mp h
    cases hf.refused_of_fault? hfault with
    | noBlock hop => cases hop
    | stale hop hi => exact .inr (Option.some.inj hop ▸ hi)
    | stillUsed hu => exact .inl hu
  · intro h
    rcases Nat.eq_zero_or_pos (f.useCount id) with hu | hu
    · have hi : f.inst? id = none := h.resolve_left (Nat.not_lt.mpr (Nat.le_of_eq hu))
      simp [(Operation.Refused.stale rfl hi fun _ => hu : (Operation.erase id).Refused f _).fault?_eq]
    · simp [(Operation.Refused.stillUsed hu).fault?_eq]

/-- What the counters of a function say when all slots were written to read earlier numbers. -/
structure Counted (f : Func) : Prop where
  /-- A counter is the number of slots that read its instruction, be the instruction gone or not. -/
  exact : f.Exact
  /-- What the next request takes out of slots is counted, so no counter is stopped at zero. -/
  covered : ∀ (op : Operation) (id : InstId),
    (op.releases f).count (.inst id) ≤ f.useCount id
  /-- A removal is refused if the instruction is read or there is none. -/
  refused : ∀ id, (Operation.erase id).fault? f ≠ none ↔ 0 < f.reads id ∨ f.inst? id = none

theorem Exact.counted (hf : f.Exact) (hplaced : f.Placed) : f.Counted where
  exact := hf
  covered := by
    intro op id
    rw [hf id]
    exact (op.apply_recounts f).held id
  refused := by
    intro id
    rw [hplaced.erase_refused_iff, hf id]

/-- Behind every history of requests the counters are lower bounds of the numbers of readers, and
they are these numbers if every slot was written to read an earlier number. A word that can count
all slots can therefore hold every counter. -/
theorem after_declare_counts (name : String) (params : List Ty) (ret : Ty) (ops : List Operation) :
    ((declare name params ret).after ops).Capped ∧
      (∀ id, ((declare name params ret).after ops).useCount id ≤
        ((declare name params ret).after ops).slots.length) ∧
      ((declare name params ret).LooksBack ops → ((declare name params ret).after ops).Counted) := by
  have hexact : (declare name params ret).Exact := fun _ => rfl
  have hstart : (declare name params ret).Capped := fun id => Nat.le_of_eq (hexact id)
  have hcapped := hstart.after ops
  refine ⟨hcapped, fun id => Nat.le_trans (hcapped id) List.count_le_length, fun hback => ?_⟩
  exact (hexact.after hback).counted ((Built.declare name params ret).history ops).placed

/-- A sum of two equal operands is returned, cannot be removed, is no longer returned and is removed. -/
def supersededSum : List Operation :=
  [.addBlock "entry", .append 0 (.cast .zext (.int 8 1)) (.int 64),
    .append 0 (.binary .add (.inst 0) (.inst 0)) (.int 64), .append 0 (.ret (some (.inst 1))) .void,
    .erase 1, .replaceOperand 2 0 (.inst 0), .erase 1]

theorem supersededSum_counted :
    (declare "f" [] (.int 64)).LooksBack supersededSum ∧
      ((declare "f" [] (.int 64)).after supersededSum).Counted ∧
      ((declare "f" [] (.int 64)).after supersededSum).useCount 0 = 1 :=
  have hback : (declare "f" [] (.int 64)).LooksBack supersededSum := by decide
  ⟨hback, (after_declare_counts "f" [] (.int 64) supersededSum).2.2 hback, by decide⟩

/-- An instruction that reads itself is not counted as its own reader. -/
example :
    let f := (declare "f" [] (.int 64)).after
      [.addBlock "entry", .append 0 (.ret (some (.inst 0))) .void]
    f.useCount 0 = 0 ∧ f.reads 0 = 1 := by
  decide

end Func

end Confinement
