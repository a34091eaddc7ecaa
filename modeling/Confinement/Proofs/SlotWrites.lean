import Confinement.Proofs.Rewriting

/-!
# Reading and writing slots

The slots of an instruction can be listed in two ways: as the values that are read from them
(`InstKind.operands`), and as the writes that can be made into them (`InstKind.writes`). Both lists
have the same slots in the same order: there is a write exactly where there is a value, and it is
the one that an edit makes (`InstKind.getElem?_writes`). An instruction is its operands and its
skeleton, which no write changes (`InstKind.ext_skeleton`), so what writes do to an instruction is
what they do to the list of its operands. `InstKind.writes_agree` puts this together.
-/

set_option autoImplicit false

namespace Confinement

/-! ## What is not in a slot -/

/-- All of an instruction but the values that it reads. -/
inductive Skeleton where
  | load
  | store
  | binary (op : BinOp)
  | icmp (rel : Comparison)
  | cast (op : CastOp)
  | select
  | phi (blocks : List BlockId)
  | gep (indices : Nat)
  | call (args : Nat)
  | intrinsic (op : Intrinsic) (args : Nat)
  | ret (returns : Bool)
  | br (target : BlockId)
  | condBr (onTrue onFalse : BlockId)
  | unreachable
  deriving DecidableEq

namespace InstKind

/-- What is left of an instruction when the values are taken out of its slots. -/
def skeleton : InstKind → Skeleton
  | .load _ => .load
  | .store _ _ => .store
  | .binary op _ _ => .binary op
  | .icmp rel _ _ => .icmp rel
  | .cast op _ => .cast op
  | .select _ _ _ => .select
  | .phi incoming => .phi (incoming.map (·.2))
  | .gep _ indices => .gep indices.length
  | .call _ args => .call args.length
  | .intrinsic op args => .intrinsic op args.length
  | .ret value => .ret value.isSome
  | .br target => .br target
  | .condBr _ onTrue onFalse => .condBr onTrue onFalse
  | .unreachable => .unreachable

/-- The second parts of a list of pairs, one of which is given another first part. -/
theorem map_snd_modify (l : List (Value × BlockId)) (i : Nat) (v : Value) :
    (l.modify i fun input => (v, input.2)).map (·.2) = l.map (·.2) := by
  induction l generalizing i with
  | nil => cases i <;> rfl
  | cons p l ih => cases i <;> simp [List.modify_succ_cons, ih]

/-- Writing a slot keeps the skeleton. -/
theorem skeleton_setOperand (kind : InstKind) (slot : Nat) (v : Value) :
    (kind.setOperand slot v).skeleton = kind.skeleton := by
  cases kind with
  | phi incoming => simp [setOperand, skeleton, map_snd_modify]
  | gep base indices => cases slot <;> simp [setOperand, skeleton]
  | call callee args => by_cases h : slot = args.length <;> simp [setOperand, skeleton, h]
  | intrinsic op args => simp [setOperand, skeleton]
  | ret value => cases value <;> rcases slot with _ | slot <;> rfl
  | select cond onTrue onFalse => rcases slot with _ | _ | _ | slot <;> rfl
  | store value ptr => rcases slot with _ | _ | slot <;> rfl
  | binary op lhs rhs => rcases slot with _ | _ | slot <;> rfl
  | icmp rel lhs rhs => rcases slot with _ | _ | slot <;> rfl
  | load ptr => rcases slot with _ | slot <;> rfl
  | cast op value => rcases slot with _ | slot <;> rfl
  | condBr cond onTrue onFalse => rcases slot with _ | slot <;> rfl
  | br target => rfl
  | unreachable => rfl

/-- An instruction is its skeleton with the values in its slots. -/
theorem ext_skeleton {kind other : InstKind} (hs : kind.skeleton = other.skeleton)
    (ho : kind.operands = other.operands) : kind = other := by
  -- instructions of different constructors have different skeletons
  cases kind <;> cases other <;> try cases hs
  case phi.phi incoming incoming' =>
    have hblocks : incoming.map (·.2) = incoming'.map (·.2) := Skeleton.phi.inj hs
    have hsame : incoming = incoming' :=
      (List.zip_of_prod ho hblocks).trans (List.zip_of_prod rfl rfl).symm
    rw [hsame]
  case gep.gep =>
    cases ho
    rfl
  case call.call =>
    obtain ⟨hargs, hcallee⟩ := List.append_inj' ho rfl
    cases hargs
    cases hcallee
    rfl
  case intrinsic.intrinsic =>
    cases ho
    cases hs
    rfl
  case ret.ret value value' =>
    cases value <;> cases value' <;> cases ho
    all_goals rfl
  all_goals
    cases ho
    rfl

/-! ## Writes -/

/-- The writes into the elements of a list: `put` makes a new element of one, and the others stay as
they are. -/
def writesInto {α : Type} (put : Value → α → α) : List α → List (Value → List α)
  | [] => []
  | a :: as => (fun v => put v a :: as) :: (writesInto put as).map fun write v => a :: write v

/-- The writes into the slots of an instruction, in slot order. -/
def writes : InstKind → List (Value → InstKind)
  | .load _ => [.load]
  | .store value ptr => [(.store · ptr), (.store value ·)]
  | .binary op lhs rhs => [(.binary op · rhs), (.binary op lhs ·)]
  | .icmp rel lhs rhs => [(.icmp rel · rhs), (.icmp rel lhs ·)]
  | .cast op _ => [.cast op]
  | .select cond onTrue onFalse =>
    [(.select · onTrue onFalse), (.select cond · onFalse), (.select cond onTrue ·)]
  | .phi incoming =>
    (writesInto (fun v input => (v, input.2)) incoming).map fun write v => .phi (write v)
  | .gep base indices =>
    (.gep · indices) :: (writesInto (fun v _ => v) indices).map fun write v => .gep base (write v)
  | .call callee args =>
    (writesInto (fun v _ => v) args).map (fun write v => call callee (write v)) ++
      [fun v => call v args]
  | .intrinsic op args =>
    (writesInto (fun v _ => v) args).map fun write v => .intrinsic op (write v)
  | .ret value => value.toList.map fun _ v => .ret (some v)
  | .br _ => []
  | .condBr _ onTrue onFalse => [(.condBr · onTrue onFalse)]
  | .unreachable => []

/-- Each element has its write. -/
theorem writesInto_eq {α : Type} (put : Value → α → α) (l : List α) :
    writesInto put l = (List.range l.length).map fun i v => l.modify i (put v) := by
  induction l with
  | nil => rfl
  | cons a l ih => simp [writesInto, ih, List.range_succ_eq_map, Function.comp_def]

/-- The write into an element of a list of values sets it. -/
theorem writesInto_const (l : List Value) :
    writesInto (fun v _ => v) l = (List.range l.length).map l.set := by
  rw [writesInto_eq]
  exact List.map_congr_left fun i _ => funext fun v => List.modify_eq_set (fun _ => v) i l

/-- Each slot has its write, the one that edits make. -/
theorem writes_eq (kind : InstKind) :
    kind.writes = (List.range kind.operands.length).map kind.setOperand := by
  cases kind with
  | phi incoming =>
    rw [writes, writesInto_eq, List.map_map, operands, List.length_map]
    rfl
  | gep base indices =>
    rw [writes, writesInto_const, List.map_map, operands, List.length_cons, List.range_succ_eq_map,
      List.map_cons, List.map_map]
    rfl
  | call callee args =>
    rw [writes, writesInto_const, List.map_map, operands, List.length_append, List.length_singleton,
      List.range_succ, List.map_append]
    congr 1
    · -- the callee comes behind the arguments
      refine List.map_congr_left fun i hi => funext fun v => ?_
      have hne : i ≠ args.length := Nat.ne_of_lt (List.mem_range.mp hi)
      simp [setOperand, hne]
    · refine congrArg (· :: []) (funext fun v => ?_)
      simp [setOperand]
  | intrinsic op args =>
    rw [writes, writesInto_const, List.map_map, operands]
    rfl
  | ret value => cases value <;> rfl
  | _ => rfl

/-- Where there is a value there is a write. -/
theorem getElem?_writes (kind : InstKind) (slot : Nat) :
    kind.writes[slot]? =
      if slot < kind.operands.length then some (kind.setOperand slot) else none := by
  rw [writes_eq, List.getElem?_map]
  split
  · next h =>
    rw [List.getElem?_range h]
    rfl
  · next h =>
    rw [List.getElem?_eq_none]
    · rfl
    · rw [List.length_range]
      exact Nat.not_lt.mp h

/-- Writing what a slot holds changes nothing. -/
theorem setOperand_operand? {kind : InstKind} {slot : Nat} {v : Value}
    (h : kind.operand? slot = some v) : kind.setOperand slot v = kind := by
  obtain ⟨hslot, hv⟩ := List.getElem?_eq_some_iff.mp h
  refine ext_skeleton (skeleton_setOperand kind slot v) ?_
  rw [operands_setOperand, ← hv, List.set_getElem_self]

/-- Of two writes into one slot the last counts. -/
theorem setOperand_setOperand (kind : InstKind) (slot : Nat) (v w : Value) :
    (kind.setOperand slot v).setOperand slot w = kind.setOperand slot w := by
  refine ext_skeleton ?_ ?_
  · simp only [skeleton_setOperand]
  · simp only [operands_setOperand, List.set_set]

/-! ## The laws -/

/-- `now` is what the write of `v` into a slot makes of an instruction. -/
structure Overwritten (kind : InstKind) (slot : Nat) (v : Value) (now : InstKind) : Prop where
  /-- The slot holds the value. -/
  self : now.operand? slot = some v
  /-- Every other slot holds what it held. -/
  others : ∀ other, other ≠ slot → now.operand? other = kind.operand? other
  /-- There are as many slots. -/
  slots : now.operands.length = kind.operands.length
  /-- All but the values is as it was. -/
  skeleton : now.skeleton = kind.skeleton
  /-- So is the treatment of the instruction. -/
  route : now.route = kind.route
  /-- If the slot held the value, nothing has changed. -/
  same : kind.operand? slot = some v → now = kind
  /-- The next write into the slot makes what it would have made before. -/
  next : ∀ w, now.writes[slot]?.map (· w) = kind.writes[slot]?.map (· w)

theorem overwritten_setOperand {kind : InstKind} {slot : Nat} (h : slot < kind.operands.length)
    (v : Value) : kind.Overwritten slot v (kind.setOperand slot v) where
  self := operand?_setOperand_self v h
  others := fun other hne => operand?_setOperand_of_ne v hne
  slots := length_operands_setOperand kind slot v
  skeleton := skeleton_setOperand kind slot v
  route := route_setOperand kind slot v
  same := setOperand_operand?
  next := by
    intro w
    rw [getElem?_writes, getElem?_writes, length_operands_setOperand, if_pos h, if_pos h]
    exact congrArg some (setOperand_setOperand kind slot v w)

/-- What is read from the slots of an instruction and what is written into them agree. There is
a write into a slot exactly if there is a value in it; it writes that slot and nothing else; and it
is what an edit makes of a live instruction, which is served for these slots and no others. -/
theorem writes_agree (kind : InstKind) (slot : Nat) :
    (kind.writes[slot]?.isSome ↔ slot < kind.operands.length) ∧
      (∀ write ∈ kind.writes[slot]?, ∀ v, kind.Overwritten slot v (write v)) ∧
      ∀ (f : Func) (id : InstId) (inst : Inst) (v : Value) (now : InstKind),
        f.inst? id = some inst → inst.kind = kind →
        ((∃ g, (Edit.replaceOperand id slot v).run f = .ok () g ∧
            g.inst? id = some { inst with kind := now }) ↔
          ∃ write ∈ kind.writes[slot]?, write v = now) := by
  have hwrite : ∀ write ∈ kind.writes[slot]?,
      slot < kind.operands.length ∧ write = kind.setOperand slot := by
    intro write h
    rw [getElem?_writes] at h
    split at h
    · next hslot => exact ⟨hslot, (Option.some.inj h).symm⟩
    · cases h
  refine ⟨?possible, ?written, ?edited⟩
  case possible =>
    rw [getElem?_writes]
    split
    · next h => exact iff_of_true rfl h
    · next h => exact iff_of_false Bool.false_ne_true h
  case written =>
    intro write h v
    obtain ⟨hslot, rfl⟩ := hwrite write h
    exact overwritten_setOperand hslot v
  case edited =>
    rintro f id inst v now hi rfl
    constructor
    · rintro ⟨g, hrun, hnow⟩
      obtain ⟨inst', old, hi', hold, -, hinst⟩ := Edit.inst?_replaceOperand hrun
      cases hi.symm.trans hi'
      have hslot : slot < inst.kind.operands.length := (List.getElem?_eq_some_iff.mp hold).1
      refine ⟨inst.kind.setOperand slot, ?_, ?_⟩
      · rw [getElem?_writes, if_pos hslot]
        rfl
      · rw [hinst, if_pos rfl] at hnow
        exact congrArg Inst.kind (Option.some.inj hnow)
    · rintro ⟨write, h, rfl⟩
      obtain ⟨hslot, rfl⟩ := hwrite write h
      have hold : inst.kind.operand? slot = some inst.kind.operands[slot] :=
        List.getElem?_eq_getElem hslot
      have hrun := Edit.replaceOperand_eq v hi hold
      obtain ⟨inst', -, hi', -, -, hinst⟩ := Edit.inst?_replaceOperand hrun
      cases hi.symm.trans hi'
      refine ⟨_, hrun, ?_⟩
      rw [hinst, if_pos rfl]

/-- A call reads its callee last, and so it is written. -/
example : (InstKind.call (.func 0) [.arg 0]).writes.map (· (.arg 7)) =
    [.call (.func 0) [.arg 7], .call (.arg 7) [.arg 0]] := rfl

end InstKind

end Confinement
