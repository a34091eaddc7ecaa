import Confinement.Proofs.Bodies

/-!
# The chores of a plan

A plan is carried out slot by slot, and what is done for one slot is a chore: an address is confined
or a length is masked. Chores are done one after the other (`Draft.Works`); each chore of a plan is one
that the plan asks for (`Chore.Owed`), and no slot comes up twice (`Func.nodup_places`).
-/

set_option autoImplicit false

namespace Confinement

open Func

/-! ## Chores -/

/-- One slot of an access that is worked on. -/
inductive Chore where
  /-- An address to confine. -/
  | address (id : InstId) (slot : PointerSlot)
  /-- A length to mask. -/
  | length (id : InstId) (slot : Nat)
  deriving DecidableEq

namespace Chore

/-- The access. -/
def id : Chore → InstId
  | address id _ => id
  | length id _ => id

/-- The operand slot. -/
def slot : Chore → Nat
  | address _ slot => slot.index
  | length _ slot => slot

/-- Where the slot is. -/
def place (chore : Chore) : InstId × Nat :=
  (chore.id, chore.slot)

/-- The chore has been done. -/
def Does (cx : Context) (d e : Draft) : Chore → Prop
  | address id slot => ∃ outcome, (Drafting.confinePointer cx id slot).run d = .ok outcome e
  | length id slot => ∃ tally, (Drafting.confineLength cx id (some slot)).run d = .ok tally e

end Chore

/-- The chores of an access, in the order in which they are done. -/
def Planned.chores (planned : Planned) : List Chore :=
  planned.access.pointers.map (.address planned.id) ++
    planned.access.length.toList.map (.length planned.id)

/-- The operand slots of an access: its addresses in order, and its length. -/
def Access.slots (access : Access) : List Nat :=
  access.pointers.map (·.index) ++ access.length.toList

namespace Planned

variable {planned : Planned} {chore : Chore} {id : InstId}

/-- The chores of an access are on it. -/
theorem id_of_mem_chores (h : chore ∈ planned.chores) : chore.id = planned.id := by
  rcases List.mem_append.mp h with h | h
  all_goals
    obtain ⟨slot, -, rfl⟩ := List.mem_map.mp h
    rfl

theorem address_mem_chores {slot : PointerSlot} (h : slot ∈ planned.access.pointers) :
    .address planned.id slot ∈ planned.chores :=
  List.mem_append_left _ (List.mem_map_of_mem h)

theorem pointer_of_mem_chores {slot : PointerSlot} (h : .address id slot ∈ planned.chores) :
    slot ∈ planned.access.pointers := by
  rcases List.mem_append.mp h with h | h
  · obtain ⟨found, hfound, he⟩ := List.mem_map.mp h
    cases he
    exact hfound
  · obtain ⟨found, -, he⟩ := List.mem_map.mp h
    cases he

theorem length_of_mem_chores {slot : Nat} (h : .length id slot ∈ planned.chores) :
    planned.access.length = some slot := by
  rcases List.mem_append.mp h with h | h
  · obtain ⟨found, -, he⟩ := List.mem_map.mp h
    cases he
  · obtain ⟨found, hfound, he⟩ := List.mem_map.mp h
    cases he
    exact Option.mem_toList.mp hfound

/-- The chores of an access are one for each of its slots. -/
theorem map_slot_chores (planned : Planned) :
    planned.chores.map Chore.slot = planned.access.slots := by
  simp [chores, Access.slots, Function.comp_def, Chore.slot]

end Planned

/-- Chores have been done, one after the other. -/
inductive Draft.Works (cx : Context) : Draft → List Chore → Draft → Prop
  | done (d : Draft) : Works cx d [] d
  | step {d u e : Draft} {chore : Chore} {chores : List Chore} (first : chore.Does cx d u)
      (rest : Works cx u chores e) : Works cx d (chore :: chores) e

/-! ## What a plan asks for -/

/-- A chore that the plan of a body asks for: a slot of an access that is in order. -/
def Chore.Owed (f : Func) (symbols : SymbolTable) (chore : Chore) : Prop :=
  ∃ inst access, f.inst? chore.id = some inst ∧ inst.kind.access? = some access ∧
    chore ∈ ({ id := chore.id, access } : Planned).chores ∧ f.AccessOk symbols inst.kind access

namespace Chore.Owed

variable {f : Func} {symbols : SymbolTable} {chore : Chore} {id : InstId} {slot : PointerSlot}
  {index : Nat}

/-- The chore is on an access. -/
theorem access (h : chore.Owed f symbols) :
    ∃ inst, f.inst? chore.id = some inst ∧ inst.kind.access? ≠ none := by
  obtain ⟨inst, access, hi, ha, -⟩ := h
  exact ⟨inst, hi, ha.trans_ne (Option.some_ne_none access)⟩

/-- The slot of an address holds one. -/
theorem address (h : (Chore.address id slot).Owed f symbols) : ∃ inst access v pointee,
    f.inst? id = some inst ∧ inst.kind.access? = some access ∧ slot ∈ access.pointers ∧
      inst.kind.operand? slot.index = some v ∧ f.valueType symbols v = .ok (.ptr pointee) := by
  obtain ⟨inst, access, hi, ha, hmem, hok⟩ := h
  have hslot := Planned.pointer_of_mem_chores hmem
  obtain ⟨v, pointee, hv, hty⟩ := hok.pointer slot hslot
  exact ⟨inst, access, v, pointee, hi, ha, hslot, hv, hty⟩

/-- The slot of a length holds an integer. -/
theorem length (h : (Chore.length id index).Owed f symbols) : ∃ inst access v bits,
    f.inst? id = some inst ∧ inst.kind.access? = some access ∧ access.length = some index ∧
      inst.kind.operand? index = some v ∧ f.valueType symbols v = .ok (.int bits) := by
  obtain ⟨inst, access, hi, ha, hmem, hok⟩ := h
  have hslot := Planned.length_of_mem_chores hmem
  obtain ⟨v, bits, hv, hty⟩ := hok.length index hslot
  exact ⟨inst, access, v, bits, hi, ha, hslot, hv, hty⟩

end Chore.Owed

namespace Func

variable {f : Func} {symbols : SymbolTable} {plan : Plan}

/-- Each chore of a plan is one that it asks for. -/
theorem owed_of_plan (h : f.plan symbols = .ok plan) :
    ∀ chore ∈ plan.flatMap Planned.chores, chore.Owed f symbols := by
  intro chore hchore
  obtain ⟨planned, hplanned, hmem⟩ := List.mem_flatMap.mp hchore
  obtain ⟨inst, hi, ha, hok⟩ := accessOk_of_plan h hplanned
  have hid := Planned.id_of_mem_chores hmem
  exact ⟨inst, planned.access, hid ▸ hi, ha, hid ▸ hmem, hok⟩

/-- The chores on one access of a plan are those of the access. -/
theorem filter_chores (h : f.plan symbols = .ok plan) (ho : f.order.Nodup) {planned : Planned}
    (hp : planned ∈ plan) :
    (plan.flatMap Planned.chores).filter (·.id = planned.id) = planned.chores := by
  obtain ⟨before, after, rfl⟩ := List.append_of_mem hp
  have honce := nodup_plan h ho
  rw [List.map_append, List.map_cons, List.nodup_append, List.nodup_cons] at honce
  obtain ⟨-, ⟨hafter, -⟩, hbefore⟩ := honce
  -- the chores of another access are not on this one
  have hothers : ∀ others : Plan, planned.id ∉ others.map (·.id) →
      (others.flatMap Planned.chores).filter (·.id = planned.id) = [] := by
    intro others hnot
    rw [List.filter_eq_nil_iff]
    intro chore hchore
    obtain ⟨other, hother, hmem⟩ := List.mem_flatMap.mp hchore
    rw [decide_eq_true_eq, Planned.id_of_mem_chores hmem]
    exact fun he => hnot (he ▸ List.mem_map_of_mem hother)
  have hown : planned.chores.filter (·.id = planned.id) = planned.chores := by
    rw [List.filter_eq_self]
    exact fun chore hchore => decide_eq_true (Planned.id_of_mem_chores hchore)
  rw [List.flatMap_append, List.flatMap_cons, List.filter_append, List.filter_append, hown,
    hothers before fun hmem => hbefore _ hmem _ List.mem_cons_self rfl, hothers after hafter,
    List.nil_append, List.append_nil]

/-- The places of the chores of one access. -/
theorem places_chores (planned : Planned) : planned.chores.map Chore.place =
    planned.access.slots.map fun slot => (planned.id, slot) := by
  rw [← planned.map_slot_chores, List.map_map]
  apply List.map_congr_left
  intro chore hchore
  rw [Chore.place, Planned.id_of_mem_chores hchore]
  rfl

/-- No slot comes up twice in the chores of a plan. -/
theorem nodup_places (h : f.plan symbols = .ok plan) (ho : f.order.Nodup) :
    ((plan.flatMap Planned.chores).map Chore.place).Nodup := by
  have hids := nodup_plan h ho
  have haccess : ∀ planned ∈ plan, (planned.chores.map Chore.place).Nodup := by
    intro planned hplanned
    obtain ⟨inst, -, ha, -⟩ := accessOk_of_plan h hplanned
    obtain ⟨honce, hapart⟩ := Access.nodup_slots ha
    rw [places_chores]
    apply List.Nodup.map fun slot other he => (Prod.mk.inj he).2
    rw [Access.slots, List.nodup_append]
    refine ⟨honce, ?_, ?_⟩
    · cases planned.access.length with
      | none => exact List.nodup_nil
      | some slot => exact List.nodup_singleton slot
    · intro slot hslot other hother he
      exact hapart other (Option.mem_toList.mp hother) (he ▸ hslot)
  rw [List.map_flatMap, List.nodup_flatMap]
  refine ⟨haccess, ?_⟩
  rw [List.Nodup, List.pairwise_map] at hids
  refine hids.imp fun {planned other} hne => ?_
  -- different accesses have different numbers, and a place names its access
  intro place hfst hsnd
  change place ∈ planned.chores.map Chore.place at hfst
  change place ∈ other.chores.map Chore.place at hsnd
  rw [places_chores] at hfst hsnd
  obtain ⟨slot, -, rfl⟩ := List.mem_map.mp hfst
  obtain ⟨slot', -, he⟩ := List.mem_map.mp hsnd
  exact hne (Prod.mk.inj he).1.symm

end Func

end Confinement
