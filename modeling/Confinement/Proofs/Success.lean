import Confinement.Address.Base

/-!
# What a successful run went through

A composed program that succeeds did so in every one of its steps. The lemmas below take a successful
run apart: sequencing, lifted results, and each edit of a function. An edit that succeeds found what
it needed, and leaves the function that its equation names (`insertBefore_eq`, `erase_eq` and the
others); here the equations are read backwards, one specification for each edit (`Edit.Serves`).
-/

set_option autoImplicit false

namespace Confinement

/-! ## Sequencing -/

section Sequencing

variable {ε ε' σ α β : Type}

theorem run_bind_eq_ok {x : EStateM ε σ α} {g : α → EStateM ε σ β} {s t : σ} {b : β} :
    (x >>= g).run s = .ok b t ↔ ∃ a u, x.run s = .ok a u ∧ (g a).run u = .ok b t := by
  rw [EStateM.run_bind]
  constructor
  · intro h
    cases hx : x.run s with
    | ok a u =>
      rw [hx] at h
      exact ⟨a, u, rfl, h⟩
    | error e u =>
      rw [hx] at h
      cases h
  · rintro ⟨a, u, hx, hg⟩
    rw [hx]
    exact hg

theorem run_pure_eq_ok {s t : σ} {a b : α} :
    (pure a : EStateM ε σ α).run s = .ok b t ↔ b = a ∧ t = s := by
  rw [EStateM.run_pure]
  constructor
  · intro h
    cases h
    exact ⟨rfl, rfl⟩
  · rintro ⟨rfl, rfl⟩
    rfl

theorem run_ofExcept_eq_ok {result : Except ε α} {s t : σ} {a : α} :
    (ofExcept result : EStateM ε σ α).run s = .ok a t ↔ result = .ok a ∧ t = s := by
  cases result with
  | ok b =>
    show (pure b : EStateM ε σ α).run s = .ok a t ↔ _
    rw [run_pure_eq_ok, Except.ok.injEq, eq_comm (a := a)]
  | error e =>
    constructor
    · intro h
      cases h
    · rintro ⟨h, -⟩
      cases h

theorem run_get_bind {g : σ → EStateM ε σ β} {s : σ} : (get >>= g).run s = (g s).run s := rfl

theorem run_ofExcept_bind_eq_ok {result : Except ε α} {g : α → EStateM ε σ β} {s t : σ} {b : β} :
    (ofExcept result >>= g).run s = .ok b t ↔ ∃ a, result = .ok a ∧ (g a).run s = .ok b t := by
  rw [run_bind_eq_ok]
  constructor
  · rintro ⟨a, u, ha, hg⟩
    obtain ⟨hok, rfl⟩ := run_ofExcept_eq_ok.mp ha
    exact ⟨a, hok, hg⟩
  · rintro ⟨a, ha, hg⟩
    exact ⟨a, s, run_ofExcept_eq_ok.mpr ⟨ha, rfl⟩, hg⟩

theorem run_adaptExcept_eq_ok {g : ε → ε'} {x : EStateM ε σ α} {s t : σ} {a : α} :
    (x.adaptExcept g).run s = .ok a t ↔ x.run s = .ok a t := by
  rw [EStateM.run_adaptExcept]
  cases x.run s with
  | ok b u =>
    constructor
    · intro h
      cases h
      rfl
    · intro h
      cases h
      rfl
  | error e u =>
    constructor
    · intro h
      cases h
    · intro h
      cases h

theorem bind_eq_ok {x : Except ε α} {g : α → Except ε β} {b : β} :
    x >>= g = .ok b ↔ ∃ a, x = .ok a ∧ g a = .ok b := by
  cases x with
  | ok a =>
    constructor
    · intro h
      exact ⟨a, rfl, h⟩
    · rintro ⟨a, h, hg⟩
      cases h
      exact hg
  | error e =>
    constructor
    · intro h
      cases h
    · rintro ⟨a, h, -⟩
      cases h

theorem discard_eq_ok {x : Except ε α} {u : Unit} : discard x = .ok u ↔ ∃ a, x = .ok a := by
  cases x with
  | ok a => exact ⟨fun _ => ⟨a, rfl⟩, fun _ => rfl⟩
  | error e =>
    constructor
    · intro h
      cases h
    · rintro ⟨a, h⟩
      cases h

/-- A check of a list passes when every entry does. -/
theorem forM_eq_ok {l : List α} {check : α → Except ε Unit} {u : Unit} :
    l.forM check = .ok u ↔ ∀ a ∈ l, check a = .ok () := by
  induction l with
  | nil => exact ⟨fun _ a h => absurd h List.not_mem_nil, fun _ => rfl⟩
  | cons a l ih =>
    show (check a >>= fun _ => l.forM check) = _ ↔ _
    rw [bind_eq_ok, List.forall_mem_cons]
    constructor
    · rintro ⟨done, ha, hl⟩
      exact ⟨ha, ih.mp hl⟩
    · rintro ⟨ha, hl⟩
      exact ⟨(), ha, ih.mpr hl⟩

/-- A check of something that may be missing passes when it does for what is there. -/
theorem option_forM_eq_ok {o : Option α} {check : α → Except ε Unit} {u : Unit} :
    o.forM check = .ok u ↔ ∀ a, o = some a → check a = .ok () := by
  cases o with
  | none => exact ⟨fun _ a h => absurd h (by simp), fun _ => rfl⟩
  | some a => exact ⟨fun h b hb => Option.some.inj hb ▸ h, fun h => h a rfl⟩

end Sequencing

/-! ## Edits -/

namespace Edit

variable {f g : Func}

/-- An edit is refused and leaves the function alone, or it is served with a result and a function
that the postcondition admits. -/
def Serves {α : Type} (action : Edit α) (f : Func) (post : α → Func → Prop) : Prop :=
  match action.run f with
  | .ok a g => post a g
  | .error _ g => g = f

theorem Serves.of_ok {α : Type} {action : Edit α} {post : α → Func → Prop} {a : α}
    (hs : action.Serves f post) (h : action.run f = .ok a g) : post a g := by
  rw [Serves] at hs
  rw [h] at hs
  exact hs

/-- An instruction is added at the end of a block that exists. -/
theorem append_serves (f : Func) (b : BlockId) (kind : InstKind) (ty : Ty) :
    (append b kind ty).Serves f fun id g => (f.block? b).isSome ∧ id = f.cells.size ∧
      g = ((f.countUses kind.operands).addCell { kind, ty, block := b, loc := none }).relist b
        (· ++ [f.cells.size]) := by
  rw [Serves]
  cases hb : f.block? b with
  | none => rw [append_noBlock kind ty hb]
  | some block =>
    rw [append_eq kind ty (by rw [hb]; rfl)]
    exact ⟨rfl, rfl, rfl⟩

/-- An instruction is added at the head of a block that exists. -/
theorem insertAtHead_serves (f : Func) (b : BlockId) (kind : InstKind) (ty : Ty) :
    (insertAtHead b kind ty).Serves f fun id g => (f.block? b).isSome ∧ id = f.cells.size ∧
      g = ((f.countUses kind.operands).addCell { kind, ty, block := b, loc := none }).relist b
        (f.cells.size :: ·) := by
  rw [Serves]
  cases hb : f.block? b with
  | none => rw [insertAtHead_noBlock kind ty hb]
  | some block =>
    rw [insertAtHead_eq kind ty (by rw [hb]; rfl)]
    exact ⟨rfl, rfl, rfl⟩

/-- An instruction is added in front of one that stands in its block. -/
theorem insertBefore_serves (f : Func) (anchor : InstId) (kind : InstKind) (ty : Ty) :
    (insertBefore anchor kind ty).Serves f fun id g =>
      ∃ b place, f.place? anchor = some (b, place) ∧ id = f.cells.size ∧
        g = ((f.countUses kind.operands).addCell { kind, ty, block := b, loc := none }).relist b
          (·.insertIdx place f.cells.size) := by
  rw [Serves]
  cases hp : f.place? anchor with
  | none =>
    cases hi : f.inst? anchor with
    | none => rw [insertBefore_stale kind ty hi]
    | some inst =>
      -- live, but not in the list of its block
      rw [insertBefore]
      rw [EStateM.run_bind, position_unlisted hi hp]
  | some found =>
    obtain ⟨b, place⟩ := found
    rw [insertBefore_eq kind ty hp]
    exact ⟨b, place, rfl, rfl, rfl⟩

/-- A slot is written in a live instruction that has it. -/
theorem replaceOperand_serves (f : Func) (id : InstId) (slot : Nat) (v : Value) :
    (replaceOperand id slot v).Serves f fun _ g =>
      ∃ inst old, f.inst? id = some inst ∧ inst.kind.operand? slot = some old ∧
        g = ((f.setCell id (some { inst with kind := inst.kind.setOperand slot v })).uncountUse
          old).countUse v := by
  rw [Serves]
  cases hi : f.inst? id with
  | none => rw [replaceOperand_stale slot v hi]
  | some inst =>
    cases ho : inst.kind.operand? slot with
    | none => rw [replaceOperand_noSlot v hi ho]
    | some old =>
      rw [replaceOperand_eq v hi ho]
      exact ⟨inst, old, rfl, ho, rfl⟩

/-- A source position is given to a live instruction. -/
theorem setLoc_serves (f : Func) (id : InstId) (loc : Option Loc) :
    (setLoc id loc).Serves f fun _ g =>
      ∃ inst, f.inst? id = some inst ∧ g = f.setCell id (some { inst with loc }) := by
  rw [Serves]
  cases hi : f.inst? id with
  | none => rw [setLoc_stale loc hi]
  | some inst =>
    rw [setLoc_eq loc hi]
    exact ⟨inst, rfl, rfl⟩

/-- What is removed was live, stood in its block and was not counted as read. -/
theorem erase_serves (f : Func) (id : InstId) :
    (erase id).Serves f fun _ g =>
      ∃ inst b place, f.useCount id = 0 ∧ f.inst? id = some inst ∧
        f.place? id = some (b, place) ∧
        g = ((f.relist b (·.eraseIdx place)).setCell id none).uncountUses inst.kind.operands := by
  rw [Serves]
  rcases Nat.eq_zero_or_pos (f.useCount id) with hu | hu
  · cases hi : f.inst? id with
    | none => rw [erase_stale hu hi]
    | some inst =>
      cases hp : f.place? id with
      | none =>
        -- live, but not in the list of its block
        rw [erase]
        simp only [EStateM.run_bind, EStateM.run_get, Func.hasUses, hu, Nat.lt_irrefl,
          decide_false, Bool.false_eq_true, if_false, position_unlisted hi hp]
      | some found =>
        obtain ⟨b, place⟩ := found
        rw [erase_eq hu hi hp]
        exact ⟨inst, b, place, hu, rfl, rfl, rfl⟩
  · rw [erase_stillUsed hu]

theorem run_map_eq_ok {α β : Type} {action : Edit α} {change : α → β} {a : β} :
    (change <$> action).run f = .ok a g ↔ ∃ b, action.run f = .ok b g ∧ a = change b := by
  rw [run_map]
  cases action.run f with
  | ok b k =>
    constructor
    · intro h
      cases h
      exact ⟨b, rfl, rfl⟩
    · rintro ⟨b', h, rfl⟩
      cases h
      rfl
  | error fault k =>
    constructor
    · intro h
      cases h
    · rintro ⟨b, h, -⟩
      cases h

end Edit

/-! ## Work on a draft -/

/-- An edit of a draft is an edit of its function. -/
theorem Drafting.run_edit_eq_ok {α : Type} {action : Edit α} {draft after : Draft} {a : α} :
    (Drafting.edit action).run draft = .ok a after ↔
      action.run draft.func = .ok a after.func ∧ after.base = draft.base := by
  obtain ⟨func, base⟩ := draft
  obtain ⟨func', base'⟩ := after
  unfold Drafting.edit
  simp only [EStateM.run]
  cases action func with
  | ok b f =>
    constructor
    · intro h
      cases h
      exact ⟨rfl, rfl⟩
    · rintro ⟨h, rfl⟩
      cases h
      rfl
  | error fault f =>
    constructor
    · intro h
      cases h
    · rintro ⟨h, -⟩
      cases h

end Confinement
