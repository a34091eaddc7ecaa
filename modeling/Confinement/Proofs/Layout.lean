import Confinement.Proofs.Slots

/-!
# The layout of a confined body

The lists of a confined body are those of the body, with the load of the base at the head of the entry
block, a group of inserted instructions directly before each access, and without what was removed
(`Func.Laid`). Putting the base in front and rewriting a slot keep this form, with a row more in the
group of the access (`Laid.insertAtHead`, `Laid.rewrites`); whatever is live in a body of this form
was live before, is the base, or stands in the group of something live (`Laid.inserted`).
-/

set_option autoImplicit false

namespace Confinement

open Func

/-! ## Lists of blocks -/

namespace Func

/-- What stands in place of a number of the body: its group and itself while it is live. -/
def standing (g : Func) (group : InstId → List InstId) (id : InstId) : List InstId :=
  if (g.inst? id).isSome then group id ++ [id] else []

/-- `g` has the blocks of `f`, with a load `base` at the head of the entry block and before each
instruction its group, and without what is gone. -/
structure Laid (f : Func) (base : Option InstId) (group : InstId → List InstId) (g : Func) :
    Prop where
  interface : g.interface = f.interface
  size : f.cells.size ≤ g.cells.size
  placed : g.Placed
  base_new : ∀ b, base = some b → f.cells.size ≤ b
  group_new : ∀ id, ∀ member ∈ group id, f.cells.size ≤ member
  lists : ∀ b, g.block? b = (f.block? b).map fun block =>
    { block with insts := (if b = 0 then base.toList else []) ++
      block.insts.flatMap (g.standing group) }

variable {f g h : Func} {base : Option InstId} {group : InstId → List InstId} {id : InstId}
  {slot : Nat} {row gone : List InstId} {inst : Inst}

theorem standing_of_live (hi : g.inst? id = some inst) :
    g.standing group id = group id ++ [id] := by
  rw [standing, hi]
  rfl

theorem standing_of_gone (hi : g.inst? id = none) : g.standing group id = [] := by
  rw [standing, hi]
  rfl

/-- A body is laid out as it is. -/
theorem Laid.start (hf : f.Placed) : f.Laid none (fun _ => []) f where
  interface := rfl
  size := Nat.le_refl _
  placed := hf
  base_new := fun _ h => nomatch h
  group_new := fun _ _ h => absurd h List.not_mem_nil
  lists := by
    intro b
    cases hb : f.block? b with
    | none => rfl
    | some block =>
      have hall : block.insts.flatMap (f.standing fun _ => []) = block.insts := by
        rw [List.flatMap_congr (g := fun id => [id]), List.flatMap_singleton']
        intro id hid
        obtain ⟨inst, hi, -⟩ := (hf.mem b block id hb).mp hid
        exact standing_of_live hi
      rw [Option.map_some, hall]
      split <;> rfl

/-- The load of the base is put at the head of the entry block. -/
theorem Laid.insertAtHead {kind : InstKind} {ty : Ty} (hg : f.Laid none group g) (hf : f.Placed)
    (hrun : (Edit.insertAtHead 0 kind ty).run g = .ok id h) : f.Laid (some id) group h := by
  have hplaced : h.Placed := Edit.left_of_ok hrun ▸ hg.placed.apply (.insertAtHead 0 kind ty)
  obtain ⟨hid, hsize, hinst⟩ := Edit.inst?_insertAtHead hrun
  obtain ⟨-, -, hh⟩ := (Edit.insertAtHead_serves g 0 kind ty).of_ok hrun
  refine { interface := ?interface, size := by have := hg.size; omega, placed := hplaced,
           base_new := ?base, group_new := hg.group_new, lists := ?lists }
  case interface =>
    rw [hh, ← hg.interface]
    simp
  case base =>
    rintro b hb
    cases hb
    exact hid ▸ hg.size
  case lists =>
    intro b
    have hlist : h.block? b = (g.block? b).map fun block =>
        if 0 = b then { block with insts := id :: block.insts } else block := by
      rw [hh, hid, block?_relist, Edit.block?_numbered]
    rw [hlist, hg.lists]
    cases hb : f.block? b with
    | none => rfl
    | some block =>
      -- the numbers of the body mean what they meant
      have hsame : block.insts.flatMap (h.standing group) =
          block.insts.flatMap (g.standing group) := by
        apply List.flatMap_congr
        intro x hx
        obtain ⟨inst, hi, -⟩ := (hf.mem b block x hb).mp hx
        have hlt := Nat.lt_of_lt_of_le (lt_size_of_inst? hi) hg.size
        rw [standing, standing, hinst, if_neg (Nat.ne_of_lt (hid ▸ hlt))]
      simp only [Option.map_some, hsame]
      by_cases he : b = 0
      · subst he
        rfl
      · simp [he, Ne.symm he]

/-- The head of a block has numbers that the body has not given out. -/
theorem Laid.head_new (hg : f.Laid base group g) (b : BlockId) :
    ∀ x ∈ (if b = 0 then base.toList else []), f.cells.size ≤ x := by
  intro x hx
  split at hx
  · exact hg.base_new x (Option.mem_toList.mp hx)
  · cases hx

/-- What the body has not given out is not removed with instructions of the body. -/
theorem filter_of_new {n : Nat} {l : List InstId} (hl : ∀ x ∈ l, n ≤ x)
    (hgone : ∀ x ∈ gone, x < n) : l.filter (· ∉ gone) = l := by
  rw [List.filter_eq_self]
  intro x hx
  exact decide_eq_true fun hmem => Nat.not_lt.mpr (hl x hx) (hgone x hmem)

/-- Nothing is put before an instruction of the body where none is listed. -/
theorem flatMap_putBefore_of_new {n : Nat} {l : List InstId} (hl : ∀ x ∈ l, n ≤ x)
    (hid : id < n) : l.flatMap (putBefore id row) = l :=
  flatMap_putBefore_of_not_mem fun hmem => Nat.not_lt.mpr (hl id hmem) hid

/-- What a rewriting makes of what stands in place of a number of the body. -/
theorem Laid.standing_rewrites (hg : f.Laid base group g) (hgh : g.Rewrites id slot row gone h)
    (hi : g.inst? id = some inst) (hid : id < f.cells.size)
    (hgone : ∀ x ∈ gone, x < f.cells.size ∧ x ≠ id ∧ group x = []) {x : InstId}
    (hx : x < f.cells.size) :
    ((g.standing group x).flatMap (putBefore id row)).filter (· ∉ gone) =
      h.standing (fun x => group x ++ if x = id then row else []) x := by
  have hrow : ∀ member ∈ row, f.cells.size ≤ member := fun member hm =>
    Nat.le_trans hg.size (hgh.new member hm)
  have hlate : ∀ l : List InstId, (∀ x ∈ l, f.cells.size ≤ x) → l.filter (· ∉ gone) = l :=
    fun l hl => filter_of_new hl fun x hmem => (hgone x hmem).1
  by_cases he : x = id
  · subst he
    have hself : x ∉ gone := fun hmem => (hgone x hmem).2.1 rfl
    rw [standing_of_live hi, standing_of_live (hgh.self inst hi), if_pos rfl,
      List.flatMap_append, flatMap_putBefore_of_new (hg.group_new x) hid, List.flatMap_singleton,
      putBefore, if_pos rfl, List.filter_append, List.filter_append, hlate _ (hg.group_new x),
      hlate _ hrow, ← List.append_assoc]
    simp [hself]
  · have hafter := hgh.others x (Nat.lt_of_lt_of_le hx hg.size) he
    cases hxi : g.inst? x with
    | none =>
      rw [hxi, ite_self] at hafter
      rw [standing_of_gone hxi, standing_of_gone hafter]
      rfl
    | some found =>
      rw [standing_of_live hxi, List.flatMap_append,
        flatMap_putBefore_of_new (hg.group_new x) hid, List.flatMap_singleton, putBefore,
        if_neg he, List.filter_append, hlate _ (hg.group_new x)]
      by_cases hmem : x ∈ gone
      · rw [if_pos hmem] at hafter
        rw [standing_of_gone hafter, (hgone x hmem).2.2]
        simp [hmem]
      · rw [if_neg hmem, hxi] at hafter
        rw [standing_of_live hafter, if_neg he]
        simp [hmem]

/-- A slot of an instruction of the body is rewritten, and others of the body may go. -/
theorem Laid.rewrites (hg : f.Laid base group g) (hf : f.Placed)
    (hgh : g.Rewrites id slot row gone h) (hi : g.inst? id = some inst) (hid : id < f.cells.size)
    (hgone : ∀ x ∈ gone, x < f.cells.size ∧ x ≠ id ∧ group x = []) :
    f.Laid base (fun x => group x ++ if x = id then row else []) h := by
  refine { interface := hgh.interface.trans hg.interface, size := Nat.le_trans hg.size hgh.size,
           placed := hgh.placed, base_new := hg.base_new, group_new := ?group, lists := ?lists }
  case group =>
    intro x member hmember
    rcases List.mem_append.mp hmember with hmember | hmember
    · exact hg.group_new x member hmember
    · split at hmember
      · exact Nat.le_trans hg.size (hgh.new member hmember)
      · cases hmember
  case lists =>
    intro b
    rw [hgh.lists, hg.lists, Option.map_map]
    cases hb : f.block? b with
    | none => rfl
    | some block =>
      have hlisted : ∀ x ∈ block.insts, x < f.cells.size := by
        intro x hx
        obtain ⟨found, hfound, -⟩ := (hf.mem b block x hb).mp hx
        exact lt_size_of_inst? hfound
      rw [Option.map_some, Option.map_some, Function.comp_apply]
      congr 2
      rw [List.flatMap_append, flatMap_putBefore_of_new (hg.head_new b) hid, List.filter_append,
        filter_of_new (hg.head_new b) fun x hmem => (hgone x hmem).1, List.flatMap_assoc,
        List.filter_flatMap]
      congr 1
      exact List.flatMap_congr fun x hx => hg.standing_rewrites hgh hi hid hgone (hlisted x hx)

/-- What is new is the base or in the group of something that stays. -/
theorem Laid.inserted (hg : f.Laid base group g) (hf : f.Placed)
    (hlive : (g.inst? id).isSome) (hnew : f.inst? id = none) :
    base = some id ∨ ∃ reader, (g.inst? reader).isSome ∧ id ∈ group reader := by
  obtain ⟨inst, hi⟩ := Option.isSome_iff_exists.mp hlive
  obtain ⟨listed, hlisted⟩ := Option.isSome_iff_exists.mp (hg.placed.block id inst hi)
  have hmem := (hg.placed.mem inst.block listed id hlisted).mpr ⟨inst, hi, rfl⟩
  rw [hg.lists] at hlisted
  obtain ⟨block, hblock, rfl⟩ := Option.map_eq_some_iff.mp hlisted
  rcases List.mem_append.mp hmem with hmem | hmem
  · split at hmem
    · exact Or.inl (Option.mem_toList.mp hmem)
    · cases hmem
  · obtain ⟨x, hx, hmem⟩ := List.mem_flatMap.mp hmem
    rw [standing] at hmem
    split at hmem
    · next hxlive =>
      rcases List.mem_append.mp hmem with hmem | hmem
      · exact Or.inr ⟨x, hxlive, hmem⟩
      · -- what the body lists is not new
        obtain rfl := List.mem_singleton.mp hmem
        obtain ⟨old, hold, -⟩ := (hf.mem _ block id hblock).mp hx
        rw [hnew] at hold
        cases hold
    · cases hmem

end Func

end Confinement
