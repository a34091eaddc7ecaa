import Confinement.Proofs.Layout
import Confinement.Proofs.Outcome
import Confinement.Proofs.Stepwise

/-!
# Logs of confined bodies

What confining makes of a body is recorded in a log: for every chore that was done, the row that was
put before its access (`Emission`). With its log a confined body is known to the last detail
(`Draft.Logged`): its lists have the layout that the rows give them; an instruction of the body is the
same but for the slots that the log says were written, or it was a part of a fold and is gone; and
every row is what its chore asks for (`Emission.Stands`). Each chore adds one entry to the log
(`Draft.Logged.does`), and chores one after the other add one each (`Draft.Logged.works`). So a body
that is confined by a plan has a log of all chores of the plan (`Edit.confineBody_logged`), and so has
every function of a module that was sandboxed (`Pass.run_logged`).
-/

set_option autoImplicit false

namespace Confinement

open Func

/-! ## Logs -/

/-- The row that was put before an access for one of its slots. -/
inductive Emission where
  /-- A row that computes a confined address. -/
  | address (id : InstId) (slot : PointerSlot) (landing : Landing) (row : List InstId)
  /-- A row that masks a length. -/
  | length (id : InstId) (slot : Nat) (row : List InstId)
  deriving DecidableEq

namespace Emission

/-- The chore that was done. -/
def chore : Emission → Chore
  | address id slot _ _ => .address id slot
  | length id slot _ => .length id slot

/-- The row. -/
def row : Emission → List InstId
  | address _ _ _ row => row
  | length _ _ row => row

/-- The access has the slot in the body `f`, and the row in `g` is one for what the slot held. -/
def Stands (f : Func) (cx : Context) (base : Option InstId) (g : Func) : Emission → Prop
  | address id slot landing row => ∃ b inst address pointee pointer, base = some b ∧
      f.inst? id = some inst ∧ inst.kind.operand? slot.index = some address ∧
      f.HasType cx.symbols address (.ptr pointee) ∧
      landing.Takes f cx.layout cx.region.width slot address pointee ∧
      f.LandRow g cx.region.width inst.block b (.ptr pointee) landing row pointer
  | length id slot row => ∃ inst length, f.inst? id = some inst ∧
      inst.kind.operand? slot = some length ∧
      f.CapRow g cx.symbols cx.region.width inst.block length row

theorem Stands.fix {f g h : Func} {cx : Context} {base : Option InstId} {emission : Emission}
    (hs : emission.Stands f cx base g) (hfix : Fixes f.cells.size emission.row g h) :
    emission.Stands f cx base h := by
  cases emission with
  | address id slot landing row =>
    obtain ⟨b, inst, address, pointee, pointer, hb, hi, ho, hty, htakes, hrow⟩ := hs
    exact ⟨b, inst, address, pointee, pointer, hb, hi, ho, hty, htakes, hrow.fix hfix⟩
  | length id slot row =>
    obtain ⟨inst, length, hi, ho, hrow⟩ := hs
    exact ⟨inst, length, hi, ho, hrow.fix hfix⟩

/-- A row stands when its base is known to be loaded. -/
theorem Stands.loaded {f g : Func} {cx : Context} {base later : Option InstId}
    {emission : Emission} (hs : emission.Stands f cx base g)
    (hbase : ∀ b, base = some b → later = some b) : emission.Stands f cx later g := by
  cases emission with
  | address id slot landing row =>
    obtain ⟨b, inst, address, pointee, pointer, hb, hrest⟩ := hs
    exact ⟨b, inst, address, pointee, pointer, hbase b hb, hrest⟩
  | length id slot row => exact hs

end Emission

/-- The entries of a log on an access. -/
def about (log : List Emission) (id : InstId) : List Emission :=
  log.filter (·.chore.id = id)

/-- What was put before an access. -/
def emitted (log : List Emission) (id : InstId) : List InstId :=
  (about log id).flatMap (·.row)

/-- What was written into the slots of an access. -/
def written (log : List Emission) (id : InstId) : List (Nat × Value) :=
  (about log id).flatMap fun emission => rowWrites emission.chore.slot emission.row

/-- An instruction was a part of a fold that was taken. -/
def Retired (log : List Emission) (id : InstId) : Prop :=
  ∃ reader slot fold row, .address reader slot (.folded fold) row ∈ log ∧
    (id = fold.cast ∨ id = fold.add)

section Logs

variable {log : List Emission} {emission : Emission} {id : InstId}

theorem Retired.mono {more : List Emission} (h : Retired log id) (hsub : log ⊆ more) :
    Retired more id := by
  obtain ⟨reader, slot, fold, row, hmem, hpart⟩ := h
  exact ⟨reader, slot, fold, row, hsub hmem, hpart⟩

theorem mem_about : emission ∈ about log id ↔ emission ∈ log ∧ emission.chore.id = id := by
  rw [about, List.mem_filter, decide_eq_true_eq]

theorem emitted_concat (log : List Emission) (emission : Emission) (id : InstId) :
    emitted (log ++ [emission]) id =
      emitted log id ++ if id = emission.chore.id then emission.row else [] := by
  rw [emitted, about, List.filter_append, List.flatMap_append]
  congr 1
  by_cases he : emission.chore.id = id
  · simp [he]
  · simp [he, Ne.symm he]

theorem written_concat (log : List Emission) (emission : Emission) (id : InstId) :
    written (log ++ [emission]) id = written log id ++
      if id = emission.chore.id then rowWrites emission.chore.slot emission.row else [] := by
  rw [written, about, List.filter_append, List.flatMap_append]
  congr 1
  by_cases he : emission.chore.id = id
  · simp [he]
  · simp [he, Ne.symm he]

theorem mem_emitted {member : InstId} :
    member ∈ emitted log id ↔ ∃ emission ∈ log, emission.chore.id = id ∧ member ∈ emission.row := by
  simp only [emitted, List.mem_flatMap, mem_about, and_assoc]

/-- A row is part of the group of its access. -/
theorem row_infix_emitted (h : emission ∈ log) : emission.row <:+: emitted log emission.chore.id :=
  List.infix_of_mem_flatten (List.mem_map_of_mem (f := Emission.row) (mem_about.mpr ⟨h, rfl⟩))

/-- What is written is the last member of a row. -/
theorem mem_written {slot : Nat} {v : Value} (h : (slot, v) ∈ written log id) :
    ∃ emission ∈ log, emission.chore.id = id ∧ emission.chore.slot = slot ∧
      ∃ last, emission.row.getLast? = some last ∧ v = .inst last := by
  obtain ⟨emission, hmem, hwrite⟩ := List.mem_flatMap.mp h
  obtain ⟨hlog, hid⟩ := mem_about.mp hmem
  obtain ⟨last, hlast, he⟩ := List.mem_map.mp hwrite
  cases he
  exact ⟨emission, hlog, hid, rfl, last, Option.mem_toList.mp hlast, rfl⟩

/-- A slot that has not been worked on holds what it held. -/
theorem operand?_written {slot : Nat} (kind : InstKind)
    (hnew : (id, slot) ∉ log.map (·.chore.place)) :
    (kind.setOperands (written log id)).operand? slot = kind.operand? slot := by
  apply InstKind.operand?_setOperands_of_not_mem
  intro hmem
  obtain ⟨⟨found, v⟩, hwritten, rfl⟩ := List.mem_map.mp hmem
  obtain ⟨emission, hlog, rfl, rfl, -⟩ := mem_written hwritten
  exact hnew (List.mem_map.mpr ⟨emission, hlog, rfl⟩)

end Logs

/-! ## The step of an entry -/

/-- What was done to a function when an entry came to its log: its slot reads the last member of its
row, at most parts of its fold are gone, and of these everything that nothing was counted to read. -/
structure Emission.Turns (emission : Emission) (f g : Func) : Prop where
  revises : ∃ gone, (∀ x ∈ gone, Retired [emission] x) ∧
    f.Revises emission.chore.id emission.chore.slot emission.row gone g
  retires : ∀ reader slot fold row, emission = .address reader slot (.folded fold) row →
    ∃ h successors removed, (Edit.retire fold successors).run h = .ok removed g

/-! ## Folds of a body -/

/-- What is retired by a log whose rows stand was no access. -/
theorem quiet_of_retired {f g : Func} {cx : Context} {base : Option InstId} {log : List Emission}
    {id : InstId} (hstands : ∀ emission ∈ log, emission.Stands f cx base g) (h : Retired log id) :
    ∃ inst, f.inst? id = some inst ∧ inst.kind.access? = none := by
  obtain ⟨reader, slot, fold, row, hmem, hpart⟩ := h
  obtain ⟨_, _, _, _, _, -, -, -, -, htakes, -⟩ := hstands _ hmem
  exact Func.part_of_fold? htakes.2 hpart

/-- Loading the base leaves alone what was there. -/
theorem Drafting.inst?_loadBase {b : InstId} {d u : Draft} (hrun : loadBase.run d = .ok b u) :
    d.func.cells.size ≤ u.func.cells.size ∧
      ∀ id, id < d.func.cells.size → u.func.inst? id = d.func.inst? id := by
  rcases loadBase_eq_ok hrun with ⟨-, rfl⟩ | ⟨entry, -, -, hinsert, -⟩
  · exact ⟨Nat.le_refl _, fun _ _ => rfl⟩
  · obtain ⟨hnew, hsize, hinst⟩ := Edit.inst?_insertAtHead hinsert
    refine ⟨by omega, fun id hid => ?_⟩
    rw [hinst, if_neg (Nat.ne_of_lt (hnew ▸ hid))]

/-! ## Drafts with a log -/

/-- A draft that comes from the body `f` by the chores of a log. -/
structure Draft.Logged (f : Func) (symbols : SymbolTable) (cx : Context) (log : List Emission)
    (d : Draft) : Prop where
  ready : d.Ready f.cells.size cx.region.memoryBase
  advances : f.Advances f.cells.size (log.map (·.chore.id)) d.base.loaded d.func
  laid : f.Laid d.base.loaded (emitted log) d.func
  owed : ∀ emission ∈ log, emission.chore.Owed f symbols
  kept : ∀ id inst, f.inst? id = some inst →
    d.func.inst? id = some { inst with kind := inst.kind.setOperands (written log id) } ∨
      d.func.inst? id = none ∧ Retired log id
  stands : ∀ emission ∈ log, emission.Stands f cx d.base.loaded d.func
  base : ∀ b, d.base.loaded = some b →
    d.func.inst? b = some ⟨.load (.global cx.region.memoryBase), .int 64, 0, none⟩

/-- What each chore of a slot that was not worked on before keeps, with an entry more in the log, chores
one after the other keep, with an entry each. -/
theorem Draft.Works.logs {f : Func} {symbols : SymbolTable} {cx : Context}
    {P : List Emission → Draft → Prop} {log : List Emission} {d e : Draft} {chores : List Chore}
    (hworks : Draft.Works cx d chores e)
    (hstep : ∀ log u v chore, P log u → chore.Owed f symbols →
      chore.place ∉ log.map (·.chore.place) → chore.Does cx u v →
      ∃ emission : Emission, emission.chore = chore ∧ P (log ++ [emission]) v)
    (hd : P log d) (howed : ∀ chore ∈ chores, chore.Owed f symbols)
    (honce : (log.map (·.chore.place) ++ chores.map Chore.place).Nodup) :
    ∃ more : List Emission, more.map Emission.chore = chores ∧ P (log ++ more) e := by
  induction hworks generalizing log with
  | done d => exact ⟨[], rfl, by rwa [List.append_nil]⟩
  | @step d u e chore chores hfirst _ ih =>
    rw [List.forall_mem_cons] at howed
    have hnew : chore.place ∉ log.map (·.chore.place) := fun hmem =>
      (List.nodup_append.mp honce).2.2 _ hmem _ List.mem_cons_self rfl
    obtain ⟨emission, rfl, hu⟩ := hstep log d u chore hd howed.1 hnew hfirst
    obtain ⟨more, rfl, he⟩ := ih hu howed.2 <| by
      rw [List.map_append, List.append_assoc]
      exact honce
    refine ⟨emission :: more, rfl, ?_⟩
    rw [List.append_assoc] at he
    exact he

namespace Draft.Logged

variable {f : Func} {symbols : SymbolTable} {cx : Context} {log : List Emission} {d u e : Draft}
  {id : InstId} {inst : Inst}

theorem start (hf : f.Placed) (symbols : SymbolTable) (cx : Context) :
    Logged f symbols cx [] { func := f, base := .start cx.region.memoryBase } where
  ready := ⟨Nat.le_refl _, rfl, fun _ h => nomatch h⟩
  advances := .refl f.cells.size [] none f
  laid := .start hf
  owed := fun _ h => absurd h List.not_mem_nil
  kept := fun _ _ hi => Or.inl hi
  stands := fun _ h => absurd h List.not_mem_nil
  base := fun _ h => nomatch h

/-- What is live is what it was but for what was written. -/
theorem kept_of_live (hd : d.Logged f symbols cx log) (hi : f.inst? id = some inst) {later : Inst}
    (hlater : d.func.inst? id = some later) :
    later = { inst with kind := inst.kind.setOperands (written log id) } := by
  rcases hd.kept id inst hi with hlive | ⟨hgone, -⟩
  · exact Option.some.inj (hlater.symm.trans hlive)
  · rw [hgone] at hlater
    cases hlater

/-- An access is never gone. -/
theorem inst?_of_access (hd : d.Logged f symbols cx log) (hi : f.inst? id = some inst)
    (ha : inst.kind.access? ≠ none) :
    d.func.inst? id = some { inst with kind := inst.kind.setOperands (written log id) } := by
  rcases hd.kept id inst hi with hlive | ⟨-, hretired⟩
  · exact hlive
  · obtain ⟨found, hfound, hnone⟩ := quiet_of_retired hd.stands hretired
    cases hi.symm.trans hfound
    exact absurd hnone ha

/-- What is no access has no group, and nothing is written into it. -/
theorem about_eq_nil (hd : d.Logged f symbols cx log) (hi : f.inst? id = some inst)
    (ha : inst.kind.access? = none) : about log id = [] := by
  rw [about, List.filter_eq_nil_iff]
  intro emission hmem he
  rw [decide_eq_true_eq] at he
  obtain ⟨found, hfound, haccess⟩ := (hd.owed emission hmem).access
  rw [he] at hfound
  cases hi.symm.trans hfound
  exact haccess ha

/-- What is live keeps its source position. -/
theorem bind_loc (hd : d.Logged f symbols cx log) (hi : f.inst? id = some inst)
    (hlive : (d.func.inst? id).isSome) :
    (d.func.inst? id).bind (·.loc) = (f.inst? id).bind (·.loc) := by
  obtain ⟨later, hlater⟩ := Option.isSome_iff_exists.mp hlive
  rw [hlater, hd.kept_of_live hi hlater, hi]
  rfl

/-- The base is loaded, or stays loaded. -/
theorem loadBase {b : InstId} (hd : d.Logged f symbols cx log) (hf : f.Placed)
    (hrun : Drafting.loadBase.run d = .ok b u) :
    u.Logged f symbols cx log ∧ u.base.loaded = some b := by
  obtain ⟨hdu, hloaded⟩ := Drafting.loadBase_advances hrun hd.ready
  rcases Drafting.loadBase_eq_ok hrun with ⟨-, rfl⟩ | ⟨entry, hnone, hentry, hinsert, -⟩
  · exact ⟨hd, hloaded⟩
  · obtain ⟨-, -, hinst⟩ := Edit.inst?_insertAtHead hinsert
    obtain rfl := eq_zero_of_entry? hentry
    have hkeep := (Drafting.inst?_loadBase hrun).2
    have hadvances := (hd.advances.mono (List.Subset.refl _)).trans
      (hdu.func.mono (List.nil_subset _)) hdu.loaded
    refine ⟨{ ready := hdu.ready, advances := hadvances, laid := ?laid, owed := hd.owed,
              kept := ?kept, stands := ?stands, base := ?base }, hloaded⟩
    case laid =>
      rw [hloaded]
      exact Laid.insertAtHead (hnone ▸ hd.laid) hf hinsert
    case kept =>
      intro other inst hi
      rw [hkeep other (Nat.lt_of_lt_of_le (lt_size_of_inst? hi) hd.ready.size)]
      exact hd.kept other inst hi
    case stands =>
      intro emission hmem
      have hstands := (hd.stands emission hmem).fix (h := u.func) fun other found _ _ hfound => by
        rw [hkeep other (lt_size_of_inst? hfound)]
        exact hfound
      exact hstands.loaded hdu.loaded
    case base =>
      intro other hother
      cases hloaded.symm.trans hother
      rw [hinst, if_pos rfl, hd.ready.symbol_eq]

/-- A chore that rewrites its slot adds its row to the log. -/
theorem rewrites {emission : Emission} {gone : List InstId} (hu : u.Logged f symbols cx log)
    (hf : f.Placed) (howed : emission.chore.Owed f symbols)
    (hadv : u.Advances f.cells.size cx.region.memoryBase [emission.chore.id] e)
    (hbase : e.base = u.base)
    (hrewrites : u.func.Rewrites emission.chore.id emission.chore.slot emission.row gone e.func)
    (hgone : ∀ x ∈ gone, Retired [emission] x)
    (hstands : emission.Stands f cx e.base.loaded e.func) :
    e.Logged f symbols cx (log ++ [emission]) := by
  obtain ⟨inst, hi, hne⟩ := howed.access
  have hid := lt_size_of_inst? hi
  have hiu := hu.inst?_of_access hi hne
  -- what goes is a part of the fold that the new entry takes
  have hgone' : ∀ x ∈ gone,
      x < f.cells.size ∧ x ≠ emission.chore.id ∧ emitted log x = [] := by
    intro x hx
    obtain ⟨part, hpart, hnone⟩ :=
      quiet_of_retired (List.forall_mem_singleton.mpr hstands) (hgone x hx)
    refine ⟨lt_size_of_inst? hpart, ?_, ?_⟩
    · rintro rfl
      cases hi.symm.trans hpart
      exact hne hnone
    · rw [emitted, hu.about_eq_nil hpart hnone]
      rfl
  have hlate : ∀ other found, f.cells.size ≤ other → u.func.inst? other = some found →
      e.func.inst? other = some found := by
    intro other found hle hfound
    rw [hrewrites.others other (lt_size_of_inst? hfound)
      (Nat.ne_of_gt (Nat.lt_of_lt_of_le hid hle)), if_neg, hfound]
    exact fun hmem => Nat.not_lt.mpr hle (hgone' other hmem).1
  refine { ready := hadv.ready, advances := ?advances, laid := ?laid, owed := ?owed, kept := ?kept,
           stands := ?stands, base := ?base }
  case advances =>
    rw [List.map_append]
    exact (hu.advances.mono (List.subset_append_left _ _)).trans
      (hadv.func.mono (List.subset_append_right _ _)) hadv.loaded
  case laid =>
    have hgroup : emitted (log ++ [emission]) = fun x =>
        emitted log x ++ if x = emission.chore.id then emission.row else [] :=
      funext fun x => emitted_concat log emission x
    rw [hgroup, hbase]
    exact hu.laid.rewrites hf hrewrites hiu hid hgone'
  case owed => exact List.forall_mem_append.mpr ⟨hu.owed, List.forall_mem_singleton.mpr howed⟩
  case kept =>
    intro x found hfound
    by_cases he : x = emission.chore.id
    · subst he
      cases hi.symm.trans hfound
      refine Or.inl ?_
      rw [hrewrites.self _ hiu, written_concat, if_pos rfl, InstKind.setOperands_append]
    · rw [hrewrites.others x (Nat.lt_of_lt_of_le (lt_size_of_inst? hfound) hu.ready.size) he]
      by_cases hmem : x ∈ gone
      · rw [if_pos hmem]
        exact Or.inr ⟨rfl, (hgone x hmem).mono (List.subset_append_right _ _)⟩
      · rw [if_neg hmem, written_concat, if_neg he, List.append_nil]
        exact (hu.kept x found hfound).imp_right fun h =>
          ⟨h.1, h.2.mono (List.subset_append_left _ _)⟩
  case stands =>
    refine List.forall_mem_append.mpr ⟨?_, List.forall_mem_singleton.mpr hstands⟩
    intro other hother
    rw [hbase]
    exact (hu.stands other hother).fix fun x found hle _ hx => hlate x found hle hx
  case base =>
    intro b hb
    rw [hbase] at hb
    obtain ⟨hnew, -⟩ := hu.ready.loaded b hb
    exact hlate b _ hnew (hu.base b hb)

theorem params (hd : d.Logged f symbols cx log) : d.func.params = f.params :=
  congrArg (·.2.1) hd.laid.interface

/-- An address is confined, and the log says in which way. -/
theorem address {slot : PointerSlot} {outcome : PointerOutcome} (hd : d.Logged f symbols cx log)
    (hf : f.Placed) (hground : f.Grounded) (howed : (Chore.address id slot).Owed f symbols)
    (hnew : (id, slot.index) ∉ log.map (·.chore.place))
    (hrun : (Drafting.confinePointer cx id slot).run d = .ok outcome e) :
    ∃ landing row, (outcome.folded = true ↔ ∃ fold, landing = .folded fold) ∧
      Emission.Turns (.address id slot landing row) d.func e.func ∧
      e.Logged f symbols cx (log ++ [.address id slot landing row]) := by
  obtain ⟨inst, access, v, target, hi, ha, -, hv, hvty⟩ := howed.address
  have hne : inst.kind.access? ≠ none := ha.trans_ne (Option.some_ne_none access)
  have hid := lt_size_of_inst? hi
  have hgiven : ∀ other, v = .inst other → other < f.cells.size := fun other he =>
    lt_size_of_valueType hvty he
  obtain ⟨b, u, address, pointee, g, hbase, hsame, haddress, hty, hcase⟩ :=
    Drafting.confinePointer_eq_ok hrun
  obtain ⟨hu, hloaded⟩ := hd.loadBase hf hbase
  obtain ⟨hsize, hsameInst⟩ := Drafting.inst?_loadBase hbase
  have hiu := hu.inst?_of_access hi hne
  have hneu : (inst.kind.setOperands (written log id)).access? ≠ none := by
    rwa [InstKind.access?_setOperands]
  rw [operand?_eq hiu, operand?_written _ hnew, hv] at haddress
  cases haddress
  have hty := HasType.earlier hty hu.advances hu.params hgiven
  rcases hcase with ⟨-, pointer, hemit, hreplace, rfl⟩ |
    ⟨fold, successors, k, removed, hfold, hemit, hreplace, hretire, rfl⟩
  · obtain ⟨row, hrewrites, hrow⟩ :=
      rewrites_plain hemit hreplace hu.laid.placed hiu hu.ready.size hid
    obtain ⟨hue, -⟩ := Edit.plain_confines hemit hreplace hu.ready.size (hu.ready.lt_size hloaded)
      hgiven hiu hid hneu
    refine ⟨.plain v, row, by simp,
      ⟨⟨[], fun x hx => absurd hx List.not_mem_nil, hrewrites.revises hsize hsameInst⟩,
        fun _ _ _ _ he => by cases he⟩,
      hu.rewrites hf howed (.of_func hu.ready hsame hue) hsame hrewrites
        (fun x hx => absurd hx List.not_mem_nil) ?_⟩
    exact ⟨b, inst, v, pointee, pointer, hsame ▸ hloaded, hi, hv, hty, rfl, hrow⟩
  · obtain ⟨hfirst, hfold⟩ := foldFor?_eq_some_iff.mp hfold
    obtain ⟨⟨castNow, hcastNow, -⟩, addNow, -, haddNow, -⟩ := parts_of_fold? hfold
    have hfold := Func.fold?_of_advances hu.advances hground hgiven hfold
    obtain ⟨castInst, hcast, hcastQuiet⟩ := part_of_fold? hfold (Or.inl rfl)
    obtain ⟨addInst, hadd, haddQuiet⟩ := part_of_fold? hfold (Or.inr rfl)
    -- a part of a fold is no access
    have hapart : ∀ {part : InstId} {partInst : Inst}, f.inst? part = some partInst →
        partInst.kind.access? = none → part ≠ id := by
      rintro part partInst hpart hquiet rfl
      cases hi.symm.trans hpart
      exact hne hquiet
    obtain ⟨row, gone, hgone, hrewrites, hrow⟩ := rewrites_folded (f := f) hemit hreplace hretire
      hu.laid.placed hiu hu.ready.size hid (lt_size_of_inst? hcast) (lt_size_of_inst? hadd)
      (hapart hcast hcastQuiet) (hapart hadd haddQuiet)
      (hu.bind_loc hcast (by rw [hcastNow]; rfl)) (hu.bind_loc hadd (by rw [haddNow]; rfl))
    obtain ⟨hue, -⟩ := Edit.folded_confines hemit hreplace hretire hu.advances hground hu.ready.size
      (hu.ready.lt_size hloaded) hfirst hfold hiu hid hneu
    have hretired : ∀ x ∈ gone, Retired [.address id slot (.folded fold) row] x := by
      intro x hx
      have hx := hgone hx
      rw [List.mem_cons, List.mem_singleton] at hx
      exact ⟨id, slot, fold, row, List.mem_singleton.mpr rfl, hx⟩
    refine ⟨.folded fold, row, by simp,
      ⟨⟨gone, hretired, hrewrites.revises hsize hsameInst⟩, ?_⟩,
      hu.rewrites hf howed (.of_func hu.ready hsame hue) hsame hrewrites hretired ?_⟩
    · rintro _ _ _ _ he
      cases he
      exact ⟨k, successors, removed, hretire⟩
    · exact ⟨b, inst, v, pointee, successors.cast, hsame ▸ hloaded, hi, hv, hty,
        ⟨hfirst, hfold⟩, hrow⟩

/-- A length is masked, or left alone. -/
theorem length {slot : Nat} {tally : Tally} (hd : d.Logged f symbols cx log) (hf : f.Placed)
    (howed : (Chore.length id slot).Owed f symbols) (hnew : (id, slot) ∉ log.map (·.chore.place))
    (hrun : (Drafting.confineLength cx id (some slot)).run d = .ok tally e) :
    ∃ emission : Emission, emission.chore = .length id slot ∧ emission.Turns d.func e.func ∧
      e.Logged f symbols cx (log ++ [emission]) := by
  obtain ⟨inst, access, v, bits, hi, ha, -, hv, hvty⟩ := howed.length
  have hne : inst.kind.access? ≠ none := ha.trans_ne (Option.some_ne_none access)
  have hid := lt_size_of_inst? hi
  have hgiven : ∀ other, v = .inst other → other < f.cells.size := fun other he =>
    lt_size_of_valueType hvty he
  have hid' := hd.inst?_of_access hi hne
  have ho : (inst.kind.setOperands (written log id)).operand? slot = some v :=
    (operand?_written _ hnew).trans hv
  obtain ⟨hde, -⟩ := Drafting.confineLength_caps hrun hd.ready hid' hid
    (by rwa [InstKind.access?_setOperands])
    (by
      rintro found hfound
      cases hfound
      exact ⟨v, ho, hgiven⟩)
  obtain ⟨masked, hedit, hsame, -⟩ := Drafting.confineLength_some_eq_ok hrun
  obtain ⟨row, hrewrites, hrow⟩ := rewrites_length (f := f) hedit hd.laid.placed hid' ho
    hd.ready.size hid fun bits hty => HasType.earlier hty hd.advances hd.params hgiven
  exact ⟨.length id slot row, rfl,
    ⟨⟨[], fun x hx => absurd hx List.not_mem_nil, hrewrites.revises (Nat.le_refl _) fun _ _ => rfl⟩,
      fun _ _ _ _ he => by cases he⟩,
    hd.rewrites hf howed hde hsame hrewrites (fun x hx => absurd hx List.not_mem_nil)
      ⟨inst, v, hi, hv, hrow⟩⟩

/-- A chore that is done adds an entry to the log. -/
theorem does {chore : Chore} (hd : d.Logged f symbols cx log) (hf : f.Placed)
    (hground : f.Grounded) (howed : chore.Owed f symbols)
    (hnew : chore.place ∉ log.map (·.chore.place)) (hdoes : chore.Does cx d e) :
    ∃ emission : Emission, emission.chore = chore ∧ e.Logged f symbols cx (log ++ [emission]) := by
  cases chore with
  | address id slot =>
    obtain ⟨outcome, hrun⟩ := hdoes
    obtain ⟨landing, row, -, -, he⟩ := hd.address hf hground howed hnew hrun
    exact ⟨.address id slot landing row, rfl, he⟩
  | length id slot =>
    obtain ⟨tally, hrun⟩ := hdoes
    obtain ⟨emission, hchore, -, he⟩ := hd.length hf howed hnew hrun
    exact ⟨emission, hchore, he⟩

theorem follows (hd : d.Logged f symbols cx log) (hup : f.Upholds none d.func) :
    d.Follows f cx.region.memoryBase (log.map (·.chore.id)) :=
  ⟨hd.ready, hd.advances, hup⟩

/-- A chore that is done leaves intact what it should. -/
theorem upholds_does {chore : Chore} (hd : d.Logged f symbols cx log) (hf : f.Prepared cx)
    (hup : f.Upholds none d.func) (howed : chore.Owed f symbols)
    (hnew : chore.place ∉ log.map (·.chore.place)) (hdoes : chore.Does cx d e) :
    f.Upholds none e.func := by
  cases chore with
  | address id slot =>
    obtain ⟨outcome, hrun⟩ := hdoes
    obtain ⟨inst, access, v, target, hi, ha, hslot, hv, hvty⟩ := howed.address
    have hne : inst.kind.access? ≠ none := ha.trans_ne (Option.some_ne_none access)
    have hde := Drafting.confinePointer_upholds hf (hd.follows hup)
      ⟨inst, access, hi, ha, hslot, hv⟩ (hd.inst?_of_access hi hne)
      (by rwa [InstKind.access?_setOperands]) ((operand?_written _ hnew).trans hv)
      (fun other he => lt_size_of_valueType hvty he) hrun
    exact hup.trans hde.func
  | length id slot =>
    obtain ⟨tally, hrun⟩ := hdoes
    obtain ⟨inst, -, -, -, hi, -⟩ := howed.length
    exact hup.trans
      (Drafting.confineLength_upholds (hd.follows hup) (lt_size_of_inst? hi) hrun).func

/-- Chores that are done, each in a slot that was not worked on before, add an entry each. -/
theorem works {chores : List Chore} (hd : d.Logged f symbols cx log) (hf : f.Placed)
    (hground : f.Grounded) (howed : ∀ chore ∈ chores, chore.Owed f symbols)
    (honce : (log.map (·.chore.place) ++ chores.map Chore.place).Nodup)
    (hworks : Draft.Works cx d chores e) :
    ∃ more : List Emission, more.map Emission.chore = chores ∧ e.Logged f symbols cx (log ++ more) ∧
      (f.Prepared cx → f.Upholds none d.func → f.Upholds none e.func) := by
  refine hworks.logs (P := fun log u => u.Logged f symbols cx log ∧
    (f.Prepared cx → f.Upholds none d.func → f.Upholds none u.func)) ?_ ⟨hd, fun _ hup => hup⟩ howed
    honce
  rintro log u v chore ⟨hu, hup⟩ howed hnew hdoes
  obtain ⟨emission, hchore, hv⟩ := hu.does hf hground howed hnew hdoes
  exact ⟨emission, hchore, hv, fun hprepared hupholds =>
    hu.upholds_does hprepared (hup hprepared hupholds) howed hnew hdoes⟩

end Draft.Logged

/-! ## A body -/

/-- A draft that has come from a body by all chores of its plan, with a log of them. Without an access
it is the body, and where the counters of what its accesses may remove are not too low, placement and
counters are upheld. -/
structure Func.Recorded (f : Func) (symbols : SymbolTable) (cx : Context) (plan : Plan)
    (log : List Emission) (d : Draft) : Prop where
  plan_eq : f.plan symbols = .ok plan
  chores : log.map Emission.chore = plan.flatMap Planned.chores
  logged : d.Logged f symbols cx log
  nothing : plan = [] → d.func = f
  upholds : f.Trusted cx.symbols cx.layout cx.region.width → f.Upholds none d.func

/-- The entries of the log on an access have its chores. -/
theorem Func.Recorded.map_chore_about {f : Func} {symbols : SymbolTable} {cx : Context}
    {plan : Plan} {log : List Emission} {d : Draft} (hd : f.Recorded symbols cx plan log d)
    (hf : f.Placed) {id : InstId} {inst : Inst} {access : Access} (hi : f.inst? id = some inst)
    (ha : inst.kind.access? = some access) :
    (about log id).map Emission.chore = ({ id, access } : Planned).chores := by
  have hmem : ({ id, access } : Planned) ∈ plan :=
    mem_plan hd.plan_eq (hf.mem_order.mpr ⟨inst, hi⟩) hi ha
  rw [about, ← filter_chores hd.plan_eq hf.nodup_order hmem, ← hd.chores, List.filter_map]
  rfl

/-- A body on which the chores of its plan were performed has a log of them, in order. -/
theorem Func.recorded_of_performAll {f : Func} {cx : Context} {symbols : SymbolTable} {plan : Plan}
    {tally : Tally} {d : Draft} (hf : f.Placed) (hplan : f.plan symbols = .ok plan)
    (hrun : (Drafting.performAll cx (plan.flatMap Planned.chores)).run
      { func := f, base := .start cx.region.memoryBase } = .ok tally d) :
    ∃ log, f.Recorded symbols cx plan log d := by
  obtain ⟨log, hchores, hd, hup⟩ := (Draft.Logged.start hf symbols cx).works hf (hf.grounded hplan)
    (owed_of_plan hplan) (nodup_places hplan hf.nodup_order) (Drafting.performAll_works hrun)
  refine ⟨log, hplan, hchores, hd, ?_, fun htrusted =>
    hup (hf.prepared htrusted hplan) (.refl none f)⟩
  rintro rfl
  obtain ⟨-, rfl⟩ := run_pure_eq_ok.mp hrun
  rfl

/-- A body that is confined by its plan has such a log. -/
theorem Edit.confineBody_logged {f g : Func} {cx : Context} {symbols : SymbolTable} {plan : Plan}
    {body : BodyTally} (hf : f.Placed) (hplan : f.plan symbols = .ok plan)
    (hrun : (Edit.confineBody cx plan).run f = .ok body g) :
    ∃ log d, g = d.func ∧ f.Recorded symbols cx plan log d := by
  obtain ⟨d, hperform, hg, -⟩ := Edit.confineBody_performs hplan hrun
  obtain ⟨log, hd⟩ := recorded_of_performAll hf hplan hperform
  exact ⟨log, d, hg, hd⟩

/-- A declaration is left alone, as confining it by its plan would leave it. -/
theorem Func.recorded_of_declaration {f : Func} (hf : f.Placed) (hdecl : f.isDeclaration = true)
    (symbols : SymbolTable) (cx : Context) :
    ∃ plan log d, f = d.func ∧ f.Recorded symbols cx plan log d := by
  have hplan : f.plan symbols = .ok [] := by
    rw [Func.plan, Func.order, isDeclaration_iff.mp hdecl]
    rfl
  obtain ⟨body, hrun⟩ : ∃ body, (Edit.confineBody cx []).run f = .ok body f := ⟨_, rfl⟩
  exact ⟨[], Edit.confineBody_logged hf hplan hrun⟩

/-! ## A module -/

/-- Functions that are as their callers see them leave the symbols of a module as they are. -/
theorem Module.symbols_eq_of_interface {m m' : Module} (hglobals : m'.globals = m.globals)
    (hall : List.Forall₂ (fun f g : Func => g.interface = f.interface) m.functions m'.functions) :
    m'.symbols = m.symbols := by
  have hsame : m'.functions.map (fun f => ({ name := f.name, ty := .ptr f.signature } : Symbol)) =
      m.functions.map fun f => { name := f.name, ty := .ptr f.signature } := by
    generalize m.functions = fs at hall ⊢
    generalize m'.functions = gs at hall ⊢
    induction hall with
    | nil => rfl
    | @cons f g fs gs hfg _ ih =>
      simp only [Func.interface, Prod.mk.injEq] at hfg
      obtain ⟨hname, hparams, hret⟩ := hfg
      rw [List.map_cons, List.map_cons, ih]
      simp only [Func.signature, hname, hparams, hret]
  rw [Module.symbols, Module.symbols, hglobals, hsame]

/-- The module that a run leaves has the symbols of the region and is flagged, and every function has
a log of what was done to it. -/
theorem Pass.run_logged {pass : Pass} {m m' : Module} {report : Report} (hm : m.Built)
    (h : pass.run.run m = .ok report m') :
    ∃ region m₁, (Region.install pass.width).run m = .ok region m₁ ∧
      m' = ({ m₁ with functions := m'.functions } : Module).setFlag sandboxedFlag ∧
      m'.symbols = m₁.symbols ∧
      List.Forall₂ (fun f g => f ∈ m.functions ∧ (f.isDeclaration = true → g = f) ∧
        ∃ plan log d, g = d.func ∧ f.Recorded m.symbols (m₁.context region) plan log d)
        m.functions m'.functions := by
  obtain ⟨region, m₁, hregion, hm', hall⟩ := run_regions h
  have hlogged := hall.imp (S := fun f g => f ∈ m.functions ∧ (f.isDeclaration = true → g = f) ∧
    ∃ plan log d, g = d.func ∧ f.Recorded m.symbols (m₁.context region) plan log d) <| by
      rintro f g ⟨hf, hcase⟩
      have hplaced := (hm f hf).placed
      rcases hcase with ⟨hdecl, rfl⟩ | ⟨plan, body, hplan, hrun⟩
      · exact ⟨hf, fun _ => rfl, recorded_of_declaration hplaced hdecl _ _⟩
      · obtain ⟨log, d, rfl, hd⟩ := Edit.confineBody_logged hplaced hplan hrun
        refine ⟨hf, fun hdecl => hd.nothing ?_, plan, log, d, rfl, hd⟩
        -- a declaration lists nothing
        obtain ⟨-, rfl⟩ := plan_eq_ok_iff.mp hplan
        rw [Func.order, isDeclaration_iff.mp hdecl]
        rfl
  refine ⟨region, m₁, hregion, hm', ?_, hlogged⟩
  have hfunctions : m₁.functions = m.functions := (Region.install_eq_ok hregion).2.1
  apply Module.symbols_eq_of_interface
  · rw [hm']
    rfl
  · rw [hfunctions]
    refine hlogged.imp ?_
    rintro f g ⟨-, -, plan, log, d, rfl, hd⟩
    exact hd.logged.laid.interface

end Confinement
