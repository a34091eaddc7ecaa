import Confinement.Proofs.Census
import Confinement.Proofs.Dominance

/-!
# What folds leave behind

A folded address is computed from the index, so the conversion and the addition that the body had for
it may be read by nobody any more, and are then removed. The decision is made after each fold, from
counters, while other instructions come to read the same values. Its outcome can be told from the body
alone: a conversion goes if every slot that reads it folds, an addition if everything that reads it is
a conversion that goes, and nothing else does (`Func.Sheds`).

Two facts lead to it. What a fold has retired and is still there is still read, after every chore
(`Draft.Swept`). And nothing reads a value of the body any more exactly when every slot that held it
was made to read a folded address, or belonged to a conversion that is gone
(`Draft.Logged.released_of_unread`, `Draft.Logged.unread_of_released`).
-/

set_option autoImplicit false

namespace Confinement

open Func

/-! ## What the row of an entry reads -/

/-- The row of an address reads the value that it is computed from. -/
theorem Func.LandRow.reads_source {f g : Func} {width : Width} {b : BlockId}
    {base pointer x : InstId} {ty : Ty} {landing : Landing} {row : List InstId}
    (hl : f.LandRow g width b base ty landing row pointer) (hs : landing.source = .inst x) :
    0 < g.reads x := by
  cases landing with
  | plain address =>
    cases hl with
    | plain hlow _ _ => exact reads_pos_iff.mpr ⟨_, _, hlow.2, hs ▸ List.mem_singleton.mpr rfl⟩
  | folded fold => exact hl.reads_index hs

namespace Emission

/-- The entry says that an address was folded. -/
def Folded (emission : Emission) (reader : InstId) (slot : PointerSlot) (fold : Fold) : Prop :=
  ∃ row, emission = .address reader slot (.folded fold) row

variable {f g : Func} {cx : Context} {base : Option InstId} {emission : Emission} {inst : Inst}
  {x member last reader : InstId} {slot : PointerSlot} {fold : Fold}

/-- A row reads what its slot held, unless that is the conversion of its fold. -/
theorem Stands.reads_held (hs : emission.Stands f cx base g)
    (hi : f.inst? emission.chore.id = some inst)
    (ho : inst.kind.operand? emission.chore.slot = some (.inst x))
    (hlast : emission.row.getLast? = some last) :
    (∃ slot fold, emission.Folded emission.chore.id slot fold ∧ slot.index = emission.chore.slot ∧
      x = fold.cast) ∨ 0 < g.reads x := by
  cases emission with
  | address id slot landing row =>
    obtain ⟨b, same, address, pointee, pointer, -, hsame, hheld, -, htakes, hrow⟩ := hs
    cases hi.symm.trans hsame
    cases ho.symm.trans hheld
    cases landing with
    | plain found =>
      cases htakes
      exact Or.inr (hrow.reads_source rfl)
    | folded fold =>
      exact Or.inl ⟨slot, fold, ⟨row, rfl⟩, rfl,
        Value.inst.inj (fold?_eq_some_iff.mp htakes.2).1⟩
  | length id slot row =>
    obtain ⟨same, length, hsame, hheld, hrow⟩ := hs
    cases hi.symm.trans hsame
    cases ho.symm.trans hheld
    cases hrow with
    | whole => cases hlast
    | masked hmask hty hkept =>
      exact Or.inr (reads_pos_iff.mpr ⟨_, _, hkept.2, List.mem_cons_self⟩)

/-- The parts of a fold are those of the body. -/
theorem Stands.parts (hs : emission.Stands f cx base g)
    (hfolded : emission.Folded reader slot fold) :
    (∃ inst, f.inst? fold.cast = some inst ∧ inst.kind = .cast .inttoptr (.inst fold.add)) ∧
      ∃ inst c, f.inst? fold.add = some inst ∧ inst.kind = .binary .add fold.index (.const c) := by
  obtain ⟨row, rfl⟩ := hfolded
  obtain ⟨_, _, _, _, _, -, -, -, -, htakes, -⟩ := hs
  exact parts_of_fold? htakes.2

/-- A conversion is not the addition of a fold. -/
theorem Stands.ne_add (hs : emission.Stands f cx base g)
    (hfolded : emission.Folded reader slot fold) {id : InstId} {op : CastOp} {v : Value}
    (hi : f.inst? id = some inst) (hkind : inst.kind = .cast op v) : id ≠ fold.add := by
  obtain ⟨-, addInst, c, hadd, haddKind⟩ := hs.parts hfolded
  rintro rfl
  cases hi.symm.trans hadd
  rw [hkind] at haddKind
  cases haddKind

/-- An addition is not the conversion of a fold. -/
theorem Stands.ne_cast (hs : emission.Stands f cx base g)
    (hfolded : emission.Folded reader slot fold) {id : InstId} {op : BinOp} {lhs rhs : Value}
    (hi : f.inst? id = some inst) (hkind : inst.kind = .binary op lhs rhs) : id ≠ fold.cast := by
  obtain ⟨⟨castInst, hcast, hcastKind⟩, -⟩ := hs.parts hfolded
  rintro rfl
  cases hi.symm.trans hcast
  rw [hkind] at hcastKind
  cases hcastKind

/-- The slot of a fold held its conversion. -/
theorem Stands.held (hs : emission.Stands f cx base g)
    (hfolded : emission.Folded reader slot fold) :
    f.operand? reader slot.index = some (.inst fold.cast) := by
  obtain ⟨row, rfl⟩ := hfolded
  obtain ⟨_, _, _, _, _, -, hi, ho, -, htakes, -⟩ := hs
  rw [operand?_eq hi, ho, (fold?_eq_some_iff.mp htakes.2).1]

/-- The row of a fold reads its index. -/
theorem Stands.reads_index (hs : emission.Stands f cx base g)
    (hfolded : emission.Folded reader slot fold) (hx : fold.index = .inst x) : 0 < g.reads x := by
  obtain ⟨row, rfl⟩ := hfolded
  obtain ⟨_, _, _, _, _, -, -, -, -, -, hrow⟩ := hs
  exact hrow.reads_source hx

/-- A member of a row reads another member, the base, what the slot of the access held, if that was not
folded, or the index of the fold. -/
theorem Stands.reads_cases (hs : emission.Stands f cx base g) (hm : member ∈ emission.row)
    (hi : g.inst? member = some inst) (hx : .inst x ∈ inst.kind.operands) :
    x ∈ emission.row ∨ base = some x ∨
      ((∀ reader slot fold, ¬ emission.Folded reader slot fold) ∧
        f.operand? emission.chore.id emission.chore.slot = some (.inst x)) ∨
      ∃ reader slot fold, emission.Folded reader slot fold ∧ fold.index = .inst x := by
  cases emission with
  | address id slot landing row =>
    obtain ⟨b, access, address, pointee, pointer, hb, haccess, hheld, -, htakes, hrow⟩ := hs
    rcases hrow.reads hm hi hx with hbefore | rfl | hsource
    · exact Or.inl (hbefore.subset List.mem_cons_self)
    · exact Or.inr (Or.inl hb)
    · cases landing with
      | plain found =>
        cases htakes
        cases hsource
        refine Or.inr (Or.inr (Or.inl ⟨?_, (operand?_eq haccess _).trans hheld⟩))
        rintro _ _ _ ⟨_, he⟩
        cases he
      | folded fold => exact Or.inr (Or.inr (Or.inr ⟨id, slot, fold, ⟨row, rfl⟩, hsource⟩))
  | length id slot row =>
    obtain ⟨access, length, haccess, hheld, hrow⟩ := hs
    cases hrow.reads hm hi hx
    refine Or.inr (Or.inr (Or.inl ⟨?_, (operand?_eq haccess _).trans hheld⟩))
    rintro _ _ _ ⟨_, he⟩
    cases he

end Emission

/-- What was retired is a part of a fold of the log. -/
theorem retired_iff {log : List Emission} {x : InstId} : Retired log x ↔
    ∃ emission ∈ log, ∃ reader slot fold, emission.Folded reader slot fold ∧
      (x = fold.cast ∨ x = fold.add) := by
  constructor
  · rintro ⟨reader, slot, fold, row, hmem, hx⟩
    exact ⟨_, hmem, reader, slot, fold, ⟨row, rfl⟩, hx⟩
  · rintro ⟨_, hmem, reader, slot, fold, ⟨row, rfl⟩, hx⟩
    exact ⟨reader, slot, fold, row, hmem, hx⟩

theorem retired_singleton {emission : Emission} {x : InstId} : Retired [emission] x ↔
    ∃ reader slot fold, emission.Folded reader slot fold ∧ (x = fold.cast ∨ x = fold.add) := by
  rw [retired_iff]
  constructor
  · rintro ⟨_, hmem, hrest⟩
    exact List.mem_singleton.mp hmem ▸ hrest
  · exact fun h => ⟨emission, List.mem_singleton.mpr rfl, h⟩

/-! ## Sweeping -/

namespace Edit

variable {f g : Func} {id : InstId} {inst : Inst} {count : Nat}

/-- What is not removed is counted to be read. -/
theorem eraseUnread_leaves (hrun : (eraseUnread id).run f = .ok count g)
    (hi : g.inst? id = some inst) : g = f ∧ 0 < f.useCount id := by
  rw [eraseUnread, run_get_bind] at hrun
  split at hrun
  · obtain ⟨done, u, herase, hrun⟩ := run_bind_eq_ok.mp hrun
    obtain ⟨-, rfl⟩ := run_pure_eq_ok.mp hrun
    rw [(inst?_erase herase).2, if_pos rfl] at hi
    cases hi
  · next hkept =>
    obtain ⟨-, rfl⟩ := run_pure_eq_ok.mp hrun
    refine ⟨rfl, ?_⟩
    by_contra hzero
    exact hkept ⟨by rw [hi]; rfl, by rw [hasUses, decide_eq_true_eq]; exact hzero⟩

/-- A part of a fold that is not removed is read, where the conversion does not outlive the
addition. -/
theorem retire_leaves {fold : Fold} {successors : Successors}
    (hrun : (retire fold successors).run f = .ok count g) (hexact : g.Exact)
    (hclosed : g.inst? fold.add = none → g.inst? fold.cast = none)
    (hid : id = fold.cast ∨ id = fold.add) (hi : g.inst? id = some inst) : 0 < g.reads id := by
  obtain ⟨f₁, f₂, f₃, casts, adds, -, -, hcasts, hadds, -⟩ := retire_eq_ok hrun
  rw [← hexact id]
  rcases hid with rfl | rfl
  · cases hadd : g.inst? fold.add with
    | none =>
      rw [hclosed hadd] at hi
      cases hi
    | some addInst =>
      -- neither of the two was removed
      obtain ⟨rfl, -⟩ := eraseUnread_leaves hadds hadd
      obtain ⟨rfl, hcount⟩ := eraseUnread_leaves hcasts hi
      exact hcount
  · obtain ⟨rfl, hcount⟩ := eraseUnread_leaves hadds hi
    exact hcount

end Edit

/-- The entry of an address says that it was confined as the body says. -/
def Emission.Lands (f : Func) (symbols : SymbolTable) (cx : Context) : Emission → Prop
  | .address id slot landing _ => ∃ inst address pointee, f.inst? id = some inst ∧
      inst.kind.operand? slot.index = some address ∧ f.HasType symbols address (.ptr pointee) ∧
      landing = f.landing cx slot address pointee
  | .length _ _ _ => True

/-- A draft with a log whose folds are those of the body, and whose leftovers have been removed: what
was retired and is there still is read. -/
structure Draft.Swept (f : Func) (symbols : SymbolTable) (cx : Context) (log : List Emission)
    (d : Draft) : Prop where
  logged : d.Logged f symbols cx log
  upholds : f.Upholds none d.func
  lands : ∀ emission ∈ log, emission.Lands f symbols cx
  read : ∀ id inst, Retired log id → d.func.inst? id = some inst → 0 < d.func.reads id

/-- What is live and no access is as it was. -/
theorem Draft.Logged.kind_of_quiet {f : Func} {symbols : SymbolTable} {cx : Context}
    {log : List Emission} {d : Draft} {id : InstId} {inst later : Inst}
    (hd : d.Logged f symbols cx log) (hi : f.inst? id = some inst) (ha : inst.kind.access? = none)
    (hlater : d.func.inst? id = some later) : later.kind = inst.kind := by
  rw [hd.kept_of_live hi hlater, written, hd.about_eq_nil hi ha]
  rfl

namespace Draft.Swept

variable {f : Func} {symbols : SymbolTable} {cx : Context} {log : List Emission} {d e : Draft}
  {emission : Emission} {x : InstId} {later : Inst}

theorem start (hf : f.Placed) (symbols : SymbolTable) (cx : Context) :
    Swept f symbols cx [] { func := f, base := .start cx.region.memoryBase } where
  logged := .start hf symbols cx
  upholds := .refl none f
  lands := fun _ h => absurd h List.not_mem_nil
  read := by
    rintro _ _ ⟨_, _, _, _, hmem, -⟩ _
    cases hmem

/-- A part of the fold that is taken is removed unless it is read. -/
theorem reads_taken (he : e.Logged f symbols cx (log ++ [emission])) (hup : f.Upholds none e.func)
    (hexact : f.Exact) (hturns : emission.Turns d.func e.func) (hpart : Retired [emission] x)
    (hlater : e.func.inst? x = some later) : 0 < e.func.reads x := by
  obtain ⟨reader, slot, fold, hfolded, hx⟩ := retired_singleton.mp hpart
  obtain ⟨⟨castInst, hcast, hcastKind⟩, addInst, c, hadd, haddKind⟩ :=
    (he.stands emission (by simp)).parts hfolded
  obtain ⟨row, hentry⟩ := hfolded
  obtain ⟨h, successors, removed, hrun⟩ := hturns.retires reader slot fold row hentry
  refine Edit.retire_leaves hrun (hup.exact hexact) (fun hgone => ?_) hx hlater
  cases hlive : e.func.inst? fold.cast with
  | none => rfl
  | some castLater =>
    -- the conversion would read what is gone
    have hkind := he.kind_of_quiet hcast (by rw [hcastKind]; rfl) hlive
    obtain ⟨addLater, haddLater⟩ := hup.live hadd <|
      reads_pos_iff.mpr ⟨fold.cast, castLater, hlive, by
        rw [hkind, hcastKind]
        exact List.mem_singleton.mpr rfl⟩
    rw [hgone] at haddLater
    cases haddLater

/-- A part of an earlier fold is still read: a slot that does not hold it any more was made to read a
row that reads it, and an addition that is gone left its index to the row. -/
theorem reads_earlier (hd : d.Swept f symbols cx log)
    (he : e.Logged f symbols cx (log ++ [emission]))
    (hnew : emission.chore.place ∉ log.map (·.chore.place)) (hturns : emission.Turns d.func e.func)
    (hold : Retired log x) (hpart : ¬ Retired [emission] x)
    (hlater : e.func.inst? x = some later) : 0 < e.func.reads x := by
  have hstands := he.stands emission (by simp)
  obtain ⟨access, haccess, hne⟩ := (he.owed emission (by simp)).access
  obtain ⟨inst, hi, hquiet⟩ := quiet_of_retired hd.logged.stands hold
  obtain ⟨gone, hgone, hrevises⟩ := hturns.revises
  have hapart : x ≠ emission.chore.id := by
    rintro rfl
    cases hi.symm.trans haccess
    exact hne hquiet
  have hlive : d.func.inst? x = some later := by
    rw [hrevises.others x (Nat.lt_of_lt_of_le (lt_size_of_inst? hi) hd.logged.ready.size) hapart]
      at hlater
    split at hlater
    · cases hlater
    · exact hlater
  rcases hrevises.reads_pos (hd.read x later hold hlive) with
    ⟨held, last, hheld, ho, hlast⟩ | ⟨part, partInst, hmem, hpartInst, hx⟩ | hread
  · cases hheld.symm.trans (hd.logged.inst?_of_access haccess hne)
    rw [operand?_written _ hnew] at ho
    rcases hstands.reads_held haccess ho hlast with ⟨slot, fold, hfolded, -, hx⟩ | hread
    · exact absurd (retired_singleton.mpr ⟨_, _, fold, hfolded, Or.inl hx⟩) hpart
    · exact hread
  · -- what is gone now was a part of the fold that is taken now
    obtain ⟨reader, slot, fold, hfolded, he⟩ := retired_singleton.mp (hgone part hmem)
    obtain ⟨⟨castInst, hcast, hcastKind⟩, addInst, c, hadd, haddKind⟩ := hstands.parts hfolded
    rcases he with rfl | rfl
    · rw [hd.logged.kind_of_quiet hcast (by rw [hcastKind]; rfl) hpartInst, hcastKind] at hx
      cases List.mem_singleton.mp hx
      exact absurd (retired_singleton.mpr ⟨_, _, fold, hfolded, Or.inr rfl⟩) hpart
    · rw [hd.logged.kind_of_quiet hadd (by rw [haddKind]; rfl) hpartInst, haddKind] at hx
      rcases List.mem_cons.mp hx with hx | hx
      · exact hstands.reads_index hfolded hx.symm
      · cases List.mem_singleton.mp hx
  · exact hread

/-- The entry of a chore is added. -/
theorem step (hd : d.Swept f symbols cx log) (hexact : f.Exact)
    (he : e.Logged f symbols cx (log ++ [emission])) (hup : f.Upholds none e.func)
    (hnew : emission.chore.place ∉ log.map (·.chore.place))
    (hlands : emission.Lands f symbols cx) (hturns : emission.Turns d.func e.func) :
    e.Swept f symbols cx (log ++ [emission]) := by
  refine ⟨he, hup, List.forall_mem_append.mpr ⟨hd.lands, List.forall_mem_singleton.mpr hlands⟩, ?_⟩
  intro x later hretired hlater
  by_cases hpart : Retired [emission] x
  · exact reads_taken he hup hexact hturns hpart hlater
  · obtain ⟨other, hmem, hrest⟩ := retired_iff.mp hretired
    rcases List.mem_append.mp hmem with hmem | hmem
    · exact hd.reads_earlier he hnew hturns (retired_iff.mpr ⟨other, hmem, hrest⟩) hpart hlater
    · exact absurd (retired_iff.mpr ⟨other, hmem, hrest⟩) hpart

/-- A chore that is done leaves a draft swept. -/
theorem does {chore : Chore} (hd : d.Swept f symbols cx log) (hf : f.Prepared cx) (hexact : f.Exact)
    (hwithin : symbols.Within cx.symbols) (howed : chore.Owed f symbols)
    (hnew : chore.place ∉ log.map (·.chore.place)) (hdoes : chore.Does cx d e) :
    ∃ emission : Emission, emission.chore = chore ∧ e.Swept f symbols cx (log ++ [emission]) := by
  have hup := hd.logged.upholds_does hf hd.upholds howed hnew hdoes
  cases chore with
  | address id slot =>
    obtain ⟨outcome, hrun⟩ := hdoes
    obtain ⟨inst, address, pointee, row, hi, ho, hty, -, hturns, he⟩ :=
      hd.logged.address_lands hf hd.upholds hwithin howed hnew hrun
    exact ⟨_, rfl, hd.step hexact he hup hnew ⟨inst, address, pointee, hi, ho, hty, rfl⟩ hturns⟩
  | length id slot =>
    obtain ⟨tally, hrun⟩ := hdoes
    obtain ⟨emission, hchore, hturns, he⟩ := hd.logged.length hf.placed howed hnew hrun
    refine ⟨emission, hchore, hd.step hexact he hup (hchore ▸ hnew) ?_ hturns⟩
    cases emission with
    | address => cases hchore
    | length => trivial

/-- Chores that are done, each in a slot that was not worked on before, leave a draft swept. -/
theorem works {chores : List Chore} (hd : d.Swept f symbols cx log) (hf : f.Prepared cx)
    (hexact : f.Exact) (hwithin : symbols.Within cx.symbols)
    (howed : ∀ chore ∈ chores, chore.Owed f symbols)
    (honce : (log.map (·.chore.place) ++ chores.map Chore.place).Nodup)
    (hworks : Draft.Works cx d chores e) :
    ∃ more : List Emission, more.map Emission.chore = chores ∧
      e.Swept f symbols cx (log ++ more) := by
  refine hworks.logs (P := fun log u => u.Swept f symbols cx log) ?_ hd howed honce
  intro log u v chore hu howed hnew hdoes
  exact hu.does hf hexact hwithin howed hnew hdoes

end Draft.Swept

/-! ## Slots that hold a value no more -/

/-- A slot of the body does not hold its value any more: it was made to read a folded address, or it
belongs to a conversion that is gone. -/
def Released (log : List Emission) (g : Func) (reader : InstId) (index : Nat) : Prop :=
  (∃ emission ∈ log, ∃ slot fold, emission.Folded reader slot fold ∧ slot.index = index) ∨
    g.inst? reader = none ∧
      ∃ emission ∈ log, ∃ access slot fold, emission.Folded access slot fold ∧ reader = fold.cast

namespace Draft.Logged

variable {f : Func} {symbols : SymbolTable} {cx : Context} {log : List Emission} {d : Draft}
  {emission : Emission} {id x : InstId} {inst : Inst}

/-- The slot of an entry that is not folded holds its value until the end. -/
theorem not_released (hd : d.Logged f symbols cx log) (honce : (log.map (·.chore.place)).Nodup)
    (hmem : emission ∈ log) (hplain : ∀ reader slot fold, ¬ emission.Folded reader slot fold) :
    ¬ Released log d.func emission.chore.id emission.chore.slot := by
  rintro (⟨other, hother, slot, fold, ⟨row, hfolded⟩, hslot⟩ |
    ⟨-, other, hother, access, slot, fold, hfolded, he⟩)
  · -- a slot comes up once
    have hplace : emission.chore.place = other.chore.place := by
      rw [hfolded, Chore.place, ← hslot]
      rfl
    cases List.inj_on_of_nodup_map honce hmem hother hplace
    exact hplain _ _ fold ⟨row, hfolded⟩
  · -- no access is a conversion
    obtain ⟨access, haccess, hne⟩ := (hd.owed emission hmem).access
    obtain ⟨⟨castInst, hcast, hkind⟩, -⟩ := (hd.stands other hother).parts hfolded
    rw [he] at haccess
    cases hcast.symm.trans haccess
    rw [hkind] at hne
    exact hne rfl

/-- An addition that is folded holds its index until it is removed. -/
theorem not_released_add (hd : d.Logged f symbols cx log) {reader : InstId} {slot : PointerSlot}
    {fold : Fold} (hmem : emission ∈ log) (hfolded : emission.Folded reader slot fold)
    (index : Nat) : ¬ Released log d.func fold.add index := by
  obtain ⟨-, addInst, c, hadd, hkind⟩ := (hd.stands emission hmem).parts hfolded
  rintro (⟨other, hother, found, taken, ⟨row, rfl⟩, -⟩ |
    ⟨-, other, hother, access, found, taken, hfolded', he⟩)
  · -- no access is an addition
    obtain ⟨access, haccess, hne⟩ := (hd.owed _ hother).access
    cases hadd.symm.trans haccess
    rw [hkind] at hne
    exact hne rfl
  · exact (hd.stands other hother).ne_cast hfolded' hadd hkind he

/-- What is written is no number of the body. -/
theorem written_new (hd : d.Logged f symbols cx log) {index : Nat}
    (h : (index, .inst x) ∈ written log id) : f.cells.size ≤ x := by
  obtain ⟨emission, hmem, rfl, -, last, hlast, he⟩ := mem_written h
  cases he
  exact hd.laid.group_new _ _ (mem_emitted.mpr ⟨emission, hmem, rfl, List.mem_of_getLast? hlast⟩)

/-- What nothing reads is held by released slots alone. -/
theorem released_of_unread (hd : d.Logged f symbols cx log) (hzero : d.func.reads x = 0)
    {reader : InstId} {index : Nat} (ho : f.operand? reader index = some (.inst x)) :
    Released log d.func reader index := by
  have hunread : ¬ 0 < d.func.reads x := by omega
  obtain ⟨inst, hi, hheld⟩ := Option.bind_eq_some_iff.mp ho
  rcases hd.kept reader inst hi with hlive | ⟨hgone, hretired⟩
  · by_cases hwritten : index ∈ (written log reader).map (·.1)
    · -- the slot reads the last member of a row
      obtain ⟨⟨_, v⟩, hwrite, rfl⟩ := List.mem_map.mp hwritten
      obtain ⟨emission, hmem, rfl, rfl, last, hlast, -⟩ := mem_written hwrite
      rcases (hd.stands emission hmem).reads_held hi hheld hlast with
        ⟨slot, fold, hfolded, hslot, -⟩ | hread
      · exact Or.inl ⟨emission, hmem, slot, fold, hfolded, hslot⟩
      · exact absurd hread hunread
    · have hlater := (InstKind.operand?_setOperands_of_not_mem hwritten).trans hheld
      exact absurd (reads_pos_of_operand? hlive hlater) hunread
  · obtain ⟨emission, hmem, access, slot, fold, hfolded, he⟩ := retired_iff.mp hretired
    rcases he with he | rfl
    · exact Or.inr ⟨hgone, emission, hmem, access, slot, fold, hfolded, he⟩
    · -- the index of an addition is read by the row
      obtain ⟨-, addInst, c, hadd, hkind⟩ := (hd.stands emission hmem).parts hfolded
      cases hi.symm.trans hadd
      rw [hkind] at hheld
      rcases List.mem_cons.mp (List.mem_of_getElem? hheld) with hx | hx
      · exact absurd ((hd.stands emission hmem).reads_index hfolded hx.symm) hunread
      · cases List.mem_singleton.mp hx

/-- What is read by something is held by a slot that was not released. -/
theorem unread_of_released (hd : d.Logged f symbols cx log) (hf : f.Placed)
    (honce : (log.map (·.chore.place)).Nodup) (hx : x < f.cells.size)
    (hall : ∀ reader index, f.operand? reader index = some (.inst x) →
      Released log d.func reader index) : d.func.reads x = 0 := by
  by_contra hread
  obtain ⟨reader, inst, hi, hmem⟩ := reads_pos_iff.mp (Nat.pos_of_ne_zero hread)
  have hold : ¬ f.cells.size ≤ x := Nat.not_le.mpr hx
  cases hbody : f.inst? reader with
  | some old =>
    -- an instruction of the body
    cases hd.kept_of_live hbody hi
    obtain ⟨index, ho⟩ := List.getElem?_of_mem hmem
    rcases InstKind.operand?_setOperands ho with hheld | hwritten
    · rcases hall reader index ((operand?_eq hbody index).trans hheld) with
        ⟨_, hlog, slot, fold, ⟨row, rfl⟩, rfl⟩ | ⟨hgone, -⟩
      · obtain ⟨_, _, _, _, pointer, -, -, -, -, -, hrow⟩ := hd.stands _ hlog
        have hlast : d.func.operand? reader slot.index = some (.inst pointer) :=
          hd.operand?_row honce hlog hrow.getLast?
        rw [operand?_eq hi] at hlast
        cases hlast.symm.trans ho
        exact hold (hd.laid.group_new _ _
          (mem_emitted.mpr ⟨_, hlog, rfl, List.mem_of_getLast? hrow.getLast?⟩))
      · rw [hgone] at hi
        cases hi
    · exact hold (hd.written_new hwritten)
  | none =>
    -- the load of the base, or a member of a row
    rcases hd.laid.inserted hf (by rw [hi]; rfl) hbody with hbase | ⟨access, -, hgroup⟩
    · cases hi.symm.trans (hd.base reader hbase)
      cases List.mem_singleton.mp hmem
    · obtain ⟨emission, hlog, rfl, hrow⟩ := mem_emitted.mp hgroup
      rcases (hd.stands emission hlog).reads_cases hrow hi hmem with
        hmember | hbase | ⟨hplain, ho⟩ | ⟨access, slot, fold, hfolded, hindex⟩
      · exact hold (hd.laid.group_new _ _ (mem_emitted.mpr ⟨emission, hlog, rfl, hmember⟩))
      · exact hold (hd.laid.base_new x hbase)
      · exact hd.not_released honce hlog hplain (hall _ _ ho)
      · obtain ⟨-, addInst, c, hadd, hkind⟩ := (hd.stands emission hlog).parts hfolded
        have hheld : f.operand? fold.add 0 = some (.inst x) := by
          rw [operand?_eq hadd, hkind, hindex]
          rfl
        exact hd.not_released_add hlog hfolded 0 (hall _ _ hheld)

end Draft.Logged

/-- A part of a fold is gone exactly when every slot that held it has been released. -/
theorem Draft.Swept.gone_iff {f : Func} {symbols : SymbolTable} {cx : Context}
    {log : List Emission} {d : Draft} {id : InstId} {inst : Inst} (hd : d.Swept f symbols cx log)
    (hf : f.Placed) (honce : (log.map (·.chore.place)).Nodup) (hi : f.inst? id = some inst) :
    d.func.inst? id = none ↔ Retired log id ∧
      ∀ reader index, f.operand? reader index = some (.inst id) →
        Released log d.func reader index := by
  constructor
  · intro hgone
    rcases hd.logged.kept id inst hi with hlive | ⟨-, hretired⟩
    · rw [hgone] at hlive
      cases hlive
    · refine ⟨hretired, fun reader index => hd.logged.released_of_unread ?_⟩
      -- what is read is there
      by_contra hread
      obtain ⟨later, hlater⟩ := hd.upholds.live hi (Nat.pos_of_ne_zero hread)
      rw [hgone] at hlater
      cases hlater
  · rintro ⟨hretired, hall⟩
    cases hlater : d.func.inst? id with
    | none => rfl
    | some later =>
      have hread := hd.read id later hretired hlater
      rw [hd.logged.unread_of_released hf honce (lt_size_of_inst? hi) hall] at hread
      exact absurd hread (Nat.lt_irrefl 0)

/-! ## What goes -/

/-- A slot of an access of the plan holds an address to which a fold applies. -/
def Func.Folds (f : Func) (symbols : SymbolTable) (cx : Context) (plan : Plan) (reader : InstId)
    (slot : PointerSlot) (fold : Fold) : Prop :=
  ∃ planned ∈ plan, planned.id = reader ∧ slot ∈ planned.access.pointers ∧
    ∃ inst address pointee, f.inst? reader = some inst ∧
      inst.kind.operand? slot.index = some address ∧ f.HasType symbols address (.ptr pointee) ∧
      f.foldFor? cx slot address pointee = some fold

/-- Of the instructions of `f` just those are gone in `g` that the folds of a plan leave without a
reader. -/
structure Func.Sheds (f : Func) (symbols : SymbolTable) (cx : Context) (plan : Plan) (g : Func) :
    Prop where
  /-- A conversion goes if a slot folds through it, and whatever slot reads it does. -/
  cast : ∀ id inst v, f.inst? id = some inst → inst.kind = .cast .inttoptr v →
    (g.inst? id = none ↔
      (∃ reader slot fold, f.Folds symbols cx plan reader slot fold ∧ fold.cast = id) ∧
      ∀ reader index, f.operand? reader index = some (.inst id) →
        ∃ slot fold, f.Folds symbols cx plan reader slot fold ∧ slot.index = index ∧
          fold.cast = id)
  /-- An addition goes if a slot folds through it, and whatever reads it is a conversion that
  goes. -/
  add : ∀ id inst lhs rhs, f.inst? id = some inst → inst.kind = .binary .add lhs rhs →
    (g.inst? id = none ↔
      (∃ reader slot fold, f.Folds symbols cx plan reader slot fold ∧ fold.add = id) ∧
      ∀ reader index, f.operand? reader index = some (.inst id) →
        ∃ inst v, f.inst? reader = some inst ∧ inst.kind = .cast .inttoptr v ∧
          g.inst? reader = none)
  /-- Nothing else goes. -/
  rest : ∀ id inst, f.inst? id = some inst → g.inst? id = none →
    (∃ v, inst.kind = .cast .inttoptr v) ∨ ∃ lhs rhs, inst.kind = .binary .add lhs rhs

/-- A landing of the body is folded when a fold applies. -/
theorem Func.foldFor?_of_landing {f : Func} {cx : Context} {slot : PointerSlot} {address : Value}
    {pointee : Ty} {fold : Fold} (h : .folded fold = f.landing cx slot address pointee) :
    f.foldFor? cx slot address pointee = some fold := by
  rw [landing] at h
  split at h
  · next found hfound =>
    cases h
    exact hfound
  · cases h

namespace Draft.Swept

variable {f : Func} {symbols : SymbolTable} {cx : Context} {plan : Plan} {log : List Emission}
  {d : Draft} {id : InstId} {inst : Inst} {v lhs rhs : Value}

/-- The log of a plan says what folds. -/
theorem folds_iff (hd : d.Swept f symbols cx log)
    (hchores : ∀ chore, chore ∈ log.map Emission.chore ↔ chore ∈ plan.flatMap Planned.chores)
    {reader : InstId} {slot : PointerSlot} {fold : Fold} :
    f.Folds symbols cx plan reader slot fold ↔
      ∃ emission ∈ log, emission.Folded reader slot fold := by
  constructor
  · rintro ⟨planned, hplanned, rfl, hslot, inst, address, pointee, hi, ho, hty, hfold⟩
    have hchore : Chore.address planned.id slot ∈ plan.flatMap Planned.chores :=
      List.mem_flatMap.mpr ⟨planned, hplanned, Planned.address_mem_chores hslot⟩
    obtain ⟨emission, hmem, he⟩ := List.mem_map.mp ((hchores _).mpr hchore)
    cases emission with
    | length => cases he
    | address id found landing row =>
      cases he
      obtain ⟨same, held, target, hsame, hheld, htarget, rfl⟩ := hd.lands _ hmem
      cases hi.symm.trans hsame
      cases ho.symm.trans hheld
      cases Except.ok.inj (hty.symm.trans htarget)
      exact ⟨_, hmem, row, by rw [landing_of_foldFor? hfold]⟩
  · rintro ⟨_, hmem, row, rfl⟩
    obtain ⟨inst, address, pointee, hi, ho, hty, hlanding⟩ := hd.lands _ hmem
    obtain ⟨planned, hplanned, hchore⟩ :=
      List.mem_flatMap.mp ((hchores _).mp (List.mem_map_of_mem hmem))
    obtain rfl : reader = planned.id := Planned.id_of_mem_chores hchore
    exact ⟨planned, hplanned, rfl, Planned.pointer_of_mem_chores hchore, inst, address, pointee, hi,
      ho, hty, foldFor?_of_landing hlanding⟩

/-- A conversion is gone exactly when every slot that reads it folds through it, and one does. -/
theorem cast_gone_iff (hd : d.Swept f symbols cx log) (hf : f.Placed)
    (honce : (log.map (·.chore.place)).Nodup)
    (hchores : ∀ chore, chore ∈ log.map Emission.chore ↔ chore ∈ plan.flatMap Planned.chores)
    (hi : f.inst? id = some inst) (hkind : inst.kind = .cast .inttoptr v) :
    d.func.inst? id = none ↔
      (∃ reader slot fold, f.Folds symbols cx plan reader slot fold ∧ fold.cast = id) ∧
      ∀ reader index, f.operand? reader index = some (.inst id) →
        ∃ slot fold, f.Folds symbols cx plan reader slot fold ∧ slot.index = index ∧
          fold.cast = id := by
  rw [hd.gone_iff hf honce hi]
  constructor
  · rintro ⟨hretired, hall⟩
    refine ⟨?_, fun reader index ho => ?_⟩
    · obtain ⟨emission, hmem, reader, slot, fold, hfolded, he⟩ := retired_iff.mp hretired
      have hne := (hd.logged.stands emission hmem).ne_add hfolded hi hkind
      exact ⟨reader, slot, fold, (hd.folds_iff hchores).mpr ⟨emission, hmem, hfolded⟩,
        (he.resolve_right hne).symm⟩
    · rcases hall reader index ho with ⟨emission, hmem, slot, fold, hfolded, rfl⟩ |
        ⟨-, emission, hmem, access, slot, fold, hfolded, rfl⟩
      · have hheld := (hd.logged.stands emission hmem).held hfolded
        cases hheld.symm.trans ho
        exact ⟨slot, fold, (hd.folds_iff hchores).mpr ⟨emission, hmem, hfolded⟩, rfl, rfl⟩
      · -- a conversion that is gone reads an addition
        obtain ⟨⟨castInst, hcast, hcastKind⟩, -⟩ := (hd.logged.stands emission hmem).parts hfolded
        rw [operand?_eq hcast, hcastKind] at ho
        cases List.mem_singleton.mp (List.mem_of_getElem? ho)
        exact absurd rfl ((hd.logged.stands emission hmem).ne_add hfolded hi hkind)
  · rintro ⟨⟨reader, slot, fold, hfolds, rfl⟩, hall⟩
    obtain ⟨emission, hmem, hfolded⟩ := (hd.folds_iff hchores).mp hfolds
    refine ⟨retired_iff.mpr ⟨emission, hmem, reader, slot, fold, hfolded, Or.inl rfl⟩, ?_⟩
    intro reader index ho
    obtain ⟨slot, fold, hfolds, hslot, -⟩ := hall reader index ho
    obtain ⟨emission, hmem, hfolded⟩ := (hd.folds_iff hchores).mp hfolds
    exact Or.inl ⟨emission, hmem, slot, fold, hfolded, hslot⟩

/-- An addition is gone exactly when everything that reads it is a conversion that is gone, and a slot
folds through it. -/
theorem add_gone_iff (hd : d.Swept f symbols cx log) (hf : f.Placed)
    (honce : (log.map (·.chore.place)).Nodup)
    (hchores : ∀ chore, chore ∈ log.map Emission.chore ↔ chore ∈ plan.flatMap Planned.chores)
    (hi : f.inst? id = some inst) (hkind : inst.kind = .binary .add lhs rhs) :
    d.func.inst? id = none ↔
      (∃ reader slot fold, f.Folds symbols cx plan reader slot fold ∧ fold.add = id) ∧
      ∀ reader index, f.operand? reader index = some (.inst id) →
        ∃ inst v, f.inst? reader = some inst ∧ inst.kind = .cast .inttoptr v ∧
          d.func.inst? reader = none := by
  rw [hd.gone_iff hf honce hi]
  constructor
  · rintro ⟨hretired, hall⟩
    refine ⟨?_, fun reader index ho => ?_⟩
    · obtain ⟨emission, hmem, reader, slot, fold, hfolded, he⟩ := retired_iff.mp hretired
      have hne := (hd.logged.stands emission hmem).ne_cast hfolded hi hkind
      exact ⟨reader, slot, fold, (hd.folds_iff hchores).mpr ⟨emission, hmem, hfolded⟩,
        (he.resolve_left hne).symm⟩
    · rcases hall reader index ho with ⟨emission, hmem, slot, fold, hfolded, rfl⟩ |
        ⟨hgone, emission, hmem, access, slot, fold, hfolded, rfl⟩
      · -- a slot that folds reads a conversion
        have hheld := (hd.logged.stands emission hmem).held hfolded
        cases hheld.symm.trans ho
        exact absurd rfl ((hd.logged.stands emission hmem).ne_cast hfolded hi hkind)
      · obtain ⟨⟨castInst, hcast, hcastKind⟩, -⟩ := (hd.logged.stands emission hmem).parts hfolded
        exact ⟨castInst, _, hcast, hcastKind, hgone⟩
  · rintro ⟨⟨reader, slot, fold, hfolds, rfl⟩, hall⟩
    obtain ⟨emission, hmem, hfolded⟩ := (hd.folds_iff hchores).mp hfolds
    refine ⟨retired_iff.mpr ⟨emission, hmem, reader, slot, fold, hfolded, Or.inr rfl⟩, ?_⟩
    intro reader index ho
    obtain ⟨castInst, v, hcast, hcastKind, hgone⟩ := hall reader index ho
    obtain ⟨emission, hmem, access, slot, fold, hfolded, he⟩ :=
      retired_iff.mp ((hd.gone_iff hf honce hcast).mp hgone).1
    have hne := (hd.logged.stands emission hmem).ne_add hfolded hcast hcastKind
    exact Or.inr ⟨hgone, emission, hmem, access, slot, fold, hfolded, he.resolve_right hne⟩

/-- A body that was confined by a plan sheds what its folds leave without a reader. -/
theorem sheds (hd : d.Swept f symbols cx log) (hf : f.Placed)
    (honce : (log.map (·.chore.place)).Nodup)
    (hchores : ∀ chore, chore ∈ log.map Emission.chore ↔ chore ∈ plan.flatMap Planned.chores) :
    f.Sheds symbols cx plan d.func where
  cast := fun _ _ _ hi hkind => hd.cast_gone_iff hf honce hchores hi hkind
  add := fun _ _ _ _ hi hkind => hd.add_gone_iff hf honce hchores hi hkind
  rest := by
    intro id inst hi hgone
    obtain ⟨emission, hmem, reader, slot, fold, hfolded, he⟩ :=
      retired_iff.mp ((hd.gone_iff hf honce hi).mp hgone).1
    obtain ⟨⟨castInst, hcast, hcastKind⟩, addInst, c, hadd, haddKind⟩ :=
      (hd.logged.stands emission hmem).parts hfolded
    rcases he with rfl | rfl
    · cases hi.symm.trans hcast
      exact Or.inl ⟨_, hcastKind⟩
    · cases hi.symm.trans hadd
      exact Or.inr ⟨_, _, haddKind⟩

end Draft.Swept

/-- Whether the turn of a slot folds is whether a fold applies to it. -/
theorem Func.ConfinesAs.folded_iff {f : Func} {symbols : SymbolTable} {cx : Context} {plan : Plan}
    {last : Draft} {planned : Planned} {slot : PointerSlot} {outcome : PointerOutcome}
    (h : f.ConfinesAs symbols cx last planned.id slot outcome) (hplanned : planned ∈ plan)
    (hslot : slot ∈ planned.access.pointers) :
    outcome.folded = true ↔ ∃ fold, f.Folds symbols cx plan planned.id slot fold := by
  obtain ⟨inst, address, pointee, hi, ho, hty, houtcome, -⟩ := h
  rw [houtcome]
  constructor
  · rintro ⟨hfirst, fold, hfold⟩
    exact ⟨fold, planned, hplanned, rfl, hslot, inst, address, pointee, hi, ho, hty,
      foldFor?_eq_some_iff.mpr ⟨hfirst, hfold⟩⟩
  · rintro ⟨fold, -, -, -, -, same, held, target, hsame, hheld, htarget, hfold⟩
    cases hi.symm.trans hsame
    cases ho.symm.trans hheld
    cases Except.ok.inj (hty.symm.trans htarget)
    exact ⟨(foldFor?_eq_some_iff.mp hfold).1, fold, (foldFor?_eq_some_iff.mp hfold).2⟩

/-- With exact counters a body sheds just what the folds of its plan leave without a reader, in
whatever order the entries of the plan come. Which slots fold is decided by the body, and every removal
is one of an instruction that the body had. -/
theorem Edit.confineBody_sheds {f : Func} {symbols : SymbolTable} {cx : Context}
    {plan entries : Plan} (hplaced : f.Placed) (hexact : f.Exact)
    (hplan : f.plan symbols = .ok plan) (hwithin : symbols.Within cx.symbols)
    (horder : entries.Perm plan) :
    ∃ body last, (Edit.confineBody cx entries).run f = .ok body last.func ∧
      (∀ planned ∈ plan, ∀ slot ∈ planned.access.pointers, ∃ outcome,
        Draft.Visits cx { func := f, base := .start cx.region.memoryBase }
          (entries.flatMap Planned.chores) last planned.id slot outcome ∧
        (outcome.folded = true ↔ ∃ fold, f.Folds symbols cx plan planned.id slot fold)) ∧
      f.Sheds symbols cx plan last.func ∧ body.tally.removed = f.lost last.func := by
  have hf : f.Prepared cx := hplaced.prepared (hexact.trusted _ _ _) hplan
  obtain ⟨body, last, hbody, hperform⟩ := confineBody_reordered hf hplan hwithin horder
  -- the chores are those of the plan in another order
  have hchores := horder.flatMap_right Planned.chores
  have howed : ∀ chore ∈ entries.flatMap Planned.chores, chore.Owed f symbols := fun chore hmem =>
    owed_of_plan hplan chore (hchores.mem_iff.mp hmem)
  have honce : ((entries.flatMap Planned.chores).map Chore.place).Nodup :=
    (hchores.map Chore.place).nodup_iff.mpr (nodup_places hplan hplaced.nodup_order)
  obtain ⟨log, hlog, hlast⟩ := (Draft.Swept.start hplaced symbols cx).works hf hexact hwithin howed
    honce (Drafting.performAll_works hperform)
  rw [List.nil_append] at hlast
  refine ⟨body, last, hbody, ?_, ?_, ?_⟩
  · intro planned hplanned slot hslot
    have hmem : Chore.address planned.id slot ∈ entries.flatMap Planned.chores :=
      List.mem_flatMap.mpr ⟨planned, horder.mem_iff.mpr hplanned, Planned.address_mem_chores hslot⟩
    obtain ⟨outcome, hvisits⟩ := Drafting.visits_of_mem hperform hmem
    exact ⟨outcome, hvisits,
      (hvisits.confinesAs hf hwithin howed honce).folded_iff hplanned hslot⟩
  · refine hlast.sheds hplaced ?_ fun chore => ?_
    · rw [← hlog, List.map_map] at honce
      exact honce
    · rw [hlog]
      exact hchores.mem_iff
  · obtain ⟨⟨added, htrades, -⟩, -⟩ := (Draft.Logged.start hplaced symbols cx).performAll_spends
      hplaced hf.grounded howed honce hperform
    exact (hlast.logged.lost_eq hplaced htrades).symm

/-- Carried out from the last access to the first, the three folds of `chained` leave both conversions
and one of the two additions without a reader; the other addition is the index of a fold. -/
theorem chained_leaves : ∃ body g,
    (Edit.confineBody chainedContext chainedPlan.reverse).run chained = .ok body g ∧
      body.tally.removed = 3 ∧ (g.inst? 0).isSome := by
  have hruns : (Edit.confineBody chainedContext chainedPlan.reverse).succeeds chained
      (fun body g => body.tally.removed = 3 ∧ (g.inst? 0).isSome) = true := by decide +kernel
  obtain ⟨body, g, hrun, hcheck⟩ := Edit.run_of_succeeds hruns
  exact ⟨body, g, hrun, of_decide_eq_true hcheck⟩

theorem chained_sheds : ∃ body last,
    (Edit.confineBody chainedContext chainedPlan.reverse).run chained = .ok body last.func ∧
      (∀ planned ∈ chainedPlan, ∀ slot ∈ planned.access.pointers, ∃ outcome,
        Draft.Visits chainedContext { func := chained, base := .start 0 }
          (chainedPlan.reverse.flatMap Planned.chores) last planned.id slot outcome ∧
        (outcome.folded = true ↔ ∃ fold, chained.Folds { globals := [], functions := [] }
          chainedContext chainedPlan planned.id slot fold)) ∧
      chained.Sheds { globals := [], functions := [] } chainedContext chainedPlan last.func ∧
      chained.lost last.func = 3 ∧ (last.func.inst? 0).isSome := by
  have hplaced : chained.Placed := ((Func.Built.declare _ _ _).history _).placed
  have hplan : chained.plan { globals := [], functions := [] } = .ok chainedPlan := by
    decide +kernel
  have hwithin : ({ globals := [], functions := [] } : SymbolTable).Within chainedContext.symbols :=
    ⟨List.nil_prefix, rfl⟩
  obtain ⟨body, last, hrun, hvisits, hsheds, hlost⟩ := Edit.confineBody_sheds hplaced
    (by decide +kernel) hplan hwithin (List.reverse_perm chainedPlan)
  obtain ⟨served, g, hserved, hremoved, hlive⟩ := chained_leaves
  cases hrun.symm.trans hserved
  exact ⟨body, last, hrun, hvisits, hsheds, hlost.symm.trans hremoved, hlive⟩

end Confinement
