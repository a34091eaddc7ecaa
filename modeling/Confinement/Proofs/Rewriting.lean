import Confinement.Proofs.Inversion
import Confinement.Proofs.Growth
import Confinement.Proofs.Landing

/-!
# What the rewriting of a body keeps

Instructions numbered below `n` are those of the body that is being confined, and those from `n` on
are inserted. While accesses are confined one after the other, inserted instructions stay as they are
except for their source positions, an access that is not being worked on stays as it is, and of the
other instructions those that stay live keep their kind (`Func.Advances`). So what was built for one
access is not disturbed by the work on a later one, and each access of a plan reads confined
addresses in the end (`Drafting.confinePlan_treats`).
-/

set_option autoImplicit false

namespace Confinement

/-! ## Slots of an access -/

/-- Writing a slot does not change the treatment of an instruction. -/
theorem InstKind.route_setOperand (kind : InstKind) (slot : Nat) (v : Value) :
    (kind.setOperand slot v).route = kind.route := by
  unfold setOperand
  split
  all_goals first
    | rfl
    | (split <;> rfl)

theorem InstKind.access?_setOperand (kind : InstKind) (slot : Nat) (v : Value) :
    (kind.setOperand slot v).access? = kind.access? := by
  unfold access?
  rw [route_setOperand]

/-! ## From one function to the next -/

/-- How a function being confined relates to what it was before, when only the accesses `ids` and the
load `base` of the region may be new or written. -/
structure Func.Advances (n : Nat) (ids : List InstId) (base : Option InstId) (g h : Func) :
    Prop where
  /-- Numbers are given out and not taken back. -/
  size : g.cells.size ≤ h.cells.size
  /-- An inserted instruction reads older ones only. -/
  older : g.ReadsOlder n → h.ReadsOlder n
  /-- An inserted instruction stays. -/
  keeps : g.Keeps n h
  /-- An access that is not worked on stays as it is. -/
  other : ∀ id inst, id < n → id ∉ ids → g.inst? id = some inst → inst.kind.access? ≠ none →
    h.inst? id = some inst
  /-- What is live was live with the same type and treatment, and as the same instruction if it is
  no access. -/
  back : ∀ id later, id < n → h.inst? id = some later → ∃ inst, g.inst? id = some inst ∧
    later.ty = inst.ty ∧ later.kind.access? = inst.kind.access? ∧
    (inst.kind.access? = none → later.kind = inst.kind)
  /-- No access is inserted but the load of the base. -/
  quiet : ∀ id later, n ≤ id → h.inst? id = some later → later.kind.access? ≠ none →
    base = some id ∨ ∃ inst, g.inst? id = some inst ∧ inst.kind.access? ≠ none

namespace Func.Advances

variable {n : Nat} {ids ids' : List InstId} {base base' : Option InstId} {f g h : Func}

/-- An access that was inserted into a body is the load of the base. -/
theorem base_of_new (h : f.Advances f.cells.size ids base g) {id : InstId} {inst : Inst}
    (hnew : f.cells.size ≤ id) (hi : g.inst? id = some inst) (ha : inst.kind.access? ≠ none) :
    base = some id := by
  rcases h.quiet id inst hnew hi ha with hb | ⟨old, hold, -⟩
  · exact hb
  · exact absurd (lt_size_of_inst? hold) (Nat.not_lt.mpr hnew)

theorem refl (n : Nat) (ids : List InstId) (base : Option InstId) (g : Func) :
    g.Advances n ids base g where
  size := Nat.le_refl _
  older := fun hg => hg
  keeps := Keeps.refl n g
  other := fun _ _ _ _ hi _ => hi
  back := fun _ later _ hi => ⟨later, hi, rfl, rfl, fun _ => rfl⟩
  quiet := fun _ later _ hi ha => Or.inr ⟨later, hi, ha⟩

theorem mono (hgh : Advances n ids base g h) (hids : ids ⊆ ids') : Advances n ids' base g h :=
  { hgh with other := fun id inst hid hnot => hgh.other id inst hid fun hmem => hnot (hids hmem) }

theorem trans (hfg : Advances n ids base f g) (hgh : Advances n ids base' g h)
    (hbase : ∀ b, base = some b → base' = some b) : Advances n ids base' f h where
  size := Nat.le_trans hfg.size hgh.size
  older := fun hf => hgh.older (hfg.older hf)
  keeps := hfg.keeps.trans hgh.keeps
  other := by
    intro id inst hid hnot hi ha
    exact hgh.other id inst hid hnot (hfg.other id inst hid hnot hi ha) ha
  back := by
    intro id last hid hi
    obtain ⟨mid, hmid, hty, hacc, hkind⟩ := hgh.back id last hid hi
    obtain ⟨inst, hinst, hty', hacc', hkind'⟩ := hfg.back id mid hid hmid
    refine ⟨inst, hinst, hty.trans hty', hacc.trans hacc', fun hquiet => ?_⟩
    exact (hkind (hacc'.trans hquiet)).trans (hkind' hquiet)
  quiet := by
    intro id last hid hi ha
    -- an access of `h` is the load of the base, or was one of `g` and is traced back to `f`
    rcases hgh.quiet id last hid hi ha with hb | ⟨mid, hmid, ha'⟩
    · exact Or.inl hb
    · rcases hfg.quiet id mid hid hmid ha' with hb | hold
      · exact Or.inl (hbase id hb)
      · exact Or.inr hold

/-- Insertions in front of an access. -/
theorem emits {anchor : InstId} (he : g.Emits anchor h) (hn : n ≤ g.cells.size)
    (ids : List InstId) (base : Option InstId) : Advances n ids base g h where
  size := he.size_le
  older := he.readsOlder
  keeps := fun _ inst _ hi => ⟨inst, he.inst?_eq_some hi, rfl, rfl⟩
  other := fun _ _ _ _ hi _ => he.inst?_eq_some hi
  back := by
    intro id later hid hi
    rw [he.inst?_of_lt (Nat.lt_of_lt_of_le hid hn)] at hi
    exact ⟨later, hi, rfl, rfl, fun _ => rfl⟩
  quiet := by
    intro id later _ hi ha
    rcases Nat.lt_or_ge id g.cells.size with hold | hnew
    · rw [he.inst?_of_lt hold] at hi
      exact Or.inr ⟨later, hi, ha⟩
    · exact absurd (he.access?_eq_none hnew hi) ha

/-- The load of the base. -/
theorem insertAtHead {b : BlockId} {kind : InstKind} {ty : Ty} {id : InstId}
    (hrun : (Edit.insertAtHead b kind ty).run g = .ok id h) (hn : n ≤ g.cells.size)
    (holder : ∀ other, Value.inst other ∈ kind.operands → other < id) (ids : List InstId) :
    Advances n ids (some id) g h := by
  obtain ⟨rfl, hsize, hinst⟩ := Edit.inst?_insertAtHead hrun
  have hkeep : ∀ other inst, g.inst? other = some inst → h.inst? other = some inst := by
    intro other inst hi
    rw [hinst, if_neg (Nat.ne_of_lt (lt_size_of_inst? hi))]
    exact hi
  refine ⟨by omega, ?_, ?_, ?_, ?_, ?_⟩
  · intro hg other inst hother hi
    rw [hinst] at hi
    split at hi
    · next hnew =>
      -- the new instruction itself
      subst hnew
      cases hi
      exact holder
    · exact hg other inst hother hi
  · exact fun other inst _ hi => ⟨inst, hkeep other inst hi, rfl, rfl⟩
  · exact fun other inst _ _ hi _ => hkeep other inst hi
  · intro other later hother hi
    rw [hinst, if_neg (Nat.ne_of_lt (Nat.lt_of_lt_of_le hother hn))] at hi
    exact ⟨later, hi, rfl, rfl, fun _ => rfl⟩
  · intro other later _ hi ha
    rw [hinst] at hi
    split at hi
    · next hnew => exact Or.inl (congrArg some hnew.symm)
    · exact Or.inr ⟨later, hi, ha⟩

/-- A slot of an access is written. -/
theorem replaceOperand {id : InstId} {slot : Nat} {v : Value} {u : Unit} {inst : Inst}
    (hrun : (Edit.replaceOperand id slot v).run g = .ok u h) (hid : id < n)
    (hi : g.inst? id = some inst) (ha : inst.kind.access? ≠ none) (base : Option InstId) :
    Advances n [id] base g h ∧
      h.inst? id = some { inst with kind := inst.kind.setOperand slot v } := by
  obtain ⟨found, old, hfound, -, hsize, hinst⟩ := Edit.inst?_replaceOperand hrun
  cases hi.symm.trans hfound
  have hself : h.inst? id = some { inst with kind := inst.kind.setOperand slot v } := by
    rw [hinst, if_pos rfl]
  have hother : ∀ other, other ≠ id → h.inst? other = g.inst? other := by
    intro other hne
    rw [hinst, if_neg hne]
  have hlate : ∀ other, n ≤ other → h.inst? other = g.inst? other := fun other hle =>
    hother other (Nat.ne_of_gt (Nat.lt_of_lt_of_le hid hle))
  refine ⟨⟨by omega, ?_, ?_, ?_, ?_, ?_⟩, hself⟩
  · intro hg other inst' hle hi'
    rw [hlate other hle] at hi'
    exact hg other inst' hle hi'
  · intro other inst' hle hi'
    exact ⟨inst', (hlate other hle).trans hi', rfl, rfl⟩
  · intro other inst' _ hne hi' _
    exact (hother other fun e => hne (List.mem_singleton.mpr e)).trans hi'
  · intro other later _ hi'
    by_cases he : other = id
    · -- the access is another instruction now, with the same treatment
      subst he
      cases hself.symm.trans hi'
      exact ⟨inst, hi, rfl, InstKind.access?_setOperand _ _ _, fun hnone => absurd hnone ha⟩
    · rw [hother other he] at hi'
      exact ⟨later, hi', rfl, rfl, fun _ => rfl⟩
  · intro other later hle hi' ha'
    rw [hlate other hle] at hi'
    exact Or.inr ⟨later, hi', ha'⟩

/-- An inserted instruction is given a source position. -/
theorem setLoc {id : InstId} {loc : Option Loc} {u : Unit}
    (hrun : (Edit.setLoc id loc).run g = .ok u h) (hid : n ≤ id) (ids : List InstId)
    (base : Option InstId) : Advances n ids base g h := by
  obtain ⟨inst, hi, hsize, hinst⟩ := Edit.inst?_setLoc hrun
  have hearly : ∀ other, other < n → h.inst? other = g.inst? other := by
    intro other hlt
    rw [hinst, if_neg (Nat.ne_of_lt (Nat.lt_of_lt_of_le hlt hid))]
  have hsame : ∀ other later, h.inst? other = some later →
      ∃ old, g.inst? other = some old ∧ later.kind = old.kind ∧ later.ty = old.ty := by
    intro other later hl
    rw [hinst] at hl
    split at hl
    · next he =>
      cases hl
      exact ⟨inst, he ▸ hi, rfl, rfl⟩
    · exact ⟨later, hl, rfl, rfl⟩
  refine ⟨by omega, ?_, ?_, ?_, ?_, ?_⟩
  · intro hg other later hle hl
    obtain ⟨old, hold, hkind, -⟩ := hsame other later hl
    rw [hkind]
    exact hg other old hle hold
  · intro other old _ hold
    rw [hinst]
    split
    · next he =>
      subst he
      cases hi.symm.trans hold
      exact ⟨_, rfl, rfl, rfl⟩
    · exact ⟨old, hold, rfl, rfl⟩
  · exact fun other old hlt _ hold _ => (hearly other hlt).trans hold
  · intro other later hlt hl
    rw [hearly other hlt] at hl
    exact ⟨later, hl, rfl, rfl, fun _ => rfl⟩
  · intro other later _ hl ha
    obtain ⟨old, hold, hkind, -⟩ := hsame other later hl
    exact Or.inr ⟨old, hold, hkind ▸ ha⟩

/-- An instruction of the body that is no access is removed. -/
theorem erase {id : InstId} {u : Unit} {inst : Inst} (hrun : (Edit.erase id).run g = .ok u h)
    (hid : id < n) (hi : g.inst? id = some inst) (ha : inst.kind.access? = none)
    (ids : List InstId) (base : Option InstId) : Advances n ids base g h := by
  obtain ⟨hsize, hinst⟩ := Edit.inst?_erase hrun
  have hlive : ∀ other later, h.inst? other = some later → g.inst? other = some later := by
    intro other later hl
    rw [hinst] at hl
    split at hl
    · cases hl
    · exact hl
  refine ⟨by omega, ?_, ?_, ?_, ?_, ?_⟩
  · exact fun hg other later hle hl => hg other later hle (hlive other later hl)
  · intro other old hle hold
    -- an inserted instruction has another number than one of the body
    refine ⟨old, ?_, rfl, rfl⟩
    rw [hinst, if_neg (Nat.ne_of_gt (Nat.lt_of_lt_of_le hid hle))]
    exact hold
  · intro other old _ _ hold ha'
    rw [hinst, if_neg]
    · exact hold
    · -- what is removed is no access
      rintro rfl
      cases hi.symm.trans hold
      exact ha' ha
  · exact fun other later _ hl => ⟨later, hlive other later hl, rfl, rfl, fun _ => rfl⟩
  · exact fun other later _ hl ha' => Or.inr ⟨later, hlive other later hl, ha'⟩

end Func.Advances

/-! ## Emitted addresses -/

namespace Func

variable {n : Nat} {g h : Func} {anchor base id : InstId} {kind : InstKind} {ty : Ty}
  {width : Width} {low address : Value}

theorem Emits.keeps (he : g.Emits anchor h) (n : Nat) : g.Keeps n h :=
  fun _ inst _ hi => ⟨inst, he.inst?_eq_some hi, rfl, rfl⟩

/-- One insertion, of an instruction that reads what is there and touches no memory. -/
theorem emits_insertBefore (hrun : (Edit.insertBefore anchor kind ty).run g = .ok id h)
    (hn : n ≤ g.cells.size) (holder : ∀ other, .inst other ∈ kind.operands → other < g.cells.size)
    (hquiet : kind.access? = none) :
    g.Emits anchor h ∧ h.Inserted n id kind ty ∧ id < h.cells.size := by
  obtain ⟨hid, hsize, b, hinst⟩ := Edit.inst?_insertBefore hrun
  refine ⟨.one (.nothing g) hrun holder hquiet,
    ⟨hid ▸ hn, { kind, ty, block := b, loc := none }, ?_, rfl, rfl⟩, ?_⟩
  · rw [hinst, if_pos rfl]
  · rw [hid, hsize]
    exact Nat.lt_succ_self _

theorem emits_emitSum (hrun : (Edit.emitSum width base anchor low).run g = .ok id h)
    (hn : n ≤ g.cells.size) (hbase : base < g.cells.size)
    (hlow : ∀ other, low = .inst other → other < g.cells.size) :
    g.Emits anchor h ∧ h.Sums n width base low id ∧ id < h.cells.size := by
  obtain ⟨kept, mid, wide, last, hkept, hwide, hsum⟩ := Edit.emitSum_eq_ok hrun
  -- what is widened is there before it is widened, with a mask or without
  have hmid : g.Emits anchor mid ∧ (∀ other, kept = .inst other → other < mid.cells.size) ∧
      ((width.mask? = none ∧ kept = low) ∨ ∃ mask masked, width.mask? = some mask ∧
        kept = .inst masked ∧
        mid.Inserted n masked (.binary .and low (.int 32 mask)) (.int 32)) := by
    rcases hkept with ⟨hmask, rfl, rfl⟩ | ⟨mask, masked, hmask, rfl, hand⟩
    · exact ⟨.nothing _, hlow, Or.inl ⟨hmask, rfl⟩⟩
    · obtain ⟨he, hi, hlt⟩ := emits_insertBefore hand hn
        (InstKind.older_binary hlow Value.int_older) rfl
      exact ⟨he, Value.inst_older hlt, Or.inr ⟨mask, masked, hmask, rfl, hi⟩⟩
  obtain ⟨he, hread, hshape⟩ := hmid
  obtain ⟨he', hwide, hlt⟩ := emits_insertBefore hwide (Nat.le_trans hn he.size_le)
    (InstKind.older_cast hread) rfl
  have hgrown := Nat.le_trans he.size_le he'.size_le
  obtain ⟨he'', hsum, hlt'⟩ := emits_insertBefore hsum (Nat.le_trans hn hgrown)
    (InstKind.older_binary (Value.inst_older (Nat.lt_of_lt_of_le hbase hgrown))
      (Value.inst_older hlt)) rfl
  refine ⟨(he.trans he').trans he'', ?_, hlt'⟩
  rcases hshape with ⟨hmask, rfl⟩ | ⟨mask, masked, hmask, rfl, hmasked⟩
  · exact .whole hmask (hwide.keep (he''.keeps n)) hsum
  · exact .masked hmask (hmasked.keep ((he'.trans he'').keeps n)) (hwide.keep (he''.keeps n)) hsum

theorem emits_emitPlain (hrun : (Edit.emitPlain width base anchor address ty).run g = .ok id h)
    (hn : n ≤ g.cells.size) (hbase : base < g.cells.size)
    (haddress : ∀ other, address = .inst other → other < g.cells.size) :
    g.Emits anchor h ∧ h.Lands n width base ty (.plain address) id := by
  obtain ⟨low, mid, sum, last, hlow, hsum, hcast⟩ := Edit.emitPlain_eq_ok hrun
  obtain ⟨he, hlow, hlt⟩ := emits_insertBefore hlow hn (InstKind.older_cast haddress) rfl
  obtain ⟨he', hsum, hlt'⟩ := emits_emitSum hsum (Nat.le_trans hn he.size_le)
    (Nat.lt_of_lt_of_le hbase he.size_le) (Value.inst_older hlt)
  obtain ⟨he'', hcast, -⟩ := emits_insertBefore hcast
    (Nat.le_trans hn (Nat.le_trans he.size_le he'.size_le))
    (InstKind.older_cast (Value.inst_older hlt')) rfl
  exact ⟨(he.trans he').trans he'', .plain (hlow.keep ((he'.trans he'').keeps n))
    (hsum.keep (he''.keeps n)) hcast⟩

theorem emits_emitFolded {fold : Fold} {successors : Edit.Successors}
    (hrun : (Edit.emitFolded width base anchor fold ty).run g = .ok successors h)
    (hn : n ≤ g.cells.size) (hbase : base < g.cells.size)
    (hindex : ∀ other, fold.index = .inst other → other < g.cells.size) :
    g.Emits anchor h ∧ h.Lands n width base ty (.folded fold) successors.cast ∧
      n ≤ successors.add ∧ n ≤ successors.cast := by
  obtain ⟨sum, mid, last, hsum, hadd, hcast⟩ := Edit.emitFolded_eq_ok hrun
  obtain ⟨he, hsum, hlt⟩ := emits_emitSum hsum hn hbase hindex
  obtain ⟨he', hadd, hlt'⟩ := emits_insertBefore hadd (Nat.le_trans hn he.size_le)
    (InstKind.older_binary (Value.inst_older hlt) Value.int_older) rfl
  obtain ⟨he'', hcast, -⟩ := emits_insertBefore hcast
    (Nat.le_trans hn (Nat.le_trans he.size_le he'.size_le))
    (InstKind.older_cast (Value.inst_older hlt')) rfl
  exact ⟨(he.trans he').trans he'', .folded (hsum.keep ((he'.trans he'').keeps n))
    (hadd.keep (he''.keeps n)) hcast, hadd.1, hcast.1⟩

end Func

end Confinement
