import Confinement.Proofs.BaseLoad
import Confinement.Proofs.Interleaving
import Mathlib.Algebra.GroupWithZero.Nat
import Mathlib.Data.Finset.Card

/-!
# The census of a run

A report says how many instructions a run has inserted and removed. Here they are counted in the
functions. Every edit of the rewriting changes the number of live instructions by what it inserts or
removes (`Func.Trades`), and what is removed was there before the rewriting began. Both ways of
confining an address insert the same number of instructions, one more if the width has a mask, so the
tally of a body says by how much it has grown (`Draft.Spends`), and the report says it of the module
(`Pass.run_accounts`).
-/

set_option autoImplicit false

namespace Confinement

open Func

/-! ## Live instructions -/

namespace Func

/-- The numbers of live instructions below `n`. -/
def liveBelow (f : Func) (n : Nat) : Finset InstId :=
  {id ∈ Finset.range n | (f.inst? id).isSome}

/-- The number of instructions of `f` that are gone in `g`. -/
def lost (f g : Func) : Nat :=
  f.order.countP fun id => (g.inst? id).isNone

variable {f g h : Func} {n added removed : Nat} {id : InstId}

theorem mem_liveBelow : id ∈ f.liveBelow n ↔ id < n ∧ (f.inst? id).isSome := by
  rw [liveBelow, Finset.mem_filter, Finset.mem_range]

theorem liveBelow_congr (h : ∀ id, id < n → (g.inst? id).isSome = (f.inst? id).isSome) :
    g.liveBelow n = f.liveBelow n := by
  ext id
  rw [mem_liveBelow, mem_liveBelow]
  exact and_congr_right fun hid => by rw [h id hid]

/-- The listed instructions are the live ones. -/
theorem Placed.toFinset_order (hf : f.Placed) : f.order.toFinset = f.liveBelow f.cells.size := by
  ext id
  rw [List.mem_toFinset, hf.mem_order, mem_liveBelow, Option.isSome_iff_exists]
  constructor
  · rintro ⟨inst, hi⟩
    exact ⟨lt_size_of_inst? hi, inst, hi⟩
  · rintro ⟨-, hi⟩
    exact hi

theorem Placed.instCount_eq_card (hf : f.Placed) :
    f.instCount = (f.liveBelow f.cells.size).card := by
  rw [instCount_eq_length_order, ← hf.toFinset_order, List.toFinset_card_of_nodup hf.nodup_order]

/-- What is gone was live and is not. -/
theorem Placed.lost_eq_card (hf : f.Placed) (g : Func) :
    f.lost g = (f.liveBelow f.cells.size \ g.liveBelow f.cells.size).card := by
  rw [lost, List.countP_eq_length_filter,
    ← List.toFinset_card_of_nodup (hf.nodup_order.filter _), List.toFinset_filter,
    hf.toFinset_order]
  congr 1
  ext id
  rw [Finset.mem_filter, Finset.mem_sdiff]
  refine and_congr_right fun hid => ?_
  rw [mem_liveBelow, not_and, Option.not_isSome_iff_eq_none, Option.isNone_iff_eq_none]
  exact ⟨fun hgone _ => hgone, fun hgone => hgone (mem_liveBelow.mp hid).1⟩

/-! ## Edits -/

/-- `g` has `added` instructions more than `f`, and is without `removed` that `f` had among the first
`n` numbers. -/
structure Trades (n added removed : Nat) (f g : Func) : Prop where
  size : f.cells.size ≤ g.cells.size
  early : (g.liveBelow n).card + removed = (f.liveBelow n).card
  all : (g.liveBelow g.cells.size).card + removed = (f.liveBelow f.cells.size).card + added

namespace Trades

theorem refl (n : Nat) (f : Func) : Trades n 0 0 f f :=
  ⟨Nat.le_refl _, rfl, rfl⟩

theorem trans {added' removed' : Nat} (hfg : Trades n added removed f g)
    (hgh : Trades n added' removed' g h) : Trades n (added + added') (removed + removed') f h where
  size := Nat.le_trans hfg.size hgh.size
  early := by
    have hfirst := hfg.early
    have hsecond := hgh.early
    omega
  all := by
    have hfirst := hfg.all
    have hsecond := hgh.all
    omega

/-- The next number is given to an instruction. -/
theorem grown {inst : Inst} (hsize : g.cells.size = f.cells.size + 1)
    (hinst : ∀ other, g.inst? other = if other = f.cells.size then some inst else f.inst? other)
    (hn : n ≤ f.cells.size) : Trades n 1 0 f g := by
  have hold : ∀ k, k ≤ f.cells.size → g.liveBelow k = f.liveBelow k := fun k hk =>
    liveBelow_congr fun id hid => by
      rw [hinst, if_neg (Nat.ne_of_lt (Nat.lt_of_lt_of_le hid hk))]
  have hnew : g.liveBelow (f.cells.size + 1) = insert f.cells.size (f.liveBelow f.cells.size) := by
    rw [← hold _ (Nat.le_refl _)]
    ext id
    rw [Finset.mem_insert, mem_liveBelow, mem_liveBelow]
    constructor
    · rintro ⟨hid, hlive⟩
      rcases Nat.lt_succ_iff_lt_or_eq.mp hid with hlt | he
      · exact Or.inr ⟨hlt, hlive⟩
      · exact Or.inl he
    · rintro (rfl | ⟨hid, hlive⟩)
      · exact ⟨Nat.lt_succ_self _, by rw [hinst, if_pos rfl]; rfl⟩
      · exact ⟨Nat.lt_succ_of_lt hid, hlive⟩
  refine ⟨by omega, by rw [hold n hn, Nat.add_zero], ?_⟩
  rw [hsize, hnew, Finset.card_insert_of_notMem, Nat.add_zero]
  exact fun hmem => Nat.lt_irrefl _ (mem_liveBelow.mp hmem).1

/-- The same numbers are live. -/
theorem steady (hsize : g.cells.size = f.cells.size)
    (hlive : ∀ id, (g.inst? id).isSome = (f.inst? id).isSome) : Trades n 0 0 f g := by
  have hsame : ∀ k, g.liveBelow k = f.liveBelow k := fun k => liveBelow_congr fun id _ => hlive id
  exact ⟨Nat.le_of_eq hsize.symm, by rw [hsame]; rfl, by rw [hsize, hsame]⟩

/-- A live instruction is replaced by another one. -/
theorem written {inst later : Inst} (hi : f.inst? id = some inst)
    (hsize : g.cells.size = f.cells.size)
    (hinst : ∀ other, g.inst? other = if other = id then some later else f.inst? other) :
    Trades n 0 0 f g := by
  refine steady hsize fun other => ?_
  rw [hinst]
  split
  · next he =>
    rw [he, hi]
    rfl
  · rfl

variable {anchor : InstId} {kind : InstKind} {ty : Ty} {width : Width} {base : InstId}
  {count : Nat} {u : Unit}

theorem insertBefore (hrun : (Edit.insertBefore anchor kind ty).run f = .ok id g)
    (hn : n ≤ f.cells.size) : Trades n 1 0 f g := by
  obtain ⟨rfl, hsize, b, hinst⟩ := Edit.inst?_insertBefore hrun
  exact grown hsize hinst hn

theorem insertAtHead {b : BlockId} (hrun : (Edit.insertAtHead b kind ty).run f = .ok id g)
    (hn : n ≤ f.cells.size) : Trades n 1 0 f g := by
  obtain ⟨rfl, hsize, hinst⟩ := Edit.inst?_insertAtHead hrun
  exact grown hsize hinst hn

theorem replaceOperand {slot : Nat} {v : Value}
    (hrun : (Edit.replaceOperand id slot v).run f = .ok u g) : Trades n 0 0 f g := by
  obtain ⟨inst, old, hi, -, hsize, hinst⟩ := Edit.inst?_replaceOperand hrun
  exact written hi hsize hinst

theorem setLoc {loc : Option Loc} (hrun : (Edit.setLoc id loc).run f = .ok u g) :
    Trades n 0 0 f g := by
  obtain ⟨inst, hi, hsize, hinst⟩ := Edit.inst?_setLoc hrun
  exact written hi hsize hinst

/-- What is removed is live before and not afterwards. -/
theorem erase (hrun : (Edit.erase id).run f = .ok u g) (hid : id < n) (hn : n ≤ f.cells.size) :
    Trades n 0 1 f g := by
  obtain ⟨hsize, hinst⟩ := Edit.inst?_erase hrun
  obtain ⟨inst, b, place, -, hi, -, -⟩ := (Edit.erase_serves f id).of_ok hrun
  have hcard : ∀ k, n ≤ k → (g.liveBelow k).card + 1 = (f.liveBelow k).card := by
    intro k hk
    have hrest : g.liveBelow k = (f.liveBelow k).erase id := by
      ext other
      rw [Finset.mem_erase, mem_liveBelow, mem_liveBelow, hinst]
      by_cases he : other = id
      · simp [he]
      · simp [he]
    rw [hrest]
    apply Finset.card_erase_add_one
    exact mem_liveBelow.mpr ⟨Nat.lt_of_lt_of_le hid hk, by rw [hi]; rfl⟩
  exact ⟨Nat.le_of_eq hsize.symm, hcard n (Nat.le_refl n), by rw [hsize]; exact hcard _ hn⟩

theorem eraseUnread (hrun : (Edit.eraseUnread id).run f = .ok count g) (hid : id < n)
    (hn : n ≤ f.cells.size) : Trades n 0 count f g ∧ count ≤ 1 := by
  rcases Edit.eraseUnread_eq_ok hrun with ⟨rfl, rfl⟩ | ⟨rfl, herase⟩
  · exact ⟨refl n g, Nat.zero_le 1⟩
  · exact ⟨erase herase hid hn, Nat.le_refl 1⟩

end Trades

end Func

/-- The number of instructions that mask a value. -/
def Width.masks (width : Width) : Nat :=
  if width.bits < 32 then 1 else 0

theorem Width.masks_of_none {width : Width} (h : width.mask? = none) : width.masks = 0 := by
  unfold mask? at h
  rw [masks]
  split at h
  · cases h
  · next hbits => rw [if_neg hbits]

theorem Width.masks_of_some {width : Width} {mask : Nat} (h : width.mask? = some mask) :
    width.masks = 1 := by
  unfold mask? at h
  rw [masks]
  split at h
  · next hbits => rw [if_pos hbits]
  · cases h

namespace Func.Trades

variable {f g : Func} {n count : Nat} {width : Width} {base anchor id : InstId} {ty : Ty}

theorem emitSum {low : Value} (hrun : (Edit.emitSum width base anchor low).run f = .ok id g)
    (hn : n ≤ f.cells.size) : Trades n (width.masks + 2) 0 f g := by
  obtain ⟨kept, mid, wide, last, hkept, hwide, hsum⟩ := Edit.emitSum_eq_ok hrun
  have hmid : Trades n width.masks 0 f mid := by
    rcases hkept with ⟨hmask, -, rfl⟩ | ⟨mask, masked, hmask, -, hand⟩
    · rw [Width.masks_of_none hmask]
      exact refl n mid
    · rw [Width.masks_of_some hmask]
      exact insertBefore hand hn
  have hlast := hmid.trans (insertBefore hwide (Nat.le_trans hn hmid.size))
  exact hlast.trans (insertBefore hsum (Nat.le_trans hn hlast.size))

/-- A plain address takes four instructions and a mask, if there is one. -/
theorem emitPlain {address : Value}
    (hrun : (Edit.emitPlain width base anchor address ty).run f = .ok id g)
    (hn : n ≤ f.cells.size) : Trades n (4 + width.masks) 0 f g := by
  obtain ⟨low, mid, sum, last, hlow, hsum, hcast⟩ := Edit.emitPlain_eq_ok hrun
  have hmid := insertBefore hlow hn
  have hlast := hmid.trans (emitSum hsum (Nat.le_trans hn hmid.size))
  have hall := hlast.trans (insertBefore hcast (Nat.le_trans hn hlast.size))
  rwa [show 1 + (width.masks + 2) + 1 = 4 + width.masks by omega] at hall

/-- So does a folded address, which is not converted but has a constant to add. -/
theorem emitFolded {fold : Fold} {successors : Edit.Successors}
    (hrun : (Edit.emitFolded width base anchor fold ty).run f = .ok successors g)
    (hn : n ≤ f.cells.size) : Trades n (4 + width.masks) 0 f g := by
  obtain ⟨sum, mid, last, hsum, hadd, hcast⟩ := Edit.emitFolded_eq_ok hrun
  have hmid := emitSum hsum hn
  have hlast := hmid.trans (insertBefore hadd (Nat.le_trans hn hmid.size))
  have hall := hlast.trans (insertBefore hcast (Nat.le_trans hn hlast.size))
  rwa [show width.masks + 2 + 1 + 1 = 4 + width.masks by omega] at hall

/-- At most the two parts of a fold are removed. -/
theorem retire {fold : Fold} {successors : Edit.Successors}
    (hrun : (Edit.retire fold successors).run f = .ok count g) (hcast : fold.cast < n)
    (hadd : fold.add < n) (hn : n ≤ f.cells.size) : Trades n 0 count f g ∧ count ≤ 2 := by
  obtain ⟨f₁, f₂, f₃, casts, adds, hrun₁, hrun₂, hrun₃, hrun₄, rfl⟩ := Edit.retire_eq_ok hrun
  have h₂ : Trades n 0 0 f f₂ := (setLoc hrun₁).trans (setLoc hrun₂)
  obtain ⟨h₃, hcasts⟩ := eraseUnread hrun₃ hcast (Nat.le_trans hn h₂.size)
  obtain ⟨h₄, hadds⟩ := eraseUnread hrun₄ hadd (Nat.le_trans hn (h₂.trans h₃).size)
  refine ⟨?_, Nat.add_le_add hcasts hadds⟩
  have hall := (h₂.trans h₃).trans h₄
  simp only [Nat.zero_add] at hall
  exact hall

end Func.Trades

/-! ## Drafts -/

/-- The number of instructions that the work of a tally inserts, the load of the base apart. -/
def Tally.inserted (width : Width) (tally : Tally) : Nat :=
  (4 + width.masks) * tally.pointers + tally.lengths

theorem Tally.inserted_add (width : Width) (a b : Tally) :
    (a + b).inserted width = a.inserted width + b.inserted width := by
  show (4 + width.masks) * (a.pointers + b.pointers) + (a.lengths + b.lengths) = _
  rw [inserted, inserted, Nat.mul_add]
  omega

/-- The number of loads of the base. -/
def Draft.loads (d : Draft) : Nat :=
  d.base.loaded.isSome.toNat

/-- The work of a tally on `d` has made `e` of it, and the numbers of instructions say so. -/
structure Draft.Spends (n : Nat) (width : Width) (tally : Tally) (d e : Draft) : Prop where
  trades : ∃ added, d.func.Trades n added tally.removed e.func ∧
    added + d.loads = tally.inserted width + e.loads
  folded : tally.removed ≤ 2 * tally.folded

namespace Draft.Spends

variable {n : Nat} {width : Width} {a b : Tally} {d u e : Draft}

theorem refl (n : Nat) (width : Width) (d : Draft) : Spends n width 0 d d where
  trades := ⟨0, .refl n d.func, by rw [Tally.inserted]; rfl⟩
  folded := Nat.zero_le _

theorem trans (hdu : Spends n width a d u) (hue : Spends n width b u e) :
    Spends n width (a + b) d e where
  trades := by
    obtain ⟨first, hfirst, hgrown⟩ := hdu.trades
    obtain ⟨second, hsecond, hgrown'⟩ := hue.trades
    refine ⟨first + second, hfirst.trans hsecond, ?_⟩
    rw [Tally.inserted_add]
    omega
  folded := by
    have hfirst := hdu.folded
    have hsecond := hue.folded
    show a.removed + b.removed ≤ 2 * (a.folded + b.folded)
    omega

end Draft.Spends

/-- The base is loaded once. -/
theorem Drafting.loadBase_trades {n : Nat} {base : InstId} {d u : Draft}
    (hrun : loadBase.run d = .ok base u) (hn : n ≤ d.func.cells.size) :
    ∃ added, d.func.Trades n added 0 u.func ∧ added + d.loads = u.loads := by
  rcases loadBase_eq_ok hrun with ⟨-, rfl⟩ | ⟨entry, hnone, -, hinsert, hbase⟩
  · exact ⟨0, .refl n u.func, Nat.zero_add _⟩
  · refine ⟨1, .insertAtHead hinsert hn, ?_⟩
    rw [Draft.loads, Draft.loads, hnone, hbase]
    rfl

namespace Draft.Logged

variable {f : Func} {symbols : SymbolTable} {cx : Context} {log : List Emission} {d e : Draft}
  {id : InstId} {tally : Tally}

/-- A fold that is found at the turn of a slot has its parts in the body. -/
theorem parts_lt {slot : PointerSlot} {address : Value} {pointee : Ty} {fold : Fold}
    (hd : d.Logged f symbols cx log) (hground : f.Grounded)
    (howed : (Chore.address id slot).Owed f symbols)
    (hnew : (id, slot.index) ∉ log.map (·.chore.place))
    (haddress : d.func.operand? id slot.index = some address)
    (hfold : d.func.foldFor? cx slot address pointee = some fold) :
    fold.cast < f.cells.size ∧ fold.add < f.cells.size := by
  obtain ⟨inst, access, v, target, hi, ha, -, hv, hty⟩ := howed.address
  rw [operand?_eq (hd.inst?_of_access hi (ha.trans_ne (Option.some_ne_none access))),
    operand?_written _ hnew, hv] at haddress
  cases haddress
  have hfold := fold?_of_advances hd.advances hground (fun other => lt_size_of_valueType hty)
    (foldFor?_eq_some_iff.mp hfold).2
  obtain ⟨castInst, hcast, -⟩ := part_of_fold? hfold (Or.inl rfl)
  obtain ⟨addInst, hadd, -⟩ := part_of_fold? hfold (Or.inr rfl)
  exact ⟨lt_size_of_inst? hcast, lt_size_of_inst? hadd⟩

/-- What is gone of the body is as much as was removed. -/
theorem lost_eq {added removed : Nat} (hd : d.Logged f symbols cx log) (hf : f.Placed)
    (htrades : f.Trades f.cells.size added removed d.func) : f.lost d.func = removed := by
  -- what is live of the body was live in it
  have hsub : d.func.liveBelow f.cells.size ⊆ f.liveBelow f.cells.size := by
    intro id hid
    obtain ⟨hlt, hlive⟩ := mem_liveBelow.mp hid
    obtain ⟨later, hlater⟩ := Option.isSome_iff_exists.mp hlive
    obtain ⟨inst, hi, -⟩ := hd.advances.back id later hlt hlater
    exact mem_liveBelow.mpr ⟨hlt, by rw [hi]; rfl⟩
  have hearly := htrades.early
  rw [hf.lost_eq_card, Finset.card_sdiff_of_subset hsub]
  omega

/-- An address that is confined is counted. -/
theorem address_spends {slot : PointerSlot} {outcome : PointerOutcome}
    (hd : d.Logged f symbols cx log) (hf : f.Placed) (hground : f.Grounded)
    (howed : (Chore.address id slot).Owed f symbols)
    (hnew : (id, slot.index) ∉ log.map (·.chore.place))
    (hrun : (Drafting.confinePointer cx id slot).run d = .ok outcome e) :
    d.Spends f.cells.size cx.region.width (.pointer outcome) e := by
  obtain ⟨b, u, address, pointee, g, hbase, hsame, haddress, hty, hcase⟩ :=
    Drafting.confinePointer_eq_ok hrun
  obtain ⟨first, hfirst, hgrown⟩ := Drafting.loadBase_trades hbase hd.ready.size
  have hu := (hd.loadBase hf hbase).1
  have hloads : e.loads = u.loads := by rw [Draft.loads, hsame, Draft.loads]
  have hcount : ∀ removed, (Tally.pointer { folded := outcome.folded, removed }).inserted
      cx.region.width = 4 + cx.region.width.masks := fun removed => by
    show (4 + cx.region.width.masks) * 1 + 0 = _
    omega
  rcases hcase with ⟨-, pointer, hemit, hreplace, rfl⟩ |
    ⟨fold, successors, k, removed, hfold, hemit, hreplace, hretire, rfl⟩
  · have hg := Trades.emitPlain hemit hu.ready.size
    have hall := (hfirst.trans hg).trans (.replaceOperand hreplace)
    refine ⟨⟨_, hall, ?_⟩, Nat.zero_le _⟩
    rw [hcount 0, hloads]
    omega
  · obtain ⟨hcast, hadd⟩ := hu.parts_lt hground howed hnew haddress hfold
    have hg := Trades.emitFolded hemit hu.ready.size
    have hk := (hfirst.trans hg).trans (.replaceOperand hreplace)
    obtain ⟨hlast, htwo⟩ := Trades.retire hretire hcast hadd
      (Nat.le_trans hd.ready.size hk.size)
    have hall := hk.trans hlast
    rw [Nat.zero_add, Nat.add_zero] at hall
    refine ⟨⟨_, hall, ?_⟩, htwo⟩
    rw [hcount removed, hloads]
    omega

/-- A length that is masked is counted. -/
theorem length_spends {slot : Nat} (hd : d.Logged f symbols cx log)
    (hrun : (Drafting.confineLength cx id (some slot)).run d = .ok tally e) :
    d.Spends f.cells.size cx.region.width tally e := by
  obtain ⟨masked, hedit, hsame, rfl⟩ := Drafting.confineLength_some_eq_ok hrun
  have hloads : e.loads = d.loads := by rw [Draft.loads, hsame, Draft.loads]
  rcases Edit.confineLength_eq_ok hedit with ⟨-, rfl, hfunc⟩ |
    ⟨mask, length, bits, kept, mid, -, rfl, -, -, hinsert, hreplace⟩
  · refine ⟨⟨0, ?_, ?_⟩, Nat.zero_le _⟩
    · rw [hfunc]
      exact .refl _ d.func
    · rw [hloads, Tally.inserted]
      rfl
  · refine ⟨⟨1, (Trades.insertBefore hinsert hd.ready.size).trans (.replaceOperand hreplace), ?_⟩,
      Nat.zero_le _⟩
    rw [hloads, Tally.inserted]
    rfl

/-- A chore that is performed is counted. -/
theorem perform_spends {chore : Chore} (hd : d.Logged f symbols cx log) (hf : f.Placed)
    (hground : f.Grounded) (howed : chore.Owed f symbols)
    (hnew : chore.place ∉ log.map (·.chore.place))
    (hrun : (chore.perform cx).run d = .ok tally e) :
    d.Spends f.cells.size cx.region.width tally e := by
  cases chore with
  | address id slot =>
    obtain ⟨outcome, hpointer, rfl⟩ := Drafting.perform_address_eq_ok.mp hrun
    exact hd.address_spends hf hground howed hnew hpointer
  | length id slot => exact hd.length_spends hrun

/-- Chores that are performed, each in a slot of its own, are counted. -/
theorem performAll_spends {chores : List Chore} (hd : d.Logged f symbols cx log) (hf : f.Placed)
    (hground : f.Grounded) (howed : ∀ chore ∈ chores, chore.Owed f symbols)
    (honce : (log.map (·.chore.place) ++ chores.map Chore.place).Nodup)
    (hrun : (Drafting.performAll cx chores).run d = .ok tally e) :
    d.Spends f.cells.size cx.region.width tally e := by
  induction chores generalizing log d tally with
  | nil =>
    obtain ⟨rfl, rfl⟩ := run_pure_eq_ok.mp hrun
    exact .refl _ _ _
  | cons chore chores ih =>
    obtain ⟨here, u, rest, hhere, hrest, rfl⟩ := Drafting.performAll_cons_eq_ok.mp hrun
    rw [List.forall_mem_cons] at howed
    have hnew : chore.place ∉ log.map (·.chore.place) := fun hmem =>
      (List.nodup_append.mp honce).2.2 _ hmem _ List.mem_cons_self rfl
    obtain ⟨emission, rfl, hu⟩ :=
      hd.does hf hground howed.1 hnew (Drafting.does_iff.mpr ⟨here, hhere⟩)
    refine (hd.perform_spends hf hground howed.1 hnew hhere).trans (ih hu howed.2 ?_ hrest)
    rw [List.map_append, List.append_assoc]
    exact honce

end Draft.Logged

/-! ## Plans -/

/-- Is it an address that is confined? -/
def Chore.isAddress : Chore → Bool
  | address _ _ => true
  | length _ _ => false

/-- The number of address slots of a plan. -/
def Plan.pointers (plan : Plan) : Nat :=
  (plan.map (·.access.pointers.length)).sum

/-- The number of accesses of a plan that have a length. -/
def Plan.lengths (plan : Plan) : Nat :=
  plan.countP (·.access.length.isSome)

/-- A tally counts the chores that were performed. -/
theorem Drafting.performAll_counts {cx : Context} {chores : List Chore} {d e : Draft}
    {tally : Tally} (hrun : (performAll cx chores).run d = .ok tally e) :
    tally.pointers = chores.countP (·.isAddress) ∧
      tally.lengths = cx.region.width.masks * chores.countP (! ·.isAddress) := by
  induction chores generalizing d tally with
  | nil =>
    obtain ⟨rfl, -⟩ := run_pure_eq_ok.mp hrun
    exact ⟨rfl, rfl⟩
  | cons chore chores ih =>
    obtain ⟨here, u, rest, hhere, hrest, rfl⟩ := performAll_cons_eq_ok.mp hrun
    obtain ⟨hpointers, hlengths⟩ := ih hrest
    show here.pointers + rest.pointers = _ ∧ here.lengths + rest.lengths = _
    rw [hpointers, hlengths, List.countP_cons, List.countP_cons, Nat.mul_add]
    cases chore with
    | address id slot =>
      obtain ⟨outcome, -, rfl⟩ := perform_address_eq_ok.mp hhere
      exact ⟨Nat.add_comm _ _, Nat.add_comm _ _⟩
    | length id slot =>
      obtain ⟨masked, hedit, -, rfl⟩ := confineLength_some_eq_ok hhere
      refine ⟨Nat.add_comm _ _, ?_⟩
      rw [Nat.add_comm]
      congr 1
      rcases Edit.confineLength_eq_ok hedit with ⟨hmask, rfl, -⟩ | ⟨mask, -, -, -, -, hmask, rfl, -⟩
      · rw [Width.masks_of_none hmask]
        rfl
      · rw [Width.masks_of_some hmask]
        rfl

theorem Planned.countP_chores (planned : Planned) :
    planned.chores.countP (·.isAddress) = planned.access.pointers.length ∧
      planned.chores.countP (! ·.isAddress) = planned.access.length.toList.length := by
  simp [chores, List.countP_map, Function.comp_def, Chore.isAddress]

/-- The chores of a plan are one for each address and one for each length. -/
theorem Plan.countP_chores (plan : Plan) :
    (plan.flatMap Planned.chores).countP (·.isAddress) = Plan.pointers plan ∧
      (plan.flatMap Planned.chores).countP (! ·.isAddress) = Plan.lengths plan := by
  induction plan with
  | nil => exact ⟨rfl, rfl⟩
  | cons planned plan ih =>
    obtain ⟨hpointers, hlengths⟩ := planned.countP_chores
    rw [List.flatMap_cons, List.countP_append, List.countP_append, ih.1, ih.2, hpointers, hlengths]
    refine ⟨rfl, ?_⟩
    rw [lengths, lengths, List.countP_cons, Nat.add_comm]
    cases planned.access.length <;> rfl

/-! ## Functions -/

/-- What was done to the functions `fs` to make the functions `gs` of them, by their plans, is what a
tally says, with the number of functions that load the base. -/
structure Tally.Accounts (width : Width) (fs : List Func) (plans : List Plan) (gs : List Func)
    (loads : Nat) (tally : Tally) : Prop where
  /-- A function loads the base if it has an access. -/
  loads_eq : loads = plans.countP (! ·.isEmpty)
  /-- Every address of the plans was confined. -/
  pointers : tally.pointers = (plans.map Plan.pointers).sum
  /-- Every length was masked, if the width has a mask. -/
  lengths : tally.lengths = if width.bits < 32 then (plans.map Plan.lengths).sum else 0
  /-- What was removed are instructions of the functions. -/
  removed : tally.removed = (List.zipWith Func.lost fs gs).sum
  /-- A fold leaves two of them behind at most. -/
  folded : tally.removed ≤ 2 * tally.folded
  /-- The functions have grown by what was inserted and is not offset by what was removed. -/
  insts : (gs.map Func.instCount).sum + tally.removed = (fs.map Func.instCount).sum + loads +
    (4 + width.masks) * tally.pointers + tally.lengths

namespace Tally.Accounts

variable {width : Width} {f g : Func} {plan : Plan} {fs gs : List Func} {plans : List Plan}
  {loads more : Nat} {a b : Tally}

theorem nil (width : Width) : Accounts width [] [] [] 0 0 where
  loads_eq := rfl
  pointers := rfl
  lengths := by
    split <;> rfl
  removed := rfl
  folded := Nat.le_refl 0
  insts := rfl

/-- Accounts add up. -/
theorem cons (hone : Accounts width [f] [plan] [g] loads a)
    (hrest : Accounts width fs plans gs more b) :
    Accounts width (f :: fs) (plan :: plans) (g :: gs) (loads + more) (a + b) where
  loads_eq := by
    rw [hone.loads_eq, hrest.loads_eq, ← List.countP_append]
    rfl
  pointers := by
    show a.pointers + b.pointers = _
    rw [hone.pointers, hrest.pointers, List.map_cons, List.sum_cons]
    rfl
  lengths := by
    show a.lengths + b.lengths = _
    rw [hone.lengths, hrest.lengths]
    split
    · rw [List.map_cons, List.sum_cons]
      rfl
    · rfl
  removed := by
    show a.removed + b.removed = _
    rw [hone.removed, hrest.removed, List.zipWith_cons_cons, List.sum_cons]
    rfl
  folded := by
    have hfirst := hone.folded
    have hsecond := hrest.folded
    show a.removed + b.removed ≤ 2 * (a.folded + b.folded)
    omega
  insts := by
    have hfirst := hone.insts
    have hsecond := hrest.insts
    show _ + (a.removed + b.removed) =
      _ + (4 + width.masks) * (a.pointers + b.pointers) + (a.lengths + b.lengths)
    rw [Nat.mul_add]
    simp only [List.map_cons, List.sum_cons, List.map_nil, List.sum_nil] at hfirst ⊢
    omega

end Tally.Accounts

section Function

variable {f : Func} {symbols : SymbolTable} {cx : Context} {plan : Plan} {log : List Emission}
  {d : Draft} {tally : Tally}

/-- The base is loaded if there is an access. -/
theorem Func.Recorded.loads_eq (hd : f.Recorded symbols cx plan log d)
    (hnone : plan = [] → d.base.loaded = none) : d.loads = [plan].countP (! ·.isEmpty) := by
  rw [Draft.loads]
  cases plan with
  | nil =>
    rw [hnone rfl]
    rfl
  | cons planned plan =>
    obtain ⟨b, hb⟩ := hd.exists_base (List.cons_ne_nil planned plan)
    rw [hb]
    rfl

/-- What the chores of its plan do to a function is what their tally says. -/
theorem Func.Placed.accounts (hf : f.Placed) (hplan : f.plan symbols = .ok plan)
    (hrun : (Drafting.performAll cx (plan.flatMap Planned.chores)).run
      { func := f, base := .start cx.region.memoryBase } = .ok tally d) :
    tally.Accounts cx.region.width [f] [plan] [d.func] d.loads := by
  obtain ⟨log, hd⟩ := recorded_of_performAll hf hplan hrun
  obtain ⟨⟨added, htrades, hgrown⟩, hfolded⟩ :=
    (Draft.Logged.start hf symbols cx).performAll_spends hf (hf.grounded hplan)
      (owed_of_plan hplan) (nodup_places hplan hf.nodup_order) hrun
  obtain ⟨hpointers, hlengths⟩ := Drafting.performAll_counts hrun
  rw [(Plan.countP_chores plan).1] at hpointers
  rw [(Plan.countP_chores plan).2] at hlengths
  refine { loads_eq := hd.loads_eq ?none, pointers := ?pointers, lengths := ?lengths,
           removed := ?removed, folded := hfolded, insts := ?insts }
  case none =>
    rintro rfl
    obtain ⟨-, rfl⟩ := run_pure_eq_ok.mp hrun
    rfl
  case pointers => rw [hpointers, List.map_singleton, List.sum_singleton]
  case lengths =>
    rw [hlengths, Width.masks, List.map_singleton, List.sum_singleton]
    split
    · rw [Nat.one_mul]
    · rw [Nat.zero_mul]
  case removed =>
    rw [List.zipWith_cons_cons, List.zipWith_nil_left, List.sum_singleton,
      hd.logged.lost_eq hf htrades]
  case insts =>
    have hall := htrades.all
    rw [← hf.instCount_eq_card, ← hd.logged.laid.placed.instCount_eq_card] at hall
    change added + 0 = _ at hgrown
    rw [Tally.inserted] at hgrown
    simp only [List.map_cons, List.map_nil, List.sum_cons, List.sum_nil]
    omega

end Function

/-! ## A run -/

section Run

variable {pass : Pass} {m m' : Module} {report : Report}

/-- What each function of a run has done is in the report. -/
theorem Pass.run_performs (h : pass.run.run m = .ok report m') :
    ∃ plans region m₁, ∃ done : List (Tally × Draft), m.plans = .ok plans ∧
      (Region.install pass.width).run m = .ok region m₁ ∧
      m'.functions = done.map (·.2.func) ∧
      List.Forall₂ (fun entry made =>
        (Drafting.performAll (m₁.context region) (entry.2.flatMap Planned.chores)).run
          { func := entry.1, base := .start region.memoryBase } = .ok made.1 made.2)
        (m.functions.zip plans) done ∧
      report = { width := pass.width
                 functions := m.functions.countP (! ·.isDeclaration)
                 baseLoads := done.countP (·.2.base.loaded.isSome)
                 tally := (done.map (·.1)).sum } := by
  obtain ⟨plans, region, m₁, bodies, functions, hplans, hregion, hsettle, rfl, -, rfl⟩ :=
    run_eq_ok h
  have hforall := mapM_eq_ok.mp hplans
  obtain ⟨bodies', done, hsettle', hall, hreport⟩ :=
    settle_performs hforall (outcome_of_settle hforall hsettle) pass.width
  cases hsettle.symm.trans hsettle'
  exact ⟨plans, region, m₁, done, hplans, hregion, rfl, hall, hreport⟩

/-- Functions that have done the chores of their plans are accounted for by the sum of it. -/
theorem accounts_of_performs {cx : Context} {symbols : SymbolTable} {fs : List Func}
    {plans : List Plan} {done : List (Tally × Draft)} (hplaced : ∀ f ∈ fs, f.Placed)
    (hplans : List.Forall₂ (fun f plan => f.plan symbols = .ok plan) fs plans)
    (hall : List.Forall₂ (fun entry made =>
      (Drafting.performAll cx (entry.2.flatMap Planned.chores)).run
        { func := entry.1, base := .start cx.region.memoryBase } = .ok made.1 made.2)
      (fs.zip plans) done) :
    Tally.Accounts cx.region.width fs plans (done.map (·.2.func))
      (done.countP (·.2.base.loaded.isSome)) (done.map (·.1)).sum := by
  induction hplans generalizing done with
  | nil =>
    rw [List.forall₂_nil_left_iff.mp hall]
    exact .nil _
  | @cons f plan fs plans hplan _ ih =>
    obtain ⟨made, rest, hmade, hrest, rfl⟩ := List.forall₂_cons_left_iff.mp hall
    rw [List.forall_mem_cons] at hplaced
    have hone := hplaced.1.accounts hplan hmade
    have hmore := hone.cons (ih hplaced.2 hrest)
    rw [List.map_cons, List.map_cons, List.sum_cons, List.countP_cons, Nat.add_comm]
    have hloads : made.2.loads = if made.2.base.loaded.isSome then 1 else 0 := by
      rw [Draft.loads]
      cases made.2.base.loaded.isSome <;> rfl
    rw [← hloads]
    exact hmore

/-- Nothing that was inserted masks a value. -/
def Func.Unmasked (f g : Func) : Prop :=
  ∀ id inst lhs rhs, f.inst? id = none → g.inst? id = some inst →
    inst.kind ≠ .binary .and lhs rhs

/-- Without a mask, nothing is masked. -/
theorem Draft.Logged.unmasked {f : Func} {symbols : SymbolTable} {cx : Context}
    {log : List Emission} {d : Draft} (hd : d.Logged f symbols cx log) (hf : f.Placed)
    (hmask : cx.region.width.mask? = none) : f.Unmasked d.func := by
  intro id inst lhs rhs hnew hi hkind
  rcases hd.inserted_kind hf hnew hi with hbase | hrow
  · cases hi.symm.trans (hd.base id hbase)
    cases hkind
  · rw [hkind] at hrow
    cases hrow with
    | mask hsome v bits =>
      rw [hmask] at hsome
      cases hsome

/-- The report of a run accounts for it. It counts the functions that have a body; those with an
access, which load the base; the addresses, all of them confined; the lengths, all of them masked if
the width has less than 32 bits and none otherwise; and the instructions that were removed, two for
each fold at most. By all this the number of live instructions has changed: by the loads of the base,
by four for each address and one more if it was masked, by one for each length that was masked, and
by what was removed. -/
theorem Pass.run_accounts (hm : m.Built) (h : pass.run.run m = .ok report m') :
    report.width = pass.width ∧
      report.functions = m.functions.countP (! ·.isDeclaration) ∧
      (∃ plans, m.plans = .ok plans ∧
        report.tally.Accounts pass.width m.functions plans m'.functions report.baseLoads) ∧
      (pass.width.bits = 32 → List.Forall₂ Func.Unmasked m.functions m'.functions) := by
  obtain ⟨plans, region, m₁, done, hplans, hregion, hfunctions, hall, rfl⟩ := run_performs h
  obtain ⟨hwidth, -⟩ := Region.install_eq_ok hregion
  refine ⟨rfl, rfl, ⟨plans, hplans, ?_⟩, fun hfull => ?_⟩
  · have haccounts := accounts_of_performs (fun f hf => (hm f hf).placed) (mapM_eq_ok.mp hplans) hall
    rw [hfunctions, ← hwidth]
    exact haccounts
  · obtain ⟨region', m₂, hregion', -, -, hlogged⟩ := run_logged hm h
    obtain ⟨hwidth', -⟩ := Region.install_eq_ok hregion'
    refine hlogged.imp ?_
    rintro f g ⟨hf, -, plan, log, d, rfl, hd⟩
    refine hd.logged.unmasked (hm f hf).placed ?_
    show region'.width.mask? = none
    unfold Width.mask?
    rw [hwidth', if_neg (by omega)]

end Run

theorem pairedModule_built : pairedModule.Built := by
  intro f hf
  rcases List.mem_cons.mp hf with rfl | hf
  · exact (Func.Built.declare _ _ _).history _
  rcases List.mem_cons.mp hf with rfl | hf
  · exact .declare _ _ _
  · rw [List.mem_singleton.mp hf]
    exact (Func.Built.declare _ _ _).history _

theorem pairedModule_accounts : ∃ report m',
    Pass.narrow.run.run pairedModule = .ok report m' ∧ report.tally.removed = 2 ∧
      report.width = Pass.narrow.width ∧
      report.functions = pairedModule.functions.countP (! ·.isDeclaration) ∧
      (∃ plans, pairedModule.plans = .ok plans ∧
        report.tally.Accounts Pass.narrow.width pairedModule.functions plans m'.functions
          report.baseLoads) ∧
      (Pass.narrow.width.bits = 32 →
        List.Forall₂ Func.Unmasked pairedModule.functions m'.functions) := by
  have hruns : Pass.narrow.succeeds pairedModule (fun report _ => report.tally.removed == 2) =
      true := by decide +kernel
  obtain ⟨report, m', hrun, hremoved⟩ := Pass.run_of_succeeds hruns
  exact ⟨report, m', hrun, eq_of_beq hremoved, Pass.run_accounts pairedModule_built hrun⟩

end Confinement
