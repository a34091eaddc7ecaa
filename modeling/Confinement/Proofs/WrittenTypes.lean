import Confinement.Ty
import Mathlib.Data.List.Induction

/-!
# Reading a written type

A written type is easiest to read from its end. The last character tells the constructor
(`Ty.shape?_last`): a star stands behind what is pointed at, a bracket closes an array and a
parenthesis a list of parameters, and what remains is a width or the word `void`. What stands in front
of it is written types again, and numbers that end at a character which is no digit. So no written
type is the end of another one (`Ty.Coded`, one lemma for each constructor), and two types that are
written alike are the same (`Ty.text_inj`), though neither a return type nor a parameter has a
delimiter of its own.
-/

set_option autoImplicit false

namespace Confinement

/-! ## Numbers -/

/-- The decimal digits of a number, the last one first. -/
def digitsBack (n : Nat) : List Char :=
  (Nat.toDigits 10 n).reverse

theorem isDigit_of_mem_digitsBack {n : Nat} {c : Char} (h : c ∈ digitsBack n) :
    c.isDigit = true :=
  Nat.isDigit_of_mem_toDigits (by decide) (by decide) (List.mem_reverse.mp h)

/-- A number ends where the digits end. -/
theorem digitsBack_append_inj {m n : Nat} {c : Char} {r s : List Char} (hc : c.isDigit = false)
    (h : digitsBack m ++ c :: r = digitsBack n ++ c :: s) : m = n ∧ r = s := by
  have htake : ∀ (k : Nat) (rest : List Char),
      (digitsBack k ++ c :: rest).takeWhile Char.isDigit = digitsBack k := by
    intro k rest
    rw [List.takeWhile_append_of_pos fun d hd => isDigit_of_mem_digitsBack hd,
      List.takeWhile_cons_of_neg (by simp [hc]), List.append_nil]
  have hdigits : digitsBack m = digitsBack n := by
    rw [← htake m r, h, htake n s]
  constructor
  · have hvalue := congrArg (fun digits => Nat.ofDigitChars 10 digits.reverse 0) hdigits
    simpa [digitsBack] using hvalue
  · rw [hdigits] at h
    simpa using h

namespace Ty

/-! ## Written types from the end -/

/-- The characters of the written form, the last one first. -/
def textBack (t : Ty) : List Char :=
  t.text.toList.reverse

/-- What stands in front of a parameter, from there back to the parenthesis. The parameters are given
last first. -/
def paramsTail : List Ty → List Char
  | [] => ['(']
  | t :: ts => ' ' :: ',' :: (t.textBack ++ paramsTail ts)

/-- The parameters, last first, back to the parenthesis. -/
def paramsBack : List Ty → List Char
  | [] => ['(']
  | t :: ts => t.textBack ++ paramsTail ts

theorem textBack_void : textBack .void = ['d', 'i', 'o', 'v'] := by
  simp [textBack, text]

theorem textBack_int (n : Nat) : textBack (.int n) = digitsBack n ++ ['i'] := by
  simp [textBack, text, digitsBack, toString]

theorem textBack_ptr (t : Ty) : textBack (.ptr t) = '*' :: t.textBack := by
  simp [textBack, text]

theorem textBack_array (n : Nat) (t : Ty) : textBack (.array n t) =
    ']' :: (t.textBack ++ ' ' :: 'x' :: ' ' :: (digitsBack n ++ ['['])) := by
  simp [textBack, text, digitsBack, toString]

/-- The commas stand between the parameters. -/
theorem reverse_intercalate_texts (ps : List Ty) :
    (", ".intercalate (texts ps)).toList.reverse ++ ['('] = paramsBack ps.reverse := by
  induction ps using List.reverseRecOn with
  | nil => simp [texts, paramsBack]
  | append_singleton ps t ih =>
    rw [texts_eq_map] at ih ⊢
    rw [List.reverse_append, List.map_append]
    cases hps : ps.reverse with
    | nil =>
      rw [List.reverse_eq_nil_iff.mp hps]
      simp [paramsBack, paramsTail, textBack]
    | cons u us =>
      have hne : ps.map text ≠ [] := by
        rw [Ne, List.map_eq_nil_iff, ← List.reverse_eq_nil_iff, hps]
        exact List.cons_ne_nil u us
      have hparams : (", ".intercalate (ps.map text ++ [t].map text)).toList.reverse =
          t.textBack ++ ' ' :: ',' :: (", ".intercalate (ps.map text)).toList.reverse := by
        rw [List.map_singleton, String.intercalate_append_of_ne_nil hne (List.cons_ne_nil _ _)]
        simp [textBack]
      rw [hparams, List.append_assoc, List.cons_append, List.cons_append, ih, hps]
      rfl

theorem textBack_func (r : Ty) (ps : List Ty) : textBack (.func r ps) =
    ')' :: (paramsBack ps.reverse ++ ' ' :: r.textBack) := by
  rw [← reverse_intercalate_texts]
  simp [textBack, text]

/-! ## The last character -/

/-- The constructors of types. -/
inductive Shape where
  | void | int | ptr | array | func
  deriving DecidableEq

/-- The constructor of a type. -/
def shape : Ty → Shape
  | .void => .void
  | .int _ => .int
  | .ptr _ => .ptr
  | .array _ _ => .array
  | .func _ _ => .func

/-- The constructor that the last character of a written type tells. -/
def shape? (c : Char) : Option Shape :=
  if c.isDigit then some .int
  else match c with
    | 'd' => some .void
    | '*' => some .ptr
    | ']' => some .array
    | ')' => some .func
    | _ => none

/-- A written type is not empty, and its last character tells its constructor. -/
theorem shape?_last (t : Ty) : ∃ c rest, t.textBack = c :: rest ∧ shape? c = some t.shape := by
  cases t with
  | void => exact ⟨'d', _, textBack_void, rfl⟩
  | int n =>
    cases hdigits : digitsBack n with
    | nil => exact absurd (List.reverse_eq_nil_iff.mp hdigits) Nat.toDigits_ne_nil
    | cons c rest =>
      have hc : c.isDigit = true := isDigit_of_mem_digitsBack (hdigits ▸ List.mem_cons_self)
      refine ⟨c, rest ++ ['i'], ?_, ?_⟩
      · rw [textBack_int, hdigits, List.cons_append]
      · simp [shape?, hc, shape]
  | ptr t => exact ⟨'*', _, textBack_ptr t, rfl⟩
  | array n t => exact ⟨']', _, textBack_array n t, rfl⟩
  | func r ps => exact ⟨')', _, textBack_func r ps, rfl⟩

/-- Texts that end alike end in types of one constructor. -/
theorem shape_eq {t u : Ty} {r s : List Char} (h : t.textBack ++ r = u.textBack ++ s) :
    t.shape = u.shape := by
  obtain ⟨c, rest, ht, hc⟩ := t.shape?_last
  obtain ⟨d, rest', hu, hd⟩ := u.shape?_last
  rw [ht, hu, List.cons_append, List.cons_append, List.cons.injEq] at h
  rw [h.1, hd] at hc
  exact (Option.some.inj hc).symm

/-- No written type ends in an opening parenthesis. -/
theorem textBack_ne_paren (t : Ty) {r s : List Char} : t.textBack ++ r ≠ '(' :: s := by
  obtain ⟨c, rest, ht, hc⟩ := t.shape?_last
  intro h
  rw [ht, List.cons_append, List.cons.injEq] at h
  rw [h.1] at hc
  cases hc

/-! ## One constructor after the other -/

/-- A text that ends in the written form of `t` ends in that of no other type. -/
def Coded (t : Ty) : Prop :=
  ∀ (u : Ty) (r s : List Char), t.textBack ++ r = u.textBack ++ s → t = u ∧ r = s

theorem coded_void : Coded .void := by
  intro u r s h
  have hshape := shape_eq h
  cases u with
  | void => exact ⟨rfl, List.append_cancel_left h⟩
  | _ => cases hshape

theorem coded_int (n : Nat) : Coded (.int n) := by
  intro u r s h
  have hshape := shape_eq h
  cases u with
  | int m =>
    rw [textBack_int, textBack_int, List.append_assoc, List.append_assoc] at h
    obtain ⟨rfl, hrest⟩ := digitsBack_append_inj (by decide) h
    exact ⟨rfl, hrest⟩
  | _ => cases hshape

theorem Coded.ptr {t : Ty} (ht : t.Coded) : Coded (.ptr t) := by
  intro u r s h
  have hshape := shape_eq h
  cases u with
  | ptr u =>
    rw [textBack_ptr, textBack_ptr, List.cons_append, List.cons_append, List.cons.injEq] at h
    obtain ⟨rfl, hrest⟩ := ht u r s h.2
    exact ⟨rfl, hrest⟩
  | _ => cases hshape

theorem Coded.array {t : Ty} (ht : t.Coded) (n : Nat) : Coded (.array n t) := by
  intro u r s h
  have hshape := shape_eq h
  cases u with
  | array m u =>
    simp only [textBack_array, List.cons_append, List.append_assoc, List.cons.injEq, true_and] at h
    -- first the elements, then their number
    obtain ⟨rfl, hnumber⟩ := ht u _ _ h
    simp only [List.cons.injEq, true_and, List.nil_append] at hnumber
    obtain ⟨rfl, hrest⟩ := digitsBack_append_inj (by decide) hnumber
    exact ⟨rfl, hrest⟩
  | _ => cases hshape

/-- In front of a parameter there is another one or the parenthesis, and one can tell which. -/
theorem paramsTail_append_inj {ts us : List Ty} {r s : List Char} (hts : ∀ t ∈ ts, t.Coded)
    (h : paramsTail ts ++ r = paramsTail us ++ s) : ts = us ∧ r = s := by
  induction ts generalizing us with
  | nil =>
    cases us with
    | nil => exact ⟨rfl, List.append_cancel_left h⟩
    | cons u us => simp [paramsTail] at h
  | cons t ts ih =>
    cases us with
    | nil => simp [paramsTail] at h
    | cons u us =>
      obtain ⟨ht, hts⟩ := List.forall_mem_cons.mp hts
      simp only [paramsTail, List.cons_append, List.append_assoc, List.cons.injEq, true_and] at h
      obtain ⟨rfl, htail⟩ := ht u _ _ h
      obtain ⟨rfl, hrest⟩ := ih hts htail
      exact ⟨rfl, hrest⟩

theorem paramsBack_append_inj {ts us : List Ty} {r s : List Char} (hts : ∀ t ∈ ts, t.Coded)
    (h : paramsBack ts ++ r = paramsBack us ++ s) : ts = us ∧ r = s := by
  cases ts with
  | nil =>
    cases us with
    | nil => exact ⟨rfl, List.append_cancel_left h⟩
    | cons u us =>
      rw [paramsBack, paramsBack, List.append_assoc] at h
      exact absurd h.symm u.textBack_ne_paren
  | cons t ts =>
    cases us with
    | nil =>
      rw [paramsBack, paramsBack, List.append_assoc] at h
      exact absurd h t.textBack_ne_paren
    | cons u us =>
      obtain ⟨ht, hts⟩ := List.forall_mem_cons.mp hts
      rw [paramsBack, paramsBack, List.append_assoc, List.append_assoc] at h
      obtain ⟨rfl, htail⟩ := ht u _ _ h
      obtain ⟨rfl, hrest⟩ := paramsTail_append_inj hts htail
      exact ⟨rfl, hrest⟩

theorem Coded.func {r : Ty} {ps : List Ty} (hr : r.Coded) (hps : ∀ p ∈ ps, p.Coded) :
    Coded (.func r ps) := by
  intro u rest rest' h
  have hshape := shape_eq h
  cases u with
  | func q qs =>
    simp only [textBack_func, List.cons_append, List.append_assoc, List.cons.injEq, true_and] at h
    -- first the parameters, then what is returned
    obtain ⟨hparams, hret⟩ :=
      paramsBack_append_inj (fun p hp => hps p (List.mem_reverse.mp hp)) h
    simp only [List.cons.injEq, true_and] at hret
    obtain ⟨rfl, hrest⟩ := hr q _ _ hret
    rw [List.reverse_inj.mp hparams]
    exact ⟨rfl, hrest⟩
  | _ => cases hshape

/-! ## All types -/

theorem coded (t : Ty) : t.Coded := by
  induction t using Ty.induct with
  | void => exact coded_void
  | int n => exact coded_int n
  | ptr t ht => exact ht.ptr
  | array n t ht => exact ht.array n
  | func r ps hr hps => exact hr.func hps

/-- Written types are unambiguous: two types are written alike only if they are the same. -/
theorem text_inj {t u : Ty} : t.text = u.text ↔ t = u := by
  constructor
  · intro h
    have hback : t.textBack ++ [] = u.textBack ++ [] := by rw [textBack, textBack, h]
    exact (coded t u [] [] hback).1
  · intro h
    rw [h]

end Ty

end Confinement
