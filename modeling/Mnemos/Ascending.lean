import Mathlib.Order.Defs.LinearOrder
import Mnemos.Bytes

/-!
# Ascending sequences

The order of pairs of a score and a member, and tests on ascending sequences:
one that is closed downwards or upwards cuts such a sequence in two.
-/

open List

namespace Mnemos

def Precedes {S : Type} [LT S] (a b : S×Bytes) : Prop := a.1 < b.1 ∨ a.1=b.1 ∧ a.2 < b.2

section Order

variable {S : Type} [LinearOrder S] {a b c : S×Bytes}

instance : DecidableRel (Precedes (S := S)) := fun a b =>
  inferInstanceAs (Decidable (a.1 < b.1 ∨ a.1=b.1 ∧ a.2 < b.2))

theorem Precedes.irrefl (a : S×Bytes) : ¬Precedes a a := by
  rintro (h | ⟨-,h⟩)
  · exact lt_irrefl _ h
  · exact Std.lt_irrefl h

theorem Precedes.trans (hab : Precedes a b) (hbc : Precedes b c) : Precedes a c := by
  rcases hab with hab | ⟨hab,hab'⟩ <;> rcases hbc with hbc | ⟨hbc,hbc'⟩
  · exact .inl (hab.trans hbc)
  · exact .inl (hbc ▸ hab)
  · exact .inl (hab ▸ hbc)
  · exact .inr ⟨hab.trans hbc,Std.lt_trans hab' hbc'⟩

theorem Precedes.total (h : a≠b) : Precedes a b ∨ Precedes b a := by
  rcases lt_trichotomy a.1 b.1 with hlt | heq | hgt
  · exact .inl (.inl hlt)
  · rcases Std.lt_trichotomy a.2 b.2 with hlt | heq' | hgt
    · exact .inl (.inr ⟨heq,hlt⟩)
    · exact absurd (Prod.ext heq heq') h
    · exact .inr (.inr ⟨heq.symm,hgt⟩)
  · exact .inr (.inl hgt)

theorem Precedes.score_le (h : Precedes a b) : a.1 ≤ b.1 := by
  rcases h with h | h
  · exact h.le
  · exact h.1.le

end Order

section Ascending

variable {A : Type}

theorem filter_eq_takeWhile {R : A → A → Prop} {p : A → Bool}
    (hdown : ∀ {a b},R a b → p b=true → p a=true) {xs : List A} (h : xs.Pairwise R) :
    xs.filter p=xs.takeWhile p := by
  induction xs with
  | nil => rfl
  | cons x xs ih =>
    obtain ⟨hx,hxs⟩ := pairwise_cons.mp h
    by_cases hp : p x=true
    · rw [filter_cons_of_pos hp,takeWhile_cons_of_pos hp,ih hxs]
    · rw [filter_cons_of_neg hp,takeWhile_cons_of_neg hp,filter_eq_nil_iff]
      exact fun y hy hpy => hp (hdown (hx y hy) hpy)

theorem forall_of_getLast {R : A → A → Prop} {p : A → Bool}
    (hdown : ∀ {a b},R a b → p b=true → p a=true) {xs : List A} (h : xs.Pairwise R)
    (hlast : ∀ x,xs.getLast?=some x → p x=true) : ∀ x∈xs,p x=true := by
  induction xs with
  | nil => exact nofun
  | cons x xs ih =>
    obtain ⟨hx,hxs⟩ := pairwise_cons.mp h
    have hrest : ∀ y∈xs,p y=true := by
      refine ih hxs fun y hy => hlast y ?_
      rw [getLast?_cons,hy]
      rfl
    intro y hy
    rcases mem_cons.mp hy with rfl | hy
    · cases hlist : xs with
      | nil => exact hlast y (by rw [hlist]; rfl)
      | cons z zs =>
        have hz : z∈xs := by
          rw [hlist]
          exact mem_cons_self
        exact hdown (hx z hz) (hrest z hz)
    · exact hrest y hy

theorem forall_of_head {R : A → A → Prop} {p : A → Bool}
    (hdown : ∀ {a b},R a b → p b=true → p a=true) {xs : List A} (h : xs.Pairwise R)
    (hhead : ∀ x,xs.head?=some x → p x=false) : ∀ x∈xs,p x=false := by
  cases xs with
  | nil => exact nofun
  | cons x xs =>
    obtain ⟨hx,-⟩ := pairwise_cons.mp h
    have hfirst := hhead x rfl
    intro y hy
    rcases mem_cons.mp hy with rfl | hy
    · exact hfirst
    · rw [Bool.eq_false_iff]
      intro hp
      rw [hdown (hx y hy) hp] at hfirst
      cases hfirst

theorem split_ascending {R : A → A → Prop} {p : A → Bool} {ys zs : List A}
    (h : (ys++zs).Pairwise R) (hdown : ∀ {a b},R a b → p b=true → p a=true)
    (hlast : ∀ y,ys.getLast?=some y → p y=true) (hhead : ∀ z,zs.head?=some z → p z=false) :
    (∀ y∈ys,p y=true) ∧ ∀ z∈zs,p z=false :=
  have hparts := pairwise_append.mp h
  ⟨@forall_of_getLast A R p hdown ys hparts.1 hlast,@forall_of_head A R p hdown zs hparts.2.1 hhead⟩

/-- A run from the first element that passes a test closed upwards to the first that fails one
closed downwards has exactly the elements that pass both. -/
theorem run_eq_filter {R : A → A → Prop} {p q : A → Bool}
    (hup : ∀ {a b},R a b → p a=true → p b=true) (hdown : ∀ {a b},R a b → q b=true → q a=true)
    {xs : List A} (h : xs.Pairwise R) :
    (xs.dropWhile fun x => !p x).takeWhile q=xs.filter fun x => p x && q x := by
  induction xs with
  | nil => rfl
  | cons x xs ih =>
    obtain ⟨hx,hxs⟩ := pairwise_cons.mp h
    cases hp : p x with
    | false => rw [dropWhile_cons_of_pos (by rw [hp]; rfl),ih hxs,filter_cons_of_neg (by simp [hp])]
    | true =>
      have hall : ∀ y∈x::xs,p y=true := by
        intro y hy
        rcases mem_cons.mp hy with rfl | hy
        · exact hp
        · exact hup (hx y hy) hp
      rw [dropWhile_cons_of_neg (by simp [hp]),← @filter_eq_takeWhile A R q hdown _ h]
      exact filter_congr fun y hy => by rw [hall y hy,Bool.true_and]

end Ascending

end Mnemos
