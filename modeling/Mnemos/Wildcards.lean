import Mathlib.Computability.Language

/-!
# Words of patterns with stars

A pattern is a product of languages of single letters and of stars. A star that
stands further right makes the choices of an earlier one unnecessary: whatever
the earlier one may swallow, the later one can swallow as well.
-/

namespace Wildcards

variable {α : Type*} {L : Language α} {w : List α}

def letters (p : α → Prop) : Language α := {w | ∃ c,p c ∧ w=[c]}

theorem mem_letters_mul {p : α → Prop} : w∈letters p*L ↔ ∃ c t,w=c::t ∧ p c ∧ t∈L := by
  rw [Language.mem_mul]
  constructor
  · rintro ⟨_,⟨c,hc,rfl⟩,t,ht,rfl⟩
    exact ⟨c,t,rfl,hc,ht⟩
  · rintro ⟨c,t,rfl,hc,ht⟩
    exact ⟨[c],⟨c,hc,rfl⟩,t,ht,rfl⟩

theorem mem_top_mul : w∈(⊤ : Language α)*L ↔ ∃ k,w.drop k∈L := by
  rw [Language.mem_mul]
  constructor
  · rintro ⟨a,-,t,ht,rfl⟩
    exact ⟨a.length,by rwa [List.drop_left]⟩
  · rintro ⟨k,hk⟩
    exact ⟨w.take k,trivial,w.drop k,hk,List.take_append_drop k w⟩

theorem top_mul_top_mul : (⊤ : Language α)*(⊤*L)=⊤*L := by
  ext w
  rw [mem_top_mul,mem_top_mul]
  constructor
  · rintro ⟨k,hk⟩
    obtain ⟨j,hj⟩ := mem_top_mul.mp hk
    exact ⟨k+j,by rwa [←List.drop_drop]⟩
  · rintro ⟨k,hk⟩
    exact ⟨0,mem_top_mul.mpr ⟨k,hk⟩⟩

theorem drop_mem_of_letters {pre : List (Language α)} (hpre : ∀ l∈pre,∃ p,l=letters p)
    (h : w∈pre.prod*L) : w.drop pre.length∈L := by
  induction pre generalizing w with
  | nil => simpa using h
  | cons l rest ih =>
    obtain ⟨p,rfl⟩ := hpre l List.mem_cons_self
    rw [List.prod_cons,mul_assoc,mem_letters_mul] at h
    obtain ⟨c,t,rfl,-,ht⟩ := h
    exact ih (fun l hl => hpre l (List.mem_cons_of_mem _ hl)) ht

end Wildcards
