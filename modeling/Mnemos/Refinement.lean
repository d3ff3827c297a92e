/-!
# Operations against their specification

An implementation and its specification offer the same operations. A sequence
of operations is followed when every result is the specified one and what an
observer sees of the two states agrees before each operation and at the end.
-/

namespace Refinement

variable {Op S A R : Type}

structure Design (Op S A R : Type) where
  step : Op → S → R×S
  spec : Op → A → R×A
  Sees : S → A → Prop

namespace Design

variable (D : Design Op S A R)

/-- Results and observations are the specified ones all along. -/
def Follows : List Op → S → A → Prop
  | [],s,a => D.Sees s a
  | op::ops,s,a => D.Sees s a ∧ (D.step op s).1=(D.spec op a).1 ∧
      Follows ops (D.step op s).2 (D.spec op a).2

def Meets (Allowed : Op → S → A → Prop) : List Op → S → A → Prop
  | [],_,_ => True
  | op::ops,s,a => Allowed op s a ∧ Meets Allowed ops (D.step op s).2 (D.spec op a).2

/-- A relation that allowed operations keep and that an observer cannot tell from equality. -/
structure Simulates (Rel : S → A → Prop) (Allowed : Op → S → A → Prop) : Prop where
  sees : ∀ {s a},Rel s a → D.Sees s a
  result : ∀ {op s a},Rel s a → Allowed op s a → (D.step op s).1=(D.spec op a).1
  next : ∀ {op s a},Rel s a → Allowed op s a → Rel (D.step op s).2 (D.spec op a).2

variable {D} {Rel : S → A → Prop} {Allowed : Op → S → A → Prop}

theorem meets_of_forall (ops : List Op) (h : ∀ op∈ops,∀ s a,Allowed op s a) :
    ∀ s a,D.Meets Allowed ops s a := by
  induction ops with
  | nil => exact fun _ _ => trivial
  | cons op ops ih =>
    intro s a
    exact ⟨h op List.mem_cons_self s a,
      ih (fun op' hop' => h op' (List.mem_cons_of_mem op hop')) _ _⟩

theorem Simulates.follows (h : D.Simulates Rel Allowed) (ops : List Op) : ∀ {s : S} {a : A},
    Rel s a → D.Meets Allowed ops s a → D.Follows ops s a := by
  induction ops with
  | nil => exact fun hrel _ => h.sees hrel
  | cons op ops ih =>
    intro s a hrel hmeets
    exact ⟨h.sees hrel,h.result hrel hmeets.1,ih (h.next hrel hmeets.1) hmeets.2⟩

theorem Follows.sees {ops : List Op} {s : S} {a : A} (h : D.Follows ops s a) : D.Sees s a := by
  cases ops with
  | nil => exact h
  | cons op ops => exact h.1

/-- Where a refused operation of a kind shows, a sequence of that kind that is followed has
allowed operations only. -/
theorem Simulates.meets_of_follows (h : D.Simulates Rel Allowed) {Kind : Op → Prop}
    (hbroken : ∀ {op s a},Kind op → Rel s a → ¬Allowed op s a →
      ¬D.Sees (D.step op s).2 (D.spec op a).2)
    (ops : List Op) (hkind : ∀ op∈ops,Kind op) : ∀ {s : S} {a : A},Rel s a →
    D.Follows ops s a → D.Meets Allowed ops s a := by
  induction ops with
  | nil => exact fun _ _ => trivial
  | cons op ops ih =>
    intro s a hrel hfollows
    have hallowed : Allowed op s a := Classical.byContradiction fun hnot =>
      hbroken (hkind op List.mem_cons_self) hrel hnot hfollows.2.2.sees
    exact ⟨hallowed,ih (fun op' hop' => hkind op' (List.mem_cons_of_mem op hop'))
      (h.next hrel hallowed) hfollows.2.2⟩

theorem Simulates.follows_iff (h : D.Simulates Rel Allowed)
    (hbroken : ∀ {op s a},Rel s a → ¬Allowed op s a → ¬D.Sees (D.step op s).2 (D.spec op a).2)
    (ops : List Op) {s : S} {a : A} (hrel : Rel s a) :
    D.Follows ops s a ↔ D.Meets Allowed ops s a :=
  have hkind : ∀ op∈ops,(fun _ : Op => True) op := fun _ _ => trivial
  ⟨h.meets_of_follows (fun _ => hbroken) ops hkind hrel,h.follows ops hrel⟩

end Design

end Refinement
