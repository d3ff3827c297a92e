import Mathlib.Logic.Basic

/-!
# Programs that ask

A program is done or asks a question and goes on with the answer. What answers
is a function with a state of its own.
-/

namespace Mnemos

inductive Asking (Q : Type) (R : Q → Type) (A : Type) : Type where
  | done (a : A)
  | ask (q : Q) (next : R q → Asking Q R A)

namespace Asking

variable {Q : Type} {R : Q → Type} {A B S : Type}

protected def bind : Asking Q R A → (A → Asking Q R B) → Asking Q R B
  | done a,f => f a
  | ask q next,f => ask q fun r => (next r).bind f

instance : Monad (Asking Q R) where
  pure := done
  bind := Asking.bind

theorem bind_done (p : Asking Q R A) : p >>= pure=p := by
  induction p with
  | done a => rfl
  | ask q next ih => exact congrArg (ask q) (funext ih)

theorem bind_bind {C : Type} (p : Asking Q R A) (f : A → Asking Q R B) (g : B → Asking Q R C) :
    p >>= f >>= g=p >>= fun a => f a >>= g := by
  induction p with
  | done a => rfl
  | ask q next ih => exact congrArg (ask q) (funext ih)

instance : LawfulMonad (Asking Q R) := LawfulMonad.mk' (Asking Q R) bind_done (fun _ _ => rfl) bind_bind

def question (q : Q) : Asking Q R (R q) := ask q done

def run (answer : (q : Q) → S → R q×S) : Asking Q R A → S → A×S
  | done a,s => (a,s)
  | ask q next,s => (next (answer q s).1).run answer (answer q s).2

theorem run_bind (answer : (q : Q) → S → R q×S) (p : Asking Q R A) (f : A → Asking Q R B) (s : S) :
    (p >>= f).run answer s=(f (p.run answer s).1).run answer (p.run answer s).2 := by
  induction p generalizing s with
  | done a => rfl
  | ask q next ih => exact ih _ _

end Asking

end Mnemos
