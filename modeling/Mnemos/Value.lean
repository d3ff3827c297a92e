import Mnemos.HashValue
import Mnemos.ListValue
import Mnemos.SetValue
import Mnemos.ZSetValue

/-!
# Values

A value is a string in one of three encodings or a collection, with the time of
its last access.
-/

namespace Mnemos

open scoped List

/-- Actual `data_` with the `type_` and `encoding_` that belong to it. -/
inductive Data where
  | int (n : ℤ)
  | embStr (s : Bytes)
  | raw (s : Bytes)
  | list (l : ListValue)
  | hash (h : HashValue)
  | set (s : SetValue)
  | zset (z : ZSetValue)

structure Value where
  data : Data
  lastAccess : ℤ

namespace Value

def of (data : Data) : Value := ⟨data,0⟩

def makeString (s : Bytes) : Value :=
  match stringToInt64 s with
  | some n => of (.int n)
  | none => if s.length ≤ kEmbStrSizeLimit then of (.embStr s) else of (.raw s)

def makeRawString (s : Bytes) : Value := of (.raw s)

def makeInt (n : ℤ) : Value := of (.int n)

def makeList : Value := of (.list .empty)

def makeHash : Value := of (.hash .empty)

def makeSet : Value := of (.set .empty)

def makeZSet : Value := of (.zset .empty)

def type (v : Value) : ObjType :=
  match v.data with
  | .int _ | .embStr _ | .raw _ => .string
  | .list _ => .list
  | .hash _ => .hash
  | .set _ => .set
  | .zset _ => .zset

def encoding (v : Value) : ObjEncoding :=
  match v.data with
  | .int _ => .int
  | .embStr _ => .embStr
  | .raw _ => .raw
  | .list l => l.encoding
  | .hash h => h.encoding
  | .set s => s.encoding
  | .zset z => z.encoding

def elementCount (v : Value) : ℕ :=
  match v.data with
  | .int _ | .embStr _ | .raw _ => 1
  | .list l => l.size
  | .hash h => h.size
  | .set s => s.size
  | .zset z => z.size

def stringValue (v : Value) : Bytes :=
  match v.data with
  | .int n => intDecimal n
  | .embStr s | .raw s => s
  | _ => []

def asInt (v : Value) : Option ℤ :=
  match v.data with
  | .int n => some n
  | .embStr s | .raw s => stringToInt64 s
  | _ => none

def makeMutable (v : Value) : Value :=
  match v.data with
  | .raw _ => v
  | _ => { v with data := .raw v.stringValue }

def appendString (v : Value) (suffix : Bytes) : Value :=
  { v with data := .raw (v.stringValue++suffix) }

/-- Writing through the reference that `mutableString` returns. -/
def mutateString (v : Value) (change : Bytes → Bytes) : Value :=
  { v with data := .raw (change v.stringValue) }

def digitLoop : ℕ → ℕ → ℕ
  | 0,_ => 0
  | fuel+1,magnitude => if magnitude/10=0 then 1 else digitLoop fuel (magnitude/10)+1

def stringLength (v : Value) : ℕ :=
  match v.data with
  | .int n => (if n < 0 then 1 else 0)+digitLoop 20 n.natAbs
  | .embStr s | .raw s => s.length
  | _ => 0

def list (v : Value) : Option ListValue :=
  match v.data with
  | .list l => some l
  | _ => none

def hash (v : Value) : Option HashValue :=
  match v.data with
  | .hash h => some h
  | _ => none

def set (v : Value) : Option SetValue :=
  match v.data with
  | .set s => some s
  | _ => none

def zset (v : Value) : Option ZSetValue :=
  match v.data with
  | .zset z => some z
  | _ => none

def touch (v : Value) (now : ℤ) : Value := { v with lastAccess := now }

section Text

variable [FloatText]

def copy (v : Value) (draws : Draws) : Value×Draws :=
  match v.data with
  | .hash h => ({ v with data := .hash h.copy },draws)
  | .set s => ({ v with data := .set s.copy },draws)
  | .zset z =>
    let (copied,draws) := z.copy draws
    ({ v with data := .zset copied },draws)
  | _ => (v,draws)

/-- Values of one type with the same contents; scores are compared as numbers. -/
def SameContents (v w : Value) : Prop :=
  match v.data,w.data with
  | .list l,.list m => l.toVector=m.toVector
  | .hash h,.hash k => h.entries ~ k.entries
  | .set s,.set t => s.members ~ t.members
  | .zset y,.zset z =>
    List.Forall₂ (fun a b : Bytes×Double => a.1=b.1 ∧ a.2.eq b.2=true) y.all z.all
  | .list _,_ | .hash _,_ | .set _,_ | .zset _,_ => False
  | _,_ => w.type=.string ∧ v.stringValue=w.stringValue

theorem SameContents.type {v w : Value} (h : v.SameContents w) : w.type=v.type := by
  obtain ⟨data,lastAccess⟩ := v
  obtain ⟨data',lastAccess'⟩ := w
  cases data <;> cases data' <;> first | rfl | exact h.1 | exact h.elim

end Text

/-! ## Updates of a string -/

section Strings

open List

theorem digitLoop_eq {fuel n : ℕ} (hfuel : 0 < fuel) (h : n < 10^fuel) :
    digitLoop fuel n=(natDecimal n).length := by
  induction fuel generalizing n with
  | zero => exact absurd hfuel (lt_irrefl 0)
  | succ fuel ih =>
    rw [digitLoop,natDecimal_eq]
    by_cases hn : n < 10
    · rw [if_pos (by omega),if_pos hn,length_singleton]
    · obtain ⟨hpos,hdiv⟩ := div_ten_lt hn h
      rw [if_neg (by omega),if_neg hn,ih hpos hdiv,length_append,length_singleton]

/-- The string value `v` stands for the text `s`; its integer is an `int64`. -/
def Represents (v : Value) (s : Bytes) : Prop :=
  match v.data with
  | .int n => FitsSigned 64 n ∧ s=intDecimal n
  | .embStr t | .raw t => s=t
  | _ => False

/-- One update; `mutableString` with what is written through its reference. -/
inductive StringUpdate where
  | makeString (s : Bytes)
  | makeInt (n : ℤ) (fits : FitsSigned 64 n)
  | appendString (suffix : Bytes)
  | mutableString (change : Bytes → Bytes)

def StringUpdate.apply (v : Value) : StringUpdate → Value
  | .makeString s => .makeString s
  | .makeInt n _ => .makeInt n
  | .appendString suffix => v.appendString suffix
  | .mutableString change => v.mutateString change

def StringUpdate.text (s : Bytes) : StringUpdate → Bytes
  | .makeString t => t
  | .makeInt n _ => intDecimal n
  | .appendString suffix => s++suffix
  | .mutableString change => change s

theorem makeString_represents (s : Bytes) : (makeString s).Represents s := by
  rw [makeString]
  split
  · rename_i n hn
    obtain ⟨hs,hfits⟩ := stringToInt64_eq_some.mp hn
    exact ⟨hfits,hs⟩
  · split <;> exact rfl

namespace Represents

variable {v : Value} {s : Bytes}

theorem type (h : v.Represents s) : v.type=.string := by
  obtain ⟨data,lastAccess⟩ := v
  cases data <;> first | rfl | exact h.elim

theorem stringValue (h : v.Represents s) : v.stringValue=s := by
  obtain ⟨data,lastAccess⟩ := v
  cases data with
  | int n => exact h.2.symm
  | embStr t | raw t => exact Eq.symm h
  | list _ | hash _ | set _ | zset _ => exact h.elim

theorem stringLength (h : v.Represents s) : v.stringLength=s.length := by
  obtain ⟨data,lastAccess⟩ := v
  cases data with
  | int n =>
    obtain ⟨⟨hlow,hhigh⟩,rfl⟩ := h
    have hdigits := digitLoop_eq (by decide : 0 < 20) (by omega : n.natAbs < 10^20)
    simp only [Value.stringLength,intDecimal,hdigits]
    split
    · rw [length_cons,add_comm]
    · exact Nat.zero_add _
  | embStr t | raw t => exact congrArg length (Eq.symm h)
  | list _ | hash _ | set _ | zset _ => exact h.elim

theorem asInt (h : v.Represents s) (n : ℤ) :
    v.asInt=some n ↔ FitsSigned 64 n ∧ s=intDecimal n := by
  obtain ⟨data,lastAccess⟩ := v
  cases data with
  | int m =>
    obtain ⟨hfits,rfl⟩ := h
    constructor
    · intro hn
      cases Option.some.inj hn
      exact ⟨hfits,rfl⟩
    · intro hn
      exact congrArg some (intDecimal_inj hn.2)
  | embStr t | raw t =>
    cases h
    exact stringToInt64_eq_some.trans and_comm
  | list _ | hash _ | set _ | zset _ => exact h.elim

theorem apply (h : v.Represents s) (u : StringUpdate) : (u.apply v).Represents (u.text s) := by
  cases u with
  | makeString t => exact makeString_represents t
  | makeInt n fits => exact ⟨fits,rfl⟩
  | appendString suffix => exact congrArg (·++suffix) h.stringValue.symm
  | mutableString change => exact congrArg change h.stringValue.symm

theorem run (h : v.Represents s) (updates : List StringUpdate) :
    (updates.foldl StringUpdate.apply v).Represents (updates.foldl StringUpdate.text s) := by
  induction updates generalizing v s with
  | nil => exact h
  | cons u updates ih => exact ih (h.apply u)

end Represents

/-- **Canonical integers**: the strict parse accepts exactly what `std::to_string` prints, and any
sequence of updates leaves a value that reads as the updated text, in whichever encoding. -/
theorem string_updates :
    (∀ (s : Bytes) (n : ℤ),stringToInt64 s=some n ↔ FitsSigned 64 n ∧ s=intDecimal n) ∧
      ∀ {v : Value} {s : Bytes},v.Represents s → ∀ updates : List StringUpdate,
        (updates.foldl StringUpdate.apply v).stringValue=updates.foldl StringUpdate.text s ∧
        (updates.foldl StringUpdate.apply v).stringLength=
          (updates.foldl StringUpdate.text s).length ∧
        ∀ n,(updates.foldl StringUpdate.apply v).asInt=some n ↔
          FitsSigned 64 n ∧ updates.foldl StringUpdate.text s=intDecimal n := by
  refine ⟨fun _ _ => stringToInt64_eq_some.trans and_comm,fun h updates => ?_⟩
  have hrun := h.run updates
  exact ⟨hrun.stringValue,hrun.stringLength,hrun.asInt⟩

theorem string_updates_digits : (makeInt (-2^63)).Represents (intDecimal (-2^63)) ∧
    ([StringUpdate.makeString (ascii "4"),.appendString (ascii "2")].foldl StringUpdate.apply
      (makeInt (-2^63))).asInt=some 42 := by
  have hmade : (makeInt (-2^63)).Represents (intDecimal (-2^63)) := ⟨by decide,rfl⟩
  exact ⟨hmade,((string_updates.2 hmade _).2.2 42).mpr ⟨by decide,by decide +kernel⟩⟩

end Strings

end Value

end Mnemos
